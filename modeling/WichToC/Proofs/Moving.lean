import WichToC.Proofs.Counted

/-!
# The code of statements without blocks

`StatForm sweep s code` gives the code of each kind of statement without blocks, with the slots
`sweep` released ahead of a return.  Its parts are moved expressions, captured values, counts and
the statement itself over what its operands are moved to: `StatForm.of_parts` proves something of
the code from what holds of such parts.
-/

namespace WichToC

open List Node

namespace Counting

variable {n : Node} {t : Table}

/-! ## Statements without blocks -/

/-- A heap value is moved to a setup and a temporary of it, `capture` if there is no other. -/
inductive HeldIn (capture : String) (ty : Ty) : Node → Setup → String → Ty → Prop
  | found {e : Node} {s : Setup} {holder : String} {holderTy : Ty}
      (moved : Moved e s (.temp holder holderTy)) : HeldIn capture ty e s holder holderTy
  | captured {e m : Node} {s : Setup} (moved : Moved e s m) :
      HeldIn capture ty e (s ++ .define capture ty m false) capture ty

theorem hold_heldIn {capture : String} {ty : Ty} (hexpr : n.All (IsExprNode t)) : ∃ holderTy,
      (hold capture ty n).2.1 = .temp (hold capture ty n).2.2 holderTy ∧
        HeldIn capture ty n (hold capture ty n).1 (hold capture ty n).2.2 holderTy := by
  have h := hoist_moved hexpr
  unfold hold
  obtain ⟨setup, m, hm⟩ : ∃ setup m, hoist n = (setup, m) := ⟨_, _, rfl⟩
  rw [hm] at h ⊢
  dsimp only at h ⊢
  split
  · exact ⟨_, rfl, .found h⟩
  · exact ⟨ty, rfl, .captured h⟩

/-- The code of statements without blocks; a return releases the slots in `sweep`. -/
inductive StatForm (sweep : List String) : Node → List Node → Prop
  | varDef {name : String} {ty : Ty} {e m : Node} {s : Setup} (moved : Moved e s m) :
      StatForm sweep (.varDef name ty (some e))
        (s.stats ++ .varDef name ty (some m) :: if ty.isHeap then [.refer name] else [])
  | assign {name capture : String} {ty : Ty} {e m : Node} {s : Setup} (heap : ty.isHeap = false)
      (moved : Moved e s m) :
      StatForm sweep (.assign name ty capture (some e))
        (s.stats ++ [.assign name ty capture (some m)])
  | assignHeap {name capture holder : String} {ty holderTy : Ty} {e : Node} {s : Setup}
      (heap : ty.isHeap = true) (held : HeldIn capture ty e s holder holderTy) :
      StatForm sweep (.assign name ty capture (some e)) (s.stats ++
        [.release name, .assign name ty capture (some (.temp holder holderTy)), .refer name])
  | elementAssign {name : String} {i e i' m : Node} {s s' : Setup} (place : Moved i s i')
      (moved : Moved e s' m) :
      StatForm sweep (.elementAssign name (some i) (some e))
        (s.stats ++ s'.stats ++ [.elementAssign name (some i') (some m)])
  | printNothing : StatForm sweep (.printStat none none) [.printStat none none]
  | printStat {ty : Ty} {e m : Node} {s : Setup} (moved : Moved e s m) :
      StatForm sweep (.printStat (some ty) (some e)) (s.stats ++ [.printStat (some ty) (some m)])
  | callHeap {e : Node} {s : Setup} {holder : String} {holderTy : Ty} (heap : e.isHeap = true)
      (notVar : e.kind ≠ .varRef) (moved : Moved e s (.temp holder holderTy)) :
      StatForm sweep (.callStat (some e)) s.stats
  | callStat {e m : Node} {s : Setup} (heap : e.isHeap = false) (moved : Moved e s m)
      (strict : mayShortCircuit e = false) :
      StatForm sweep (.callStat (some e)) (s.stats ++ [.callStat (some m)])
  /-- The operands of a call statement are moved ahead, also those of `&&` and `||`. -/
  | callLogical {op temp : String} {ty operandTy : Ty} {l r : Node}
      (logical : isShortCircuit op = true) (left : Moved l (hoist l).1 (hoist l).2)
      (right : Moved r (hoist r).1 (hoist r).2) :
      StatForm sweep (.callStat (some (.binary .int op ty operandTy temp (some l) (some r))))
        ((hoist l).1.stats ++ (hoist r).1.stats ++
          [.callStat (some
            (.binary .int op ty operandTy temp (some (hoist l).2) (some (hoist r).2)))])
  | returnStat {capture : String} {ty : Ty} {e m : Node} {s : Setup} (heap : ty.isHeap = false)
      (moved : Moved e s m) :
      StatForm sweep (.returnStat ty capture (some e))
        (s.stats ++ .tempDef capture ty true (some m) ::
          (releases sweep ++ [.returnStat ty capture (some (.temp capture ty))]))
  | returnHeap {capture holder : String} {ty holderTy : Ty} {e : Node} {s : Setup}
      (heap : ty.isHeap = true) (held : HeldIn capture ty e s holder holderTy) :
      StatForm sweep (.returnStat ty capture (some e))
        (s.stats ++ .refer holder ::
          (releases sweep ++ [.returnStat ty capture (some (.temp holder holderTy))]))

/-- A statement without blocks is the same but for its operands. -/
inductive Restates : Node → Node → Prop
  | varDef {name : String} {ty : Ty} {e m : Option Node} :
      Restates (.varDef name ty e) (.varDef name ty m)
  | assign {name capture : String} {ty : Ty} {e m : Option Node} :
      Restates (.assign name ty capture e) (.assign name ty capture m)
  | elementAssign {name : String} {i e i' m : Option Node} :
      Restates (.elementAssign name i e) (.elementAssign name i' m)
  | printStat {ty : Option Ty} {e m : Option Node} : Restates (.printStat ty e) (.printStat ty m)
  | callStat {e m : Option Node} : Restates (.callStat e) (.callStat m)
  | returnStat {ty : Ty} {capture : String} {e m : Option Node} :
      Restates (.returnStat ty capture e) (.returnStat ty capture m)

/-- The variable that a statement gives a value. -/
def target? : Node → Option String
  | .varDef name .. | .assign name .. => some name
  | _ => none

/-- **Code part by part.**  `P` holds of the code of a statement if it holds of its parts: the
setups of its expressions, the statement over what is left of them, of which `Q` holds, and
counts. -/
theorem StatForm.of_parts {P : List Node → Prop} {Q : Node → Prop} {sweep : List String} {s : Node}
    {code : List Node} (h : StatForm sweep s code) (nil : P [])
    (append : ∀ {ns ns'}, P ns → P ns' → P (ns ++ ns'))
    (moved : ∀ {e setup m}, e ∈ s.children → Moved e setup m → (setup.stats ⊆ code) →
      P setup.stats ∧ Q m)
    (capture : ∀ {name ty m}, name ∈ s.ownNames → Q m →
      ((Setup.define name ty m false).stats ⊆ code) →
        P (Setup.define name ty m false).stats ∧ Q (.temp name ty))
    (stat : ∀ {n}, Restates s n → (∀ c ∈ n.children, Q c) → P [n])
    (count : ∀ kind, ∀ x ∈ target? s, P [.count kind x])
    (held : ∀ {name ty}, Q (.temp name ty) → P [.refer name]) (sweeps : P (releases sweep))
    (logical : ∀ {op temp ty operandTy l r}, isShortCircuit op = true →
      s = .callStat (some (.binary .int op ty operandTy temp (some l) (some r))) →
      Moved l (hoist l).1 (hoist l).2 → Moved r (hoist r).1 (hoist r).2 →
      code = (hoist l).1.stats ++ (hoist r).1.stats ++ [.callStat (some
        (.binary .int op ty operandTy temp (some (hoist l).2) (some (hoist r).2)))] → P code) :
    P code := by
  have one : ∀ {m}, Q m → ∀ c ∈ [m], Q c := fun hm => forall_mem_singleton.mpr hm
  have hheld : ∀ {name ty e setup holder holderTy}, HeldIn name ty e setup holder holderTy →
      e ∈ s.children → name ∈ s.ownNames → (setup.stats ⊆ code) →
        P setup.stats ∧ Q (.temp holder holderTy) := by
    intro name ty e setup holder holderTy hheld he hname hsub
    cases hheld with
    | found hmoved => exact moved he hmoved hsub
    | captured hmoved =>
      obtain ⟨hstats, hm⟩ := moved he hmoved fun n hn => hsub (mem_append_left _ hn)
      obtain ⟨hdefine, htemp⟩ := capture hname hm fun n hn => hsub (mem_append_right _ hn)
      exact ⟨append hstats hdefine, htemp⟩
  cases h with
  | @varDef name ty e m setup hmoved =>
    obtain ⟨hstats, hm⟩ := moved (.head _) hmoved fun n => mem_append_left _
    have hrefer : P (if ty.isHeap then [.refer name] else []) := by
      split
      · exact count .ref name rfl
      · exact nil
    exact append hstats (append (stat (n := .varDef name ty (some m)) .varDef (one hm)) hrefer)
  | assign _ hmoved | printStat hmoved | callStat _ hmoved =>
    obtain ⟨hstats, hm⟩ := moved (.head _) hmoved fun n => mem_append_left _
    exact append hstats (stat (by constructor) (one hm))
  | @assignHeap name own holder ty holderTy e setup _ hvalue =>
    obtain ⟨hstats, hm⟩ := hheld hvalue (.head _) (.head _) fun n => mem_append_left _
    have hassign := stat (n := .assign name ty own (some (.temp holder holderTy))) .assign (one hm)
    exact append hstats (append (append (count .deref name rfl) hassign) (count .ref name rfl))
  | elementAssign place hmoved =>
    obtain ⟨hplace, hi⟩ := moved (.head _) place fun n hn =>
      mem_append_left _ (mem_append_left _ hn)
    obtain ⟨hstats, hm⟩ := moved (.tail _ (.head _)) hmoved fun n hn =>
      mem_append_left _ (mem_append_right _ hn)
    exact append (append hplace hstats) (stat .elementAssign (forall_mem_cons.mpr ⟨hi, one hm⟩))
  | printNothing => exact stat .printStat nofun
  | callHeap _ _ hmoved => exact (moved (.head _) hmoved fun _ hn => hn).1
  | callLogical hop left right => exact logical hop rfl left right rfl
  | @returnStat name ty e m setup heap hmoved =>
    obtain ⟨hstats, hm⟩ := moved (.head _) hmoved fun n => mem_append_left _
    have hdef : (Setup.define name ty m false).stats = [.tempDef name ty true (some m)] := by
      simp [Setup.define, heap]
    obtain ⟨hdefine, htemp⟩ := @capture name ty m (.head _) hm (by simp [hdef])
    rw [hdef] at hdefine
    exact append hstats (append hdefine (append sweeps (stat .returnStat (one htemp))))
  | returnHeap _ hvalue =>
    obtain ⟨hstats, hm⟩ := hheld hvalue (.head _) (.head _) fun n => mem_append_left _
    exact append hstats (append (held hm) (append sweeps (stat .returnStat (one hm))))

end Counting

end WichToC

import WichToC.Proofs.Lifetimes
import WichToC.Proofs.Sweeps

/-!
# What code keeps

`Ensures` is the weakest precondition of a piece of code, for one object.  There is one rule for
each kind of statement.  From the rules follows what the statements do that counting makes of one
without blocks: a store with the reference that it takes, an assignment, a return, a setup.  All of
them keep what the cells in scope own.
-/

namespace WichToC.Machine

open List Counting Cells Option Covers

variable {ns' : List Node} {cells' : Cells} {m' : Memory} {out : Outcome} {slot x capture : String}
    {holderTy : Ty}

/-- The executions of code keep the object intact, and unless they are cut off, `Q` holds where they
end. -/
def Ensures (o : Nat) (call : CallRel) (waiting : Waiting) (code : Code)
    (Q : Outcome → Cells → Memory → Prop) (cells : Cells) (m : Memory) : Prop :=
  ∀ out cells' m', Executes call waiting code cells m out cells' m' →
    Intact o (out ≠ .cut → Q out cells' m') m'

/-- What is to hold after the first of two pieces of code. -/
def followedBy (first : Cells → Memory → Prop) (Q : Outcome → Cells → Memory → Prop) :
    Outcome → Cells → Memory → Prop
  | .next => first
  | out => Q out

section Rules

variable {o : Nat} {call : CallRel} {waiting : Waiting} {Q Q' : Outcome → Cells → Memory → Prop}
  {cells : Cells} {m : Memory} {n c : Node} {ns : List Node} {b : CBlock Node}

theorem Ensures.live_stat (h : Ensures o call waiting (.stat n) Q cells m) : UsesLive o m.past :=
  (h _ _ _ (.cutInside .cut)).live

/-- Executions keep the names of the cells. -/
theorem Ensures.mono (hcall : CallSound o call) {code : Code}
    (h : Ensures o call waiting code Q cells m)
    (hQ : ∀ out cells' m', out ≠ .cut → cells'.names = cells.names → Q out cells' m' →
    Q' out cells' m') :
    Ensures o call waiting code Q' cells m := fun out cells' m' hrun =>
  (h out cells' m' hrun).imp fun hq hne =>
    hQ out cells' m' hne (hrun.follows hcall.follows).2 (hq hne)

theorem ensures_nil (hlive : UsesLive o m.past) (h : Q .next cells m) :
    Ensures o call waiting (.stats []) Q cells m := by
  intro out cells' m' hrun
  cases hrun with
  | nil => exact ⟨hlive, fun _ _ => h⟩
  | cut => exact ⟨hlive, fun _ hne => absurd rfl hne⟩

theorem executes_append (h : Executes call waiting (.stats (ns ++ ns')) cells m out cells' m') :
    (∃ cells₁ m₁, Executes call waiting (.stats ns) cells m .next cells₁ m₁ ∧
      Executes call waiting (.stats ns') cells₁ m₁ out cells' m') ∨
    (Executes call waiting (.stats ns) cells m out cells' m' ∧ out ≠ .next) := by
  induction ns generalizing cells m with
  | nil => exact .inl ⟨cells, m, .nil, h⟩
  | cons n ns ih =>
    cases h with
    | cut => exact .inr ⟨.cut, nofun⟩
    | cons first rest =>
      rcases ih rest with ⟨cells₁, m₁, hnext, hrest⟩ | ⟨hstop, hne⟩
      · exact .inl ⟨cells₁, m₁, .cons first hnext, hrest⟩
      · exact .inr ⟨.cons first hstop, hne⟩
    | stop first ends => exact .inr ⟨.stop first ends, ends⟩

theorem followedBy_of_ne {first : Cells → Memory → Prop}
    (hne : out ≠ .next) (h : followedBy first Q out cells' m') : Q out cells' m' := by
  cases out <;> first | exact h | exact absurd rfl hne

theorem ensures_append (hcall : CallSound o call)
    (h : Ensures o call waiting (.stats ns)
    (followedBy (fun cells' m' => cells'.names = cells.names →
      Ensures o call waiting (.stats ns') Q cells' m') Q) cells m) :
    Ensures o call waiting (.stats (ns ++ ns')) Q cells m := by
  intro out cells' m' hrun
  rcases executes_append hrun with ⟨cells₁, m₁, hfirst, hrest⟩ | ⟨hfirst, hne⟩
  · refine (h _ _ _ hfirst).bind (hrest.follows hcall.follows).1.past fun hnext => ?_
    exact hnext nofun (hfirst.follows hcall.follows).2 _ _ _ hrest
  · exact (h _ _ _ hfirst).imp fun hq hcut => followedBy_of_ne hne (hq hcut)

theorem ensures_single (h : Ensures o call waiting (.stat n) Q cells m) :
    Ensures o call waiting (.stats [n]) Q cells m := by
  intro out cells' m' hrun
  cases hrun with
  | cut => exact ⟨h.live_stat, fun _ hne => absurd rfl hne⟩
  | cons first rest =>
    cases rest with
    | nil => exact h _ _ _ first
    | cut => exact ⟨(h _ _ _ first).live, fun _ hne => absurd rfl hne⟩
  | stop first _ => exact h _ _ _ first

theorem ensures_cons (hcall : CallSound o call)
    (h : Ensures o call waiting (.stat n) (followedBy (fun cells' m' => cells'.names = cells.names →
      Ensures o call waiting (.stats ns) Q cells' m') Q) cells m) :
    Ensures o call waiting (.stats (n :: ns)) Q cells m := by
  rw [← singleton_append]
  exact ensures_append hcall (ensures_single h)

/-- A statement without blocks. -/
theorem ensures_simple (hn : isSimple n = true)
    (h : Yields o call waiting cells (operands n) (fun vs m₁ => ∀ after,
      effect waiting cells m₁ n vs = some after →
        UsesLive o after.2.2.past ∧ Q after.1 after.2.1 after.2.2) m) :
    Ensures o call waiting (.stat n) Q cells m := by
  intro out cells' m' hrun
  cases hrun with
  | cutInside values => exact ⟨(h _ _ values).live, fun _ hne => absurd rfl hne⟩
  | simple values effect =>
    refine (h _ _ values).bind (follows_effect (o := o) effect).1.past fun hvs => ?_
    obtain ⟨hlive, hQ⟩ := hvs _ rfl _ effect
    exact ⟨hlive, fun _ _ => hQ⟩
  | _ => cases hn

section

variable (hlive : UsesLive o m.past)

include hlive

theorem yields_nil {Q : List Value → Memory → Prop} (h : Q [] m) :
    Yields o call waiting cells [] Q m := by
  intro result m' heval
  obtain ⟨rfl, hnil⟩ := evaluates_nil heval
  exact ⟨hlive, fun _ vs hvs => hnil vs hvs ▸ h⟩

theorem ensures_refer (hafter : UsesLive o (m.refer (m.get cells slot)).past)
    (h : Q .next cells (m.refer (m.get cells slot))) :
    Ensures o call waiting (.stat (.refer slot)) Q cells m :=
  ensures_simple rfl (yields_nil hlive fun _ heffect => some.inj heffect ▸ ⟨hafter, h⟩)

theorem ensures_release (hafter : UsesLive o (m.release (m.get cells slot)).past)
    (h : Q .next cells (m.release (m.get cells slot))) :
    Ensures o call waiting (.stat (.release slot)) Q cells m :=
  ensures_simple rfl (yields_nil hlive fun _ heffect => some.inj heffect ▸ ⟨hafter, h⟩)

theorem ensures_breakStat (h : Q .broke cells m) :
    Ensures o call waiting (.stat .breakStat) Q cells m := by
  intro out cells' m' hrun
  cases hrun with
  | cutInside values =>
    obtain ⟨rfl, -⟩ := evaluates_nil values
    exact ⟨hlive, fun _ hne => absurd rfl hne⟩
  | simple values effect =>
    obtain ⟨rfl, -⟩ := evaluates_nil values
    cases effect
    exact ⟨hlive, fun _ _ => h⟩

end

theorem ensures_block (h : Ensures o call waiting (.stats (b.stats ++ b.cleanup))
      (fun out cells' m' => Q out (cells'.drop (cellsOf b).length) m') (cellsOf b ++ cells) m) :
    Ensures o call waiting (.block b) Q cells m := by
  intro out cells' m' hrun
  cases hrun with
  | block stats => exact h _ _ _ stats

theorem ensures_blockStat (h : Ensures o call waiting (.block b) Q cells m) :
    Ensures o call waiting (.stat (.blockStat (some (.block b)))) Q cells m := by
  intro out cells' m' hrun
  cases hrun with
  | cutInside values =>
    obtain ⟨rfl, -⟩ := evaluates_nil values
    exact ⟨(h _ _ _ (.block .cut)).live, fun _ hne => absurd rfl hne⟩
  | simple values effect => cases effect
  | blockStat inner => exact h _ _ _ inner

theorem ensures_inner (h : Ensures o call waiting (.block b) Q cells m) :
    Ensures o call waiting (.stat (.block b)) Q cells m := by
  intro out cells' m' hrun
  cases hrun with
  | cutInside values =>
    obtain ⟨rfl, -⟩ := evaluates_nil values
    exact ⟨(h _ _ _ (.block .cut)).live, fun _ hne => absurd rfl hne⟩
  | simple values effect => cases effect
  | inner inner => exact h _ _ _ inner

theorem ensures_ifStat (hcall : CallSound o call) {other : Option (CBlock Node)}
    (h : Yields o call waiting cells [c] (fun _ m₁ => Q .next cells m₁ ∧
      Ensures o call waiting (.block b) Q cells m₁ ∧
      ∀ b' ∈ other, Ensures o call waiting (.block b') Q cells m₁) m) :
    Ensures o call waiting
      (.stat (.ifStat (some c) (some (.block b)) (other.map Node.block))) Q cells m := by
  intro out cells' m' hrun
  cases other with
  | none =>
    cases hrun with
    | cutInside values => exact ⟨(h _ _ values).live, fun _ hne => absurd rfl hne⟩
    | simple values effect => cases effect
    | ifYes cond branch =>
      refine (h _ _ cond).bind (branch.follows hcall.follows).1.past fun hvs => ?_
      exact (hvs _ rfl).2.1 _ _ _ branch
    | ifSkip cond => exact (h _ _ cond).imp fun hvs _ => (hvs _ rfl).1
  | some b' =>
    cases hrun with
    | cutInside values => exact ⟨(h _ _ values).live, fun _ hne => absurd rfl hne⟩
    | simple values effect => cases effect
    | ifYes cond branch =>
      refine (h _ _ cond).bind (branch.follows hcall.follows).1.past fun hvs => ?_
      exact (hvs _ rfl).2.1 _ _ _ branch
    | ifNo cond branch =>
      refine (h _ _ cond).bind (branch.follows hcall.follows).1.past fun hvs => ?_
      exact (hvs _ rfl).2.2 b' rfl _ _ _ branch

theorem ensures_ifThen (hcall : CallSound o call)
    (h : Yields o call waiting cells [c] (fun _ m₁ => Q .next cells m₁ ∧
      Ensures o call waiting (.block b) Q cells m₁) m) :
    Ensures o call waiting (.stat (.ifStat (some c) (some (.block b)) none)) Q cells m :=
  @ensures_ifStat _ _ _ _ _ _ _ _ hcall none (h.mono fun _ _ hm => ⟨hm.1, hm.2, nofun⟩)

/-- A loop keeps what its condition and its body keep. -/
theorem ensures_whileStat (hcall : CallSound o call) (I : Cells → Memory → Prop)
    (hcond : ∀ cells m, I cells m → Yields o call waiting cells [c] (fun _ m' => I cells m') m)
    (hbody : ∀ cells m, I cells m → Ensures o call waiting (.block b) (fun out cells' m' =>
      match out with
      | .next => I cells' m'
      | .broke => Q .next cells' m'
      | out => Q out cells' m') cells m)
    (hdone : ∀ cells m, I cells m → Q .next cells m) (hI : I cells m) :
    Ensures o call waiting (.stat (.whileStat (some c) (some (.block b)))) Q cells m := by
  intro out cells' m' hrun
  generalize hcode : Code.stat (.whileStat (some c) (some (.block b))) = code at hrun
  induction hrun with
  | cutInside values =>
    cases hcode
    exact ⟨(hcond _ _ hI _ _ values).live, fun _ hne => absurd rfl hne⟩
  | simple values effect =>
    cases hcode
    cases effect
  | whileDone cond =>
    cases hcode
    exact (hcond _ _ hI _ _ cond).imp fun hvs _ => hdone _ _ (hvs _ rfl)
  | whileAgain cond body rest _ ih =>
    cases hcode
    refine (hcond _ _ hI _ _ cond).bind
      ((body.follows hcall.follows).1.past.trans (rest.follows hcall.follows).1.past) fun hvs => ?_
    refine (hbody _ _ (hvs _ rfl) _ _ _ body).bind (rest.follows hcall.follows).1.past fun hI => ?_
    exact ih (hI nofun) rfl
  | whileBroke cond body _ =>
    cases hcode
    refine (hcond _ _ hI _ _ cond).bind (body.follows hcall.follows).1.past fun hvs => ?_
    exact (hbody _ _ (hvs _ rfl) _ _ _ body).imp fun hQ _ => hQ nofun
  | @whileStop _ _ _ _ _ _ _ _ out cond body ends leaves _ =>
    cases hcode
    refine (hcond _ _ hI _ _ cond).bind (body.follows hcall.follows).1.past fun hvs => ?_
    refine (hbody _ _ (hvs _ rfl) _ _ _ body).imp fun hQ hne => ?_
    grind
  | _ => cases hcode

end Rules

/-! ## Statements without blocks -/

/-- A statement that evaluates an expression and stores its value. -/
inductive Stores : Node → String → Ty → Node → Prop
  | varDef {name : String} {ty : Ty} {e : Node} : Stores (.varDef name ty (some e)) name ty e
  | assign {name capture : String} {ty : Ty} {e : Node} :
      Stores (.assign name ty capture (some e)) name ty e
  | tempDef {name : String} {ty : Ty} {refInserted : Bool} {e : Node} :
      Stores (.tempDef name ty refInserted (some e)) name ty e

/-- Where statements without loops end: the cells in scope own what they hold, or the function has
given up what it owns and returns a value with a reference. -/
def Keeps (o reserve : Nat) : Outcome → Cells → Memory → Prop
  | .next, cells, m => Backed o reserve cells m
  | .returned v, _, m => Backed o (reserve + owing o v) [] m
  | _, _, _ => False

section Statements

variable {call : CallRel} {waiting : Waiting} {Q : Outcome → Cells → Memory → Prop} {cells : Cells}
  {m : Memory} {o reserve k : Nat} {name : String} {ty : Ty} {n e : Node} {slots : List String}

theorem ensures_store (hn : Stores n name ty e)
    (h : Yields o call waiting cells [e] (fun vs m₁ => ∃ v, vs = [v] ∧ UsesLive o m₁.past ∧
      Q .next (m₁.store waiting cells name (typed ty v)).1
        (m₁.store waiting cells name (typed ty v)).2) m) :
    Ensures o call waiting (.stat n) Q cells m := by
  have hsimple : isSimple n = true := by cases hn <;> rfl
  have hoperands : operands n = [e] := by cases hn <;> rfl
  have heffect : ∀ m₁ v, effect waiting cells m₁ n [v] =
      some (.next, m₁.store waiting cells name (typed ty v)) := by
    cases hn <;> exact fun _ _ => rfl
  refine ensures_simple hsimple (hoperands ▸ h.mono ?_)
  rintro vs m₁ ⟨v, rfl, hlive, hQ⟩ after hafter
  obtain rfl := some.inj ((heffect m₁ v).symm.trans hafter)
  exact ⟨hlive.store waiting cells name _, hQ⟩

section

variable (hcall : CallSound o call) (hn : Stores n name ty e) (he : e.OverSettled)

include hcall hn he

/-- A variable keeps its value as it is, if it does not live on the heap or comes from a call. -/
theorem ensures_kept (hadopts : ty.isHeap = true → isCall e = true) (hm : Backed o reserve cells m)
    (hQ : ∀ cells' m', Backed o reserve cells' m' → Q .next cells' m') :
    Ensures o call waiting (.stat n) Q cells m := by
  refine ensures_store hn ((operation_yields hcall he hm).mono ?_)
  rintro vs m₁ ⟨v, rfl, -, hm₁⟩
  refine ⟨v, rfl, hm₁.live, hQ _ _ (Backed.store (hm₁.mono (Nat.add_le_add_left ?_ _)) ..)⟩
  unfold typed
  split
  · grind
  · exact Nat.zero_le _

/-- A variable takes a reference to its value. -/
theorem ensures_taken
    (hm : Backed o reserve cells m)
    (hQ : ∀ cells' m', Backed o reserve cells' m' → Q .next cells' m') :
    Ensures o call waiting (.stats [n, .refer name]) Q cells m := by
  refine ensures_cons hcall (ensures_store hn ((operation_yields hcall he hm).mono ?_))
  rintro vs m₁ ⟨v, rfl, halive, hm₁⟩
  refine ⟨v, rfl, hm₁.live, fun _ => ?_⟩
  have hbefore : Covers o (reserve + holds o (set (cells ++ m₁.globals) name none)) m₁ := by
    refine mono hm₁ ?_
    have hnone := holds_set_none o (cells ++ m₁.globals) name
    omega
  have hafter := hbefore.store_refer (halive.typed ty) waiting
  exact ensures_single
    (ensures_refer (hm₁.live.store waiting cells name _) hafter.live (hQ _ _ hafter))

end

theorem get_congr (h : m'.globals = m.globals) : m'.get cells = m.get cells := by
  funext x
  rw [Memory.get, Memory.get, h]

theorem ensures_releases (hcall : CallSound o call)
    (hm : Covers o (reserve + (slots.map (m.get cells)).count (some o)) m)
    (hQ : ∀ m', m'.globals = m.globals → Covers o reserve m' → Q .next cells m') :
    Ensures o call waiting (.stats (releases slots)) Q cells m := by
  induction slots generalizing m with
  | nil => exact ensures_nil hm.live (hQ m rfl hm)
  | cons slot slots ih =>
    have hafter : Covers o (reserve + (slots.map (m.get cells)).count (some o))
        (m.release (m.get cells slot)) := by
      refine release (hm.mono ?_)
      rw [map_cons, count_cons, owing]
      simp only [beq_iff_eq]
      omega
    refine ensures_cons hcall
      (ensures_release hm.live hafter.live fun _ => ih ?_ fun m' hm' hcovers => ?_)
    · rwa [get_congr (globals_release ..)]
    · exact hQ m' (hm'.trans (globals_release ..)) hcovers

theorem ensures_refers (hcall : CallSound o call) (hm : Covers o reserve m)
    (halive : ∀ x ∈ slots, Alive o m (m.get cells x)) (hQ : ∀ m', m'.globals = m.globals →
      Covers o (reserve + (slots.map (m.get cells)).count (some o)) m' → Q .next cells m') :
    Ensures o call waiting (.stats (slots.map Node.refer)) Q cells m := by
  induction slots generalizing m reserve with
  | nil => exact ensures_nil hm.live (hQ m rfl hm)
  | cons slot slots ih =>
    obtain ⟨hslot, hslots⟩ := forall_mem_cons.mp halive
    have hafter := hm.refer hslot
    have hget : (m.refer (m.get cells slot)).get cells = m.get cells := get_congr (globals_refer ..)
    refine ensures_cons hcall (ensures_refer hm.live hafter.live fun _ =>
      ih hafter (fun x hx => ?_) fun m' hm' hcovers => ?_)
    · rw [hget]
      exact (hslots x hx).refer _
    · refine hQ m' (hm'.trans (globals_refer ..)) (hcovers.mono ?_)
      rw [hget, map_cons, count_cons, owing]
      simp only [beq_iff_eq]
      omega

theorem get_append_of_mem (h : x ∈ cells.names) : Cells.get (cells ++ cells') x = cells.get x := by
  have hhas : cells.has x = true := has_iff.mpr h
  rw [has] at hhas
  rw [Cells.get, Cells.get, lookup_append]
  cases hx : cells.lookup x with
  | none =>
    rw [hx] at hhas
    cases hhas
  | some w => rfl

theorem get_append_of_not_mem (h : x ∉ cells.names) :
    Cells.get (cells ++ cells') x = cells'.get x := by
  have hhas : ¬cells.has x = true := fun hhas => h (has_iff.mp hhas)
  rw [Cells.get, Cells.get, lookup_append]
  cases hx : cells.lookup x with
  | none => rfl
  | some w => exact absurd (by rw [has, hx]; rfl) hhas

section

variable (hcall : CallSound o call)

include hcall

/-- Slots at the top of the cells give up what they own. -/
theorem ensures_leave (hnodup : slots.Nodup)
    (hmem : slots ⊆ names (cells.take k)) (hm : Backed o reserve cells m)
    (hQ : ∀ m', m'.globals = m.globals → Backed o reserve (cells.drop k) m' → Q .next cells m') :
    Ensures o call waiting (.stats (releases slots)) Q cells m := by
  have hbefore : Covers o (reserve + holds o (cells.drop k ++ m.globals) +
      (slots.map (m.get cells)).count (some o)) m := by
    refine mono hm ?_
    have hget : slots.map (m.get cells) = slots.map (Cells.get (cells.take k)) := by
      refine map_congr_left fun x hx => ?_
      conv_lhs => rw [get_eq, ← take_append_drop k cells]
      rw [append_assoc, get_append_of_mem (hmem hx)]
    have hle := count_get_le hnodup o (cells.take k)
    have hsplit := holds_take_drop o k cells
    rw [hget, holds_append, holds_append]
    omega
  refine ensures_releases hcall hbefore fun m' hglobals hcovers => hQ m' hglobals ?_
  rwa [Backed, hglobals]

/-- A return: the slots of the function give up what they own. -/
theorem ensures_return {sweep : List String}
    (hnodup : sweep.Nodup) (hsub : sweep ⊆ cells.names)
    (hty : holderTy.isHeap = true → ty.isHeap = true)
    (hm : Backed o (reserve + owing o (typed holderTy (m.get cells name))) cells m) :
    Ensures o call waiting (.stats (releases sweep ++
      [.returnStat ty capture (some (.temp name holderTy))])) (Keeps o reserve) cells m := by
  have hsame : ∀ v, typed ty (typed holderTy v) = typed holderTy v := by
    intro v
    unfold typed
    grind
  have hall : sweep ⊆ names (cells.take cells.length) := by rwa [take_length]
  refine ensures_append hcall (ensures_leave hcall hnodup hall hm fun m₁ hglobals hm₁ _ => ?_)
  rw [← get_congr hglobals, drop_length] at hm₁
  set v := typed holderTy (m₁.get cells name) with hv
  have halive : Alive o m₁ v := hm₁.alive_reserve fun ho => by rw [ho, owing_some]; omega
  refine ensures_single (ensures_simple rfl ((read_yields hm₁ halive).mono ?_))
  rintro vs m₂ ⟨rfl, rfl⟩ after hafter
  obtain rfl := some.inj hafter
  have hused := use hm₁ halive .read
  refine ⟨hused.live, ?_⟩
  show Backed o (reserve + owing o (typed ty v)) [] (m₁.use .read v)
  rwa [hsame, Backed, globals_use]

/-- A statement that stores nothing on the heap. -/
theorem ensures_plain (hn : Plain n) (hm : Backed o reserve cells m)
    (hQ : ∀ cells' m', Backed o reserve cells' m' → Q .next cells' m') :
    Ensures o call waiting (.stat n) Q cells m := by
  cases hn with
  | varDef heap settled =>
    exact ensures_kept hcall .varDef settled.overSettled (by simp [heap]) hm hQ
  | assign heap settled =>
    exact ensures_kept hcall .assign settled.overSettled (by simp [heap]) hm hQ
  | @elementAssign name i e place settled =>
    have hsettled : ∀ n ∈ [.var name .vector, i, e], n.Settled := by
      simp only [forall_mem_cons]
      exact ⟨.intro ⟨rfl, fun _ => rfl⟩ nofun, place, settled, nofun⟩
    refine ensures_simple rfl ((settled_yields hcall hsettled hm).mono ?_)
    rintro vs m₁ ⟨hm₁, hvs⟩ after hafter
    cases vs with
    | nil => cases hafter
    | cons v vs =>
      obtain rfl := some.inj hafter
      have hused := hm₁.use (hvs v (.head _)) .read
      exact ⟨hused.live, hQ _ _ hused⟩
  | printNothing =>
    refine ensures_simple rfl (yields_nil hm.live fun after hafter => ?_)
    obtain rfl := some.inj hafter
    exact ⟨hm.live, hQ _ _ hm⟩
  | printStat settled =>
    refine ensures_simple rfl ((settled_yields hcall (forall_mem_singleton.mpr settled) hm).mono ?_)
    rintro vs m₁ ⟨hm₁, hvs⟩ after hafter
    obtain rfl := some.inj hafter
    have hused := hm₁.uses hvs .read
    exact ⟨hused.live, hQ _ _ hused⟩
  | callStat _ operation =>
    refine ensures_simple rfl ((operation_yields hcall operation hm).mono ?_)
    rintro vs m₁ ⟨v, rfl, -, hm₁⟩ after hafter
    obtain rfl := some.inj hafter
    exact ⟨hm₁.live, hQ _ _ (hm₁.mono (Nat.le_add_right ..))⟩

/-- A variable gets what another one holds, instead of its own value. -/
theorem ensures_assigned {holder : String} (hne : holder ≠ name) (hm : Backed o reserve cells m)
    (hQ : ∀ cells' m', Backed o reserve cells' m' → Q .next cells' m') :
    Ensures o call waiting
      (.stats [.release name, .assign name ty capture (some (.temp holder holderTy)),
      .refer name]) Q cells m := by
  have hreleased : Covers o (reserve + holds o (set (cells ++ m.globals) name none))
      (m.release (m.get cells name)) := by
    refine release (mono hm ?_)
    have hnone := holds_set_none o (cells ++ m.globals) name
    rw [get_eq]
    omega
  refine ensures_cons hcall (ensures_release hm.live hreleased.live fun _ => ?_)
  set m₁ := m.release (m.get cells name) with hm₁
  have hglobals : m₁.globals = m.globals := globals_release ..
  rw [← hglobals] at hreleased
  -- the other variable still owns what it holds
  have halive : Alive o m₁ (typed holderTy (m₁.get cells holder)) := by
    refine hreleased.alive fun ho => Nat.lt_of_lt_of_le ?_ (Nat.le_add_left ..)
    rw [get_eq, ← get_set_of_ne hne] at ho
    exact heldBy_get ho
  refine ensures_cons hcall (ensures_store .assign ((read_yields hreleased halive).mono ?_))
  rintro vs m₂ ⟨rfl, rfl⟩
  have hused := hreleased.use halive .read
  refine ⟨_, rfl, hused.live, fun _ => ?_⟩
  rw [← globals_use m₁ .read (typed holderTy (m₁.get cells holder))] at hused
  have hafter := hused.store_refer ((halive.use .read _).typed ty) waiting
  exact ensures_single
    (ensures_refer (hused.live.store waiting cells name _) hafter.live (hQ _ _ hafter))

end

/-! ## Setups -/

theorem names_cellsOf {b : CBlock Node} : (cellsOf b).names = b.locals.map Prod.fst := by
  simp [cellsOf, names, Function.comp_def]

/-- The cells of a block are empty at first. -/
theorem Backed.enter (hm : Backed o reserve cells m) (b : CBlock Node) :
    Backed o reserve (cellsOf b ++ cells) m := by
  have hempty : holds o (cellsOf b) = 0 := by
    refine count_eq_zero.mpr fun hmem => ?_
    obtain ⟨p, hp, hpo⟩ := mem_map.mp hmem
    obtain ⟨q, -, rfl⟩ := mem_map.mp hp
    cases hpo
  refine Covers.mono hm (Nat.le_of_eq ?_)
  rw [append_assoc, holds_append o (cellsOf b), hempty, Nat.zero_add]

theorem names_take : names (cells.take k) = cells.names.take k :=
  map_take

theorem take_names_append {top : Cells} : (names (top ++ cells)).take top.length = top.names := by
  rw [names, map_append, ← length_map Prod.fst, take_left]
  rfl

/-- **Setups** keep what the cells own. -/
theorem prepared_ensures (hcall : CallSound o call) {s : Setup} (h : Prepared s)
    (hm : Backed o reserve cells m)
    (hQ : ∀ cells' m', Backed o reserve cells' m' → Q .next cells' m') :
    Ensures o call waiting (.stats s.stats) Q cells m := by
  induction h generalizing cells m Q with
  | nil => exact ensures_nil hm.live (hQ cells m hm)
  | append _ _ _ iha ihb =>
    exact ensures_append hcall (iha hm fun cells₁ m₁ hm₁ _ => ihb hm₁ hQ)
  | @define name ty value adopts operation adopted =>
    rw [Setup.define]
    split
    · exact ensures_taken hcall .tempDef operation hm hQ
    · rename_i hadopts
      refine ensures_single (ensures_kept hcall .tempDef operation (fun hheap => ?_) hm hQ)
      grind
  | @guarded op temp inner right setup settled ih =>
    rw [Setup.ofStats, rightOperand_eq]
    refine ensures_single (ensures_ifThen hcall ((settled_yields hcall
      (forall_mem_singleton.mpr (settled_guard op temp)) hm).mono ?_))
    rintro vs m₁ ⟨hm₁, -⟩
    refine ⟨hQ cells m₁ hm₁, ensures_block ?_⟩
    -- the temporaries of the block are filled and released at its end
    have hlocals : (guardBlock temp inner right).locals = inner.decls := by
      rw [guardBlock, insertEntries_eq (by simpa using setup.nodup_names), nil_append]
    have hnodup : (heapNames inner.temps).reverse.Nodup :=
      nodup_reverse.mpr (setup.nodup_names.sublist (heapNames_sublist _))
    refine ensures_append hcall (ensures_append hcall (ih (hm₁.enter _) fun cells₂ m₂ hm₂ hnames₂ =>
      ensures_single (ensures_kept hcall .assign settled.overSettled (by rintro ⟨⟩) hm₂
        fun cells₃ m₃ hm₃ hnames₃ => ?_)))
    rw [show (guardBlock temp inner right).cleanup = _ from inner.releases_eq]
    refine ensures_leave hcall hnodup (fun x hx => ?_) hm₃ fun m₄ _ hm₄ => hQ _ _ hm₄
    rw [names_take, hnames₃, take_names_append, names_cellsOf, hlocals, Setup.fst_decls]
    exact mem_heapNames (mem_reverse.mp hx)

end Statements

end WichToC.Machine

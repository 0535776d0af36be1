import WichToC.Proofs.Injection

/-!
# Marked models

Injection marks every function and every block that it treats and leaves marked ones alone.  Nothing
is assumed of a model here: children may be missing, statements may stand in the place of
expressions, and any function or block may be marked already.

Hoisting and lowering move nodes.  They drop some, but they neither copy a node that is still to be
treated nor make one: `hoist_spares`, `lowerStat_spares` and `visit_spares` count them.  So each
change leaves fewer of them below it, and the rounds of the walk reach all (`unmarked_rounds`).  A
model in which all are marked stays as it is (`rounds_of_unmarked_eq_zero`).
-/

namespace WichToC

open List Node Prod Slot Counting

variable {e o : Option Node} {s : Slot Node} {cs sweep : List Node}

namespace Counting

variable {t : Table} {ns : List Node} {n : Node} {f : Node → Pending} (name : String) (ty : Ty)
    (capture : String) (expr : Option Node) (entries : List (String × Node)) (op : String)
    (temp : String) (setup : Setup) (cond : Option Node) (body : Option Node) {known known' : Known}
    {ss : List (Slot Node)} {b : CBlock Node}

theorem isUnmarked_withSlots : isUnmarked (n.withSlots ss) = isUnmarked n := by
  unfold withSlots
  split <;> rfl

/-! ## Counting nodes that are still to be treated -/

theorem unmarkedIn_eq_zero_iff : unmarkedIn ns = 0 ↔ ∀ n ∈ ns, unmarked n = 0 := by
  induction ns with
  | nil => simp
  | cons n ns ih => simp [ih]

theorem unmarked_eq_zero_iff :
    unmarked n = 0 ↔ isUnmarked n = false ∧ ∀ c ∈ n.children, unmarked c = 0 := by
  rw [unmarked_eq, Nat.add_eq_zero_iff, unmarkedIn_eq_zero_iff, Bool.toNat_eq_zero]

theorem all_marked_of_unmarked (h : unmarked n = 0) : n.All fun m => isUnmarked m = false := by
  induction n using induction with
  | step n ih =>
    obtain ⟨here, inside⟩ := unmarked_eq_zero_iff.mp h
    exact .intro here fun c hc => ih c hc (inside c hc)

/-! ## Hoisting -/

/-- The number of nodes in the statements of a setup that are still to be changed. -/
def Setup.unmarked (s : Setup) : Nat := unmarkedIn s.stats

@[simp] theorem Setup.unmarked_empty : Setup.unmarked {} = 0 := rfl

@[simp] theorem Setup.unmarked_append {a b : Setup} : (a ++ b).unmarked = a.unmarked + b.unmarked :=
  unmarkedIn_append ..

@[simp] theorem Setup.unmarked_ofStats : (Setup.ofStats ns).unmarked = unmarkedIn ns :=
  rfl

@[simp] theorem unmarked_count (kind : CountKind) (slot : String) :
    unmarked (.count kind slot) = 0 :=
  rfl

@[simp] theorem unmarked_temp : unmarked (.temp name ty) = 0 := rfl

theorem unmarkedIn_eq_zero (h : ∀ n ∈ ns, unmarked n = 0) : unmarkedIn ns = 0 :=
  unmarkedIn_eq_zero_iff.mpr h

theorem unmarkedIn_releases (s : Setup) : unmarkedIn s.releases = 0 := by
  refine unmarkedIn_eq_zero fun n hn => ?_
  obtain ⟨p, -, rfl⟩ := mem_map.mp hn
  rfl

/-- Nodes with one child. -/
theorem unmarked_single {e : Node} (hmark : isUnmarked n = false) (hchildren : n.children = [e]) :
    unmarked n = unmarked e := by
  simp [unmarked_eq, hmark, hchildren]

@[simp] theorem Setup.unmarked_define (value : Node) (adopts : Bool) :
    (Setup.define name ty value adopts).unmarked = Counting.unmarked value := by
  have htemp : Counting.unmarked (.tempDef name ty true (some value)) = Counting.unmarked value :=
    unmarked_single rfl rfl
  unfold define Setup.unmarked
  split <;> simp [htemp, refer]

/-- A node is taken apart into statements and an expression that have no more to be changed. -/
abbrev Spares (n : Node) (r : Setup × Node) : Prop := r.1.unmarked + unmarked r.2 ≤ unmarked n

/-- What hoisting does with a child; named entries stay as they are. -/
def mover : Slot Node → Node → Setup × Node
  | .map _ => fun n => ({}, n)
  | _ => hoist

theorem movedSlot_eq : movedSlot s (s.mapChildren hoist) = s.mapChildren (mover s) := by
  cases s <;> rfl

theorem mover_spares (h : ∀ c ∈ s.toList, Spares c (hoist c)) :
    ∀ c ∈ s.toList, Spares c (mover s c) := by
  intro c hc
  cases s with
  | map entries => exact Nat.le_of_eq (Nat.zero_add _)
  | single child | sequence children => exact h c hc

theorem spares_all {f : Node → Setup × Node} (h : ∀ c ∈ cs, Spares c (f c)) :
    (Setup.join (cs.map fun c => (f c).1)).unmarked + unmarkedIn (cs.map fun c => (f c).2) ≤
      unmarkedIn cs := by
  induction cs with
  | nil => exact Nat.le_refl 0
  | cons c cs ih =>
    have hc : Spares c (f c) := h c (.head _)
    have ih := ih fun d hd => h d (.tail c hd)
    rw [map_cons, map_cons, Setup.join_cons, Setup.unmarked_append, unmarkedIn_cons,
      unmarkedIn_cons]
    omega

theorem gather_eq : gather n (n.slots.map (mapChildren hoist)) =
    (.join (n.slots.flatMap fun s => s.toList.map fun c => (mover s c).1),
      n.withSlots (n.slots.map fun s => s.mapChildren fun c => (mover s c).2)) := by
  have hmap : ∀ s : Slot Node, (s.mapChildren (mover s)).mapChildren snd =
      s.mapChildren fun c => (mover s c).2 := by
    intro s
    cases s <;> simp [Slot.mapChildren, Function.comp_def]
  simp [gather, zipWith_map_right, zipWith_self, movedSlot_eq, flatMap_map,
    Function.comp_def, hmap, -slots, -toList]

theorem gather_spares (h : ∀ c ∈ n.children, Spares c (hoist c)) :
    Spares n (gather n (n.slots.map (mapChildren hoist))) := by
  have hslots : ∀ ss : List (Slot Node), (∀ s ∈ ss, ∀ c ∈ s.toList, Spares c (hoist c)) →
      (Setup.join (ss.flatMap fun s => s.toList.map fun c => (mover s c).1)).unmarked +
        unmarkedIn ((ss.map fun s => s.mapChildren fun c => (mover s c).2).flatMap toList) ≤
        unmarkedIn (ss.flatMap toList) := by
    intro ss hss
    induction ss with
    | nil => exact Nat.le_refl 0
    | cons s ss ih =>
      have hs := spares_all (mover_spares (hss s (.head _)))
      have ih := ih fun s' hs' => hss s' (.tail s hs')
      simp only [flatMap_cons, map_cons, Setup.join_append, Setup.unmarked_append,
        unmarkedIn_append, toList_mapChildren]
      omega
  have hchildren := hslots n.slots fun s hs c hc => h c (mem_flatMap.mpr ⟨s, hs, hc⟩)
  rw [gather_eq, Spares, unmarked_eq n, unmarked_eq, isUnmarked_withSlots, children,
    children, slots_withSlots (by simp [Function.comp_def])]
  dsimp only
  omega

theorem settle_spares (n : Node) : Spares n (settle n) := by
  unfold settle
  split <;> simp [Spares]

/-- Settling a node after its children were moved. -/
theorem Spares.settle {r : Setup × Node} (h : Spares n r) :
    Spares n (r.1 ++ (settle r.2).1, (settle r.2).2) := by
  have hlast := settle_spares r.2
  rw [Spares, Setup.unmarked_append]
  dsimp only
  omega

/-- A child that may be missing, taken apart. -/
def unmarked? (r : Option (Setup × Node)) : Nat :=
  ((r.map fst).getD {}).unmarked + unmarkedIn (r.map snd).toList

theorem unmarked?_le (h : ∀ c ∈ o.toList, Spares c (hoist c)) :
    unmarked? (o.map hoist) ≤ unmarkedIn o.toList := by
  cases o with
  | none => exact Nat.le_refl 0
  | some c => exact Nat.add_le_add_right (h c (.head _)) 0

theorem unmarked_held {value : Option (Setup × Node)} :
    (held name ty value).unmarked = unmarked? value := by
  cases value <;> simp [held, unmarked?]

theorem unmarkedIn_insertEntry (key : String) (value : Node) (entries : List (String × Node)) :
    unmarkedIn ((insertEntry key value entries).map snd) ≤
      unmarkedIn (entries.map snd) + unmarked value := by
  induction entries with
  | nil => simp [insertEntry]
  | cons e entries ih =>
    rw [insertEntry]
    split
    · simp only [map_cons, unmarkedIn_cons]
      omega
    · simp only [map_cons, unmarkedIn_cons]
      omega

theorem unmarkedIn_insertEntries (new : List (String × Node)) :
    unmarkedIn ((insertEntries entries new).map snd) ≤
      unmarkedIn (entries.map snd) + unmarkedIn (new.map snd) := by
  induction new generalizing entries with
  | nil => simp [insertEntries]
  | cons e new ih =>
    have hfirst := unmarkedIn_insertEntry e.1 e.2 entries
    have hrest := ih (insertEntry e.1 e.2 entries)
    rw [map_cons, unmarkedIn_cons]
    exact Nat.le_trans hrest (by omega)

theorem unmarkedIn_decls (s : Setup) : unmarkedIn (s.decls.map snd) = 0 := by
  refine unmarkedIn_eq_zero fun n hn => ?_
  obtain ⟨p, hp, rfl⟩ := mem_map.mp hn
  obtain ⟨q, -, rfl⟩ := mem_map.mp hp
  rfl

/-- Declaring temporaries adds nothing that is still to be changed. -/
theorem unmarkedIn_insert_decls (s : Setup) :
    unmarkedIn ((insertEntries entries s.decls).map snd) ≤ unmarkedIn (entries.map snd) := by
  have h := unmarkedIn_insertEntries entries s.decls
  rwa [unmarkedIn_decls, Nat.add_zero] at h

theorem unmarked_block : unmarked (.block b) = (!b.injected).toNat +
    (unmarkedIn (b.locals.map snd) + unmarkedIn (b.temps.map snd) + unmarkedIn b.stats +
      unmarkedIn b.cleanup) := by
  rw [unmarked_eq]
  simp [children, isUnmarked]
  omega

theorem unmarked_guard : unmarked (guard op temp) = 0 := by
  unfold guard
  split <;> rfl

theorem unmarked_rightOperand (right : Option Node) :
    unmarked (rightOperand op temp setup right) ≤ setup.unmarked + unmarkedIn right.toList := by
  have hlocals := unmarkedIn_insert_decls [] setup
  have hassign : unmarked (.assign temp .boolean "" right) = unmarkedIn right.toList := by
    rw [unmarked_eq]
    simp [isUnmarked, children]
  rw [unmarked_eq]
  simp only [rightOperand, children, slots, toList, flatMap_cons, flatMap_nil,
    Option.toList_some, Option.toList_none, append_nil, singleton_append, unmarkedIn_cons,
    unmarkedIn_nil, unmarked_guard, unmarked_block, unmarkedIn_append, hassign, unmarkedIn_releases,
    isUnmarked, map_nil, Setup.unmarked] at hlocals ⊢
  grind

theorem unmarked_binary {kind : OperandKind} (op : String) (ty operandTy : Ty) (temp : String)
    {l r : Option Node} : unmarked (.binary kind op ty operandTy temp l r) =
      unmarkedIn l.toList + unmarkedIn r.toList := by
  rw [unmarked_eq]
  simp [isUnmarked, children]

theorem unmarked_shortCircuit (ty operandTy : Ty) (temp : String)
    {left right : Option (Setup × Node)} :
    (shortCircuit op ty operandTy temp left right).1.unmarked +
      unmarked (shortCircuit op ty operandTy temp left right).2 ≤ unmarked? left +
        unmarked? right := by
  unfold shortCircuit
  extract_lets before inner leftNode rightNode defined
  have hl : unmarked? left = before.unmarked + unmarkedIn leftNode.toList := rfl
  have hr : unmarked? right = inner.unmarked + unmarkedIn rightNode.toList := rfl
  split
  · rw [unmarked_binary]
    dsimp only
    omega
  · have hdefined : defined.unmarked = unmarkedIn leftNode.toList := by
      unfold defined
      cases leftNode <;> simp
    have hright := unmarked_rightOperand op temp inner rightNode
    simp only [Setup.unmarked_append, Setup.unmarked_ofStats, unmarkedIn_cons, unmarkedIn_nil,
      unmarked_temp, hdefined]
    omega

theorem unmarked_bind {v b : Option Node} :
    unmarked (.bind name ty v b) = unmarkedIn v.toList + unmarkedIn b.toList := by
  rw [unmarked_eq]
  simp [isUnmarked, children]

/-- The operands of a node with two of them, taken apart. -/
theorem unmarked?_pair {l r : Option Node} (hslots : n.slots = [.single l, .single r])
    (h : ∀ c ∈ n.children, Spares c (hoist c)) :
    unmarked? (l.map hoist) + unmarked? (r.map hoist) ≤ unmarkedIn l.toList +
      unmarkedIn r.toList := by
  have hchildren : n.children = l.toList ++ r.toList := by
    simp [children, hslots, -slots]
  rw [hchildren] at h
  exact Nat.add_le_add (unmarked?_le fun c hc => h c (mem_append_left _ hc))
    (unmarked?_le fun c hc => h c (mem_append_right _ hc))

/-- **Hoisting** moves what is still to be changed, but copies and makes none. -/
theorem hoist_spares (n : Node) : Spares n (hoist n) := by
  induction n using induction with
  | step n ih =>
    rw [hoist, fold_eq]
    show Spares n (hoistStep n (n.slots.map (mapChildren hoist)))
    have hgather := gather_spares ih
    have hsettled := hgather.settle
    unfold hoistStep
    split
    · rename_i name ty v b value hmoved
      obtain ⟨rfl, -⟩ : v.map hoist = value ∧ b.map hoist = none := by
        simpa [Slot.mapChildren] using hmoved
      have hpair := unmarked?_pair rfl ih
      rw [Spares, unmarked_bind, unmarked_bind, unmarked_held]
      simp only [Option.toList_none, unmarkedIn_nil]
      omega
    · rename_i name ty v b value setup body hmoved
      obtain ⟨rfl, hb⟩ : v.map hoist = value ∧ b.map hoist = some (setup, body) := by
        simpa [Slot.mapChildren] using hmoved
      have hpair := unmarked?_pair rfl ih
      have hbody : unmarked? (some (setup, body)) = setup.unmarked + unmarked body := rfl
      rw [hb, hbody] at hpair
      rw [Spares, unmarked_bind, Setup.unmarked_append, unmarked_held]
      dsimp only
      omega
    · rename_i op ty operandTy temp l r left right hmoved
      obtain ⟨rfl, rfl⟩ : l.map hoist = left ∧ r.map hoist = right := by
        simpa [Slot.mapChildren] using hmoved
      split
      · rw [Spares, unmarked_binary]
        exact Nat.le_trans (unmarked_shortCircuit ..) (unmarked?_pair rfl ih)
      · exact hgather
    · exact hsettled

theorem hoistOperands_spares (n : Node) : Spares n (hoistOperands n) :=
  gather_spares fun c _ => hoist_spares c

theorem hoist?_spares (o : Option Node) :
    (hoist? o).1.unmarked + unmarkedIn (hoist? o).2.toList ≤ unmarkedIn o.toList := by
  cases o with
  | none => exact Nat.le_refl 0
  | some c => exact Nat.add_le_add_right (hoist_spares c) 0

theorem unmarked?_hoist_le (o : Option Node) : unmarked? (o.map hoist) ≤ unmarkedIn o.toList :=
  unmarked?_le fun c _ => hoist_spares c

theorem unbind_spares (n : Node) : Spares n (unbind n) := by
  induction n using induction with
  | step n ih =>
    unfold unbind
    split
    · rename_i name ty value
      have hvalue := unmarked?_hoist_le value
      rw [Spares, unmarked_bind, unmarked_bind, unmarked_held]
      simp only [Option.toList_none, unmarkedIn_nil]
      omega
    · rename_i name ty value body
      have hvalue := unmarked?_hoist_le value
      have hbody : Spares body (unbind body) := ih body (by
        simp [children])
      rw [Spares, unmarked_bind, Setup.unmarked_append, unmarked_held]
      simp only [Option.toList_some, unmarkedIn_cons, unmarkedIn_nil]
      omega
    · simp [Spares]

theorem hold_spares (ty : Ty) (n : Node) :
    Spares n ((hold capture ty n).1, (hold capture ty n).2.1) := by
  have h := hoist_spares n
  unfold hold
  obtain ⟨setup, m, hm⟩ : ∃ setup m, hoist n = (setup, m) := ⟨_, _, rfl⟩
  rw [hm] at h ⊢
  dsimp only
  split
  · exact h
  · unfold Spares at h ⊢
    simpa using h

/-! ## Lowering -/

/-- Nodes with one child, which may be missing. -/
theorem unmarked_optional (hmark : isUnmarked n = false)
    (hslots : n.slots = [.single e]) : unmarked n = unmarkedIn e.toList := by
  simp [unmarked_eq, hmark, children, hslots, -slots]

theorem lowerDefine_spares : (lowerDefine name ty expr).unmarked ≤ unmarkedIn expr.toList := by
  have hdef : ∀ e : Option Node, unmarked (.varDef name ty e) = unmarkedIn e.toList := fun _ =>
    unmarked_optional rfl rfl
  have hrefer : unmarkedIn (if ty.isHeap = true then [refer name] else []) = 0 := by
    split <;> rfl
  cases expr with
  | none => simp [lowerDefine, hdef, hrefer]
  | some e =>
    have hbound := unbind_spares e
    have hoperands := hoistOperands_spares (unbind e).2
    have hvalue := hoist_spares (unbind e).2
    unfold lowerDefine
    dsimp only
    split
    · simp [hdef, hrefer]
      omega
    · simp [hdef, hrefer]
      omega

theorem lowerAssign_spares :
    (lowerAssign name ty capture expr).unmarked ≤ unmarkedIn expr.toList := by
  have hassign : ∀ e : Option Node, unmarked (.assign name ty capture e) = unmarkedIn e.toList :=
    fun _ => unmarked_optional rfl rfl
  unfold lowerAssign
  split
  · cases expr with
    | none => simp [hassign, release, refer]
    | some e =>
      have hvalue := hold_spares capture ty e
      simpa [hassign, release, refer] using hvalue
  · have hvalue := hoist?_spares expr
    simpa [hassign] using hvalue

theorem lowerReturn_spares : (lowerReturn ty capture expr).unmarked ≤ unmarkedIn expr.toList := by
  have hreturn : ∀ e : Option Node, unmarked (.returnStat ty capture e) = unmarkedIn e.toList :=
    fun _ => unmarked_optional rfl rfl
  cases expr with
  | none => simp [lowerReturn, hreturn]
  | some e =>
    unfold lowerReturn
    dsimp only
    split
    · have hvalue := hold_spares capture ty e
      simpa [hreturn, refer] using hvalue
    · have hvalue := hoist_spares e
      simpa [hreturn] using hvalue

theorem lowerCall_spares {call : Option Node} :
    (lowerCall call).unmarked ≤ unmarkedIn call.toList := by
  have hcall : ∀ e : Option Node, unmarked (.callStat e) = unmarkedIn e.toList := fun _ =>
    unmarked_optional rfl rfl
  cases call with
  | none => exact Nat.le_refl 0
  | some e =>
    unfold lowerCall
    dsimp only
    split
    · have hvalue := hoist_spares e
      simp only [Option.toList_some, unmarkedIn_cons, unmarkedIn_nil]
      omega
    · have hoperands := hoistOperands_spares e
      simpa [hcall] using hoperands

theorem unmarked_loopExit : unmarked (loopExit setup cond) = unmarkedIn cond.toList := by
  have hnot : unmarked (.unary .not .boolean "" cond) = unmarkedIn cond.toList :=
    unmarked_optional rfl rfl
  have hbreak : unmarked .breakStat = 0 := rfl
  rw [unmarked_eq]
  simp [loopExit, isUnmarked, children, hnot, unmarked_block, unmarkedIn_releases, hbreak]

theorem unmarked_whileStat :
    unmarked (.whileStat cond body) = unmarkedIn cond.toList + unmarkedIn body.toList := by
  rw [unmarked_eq]
  simp [isUnmarked, children]

theorem lowerWhile_spares :
    unmarked (lowerWhile cond body) ≤ unmarkedIn cond.toList + unmarkedIn body.toList := by
  have hcond := hoist?_spares cond
  unfold lowerWhile
  obtain ⟨setup, c, hc⟩ : ∃ setup c, hoist? cond = (setup, c) := ⟨_, _, rfl⟩
  rw [hc] at hcond ⊢
  dsimp only at hcond ⊢
  split
  · rename_i b
    split
    · rw [unmarked_whileStat]
      omega
    · have hdecls := unmarkedIn_insert_decls [] setup
      have hlocals := unmarkedIn_insertEntries (insertEntries [] setup.decls) b.locals
      have htrue : unmarked (.literal .bool "true" none) = 0 := rfl
      simp only [unmarked_whileStat, Option.toList_some, unmarkedIn_cons, unmarkedIn_nil, htrue,
        unmarked_block, unmarkedIn_append, unmarked_loopExit, map_nil] at hdecls ⊢
      unfold Setup.unmarked at hcond
      omega
  · rw [unmarked_whileStat]
    omega

/-- **Lowering** a statement copies and makes nothing that is still to be changed. -/
theorem lowerStat_spares (n : Node) : (lowerStat n).unmarked ≤ unmarked n := by
  unfold lowerStat
  split
  · exact Nat.le_trans (lowerDefine_spares ..) (Nat.le_of_eq (unmarked_optional rfl rfl).symm)
  · exact Nat.le_trans (lowerAssign_spares ..) (Nat.le_of_eq (unmarked_optional rfl rfl).symm)
  · exact Nat.le_trans (lowerReturn_spares ..) (Nat.le_of_eq (unmarked_optional rfl rfl).symm)
  · exact Nat.le_trans lowerCall_spares (Nat.le_of_eq (unmarked_optional rfl rfl).symm)
  · rename_i ty expr
    have hprint : ∀ e : Option Node, unmarked (.printStat ty e) = unmarkedIn e.toList := fun _ =>
      unmarked_optional rfl rfl
    simpa [hprint] using hoist?_spares expr
  · rename_i cond yes no
    have hif : ∀ c : Option Node, unmarked (.ifStat c yes no) =
        unmarkedIn c.toList + (unmarkedIn yes.toList + unmarkedIn no.toList) := by
      intro c
      rw [unmarked_eq]
      simp [isUnmarked, children]
    have hcond := hoist?_spares cond
    simp [hif]
    omega
  · rename_i name i expr
    have hassign : ∀ i e : Option Node, unmarked (.elementAssign name i e) =
        unmarkedIn i.toList + unmarkedIn e.toList := by
      intro i e
      rw [unmarked_eq]
      simp [isUnmarked, children]
    have hplace := hoist?_spares i
    have hvalue := hoist?_spares expr
    simp [hassign]
    omega
  · rename_i cond body
    have hloop := lowerWhile_spares cond body
    simpa [unmarked_whileStat] using hloop
  · simp

theorem unmarked_lowered_le (ns : List Node) :
    (Setup.join (ns.map lowerStat)).unmarked ≤ unmarkedIn ns := by
  induction ns with
  | nil => exact Nat.le_refl 0
  | cons n ns ih =>
    have hn := lowerStat_spares n
    rw [map_cons, Setup.join_cons, Setup.unmarked_append, unmarkedIn_cons]
    omega

theorem unmarkedIn_releaseAll {slots : List String} : unmarkedIn (slots.map release) = 0 := by
  refine unmarkedIn_eq_zero fun n hn => ?_
  obtain ⟨slot, -, rfl⟩ := mem_map.mp hn
  rfl

theorem unmarkedIn_beforeReturns (h : unmarkedIn sweep = 0) (ns : List Node) :
    unmarkedIn (beforeReturns sweep ns) = unmarkedIn ns := by
  induction ns with
  | nil => rfl
  | cons n ns ih =>
    unfold beforeReturns at ih ⊢
    rw [flatMap_cons, unmarkedIn_append, unmarkedIn_cons, ih]
    split <;> simp [h]

/-- Lowering a block marks it, and below it there is no more to be changed than before. -/
theorem lowerBlock_spares :
    unmarkedIn (block (lowerBlock t known b).1).children ≤ unmarkedIn (block b).children := by
  have hchildren : ∀ b : CBlock Node, unmarkedIn (block b).children =
      unmarkedIn (b.locals.map snd) + unmarkedIn (b.temps.map snd) + unmarkedIn b.stats +
        unmarkedIn b.cleanup := by
    intro b
    simp [children]
    omega
  have hlocals := unmarkedIn_insert_decls b.locals (Setup.join (b.stats.map lowerStat))
  have hstats := unmarked_lowered_le b.stats
  unfold lowerBlock
  extract_lets lowered b' slots own params sweep stats cleanup slots'
  have hown : unmarkedIn own = 0 := unmarkedIn_releaseAll
  have hparams : unmarkedIn params = 0 := unmarkedIn_releaseAll
  have hsweep : unmarkedIn sweep = 0 := by
    simp only [sweep, unmarkedIn_append, hown, hparams, unmarkedIn_releaseAll]
  have hstats' : unmarkedIn stats = unmarkedIn lowered.stats := unmarkedIn_beforeReturns hsweep _
  have hcleanup : unmarkedIn cleanup ≤ unmarkedIn b.cleanup := by
    unfold cleanup
    split
    · exact Nat.le_refl _
    · split
      · simp [hown, hparams]
      · simp [hown]
  rw [hchildren, hchildren]
  unfold Setup.unmarked at hstats
  dsimp only [b', lowered] at *
  omega

theorem takeParams_spares {params : List String} : unmarked (takeParams params n) = unmarked n := by
  unfold takeParams
  split
  · have hrefers : unmarkedIn (params.map refer) = 0 := by
      refine unmarkedIn_eq_zero fun m hm => ?_
      obtain ⟨slot, -, rfl⟩ := mem_map.mp hm
      rfl
    simp [unmarked_block, hrefers]
  · rfl

/-! ## Walking -/

theorem isUnmarked_of_visit_none (h : visit t n known = (none, known')) : isUnmarked n = false := by
  unfold visit at h
  split at h
  · dsimp only at h
    split at h
    · rename_i hmark
      simp [isUnmarked, hmark]
    · cases h
  · rfl
  · split at h
    · rename_i hmark
      simp [isUnmarked, hmark]
    · cases h
  · rename_i hfunc _ hblock
    cases n with
    | func head args body => exact absurd rfl (hfunc head args body)
    | block b => exact absurd rfl (hblock b)
    | _ => rfl

/-- **A change** marks its node, and there is no more to be changed below it than before. -/
theorem visit_spares {changed : Node} (h : visit t n known = (some changed, known')) :
    isUnmarked n = true ∧ isUnmarked changed = false ∧
      unmarkedIn changed.children ≤ unmarkedIn n.children := by
  unfold visit at h
  split at h
  · rename_i head args body
    dsimp only at h
    split at h
    · cases h
    · rename_i hmark
      cases h
      refine ⟨by simp [isUnmarked, hmark], rfl, Nat.le_of_eq ?_⟩
      cases body <;> simp [children, takeParams_spares]
  · cases h
  · rename_i b
    split at h
    · cases h
    · rename_i hmark
      cases h
      refine ⟨by simp [isUnmarked, hmark], ?_, lowerBlock_spares⟩
      simp [isUnmarked]
  · cases h

theorem length_walkAll : (walkAll f ns known).1.length = ns.length := by
  induction ns generalizing known with
  | nil => rfl
  | cons n ns ih => simp [walkAll_cons, ih]

theorem thread_map (entries : List (String × Node)) :
    ((Slot.map entries).mapChildren f).thread known =
      (.map ((entries.map fst).zip (walkAll f (entries.map snd) known).1),
        (walkAll f (entries.map snd) known).2) := by
  simp [Slot.mapChildren, Slot.thread, walkAll, Function.comp_def]

/-- A walk through a slot is one through its children. -/
theorem thread_toList (f : Node → Pending) (s : Slot Node) (known : Known) :
    ((s.mapChildren f).thread known).1.shape = s.shape ∧
      ((s.mapChildren f).thread known).1.toList = (walkAll f s.toList known).1 ∧
        ((s.mapChildren f).thread known).2 = (walkAll f s.toList known).2 := by
  cases s with
  | single child => cases child <;> exact ⟨rfl, rfl, rfl⟩
  | sequence children => exact ⟨rfl, rfl, rfl⟩
  | map entries =>
    rw [thread_map]
    refine ⟨rfl, map_snd_zip (Nat.le_of_eq ?_), rfl⟩
    rw [length_walkAll, length_map, length_map]

theorem threadAll_toList (f : Node → Pending) (ss : List (Slot Node)) (known : Known) :
    (threadAll (ss.map (mapChildren f)) known).1.map shape = ss.map shape ∧
      (threadAll (ss.map (mapChildren f)) known).1.flatMap toList =
        (walkAll f (ss.flatMap toList) known).1 := by
  induction ss generalizing known with
  | nil => exact ⟨rfl, rfl⟩
  | cons s ss ih =>
    obtain ⟨hshape, hlist, hknown⟩ := thread_toList f s known
    obtain ⟨hshapes, hlists⟩ := ih ((s.mapChildren f).thread known).2
    constructor
    · simpa [threadAll, hshape] using hshapes
    · rw [flatMap_cons, walkAll_append, ← hknown, ← hlists, ← hlist]
      simp [threadAll]

/-- The children of a node after the walk are its walked children. -/
theorem children_threadAll :
    (n.withSlots (threadAll (n.slots.map (mapChildren f)) known).1).children =
      (walkAll f n.children known).1 := by
  obtain ⟨hshapes, hlists⟩ := threadAll_toList f n.slots known
  rw [children, slots_withSlots hshapes, hlists]
  rfl

theorem unmarkedIn_walkAll (h : ∀ n ∈ ns, ∀ known, unmarked (f n known).1 = 0) (known : Known) :
    unmarkedIn (walkAll f ns known).1 = 0 := by
  induction ns generalizing known with
  | nil => rfl
  | cons n ns ih =>
    rw [walkAll_cons, unmarkedIn_cons, h n (.head _),
      ih fun m hm => h m (.tail n hm)]

/-- A node with walked children: nothing is left to be changed if the node itself is marked. -/
theorem unmarked_walked (hmark : isUnmarked n = false)
    (h : ∀ c ∈ n.children, ∀ known, unmarked (f c known).1 = 0) (known : Known) :
    unmarked (n.withSlots (threadAll (n.slots.map (mapChildren f)) known).1) = 0 := by
  rw [unmarked_eq, isUnmarked_withSlots, hmark, children_threadAll, unmarkedIn_walkAll h]
  rfl

theorem unmarked_le_unmarkedIn {c : Node} (h : c ∈ ns) : unmarked c ≤ unmarkedIn ns := by
  obtain ⟨before, after, rfl⟩ := append_of_mem h
  rw [unmarkedIn_append, unmarkedIn_cons]
  omega

/-- One round: nothing is left to be changed if nothing is below the nodes that it changes. -/
theorem unmarked_round {fuel : Nat}
    (hbelow : ∀ n known, unmarked n < fuel → unmarked (below t fuel n known).1 = 0) (n : Node)
    (known : Known) (h : unmarked n ≤ fuel) : unmarked (rounds t fuel n known).1 = 0 := by
  induction n using induction generalizing known with
  | step n ih =>
    rw [unmarked_eq] at h
    rw [rounds_eq, roundStep]
    obtain ⟨changed, known', hvisit⟩ : ∃ changed known', visit t n known = (changed, known') :=
      ⟨_, _, rfl⟩
    rw [hvisit]
    cases changed with
    | none =>
      refine unmarked_walked (isUnmarked_of_visit_none hvisit) (fun c hc known => ?_) known'
      have hle := unmarked_le_unmarkedIn hc
      exact ih c hc known (by omega)
    | some changed =>
      obtain ⟨hunmarked, hmarked, hle⟩ := visit_spares hvisit
      rw [hunmarked, Bool.toNat_true] at h
      refine unmarked_walked hmarked (fun c hc known => ?_) known'
      have hle' := unmarked_le_unmarkedIn hc
      exact hbelow c known (by omega)

/-- **As many rounds as there are nodes to be changed** leave none. -/
theorem unmarked_rounds (fuel : Nat) (n : Node) (known : Known) (h : unmarked n ≤ fuel) :
    unmarked (rounds t fuel n known).1 = 0 := by
  induction fuel generalizing n known with
  | zero => exact unmarked_round (fun _ _ hlt => absurd hlt (Nat.not_lt_zero _)) n known h
  | succ fuel ih =>
    exact unmarked_round (fun c known hc => ih c known (Nat.le_of_lt_succ hc)) n known h

theorem walkAll_fst (h : ∀ n ∈ ns, ∀ known, (f n known).1 = n)
    (known : Known) : (walkAll f ns known).1 = ns := by
  induction ns generalizing known with
  | nil => rfl
  | cons n ns ih =>
    rw [walkAll_cons, h n (.head _), ih fun m hm => h m (.tail n hm)]

theorem thread_fst (h : ∀ n ∈ s.toList, ∀ known, (f n known).1 = n) (known : Known) :
    ((s.mapChildren f).thread known).1 = s := by
  cases s with
  | single child =>
    cases child with
    | none => rfl
    | some c => exact congrArg (single ∘ some) (h c (.head _) known)
  | sequence children => exact congrArg sequence (walkAll_fst h known)
  | map entries =>
    have hvalues : (walkAll f (entries.map snd) known).1 = entries.map snd :=
      walkAll_fst h known
    rw [thread_map, hvalues, ← unzip_fst, ← unzip_snd, zip_unzip]

theorem threadAll_fst (h : ∀ s ∈ ss, ∀ n ∈ s.toList, ∀ known, (f n known).1 = n) (known : Known) :
    (threadAll (ss.map (mapChildren f)) known).1 = ss := by
  induction ss generalizing known with
  | nil => rfl
  | cons s ss ih =>
    have hfirst := thread_fst (h s (.head _)) known
    have hrest := ih (fun s' hs' => h s' (.tail s hs'))
      ((s.mapChildren f).thread known).2
    rw [map_cons, threadAll]
    dsimp only
    rw [hfirst, hrest]

/-- A model with nothing to be changed stays as it is, whatever is known. -/
theorem rounds_of_unmarked_eq_zero (h : unmarked n = 0) (fuel : Nat) (known : Known) :
    (rounds t fuel n known).1 = n := by
  induction n using induction generalizing known with
  | step n ih =>
    obtain ⟨hmarked, hchildren⟩ := unmarked_eq_zero_iff.mp h
    rw [rounds_eq, roundStep]
    obtain ⟨changed, known', hvisit⟩ : ∃ changed known', visit t n known = (changed, known') :=
      ⟨_, _, rfl⟩
    rw [hvisit]
    cases changed with
    | none =>
      dsimp only
      rw [threadAll_fst fun s hs c hc known =>
        have hc : c ∈ n.children := mem_flatMap.mpr ⟨s, hs, hc⟩
        ih c hc (hchildren c hc) known, withSlots_slots]
    | some changed =>
      rw [(visit_spares hvisit).1] at hmarked
      cases hmarked

end Counting

/-- **Injection is idempotent.**  It marks all functions and blocks of any model, and injecting once
more changes nothing. -/
theorem inject_idempotent (t : Table) (n : Node) :
    ((n.inject t).All fun m => isUnmarked m = false) ∧
      (n.inject t).inject t = n.inject t := by
  have hmarked : unmarked (n.inject t) = 0 :=
    unmarked_rounds _ n {} (Nat.le_refl _)
  exact ⟨all_marked_of_unmarked hmarked, rounds_of_unmarked_eq_zero hmarked _ _⟩

end WichToC

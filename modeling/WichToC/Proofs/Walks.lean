import WichToC.Model.Walk
import WichToC.Proofs.Model

/-!
# Walks in place

A walk calls `visit` and then `visitEvery` at a node and goes on with the children that they left.
`Slot.walked` says what it makes of a slot, child by child.  `Slot.walkedInPlace` does the same
where the children stand: by an index that moves through a sequence while children are taken out of
it, and by the keys that a map had at the start.  `walk_in_place` says that both are what a walk
does.

The order of the calls shows in the state of the listener, which goes from one call to the next.
-/

namespace WichToC

open List Slot Walk
open Prod (fst snd)

variable {σ α : Type} (which : Option Nat) (slots : List (Slot Node))

/-- The node with one of its slots emptied. -/
def Node.without (n : Node) (which : Option Nat) : Node := n.withSlots (clearSlot which n.slots)

section Walked

variable (listener : Listener σ)

/-- Walks nodes one after the other; a node that is deleted leaves nothing. -/
def walkEach (ns : List Node) : σ → List (Option Node) × σ :=
  threadList (ns.map fun n => child (n.walk listener))

/-- Puts what the walks of the children leave in their places. -/
def Slot.put : Slot Node → List (Option Node) → Slot Node
  | .single _, left => .single left.head?.join
  | .sequence _, left => .sequence (left.filterMap id)
  | .map entries, left =>
    .map (((entries.map fst).zip left).filterMap fun (key, new) => new.map (key, ·))

/-- Walks the children of a slot, in order. -/
def Slot.walked (slot : Slot Node) (s : σ) : Slot Node × σ :=
  let (left, s) := walkEach listener slot.toList s
  (slot.put left, s)

/-- Walks a sequence in place, from an index on.  The successor of a child that is taken out moves
to its index. -/
def sequenceInPlace (i : Nat) (cs : List Node) (s : σ) : List Node × σ :=
  if h : i < cs.length then
    match child (cs[i].walk listener) s with
    | (some new, s) => sequenceInPlace (i + 1) (cs.set i new) s
    | (none, s) => sequenceInPlace i (cs.eraseIdx i) s
  else (cs, s)
termination_by cs.length - i
decreasing_by
  · rw [length_set]
    omega
  · rw [length_eraseIdx_of_lt h]
    omega

/-- Walks the entries of a map in place, by the keys that it had at the start. -/
def mapInPlace : List String → List (String × Node) → σ → List (String × Node) × σ
  | [], entries, s => (entries, s)
  | key :: keys, entries, s =>
    match entries.lookup key with
    | none => mapInPlace keys entries s
    | some c =>
      match child (c.walk listener) s with
      | (some new, s) => mapInPlace keys (insertEntry key new entries) s
      | (none, s) => mapInPlace keys (entries.filter (·.1 ≠ key)) s

/-- Walks the children of a slot in place. -/
def Slot.walkedInPlace : Slot Node → σ → Slot Node × σ
  | .single none, s => (.single none, s)
  | .single (some c), s =>
    let (left, s) := child (c.walk listener) s
    (.single left, s)
  | .sequence cs, s =>
    let (cs, s) := sequenceInPlace listener 0 cs s
    (.sequence cs, s)
  | .map entries, s =>
    let (entries, s) := mapInPlace listener (entries.map fst) entries s
    (.map entries, s)

end Walked

variable {listener : Listener σ} {n c : Node} {cs : List Node}

theorem walkEach_cons {s : σ} : walkEach listener (c :: cs) s =
      ((child (c.walk listener) s).1 :: (walkEach listener cs (c.walk listener s).state).1,
        (walkEach listener cs (c.walk listener s).state).2) := rfl

/-! ## Loops in place -/

/-- The children before the index are those that the loop has left. -/
theorem sequenceInPlace_append (listener : Listener σ) (before cs : List Node) (s : σ) :
    sequenceInPlace listener before.length (before ++ cs) s =
      (before ++ (walkEach listener cs s).1.filterMap id, (walkEach listener cs s).2) := by
  induction cs generalizing before s with
  | nil =>
    rw [append_nil, sequenceInPlace, dif_neg (Nat.lt_irrefl _)]
    exact congrArg (·, s) (append_nil before).symm
  | cons c cs ih =>
    have hlt : before.length < (before ++ c :: cs).length := by simp
    have hget : (before ++ c :: cs)[before.length] = c := by simp
    rw [sequenceInPlace, dif_pos hlt, hget, walkEach_cons]
    rcases hchild : child (c.walk listener) s with ⟨_ | new, s₁⟩
    all_goals
      obtain rfl : (c.walk listener s).state = s₁ := congrArg snd hchild
      dsimp only
    · grind
    · have ih := ih (before ++ [new]) (c.walk listener s).state
      grind

theorem insertEntry_append {key : String} {value : α} {before : List (String × α)}
    (h : ∀ e ∈ before, e.1 ≠ key) (old : α) (after : List (String × α)) :
    insertEntry key value (before ++ (key, old) :: after) = before ++ (key, value) :: after := by
  induction before with
  | nil => simp [insertEntry]
  | cons e before ih =>
    obtain ⟨he, hbefore⟩ := forall_mem_cons.mp h
    rw [cons_append, insertEntry, if_neg he, ih hbefore, cons_append]

/-- The entries before the key are those that the loop has left. -/
theorem mapInPlace_append (listener : Listener σ) (before entries : List (String × Node)) (s : σ)
    (hkeys : ((before ++ entries).map fst).Nodup) :
    mapInPlace listener (entries.map fst) (before ++ entries) s =
      (before ++ ((entries.map fst).zip (walkEach listener (entries.map snd) s).1).filterMap
        fun (key, new) => new.map (key, ·), (walkEach listener (entries.map snd) s).2) := by
  induction entries generalizing before s with
  | nil =>
    rw [append_nil, map_nil, zip_nil_left, filterMap_nil, append_nil]
    rfl
  | cons entry entries ih =>
    obtain ⟨key, c⟩ := entry
    obtain ⟨hnew, hkeys⟩ := nodup_cons.mp ((perm_middle.map fst).nodup_iff.mp hkeys)
    have hne : ∀ e ∈ before ++ entries, e.1 ≠ key := by grind
    have hbefore : ∀ e ∈ before, e.1 ≠ key := fun e he => hne e (mem_append_left _ he)
    have hlookup : (before ++ (key, c) :: entries).lookup key = some c := by grind
    rw [map_cons, map_cons, mapInPlace, hlookup, walkEach_cons]
    dsimp only
    rcases hchild : child (c.walk listener) s with ⟨_ | new, s₁⟩
    all_goals
      obtain rfl : (c.walk listener s).state = s₁ := congrArg snd hchild
      dsimp only
    · have hfilter : (before ++ (key, c) :: entries).filter (·.1 ≠ key) = before ++ entries := by
        rw [filter_append, filter_cons_of_neg (by simp), ← filter_append,
          filter_eq_self.mpr fun e he => decide_eq_true (hne e he)]
      rw [hfilter]
      exact ih before _ hkeys
    · have ih := ih (before ++ [(key, new)]) (c.walk listener s).state (by
        grind)
      rw [append_assoc, append_assoc] at ih
      rw [insertEntry_append hbefore]
      exact ih

/-- The keys of a map are different. -/
def Slot.DistinctKeys : Slot Node → Prop
  | .map entries => (entries.map fst).Nodup
  | _ => True

theorem Slot.walkedInPlace_eq {slot : Slot Node} (h : slot.DistinctKeys) (s : σ) :
    slot.walkedInPlace listener s = slot.walked listener s := by
  cases slot with
  | single child => cases child <;> rfl
  | sequence cs =>
    have hloop := sequenceInPlace_append listener [] cs s
    rw [walkedInPlace, show sequenceInPlace listener 0 cs s = _ from hloop]
    rfl
  | map entries =>
    have hloop := mapInPlace_append listener [] entries s h
    rw [walkedInPlace, show mapInPlace listener _ entries s = _ from hloop]
    rfl

/-! ## The slots of a node -/

theorem Slot.thread_walked {slot : Slot Node} {s : σ} :
    (((slot.mapChildren (Node.walk listener)).mapChildren child).thread s).map compact id =
      slot.walked listener s := by
  cases slot with
  | single child => cases child <;> rfl
  | sequence cs =>
    simp only [mapChildren, thread, map_map, walked, walkEach, Function.comp_def]
    rfl
  | map entries =>
    simp only [mapChildren, thread, map_map, walked, walkEach, toList, Function.comp_def,
      Prod.map_apply, compact, put]
    rfl

theorem slots_walked {s : σ} : Walk.slots (slots.map (mapChildren (Node.walk listener))) s =
      threadList (slots.map (walked listener)) s := by
  induction slots generalizing s with
  | nil => rfl
  | cons slot slots ih =>
    rw [map_cons, map_cons, threadList, ← thread_walked]
    dsimp only [Prod.map]
    rw [← ih]
    rfl

theorem shape_walked {s : σ} :
    (threadList (slots.map (walked listener)) s).1.map shape = slots.map shape := by
  induction slots generalizing s with
  | nil => rfl
  | cons slot slots ih =>
    have hslot : (slot.walked listener s).1.shape = slot.shape := by cases slot <;> rfl
    rw [map_cons, map_cons, threadList, map_cons, hslot, ih]

theorem getElem?_clearSlot (slots : List (Slot α)) {i : Nat} : (clearSlot which slots)[i]? =
      slots[i]?.map fun slot => if which = some i then slot.clear else slot := by
  cases which with
  | none => simp [clearSlot]
  | some j => simp [clearSlot, getElem?_modify]

theorem clearSlot_map {β : Type} {f : α → β} (slots : List (Slot α)) :
    clearSlot which (slots.map (mapChildren f)) =
      (clearSlot which slots).map (mapChildren f) := by
  have hclear (slot : Slot α) : (slot.mapChildren f).clear = slot.clear.mapChildren f := by
    cases slot <;> rfl
  refine ext_getElem? fun i => ?_
  simp only [getElem?_clearSlot, getElem?_map, Option.map_map]
  grind

theorem shape_clearSlot (slots : List (Slot α)) :
    (clearSlot which slots).map shape = slots.map shape := by
  have hclear (slot : Slot α) : slot.clear.shape = slot.shape := by cases slot <;> rfl
  refine ext_getElem? fun i => ?_
  simp only [getElem?_clearSlot, getElem?_map, Option.map_map]
  grind

namespace Node

theorem slots_without (which : Option Nat) : (n.without which).slots = clearSlot which n.slots :=
  slots_withSlots (shape_clearSlot which n.slots)

theorem distinctKeys_without (h : ∀ slot ∈ n.slots, slot.DistinctKeys) (which : Option Nat) :
    ∀ slot ∈ (n.without which).slots, slot.DistinctKeys := by
  intro slot hslot
  rw [slots_without] at hslot
  obtain ⟨i, hi⟩ := mem_iff_getElem?.mp hslot
  rw [getElem?_clearSlot] at hi
  obtain ⟨slot, hold, rfl⟩ := Option.map_eq_some_iff.mp hi
  split
  · cases slot with
    | map entries => exact nodup_nil
    | _ => trivial
  · exact h slot (mem_of_getElem? hold)

/-- The walk of a node, from its calls and the walks of the children that are left. -/
theorem walk_eq {a b : Answer} {s s₁ s₂ : σ} (hvisit : listener.visit n s = (a, s₁))
    (hevery : listener.visitEvery (n.without a.clear) s₁ = (b, s₂)) :
    n.walk listener s =
      let left := threadList (((n.without a.clear).without b.clear).slots.map (walked listener)) s₂
      ⟨(n.without a.clear).withSlots left.1, a.verdict.orElse b.verdict, left.2⟩ := by
  have hwalk : n.walk listener s =
      step listener n (n.slots.map (mapChildren (walk listener))) s :=
    congrFun fold_eq s
  rw [slots_without, slots_without, ← slots_walked, ← clearSlot_map, ← clearSlot_map]
  unfold without at hevery ⊢
  simp only [hwalk, step, hvisit, hevery]

/-- **Walks in place.**  Both calls at a node come before those at its children.  The children that
they left are walked once each, in order, and nothing else is walked.  Every slot becomes what the
walks leave of its children, and the loops that do this in place come to the same. -/
theorem walk_in_place (listener : Listener σ) (n : Node)
    (hkeys : ∀ slot ∈ n.slots, slot.DistinctKeys)
    {a b : Answer} {s s₁ s₂ : σ} (hvisit : listener.visit n s = (a, s₁))
    (hevery : listener.visitEvery (n.without a.clear) s₁ = (b, s₂)) :
    let visited := (n.without a.clear).without b.clear
    let left := threadList (visited.slots.map (walkedInPlace listener)) s₂
    n.walk listener s = ⟨(n.without a.clear).withSlots left.1, a.verdict.orElse b.verdict, left.2⟩ ∧
    (n.walk listener s).node.slots = left.1 ∧
    left = threadList (visited.slots.map (walked listener)) s₂ := by
  have hslots : ((n.without a.clear).without b.clear).slots.map (walkedInPlace listener) =
      ((n.without a.clear).without b.clear).slots.map (walked listener) := by
    refine map_congr_left fun slot hslot => funext (walkedInPlace_eq ?_)
    exact distinctKeys_without (distinctKeys_without hkeys a.clear) b.clear slot hslot
  dsimp only
  rw [hslots]
  refine ⟨walk_eq hvisit hevery, ?_, rfl⟩
  rw [walk_eq hvisit hevery]
  apply slots_withSlots
  rw [shape_walked, slots_without, shape_clearSlot]

/-- Two statements in a row are deleted: the second has moved to the place of the first. -/
theorem walk_in_place_shifted : let listener : Listener Nat :=
      { visit := fun n visits =>
        ({ verdict := if n.kind = .breakStat then .delete else .keep }, visits + 1) }
    let body : Node := .block { stats := [.breakStat, .breakStat, .printStat none none] }
    (∀ slot ∈ body.slots, slot.DistinctKeys) ∧ (body.walk listener 0).state = 4 ∧
      (body.walk listener 0).node.slots =
        [.map [], .map [], .sequence [.printStat none none], .sequence []] := by
  intro listener body
  have hkeys : ∀ slot ∈ body.slots, slot.DistinctKeys := by simp [body, DistinctKeys]
  obtain ⟨hwalk, hslots, hleft⟩ := walk_in_place listener body hkeys (s := 0) rfl rfl
  rw [hslots, hwalk, hleft]
  exact ⟨hkeys, rfl, rfl⟩

end Node

end WichToC

import WichToC.Model.Node

/-!
# Taking nodes apart

The slots of a node have the shapes that its kind announces, putting them back gives the node again,
and `Node.fold` is recursion over them.
-/

namespace WichToC.Node

variable {α : Type}

/-- Putting the slots back gives the node. -/
@[simp] theorem withSlots_slots {n : Node} : n.withSlots n.slots = n := by
  cases n <;> rfl

theorem foldOption_eq_map {f : Node → List (Slot α) → α} {o : Option Node} :
    foldOption f o = o.map (fold f) := by
  cases o <;> rfl

theorem foldList_eq_map {f : Node → List (Slot α) → α} {ns : List Node} :
    foldList f ns = ns.map (fold f) := by
  induction ns with
  | nil => rfl
  | cons n ns ih => rw [foldList, ih, List.map_cons]

theorem foldEntries_eq_map {f : Node → List (Slot α) → α} {entries : List (String × Node)} :
    foldEntries f entries = entries.map fun (key, n) => (key, fold f n) := by
  induction entries with
  | nil => rfl
  | cons entry entries ih => rw [foldEntries, ih, List.map_cons]

/-- A fold applies its function to the node and to the results for the children in its slots. -/
theorem fold_eq {f : Node → List (Slot α) → α} {n : Node} :
    n.fold f = f n (n.slots.map (Slot.mapChildren (fold f))) := by
  cases n <;>
    simp only [fold, slots, List.map_cons, List.map_nil, Slot.mapChildren, foldOption_eq_map,
      foldList_eq_map, foldEntries_eq_map]

end WichToC.Node

/-!
# Child slots

The children of a node of the output model stand in slots.  A slot holds at most one child, a
sequence of children, or named entries whose order counts.
-/

namespace WichToC

inductive SlotShape where
  | single
  | sequence
  | map
deriving DecidableEq, Repr

/-- A slot with its children. -/
inductive Slot (α : Type) where
  | single (child : Option α)
  | sequence (children : List α)
  | map (entries : List (String × α))
deriving DecidableEq, Repr

namespace Slot

variable {α β σ : Type}

def shape : Slot α → SlotShape
  | single _ => .single
  | sequence _ => .sequence
  | map _ => .map

/-- Applies a function to every child. -/
def mapChildren (f : α → β) : Slot α → Slot β
  | single child => .single (child.map f)
  | sequence children => .sequence (children.map f)
  | map entries => .map (entries.map fun (key, child) => (key, f child))

/-- The children of a slot, in order. -/
def toList : Slot α → List α
  | single child => child.toList
  | sequence children => children
  | map entries => entries.map Prod.snd

/-- The slot without its children. -/
def clear : Slot α → Slot α
  | single _ => .single none
  | sequence _ => .sequence []
  | map _ => .map []

def getSingle : Slot α → Option α
  | single child => child
  | _ => none

/-- The children of a sequence. -/
def getSequence : Slot α → List α
  | sequence children => children
  | _ => []

/-- The entries of a map. -/
def getMap : Slot α → List (String × α)
  | map entries => entries
  | _ => []

/-- Runs steps on a state one after the other. -/
def threadList : List (σ → α × σ) → σ → List α × σ
  | [], state => ([], state)
  | step :: steps, state =>
    let (first, state) := step state
    let (others, state) := threadList steps state
    (first :: others, state)

/-- Runs the steps in a slot on a state, in order. -/
def thread : Slot (σ → α × σ) → σ → Slot α × σ
  | single none, state => (.single none, state)
  | single (some step), state =>
    let (child, state) := step state
    (.single (some child), state)
  | sequence steps, state =>
    let (children, state) := threadList steps state
    (.sequence children, state)
  | map steps, state =>
    let (children, state) := threadList (steps.map Prod.snd) state
    (.map ((steps.map Prod.fst).zip children), state)

/-- Runs the steps in slots on a state, slot by slot. -/
def threadAll : List (Slot (σ → α × σ)) → σ → List (Slot α) × σ
  | [], state => ([], state)
  | s :: ss, state =>
    let (first, state) := s.thread state
    let (others, state) := threadAll ss state
    (first :: others, state)

/-- Drops the children that are gone. -/
def compact : Slot (Option α) → Slot α
  | single child => .single (child.bind id)
  | sequence children => .sequence (children.filterMap id)
  | map entries => .map (entries.filterMap fun (key, child) => child.map fun c => (key, c))

@[simp] theorem shape_mapChildren (f : α → β) (s : Slot α) : (s.mapChildren f).shape = s.shape := by
  cases s <;> rfl

@[simp] theorem toList_mapChildren {f : α → β} {s : Slot α} :
    (s.mapChildren f).toList = s.toList.map f := by
  cases s with
  | single child => cases child <;> rfl
  | sequence children => rfl
  | map entries => simp [mapChildren, toList, Function.comp_def]

end Slot

/-- Replaces the value of a key in place, or adds the entry at the end. -/
def insertEntry {α : Type} (key : String) (value : α) : List (String × α) → List (String × α)
  | [] => [(key, value)]
  | (k, v) :: entries =>
    if k = key then (k, value) :: entries else (k, v) :: insertEntry key value entries

/-- Inserts entries one after the other. -/
def insertEntries {α : Type} (entries : List (String × α)) (new : List (String × α)) :
    List (String × α) :=
  new.foldl (fun acc (key, value) => insertEntry key value acc) entries

end WichToC

import WichToC.Model.Node

/-!
# Walking a model

A listener sees every node before its children.  It may empty one of the node's slots, and it
answers whether the node stays where it is, goes away, or gives its place to another one.  The walk
goes on with the children that the listener left, slot by slot and in order; a replacement is put in
place as it is and is not walked.

A listener is asked twice at each node: `visit` first and then `visitEvery`, which sees what `visit`
left.  The answer of `visitEvery` counts where `visit` keeps the node.
-/

namespace WichToC

/-- What becomes of a node in the slot that holds it. -/
inductive Verdict where
  | keep
  | delete
  | replace (new : Node)
deriving Repr

/-- What a listener does at a node. -/
structure Answer where
  /-- The number of the slot to empty. -/
  clear : Option Nat := none
  verdict : Verdict := .keep
deriving Repr

/-- A listener with a state of its own. -/
structure Listener (σ : Type) where
  visit : Node → σ → Answer × σ := fun _ state => ({}, state)
  visitEvery : Node → σ → Answer × σ := fun _ state => ({}, state)

/-- The end of a walk: the node as it was left, what becomes of it, and the listener's state. -/
structure Walked (σ : Type) where
  node : Node
  verdict : Verdict
  state : σ

/-- The first of two verdicts that does not keep the node. -/
def Verdict.orElse : Verdict → Verdict → Verdict
  | .keep, other => other
  | verdict, _ => verdict

/-- The node that a verdict leaves in place of a node. -/
def Verdict.apply (n : Node) : Verdict → Option Node
  | .keep => some n
  | .delete => none
  | .replace new => some new

/-- Empties the slot with the given number. -/
def clearSlot {α : Type} (which : Option Nat) (slots : List (Slot α)) : List (Slot α) :=
  match which with
  | none => slots
  | some i => slots.modify i Slot.clear

namespace Walk

variable {σ : Type}

/-- The walk of a node that waits for the state of the listener. -/
abbrev Pending (σ : Type) := σ → Walked σ

/-- Walks a child and applies the verdict on it. -/
def child (pending : Pending σ) (state : σ) : Option Node × σ :=
  let walked := pending state
  (walked.verdict.apply walked.node, walked.state)

/-- Walks the children in slots, in order, and applies the verdicts on them. -/
def slots (pending : List (Slot (Pending σ))) (state : σ) : List (Slot Node) × σ :=
  let (left, state) := Slot.threadAll (pending.map (Slot.mapChildren child)) state
  (left.map Slot.compact, state)

def step (listener : Listener σ) (n : Node) (pending : List (Slot (Pending σ))) : Pending σ :=
  fun state =>
    let (specific, state) := listener.visit n state
    let n := n.withSlots (clearSlot specific.clear n.slots)
    let pending := clearSlot specific.clear pending
    let (every, state) := listener.visitEvery n state
    let pending := clearSlot every.clear pending
    let (left, state) := slots pending state
    ⟨n.withSlots left, specific.verdict.orElse every.verdict, state⟩

end Walk

/-- Walks a model.  What becomes of its root is left to the caller. -/
def Node.walk {σ : Type} (listener : Listener σ) (root : Node) (state : σ) : Walked σ :=
  root.fold (Walk.step listener) state

/-- Walks a model and replaces the root if the listener asks for it; a root is never deleted. -/
def Node.walkRoot {σ : Type} (listener : Listener σ) (root : Node) (state : σ) : Node × σ :=
  let walked := root.walk listener state
  match walked.verdict with
  | .replace new => (new, walked.state)
  | .keep | .delete => (walked.node, walked.state)

end WichToC

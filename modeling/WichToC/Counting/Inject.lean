import WichToC.Counting.Lower

/-!
# Injecting reference counts

Injection lowers every block of a model and lets every function take references to its heap
parameters.  The model is walked from the root, each node before its children, so that a block is
lowered when the blocks around it are.  Functions and blocks are marked when they have been treated
and are left alone afterwards.

The children of a node that was changed are walked in their new form.  Each change marks one more
node and makes no unmarked one, so as many rounds as there are unmarked nodes are enough.
-/

namespace WichToC

variable (t : Table) (next : Node → Pending)

namespace Counting

/-- Lets a function body take references to the parameters. -/
def takeParams (params : List String) : Node → Node
  | .block b => .block { b with stats := params.map Node.refer ++ b.stats }
  | n => n

/-- What happens at a node: the new form of a node that is changed, and what is known then. -/
def visit (n : Node) (known : Known) : Option Node × Known :=
  match n with
  | .func head args body =>
    let params := (t.heapParameters head.scope).map Variable.name
    let known := { known with params := params }
    if head.injected then (none, known)
    else (some (.func { head with injected := true } args (body.map (takeParams params))), known)
  | .mainFunc _ => (none, { known with params := [] })
  | .block b =>
    if b.injected then (none, known)
    else
      let (b, known) := lowerBlock t known b
      (some (.block b), known)
  | _ => (none, known)

/-- The walk of a node that waits for what is known. -/
abbrev Pending := Known → Node × Known

/-- One node of a round; `next` walks the children of a node that was changed. -/
def roundStep (n : Node) (pending : List (Slot Pending)) : Pending := fun known =>
  match visit t n known with
  | (none, known) =>
    let (slots, known) := Slot.threadAll pending known
    (n.withSlots slots, known)
  | (some changed, known) =>
    let (slots, known) := Slot.threadAll (changed.slots.map (Slot.mapChildren next)) known
    (changed.withSlots slots, known)

/-- Walks a model down to the first changed node on each path, and from there with `next`. -/
def round (n : Node) : Pending :=
  n.fold (roundStep t next)

/-- Walks a model through a number of changed nodes on each path. -/
def rounds (t : Table) : Nat → Node → Pending
  | 0 => round t fun n known => (n, known)
  | fuel + 1 => round t (rounds t fuel)

/-- Whether a node is still to be changed. -/
def isUnmarked : Node → Bool
  | .func head _ _ => !head.injected
  | .block b => !b.injected
  | _ => false

/-- The number of nodes of a model that are still to be changed. -/
def unmarked (n : Node) : Nat :=
  n.fold fun n counts => (isUnmarked n).toNat + (counts.flatMap Slot.toList).foldr Nat.add 0

end Counting

/-- Injects reference counting into a model. -/
def Node.inject (n : Node) : Node :=
  (Counting.rounds t (Counting.unmarked n) n {}).1

end WichToC

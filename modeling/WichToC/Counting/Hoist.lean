import WichToC.Model.Node

/-!
# Hoisting

A string or a vector that an expression makes belongs to nobody until a slot holds it.  Hoisting
moves every such value into the temporary that is reserved for it, in the order of evaluation, and
leaves an expression that only reads variables and temporaries.

A temporary takes a reference to the value that it is given, except to the result of a call, which
comes with the reference that the function handed over.

The right operand of `&&` and `||` is evaluated only if the left one does not decide the result.
Where it makes heap values, the whole operation becomes a conditional statement.
-/

namespace WichToC.Counting

/-- Statements that run ahead of an expression, and the temporaries that they define. -/
structure Setup where
  stats : List Node := []
  temps : List (String × Ty) := []

namespace Setup

variable (setup : Setup)

/-- One setup after the other. -/
instance : Append Setup where
  append a b := ⟨a.stats ++ b.stats, a.temps ++ b.temps⟩

/-- Setups one after the other. -/
def join (setups : List Setup) : Setup :=
  ⟨setups.flatMap stats, setups.flatMap temps⟩

/-- Statements that define no temporary. -/
def ofStats (stats : List Node) : Setup := ⟨stats, []⟩

/-- Gives a temporary its value.  Unless the value comes with a reference, the temporary takes
one. -/
def define (name : String) (ty : Ty) (value : Node) (adopts : Bool) : Setup where
  stats := .tempDef name ty true (some value) ::
    (if ty.isHeap && !adopts then [.refer name] else [])
  temps := [(name, ty)]

/-- The declarations of the temporaries. -/
def decls : List (String × Node) :=
  setup.temps.map fun (name, ty) => (name, .tempDecl name ty)

/-- The release of the heap temporaries, the last one first. -/
def releases : List Node :=
  (setup.temps.filter fun (_, ty) => ty.isHeap).reverse.map fun (name, _) => .release name

end Setup

/-- Whether a node is a call of a function. -/
def isCall : Node → Bool
  | .call .. => true
  | _ => false

/-- Whether an expression makes a new value if its type lives on the heap. -/
def makesValue : Node → Bool
  | .literal .string .. | .vectorLit .. | .call .. | .binary .string .. | .binary .vector ..
  | .unary .negate .. | .index .string .. | .widen .intToVector ..
  | .widen .floatToVector .. => true
  | _ => false

/-- The temporary and the type of a new heap value. -/
def fresh? (n : Node) : Option (String × Ty) := do
  let ty ← n.ty?
  let temp ← n.temp?
  if ty.isHeap && makesValue n then some (temp, ty) else none

/-- Moves an expression that makes a heap value into its temporary. -/
def settle (n : Node) : Setup × Node :=
  match fresh? n with
  | some (name, ty) => (.define name ty n (isCall n), .temp name ty)
  | none => ({}, n)

/-- The hoisted children of a slot; named entries stay as they are. -/
def movedSlot : Slot Node → Slot (Setup × Node) → Slot (Setup × Node)
  | .map entries, _ => .map (entries.map fun (key, n) => (key, ({}, n)))
  | _, moved => moved

/-- The node with hoisted children. -/
def gather (n : Node) (moved : List (Slot (Setup × Node))) : Setup × Node :=
  let moved := n.slots.zipWith movedSlot moved
  (.join (moved.flatMap fun slot => slot.toList.map Prod.fst),
    n.withSlots (moved.map (Slot.mapChildren Prod.snd)))

/-- Whether an operator may leave its right operand out. -/
def isShortCircuit (op : String) : Bool := op = "&&" || op = "||"

/-- The condition under which the right operand is evaluated, after the left one was moved into a
temporary. -/
def guard (op temp : String) : Node :=
  let left := Node.temp temp .boolean
  if op = "&&" then left else .unary .not .boolean "" (some left)

/-- The statement that evaluates the right operand where the left one leaves the result open. -/
def rightOperand (op temp : String) (setup : Setup) (right : Option Node) : Node :=
  .ifStat (some (guard op temp))
    (some (.block
      { locals := insertEntries [] setup.decls
        stats := setup.stats ++ [.assign temp .boolean "" right]
        cleanup := setup.releases
        injected := true }))
    none

/-- An operation that may leave its right operand out, with hoisted operands. -/
def shortCircuit (op : String) (ty operandTy : Ty) (temp : String)
    (left right : Option (Setup × Node)) : Setup × Node :=
  let before := (left.map Prod.fst).getD {}
  let inner := (right.map Prod.fst).getD {}
  let leftNode := left.map Prod.snd
  let rightNode := right.map Prod.snd
  if inner.stats.isEmpty then (before, .binary .int op ty operandTy temp leftNode rightNode)
  else
    let held := (leftNode.map fun n => Setup.define temp .boolean n false).getD {}
    (before ++ held ++ .ofStats [rightOperand op temp inner rightNode], .temp temp .boolean)

/-- The value of a bind in its temporary. -/
def held (name : String) (ty : Ty) (value : Option (Setup × Node)) : Setup :=
  (value.map fun (setup, n) => setup ++ .define name ty n false).getD {}

/-- Hoists a node whose children are hoisted. -/
def hoistStep (n : Node) (moved : List (Slot (Setup × Node))) : Setup × Node :=
  match n, moved with
  | .bind name ty _ _, [.single value, .single none] =>
    (held name ty value, .bind name ty none none)
  | .bind name ty _ _, [.single value, .single (some (setup, body))] =>
    (held name ty value ++ setup, body)
  | .binary .int op ty operandTy temp _ _, [.single left, .single right] =>
    if isShortCircuit op then shortCircuit op ty operandTy temp left right
    else gather n moved
  | _, _ =>
    let (setup, n) := gather n moved
    let (last, n) := settle n
    (setup ++ last, n)

/-- Hoists an expression. -/
def hoist (n : Node) : Setup × Node := n.fold hoistStep

/-- Hoists the operands of an expression, but not the expression itself. -/
def hoistOperands (n : Node) : Setup × Node :=
  gather n (n.slots.map (Slot.mapChildren hoist))

/-- Hoists an expression that may be missing. -/
def hoist? : Option Node → Setup × Option Node
  | none => ({}, none)
  | some n =>
    let (setup, n) := hoist n
    (setup, some n)

/-- Moves bound values into their temporaries and leaves the body. -/
def unbind : Node → Setup × Node
  | .bind name ty value none => (held name ty (value.map hoist), .bind name ty none none)
  | .bind name ty value (some body) =>
    let (setup, n) := unbind body
    (held name ty (value.map hoist) ++ setup, n)
  | n => ({}, n)

/-- Hoists an expression and leaves a temporary that owns a reference to its value: the one that
holds it already, or else `capture`.  The last part is the name of that temporary. -/
def hold (capture : String) (ty : Ty) (n : Node) : Setup × Node × String :=
  let (setup, n) := hoist n
  match n with
  | .varRef name _ true => (setup, n, name)
  | _ => (setup ++ .define capture ty n false, .temp capture ty, capture)

end WichToC.Counting

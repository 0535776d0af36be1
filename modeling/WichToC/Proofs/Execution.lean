import Mathlib.Logic.Function.Basic
import WichToC.Proofs.Paths

/-!
# Executions

`Executes` runs code with counts and follows its objects.  An object is born with count 0, `ref`
adds one to the count of what a slot holds, and `deref` subtracts one and frees the object at 0.
Operands are evaluated from left to right, and a call runs the body of the function.  What becomes
of the objects is kept as a list of events.

Nothing is known of values that are no objects.  A condition may come out either way, and an
execution may be cut off at any point, so that the executions of a file comprise all that it can do,
whether or not it ends.  They do not comprise what it does after a function with a result has come
to its end without a return.
-/

namespace WichToC.Machine

open Counting Option

/-! ## Memory -/

/-- How an object is accessed. -/
inductive Access where
  | read
  | ref
  | deref
  | pass
deriving DecidableEq, Repr

/-- What happens in an execution. -/
inductive Event where
  | use (kind : Access) (object : Nat)
  | free (object : Nat)
  /-- A global variable gets another value while the object that was read from it waits to be
  used. -/
  | overwrite (name : String) (object : Nat)
deriving DecidableEq, Repr

/-- The object that a value refers to, if it is on the heap. -/
abbrev Value := Option Nat

def typed (ty : Ty) (v : Value) : Value := if ty.isHeap then v else none

/-- Variables and temporaries with their values, those of inner blocks first. -/
abbrev Cells := List (String × Value)

namespace Cells

/-- What a variable holds. -/
def get (cells : Cells) (name : String) : Value := (cells.lookup name).getD none

/-- Gives a variable a value. -/
def set : Cells → String → Value → Cells
  | [], _, _ => []
  | (x, w) :: cells, name, v => if x = name then (x, v) :: cells else (x, w) :: set cells name v

/-- Whether a variable is among the cells. -/
def has (cells : Cells) (name : String) : Bool := (cells.lookup name).isSome

end Cells

/-- The objects that were read from global variables and are still to be used. -/
abbrev Waiting := List (String × Nat)

/-- What happens when a global variable gets a value instead of the one that it holds. -/
def overwrites (waiting : Waiting) (name : String) (held v : Value) : List Event :=
  match held with
  | some o => if (name, o) ∈ waiting ∧ v ≠ held then [.overwrite name o] else []
  | none => []

/-- What all functions share. -/
structure Memory where
  count : Nat → Nat := fun _ => 0
  /-- The object that is born next. -/
  next : Nat := 0
  globals : Cells := []
  /-- What has happened so far, the latest first. -/
  past : List Event := []

namespace Memory

variable (m : Memory) (kind : Access)

/-- What a variable holds, given those of the function. -/
def get (cells : Cells) (name : String) : Value :=
  if cells.has name then cells.get name else m.globals.get name

/-- Gives a variable a value. -/
def store (waiting : Waiting) (cells : Cells) (name : String) (v : Value) : Cells × Memory :=
  if cells.has name then (cells.set name v, m)
  else (cells, { m with
    globals := m.globals.set name v
    past := overwrites waiting name (m.globals.get name) v ++ m.past })

def use : Value → Memory
  | none => m
  | some o => { m with past := .use kind o :: m.past }

/-- Uses the objects of values in order. -/
def uses (vs : List Value) : Memory := vs.foldl (·.use kind ·) m

/-- Takes a reference to the object of a value. -/
def refer : Value → Memory
  | none => m
  | some o => { m.use .ref o with count := Function.update m.count o (m.count o + 1) }

/-- Gives up a reference to the object of a value, and frees it with the last one. -/
def release : Value → Memory
  | none => m
  | some o =>
    let m := { m.use .deref o with count := Function.update m.count o (m.count o - 1) }
    if m.count o = 0 then { m with past := .free o :: m.past } else m

/-- A new object. -/
def make : Value × Memory :=
  (m.next, { m with count := Function.update m.count m.next 0, next := m.next + 1 })

end Memory

/-! ## Expressions -/

/-- What a call does: the function, its arguments, the objects that wait, and the result, unless the
call is cut off. -/
abbrev CallRel := String → List Value → Waiting → Memory → Option Value → Memory → Prop

/-- The operands that an operation evaluates.  An `&&` or `||` may do without the right one. -/
def Operands (n : Node) (es : List Node) : Prop :=
  es = n.children ∨ mayShortCircuit n = true ∧ es = n.children.take 1

def operate (n : Node) (vs : List Value) (m : Memory) : Value × Memory :=
  if n.isHeap then (m.uses .read vs).make else (none, m.uses .read vs)

/-- The value of a variable waits until the operands after it are evaluated, unless the variable
belongs to the function. -/
def awaited (cells : Cells) (name : String) (v : Value) : Waiting :=
  if cells.has name then [] else v.toList.map (name, ·)

/-- The evaluation of expressions one after the other, unless it is cut off. -/
inductive Evaluates (call : CallRel) (cells : Cells) :
    Waiting → List Node → Memory → Option (List Value) → Memory → Prop
  | nil {waiting : Waiting} {m : Memory} : Evaluates call cells waiting [] m (some []) m
  | cut {waiting : Waiting} {ns : List Node} {m : Memory} :
      Evaluates call cells waiting ns m none m
  | read {waiting : Waiting} {name : String} {ty : Ty} {isTemp : Bool} {ns : List Node} {v : Value}
      {m m' : Memory} {result : Option (List Value)} (value : v = typed ty (m.get cells name))
      (rest : Evaluates call cells (awaited cells name v ++ waiting) ns (m.use .read v) result m') :
      Evaluates call cells waiting (.varRef name ty isTemp :: ns) m (result.map (v :: ·)) m'
  | operate {waiting : Waiting} {n : Node} {es ns : List Node} {m m₁ m' : Memory}
      {vs : List Value} {result : Option (List Value)} (operation : n.isOperation = true)
      (notVar : n.kind ≠ .varRef) (notCall : isCall n = false) (chosen : Operands n es)
      (operands : Evaluates call cells waiting es m (some vs) m₁)
      (rest : Evaluates call cells waiting ns (operate n vs m₁).2 result m') :
      Evaluates call cells waiting (n :: ns) m (result.map ((operate n vs m₁).1 :: ·)) m'
  | call {waiting : Waiting} {name temp : String} {ty : Ty} {args ns : List Node}
      {m m₁ m₂ m' : Memory} {vs : List Value} {v : Value} {result : Option (List Value)}
      (operands : Evaluates call cells waiting args m (some vs) m₁)
      (body : call name vs waiting (m₁.uses .pass vs) (some v) m₂)
      (rest : Evaluates call cells waiting ns m₂ result m') :
      Evaluates call cells waiting (.call name ty temp args :: ns) m
        (result.map (typed ty v :: ·)) m'
  | cutOperands {waiting : Waiting} {n : Node} {es ns : List Node} {m m' : Memory}
      (operation : n.isOperation = true) (chosen : Operands n es)
      (operands : Evaluates call cells waiting es m none m') :
      Evaluates call cells waiting (n :: ns) m none m'
  | cutCall {waiting : Waiting} {name temp : String} {ty : Ty} {args ns : List Node}
      {m m₁ m' : Memory} {vs : List Value}
        (operands : Evaluates call cells waiting args m (some vs) m₁)
      (body : call name vs waiting (m₁.uses .pass vs) none m') :
      Evaluates call cells waiting (.call name ty temp args :: ns) m none m'

/-! ## Statements -/

/-- How an execution of code ends. -/
inductive Outcome where
  | next
  | broke
  | returned (v : Value)
  | cut
deriving DecidableEq

/-- The expressions that a statement evaluates first. -/
def operands : Node → List Node
  | .varDef _ _ (some e) | .assign _ _ _ (some e) | .tempDef _ _ _ (some e) | .printStat _ (some e)
  | .callStat (some e) | .returnStat _ _ (some e) | .ifStat (some e) .. | .whileStat (some e) _ =>
    [e]
  | .elementAssign name (some i) (some e) => [.var name .vector, i, e]
  | _ => []

/-- What a statement without blocks does with the values of its expressions. -/
def effect (waiting : Waiting) (cells : Cells) (m : Memory) :
    Node → List Value → Option (Outcome × Cells × Memory)
  | .varDef name ty _, [v] | .assign name ty _ _, [v] | .tempDef name ty _ _, [v] =>
    some (.next, m.store waiting cells name (typed ty v))
  | .elementAssign .., v :: _ => some (.next, cells, m.use .read v)
  | .printStat .., vs => some (.next, cells, m.uses .read vs)
  | .callStat _, _ => some (.next, cells, m)
  | .returnStat ty _ _, [v] => some (.returned (typed ty v), cells, m)
  | .breakStat, _ => some (.broke, cells, m)
  | .count .ref slot, _ => some (.next, cells, m.refer (m.get cells slot))
  | .count .deref slot, _ => some (.next, cells, m.release (m.get cells slot))
  | _, _ => none

/-- The empty cells that a block starts with. -/
def cellsOf (b : CBlock Node) : Cells := b.locals.map fun p => (p.1, none)

/-- The executions of code. -/
inductive Executes (call : CallRel) (waiting : Waiting) :
    Code → Cells → Memory → Outcome → Cells → Memory → Prop
  | nil {cells : Cells} {m : Memory} : Executes call waiting (.stats []) cells m .next cells m
  | cut {ns : List Node} {cells : Cells} {m : Memory} :
      Executes call waiting (.stats ns) cells m .cut cells m
  | cons {n : Node} {ns : List Node} {cells cells₁ cells' : Cells} {m m₁ m' : Memory}
      {out : Outcome}
      (first : Executes call waiting (.stat n) cells m .next cells₁ m₁)
      (rest : Executes call waiting (.stats ns) cells₁ m₁ out cells' m') :
      Executes call waiting (.stats (n :: ns)) cells m out cells' m'
  | stop {n : Node} {ns : List Node} {cells cells' : Cells} {m m' : Memory} {out : Outcome}
      (first : Executes call waiting (.stat n) cells m out cells' m') (ends : out ≠ .next) :
      Executes call waiting (.stats (n :: ns)) cells m out cells' m'
  | cutInside {n : Node} {cells : Cells} {m m' : Memory}
      (values : Evaluates call cells waiting (operands n) m none m') :
      Executes call waiting (.stat n) cells m .cut cells m'
  | simple {n : Node} {cells cells' : Cells} {m m₁ m' : Memory} {vs : List Value} {out : Outcome}
      (values : Evaluates call cells waiting (operands n) m (some vs) m₁)
      (effect : effect waiting cells m₁ n vs = some (out, cells', m')) :
      Executes call waiting (.stat n) cells m out cells' m'
  | ifYes {c : Node} {b : CBlock Node} {no : Option Node} {cells cells' : Cells} {m m₁ m' : Memory}
      {vs : List Value} {out : Outcome} (cond : Evaluates call cells waiting [c] m (some vs) m₁)
      (branch : Executes call waiting (.block b) cells m₁ out cells' m') :
      Executes call waiting (.stat (.ifStat (some c) (some (.block b)) no)) cells m out cells' m'
  | ifNo {c : Node} {yes : Option Node} {b : CBlock Node} {cells cells' : Cells} {m m₁ m' : Memory}
      {vs : List Value} {out : Outcome} (cond : Evaluates call cells waiting [c] m (some vs) m₁)
      (branch : Executes call waiting (.block b) cells m₁ out cells' m') :
      Executes call waiting (.stat (.ifStat (some c) yes (some (.block b)))) cells m out cells' m'
  | ifSkip {c : Node} {yes : Option Node} {cells : Cells} {m m' : Memory} {vs : List Value}
      (cond : Evaluates call cells waiting [c] m (some vs) m') :
      Executes call waiting (.stat (.ifStat (some c) yes none)) cells m .next cells m'
  | whileDone {c : Node} {body : Option Node} {cells : Cells} {m m' : Memory} {vs : List Value}
      (cond : Evaluates call cells waiting [c] m (some vs) m') :
      Executes call waiting (.stat (.whileStat (some c) body)) cells m .next cells m'
  | whileAgain {c : Node} {b : CBlock Node} {cells cells₁ cells' : Cells} {m m₁ m₂ m' : Memory}
      {vs : List Value} {out : Outcome} (cond : Evaluates call cells waiting [c] m (some vs) m₁)
      (body : Executes call waiting (.block b) cells m₁ .next cells₁ m₂)
      (rest : Executes call waiting (.stat (.whileStat (some c) (some (.block b)))) cells₁ m₂ out
        cells' m') :
      Executes call waiting (.stat (.whileStat (some c) (some (.block b)))) cells m out cells' m'
  | whileBroke {c : Node} {b : CBlock Node} {cells cells' : Cells} {m m₁ m' : Memory}
      {vs : List Value}
      (cond : Evaluates call cells waiting [c] m (some vs) m₁)
      (body : Executes call waiting (.block b) cells m₁ .broke cells' m') :
      Executes call waiting (.stat (.whileStat (some c) (some (.block b)))) cells m .next cells' m'
  | whileStop {c : Node} {b : CBlock Node} {cells cells' : Cells} {m m₁ m' : Memory}
      {vs : List Value}
      {out : Outcome} (cond : Evaluates call cells waiting [c] m (some vs) m₁)
      (body : Executes call waiting (.block b) cells m₁ out cells' m') (ends : out ≠ .next)
      (leaves : out ≠ .broke) :
      Executes call waiting (.stat (.whileStat (some c) (some (.block b)))) cells m out cells' m'
  | blockStat {b : CBlock Node} {cells cells' : Cells} {m m' : Memory} {out : Outcome}
      (inner : Executes call waiting (.block b) cells m out cells' m') :
      Executes call waiting (.stat (.blockStat (some (.block b)))) cells m out cells' m'
  | inner {b : CBlock Node} {cells cells' : Cells} {m m' : Memory} {out : Outcome}
      (inner : Executes call waiting (.block b) cells m out cells' m') :
      Executes call waiting (.stat (.block b)) cells m out cells' m'
  | block {b : CBlock Node} {cells cells' : Cells} {m m' : Memory} {out : Outcome}
      (stats : Executes call waiting (.stats (b.stats ++ b.cleanup))
        (cellsOf b ++ cells) m out cells' m') :
      Executes call waiting (.block b) cells m out (cells'.drop (cellsOf b).length) m'

/-! ## Functions -/

/-- The parameters of a function with the values that are passed. -/
def passed : List Node → List Value → Cells
  | .argDef name ty :: args, vs => (name, typed ty vs.head?.join) :: passed args vs.tail
  | _ :: args, vs => passed args vs.tail
  | [], _ => []

/-- What a call gives when the body of the function has ended.  A function with a result has to
return one. -/
def Gives (head : FuncHead) : Outcome → Option Value → Prop
  | .returned v, result => result = some v
  | .next, result => head.returnTy = .void ∧ result = some none
  | .broke, _ => False
  | .cut, result => result = none

/-- The calls of functions, up to a depth. -/
def calls (funcs : List Node) : Nat → CallRel
  | 0 => fun _ _ _ _ _ _ => False
  | depth + 1 => fun name vs waiting m result m' => ∃ head args b out cells,
      .func head args (some (.block b)) ∈ funcs ∧ head.name = name ∧
        Executes (calls funcs depth) waiting (.block b) (passed args vs) m out cells m' ∧
          Gives head out result

/-- The memory to which an execution of a file can come. -/
def Reaches : Node → Memory → Prop
  | .file globals funcs (some (.mainFunc (some (.block b)))), m => ∃ depth out cells,
      Executes (calls funcs depth) [] (.block b) []
        { globals := globals.map fun p => (p.1, none) } out cells m
  | _, _ => False

/-- An object is not used after it was freed, unless it was lost before: the global variable from
which it was read got another value while the object was waiting to be used. -/
def UsesLive (o : Nat) (past : List Event) : Prop :=
  ∀ later kind earlier, past = later ++ .use kind o :: earlier → .free o ∈ earlier →
    ∃ name, .overwrite name o ∈ earlier

/-! ## Straight executions -/

/-- What a call gives and the memory after it, where they are known. -/
abbrev CallFun := String → List Value → Waiting → Memory → Option (Value × Memory)

/-- Evaluates expressions with all their operands. -/
def evaluate (call : CallFun) (cells : Cells) :
    Nat → Waiting → List Node → Memory → Option (List Value × Memory)
  | _, _, [], m => some ([], m)
  | 0, _, _ :: _, _ => none
  | fuel + 1, waiting, .varRef name ty _ :: ns, m => do
    let (vs, m') ← evaluate call cells fuel
      (awaited cells name (typed ty (m.get cells name)) ++ waiting)
      ns (m.use .read (typed ty (m.get cells name)))
    return (typed ty (m.get cells name) :: vs, m')
  | fuel + 1, waiting, .call name ty _ args :: ns, m => do
    let (vs, m₁) ← evaluate call cells fuel waiting args m
    let (v, m₂) ← call name vs waiting (m₁.uses .pass vs)
    let (ws, m') ← evaluate call cells fuel waiting ns m₂
    return (typed ty v :: ws, m')
  | fuel + 1, waiting, n :: ns, m =>
    if n.isOperation then do
      let (vs, m₁) ← evaluate call cells fuel waiting n.children m
      let (ws, m') ← evaluate call cells fuel waiting ns (operate n vs m₁).2
      return ((operate n vs m₁).1 :: ws, m')
    else none

/-- Executes statements without blocks, up to one that leaves. -/
def execute (call : CallFun) (fuel : Nat) (waiting : Waiting) :
    List Node → Cells → Memory → Option (Outcome × Cells × Memory)
  | [], cells, m => some (.next, cells, m)
  | n :: ns, cells, m => do
    let (vs, m₁) ← evaluate call cells fuel waiting (operands n) m
    match ← effect waiting cells m₁ n vs with
    | (.next, cells₁, m₂) => execute call fuel waiting ns cells₁ m₂
    | after => return after

def func? (funcs : List Node) (name : String) : Option (FuncHead × List Node × CBlock Node) :=
  funcs.findSome? fun
    | .func head args (some (.block b)) => if head.name = name then some (head, args, b) else none
    | _ => none

/-- Calls functions that have no blocks inside. -/
def callOf (funcs : List Node) (fuel : Nat) : Nat → CallFun
  | 0 => fun _ _ _ _ => none
  | depth + 1 => fun name vs waiting m => do
    let (head, args, b) ← func? funcs name
    match ← execute (callOf funcs fuel depth) fuel waiting (b.stats ++ b.cleanup)
      (cellsOf b ++ passed args vs) m with
    | (.returned v, _, m') => return (v, m')
    | (.next, _, m') => if head.returnTy = .void then return (none, m') else none
    | _ => none

/-- The memory after the execution of a file that has no blocks inside its functions. -/
def memoryAfter (fuel depth : Nat) : Node → Option Memory
  | .file globals funcs (some (.mainFunc (some (.block b)))) => do
    let (_, _, m) ← execute (callOf funcs fuel depth) fuel [] (b.stats ++ b.cleanup)
      (cellsOf b ++ [])
      { globals := globals.map fun p => (p.1, none) }
    return m
  | _ => none

section Straight

variable {callFun : CallFun} {call : CallRel} {waiting : Waiting} {cells : Cells} {m : Memory}
  {fuel depth : Nat} {ns : List Node}

/-- The function gives results that the relation allows. -/
def CallFun.Within (callFun : CallFun) (call : CallRel) : Prop :=
  ∀ {name vs waiting m v m'}, callFun name vs waiting m = some (v, m') →
    call name vs waiting m (some v) m'

theorem evaluates_of_evaluate (hcall : callFun.Within call)
    {vs : List Value} {m' : Memory} (h : evaluate callFun cells fuel waiting ns m = some (vs, m')) :
    Evaluates call cells waiting ns m (some vs) m' := by
  fun_induction evaluate callFun cells fuel waiting ns m generalizing vs m' with
  | case1 =>
    cases h
    exact .nil
  | case2 | case6 => cases h
  | case3 fuel waiting name ty isTemp ns m ih =>
    simp only [bind_eq_bind, bind_eq_some_iff, pure_def, Prod.exists] at h
    obtain ⟨vs, m₁, hrest, heq⟩ := h
    cases heq
    exact .read rfl (ih hrest)
  | case4 fuel waiting name ty temp args ns m ihargs ihrest =>
    simp only [bind_eq_bind, bind_eq_some_iff, pure_def, Prod.exists] at h
    obtain ⟨vs, m₁, hargs, v, m₂, hbody, ws, m₃, hrest, heq⟩ := h
    cases heq
    exact .call (ihargs hargs) (hcall hbody) (ihrest m₂ hrest)
  | case5 fuel waiting n ns m notVar notCall operation ihargs ihrest =>
    simp only [bind_eq_bind, bind_eq_some_iff, pure_def, Prod.exists] at h
    obtain ⟨vs, m₁, hargs, ws, m₂, hrest, heq⟩ := h
    cases heq
    refine .operate operation (fun hkind => ?_) ?_ (.inl rfl) (ihargs hargs) (ihrest vs m₁ hrest)
    · obtain ⟨name, ty, isTemp, rfl⟩ := exists_varRef hkind
      exact notVar name ty isTemp rfl
    · cases n <;> first | rfl | exact (notCall _ _ _ _ rfl).elim

theorem executes_of_execute (hcall : callFun.Within call)
    {after : Outcome × Cells × Memory} (h : execute callFun fuel waiting ns cells m = some after) :
    Executes call waiting (.stats ns) cells m after.1 after.2.1 after.2.2 := by
  induction ns generalizing cells m with
  | nil =>
    cases h
    exact .nil
  | cons n ns ih =>
    simp only [execute, bind_eq_bind, bind_eq_some_iff, Prod.exists] at h
    obtain ⟨vs, m₁, hvalues, out, cells₁, m₂, heffect, hrest⟩ := h
    have hstat := Executes.simple (evaluates_of_evaluate hcall hvalues) heffect
    cases out with
    | next => exact .cons hstat (ih hrest)
    | _ =>
      cases hrest
      exact .stop hstat nofun

theorem callOf_within {funcs : List Node} :
    (callOf funcs fuel depth).Within (calls funcs depth) := by
  induction depth with
  | zero => nofun
  | succ depth ih =>
    intro name vs waiting m v m' h
    simp only [callOf, bind_eq_bind, bind_eq_some_iff, Prod.exists] at h
    obtain ⟨head, args, b, hfunc, out, cells, m₁, hbody, hgives⟩ := h
    obtain ⟨f, hmem, hf⟩ := List.exists_of_findSome?_eq_some hfunc
    split at hf
    · split at hf
      · cases hf
        have hexec : Executes (calls funcs depth) waiting (.block b) (passed args vs) m out _ m₁ :=
          .block (executes_of_execute ih hbody)
        cases out with
        | next =>
          dsimp only at hgives
          split at hgives
          · cases hgives
            exact ⟨head, args, b, _, _, hmem, ‹_›, hexec, ‹_›, rfl⟩
          · cases hgives
        | returned w =>
          cases hgives
          exact ⟨head, args, b, _, _, hmem, ‹_›, hexec, rfl⟩
        | broke | cut => cases hgives
      · cases hf
    · cases hf

theorem reaches_of_memoryAfter {n : Node} (h : memoryAfter fuel depth n = some m) :
    Reaches n m := by
  unfold memoryAfter at h
  split at h
  · simp only [bind_eq_bind, bind_eq_some_iff, pure_def, Prod.exists] at h
    obtain ⟨out, cells, m', hmain, heq⟩ := h
    cases heq
    exact ⟨depth, out, _, .block (executes_of_execute callOf_within hmain)⟩
  · cases h

end Straight

end WichToC.Machine

import WichToC.Counting.Hoist
import WichToC.Symbol.Table

/-!
# Lowering a block

In a lowered block every heap slot owns one reference while it holds a value.  A variable takes a
reference when it is given a value and first gives up the one to its old value; the new value is
held by a temporary in between.  What a function returns gets one more reference for the caller.

The slots of a block are released at its end, and before every return out of it together with the
slots of the blocks around it and the parameters of the function.

A loop whose condition makes heap values evaluates it at the top of its body and leaves by `break`.
-/

namespace WichToC.Counting

variable (t : Table)

/-! ## Statements -/

/-- A definition: the variable takes a new value directly, unless it comes from a call. -/
def lowerDefine (name : String) (ty : Ty) (expr : Option Node) : Setup :=
  let (setup, expr) : Setup × Option Node :=
    match expr with
    | none => ({}, none)
    | some e =>
      let (bound, e) := unbind e
      let (setup, e) := if ty.isHeap && !isCall e then hoistOperands e else hoist e
      (bound ++ setup, some e)
  setup ++ .ofStats (.varDef name ty expr :: (if ty.isHeap then [.refer name] else []))

def lowerAssign (name : String) (ty : Ty) (capture : String) (expr : Option Node) : Setup :=
  if ty.isHeap then
    let (setup, expr) : Setup × Option Node :=
      match expr with
      | none => ({}, none)
      | some e =>
        let (setup, e, _) := hold capture ty e
        (setup, some e)
    setup ++ .ofStats [.release name, .assign name ty capture expr, .refer name]
  else
    let (setup, expr) := hoist? expr
    setup ++ .ofStats [.assign name ty capture expr]

/-- A return: its value is in a temporary before the slots are released. -/
def lowerReturn (ty : Ty) (capture : String) : Option Node → Setup
  | none => .ofStats [.returnStat ty capture none]
  | some e =>
    if ty.isHeap then
      let (setup, e, holder) := hold capture ty e
      setup ++ .ofStats [.refer holder, .returnStat ty capture (some e)]
    else
      let (setup, e) := hoist e
      setup ++ .define capture ty e false ++
        .ofStats [.returnStat ty capture (some (.temp capture ty))]

/-- A call as a statement.  A heap result that nobody uses is kept by its temporary, and the
statement goes away. -/
def lowerCall : Option Node → Setup
  | none => {}
  | some call =>
    if (call.ty?.map Ty.isHeap).getD false then (hoist call).1
    else
      let (setup, call) := hoistOperands call
      setup ++ .ofStats [.callStat (some call)]

/-- The statement that leaves a loop when its condition does not hold. -/
def loopExit (setup : Setup) (cond : Option Node) : Node :=
  .ifStat (some (.unary .not .boolean "" cond))
    (some (.block { stats := setup.releases ++ [.breakStat], injected := true })) none

/-- A loop. -/
def lowerWhile (cond body : Option Node) : Node :=
  let (setup, cond) := hoist? cond
  match body with
  | some (.block b) =>
    if setup.temps.isEmpty then .whileStat cond body
    else
      .whileStat (some (.literal .bool "true" none))
        (some (.block { b with
          locals := insertEntries (insertEntries [] setup.decls) b.locals
          stats := setup.stats ++ loopExit setup cond :: b.stats }))
  | _ => .whileStat cond body

/-- A statement of a block. -/
def lowerStat : Node → Setup
  | .varDef name ty expr => lowerDefine name ty expr
  | .assign name ty capture expr => lowerAssign name ty capture expr
  | .returnStat ty capture expr => lowerReturn ty capture expr
  | .callStat call => lowerCall call
  | .printStat ty expr =>
    let (setup, expr) := hoist? expr
    setup ++ .ofStats [.printStat ty expr]
  | .ifStat cond thenBranch elseBranch =>
    let (setup, cond) := hoist? cond
    setup ++ .ofStats [.ifStat cond thenBranch elseBranch]
  | .elementAssign name index expr =>
    let (first, index) := hoist? index
    let (second, expr) := hoist? expr
    first ++ second ++ .ofStats [.elementAssign name index expr]
  | .whileStat cond body => .ofStats [lowerWhile cond body]
  | n => .ofStats [n]

/-! ## Slots -/

/-- The heap slots of the blocks lowered so far, the latest first. -/
abbrev KnownSlots := List (ScopeId × List String)

/-- The name of a heap slot that a declaration makes; `isTemp` tells temporaries from variables. -/
def declaredSlot? (isTemp : Bool) : Node → Option String
  | .varDecl name ty temp => if ty.isHeap && temp == isTemp then some name else none
  | _ => none

/-- The heap slots of a block: its variables in order of declaration, then its temporaries.  The
global variables are slots of the main block. -/
def slotsOf (b : CBlock Node) : List String :=
  let globals :=
    match b.scope with
    | some scope =>
      if t.kind? scope = some .global then (t.heapVariables scope).map Variable.name else []
    | none => []
  let decls := b.locals.map Prod.snd
  globals ++ decls.filterMap (declaredSlot? false) ++ decls.filterMap (declaredSlot? true)

/-- The slots of the blocks around a scope in the same function, in the order of their release: the
innermost block first, and in each block the last slot first. -/
def enclosingSlots (known : KnownSlots) (scope : Option ScopeId) : List String :=
  match scope with
  | none => []
  | some scope =>
    let outer := ((t.chain scope).drop 1).takeWhile fun s => t.kind? s = some .block
    outer.flatMap fun s => ((known.lookup s).getD []).reverse

/-- Whether a statement is a return. -/
def isReturn : Node → Bool
  | .returnStat .. => true
  | _ => false

/-- Runs statements before every return. -/
def beforeReturns (sweep stats : List Node) : List Node :=
  stats.flatMap fun n => if isReturn n then sweep ++ [n] else [n]

def endsInReturn (stats : List Node) : Bool :=
  (stats.getLast?.map isReturn).getD false

/-! ## Blocks -/

/-- What is known while a model is walked. -/
structure Known where
  /-- The heap parameters of the present function. -/
  params : List String := []
  slots : KnownSlots := []

/-- Lowers the statements of a block and releases its slots. -/
def lowerBlock (known : Known) (b : CBlock Node) : CBlock Node × Known :=
  let lowered := Setup.join (b.stats.map lowerStat)
  let b := { b with locals := insertEntries b.locals lowered.decls, injected := true }
  let slots := slotsOf t b
  let own := slots.reverse.map Node.release
  let params := known.params.reverse.map Node.release
  let sweep := own ++ (enclosingSlots t known.slots b.scope).map Node.release ++ params
  let stats := beforeReturns sweep lowered.stats
  let cleanup :=
    if endsInReturn stats then b.cleanup else if b.isFunctionBody then own ++ params else own
  let slots := (b.scope.map fun scope => (scope, slots)).toList ++ known.slots
  ({ b with stats := stats, cleanup := cleanup }, { known with slots := slots })

end WichToC.Counting

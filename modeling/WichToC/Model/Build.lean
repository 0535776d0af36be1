import WichToC.Model.Fresh
import WichToC.Model.Node
import WichToC.Number.Shortest
import WichToC.Script
import WichToC.Symbol.Table

/-!
# Building the output model

A typed script becomes an output model: one node for each construct, with the kind of a binary node
chosen by the type of its operands and a conversion node for each value that is widened.

Temporaries are numbered within each function and never take a name of the program.  A variable of a
block that hides a variable outside gets a C name of its own, so that the names in one function are
distinct wherever two variables are visible together.

A number that meets a vector is spread to its length.  A vector operand that is not a variable is
bound to a temporary for that, so that it is evaluated once.
-/

namespace WichToC

variable (t : Table)

/-- Why no model can be built. -/
inductive BuildError where
  | untypedExpression (span : Span)
  | untypedVariable (name : String)
  | missingScope (what : String)
  | unsupportedPromotion (source target : Ty)
deriving DecidableEq, Repr

def BuildError.message : BuildError → String
  | untypedExpression span =>
    "expression at " ++ toString span.start ++ ".." ++ toString span.stop ++ " has no type"
  | untypedVariable name => "variable " ++ name ++ " has no type"
  | missingScope what => what ++ " was never attached to a scope"
  | unsupportedPromotion source target =>
    "cannot promote " ++ source.name ++ " to " ++ target.name

namespace Build

variable (scope : ScopeId)

/-- The names handed out so far. -/
structure Names where
  /-- The number of the next temporary to try. -/
  next : Nat := 0
  /-- The names that a generated one must not take. -/
  taken : List String
  /-- The variables with a C name of their own. -/
  renamed : List (SymbolId × String) := []
  /-- The bound temporaries of the present block. -/
  scratch : List (String × Ty) := []

/-- A step of building: it hands out names, or fails. -/
abbrev Builder := StateT Names (Except BuildError)

/-! ## Names -/

/-- Reserves the next temporary. -/
def newTemp : Builder String := fun names =>
  let n := Fresh.first names.taken Fresh.temporary names.next
  .ok (Fresh.temporary n, { names with next := n + 1 })

/-- A C name for a variable that hides another one. -/
def rename (id : SymbolId) (name : String) : Builder String := fun names =>
  let fresh := Fresh.variant name (Fresh.first names.taken (Fresh.variant name) 1)
  .ok (fresh,
    { names with taken := fresh :: names.taken, renamed := (id, fresh) :: names.renamed })

/-- The C name of a variable: its own, unless it was renamed. -/
def cName (symbol : Option SymbolId) (name : String) : Builder String := fun names =>
  .ok ((symbol.bind fun id => names.renamed.lookup id).getD name, names)

/-- Begins a function: temporaries are numbered from zero. -/
def restart : Builder Unit := modify fun names => { names with next := 0 }

/-- Declares a bound temporary in the present block. -/
def addScratch (name : String) (ty : Ty) : Builder Unit :=
  modify fun names => { names with scratch := names.scratch ++ [(name, ty)] }

/-- Takes away the bound temporaries declared so far and puts others in their place. -/
def swapScratch (scratch : List (String × Ty)) : Builder (List (String × Ty)) := fun names =>
  .ok (names.scratch, { names with scratch := scratch })

def tempDecls (temps : List (String × Ty)) : List (String × Node) :=
  insertEntries [] (temps.map fun (name, ty) => (name, .tempDecl name ty))

/-- Whether a variable of a block hides a variable outside. -/
def hides (name : String) : Bool :=
  match t.scope? scope with
  | some s =>
    s.kind = .block &&
      ((s.parent.bind fun parent => t.resolve parent name).bind t.var?).isSome
  | none => false

/-- The declarations of the given symbols of a scope, parameters apart, in order. -/
def declarations (t : Table) (scope : ScopeId) (locals : List (String × Node)) :
    List SymbolId → Builder (List (String × Node))
  | [] => return locals
  | id :: ids =>
    match t.var? id with
    | none => declarations t scope locals ids
    | some v =>
      if v.isParameter then declarations t scope locals ids
      else
        match v.ty with
        | none | some .error => throw (.untypedVariable v.name)
        | some ty => do
          let name ← if hides t scope v.name then rename id v.name else pure v.name
          declarations t scope (insertEntry name (.varDecl name ty false) locals) ids

/-- The declarations of the variables of a scope. -/
def localsOf : Builder (List (String × Node)) :=
  declarations t scope [] (t.symbolsOf scope)

/-! ## Expressions -/

/-- The type of an expression. -/
def exprTy (e : Expr) : Builder Ty :=
  match e.ty with
  | none | some .error => throw (.untypedExpression e.span)
  | some ty => pure ty

/-- The type that the consumer of an expression sees. -/
def effectiveTy (e : Expr) : Builder Ty := do
  let ty ← exprTy e
  return e.promoteTo.getD ty

/-- The C text of a double: a point is added where the number has neither point nor exponent. -/
def floatText (value : Binary64) : String :=
  let text := value.text
  if text.toList.any fun c => c = '.' || c = 'e' || c = 'E' then text else text ++ ".0"

/-- The kind of a binary node for operands of a type. -/
def operandKind : Ty → OperandKind
  | .float => .float
  | .string => .string
  | .vector => .vector
  | _ => .int

/-- Whether a node reads a variable. -/
def isVarRef : Node → Bool
  | .varRef .. => true
  | _ => false

/-- A vector operand, and the temporary and value to bind for it unless it is a variable. -/
def bindVector (operand : Node) : Builder (Node × Option (String × Node)) :=
  if isVarRef operand then pure (operand, none)
  else do
    let name ← newTemp
    addScratch name .vector
    return (.temp name .vector, some (name, operand))

/-- A number spread to the length of a vector. -/
def broadcast (scalar : Node) (scalarTy : Ty) (vector : Node) : Builder Node := do
  let lenTemp ← newTemp
  let temp ← newTemp
  let kind := if scalarTy = .int then WidenKind.intToVector else .floatToVector
  return .widen kind .vector temp (some scalar) (some (.length .vector lenTemp (some vector)))

/-- A binary node for built operands and the types that it sees them with. -/
def binary (op : Operator) (ty : Ty) (left : Node) (leftTy : Ty) (right : Node) (rightTy : Ty) :
    Builder Node := do
  let (left, right, bound) ←
    if leftTy ≠ rightTy ∧ leftTy = .vector then do
      let (left, bound) ← bindVector left
      let right ← broadcast right rightTy left
      pure (left, right, bound)
    else if leftTy ≠ rightTy ∧ rightTy = .vector then do
      let (right, bound) ← bindVector right
      let left ← broadcast left leftTy right
      pure (left, right, bound)
    else pure (left, right, none)
  let operandTy := if leftTy = .vector ∨ rightTy = .vector then .vector else leftTy
  let temp ← newTemp
  let kind := operandKind operandTy
  let node := Node.binary kind op.symbol ty operandTy temp (some left) (some right)
  match bound with
  | some (name, value) => return .bind name .vector (some value) (some node)
  | none => return node

/-- A node converted to the type that its consumer expects. -/
def widened (node : Node) (ty : Ty) (promoteTo : Option Ty) : Builder Node :=
  match promoteTo with
  | none => pure node
  | some target =>
    if target = ty then pure node
    else if target = .float ∧ ty = .int then do
      return .widen .intToFloat .float (← newTemp) (some node) none
    else throw (.unsupportedPromotion ty target)

/-- The expression in the type that its consumer expects; `base` builds it in its own type.  A whole
number that is widened to a double is written as one. -/
def value (e : Expr) (base : Ty → Builder Node) : Builder Node := do
  let ty ← exprTy e
  match e.kind, e.promoteTo with
  | .int n, some .float => return .literal .float (floatText (.ofNat n)) none
  | _, promoteTo => widened (← base ty) ty promoteTo

/-- The expression as an operand of a binary node, and the type with which it enters the operation.
A number that is to be spread over a vector is left as it is. -/
def operand (e : Expr) (base : Ty → Builder Node) : Builder (Node × Ty) := do
  let ty ← exprTy e
  if e.promoteTo = some .vector ∧ ty ≠ .vector then return (← base ty, ty)
  else return (← value e base, e.promoteTo.getD ty)

mutual

/-- Builds an expression of the given shape and type, before any conversion. -/
def shape : ExprKind → Ty → Builder Node
  | .int n, _ => return .literal .int (toString n) none
  | .float x, _ => return .literal .float (floatText x) none
  | .bool b, _ => return .literal .bool (if b then "true" else "false") none
  | .text s, _ => return .literal .string s (some (← newTemp))
  | .vector elements, _ => do
    let elems ← values elements
    return .vectorLit (← newTemp) elems
  | .name name symbol, ty => return .var (← cName symbol name) ty
  | .binary left op right, ty => do
    let (l, leftTy) ← operand left (base left)
    let (r, rightTy) ← operand right (base right)
    binary op ty l leftTy r rightTy
  | .negate inner, ty => do
    let node ← value inner (base inner)
    return .unary .negate ty (← newTemp) (some node)
  | .not inner, ty => do
    let node ← value inner (base inner)
    return .unary .not ty (← newTemp) (some node)
  | .index target i, ty => do
    let targetTy ← exprTy target
    let node ← value target (base target)
    let place ← value i (base i)
    let kind := if targetTy = .string then IndexKind.string else .vector
    return .index kind ty (← newTemp) (some node) (some place)
  | .len inner, _ => do
    let argTy ← exprTy inner
    let node ← value inner (base inner)
    return .length argTy (← newTemp) (some node)
  | .call name args _, ty => do
    let built ← values args
    return .call name ty (← newTemp) built

/-- Builds an expression of the given type, before any conversion. -/
def base : Expr → Ty → Builder Node
  | ⟨kind, _, _, _⟩ => shape kind

def values : List Expr → Builder (List Node)
  | [] => return []
  | e :: es => do
    let first ← value e (base e)
    let others ← values es
    return first :: others

end

/-- Builds an expression in the type that its consumer expects. -/
def expr (e : Expr) : Builder Node := value e (base e)

/-! ## Statements -/

mutual

/-- Builds a statement of the given shape. -/
def stmtKind (t : Table) : StmtKind → Builder Node
  | .define name value symbol => do
    let ty ← effectiveTy value
    let node ← expr value
    return .varDef (← cName symbol name) ty (some node)
  | .assign name value symbol => do
    let ty ← effectiveTy value
    let node ← expr value
    return .assign (← cName symbol name) ty (← newTemp) (some node)
  | .assignElement name i value symbol => do
    let place ← expr i
    let node ← expr value
    return .elementAssign (← cName symbol name) (some place) (some node)
  | .ifElse cond thenBlock elseBlock => do
    let test ← expr cond
    let yes ← block t false thenBlock
    let no ← block? t elseBlock
    return .ifStat (some test) (some yes) no
  | .loop cond body => do
    let test ← expr cond
    let again ← block t false body
    return .whileStat (some test) (some again)
  | .call call => return .callStat (some (← expr call))
  | .print none => return .printStat none none
  | .print (some value) => do
    let ty ← effectiveTy value
    return .printStat (some ty) (some (← expr value))
  | .ret value => do
    let ty ← effectiveTy value
    let node ← expr value
    return .returnStat ty (← newTemp) (some node)
  | .block inner => return .blockStat (some (← block t false inner))

/-- Builds a statement. -/
def stmt (t : Table) : Stmt → Builder Node
  | ⟨kind, _⟩ => stmtKind t kind

/-- Builds a block: its variables, its statements, and the bound temporaries that these need. -/
def block (t : Table) (isFunctionBody : Bool) : Block → Builder Node
  | ⟨statements, _, some scope⟩ => do
    let locals ← localsOf t scope
    let outer ← swapScratch []
    let stats ← stmts t statements
    let scratch ← swapScratch outer
    return .block
      { locals := locals, temps := tempDecls scratch, stats := stats, scope := some scope,
        isFunctionBody := isFunctionBody }
  | ⟨_, _, none⟩ => throw (.missingScope "block")

/-- Builds a block that may be missing. -/
def block? (t : Table) : Option Block → Builder (Option Node)
  | none => return none
  | some b => return some (← block t false b)

/-- Builds statements in order. -/
def stmts (t : Table) : List Stmt → Builder (List Node)
  | [] => return []
  | s :: ss => do
    let first ← stmt t s
    let others ← stmts t ss
    return first :: others

end

/-! ## Functions and files -/

def args (t : Table) (function : String) (params : List SymbolId) : Builder (List Node) :=
  params.mapM fun id =>
    match t.var? id with
    | none => throw (.untypedVariable function)
    | some v =>
      match v.ty with
      | none => throw (.untypedVariable v.name)
      | some ty => pure (.argDef v.name ty)

def func (t : Table) (f : Function) : Builder Node := do
  restart
  match f.scope, f.symbol.bind t.func? with
  | some scope, some signature =>
    let params ← args t f.name signature.params
    let body ← block t true f.body
    let head : FuncHead := { name := f.name, returnTy := signature.returnTy, scope := scope }
    return .func head params (some body)
  | _, _ => throw (.missingScope f.name)

/-- Builds the file of a script: its global variables, its functions in order, and the main function
with the statements outside functions. -/
def file (t : Table) (script : Script) : Builder Node :=
  match script.scope with
  | none => throw (.missingScope "script")
  | some global => do
    let globals ← localsOf t global
    let funcs ← script.functions.mapM (func t)
    restart
    let stats ← stmts t script.statements
    let scratch ← swapScratch []
    let body := Node.block
      { temps := tempDecls scratch, stats := stats, scope := some global, isFunctionBody := true }
    return .file globals funcs (some (.mainFunc (some body)))

end Build

/-- The output model of an analysed script. -/
def Node.ofScript (script : Script) (t : Table) : Except BuildError Node :=
  (Build.file t script |>.run { taken := t.names }).map Prod.fst

end WichToC

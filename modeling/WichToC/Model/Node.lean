import WichToC.Model.Kind
import WichToC.Symbol.Id
import WichToC.Ty

/-!
# The output model

The output model is a tree of the C constructs that a script is turned into.  Statements,
expressions and declarations are nodes of one type, and any child may be missing, so that passes
over the model can take nodes out and put others in.

An expression that is not trivial reserves the name of a temporary, into which it can be moved when
its value needs a slot of its own.

`Node.fold` is recursion over the slots of a node; `Node.slots` and `Node.withSlots` take a node
apart and put it together again.
-/

namespace WichToC

/-- The kinds of literals other than vectors. -/
inductive LiteralKind where
  | int
  | float
  | bool
  | string
deriving DecidableEq, Repr

/-- What the operands of a binary operation are. -/
inductive OperandKind where
  | int
  | float
  | string
  | vector
deriving DecidableEq, Repr

/-- The unary operations. -/
inductive UnaryKind where
  | negate
  | not
deriving DecidableEq, Repr

inductive IndexKind where
  | vector
  | string
deriving DecidableEq, Repr

/-- The conversions to a wider type. -/
inductive WidenKind where
  | intToFloat
  | intToVector
  | floatToVector
deriving DecidableEq, Repr

/-- The changes of a reference count. -/
inductive CountKind where
  | ref
  | deref
deriving DecidableEq, Repr

/-- What a function node says besides its children. -/
structure FuncHead where
  name : String
  returnTy : Ty
  scope : ScopeId
  /-- Whether reference counting has been injected. -/
  injected : Bool := false
deriving DecidableEq, Repr

/-- A block of C statements. -/
structure CBlock (N : Type) where
  locals : List (String × N) := []
  /-- The slots of bound values. -/
  temps : List (String × N) := []
  stats : List N := []
  /-- What runs at the end of the block. -/
  cleanup : List N := []
  scope : Option ScopeId := none
  isFunctionBody : Bool := false
  /-- Whether reference counting has been injected. -/
  injected : Bool := false
deriving Repr

/-- A node of the output model. -/
inductive Node where
  | file (globals : List (String × Node)) (funcs : List Node) (main : Option Node)
  | func (head : FuncHead) (args : List Node) (body : Option Node)
  | mainFunc (body : Option Node)
  | block (block : CBlock Node)
  | argDef (name : String) (ty : Ty)
  | varDecl (name : String) (ty : Ty) (isTemp : Bool)
  | varDef (name : String) (ty : Ty) (expr : Option Node)
  /-- `capture` is reserved for the value while the old one is released. -/
  | assign (name : String) (ty : Ty) (capture : String) (expr : Option Node)
  | elementAssign (name : String) (index expr : Option Node)
  | ifStat (cond thenBranch elseBranch : Option Node)
  | whileStat (cond body : Option Node)
  /-- `capture` is reserved for the value while the slots of the function are released. -/
  | returnStat (ty : Ty) (capture : String) (expr : Option Node)
  | printStat (ty : Option Ty) (expr : Option Node)
  | callStat (call : Option Node)
  | blockStat (block : Option Node)
  | breakStat
  | tempDef (name : String) (ty : Ty) (refInserted : Bool) (expr : Option Node)
  | count (kind : CountKind) (slot : String)
  /-- Numbers and booleans hold their C text, strings their value. -/
  | literal (kind : LiteralKind) (value : String) (temp : Option String)
  | vectorLit (temp : String) (elems : List Node)
  | varRef (name : String) (ty : Ty) (isTemp : Bool)
  | call (name : String) (ty : Ty) (temp : String) (args : List Node)
  | binary (kind : OperandKind) (op : String) (ty operandTy : Ty) (temp : String)
      (left right : Option Node)
  | unary (kind : UnaryKind) (ty : Ty) (temp : String) (expr : Option Node)
  | index (kind : IndexKind) (ty : Ty) (temp : String) (expr index : Option Node)
  | length (argTy : Ty) (temp : String) (expr : Option Node)
  /-- `len` is the length of the other operand when a number is spread over a vector. -/
  | widen (kind : WidenKind) (ty : Ty) (temp : String) (expr len : Option Node)
  /-- `value` is kept under `name` while `body` is evaluated. -/
  | bind (name : String) (ty : Ty) (value body : Option Node)
deriving Repr

namespace Node

variable {α : Type}

def kind : Node → Kind
  | file .. => .file
  | func .. => .func
  | mainFunc _ => .mainFunc
  | block _ => .block
  | argDef .. => .argDef
  | varDecl .. => .varDecl
  | varDef .. => .varDefStat
  | assign .. => .assignStat
  | elementAssign .. => .elementAssignStat
  | ifStat .. => .ifStat
  | whileStat .. => .whileStat
  | returnStat .. => .returnStat
  | printStat .. => .printStat
  | callStat _ => .callStat
  | blockStat _ => .blockStat
  | breakStat => .breakStat
  | tempDef .. => .tempVarDef
  | count .ref _ => .ref
  | count .deref _ => .deref
  | literal .int .. => .intLiteral
  | literal .float .. => .floatLiteral
  | literal .bool .. => .boolLiteral
  | literal .string .. => .stringLiteral
  | vectorLit .. => .vectorLiteral
  | varRef .. => .varRef
  | call .. => .funcCall
  | binary .int .. => .intBinary
  | binary .float .. => .floatBinary
  | binary .string .. => .strBinary
  | binary .vector .. => .vectorBinary
  | unary .negate .. => .negateExpr
  | unary .not .. => .notExpr
  | index .vector .. => .vectorIndex
  | index .string .. => .strIndex
  | length .. => .vectorLen
  | widen .intToFloat .. => .intToFloat
  | widen .intToVector .. => .intToVector
  | widen .floatToVector .. => .floatToVector
  | bind .. => .bind

/-- The children of a node, in the order of its kind's slots. -/
def slots : Node → List (Slot Node)
  | file globals funcs main => [.map globals, .sequence funcs, .single main]
  | func _ args body => [.sequence args, .single body]
  | mainFunc body => [.single body]
  | block b => [.map b.locals, .map b.temps, .sequence b.stats, .sequence b.cleanup]
  | varDef _ _ expr | assign _ _ _ expr | returnStat _ _ expr | printStat _ expr
  | tempDef _ _ _ expr | unary _ _ _ expr | length _ _ expr => [.single expr]
  | elementAssign _ i expr => [.single i, .single expr]
  | ifStat cond thenBranch elseBranch => [.single cond, .single thenBranch, .single elseBranch]
  | whileStat cond body => [.single cond, .single body]
  | callStat c => [.single c]
  | blockStat b => [.single b]
  | vectorLit _ elems => [.sequence elems]
  | call _ _ _ args => [.sequence args]
  | binary _ _ _ _ _ left right => [.single left, .single right]
  | index _ _ _ expr i => [.single expr, .single i]
  | widen _ _ _ expr len => [.single expr, .single len]
  | bind _ _ value body => [.single value, .single body]
  | argDef .. | varDecl .. | breakStat | count .. | literal .. | varRef .. => []

/-- The node with other children.  A list of slots that does not fit the kind changes nothing. -/
def withSlots : Node → List (Slot Node) → Node
  | file .., [.map globals, .sequence funcs, .single main] => file globals funcs main
  | func head .., [.sequence args, .single body] => func head args body
  | mainFunc _, [.single body] => mainFunc body
  | block b, [.map locals, .map temps, .sequence stats, .sequence cleanup] =>
    block { b with locals := locals, temps := temps, stats := stats, cleanup := cleanup }
  | varDef name ty _, [.single expr] => varDef name ty expr
  | assign name ty capture _, [.single expr] => assign name ty capture expr
  | elementAssign name .., [.single i, .single expr] => elementAssign name i expr
  | ifStat .., [.single cond, .single thenBranch, .single elseBranch] =>
    ifStat cond thenBranch elseBranch
  | whileStat .., [.single cond, .single body] => whileStat cond body
  | returnStat ty capture _, [.single expr] => returnStat ty capture expr
  | printStat ty _, [.single expr] => printStat ty expr
  | callStat _, [.single c] => callStat c
  | blockStat _, [.single b] => blockStat b
  | tempDef name ty refInserted _, [.single expr] => tempDef name ty refInserted expr
  | vectorLit temp _, [.sequence elems] => vectorLit temp elems
  | call name ty temp _, [.sequence args] => call name ty temp args
  | binary kind op ty operandTy temp .., [.single left, .single right] =>
    binary kind op ty operandTy temp left right
  | unary kind ty temp _, [.single expr] => unary kind ty temp expr
  | index kind ty temp .., [.single expr, .single i] => index kind ty temp expr i
  | length argTy temp _, [.single expr] => length argTy temp expr
  | widen kind ty temp .., [.single expr, .single len] => widen kind ty temp expr len
  | bind name ty .., [.single value, .single body] => bind name ty value body
  | n, _ => n

def children (n : Node) : List Node :=
  n.slots.flatMap Slot.toList

mutual

/-- Recursion over a model: `f` sees a node and the results for its children, slot by slot. -/
def fold (f : Node → List (Slot α) → α) : Node → α
  | n@(file globals funcs main) =>
    f n [.map (foldEntries f globals), .sequence (foldList f funcs), .single (foldOption f main)]
  | n@(func _ args body) => f n [.sequence (foldList f args), .single (foldOption f body)]
  | n@(mainFunc body) => f n [.single (foldOption f body)]
  | n@(block ⟨locals, temps, stats, cleanup, _, _, _⟩) =>
    f n [.map (foldEntries f locals), .map (foldEntries f temps), .sequence (foldList f stats),
      .sequence (foldList f cleanup)]
  | n@(varDef _ _ expr) => f n [.single (foldOption f expr)]
  | n@(assign _ _ _ expr) => f n [.single (foldOption f expr)]
  | n@(elementAssign _ i expr) => f n [.single (foldOption f i), .single (foldOption f expr)]
  | n@(ifStat cond thenBranch elseBranch) =>
    f n [.single (foldOption f cond), .single (foldOption f thenBranch),
      .single (foldOption f elseBranch)]
  | n@(whileStat cond body) => f n [.single (foldOption f cond), .single (foldOption f body)]
  | n@(returnStat _ _ expr) => f n [.single (foldOption f expr)]
  | n@(printStat _ expr) => f n [.single (foldOption f expr)]
  | n@(callStat c) => f n [.single (foldOption f c)]
  | n@(blockStat b) => f n [.single (foldOption f b)]
  | n@(tempDef _ _ _ expr) => f n [.single (foldOption f expr)]
  | n@(vectorLit _ elems) => f n [.sequence (foldList f elems)]
  | n@(call _ _ _ args) => f n [.sequence (foldList f args)]
  | n@(binary _ _ _ _ _ left right) =>
    f n [.single (foldOption f left), .single (foldOption f right)]
  | n@(unary _ _ _ expr) => f n [.single (foldOption f expr)]
  | n@(index _ _ _ expr i) => f n [.single (foldOption f expr), .single (foldOption f i)]
  | n@(length _ _ expr) => f n [.single (foldOption f expr)]
  | n@(widen _ _ _ expr len) => f n [.single (foldOption f expr), .single (foldOption f len)]
  | n@(bind _ _ value body) => f n [.single (foldOption f value), .single (foldOption f body)]
  | n@(argDef ..) => f n []
  | n@(varDecl ..) => f n []
  | n@breakStat => f n []
  | n@(count ..) => f n []
  | n@(literal ..) => f n []
  | n@(varRef ..) => f n []

/-- The results for an optional node. -/
def foldOption (f : Node → List (Slot α) → α) : Option Node → Option α
  | none => none
  | some n => some (fold f n)

/-- The results for a list of nodes. -/
def foldList (f : Node → List (Slot α) → α) : List Node → List α
  | [] => []
  | n :: ns => fold f n :: foldList f ns

/-- The results for named nodes. -/
def foldEntries (f : Node → List (Slot α) → α) : List (String × Node) → List (String × α)
  | [] => []
  | (key, n) :: entries => (key, fold f n) :: foldEntries f entries

end

/-! ## Attributes -/

def name? : Node → Option String
  | func head .. => some head.name
  | argDef name _ | varDecl name .. | varDef name .. | assign name .. | elementAssign name ..
  | tempDef name .. | varRef name .. | call name .. | bind name .. => some name
  | _ => none

/-- The type of an expression, none for everything else. -/
def ty? : Node → Option Ty
  | literal .int .. => some .int
  | literal .float .. => some .float
  | literal .bool .. => some .boolean
  | literal .string .. => some .string
  | vectorLit .. => some .vector
  | varRef _ ty _ => some ty
  | call _ ty .. => some ty
  | binary _ _ ty .. => some ty
  | unary _ ty .. => some ty
  | index _ ty .. => some ty
  | length .. => some .int
  | widen _ ty .. => some ty
  | bind _ _ _ (some body) => body.ty?
  | _ => none

/-- The temporary that is reserved for an expression. -/
def temp? : Node → Option String
  | literal _ _ temp => temp
  | vectorLit temp _ | call _ _ temp _ | binary _ _ _ _ temp .. | unary _ _ temp _
  | index _ _ temp .. | length _ temp _ | widen _ _ temp .. => some temp
  | _ => none

/-- Reserves another temporary for an expression that has one. -/
def setTemp (new : String) : Node → Node
  | literal kind value (some _) => literal kind value (some new)
  | vectorLit _ elems => vectorLit new elems
  | call name ty _ args => call name ty new args
  | binary kind op ty operandTy _ left right => binary kind op ty operandTy new left right
  | unary kind ty _ expr => unary kind ty new expr
  | index kind ty _ expr i => index kind ty new expr i
  | length argTy _ expr => length argTy new expr
  | widen kind ty _ expr len => widen kind ty new expr len
  | n => n

/-- A variable read by name. -/
def var (name : String) (ty : Ty) : Node := varRef name ty false

/-- A temporary read by name. -/
def temp (name : String) (ty : Ty) : Node := varRef name ty true

/-- Takes one more reference to what a slot holds. -/
def refer (slot : String) : Node := count .ref slot

/-- Gives up one reference to what a slot holds. -/
def release (slot : String) : Node := count .deref slot

def tempDecl (name : String) (ty : Ty) : Node := varDecl name ty true

end Node

end WichToC

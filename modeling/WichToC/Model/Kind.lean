import WichToC.Model.Slot

/-!
# Kinds of nodes

The kinds of nodes of the output model, their names, and the named slots that the nodes of each kind
have.  Traversals and templates know the children of a node only through this description.
-/

namespace WichToC

/-- A kind of node. -/
inductive Kind where
  | file
  | func
  | mainFunc
  | block
  | argDef
  | varDecl
  | varDefStat
  | assignStat
  | elementAssignStat
  | ifStat
  | whileStat
  | returnStat
  | printStat
  | callStat
  | blockStat
  | breakStat
  | tempVarDef
  | ref
  | deref
  | intLiteral
  | floatLiteral
  | boolLiteral
  | stringLiteral
  | vectorLiteral
  | varRef
  | funcCall
  | intBinary
  | floatBinary
  | strBinary
  | vectorBinary
  | negateExpr
  | notExpr
  | vectorIndex
  | strIndex
  | vectorLen
  | intToFloat
  | intToVector
  | floatToVector
  | bind
deriving DecidableEq, Repr

namespace Kind

/-- Every kind. -/
def all : List Kind :=
  [file, func, mainFunc, block, argDef, varDecl, varDefStat, assignStat, elementAssignStat, ifStat,
    whileStat, returnStat, printStat, callStat, blockStat, breakStat, tempVarDef, ref, deref,
    intLiteral, floatLiteral, boolLiteral, stringLiteral, vectorLiteral, varRef, funcCall,
    intBinary, floatBinary, strBinary, vectorBinary, negateExpr, notExpr, vectorIndex, strIndex,
    vectorLen, intToFloat, intToVector, floatToVector, bind]

def name : Kind → String
  | file => "File"
  | func => "Func"
  | mainFunc => "MainFunc"
  | block => "Block"
  | argDef => "ArgDef"
  | varDecl => "VarDecl"
  | varDefStat => "VarDefStat"
  | assignStat => "AssignStat"
  | elementAssignStat => "ElementAssignStat"
  | ifStat => "IfStat"
  | whileStat => "WhileStat"
  | returnStat => "ReturnStat"
  | printStat => "PrintStat"
  | callStat => "CallStat"
  | blockStat => "BlockStat"
  | breakStat => "BreakStat"
  | tempVarDef => "TempVarDef"
  | ref => "Ref"
  | deref => "Deref"
  | intLiteral => "IntLiteral"
  | floatLiteral => "FloatLiteral"
  | boolLiteral => "BoolLiteral"
  | stringLiteral => "StringLiteral"
  | vectorLiteral => "VectorLiteral"
  | varRef => "VarRef"
  | funcCall => "FuncCall"
  | intBinary => "IntBinary"
  | floatBinary => "FloatBinary"
  | strBinary => "StrBinary"
  | vectorBinary => "VectorBinary"
  | negateExpr => "NegateExpr"
  | notExpr => "NotExpr"
  | vectorIndex => "VectorIndex"
  | strIndex => "StrIndex"
  | vectorLen => "VectorLen"
  | intToFloat => "IntToFloat"
  | intToVector => "IntToVector"
  | floatToVector => "FloatToVector"
  | bind => "Bind"

def ofName? (s : String) : Option Kind :=
  all.find? fun k => k.name = s

/-- The names and shapes of the slots of a kind, in the order in which they are visited. -/
def slots : Kind → List (String × SlotShape)
  | file => [("globals", .map), ("funcs", .sequence), ("main", .single)]
  | func => [("args", .sequence), ("body", .single)]
  | mainFunc => [("body", .single)]
  | block => [("locals", .map), ("temps", .map), ("stats", .sequence), ("cleanup", .sequence)]
  | varDefStat | assignStat | returnStat | printStat | tempVarDef | negateExpr | notExpr
  | vectorLen => [("expr", .single)]
  | elementAssignStat => [("index", .single), ("expr", .single)]
  | ifStat => [("cond", .single), ("then", .single), ("else_branch", .single)]
  | whileStat => [("cond", .single), ("body", .single)]
  | callStat => [("call", .single)]
  | blockStat => [("block", .single)]
  | vectorLiteral => [("elems", .sequence)]
  | funcCall => [("args", .sequence)]
  | intBinary | floatBinary | strBinary | vectorBinary => [("left", .single), ("right", .single)]
  | vectorIndex | strIndex => [("expr", .single), ("index", .single)]
  | intToFloat | intToVector | floatToVector => [("expr", .single), ("len", .single)]
  | bind => [("value", .single), ("body", .single)]
  | argDef | varDecl | breakStat | ref | deref | intLiteral | floatLiteral | boolLiteral
  | stringLiteral | varRef => []

end Kind

end WichToC

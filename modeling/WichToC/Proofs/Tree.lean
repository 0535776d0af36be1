import WichToC.Script

/-!
# Trees of scripts

What an expression and a statement are made of, and induction over them.  `Annotated.nodes` lists an
expression with all its subexpressions and `Located.nodes` a statement with all statements inside
it, each in the order in which they stand in the source.  A statement about all of a tree is a
statement about these lists.
-/

namespace WichToC

open List StmtKind

/-- Both of two elements. -/
theorem forall_mem_pair {α : Type} {a b : α} {P : α → Prop} : (∀ x ∈ [a, b], P x) ↔ P a ∧ P b := by
  simp

/-! ## Expressions -/

/-- The direct subexpressions, in order. -/
@[simp] def ExprKind.operands : ExprKind → List Expr
  | .vector elements => elements
  | .binary left _ right => [left, right]
  | .negate operand | .not operand | .len operand => [operand]
  | .index target i => [target, i]
  | .call _ args _ => args
  | .int _ | .float _ | .text _ | .bool _ | .name .. => []

/-- A direct subexpression is smaller. -/
theorem ExprKind.sizeOf_lt_of_mem_operands {k : ExprKind} {e : Expr} (h : e ∈ k.operands) :
    sizeOf e < sizeOf k := by
  cases k with
  | vector elements =>
    have := sizeOf_lt_of_mem (show e ∈ elements from h)
    grind
  | call name args symbol =>
    have := sizeOf_lt_of_mem (show e ∈ args from h)
    simp only [ExprKind.call.sizeOf_spec]
    omega
  | binary left op right | index target i =>
    simp only [operands, mem_cons, not_mem_nil, or_false] at h
    grind
  | negate operand | not operand | len operand =>
    obtain rfl : e = operand := by simpa [operands] using h
    simp
  | int | float | text | bool | name => simp [operands] at h

/-- **Induction over expressions.**  What holds of an expression whenever it holds of its direct
subexpressions holds of every expression. -/
theorem Expr.induction {P : Expr → Prop}
    (step : ∀ e : Expr, (∀ c ∈ e.kind.operands, P c) → P e) (e : Expr) : P e := by
  induction hn : sizeOf e using Nat.strongRecOn generalizing e with
  | ind n ih =>
    apply step
    intro c hc
    have hlt := ExprKind.sizeOf_lt_of_mem_operands hc
    have hkind : sizeOf e.kind < sizeOf e := by
      rcases e with ⟨kind, span, ty, promoteTo⟩
      simp only [Annotated.mk.sizeOf_spec]
      omega
    exact ih (sizeOf c) (by omega) c rfl

mutual

/-- The subexpressions below the root, in order. -/
def ExprKind.inner : ExprKind → List Expr
  | .vector elements => nodesOf elements
  | .binary left _ right => Annotated.nodes left ++ Annotated.nodes right
  | .negate operand | .not operand | .len operand => Annotated.nodes operand
  | .index target i => Annotated.nodes target ++ Annotated.nodes i
  | .call _ args _ => nodesOf args
  | .int _ | .float _ | .text _ | .bool _ | .name .. => []

/-- An expression with all its subexpressions, the root first. -/
def Annotated.nodes : Expr → List Expr
  | ⟨kind, span, ty, promoteTo⟩ => ⟨kind, span, ty, promoteTo⟩ :: kind.inner

/-- Expressions with all their subexpressions. -/
def nodesOf : List Expr → List Expr
  | [] => []
  | e :: es => Annotated.nodes e ++ nodesOf es

end

theorem nodesOf_eq_flatMap {es : List Expr} : nodesOf es = es.flatMap Annotated.nodes := by
  induction es with
  | nil => rfl
  | cons e es ih => rw [nodesOf, ih, flatMap_cons]

theorem ExprKind.inner_eq {k : ExprKind} : k.inner = k.operands.flatMap Annotated.nodes := by
  cases k <;> simp [inner, operands, nodesOf_eq_flatMap]

/-- An expression has its root and the nodes of its operands. -/
theorem Annotated.nodes_eq (e : Expr) : e.nodes = e :: e.kind.operands.flatMap Annotated.nodes := by
  rcases e with ⟨kind, span, ty, promoteTo⟩
  rw [nodes, ExprKind.inner_eq]

/-- A property of all nodes is one of the root and of all nodes of the operands. -/
theorem Annotated.forall_nodes {P : Expr → Prop} {e : Expr} :
    (∀ n ∈ e.nodes, P n) ↔ P e ∧ ∀ c ∈ e.kind.operands, ∀ n ∈ c.nodes, P n := by
  rw [nodes_eq]
  simp only [mem_cons, mem_flatMap, forall_eq_or_imp, forall_exists_index, and_imp]
  grind

/-! ## Statements -/

/-- The expressions of a statement outside its blocks, in order. -/
@[simp] def StmtKind.exprs : StmtKind → List Expr
  | .ifElse cond _ _ | .loop cond _ => [cond]
  | .define _ value _ | .assign _ value _ | .ret value => [value]
  | .assignElement _ index value _ => [index, value]
  | .call c => [c]
  | .print value => value.toList
  | .block _ => []

def StmtKind.calls : StmtKind → List Expr
  | .call c => [c]
  | _ => []

/-- The blocks of a statement, in order. -/
@[simp] def StmtKind.blocks : StmtKind → List Block
  | .ifElse _ thenBlock elseBlock => thenBlock :: elseBlock.toList
  | .loop _ body | .block body => [body]
  | .define .. | .assign .. | .assignElement .. | .call _ | .print _ | .ret _ => []

/-- A statement of a block of a statement is smaller. -/
theorem StmtKind.sizeOf_lt_of_mem_blocks {k : StmtKind} {b : Block} {s : Stmt}
    (hb : b ∈ k.blocks) (hs : s ∈ b.statements) : sizeOf s < sizeOf k := by
  have hlt : sizeOf s < sizeOf b := by
    rcases b with ⟨statements, span, scope⟩
    have := sizeOf_lt_of_mem (show s ∈ statements from hs)
    simp only [BlockOf.mk.sizeOf_spec]
    omega
  cases k with
  | ifElse cond thenBlock elseBlock =>
    cases elseBlock <;> simp [blocks] at hb
    · grind
    grind
  | loop cond body =>
    obtain rfl : b = body := by simpa [blocks] using hb
    simp only [loop.sizeOf_spec]
    omega
  | block body =>
    obtain rfl : b = body := by simpa [blocks] using hb
    simp only [block.sizeOf_spec]
    omega
  | define | assign | assignElement | call | print | ret => simp [blocks] at hb

/-- **Induction over statements.**  What holds of a statement whenever it holds of the statements of
its blocks holds of every statement. -/
theorem Stmt.induction {P : Stmt → Prop}
    (step : ∀ s : Stmt, (∀ b ∈ s.kind.blocks, ∀ c ∈ b.statements, P c) → P s) (s : Stmt) :
    P s := by
  induction hn : sizeOf s using Nat.strongRecOn generalizing s with
  | ind n ih =>
    apply step
    intro b hb c hc
    have hlt := sizeOf_lt_of_mem_blocks hb hc
    have hkind : sizeOf s.kind < sizeOf s := by
      rcases s with ⟨kind, span⟩
      simp only [Located.mk.sizeOf_spec]
      omega
    exact ih (sizeOf c) (by omega) c rfl

mutual

/-- The statements in the blocks of a statement, in order. -/
def StmtKind.inner : StmtKind → List Stmt
  | .ifElse _ thenBlock none => BlockOf.nodes thenBlock
  | .ifElse _ thenBlock (some elseBlock) => BlockOf.nodes thenBlock ++ BlockOf.nodes elseBlock
  | .loop _ body | .block body => BlockOf.nodes body
  | .define .. | .assign .. | .assignElement .. | .call _ | .print _ | .ret _ => []

/-- A statement with all statements in its blocks, in order. -/
def Located.nodes : Stmt → List Stmt
  | ⟨kind, span⟩ => ⟨kind, span⟩ :: kind.inner

/-- The statements of a block with all statements in their blocks, in order. -/
def BlockOf.nodes : Block → List Stmt
  | ⟨statements, _, _⟩ => stmtNodes statements

/-- Statements with all statements in their blocks, in order. -/
def stmtNodes : List Stmt → List Stmt
  | [] => []
  | s :: ss => Located.nodes s ++ stmtNodes ss

end

theorem stmtNodes_eq_flatMap {ss : List Stmt} : stmtNodes ss = ss.flatMap Located.nodes := by
  induction ss with
  | nil => rfl
  | cons s ss ih => rw [stmtNodes, ih, flatMap_cons]

theorem BlockOf.nodes_eq (b : Block) : b.nodes = b.statements.flatMap Located.nodes := by
  rcases b with ⟨statements, span, scope⟩
  rw [nodes, stmtNodes_eq_flatMap]

/-- A statement and the statements of its blocks. -/
theorem Located.nodes_eq (s : Stmt) : s.nodes = s :: s.kind.blocks.flatMap BlockOf.nodes := by
  rcases s with ⟨kind, span⟩
  cases kind with
  | ifElse cond thenBlock elseBlock =>
    cases elseBlock <;> simp [nodes, StmtKind.inner, blocks]
  | loop | block | define | assign | assignElement | call | print | ret =>
    simp [nodes, StmtKind.inner, blocks]

/-- A property of all statements of a tree is one of the root and of all statements in its
blocks. -/
theorem Located.forall_nodes {P : Stmt → Prop} {s : Stmt} : (∀ n ∈ s.nodes, P n) ↔
      P s ∧ ∀ b ∈ s.kind.blocks, ∀ c ∈ b.statements, ∀ n ∈ c.nodes, P n := by
  rw [nodes_eq]
  simp only [BlockOf.nodes_eq, mem_cons, mem_flatMap, forall_eq_or_imp]
  grind

/-! ## Scripts -/

/-- All statements of an item, in order. -/
def Item.nodes : Item → List Stmt
  | .function f => f.body.nodes
  | .statement s => s.nodes

/-- All statements of a script, in order. -/
def Script.nodes (script : Script) : List Stmt :=
  script.items.flatMap Item.nodes

/-- All expressions of a statement outside its blocks, with their subexpressions. -/
def Located.exprNodes (s : Stmt) : List Expr :=
  s.kind.exprs.flatMap Annotated.nodes

end WichToC

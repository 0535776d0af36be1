import WichToC.Proofs.Reading

/-!
# Trees without annotations

What is left of a tree when scopes, symbols, types and widenings are taken out of it.  A script that
was read has none of these: it is its own plain tree (`Script.Derived.plain_eq`).
-/

namespace WichToC

open List

variable {ts : List Token} {parts : List (Stmt × List Token)}

mutual

/-- The shape of an expression without annotations. -/
def ExprKind.plain : ExprKind → ExprKind
  | .vector elements => .vector (plainExprs elements)
  | .binary left op right => .binary (Annotated.plain left) op (Annotated.plain right)
  | .negate operand => .negate (Annotated.plain operand)
  | .not operand => .not (Annotated.plain operand)
  | .index target i => .index (Annotated.plain target) (Annotated.plain i)
  | .call name args _ => .call name (plainExprs args) none
  | .len operand => .len (Annotated.plain operand)
  | .name name _ => .name name none
  | .int value => .int value
  | .float value => .float value
  | .text value => .text value
  | .bool value => .bool value

def Annotated.plain : Expr → Expr
  | ⟨kind, span, _, _⟩ => ⟨kind.plain, span, none, none⟩

/-- Expressions without annotations. -/
def plainExprs : List Expr → List Expr
  | [] => []
  | e :: es => Annotated.plain e :: plainExprs es

end

mutual

/-- The shape of a statement without annotations. -/
def StmtKind.plain : StmtKind → StmtKind
  | .ifElse cond thenBlock none => .ifElse cond.plain (BlockOf.plain thenBlock) none
  | .ifElse cond thenBlock (some elseBlock) =>
    .ifElse cond.plain (BlockOf.plain thenBlock) (some (BlockOf.plain elseBlock))
  | .loop cond body => .loop cond.plain (BlockOf.plain body)
  | .define name value _ => .define name value.plain none
  | .assign name value _ => .assign name value.plain none
  | .assignElement name i value _ => .assignElement name i.plain value.plain none
  | .call c => .call c.plain
  | .print value => .print (value.map Annotated.plain)
  | .ret value => .ret value.plain
  | .block b => .block (BlockOf.plain b)

/-- A statement without annotations. -/
def Located.plain : Stmt → Stmt
  | ⟨kind, span⟩ => ⟨kind.plain, span⟩

/-- A block without annotations. -/
def BlockOf.plain : Block → Block
  | ⟨statements, span, _⟩ => ⟨plainStmts statements, span, none⟩

/-- Statements without annotations. -/
def plainStmts : List Stmt → List Stmt
  | [] => []
  | s :: ss => Located.plain s :: plainStmts ss

end

/-- A function without annotations; the types in its header are part of what is written. -/
def Function.plain (f : Function) : Function :=
  { f with body := f.body.plain, scope := none, symbol := none }

/-- A function or a statement without annotations. -/
def Item.plain : Item → Item
  | .function f => .function f.plain
  | .statement s => .statement s.plain

/-- A script without annotations. -/
def Script.plain (script : Script) : Script :=
  { items := script.items.map Item.plain, scope := none }

theorem plainExprs_eq_map {es : List Expr} : plainExprs es = es.map Annotated.plain := by
  induction es with
  | nil => rfl
  | cons e es ih => rw [plainExprs, ih, map_cons]

theorem plainStmts_eq_map {ss : List Stmt} : plainStmts ss = ss.map Located.plain := by
  induction ss with
  | nil => rfl
  | cons s ss ih => rw [plainStmts, ih, map_cons]

theorem BlockOf.plain_eq (b : Block) :
    b.plain = ⟨b.statements.map Located.plain, b.span, none⟩ := by
  rcases b with ⟨statements, span, scope⟩
  rw [plain, plainStmts_eq_map]

/-- Nothing depends on the annotations of the root. -/
theorem Annotated.plain_eq (e : Expr) : e.plain = ⟨e.kind.plain, e.span, none, none⟩ := by
  rcases e with ⟨kind, span, ty, promoteTo⟩
  rw [plain]

/-! ## What is read is plain -/

theorem Annotated.Spelled.plain_eq {level : Nat} {e : Expr}
    (h : e.Spelled level ts) : e.plain = e := by
  have hparts : ∀ {parts : List (Expr × List Token)}, (∀ p ∈ parts, p.1.plain = p.1) →
      plainExprs (parts.map Prod.fst) = parts.map Prod.fst := by
    intro parts h
    rw [plainExprs_eq_map, map_map]
    exact map_congr_left h
  induction h with
  | parens _ ih => exact ih
  | atom token =>
    unfold ExprKind.token? at token
    split at token <;> cases token <;> rfl
  | call _ ih | vector _ ih => rw [Annotated.plain, ExprKind.plain, hparts ih]
  | len _ ih | negate _ _ ih | not _ _ ih => rw [Annotated.plain, ExprKind.plain, ih]
  | index _ _ ih ih' | binary _ _ _ ih ih' => rw [Annotated.plain, ExprKind.plain, ih, ih']

theorem blockOf_plain_eq {span : Span}
    (h : ∀ p ∈ parts, p.1.plain = p.1) : (blockOf parts span).plain = blockOf parts span := by
  have hsame : (parts.map Prod.fst).map Located.plain = parts.map Prod.fst := by
    rw [map_map]
    exact map_congr_left h
  rw [BlockOf.plain_eq, blockOf, hsame]

theorem IsBody.plain_eq {b : Block}
    (h : IsBody parts b ts) (hparts : ∀ p ∈ parts, p.1.plain = p.1) : b.plain = b := by
  cases h with
  | braces => exact blockOf_plain_eq hparts
  | single => rw [BlockOf.plain_eq, map_singleton, hparts _ (.head _)]

theorem Located.Derived.plain_eq {s : Stmt} (h : s.Derived BeginsWithCall ts) : s.plain = s := by
  induction h with
  | ifThen condition thenBody _ ih =>
    rw [Located.plain, StmtKind.plain, condition.plain_eq, thenBody.plain_eq ih]
  | ifElse condition thenBody _ elseBody _ ih ih' =>
    rw [Located.plain, StmtKind.plain, condition.plain_eq, thenBody.plain_eq ih,
      elseBody.plain_eq ih']
  | loop condition loopBody _ ih =>
    rw [Located.plain, StmtKind.plain, condition.plain_eq, loopBody.plain_eq ih]
  | define value | assign value | ret value => rw [Located.plain, StmtKind.plain, value.plain_eq]
  | print value => rw [Located.plain, StmtKind.plain, Option.map_some, value.plain_eq]
  | assignElement index value =>
    rw [Located.plain, StmtKind.plain, index.plain_eq, value.plain_eq]
  | call rule => rw [Located.plain, StmtKind.plain, rule.spelled.plain_eq]
  | printNothing => rfl
  | block _ ih => rw [Located.plain, StmtKind.plain, blockOf_plain_eq ih]

theorem Item.Derived.plain_eq {item : Item} (h : item.Derived BeginsWithCall ts) :
    item.plain = item := by
  cases h with
  | statement derived => rw [Item.plain, derived.plain_eq]
  | function _ _ statements =>
    rw [Item.plain, Function.plain, blockOf_plain_eq fun p hp => (statements p hp).plain_eq]

theorem Script.Derived.plain_eq {script : Script}
    (h : script.Derived BeginsWithCall ts) : script.plain = script := by
  obtain ⟨each⟩ := h
  rename_i parts
  have hsame : (parts.map Prod.fst).map Item.plain = parts.map Prod.fst := by
    rw [map_map]
    exact map_congr_left fun p hp => (each p hp).plain_eq
  rw [Script.plain, hsame]

end WichToC

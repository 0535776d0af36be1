import WichToC.Proofs.Building

/-!
# What the nodes of expressions are built for

`BuiltFor` relates the node of an expression to the expression, part by part.  A node stands for its
expression in the type of the expression itself, or in the type that the consumer of the expression
expects; a number that meets a vector is built in its own type and spread to the length of the
vector, which is a variable or a bound temporary that both places read.

What the relation asks of names is left open: a `Lookup` says which C names are right for a
variable, for a function and for a temporary.  `Build.base_builds` shows that an expression that has
its type by the rules can be built, and that its node is related to it for all lookups to which the
names of the moment belong.  The shape of the node follows from that (`BuiltFor.closedExpr`).
-/

namespace WichToC

open List Node Annotated Option Prod

variable {sight : Sight} {p : String → Prop} {P : Node → Prop} {c left right : Expr}
    {cs : List Node} {op : Operator} {t' : Table} {names₁ : Names}

/-- The C names that are right for a variable, for a function and for a bound temporary. -/
structure Lookup where
  var : SymbolId → String → Prop
  func : SymbolId → String → Prop
  temp : String → Prop

/-- How a node stands for an expression: by its shape alone, in the type of the expression, or in
the type that the consumer of the expression expects. -/
inductive Sight where
  | shape
  | own
  | used

/-- A vector operand that is read twice: a variable, or a temporary to which the operand is
bound. -/
inductive ReadTwice (R : Lookup) : Node → Node → Option (String × Node) → Prop
  | var {name : String} {ty : Ty} {isTemp : Bool} :
      ReadTwice R (.varRef name ty isTemp) (.varRef name ty isTemp) none
  | bound {operand : Node} {name : String} (notVariable : Build.isVarRef operand = false)
      (named : R.temp name) :
      ReadTwice R operand (.temp name .vector) (some (name, operand))

/-- A number spread to the length of a vector. -/
def Node.spread (scalarTy : Ty) (scalar vector : Node) (lenTemp temp : String) : Node :=
  .widen (if scalarTy = .int then .intToVector else .floatToVector) .vector temp (some scalar)
    (some (.length .vector lenTemp (some vector)))

/-- A node with the value that is bound for it, if any. -/
def Node.withBound (bound : Option (String × Node)) (n : Node) : Node :=
  match bound with
  | some (name, value) => .bind name .vector (some value) (some n)
  | none => n

inductive BuiltFor (R : Lookup) : Sight → Expr → Node → Prop
  | int {n : Nat} {span : Span} {ty promoteTo : Option Ty} :
      BuiltFor R .shape ⟨.int n, span, ty, promoteTo⟩ (.literal .int (toString n) none)
  | float {x : Binary64} {span : Span} {ty promoteTo : Option Ty} :
      BuiltFor R .shape ⟨.float x, span, ty, promoteTo⟩ (.literal .float (Build.floatText x) none)
  | bool {b : Bool} {span : Span} {ty promoteTo : Option Ty} :
      BuiltFor R .shape ⟨.bool b, span, ty, promoteTo⟩
        (.literal .bool (if b then "true" else "false") none)
  | text {value temp : String} {span : Span} {ty promoteTo : Option Ty} :
      BuiltFor R .shape ⟨.text value, span, ty, promoteTo⟩ (.literal .string value (some temp))
  | vector {pairs : List (Expr × Node)} {temp : String} {span : Span} {ty promoteTo : Option Ty}
      (elems : ∀ p ∈ pairs, BuiltFor R .used p.1 p.2) :
      BuiltFor R .shape ⟨.vector (pairs.map fst), span, ty, promoteTo⟩
        (.vectorLit temp (pairs.map snd))
  | name {n c : String} {id : SymbolId} {ty : Ty} {span : Span} {promoteTo : Option Ty}
      (named : R.var id c) :
      BuiltFor R .shape ⟨.name n (some id), span, some ty, promoteTo⟩ (.var c ty)
  | negate {inner : Expr} {n : Node} {temp : String} {ty : Ty} {span : Span} {promoteTo : Option Ty}
      (operand : BuiltFor R .used inner n) :
      BuiltFor R .shape ⟨.negate inner, span, some ty, promoteTo⟩ (.unary .negate ty temp (some n))
  | not {inner : Expr} {n : Node} {temp : String} {ty : Ty} {span : Span} {promoteTo : Option Ty}
      (operand : BuiltFor R .used inner n) :
      BuiltFor R .shape ⟨.not inner, span, some ty, promoteTo⟩ (.unary .not ty temp (some n))
  | index {target i : Expr} {n m : Node} {temp : String} {ty targetTy : Ty} {span : Span}
      {promoteTo : Option Ty} (targetTyped : target.ty = some targetTy)
      (operand : BuiltFor R .used target n) (place : BuiltFor R .used i m) :
      BuiltFor R .shape ⟨.index target i, span, some ty, promoteTo⟩
        (.index (if targetTy = .string then .string else .vector) ty temp (some n) (some m))
  | len {inner : Expr} {n : Node} {temp : String} {innerTy : Ty} {span : Span}
      {ty promoteTo : Option Ty} (innerTyped : inner.ty = some innerTy)
      (operand : BuiltFor R .used inner n) :
      BuiltFor R .shape ⟨.len inner, span, ty, promoteTo⟩ (.length innerTy temp (some n))
  | call {pairs : List (Expr × Node)} {f temp : String} {id : SymbolId} {ty : Ty} {span : Span}
      {promoteTo : Option Ty} (named : R.func id f)
      (args : ∀ p ∈ pairs, BuiltFor R .used p.1 p.2) :
      BuiltFor R .shape ⟨.call f (pairs.map fst) (some id), span, some ty, promoteTo⟩
        (.call f ty temp (pairs.map snd))
  /-- Operands of one type. -/
  | binary {left right : Expr} {l r : Node} {op : Operator} {temp : String} {ty operandTy : Ty}
      {span : Span} {promoteTo : Option Ty} (leftTyped : left.effectiveTy = some operandTy)
      (rightTyped : right.effectiveTy = some operandTy) (leftOperand : BuiltFor R .used left l)
      (rightOperand : BuiltFor R .used right r) :
      BuiltFor R .shape ⟨.binary left op right, span, some ty, promoteTo⟩
        (.binary (Build.operandKind operandTy) op.symbol ty operandTy temp (some l) (some r))
  | spreadRight {left right : Expr} {v w s : Node} {bound : Option (String × Node)} {op : Operator}
      {temp widenTemp lenTemp : String} {scalarTy : Ty} {span : Span} {promoteTo : Option Ty}
      (vectorTyped : left.effectiveTy = some .vector) (scalarTyped : right.ty = some scalarTy)
      (narrow : scalarTy ≠ .vector) (vector : BuiltFor R .used left v)
      (scalar : BuiltFor R .own right s) (twice : ReadTwice R v w bound) :
      BuiltFor R .shape ⟨.binary left op right, span, some .vector, promoteTo⟩
        (.withBound bound (.binary .vector op.symbol .vector .vector temp (some w)
          (some (.spread scalarTy s w lenTemp widenTemp))))
  | spreadLeft {left right : Expr} {v w s : Node} {bound : Option (String × Node)} {op : Operator}
      {temp widenTemp lenTemp : String} {scalarTy : Ty} {span : Span} {promoteTo : Option Ty}
      (vectorTyped : right.effectiveTy = some .vector) (scalarTyped : left.ty = some scalarTy)
      (narrow : scalarTy ≠ .vector) (vector : BuiltFor R .used right v)
      (scalar : BuiltFor R .own left s) (twice : ReadTwice R v w bound) :
      BuiltFor R .shape ⟨.binary left op right, span, some .vector, promoteTo⟩
        (.withBound bound (.binary .vector op.symbol .vector .vector temp
          (some (.spread scalarTy s w lenTemp widenTemp)) (some w)))
  | own {e : Expr} {n : Node} (typed : n.ty? = e.ty) (shape : BuiltFor R .shape e n) :
      BuiltFor R .own e n
  | same {e : Expr} {n : Node} (typed : n.ty? = e.effectiveTy) (plain : e.promoteTo = none)
      (shape : BuiltFor R .shape e n) : BuiltFor R .used e n
  /-- A whole number that is used as a double is written as one. -/
  | double {n : Nat} {span : Span} {ty : Option Ty} :
      BuiltFor R .used ⟨.int n, span, ty, some .float⟩
        (.literal .float (Build.floatText (.ofNat n)) none)
  | widened {e : Expr} {n : Node} {temp : String} (integer : e.ty = some .int)
      (promoted : e.promoteTo = some .float) (operand : BuiltFor R .own e n) :
      BuiltFor R .used e (.widen .intToFloat .float temp (some n) none)

namespace BuiltFor

variable {R : Lookup} {e : Expr} {n : Node}

/-- A node that is used has the type that the consumer of the expression expects. -/
theorem ty?_used (h : BuiltFor R .used e n) : n.ty? = e.effectiveTy := by
  cases h with
  | same typed => exact typed
  | double => rfl
  | widened _ promoted => rw [effectiveTy, promoted]; rfl

theorem of_own (h : BuiltFor R .own e n) : n.ty? = e.ty ∧ BuiltFor R .shape e n := by
  cases h with
  | own typed shape => exact ⟨typed, shape⟩

/-- By its shape, the node of an expression that has its type by its rule has that type. -/
theorem ty?_shape {t : Table} (h : BuiltFor R .shape e n) (hrule : e.Rule t) : n.ty? = e.ty := by
  obtain ⟨ty, hty, -, hgives⟩ := hrule.gives
  cases h with
  | int | float | bool | text => cases hgives; exact hty.symm
  | vector => obtain ⟨rfl, -⟩ := hgives; exact hty.symm
  | len => obtain ⟨-, rfl, -⟩ := hgives; exact hty.symm
  | spreadRight _ _ _ _ _ twice | spreadLeft _ _ _ _ _ twice => cases twice <;> rfl
  | name | negate | not | index | call | binary => rfl

/-- A name apart, no expression is a variable. -/
theorem kind_ne_varRef (h : BuiltFor R sight e n) (hname : e.kind.isName = false) :
    n.kind ≠ .varRef := by
  induction h with
  | name => cases hname
  | spreadRight _ _ _ _ _ twice | spreadLeft _ _ _ _ _ twice => cases twice <;> nofun
  | own _ _ ih | same _ _ _ ih => exact ih hname
  | @binary _ _ _ _ _ _ _ operandTy => cases operandTy <;> nofun
  | @index _ _ _ _ _ _ targetTy => cases targetTy <;> nofun
  | _ => nofun

end BuiltFor

/-! ## Bound names -/

section BoundNames

variable {R : Lookup} {w n : Node} {e : Expr}

/-- The expressions of a statement. -/
def Node.exprs (n : Node) : List Node := n.children.filter fun c => c.kind ≠ .block

def Node.boundNames (n : Node) : List String :=
  n.collect fun
    | bind name .. => [name]
    | _ => []

/-- A block declares the names that its own statements bind. -/
def Node.DeclaresBound : Node → Prop
  | block b => ∀ s ∈ b.stats, ∀ e ∈ s.exprs, ∀ x ∈ e.boundNames, ∃ ty, (x, .tempDecl x ty) ∈ b.temps
  | _ => True

/-- A node of an expression that binds none but the given names. -/
def Node.BindsIn (p : String → Prop) : Node → Prop
  | bind name .. => p name
  | block _ => False
  | _ => True

theorem Node.boundNames_eq : n.boundNames = n.children.flatMap boundNames ++ match n with
    | bind name .. => [name]
    | _ => [] :=
  n.collect_eq _

theorem Node.BindsIn.mem (h : n.All (BindsIn p)) : ∀ x ∈ n.boundNames, p x := by
  induction h with
  | @intro n here _ ih =>
    intro x hx
    rw [boundNames_eq, mem_append] at hx
    rcases hx with hx | hx
    · grind
    · cases n <;> simp only [not_mem_nil, mem_singleton] at hx
      exact hx ▸ here

theorem Node.BindsIn.kind (h : n.BindsIn p) : n.kind ≠ .block := by
  cases n with
  | block b => cases h
  | literal kind | binary kind | unary kind | widen kind | index kind | count kind =>
    cases kind <;> nofun
  | _ => nofun

/-- A node over one operand. -/
theorem Node.All.over {c : Node} (here : P n) (hn : n.children = [c]) (hc : c.All P) : n.All P :=
  .of_children here hn (forall_mem_singleton.mpr hc)

/-- A node over two operands. -/
theorem Node.All.over_two {c d : Node} (here : P n) (hn : n.children = [c, d])
    (hc : c.All P) (hd : d.All P) : n.All P :=
  .of_children here hn (forall_mem_pair.mpr ⟨hc, hd⟩)

theorem ReadTwice.bindsIn {v : Node} {bound : Option (String × Node)}
    (h : ReadTwice R v w bound) (hv : v.All (BindsIn R.temp)) :
    w.All (BindsIn R.temp) ∧ ∀ n : Node, n.All (BindsIn R.temp) →
      (withBound bound n).All (BindsIn R.temp) := by
  cases h with
  | var => exact ⟨hv, fun n hn => hn⟩
  | bound _ named =>
    exact ⟨.of_children trivial rfl nofun, fun n hn => .over_two named rfl hv hn⟩

/-- An expression binds temporaries of its block. -/
theorem BuiltFor.bindsIn (h : BuiltFor R sight e n) : n.All (BindsIn R.temp) := by
  have hspread : ∀ {scalarTy : Ty} {s w : Node} {lenTemp temp : String},
      s.All (BindsIn R.temp) → w.All (BindsIn R.temp) →
        (spread scalarTy s w lenTemp temp).All (BindsIn R.temp) := fun hs hw =>
    .over_two trivial rfl hs (.over trivial rfl hw)
  induction h with
  | int | float | bool | text | name | double => exact .of_children trivial rfl nofun
  | vector _ ih | call _ _ ih =>
    exact .of_children trivial (append_nil _) (forall_mem_map.mpr ih)
  | negate _ ih | not _ ih | len _ _ ih | widened _ _ _ ih =>
    exact .over trivial rfl ih
  | index _ _ _ iht ihi => exact .over_two trivial rfl iht ihi
  | binary _ _ _ _ ihl ihr => exact .over_two trivial rfl ihl ihr
  | spreadRight _ _ _ _ _ twice ihv ihs =>
    obtain ⟨hw, hbound⟩ := twice.bindsIn ihv
    exact hbound _ (.over_two trivial rfl hw (hspread ihs hw))
  | spreadLeft _ _ _ _ _ twice ihv ihs =>
    obtain ⟨hw, hbound⟩ := twice.bindsIn ihv
    exact hbound _ (.over_two trivial rfl (hspread ihs hw) hw)
  | own _ _ ih | same _ _ _ ih => exact ih

end BoundNames

/-! ## The shape of nodes -/

/-- An expression all of whose temporaries are bound inside it. -/
structure Node.ClosedExpr (t : Table) (n : Node) : Prop where
  expr : n.All (IsExprNode t)
  closed : n.freeTemps = []

section ClosedExpr

variable {R : Lookup} {t : Table} {e : Expr} {n v w s : Node} {bound : Option (String × Node)}
    {temp lenTemp : String} {scalarTy : Ty}

theorem Node.ClosedExpr.over (here : n.IsExprNode t) (hbind : n.kind ≠ .bind)
    (hvar : n.kind ≠ .varRef) (hn : n.children = cs) (hcs : ∀ c ∈ cs, c.ClosedExpr t) :
    n.ClosedExpr t where
  expr := .of_children here hn fun c hc => (hcs c hc).expr
  closed := by
    rw [Build.freeTemps_eq hbind hvar, hn]
    exact flatMap_eq_nil_iff.mpr fun c hc => (hcs c hc).closed

/-- A vector that is read twice closes an operation that reads no other temporary than it does. -/
theorem ReadTwice.closedExpr (h : ReadTwice R v w bound) (hv : v.ClosedExpr t)
    (hty : v.ty? = some .vector) (hn : n.All (IsExprNode t)) (hnty : n.ty? = some .vector)
    (hfree : ∀ x, x ∈ n.freeTemps ↔ x ∈ w.freeTemps) : (withBound bound n).ClosedExpr t := by
  cases h with
  | var =>
    refine ⟨hn, eq_nil_iff_forall_not_mem.mpr fun x hx => ?_⟩
    exact not_mem_nil (hv.closed ▸ (hfree x).mp hx)
  | @bound _ name =>
    have hmem : ∀ x, x ∈ n.freeTemps ↔ x = name := fun x => (hfree x).trans mem_singleton
    refine ⟨.over_two ⟨rfl, ⟨v, rfl, hty⟩, n, rfl, hnty, (hmem name).mpr rfl⟩ rfl hv.expr hn, ?_⟩
    show v.freeTemps ++ n.freeTemps.filter (· ≠ name) = []
    rw [hv.closed, nil_append, filter_eq_nil_iff]
    intro x hx
    simp [(hmem x).mp hx]

theorem ReadTwice.expr (h : ReadTwice R v w bound) (hv : v.ClosedExpr t) :
    w.All (IsExprNode t) := by
  cases h with
  | var => exact hv.expr
  | bound => exact .intro nofun nofun

theorem freeTemps_spread :
    (spread scalarTy s w lenTemp temp).freeTemps = s.freeTemps ++ w.freeTemps := by
  rw [Build.freeTemps_eq (by unfold spread; split <;> nofun) (by unfold spread; split <;> nofun)]
  have hlen : (length .vector lenTemp (some w)).freeTemps = w.freeTemps := by
    rw [Build.freeTemps_eq (n := .length ..) nofun nofun]
    simp [children]
  simp [spread, children, hlen]

theorem expr_spread (hs : s.All (IsExprNode t)) (hw : w.All (IsExprNode t)) :
    (spread scalarTy s w lenTemp temp).All (IsExprNode t) :=
  .over_two ⟨rfl, fun _ => by split <;> nofun⟩ rfl hs (.over rfl rfl hw)

/-- What the rule of an operation says of operands that have one type. -/
theorem operandKind_of_gives {ty operandTy : Ty}
    (h : (ExprKind.binary left op right).Gives t ty) (hl : left.effectiveTy = some operandTy) :
    (ty.isHeap → Build.operandKind operandTy = .string ∨ Build.operandKind operandTy = .vector) ∧
      (op.symbol = "&&" ∨ op.symbol = "||" →
        Build.operandKind operandTy = .int ∧ ty = .boolean ∧ operandTy = .boolean) := by
  obtain ⟨l, r, common, hlty, -, htyping, hwide⟩ := h
  have hplain : common = none → l = operandTy := by
    rintro rfl
    exact some.inj ((hlty.symm.trans (effectiveTy_of_promoteTo hwide.1).symm).trans hl)
  refine ⟨fun hheap => ?_, fun hop => ?_⟩
  · rcases operands_of_heap htyping hheap with ⟨rfl, rfl⟩ | ⟨rfl, -⟩
    · exact .inl (hplain rfl ▸ rfl)
    · exact .inr (some.inj (hwide.1.effectiveTy.symm.trans hl) ▸ rfl)
  · have hfamily : op.family = .logical := by
      cases op <;> first | rfl | exact absurd hop (by decide)
    obtain ⟨hty, rfl, -, rfl⟩ := operands_of_logical htyping hfamily
    obtain rfl := hplain rfl
    exact ⟨rfl, hty, rfl⟩

/-- A vector and a number that is spread over it are not connected as truth values. -/
theorem isExprNode_spread {l r : Node} (h : (ExprKind.binary left op right).Gives t .vector) :
    (binary .vector op.symbol .vector .vector temp (some l) (some r)).IsExprNode t := by
  refine ⟨rfl, rfl, fun _ => .inr rfl, fun hop => ?_⟩
  obtain ⟨l, r, common, -, -, htyping, -⟩ := h
  have hfamily : op.family = .logical := by
    cases op <;> first | rfl | exact absurd hop (by decide)
  cases (operands_of_logical htyping hfamily).1

/-- **The shape of expressions.**  The node of an expression that has its type by the rules is made
of the nodes of expressions, and it reads no temporary that it does not bind. -/
theorem BuiltFor.closedExpr (hvar : ∀ id c, R.var id c → IsVarName t c)
    (h : BuiltFor R sight e n) (hruled : e.Ruled t') : n.ClosedExpr t := by
  induction h with
  | int | float | bool | text | double =>
    exact .over (by simp [IsExprNode]) nofun nofun rfl nofun
  | vector _ ih | call _ _ ih =>
    have hoperands := (ruled_iff.mp hruled).2
    exact .over trivial nofun nofun (append_nil _)
      (forall_mem_map.mpr fun p hp => ih p hp (hoperands p.1 (mem_map_of_mem hp)))
  | name named => exact ⟨.intro (fun _ => hvar _ _ named) nofun, rfl⟩
  | negate _ ih =>
    have hoperands := (ruled_iff.mp hruled).2
    exact .over ⟨rfl, fun _ => rfl⟩ nofun nofun rfl
      (forall_mem_singleton.mpr (ih (hoperands _ (by simp))))
  | not _ ih =>
    obtain ⟨hrule, hoperands⟩ := ruled_iff.mp hruled
    obtain ⟨_, hty, -, -, -, rfl⟩ := hrule.gives
    cases hty
    exact .over ⟨rfl, nofun⟩ nofun nofun rfl (forall_mem_singleton.mpr (ih (hoperands _ (by simp))))
  | @index target i _ _ _ ty targetTy _ _ targetTyped _ _ iht ihi =>
    obtain ⟨hrule, hoperands⟩ := ruled_iff.mp hruled
    obtain ⟨_, hty, -, -, -, -, htys⟩ := hrule.gives
    cases hty
    have hheap : ty.isHeap →
        (if targetTy = .string then IndexKind.string else .vector) = .string := by
      rcases htys with ⟨-, rfl⟩ | ⟨hstring, -⟩
      · rintro ⟨⟩
      grind
    exact .over ⟨rfl, rfl, hheap⟩ (by split <;> nofun) (by split <;> nofun) rfl
      (forall_mem_pair.mpr ⟨iht (hoperands _ (by simp)),
        (ihi (hoperands _ (by simp)))⟩)
  | len _ _ ih =>
    have hoperands := (ruled_iff.mp hruled).2
    exact .over rfl nofun nofun rfl (forall_mem_singleton.mpr (ih (hoperands _ (by simp))))
  | binary leftTyped _ _ _ ihl ihr =>
    obtain ⟨hrule, hoperands⟩ := ruled_iff.mp hruled
    obtain ⟨_, hty, -, hgives⟩ := hrule.gives
    cases hty
    have hkind := operandKind_of_gives hgives leftTyped
    exact .over ⟨rfl, rfl, hkind.1, hkind.2⟩ (by unfold Build.operandKind; split <;> nofun)
      (by unfold Build.operandKind; split <;> nofun) rfl
      (forall_mem_pair.mpr ⟨ihl (hoperands _ (by simp)),
        (ihr (hoperands _ (by simp)))⟩)
  | spreadRight vectorTyped _ _ vector _ twice ihv ihs =>
    obtain ⟨hrule, hoperands⟩ := ruled_iff.mp hruled
    obtain ⟨_, hty, -, hgives⟩ := hrule.gives
    cases hty
    have hv := ihv (hoperands _ (by simp))
    have hs := ihs (hoperands _ (by simp))
    have hw := twice.expr hv
    refine twice.closedExpr hv (vector.ty?_used.trans vectorTyped)
      (.over_two (isExprNode_spread hgives) rfl hw (expr_spread hs.expr hw)) rfl fun x => ?_
    rw [Build.freeTemps_eq (n := .binary .vector ..) (by rintro ⟨⟩) (by rintro ⟨⟩)]
    simp [children, freeTemps_spread, hs.closed]
  | spreadLeft vectorTyped _ _ vector _ twice ihv ihs =>
    obtain ⟨hrule, hoperands⟩ := ruled_iff.mp hruled
    obtain ⟨_, hty, -, hgives⟩ := hrule.gives
    cases hty
    have hv := ihv (hoperands _ (by simp))
    have hs := ihs (hoperands _ (by simp))
    have hw := twice.expr hv
    refine twice.closedExpr hv (vector.ty?_used.trans vectorTyped)
      (.over_two (isExprNode_spread hgives) rfl (expr_spread hs.expr hw) hw) rfl fun x => ?_
    rw [Build.freeTemps_eq (n := .binary .vector ..) (by rintro ⟨⟩) (by rintro ⟨⟩)]
    simp [children, freeTemps_spread, hs.closed]
  | own _ _ ih | same _ _ _ ih => exact ih hruled
  | widened _ _ _ ih =>
    exact .over ⟨rfl, by rintro ⟨⟩⟩ (by rintro ⟨⟩) (by rintro ⟨⟩) rfl
      (forall_mem_singleton.mpr (ih hruled))

end ClosedExpr

namespace Build

variable {names names' : Names} {e : Expr} {scalarTy ty : Ty} {t : Table} {R : Lookup}
  {renamed : List (SymbolId × String)} {vector scalar : Node}

/-! ## Expressions -/

/-- The C names of the moment are right for all names of an expression. -/
def Covers (R : Lookup) (renamed : List (SymbolId × String)) (e : Expr) : Prop :=
  ∀ c ∈ e.nodes, match c.kind with
    | .name n (some id) => R.var id ((renamed.lookup id).getD n)
    | .call f _ (some id) => R.func id f
    | _ => True

theorem Covers.operands (h : Covers R renamed e) : ∀ c ∈ e.kind.operands, Covers R renamed c :=
  (forall_nodes.mp h).2

/-- The names of the moment are right for an expression: the C names that it refers to, and the
bound temporaries. -/
structure Names.Right (R : Lookup) (names : Names) (e : Expr) : Prop where
  covers : Covers R names.renamed e
  temps : ∀ p ∈ names.scratch, R.temp p.1

theorem Names.Right.before (h : names'.Right R e) (hadds : names.Adds names') : names.Right R e :=
  ⟨hadds.renamed ▸ h.covers, fun p hp => h.temps p (hadds.scratch p hp)⟩

theorem Names.Right.operand (h : names.Right R e) (hc : c ∈ e.kind.operands) : names.Right R c :=
  ⟨h.covers.operands c hc, h.temps⟩

/-- A node that was built for an expression, and the names before and after that. -/
structure NodeFor (sight : Sight) (e : Expr) (names : Names) (n : Node) (names' : Names) :
    Prop where
  adds : names.Adds names'
  built : ∀ R : Lookup, names'.Right R e → BuiltFor R sight e n

/-- An expression that can be built in its own type. -/
structure BaseBuilds (e : Expr) : Prop where
  typed : ∃ ty, e.ty = some ty ∧ ty ≠ .error
  builds : ∀ {ty names}, e.ty = some ty → Builds (base e ty) names (NodeFor .own e names)

theorem exprTy_builds (h : ∃ ty, e.ty = some ty ∧ ty ≠ .error) :
    Builds (exprTy e) names fun ty names' => names = names' ∧ e.ty = some ty := by
  obtain ⟨ty, hty, hne⟩ := h
  refine ⟨ty, names, ?_, rfl, hty⟩
  unfold exprTy
  rw [hty]
  cases ty <;> first | rfl | exact absurd rfl hne

/-- A node over nodes that were built before, with one temporary of its own. -/
theorem withTemp_builds {make : String → Node} (hadds : names.Adds names₁)
    (hbuilt : ∀ temp R, names₁.Right R e → BuiltFor R sight e (make temp)) :
    Builds (newTemp >>= fun temp => Pure.pure (make temp)) names₁ (NodeFor sight e names) :=
  newTemp_builds.bind fun temp _ htemp => .pure
    ⟨hadds.trans htemp.adds, fun R hright => hbuilt temp R (hright.before htemp.adds)⟩

theorem value_builds (hbase : BaseBuilds e) (hwide : e.WidensValue) :
    Builds (value e (base e)) names (NodeFor .used e names) := by
  unfold value
  refine (exprTy_builds hbase.typed).bind ?_
  rintro ty _ ⟨rfl, hty⟩
  split
  · rename_i n hk hpromote
    refine .pure ⟨.refl _, fun R _ => ?_⟩
    rcases e with ⟨kind, span, ety, promoteTo⟩
    obtain rfl : kind = .int n := hk
    obtain rfl : promoteTo = some .float := hpromote
    exact .double
  · refine (hbase.builds hty).bind fun node names₁ hnode => ?_
    rcases hwide with hnone | ⟨hint, hfloat⟩
    · rw [hnone]
      refine .pure ⟨hnode.adds, fun R hright => ?_⟩
      obtain ⟨typed, shape⟩ := (hnode.built R hright).of_own
      exact .same (typed.trans (effectiveTy_of_promoteTo hnone).symm) hnone shape
    · cases hty.symm.trans hint
      rw [hfloat]
      show Builds (newTemp >>= fun temp =>
        Pure.pure (widen .intToFloat .float temp (some node) none)) names₁ _
      exact withTemp_builds hnode.adds
        fun temp R hright => .widened hint hfloat (hnode.built R hright)

/-- An operand that is widened as a value enters the operation as its consumer expects. -/
theorem operand_builds_used (hbase : BaseBuilds e) (hwide : e.WidensValue) :
    Builds (operand e (base e)) names fun r names' =>
      e.effectiveTy = some r.2 ∧ NodeFor .used e names r.1 names' := by
  unfold operand
  refine (exprTy_builds hbase.typed).bind ?_
  rintro ty _ ⟨rfl, hty⟩
  have hnot : ¬(e.promoteTo = some .vector ∧ ty ≠ .vector) := by
    rintro ⟨hvector, -⟩
    rcases hwide with hnone | ⟨-, hfloat⟩
    · cases hnone.symm.trans hvector
    · cases hfloat.symm.trans hvector
  rw [if_neg hnot]
  refine (value_builds hbase hwide).bind fun node names₁ hnode => .pure ⟨?_, hnode⟩
  rw [Annotated.effectiveTy, hty]
  cases e.promoteTo <;> rfl

/-- A number that is to be spread over a vector enters the operation in its own type. -/
theorem operand_builds_own (hbase : BaseBuilds e) (hpromoted : e.promoteTo = some .vector)
    (hne : e.ty ≠ some .vector) :
    Builds (operand e (base e)) names fun r names' =>
      e.ty = some r.2 ∧ NodeFor .own e names r.1 names' := by
  unfold operand
  refine (exprTy_builds hbase.typed).bind ?_
  rintro ty _ ⟨rfl, hty⟩
  rw [if_pos ⟨hpromoted, fun h => hne (h ▸ hty)⟩]
  exact (hbase.builds hty).bind fun node names₁ hnode => .pure ⟨hty, hnode⟩

structure NodesFor (es : List Expr) (names : Names) (nodes : List Node) (names' : Names) :
    Prop where
  adds : names.Adds names'
  built : ∀ R : Lookup, (∀ e ∈ es, names'.Right R e) → ∃ pairs : List (Expr × Node),
    es = pairs.map fst ∧ nodes = pairs.map snd ∧ ∀ p ∈ pairs, BuiltFor R .used p.1 p.2

theorem values_builds {es : List Expr} (hes : ∀ e ∈ es, BaseBuilds e ∧ e.WidensValue) :
    Builds (values es) names (NodesFor es names) := by
  induction es generalizing names with
  | nil => exact .pure ⟨.refl _, fun _ _ => ⟨[], rfl, rfl, nofun⟩⟩
  | cons e es ih =>
    obtain ⟨⟨hbase, hwide⟩, hes⟩ := forall_mem_cons.mp hes
    rw [values]
    refine (value_builds hbase hwide).bind fun first names₁ hfirst => ?_
    refine (ih hes).bind fun others names₂ hothers => .pure ?_
    refine ⟨hfirst.adds.trans hothers.adds, fun R hright => ?_⟩
    obtain ⟨hhead, htail⟩ := forall_mem_cons.mp hright
    obtain ⟨pairs, rfl, rfl, hpairs⟩ := hothers.built R htail
    exact ⟨(e, first) :: pairs, rfl, rfl, forall_mem_cons.mpr
      ⟨hfirst.built R (hhead.before hothers.adds), hpairs⟩⟩

/-! ## Binary operations -/

theorem binary_builds_same (op : Operator) (ty operandTy : Ty) (l r : Node) :
    Builds (binary op ty l operandTy r operandTy) names fun n names' => ∃ temp,
      NewTemp names temp names' ∧
        n = .binary (operandKind operandTy) op.symbol ty operandTy temp (some l) (some r) := by
  unfold binary
  have hty : (if operandTy = .vector ∨ operandTy = .vector then .vector else operandTy) =
      operandTy := by
    grind
  simp only [ne_eq, not_true_eq_false, false_and, if_false, hty]
  show Builds (newTemp >>= fun temp => Pure.pure (Node.binary (operandKind operandTy) op.symbol ty
    operandTy temp (some l) (some r))) names _
  exact newTemp_builds.bind fun temp _ htemp => .pure ⟨temp, htemp, rfl⟩

/-- A vector operand is a variable or is moved to a bound temporary. -/
structure BindsVector (vector : Node) (names : Names) (r : Node × Option (String × Node))
    (names' : Names) : Prop where
  adds : names.Adds names'
  twice : ∀ R : Lookup, (∀ p ∈ names'.scratch, R.temp p.1) → ReadTwice R vector r.1 r.2

theorem bindVector_builds (vector : Node) :
    Builds (bindVector vector) names (BindsVector vector names) := by
  unfold bindVector
  split
  · rename_i hvar
    obtain ⟨name, ty, isTemp, rfl⟩ : ∃ name ty isTemp, vector = .varRef name ty isTemp := by
      cases vector <;> first | exact ⟨_, _, _, rfl⟩ | cases hvar
    exact .pure ⟨.refl _, fun R _ => .var⟩
  · rename_i hvar
    refine newTemp_builds.bind fun name names₁ hname => ?_
    refine ⟨_, _, rfl, ⟨hname.adds.taken, hname.adds.renamed, fun p hp => ?_, fun p hp => ?_⟩,
      fun R htemps => ?_⟩
    · exact mem_append_left _ (hname.adds.scratch p hp)
    · rcases mem_append.mp hp with hp | hp
      · exact .inl (hname.scratch ▸ hp)
      · rw [mem_singleton.mp hp]
        exact .inr hname.fresh
    · refine .bound (Bool.eq_false_iff.mpr hvar) (htemps (name, .vector) ?_)
      exact mem_append_right _ (.head _)

theorem broadcast_builds (scalar : Node) (scalarTy : Ty) (vector : Node) :
    Builds (broadcast scalar scalarTy vector) names fun n names' => names.Adds names' ∧
      ∃ lenTemp temp, n = .spread scalarTy scalar vector lenTemp temp := by
  unfold broadcast
  exact newTemp_builds.bind fun lenTemp _ hlen => newTemp_builds.bind fun temp _ htemp =>
    .pure ⟨hlen.adds.trans htemp.adds, lenTemp, temp, rfl⟩

/-- An operation between a vector and a number: `make` puts the vector and the number that is spread
over it in their places. -/
structure Spreads (make : String → Node → Node → Node) (scalarTy : Ty)
    (vector scalar : Node) (names : Names) (n : Node) (names' : Names) : Prop where
  adds : names.Adds names'
  shape : ∃ w bound temp lenTemp widenTemp,
    (∀ R : Lookup, (∀ p ∈ names'.scratch, R.temp p.1) → ReadTwice R vector w bound) ∧
      n = .withBound bound (make temp w (.spread scalarTy scalar w lenTemp widenTemp))

theorem spread_builds {make : String → Node → Node → Node}
    (rest : Node → Node → Option (String × Node) → Builder Node)
    (hrest : ∀ w s bound, rest w s bound = newTemp >>= fun temp =>
      Pure.pure (withBound bound (make temp w s))) :
    Builds (bindVector vector >>= fun r => broadcast scalar scalarTy r.1 >>= fun s =>
      rest r.1 s r.2) names (Spreads make scalarTy vector scalar names) := by
  refine (bindVector_builds vector).bind fun r names₁ hr => ?_
  refine (broadcast_builds scalar scalarTy r.1).bind fun s names₂ hs => ?_
  obtain ⟨hadds₂, lenTemp, widenTemp, rfl⟩ := hs
  rw [hrest]
  refine newTemp_builds.bind fun temp names₃ htemp => .pure ?_
  refine ⟨(hr.adds.trans hadds₂).trans htemp.adds, ⟨r.1, r.2, temp, lenTemp, widenTemp, ?_, rfl⟩⟩
  exact fun R htemps => hr.twice R fun p hp =>
    htemps p (htemp.adds.scratch p (hadds₂.scratch p hp))

theorem binary_builds_right (hscalar : scalarTy ≠ .vector) (vector scalar : Node) :
    Builds (binary op ty vector .vector scalar scalarTy) names
      (Spreads (fun temp w s => .binary .vector op.symbol ty .vector temp (some w) (some s))
        scalarTy vector scalar names) := by
  unfold binary
  rw [if_pos ⟨Ne.symm hscalar, rfl⟩]
  refine spread_builds (fun w s bound => Pure.pure (w, s, bound) >>= _) fun w s bound => ?_
  cases bound <;> rfl

theorem binary_builds_left (hscalar : scalarTy ≠ .vector) (vector scalar : Node) :
    Builds (binary op ty scalar scalarTy vector .vector) names
      (Spreads (fun temp w s => .binary .vector op.symbol ty .vector temp (some s) (some w))
        scalarTy vector scalar names) := by
  unfold binary
  rw [if_neg fun h => hscalar h.2, if_pos ⟨hscalar, rfl⟩]
  refine spread_builds (fun w s bound => Pure.pure (s, w, bound) >>= _) fun w s bound => ?_
  cases bound <;> simp <;> rfl

/-- The ways in which the operands of an operation meet: in one type, or as a vector and a number
that is spread over it. -/
inductive Meets (left right : Expr) (ty : Ty) : Prop
  | same {operandTy : Ty} (leftTyped : left.effectiveTy = some operandTy)
      (rightTyped : right.effectiveTy = some operandTy) (leftWidens : left.WidensValue)
      (rightWidens : right.WidensValue)
  | right (result : ty = .vector) (vector : left.ty = some .vector) (plain : left.promoteTo = none)
      (scalar : right.ty ≠ some .vector) (promoted : right.promoteTo = some .vector)
  | left (result : ty = .vector) (vector : right.ty = some .vector) (plain : right.promoteTo = none)
      (scalar : left.ty ≠ some .vector) (promoted : left.promoteTo = some .vector)

theorem meets_of_gives (h : (ExprKind.binary left op right).Gives t ty) : Meets left right ty := by
  obtain ⟨l, r, common, hl, hr, htyping, hwide⟩ := h
  cases common with
  | none =>
    obtain rfl := operands_of_none htyping
    exact .same ((effectiveTy_of_promoteTo hwide.1).trans hl)
      ((effectiveTy_of_promoteTo hwide.2).trans hr) (.inl hwide.1) (.inl hwide.2)
  | some wide =>
    rcases widensOperand_of_typing htyping (.inl rfl) hl hwide.1 with hlv | ⟨hlp, hlne⟩
    · rcases widensOperand_of_typing htyping (.inr rfl) hr hwide.2 with hrv | ⟨hrp, hrne⟩
      · exact .same hwide.1.effectiveTy hwide.2.effectiveTy hlv hrv
      · -- The common type is the vector, and the right operand is not: the left one is.
        obtain rfl : wide = .vector := by
          have h := hwide.2.effectiveTy
          rw [Annotated.effectiveTy, hrp] at h
          exact (some.inj h).symm
        obtain rfl : l = .vector :=
          (arithmetic_of_vector (arithmetic_of_typing htyping)).resolve_right
          fun h => hrne (h ▸ hr)
        rcases typing_of_vector htyping (.inl rfl) with rfl | ⟨-, hnone⟩
        · exact .right rfl hl (hwide.1.eq_none hl) hrne hrp
        · cases hnone
    · obtain rfl : wide = .vector := by
        have h := hwide.1.effectiveTy
        rw [Annotated.effectiveTy, hlp] at h
        exact (some.inj h).symm
      obtain rfl : r = .vector := (arithmetic_of_vector (arithmetic_of_typing htyping)).resolve_left
        fun h => hlne (h ▸ hl)
      rcases typing_of_vector htyping (.inr rfl) with rfl | ⟨-, hnone⟩
      · exact .left rfl hr (hwide.2.eq_none hr) hlne hlp
      · cases hnone

/-- The node of an operation is built for its expression, given that its operands are. -/
theorem operation_builds {span : Span}
    {promoteTo : Option Ty} (hmeets : Meets left right ty) (hl : BaseBuilds left)
    (hr : BaseBuilds right) :
    Builds (shape (.binary left op right) ty) names
      (NodeFor .shape ⟨.binary left op right, span, some ty, promoteTo⟩ names) := by
  have hmem : left ∈ (ExprKind.binary left op right).operands ∧
      right ∈ (ExprKind.binary left op right).operands := by simp
  rw [shape]
  cases hmeets with
  | same leftTyped rightTyped leftWidens rightWidens =>
    refine (operand_builds_used hl leftWidens).bind ?_
    rintro ⟨l, lty⟩ names₁ ⟨hlty, hlnode⟩
    refine (operand_builds_used hr rightWidens).bind ?_
    rintro ⟨r, rty⟩ names₂ ⟨hrty, hrnode⟩
    obtain rfl : lty = _ := some.inj (hlty.symm.trans leftTyped)
    obtain rfl : rty = lty := some.inj (hrty.symm.trans rightTyped)
    refine (binary_builds_same op ty rty l r).imp ?_
    rintro _ names₃ ⟨temp, htemp, rfl⟩
    refine ⟨(hlnode.adds.trans hrnode.adds).trans htemp.adds, fun R hright => ?_⟩
    have hright := hright.before htemp.adds
    exact .binary leftTyped rightTyped
      (hlnode.built R ((hright.before hrnode.adds).operand hmem.1))
      (hrnode.built R (hright.operand hmem.2))
  | right result vector plain scalar promoted =>
    subst result
    refine (operand_builds_used hl (.inl plain)).bind ?_
    rintro ⟨l, lty⟩ names₁ ⟨hlty, hlnode⟩
    refine (operand_builds_own hr promoted scalar).bind ?_
    rintro ⟨r, rty⟩ names₂ ⟨hrty, hrnode⟩
    have hleft := (effectiveTy_of_promoteTo plain).trans vector
    obtain rfl : lty = .vector := some.inj (hlty.symm.trans hleft)
    have hnarrow : rty ≠ .vector := fun h => scalar (h ▸ hrty)
    refine (binary_builds_right hnarrow l r).imp fun n names₃ hn => ?_
    obtain ⟨w, bound, temp, lenTemp, widenTemp, htwice, rfl⟩ := hn.shape
    refine ⟨(hlnode.adds.trans hrnode.adds).trans hn.adds, fun R hright => ?_⟩
    have hoperands := hright.before hn.adds
    exact .spreadRight hleft hrty hnarrow
      (hlnode.built R ((hoperands.before hrnode.adds).operand hmem.1))
      (hrnode.built R (hoperands.operand hmem.2)) (htwice R hright.temps)
  | left result vector plain scalar promoted =>
    subst result
    refine (operand_builds_own hl promoted scalar).bind ?_
    rintro ⟨l, lty⟩ names₁ ⟨hlty, hlnode⟩
    refine (operand_builds_used hr (.inl plain)).bind ?_
    rintro ⟨r, rty⟩ names₂ ⟨hrty, hrnode⟩
    have hright := (effectiveTy_of_promoteTo plain).trans vector
    obtain rfl : rty = .vector := some.inj (hrty.symm.trans hright)
    have hnarrow : lty ≠ .vector := fun h => scalar (h ▸ hlty)
    refine (binary_builds_left hnarrow r l).imp fun n names₃ hn => ?_
    obtain ⟨w, bound, temp, lenTemp, widenTemp, htwice, rfl⟩ := hn.shape
    refine ⟨(hlnode.adds.trans hrnode.adds).trans hn.adds, fun R hright' => ?_⟩
    have hoperands := hright'.before hn.adds
    exact .spreadLeft hright hlty hnarrow (hrnode.built R (hoperands.operand hmem.2))
      (hlnode.built R ((hoperands.before hrnode.adds).operand hmem.1)) (htwice R hright'.temps)

/-- The shape of an expression that has its type by its rule is built for it. -/
theorem shape_builds {kind : ExprKind} (hgives : kind.Gives t ty)
    (hbase : ∀ c ∈ kind.operands, BaseBuilds c) (span : Span) (promoteTo : Option Ty) :
    Builds (shape kind ty) names (NodeFor .shape ⟨kind, span, some ty, promoteTo⟩ names) := by
  cases kind with
  | int n => exact .pure ⟨.refl _, fun _ _ => .int⟩
  | float x => exact .pure ⟨.refl _, fun _ _ => .float⟩
  | bool b => exact .pure ⟨.refl _, fun _ _ => .bool⟩
  | text value =>
    exact withTemp_builds (.refl _) fun temp R _ => .text
  | vector elements =>
    obtain ⟨rfl, helems⟩ := hgives
    have hwidens : ∀ e ∈ elements, e.WidensValue := fun e he =>
      (helems e he).1.elim
        (fun hint => widensValue_of_assignable hint rfl (helems e he).2)
        (fun hfloat => widensValue_of_assignable hfloat rfl (helems e he).2)
    rw [shape]
    refine (values_builds fun e he => ⟨hbase e he, hwidens e he⟩).bind fun nodes names₁ hnodes => ?_
    refine withTemp_builds hnodes.adds fun temp R hright => ?_
    obtain ⟨pairs, rfl, rfl, hpairs⟩ := hnodes.built R fun e he => hright.operand he
    exact .vector hpairs
  | name n symbol =>
    obtain ⟨id, v, rfl, -, -, -⟩ := hgives
    rw [shape]
    refine (cName_builds (some id) n).bind ?_
    rintro c _ ⟨rfl, rfl⟩
    exact .pure ⟨.refl _, fun R hright => .name (forall_nodes.mp hright.covers).1⟩
  | binary left op right =>
    exact operation_builds (meets_of_gives hgives) (hbase left (by simp)) (hbase right (by simp))
  | negate inner =>
    rw [shape]
    refine (value_builds (hbase inner (by simp)) (.inl hgives.2.1)).bind fun node names₁ hnode => ?_
    exact withTemp_builds hnode.adds
      fun temp R hright => .negate (hnode.built R (hright.operand (by simp)))
  | not inner =>
    rw [shape]
    refine (value_builds (hbase inner (by simp)) (.inl hgives.2.1)).bind fun node names₁ hnode => ?_
    exact withTemp_builds hnode.adds
      fun temp R hright => .not (hnode.built R (hright.operand (by simp)))
  | index target i =>
    obtain ⟨hwide, -, hiwide, -⟩ := hgives
    have htarget := hbase target (by simp)
    rw [shape]
    refine (exprTy_builds htarget.typed).bind ?_
    rintro targetTy _ ⟨rfl, htargetTy⟩
    refine (value_builds htarget (.inl hwide)).bind fun node names₁ hnode => ?_
    refine (value_builds (hbase i (by simp)) (.inl hiwide)).bind fun place names₂ hplace => ?_
    refine withTemp_builds (hnode.adds.trans hplace.adds) fun temp R hright => ?_
    exact .index htargetTy (hnode.built R ((hright.before hplace.adds).operand (by simp)))
      (hplace.built R (hright.operand (by simp)))
  | len inner =>
    have hinner := hbase inner (by simp)
    rw [shape]
    refine (exprTy_builds hinner.typed).bind ?_
    rintro innerTy _ ⟨rfl, hinnerTy⟩
    refine (value_builds hinner (.inl hgives.1)).bind fun node names₁ hnode => ?_
    exact withTemp_builds hnode.adds
      fun temp R hright => .len hinnerTy (hnode.built R (hright.operand (by simp)))
  | call f args symbol =>
    obtain ⟨id, sig, rfl, -, -, haccepts⟩ := hgives
    have hwidens : ∀ e ∈ args, e.WidensValue := by
      intro e he
      obtain ⟨p, -, v, expected, source, -, -, hsource, hok, hwide⟩ :=
        exists_of_forall₂ haccepts he
      exact widensValue_of_assignable hsource hok hwide
    rw [shape]
    refine (values_builds fun e he => ⟨hbase e he, hwidens e he⟩).bind fun nodes names₁ hnodes => ?_
    refine withTemp_builds hnodes.adds fun temp R hright => ?_
    obtain ⟨pairs, rfl, rfl, hpairs⟩ := hnodes.built R fun e he => hright.operand he
    exact .call (forall_nodes.mp hright.covers).1 hpairs

/-- **Building expressions.**  An expression that has its type by the rules can be built, and what
is built for it is a node in its own type. -/
theorem base_builds : e.Ruled t → BaseBuilds e := by
  induction e using Expr.induction with
  | step e ih =>
    intro hr
    obtain ⟨hrule, hoperands⟩ := ruled_iff.mp hr
    obtain ⟨ty, hty, hne, hgives⟩ := hrule.gives
    refine ⟨⟨ty, hty, hne⟩, fun {ty' names} hty' => ?_⟩
    cases hty.symm.trans hty'
    rcases e with ⟨kind, span, ety, promoteTo⟩
    obtain rfl : ety = some ty := hty
    refine Builds.imp (b := shape kind ty)
      (shape_builds hgives (fun c hc => ih c hc (hoperands c hc))
      span promoteTo) fun n names' hn => ?_
    refine ⟨hn.adds, fun R hright => ?_⟩
    have hshape := hn.built R hright
    exact .own (hshape.ty?_shape hrule) hshape

end Build

end WichToC

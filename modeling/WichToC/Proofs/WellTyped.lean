import WichToC.Proofs.Occurrences
import WichToC.Template.Expression

/-!
# Models are well typed

`Node.WellTyped` is the typing rule of the nodes of a model: the operands of each kind of operation,
the conversions, the parts of vectors and indices, conditions, calls and returns.  A model that is
built for a script whose expressions have their types by the rules of the language obeys it:
`built_well_typed` is the main statement.

The argument is one induction over `BuiltFor`, with the rule of the expression at hand in each case,
and one over `PieceBuiltFor`.
-/

namespace WichToC

open List Node Annotated WichToC.Frame Analysis Build Piece

variable {cs args : List Node} {ty scalarTy : Ty} {params ids : List SymbolId} {s : Stmt} {e : Expr}
    {scope : ScopeId} {id : SymbolId} {sig : Signature}

/-! ## Typing rules of models -/

namespace Node

/-- The child is there and has the type. -/
def HasTy (child : Option Node) (ty : Ty) : Prop := ∃ n, child = some n ∧ n.ty? = some ty

/-- The type of a parameter. -/
def argTy? : Node → Option Ty
  | argDef _ ty => some ty
  | _ => none

/-- What each kind of operation takes: its operands have the type of the kind, and between strings
or vectors there is a runtime function for the operator. -/
def OperandsTyped (operandTy : Ty) (op : String) (left right : Option Node) : OperandKind → Prop
  | .int => (HasTy left .int ∧ HasTy right .int) ∨ (HasTy left .boolean ∧ HasTy right .boolean)
  | .float => HasTy left .float ∧ HasTy right .float
  | .string => HasTy left .string ∧ HasTy right .string ∧ op ∈ ["+", "==", "!="] ∧
      (Template.runtimeFunction? operandTy op).isSome
  | .vector => HasTy left .vector ∧ HasTy right .vector ∧
      op ∈ ["+", "-", "*", "/", "==", "!="] ∧ (Template.runtimeFunction? operandTy op).isSome

/-- The typing rule of a node in a file with the given functions; `ret` is the return type of the
function around it. -/
def WellTyped (funcs : List Node) (ret : Option Ty) : Node → Prop
  | binary kind op _ operandTy _ left right => OperandsTyped operandTy op left right kind
  | widen .intToFloat _ _ e _ | widen .intToVector _ _ e _ => HasTy e .int
  | widen .floatToVector _ _ e _ => HasTy e .float
  | vectorLit _ elems => ∀ e ∈ elems, e.ty? = some .float
  | index .vector _ _ e i => HasTy e .vector ∧ HasTy i .int
  | index .string _ _ e i => HasTy e .string ∧ HasTy i .int
  | unary .not _ _ e => HasTy e .boolean
  | unary .negate ty _ e => HasTy e ty
  | length argTy _ e => HasTy e argTy
  | call name ty _ args => ∃ head params body, func head params body ∈ funcs ∧ head.name = name ∧
      head.returnTy = ty ∧ args.map ty? = params.map argTy?
  | elementAssign _ i e => HasTy i .int ∧ HasTy e .float
  | ifStat cond _ _ | whileStat cond _ => HasTy cond .boolean
  | returnStat ty _ e => ret = some ty ∧ HasTy e ty
  | _ => True

/-- Whether a node spreads a number over a vector. -/
def isSpread : Node → Bool
  | widen .intToVector .. | widen .floatToVector .. => true
  | _ => false

/-- The node spreads a number to the length of the variable. -/
def SpreadOver (n v : Node) : Prop :=
  ∃ kind ty temp e lenTemp, n = widen kind ty temp e (some (length .vector lenTemp (some v)))

/-- A number is spread only as an operand of an operation between vectors, to the length of the
variable that is the other operand. -/
def SpreadsRight (n : Node) : Prop :=
  ∀ c ∈ n.children, c.isSpread = true → ∃ op ty operandTy temp l r,
    n = binary .vector op ty operandTy temp (some l) (some r) ∧
      (c = l ∧ isVarRef r = true ∧ l.SpreadOver r ∨
        c = r ∧ isVarRef l = true ∧ r.SpreadOver l)

/-- A node, and what is said of it and of its children. -/
structure Sound (funcs : List Node) (ret : Option Ty) (n : Node) : Prop where
  typed : n.WellTyped funcs ret
  spreads : n.SpreadsRight

end Node

/-! ## Expressions -/

section Expressions

variable {t : Table} {R : Lookup} {funcs : List Node} {ret : Option Ty} {n : Node} {op : Operator}
  {left right : Expr} {operandTy : Ty}

/-- The file has the functions that the names of calls refer to, with their types. -/
def Lookup.HasFunctions (R : Lookup) (t : Table) (funcs : List Node) : Prop :=
  ∀ {id name sig}, R.func id name → t.func? id = some sig → ∃ head params body,
    .func head params body ∈ funcs ∧ head.name = name ∧ head.returnTy = sig.returnTy ∧
      params.map argTy? = sig.params.map fun p => (t.var? p).bind Variable.ty

/-- Nodes without spread children of their own. -/
theorem Node.SpreadsRight.of_children (h : ∀ c ∈ n.children, c.isSpread = false) :
    n.SpreadsRight := fun c hc hspread => by
  rw [h c hc] at hspread
  cases hspread

/-- A node with a rule, over children that have theirs. -/
theorem Node.all_sound (hcs : n.children = cs) (typed : n.WellTyped funcs ret)
    (inside : ∀ c ∈ cs, c.All (Sound funcs ret) ∧ c.isSpread = false) :
    n.All (Sound funcs ret) := by
  refine .of_children ⟨typed, ?_⟩ hcs fun c hc => (inside c hc).1
  exact SpreadsRight.of_children (hcs ▸ fun c hc => (inside c hc).2)

theorem symbol_of_arithmetic (h : op.family = .arithmetic) :
    op.symbol ∈ ["+", "-", "*", "/", "==", "!="] := by
  revert h
  cases op <;> decide

theorem symbol_of_equality (h : op.family = .equality) : op.symbol = "==" ∨ op.symbol = "!=" := by
  revert h
  cases op <;> decide

section

variable (hgives : (ExprKind.binary left op right).Gives t ty)
    (hvalue : left.IsValue)
    (heff : left.effectiveTy = some operandTy)

include hgives hvalue heff

/-- The types of operands that meet in one type, with the operators between them. -/
theorem operator_of_gives : operandTy = .int ∨ operandTy = .boolean ∨ operandTy = .float ∨
      (operandTy = .string ∧ op.symbol ∈ ["+", "==", "!="]) ∨
      (operandTy = .vector ∧ op.symbol ∈ ["+", "-", "*", "/", "==", "!="]) := by
  obtain ⟨l, r, common, hl, hr, htyping, hwide⟩ := hgives
  have hcommon : operandTy = common.getD l := by
    cases common with
    | none =>
      rw [effectiveTy_of_promoteTo hwide.1, hl] at heff
      exact (Option.some.inj heff).symm
    | some wide =>
      rw [hwide.1.effectiveTy] at heff
      exact (Option.some.inj heff).symm
  subst hcommon
  cases Operator.typed_of_typing htyping with
  | join plus => simp [plus, Operator.symbol]
  | arithmetic family leftNe rightNe common =>
    have hty : ty = .int ∨ ty = .float ∨ ty = .vector := by
      cases l <;> cases r <;> simp [Ty.arithmetic?, Ty.rank?] at common <;> simp [← common]
    have hop := symbol_of_arithmetic family
    rcases hty with rfl | rfl | rfl <;> simp_all
  | compare family leftNumber rightNumber =>
    cases l <;> cases leftNumber <;> cases r <;> cases rightNumber <;>
      simp [Ty.arithmetic?, Ty.rank?]
  | equate family =>
    have hop := symbol_of_equality family
    obtain ⟨l', hl', hvoid, herror⟩ := hvalue
    cases hl.symm.trans hl'
    cases l <;> rcases hop with hop | hop <;> simp_all
  | logical family => simp

/-- The operands of an operation that has its type by its rule. -/
theorem operandsTyped_of_gives {l r : Node} (hl : l.ty? = some operandTy)
    (hr : r.ty? = some operandTy) :
    OperandsTyped operandTy op.symbol (some l) (some r) (operandKind operandTy) := by
  have hleft : HasTy (some l) operandTy := ⟨l, rfl, hl⟩
  have hright : HasTy (some r) operandTy := ⟨r, rfl, hr⟩
  rcases operator_of_gives hgives hvalue heff with rfl | rfl | rfl | ⟨rfl, hop⟩ | ⟨rfl, hop⟩
  · exact .inl ⟨hleft, hright⟩
  · exact .inr ⟨hleft, hright⟩
  · exact ⟨hleft, hright⟩
  · refine ⟨hleft, hright, hop, ?_⟩
    simp only [mem_cons, not_mem_nil, or_false] at hop
    rcases hop with hop | hop | hop <;> rw [hop] <;> rfl
  · refine ⟨hleft, hright, hop, ?_⟩
    simp only [mem_cons, not_mem_nil, or_false] at hop
    rcases hop with hop | hop | hop | hop | hop | hop <;> rw [hop] <;> rfl

end

/-- A number that meets a vector is an `int` or a `float`. -/
theorem narrow_of_gives {l r : Ty}
    (hgives : (ExprKind.binary left op right).Gives t .vector) (hl : left.ty = some l)
    (hr : right.ty = some r) : op.symbol ∈ ["+", "-", "*", "/", "==", "!="] ∧
      (l ≠ .vector → l = .int ∨ l = .float) ∧ (r ≠ .vector → r = .int ∨ r = .float) := by
  obtain ⟨l', r', common, hl', hr', htyping, -⟩ := hgives
  cases hl.symm.trans hl'
  cases hr.symm.trans hr'
  generalize hty : Ty.vector = ty at htyping
  cases Operator.typed_of_typing htyping with
  | arithmetic family _ _ common =>
    refine ⟨symbol_of_arithmetic family, fun hne => ?_, fun hne => ?_⟩ <;>
      cases l <;> cases r <;> simp [Ty.arithmetic?, Ty.rank?] at common <;> simp_all
  | join | compare | equate | logical => cases hty

/-- Arguments have the types of the parameters. -/
theorem map_ty?_of_accepts {pairs : List (Expr × Node)}
    (hbuilt : ∀ p ∈ pairs, BuiltFor R .used p.1 p.2)
    (h : Forall₂ t.Accepts params (pairs.map Prod.fst)) :
    pairs.map (ty? ∘ Prod.snd) = params.map fun p => (t.var? p).bind Variable.ty := by
  induction pairs generalizing params with
  | nil => cases h; rfl
  | cons p pairs ih =>
    cases h with
    | cons hp hps =>
      obtain ⟨v, expected, given, hv, hty, -, -, hwide⟩ := hp
      rw [map_cons, map_cons, ih (fun q hq => hbuilt q (.tail p hq)) hps]
      congr 1
      rw [hv, Option.bind_some, hty, Function.comp_apply, (hbuilt p (.head _)).ty?_used]
      exact hwide.effectiveTy

/-- A variable is sound by itself. -/
theorem Node.Sound.varRef (name : String) (ty : Ty) (isTemp : Bool) :
    (varRef name ty isTemp).All (Sound funcs ret) :=
  all_sound rfl trivial nofun

/-- A number that is spread over a variable. -/
theorem Node.Sound.spread {s v : Node} (hscalar : s.ty? = some scalarTy)
    (hnumber : scalarTy = .int ∨ scalarTy = .float)
    (hs : s.All (Sound funcs ret) ∧ s.isSpread = false) (hv : v.ty? = some .vector)
    (hall : v.All (Sound funcs ret)) (hvar : isVarRef v = true) (lenTemp temp : String) :
    (spread scalarTy s v lenTemp temp).All (Sound funcs ret) := by
  have hvarSpread : v.isSpread = false := by
    cases v <;> first | rfl | cases hvar
  have hlen : (length .vector lenTemp (some v)).All (Sound funcs ret) :=
    all_sound rfl ⟨v, rfl, hv⟩ (forall_mem_singleton.mpr ⟨hall, hvarSpread⟩)
  refine all_sound rfl ?_
    (forall_mem_pair.mpr ⟨hs, ⟨hlen, rfl⟩⟩)
  rcases hnumber with rfl | rfl
  · exact ⟨s, rfl, hscalar⟩
  · exact ⟨s, rfl, hscalar⟩

/-- Reading an operand twice: the variable that is read is sound, and binding keeps what is
sound. -/
theorem ReadTwice.sound {v w : Node} {bound : Option (String × Node)} (h : ReadTwice R v w bound)
    (hv : v.All (Sound funcs ret) ∧ v.isSpread = false) (hty : v.ty? = some .vector) :
    w.All (Sound funcs ret) ∧ w.ty? = some .vector ∧ isVarRef w = true ∧
      ∀ n : Node, n.All (Sound funcs ret) → n.isSpread = false →
        (withBound bound n).All (Sound funcs ret) ∧
          (withBound bound n).isSpread = false := by
  cases h with
  | var => exact ⟨hv.1, hty, rfl, fun n hn hspread => ⟨hn, hspread⟩⟩
  | bound =>
    refine ⟨Sound.varRef _ _ _, rfl, rfl, fun n hn hspread => ⟨?_, rfl⟩⟩
    exact all_sound rfl trivial
      (forall_mem_pair.mpr ⟨hv, ⟨hn, hspread⟩⟩)

/-- An operation between a variable and a number that is spread over it, on either side. -/
theorem Node.Sound.spreadBinary {s w : Node} {op temp lenTemp widenTemp : String}
    (hop : op ∈ ["+", "-", "*", "/", "==", "!="]) (hscalar : s.ty? = some scalarTy)
    (hnumber : scalarTy = .int ∨ scalarTy = .float)
    (hs : s.All (Sound funcs ret) ∧ s.isSpread = false) (hw : w.ty? = some .vector)
    (hall : w.All (Sound funcs ret)) (hvar : isVarRef w = true) {l r : Node}
    (hsides : l = w ∧ r = .spread scalarTy s w lenTemp widenTemp ∨
      l = .spread scalarTy s w lenTemp widenTemp ∧ r = w) :
    (binary .vector op .vector .vector temp (some l) (some r)).All (Sound funcs ret) := by
  have hspread := Sound.spread hscalar hnumber hs hw hall hvar lenTemp widenTemp
  have hwSpread : w.isSpread = false := by
    cases w <;> first | rfl | cases hvar
  have hruntime : (Template.runtimeFunction? .vector op).isSome := by
    simp only [mem_cons, not_mem_nil, or_false] at hop
    rcases hop with rfl | rfl | rfl | rfl | rfl | rfl <;> rfl
  rcases hsides with ⟨rfl, rfl⟩ | ⟨rfl, rfl⟩
  · refine .of_children ⟨⟨⟨_, rfl, hw⟩, ⟨_, rfl, rfl⟩, hop, hruntime⟩, ?_⟩ rfl
      (forall_mem_pair.mpr ⟨hall, hspread⟩)
    refine forall_mem_pair.mpr ⟨fun h => ?_, fun _ => ?_⟩
    · rw [hwSpread] at h
      cases h
    · exact ⟨_, _, _, _, _, _, rfl, .inr ⟨rfl, hvar, _, _, _, _, _, rfl⟩⟩
  · refine .of_children ⟨⟨⟨_, rfl, rfl⟩, ⟨_, rfl, hw⟩, hop, hruntime⟩, ?_⟩ rfl
      (forall_mem_pair.mpr ⟨hspread, hall⟩)
    refine forall_mem_pair.mpr ⟨fun _ => ?_, fun h => ?_⟩
    · exact ⟨_, _, _, _, _, _, rfl, .inl ⟨rfl, hvar, _, _, _, _, _, rfl⟩⟩
    · rw [hwSpread] at h
      cases h

/-- **Well-typed expressions.**  A node that is built for an expression that has its type by the
rules obeys the typing rules, and so do all nodes inside it. -/
theorem BuiltFor.sound {sight : Sight} (h : BuiltFor R sight e n)
    (hfuncs : R.HasFunctions t funcs) (hruled : e.Ruled t) :
    n.All (Sound funcs ret) ∧ n.isSpread = false := by
  induction h with
  | int | float | bool | text | double => exact ⟨all_sound rfl trivial nofun, rfl⟩
  | name => exact ⟨Sound.varRef _ _ _, rfl⟩
  | own _ _ ih | same _ _ _ ih => exact ih hruled
  | widened integer _ operand ih =>
    refine ⟨all_sound rfl ?_ (forall_mem_singleton.mpr (ih hruled)), rfl⟩
    exact ⟨_, rfl, operand.of_own.1.trans integer⟩
  | @vector pairs temp span ty promoteTo elems ih =>
    obtain ⟨hrule, hoperands⟩ := ruled_iff.mp hruled
    obtain ⟨_, -, -, -, hgives⟩ := hrule.gives
    have hchildren : (vectorLit temp (pairs.map Prod.snd)).children = pairs.map Prod.snd := by
      simp [children]
    refine ⟨all_sound hchildren ?_ ?_, rfl⟩
    · intro n hn
      obtain ⟨p, hp, rfl⟩ := mem_map.mp hn
      rw [(elems p hp).ty?_used]
      exact (hgives p.1 (mem_map_of_mem hp)).2.effectiveTy
    · intro n hn
      obtain ⟨p, hp, rfl⟩ := mem_map.mp hn
      exact ih p hp (hoperands p.1 (mem_map_of_mem hp))
  | negate operand ih =>
    obtain ⟨hrule, hoperands⟩ := ruled_iff.mp hruled
    obtain ⟨ty, hty, -, htyped, hplain, -⟩ := hrule.gives
    cases hty
    have hinner := ih (hoperands _ (by simp))
    refine ⟨all_sound rfl ?_ (forall_mem_singleton.mpr hinner), rfl⟩
    exact ⟨_, rfl, operand.ty?_used.trans ((effectiveTy_of_promoteTo hplain).trans htyped)⟩
  | not operand ih =>
    obtain ⟨hrule, hoperands⟩ := ruled_iff.mp hruled
    obtain ⟨ty, hty, -, htyped, hplain, rfl⟩ := hrule.gives
    have hinner := ih (hoperands _ (by simp))
    refine ⟨all_sound rfl ?_ (forall_mem_singleton.mpr hinner), rfl⟩
    exact ⟨_, rfl, operand.ty?_used.trans ((effectiveTy_of_promoteTo hplain).trans htyped)⟩
  | index targetTyped operand place ihOperand ihPlace =>
    obtain ⟨hrule, hoperands⟩ := ruled_iff.mp hruled
    obtain ⟨ty, -, -, hplain, hint, hiplain, hkind⟩ := hrule.gives
    have htarget := operand.ty?_used.trans (effectiveTy_of_promoteTo hplain)
    have hplace := place.ty?_used.trans ((effectiveTy_of_promoteTo hiplain).trans hint)
    refine ⟨all_sound rfl ?_ (forall_mem_pair.mpr ⟨ihOperand (hoperands _ (by simp)),
        (ihPlace (hoperands _ (by simp)))⟩), ?_⟩
    · rcases hkind with ⟨hvector, -⟩ | ⟨hstring, -⟩
      · cases targetTyped.symm.trans hvector
        exact ⟨⟨_, rfl, htarget.trans hvector⟩, ⟨_, rfl, hplace⟩⟩
      · cases targetTyped.symm.trans hstring
        exact ⟨⟨_, rfl, htarget.trans hstring⟩, ⟨_, rfl, hplace⟩⟩
    · rfl
  | len innerTyped operand ih =>
    obtain ⟨hrule, hoperands⟩ := ruled_iff.mp hruled
    obtain ⟨ty, -, -, hplain, -, -⟩ := hrule.gives
    have hinner := ih (hoperands _ (by simp))
    refine ⟨all_sound rfl ?_ (forall_mem_singleton.mpr hinner), rfl⟩
    exact ⟨_, rfl, operand.ty?_used.trans
      ((effectiveTy_of_promoteTo hplain).trans innerTyped)⟩
  | @call pairs f temp id ty span promoteTo named args ih =>
    obtain ⟨hrule, hoperands⟩ := ruled_iff.mp hruled
    obtain ⟨_, hsome, -, id', sig, hid, hsig, hreturn, haccepts⟩ := hrule.gives
    cases hid
    cases hsome
    obtain ⟨head, params, body, hmem, hname, hreturnTy, hparams⟩ := hfuncs named hsig
    have hchildren : (Node.call f ty temp (pairs.map Prod.snd)).children = pairs.map Prod.snd := by
      simp [children]
    refine ⟨all_sound hchildren
      ⟨head, params, body, hmem, hname, hreturnTy.trans hreturn.symm, ?_⟩ ?_, rfl⟩
    · rw [hparams, map_map]
      exact map_ty?_of_accepts args haccepts
    · intro n hn
      obtain ⟨p, hp, rfl⟩ := mem_map.mp hn
      exact ih p hp (hoperands p.1 (mem_map_of_mem hp))
  | binary leftTyped rightTyped leftOperand rightOperand ihLeft ihRight =>
    obtain ⟨hrule, hoperands⟩ := ruled_iff.mp hruled
    obtain ⟨ty, hty, -, hgives⟩ := hrule.gives
    have hleft := hrule.operands _ (.head _)
    refine ⟨all_sound rfl ?_ (forall_mem_pair.mpr ⟨ihLeft (hoperands _ (by simp)),
        (ihRight (hoperands _ (by simp)))⟩), rfl⟩
    exact operandsTyped_of_gives hgives hleft leftTyped (leftOperand.ty?_used.trans leftTyped)
      (rightOperand.ty?_used.trans rightTyped)
  | spreadRight vectorTyped scalarTyped narrow vector scalar twice ihVector ihScalar =>
    obtain ⟨hrule, hoperands⟩ := ruled_iff.mp hruled
    obtain ⟨ty, hty, -, hgives⟩ := hrule.gives
    cases hty
    obtain ⟨l, hl⟩ := hrule.operands _ (.head _)
    obtain ⟨hop, -, hnumber⟩ := narrow_of_gives hgives hl.1 scalarTyped
    obtain ⟨hw, hwty, hvar, hbound⟩ := twice.sound
      (ihVector (hoperands _ (by simp))) (vector.ty?_used.trans vectorTyped)
    refine hbound _ (Sound.spreadBinary hop (scalar.of_own.1.trans scalarTyped) (hnumber narrow)
      (ihScalar (hoperands _ (by simp))) hwty hw hvar (.inl ⟨rfl, rfl⟩)) rfl
  | spreadLeft vectorTyped scalarTyped narrow vector scalar twice ihVector ihScalar =>
    obtain ⟨hrule, hoperands⟩ := ruled_iff.mp hruled
    obtain ⟨ty, hty, -, hgives⟩ := hrule.gives
    cases hty
    obtain ⟨r, hr⟩ := hrule.operands _ (.tail _ (.head _))
    obtain ⟨hop, hnumber, -⟩ := narrow_of_gives hgives scalarTyped hr.1
    obtain ⟨hw, hwty, hvar, hbound⟩ := twice.sound
      (ihVector (hoperands _ (by simp))) (vector.ty?_used.trans vectorTyped)
    refine hbound _ (Sound.spreadBinary hop (scalar.of_own.1.trans scalarTyped) (hnumber narrow)
      (ihScalar (hoperands _ (by simp))) hwty hw hvar (.inr ⟨rfl, rfl⟩)) rfl

end Expressions

/-! ## Statements -/

/-- A statement without its blocks is typed, and it returns only what the function around it
does. -/
structure Located.Checked (t : Table) (ret : Option Ty) (s : Stmt) : Prop where
  step : ∃ t₁ t₂, t₁.Retypes t ∧ Typing.Step t₁ s.kind t₂
  ret : ∀ {value}, s.kind = .ret value → value.effectiveTy = ret

/-- The statements of a piece, those in its blocks included. -/
def Piece.nodes : Piece → List Stmt
  | stmt s => s.nodes
  | block b => b.nodes

/-- The file has the functions that names refer to inside the frames, with their types. -/
def Frame.HasFunctions (t : Table) (funcs : List Node) (frames : List Frame) : Prop :=
  ∀ {id name sig}, find? frames name = some (.func id) → t.func? id = some sig →
    (∀ p ∈ sig.params, ∃ v, t.var? p = some v ∧ v.isParameter = true) ∧
    ∃ head params body, .func head params body ∈ funcs ∧ head.name = name ∧
      head.returnTy = sig.returnTy ∧
        params.map argTy? = sig.params.map fun p => (t.var? p).bind Variable.ty

section Statements

variable {t : Table} {funcs : List Node} {ret : Option Ty} {frames : List Frame} {n : Node}

/-- The types of parameters are the same at all times. -/
theorem Frame.HasFunctions.lookup (h : HasFunctions t funcs frames) {t₁ : Table}
    (hret : t₁.Retypes t) : (toLookup frames).HasFunctions t₁ funcs := by
  intro id name sig hname hsig
  obtain ⟨hparams, head, params, body, hmem, heq, hreturn, htys⟩ :=
    h hname ((hret.func? id).trans hsig)
  refine ⟨head, params, body, hmem, heq, hreturn, htys.trans (map_congr_left fun p hp => ?_)⟩
  obtain ⟨v, hv, hparam⟩ := hparams p hp
  obtain ⟨w, hw, hvw, hsame, -⟩ := hret.var?_back hv
  grind

/-- Blocks declare no functions. -/
theorem CBlock.lookup_frame_ne_func (b : CBlock Node) (name : String) (id : SymbolId) :
    lookup name (b.frame t) ≠ some (.func id) := by
  intro h
  obtain ⟨before, after, heq, -⟩ := lookup_eq_some_iff.mp h
  have hmem : (name, Referent.func id) ∈ b.frame t := by simp [heq]
  rw [CBlock.frame, mem_append] at hmem
  grind

theorem Frame.HasFunctions.push {f : Frame} (h : HasFunctions t funcs frames)
    (hf : ∀ name id, List.lookup name f ≠ some (.func id)) :
    HasFunctions t funcs (f :: frames) := by
  intro id name sig hname hsig
  refine h ?_ hsig
  rw [find?_cons] at hname
  cases hlookup : List.lookup name f with
  | none => simpa [hlookup] using hname
  | some r => grind

/-- Declarations are sound by themselves. -/
theorem Node.Sound.decl (h : ∃ name ty isTemp, n = .varDecl name ty isTemp) :
    n.All (Sound funcs ret) ∧ n.isSpread = false := by
  obtain ⟨name, ty, isTemp, rfl⟩ := h
  exact ⟨all_sound rfl trivial nofun, rfl⟩

theorem Node.exists_varDecl (h : n.isTempDecl = true) :
    ∃ name ty isTemp, n = .varDecl name ty isTemp := by
  cases n <;> first | exact ⟨_, _, _, rfl⟩ | cases h

/-- The children of a block that declares variables and temporaries only. -/
theorem Node.Sound.block {c : CBlock Node}
    (declares : Forall₂ t.DeclaredAs c.vars ids) (temps : ∀ p ∈ c.temps, p.2.isTempDecl = true)
    (cleanup : c.cleanup = [])
    (stats : ∀ n ∈ c.stats, n.All (Sound funcs ret) ∧ n.isSpread = false) :
    (block c).All (Sound funcs ret) := by
  refine all_sound rfl trivial fun n hn => ?_
  simp only [children, slots, Slot.toList, flatMap_cons, flatMap_nil,
    mem_append, append_nil, cleanup, mem_map] at hn
  rcases hn with ⟨p, hp, rfl⟩ | ⟨p, hp, rfl⟩ | hn
  · cases htemp : p.2.isTempDecl with
    | true => exact Sound.decl (exists_varDecl htemp)
    | false =>
      have hvar : p ∈ c.vars := mem_filter.mpr ⟨hp, by simp [htemp]⟩
      obtain ⟨id, -, v, ty, -, -, hp⟩ := exists_of_forall₂ declares.flip hvar
      exact Sound.decl ⟨_, _, _, hp⟩
  · exact Sound.decl (exists_varDecl (temps p hp))
  · exact stats n hn

/-- A node that is built for an expression of a typed statement. -/
theorem Located.Checked.expr (h : s.Checked t ret)
    (hfuncs : HasFunctions t funcs frames) (he : e ∈ s.kind.exprs)
    (hbuilt : BuiltFor (toLookup frames) .used e n) :
    n.All (Sound funcs ret) ∧ n.isSpread = false := by
  obtain ⟨t₁, t₂, hret, hstep⟩ := h.step
  exact hbuilt.sound (hfuncs.lookup hret) (hstep.ruled e he)

/-- The value of a typed condition. -/
theorem hasTy_of_plain {R : Lookup} (hbuilt : BuiltFor R .used e n)
    (given : e.ty = some ty) (plain : e.promoteTo = none) : HasTy (some n) ty :=
  ⟨n, rfl, hbuilt.ty?_used.trans ((effectiveTy_of_promoteTo plain).trans given)⟩

theorem Piece.mem_nodes {c : Stmt} {b : Block} (hb : b ∈ s.kind.blocks) (hc : c ∈ b.nodes) :
    c ∈ (stmt s).nodes := by
  rw [nodes, Located.nodes_eq]
  exact .tail s (mem_flatMap.mpr ⟨b, hb, hc⟩)

theorem PieceBuiltFor.sound {piece : Piece} (h : PieceBuiltFor t frames piece n)
    (hfuncs : HasFunctions t funcs frames) (hchecked : ∀ s ∈ piece.nodes, s.Checked t ret) :
    n.All (Sound funcs ret) ∧ n.isSpread = false := by
  have hself : ∀ {s : Stmt}, (∀ c ∈ s.nodes, c.Checked t ret) → s.Checked t ret := fun h =>
    h _ (by simp [Located.nodes_eq])
  induction h with
  | define target typed expr | assign target typed expr | call expr | print typed expr =>
    have he := (hself hchecked).expr hfuncs (.head _) expr
    exact ⟨all_sound rfl trivial (forall_mem_singleton.mpr he), rfl⟩
  | assignElement target place expr =>
    have hi := (hself hchecked).expr hfuncs (by simp) place
    have he := (hself hchecked).expr hfuncs (by simp) expr
    refine ⟨all_sound rfl ?_
      (forall_mem_pair.mpr ⟨hi, he⟩), rfl⟩
    obtain ⟨t₁, t₂, -, hstep⟩ := (hself hchecked).step
    cases hstep with
    | assignElement _ _ _ _ placeTy placeWidening _ _ widening =>
      exact ⟨hasTy_of_plain place placeTy placeWidening,
        ⟨_, rfl, expr.ty?_used.trans widening.effectiveTy⟩⟩
  | ifThen test yesBlock ihYes =>
    have hc := (hself hchecked).expr hfuncs (.head _) test
    have hyes := ihYes hfuncs fun s hs => hchecked s (mem_nodes (.head _) hs)
    refine ⟨all_sound rfl ?_
      (forall_mem_pair.mpr ⟨hc, hyes⟩), rfl⟩
    obtain ⟨t₁, t₂, -, hstep⟩ := (hself hchecked).step
    cases hstep with
    | ifElse typed given widening => exact hasTy_of_plain test given widening
  | ifElse test yesBlock noBlock ihYes ihNo =>
    have hc := (hself hchecked).expr hfuncs (.head _) test
    have hyes := ihYes hfuncs fun s hs => hchecked s (mem_nodes (.head _) hs)
    have hno := ihNo hfuncs fun s hs =>
      hchecked s (mem_nodes (.tail _ (.head _)) hs)
    refine ⟨all_sound rfl ?_ (forall_mem_cons.mpr
      ⟨hc, forall_mem_pair.mpr ⟨hyes, hno⟩⟩), rfl⟩
    obtain ⟨t₁, t₂, -, hstep⟩ := (hself hchecked).step
    cases hstep with
    | ifElse typed given widening => exact hasTy_of_plain test given widening
  | loop test again ih =>
    have hc := (hself hchecked).expr hfuncs (.head _) test
    have hbody := ih hfuncs fun s hs => hchecked s (mem_nodes (.head _) hs)
    refine ⟨all_sound rfl ?_
      (forall_mem_pair.mpr ⟨hc, hbody⟩), rfl⟩
    obtain ⟨t₁, t₂, -, hstep⟩ := (hself hchecked).step
    cases hstep with
    | loop typed given widening => exact hasTy_of_plain test given widening
  | printNothing => exact ⟨all_sound rfl trivial (forall_mem_nil _), rfl⟩
  | ret typed expr =>
    have he := (hself hchecked).expr hfuncs (.head _) expr
    refine ⟨all_sound rfl ⟨?_, ?_⟩ (forall_mem_singleton.mpr he), rfl⟩
    · exact ((hself hchecked).ret rfl).symm.trans typed
    · exact ⟨_, rfl, expr.ty?_used.trans typed⟩
  | blockStat inner ih =>
    have hinner := ih hfuncs fun s hs => hchecked s (mem_nodes (.head _) hs)
    exact ⟨all_sound rfl trivial (forall_mem_singleton.mpr hinner), rfl⟩
  | @block frames b inner c pairs _ _ declares _ _ temps cleanup statements stats _ ih =>
    refine ⟨Sound.block declares (fun p hp => (temps p hp).1) cleanup fun n hn => ?_, rfl⟩
    rw [stats] at hn
    obtain ⟨p, hp, rfl⟩ := mem_map.mp hn
    refine ih p hp (hfuncs.push c.lookup_frame_ne_func) fun s hs => hchecked s ?_
    rw [Piece.nodes, BlockOf.nodes_eq]
    exact mem_flatMap.mpr ⟨p.1, statements ▸ mem_map_of_mem hp, hs⟩

end Statements

/-! ## Functions and files -/

section Files

variable {t : Table} {script : Script} {funcs : List Node}

/-- The scope of the parameters of a function belongs to the function. -/
theorem Table.enclosingFunction_of_function
    (h : t.kind? scope = some .function) : t.enclosingFunction scope = t.function? scope := by
  obtain ⟨s, hs, hkind⟩ := Option.map_eq_some_iff.mp h
  obtain ⟨rest, hchain⟩ := t.exists_chain scope
  simp [Table.enclosingFunction, Table.function?, hchain, h, hs, hkind]

/-- What the statements of a function return has its return type. -/
theorem Located.Resolves.returns (ht : t.WellFormed)
    (h : s.Resolves t scope) (hplaced : s.Placed t scope)
    (hid : t.enclosingFunction scope = some id) (hsig : t.func? id = some sig) :
    ∀ n ∈ s.nodes, ∀ value, n.kind = .ret value → value.effectiveTy = some sig.returnTy := by
  induction h with
  | @intro scope s exprs target ret inside ih =>
    cases hplaced with
    | intro define scopes placed =>
      refine Located.forall_nodes.mpr ⟨fun value hk => ret hk hid hsig, fun b hb c hc => ?_⟩
      obtain ⟨inner, hscope, hencloses, -⟩ := scopes b hb
      refine ih b hb inner hscope c hc (placed b hb inner hscope c hc) ?_
      rw [ht.enclosingFunction_eq hencloses]
      exact hid

/-- All statements of a function are typed and return what the function returns. -/
theorem checked_function (h : ScriptReady t script) (hresolved : script.Resolved t)
    {f : Function} (hf : f ∈ script.functions)
    (hplaced : f.PlacedAs t id sig) :
    ∀ s ∈ f.body.nodes, s.Checked t (some sig.returnTy) := by
  intro s hs
  refine ⟨(h.functions f hf s hs).step, fun {value} hk => ?_⟩
  have hitem := hresolved.items _ (Script.mem_functions.mp hf)
  obtain ⟨scope, hscope, hattached⟩ := hresolved.attached f hf
  cases hscope.symm.trans hplaced.scope
  rw [BlockOf.nodes_eq] at hs
  obtain ⟨c, hc, hs⟩ := mem_flatMap.mp hs
  cases hplaced.body with
  | intro _ scopes inside =>
    have hin : f.body ∈ (StmtKind.block f.body).blocks := .head _
    obtain ⟨inner, hinner, hencloses, -⟩ := scopes f.body hin
    refine Located.Resolves.returns h.typed.wellFormed (hitem inner hinner c hc)
      (inside f.body hin inner hinner c hc) ?_ hplaced.func s hs value hk
    rw [h.typed.wellFormed.enclosingFunction_eq hencloses,
      Table.enclosingFunction_of_function hplaced.kind, hattached, hplaced.symbol]

/-- Outside functions all statements are typed and nothing is returned. -/
theorem checked_main (h : ScriptReady t script) (hs : s ∈ script.statements) :
    ∀ c ∈ s.nodes, c.Checked t none := by
  intro c hc
  have hready := h.statements c (mem_flatMap.mpr ⟨s, hs, hc⟩)
  exact ⟨hready.step, fun hk => absurd (hready.ret hk) Bool.false_ne_true⟩

theorem map_argTy? (h : Forall₂ t.ParamAs args ids) :
    args.map argTy? = ids.map fun p => (t.var? p).bind Variable.ty := by
  induction h with
  | nil => rfl
  | cons hp _ ih =>
    obtain ⟨v, ty, hv, hty, rfl⟩ := hp
    rw [map_cons, map_cons, ih, hv, Option.bind_some, hty]
    rfl

/-- The file has all the functions of the script. -/
theorem hasFunctions_ofFile (h : ScriptReady t script) (globals : List (String × Node))
    {file : Frame} (hfuncs : Forall₂ (FunctionBuiltFor t file) script.functions funcs) :
    HasFunctions t funcs [ofFile t script globals] := by
  intro id name sig hname hsig
  have hname : lookup name (ofFile t script globals) = some (.func id) := by
    simpa [Frame.find?_cons, Frame.find?] using hname
  obtain ⟨before, after, heq, -⟩ := lookup_eq_some_iff.mp hname
  have hmem : (name, Referent.func id) ∈ ofFile t script globals := by simp [heq]
  rw [ofFile, mem_append] at hmem
  rcases hmem with hmem | hmem
  · grind
  · obtain ⟨f, hf, hentry⟩ := mem_filterMap.mp hmem
    obtain ⟨i, hi, hentry⟩ := Option.map_eq_some_iff.mp hentry
    cases hentry
    obtain ⟨n, hn, hbuilt⟩ := exists_of_forall₂ hfuncs.flip hf
    obtain ⟨id', sig', hplaced⟩ := h.placed _ (Script.mem_functions.mp hf)
    cases hi.symm.trans hplaced.symbol
    cases hsig.symm.trans hplaced.func
    refine ⟨fun p hp => ?_, ?_⟩
    · obtain ⟨v, ty, hv, -, hparam⟩ := params_of_placedAs hplaced p hp
      exact ⟨v, hv, hparam⟩
    · cases hbuilt with
      | @intro i' s' head args body symbol func name returnTy params built =>
        cases hi.symm.trans symbol
        cases hsig.symm.trans func
        exact ⟨head, args, some body, hn, name, returnTy, map_argTy? params⟩

theorem Frame.lookup_ofArgs_ne_func (args : List Node) (ids : List SymbolId) (name : String)
    (id : SymbolId) : lookup name (ofArgs args ids) ≠ some (.func id) := by
  intro h
  obtain ⟨before, after, heq, -⟩ := lookup_eq_some_iff.mp h
  have hmem : (name, Referent.func id) ∈ ofArgs args ids := by simp [heq]
  obtain ⟨i, -, hi⟩ := mem_map.mp (of_mem_zip hmem).2
  cases hi

/-- A file all of whose nodes obey the typing rules; each function returns values of its return type
only, and the main function returns nothing. -/
def Node.WellTypedFile : Node → Prop
  | file _ funcs main =>
    (∀ f ∈ funcs, ∃ head params body, f = func head params (some body) ∧
      body.All (Sound funcs (some head.returnTy))) ∧
      ∃ body, main = some body ∧ body.All (Sound funcs none)
  | _ => False

theorem ScriptBuiltFor.wellTyped {model : Node} (hbuilt : ScriptBuiltFor t script model)
    (h : ScriptReady t script) (hresolved : script.Resolved t) : model.WellTypedFile := by
  cases hbuilt with
  | @intro globals funcs b pairs declares functions noVars temps cleanup statements stats main =>
    have hfile : HasFunctions t funcs [ofFile t script globals] :=
      hasFunctions_ofFile h globals functions
    refine ⟨fun n hn => ?_, _, rfl, ?_⟩
    · obtain ⟨f, hf, hfunc⟩ := exists_of_forall₂ functions hn
      cases hfunc with
      | @intro id sig head args body symbol func name returnTy params built =>
        obtain ⟨id', sig', hplaced⟩ := h.placed _ (Script.mem_functions.mp hf)
        cases symbol.symm.trans hplaced.symbol
        cases func.symm.trans hplaced.func
        refine ⟨head, args, body, rfl, ?_⟩
        rw [returnTy]
        exact (built.sound (hfile.push (lookup_ofArgs_ne_func args sig.params))
          (checked_function h hresolved hf hplaced)).1
    · have hblock : (block b).All (Sound funcs none) := by
        refine Sound.block (noVars ▸ .nil : Forall₂ t.DeclaredAs b.vars [])
          (fun p hp => (temps p hp).1) cleanup fun n hn => ?_
        rw [stats] at hn
        obtain ⟨p, hp, rfl⟩ := mem_map.mp hn
        exact (main p hp).sound (hfile.push b.lookup_frame_ne_func)
          (checked_main h (statements ▸ mem_map_of_mem hp))
      exact all_sound rfl trivial (forall_mem_singleton.mpr ⟨hblock, rfl⟩)

end Files

/-- **Models are well typed.**  In the model of a script without errors the node of every expression
has the type that the consumer of the expression sees, or the type of the expression itself where a
number is widened or spread over a vector, and all nodes obey the typing rules. -/
theorem built_well_typed (source : String) (report : Report)
    (h : (ofSource source report).report.hasErrors = false) :
    ∃ model, Node.ofScript (ofSource source report).script
        (ofSource source report).table = .ok model ∧
      ScriptBuiltFor (ofSource source report).table
        (ofSource source report).script model ∧
      (∀ (R : Lookup) (e : Expr) (n : Node), (BuiltFor R .used e n → n.ty? = e.effectiveTy) ∧
        (BuiltFor R .own e n → n.ty? = e.ty)) ∧
      model.WellTypedFile := by
  obtain ⟨base, hacc⟩ := accepted h
  have hresolved := resolved h
  obtain ⟨model, hmodel, -, hbuilt, -⟩ := hacc.builtFor
  exact ⟨model, hmodel, hbuilt, fun R e n => ⟨BuiltFor.ty?_used, fun hown => hown.of_own.1⟩,
    hbuilt.wellTyped hacc.scriptReady hresolved⟩

/-- A script with numbers that are widened and spread over vectors, and calls of later functions. -/
def mixedNumbers : String :=
  "var v = [1, 2.5] * 2 + scale(3, [1])\n" ++
  "func scale(x : float, w : []) : [] \x7b if (w[1] < x) \x7b return x * w \x7d return -w \x7d\n" ++
  "v[1] = 2\nprint(v == scale(1, v) && !(\"a\" + \"b\" == \"ab\"))\n"

set_option maxRecDepth 20000 in
/-- The script with mixed numbers is accepted, and its model is well typed. -/
theorem built_well_typed_mixedNumbers : (ofSource mixedNumbers {}).report.hasErrors = false ∧
      ∃ model, Node.ofScript (ofSource mixedNumbers {}).script
          (ofSource mixedNumbers {}).table = .ok model ∧
        ScriptBuiltFor (ofSource mixedNumbers {}).table
          (ofSource mixedNumbers {}).script model ∧
        (∀ (R : Lookup) (e : Expr) (n : Node), (BuiltFor R .used e n → n.ty? = e.effectiveTy) ∧
          (BuiltFor R .own e n → n.ty? = e.ty)) ∧
        model.WellTypedFile :=
  have haccepted : (ofSource mixedNumbers {}).report.hasErrors = false := by decide +kernel
  ⟨haccepted, built_well_typed mixedNumbers {} haccepted⟩

end WichToC

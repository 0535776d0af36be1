import WichToC.Model.Build
import WichToC.Proofs.Acceptance
import WichToC.Proofs.Model
import WichToC.Proofs.Naming

/-!
# What building a model yields

A script without errors can be built: every expression has a type by its rule, so no step of
building fails.  What is built has the shape that later passes rely on.  Expressions are made of the
nodes of expressions with all their operands, the temporaries that are reserved in a function are
different from each other and from all variables, and a temporary is read only where it is bound.

`Build.Builds` states what a step of building yields from given names; it goes through the steps one
by one.  This module has the steps that hand out names, and what the types of operands say of
widening.
-/

namespace WichToC

open List Fresh Operator Node

variable {e : Expr} {op : Operator} {l r ty wide source : Ty} {common : Option Ty} {x : String}

/-! ## Names -/

/-- A name of a temporary that is no name of the program. -/
def IsTemp (t : Table) (name : String) : Prop :=
  ∃ n, name = temporary n ∧ name ∉ t.names

/-- A C name of a variable: a name of the program or a variant of one. -/
def IsVarName (t : Table) (name : String) : Prop :=
  name ∈ t.names ∨ ∃ base n, name = variant base n

/-- Temporaries are no variables. -/
theorem IsTemp.ne {t : Table} {temp name : String} (h : IsTemp t temp) (hv : IsVarName t name) :
    temp ≠ name := by
  obtain ⟨n, rfl, hnot⟩ := h
  rintro rfl
  rcases hv with hv | ⟨base, m, hv⟩
  · exact hnot hv
  · exact temporary_ne_variant hv

/-- Different temporaries with numbers from `lo` to `hi`. -/
structure Reserves (t : Table) (lo hi : Nat) (names : List String) : Prop where
  le : lo ≤ hi
  nodup : names.Nodup
  temp : ∀ name ∈ names, ∃ n, lo ≤ n ∧ n < hi ∧ name = temporary n ∧ name ∉ t.names

namespace Reserves

variable {t : Table} {lo mid hi : Nat} {names names' : List String}

theorem nil (h : lo ≤ hi) : Reserves t lo hi [] := ⟨h, .nil, nofun⟩

theorem append (h : Reserves t lo mid names) (h' : Reserves t mid hi names') :
    Reserves t lo hi (names ++ names') where
  le := Nat.le_trans h.le h'.le
  nodup := by
    refine nodup_append.mpr ⟨h.nodup, h'.nodup, fun a ha b hb heq => ?_⟩
    obtain ⟨m, -, hm, hma, -⟩ := h.temp a ha
    obtain ⟨n, hn, -, hnb, -⟩ := h'.temp b hb
    have := temporary_injective (hma.symm.trans (heq.trans hnb))
    omega
  temp := by
    intro name hname
    rcases mem_append.mp hname with hname | hname
    · obtain ⟨n, hlo, hlt, heq, hnot⟩ := h.temp name hname
      exact ⟨n, hlo, Nat.lt_of_lt_of_le hlt h'.le, heq, hnot⟩
    · obtain ⟨n, hlo, hlt, heq, hnot⟩ := h'.temp name hname
      exact ⟨n, Nat.le_trans h.le hlo, hlt, heq, hnot⟩

theorem perm (h : Reserves t lo hi names) (hperm : names.Perm names') : Reserves t lo hi names' :=
  ⟨h.le, hperm.nodup_iff.mp h.nodup, fun name hname => h.temp name (hperm.mem_iff.mpr hname)⟩

theorem isTemp (h : Reserves t lo hi names) : ∀ name ∈ names, IsTemp t name := by
  intro name hname
  obtain ⟨n, -, -, heq, hnot⟩ := h.temp name hname
  exact ⟨n, heq, hnot⟩

end Reserves

/-! ## Reserved and free temporaries -/

namespace Node

/-- The names that a node reserves, without those of its children. -/
def ownNames : Node → List String
  | bind name .. => [name]
  | assign _ _ capture _ | returnStat _ capture _ => [capture]
  | n => n.temp?.toList

/-- The names that a node and all nodes inside it reserve. -/
def reserved (n : Node) : List String := n.collect ownNames

theorem reserved_eq (n : Node) : n.reserved = n.children.flatMap reserved ++ n.ownNames :=
  n.collect_eq ownNames

theorem nodup_reserved_child {n c : Node} (h : n.reserved.Nodup) (hc : c ∈ n.children) :
    c.reserved.Nodup := by
  rw [reserved_eq] at h
  grind

theorem mem_reserved_own {n : Node} (hx : x ∈ n.ownNames) : x ∈ n.reserved := by
  rw [reserved_eq]
  exact mem_append_right _ hx

theorem mem_reserved_child {n c : Node} (hc : c ∈ n.children) (hx : x ∈ c.reserved) :
    x ∈ n.reserved := by
  rw [reserved_eq]
  grind

/-- What an expression says of the temporaries that it reads, given that for its children. -/
def freeStep (n : Node) (slots : List (Slot (List String))) : List String :=
  match n, slots with
  | varRef name _ true, _ => [name]
  | bind name .., [.single value, .single body] =>
    value.getD [] ++ (body.getD []).filter (· ≠ name)
  | _, slots => (slots.flatMap Slot.toList).flatten

/-- The temporaries that an expression reads without binding them. -/
def freeTemps (n : Node) : List String := n.fold freeStep

theorem freeTemps_bind (name : String) (ty : Ty) (v b : Node) :
    (bind name ty (some v) (some b)).freeTemps =
      v.freeTemps ++ b.freeTemps.filter (· ≠ name) := by
  rw [freeTemps, fold_eq]
  rfl

/-- The nodes of expressions: operands are there, a heap value comes from an operation that makes
one, variables have the names of variables, and what is bound is used. -/
def IsExprNode (t : Table) : Node → Prop
  | literal kind _ temp => temp.isSome ↔ kind = .string
  | varRef name _ isTemp => isTemp = false → IsVarName t name
  | vectorLit .. | call .. => True
  | binary kind op ty operandTy _ left right => left.isSome ∧ right.isSome ∧
      (ty.isHeap → kind = .string ∨ kind = .vector) ∧
      (op = "&&" ∨ op = "||" → kind = .int ∧ ty = .boolean ∧ operandTy = .boolean)
  | unary kind ty _ expr => expr.isSome ∧ (ty.isHeap → kind = .negate)
  | length _ _ expr => expr.isSome
  | widen kind ty _ expr _ => expr.isSome ∧ (ty.isHeap → kind ≠ .intToFloat)
  | index kind ty _ expr i => expr.isSome ∧ i.isSome ∧ (ty.isHeap → kind = .string)
  | bind name ty value body => ty = .vector ∧ (∃ v, value = some v ∧ v.ty? = some .vector) ∧
      ∃ b, body = some b ∧ b.ty? = some .vector ∧ name ∈ b.freeTemps
  | _ => False

end Node

namespace Build

variable {n : Node}

/-! ## Steps of building -/

/-- A step succeeds from the given names, with a result and names as stated. -/
def Builds {α : Type} (b : Builder α) (names : Names) (post : α → Names → Prop) : Prop :=
  ∃ a names', b names = .ok (a, names') ∧ post a names'

namespace Builds

variable {α β : Type} {names : Names} {P : α → Names → Prop} {Q : β → Names → Prop}

theorem pure {a : α} (h : P a names) : Builds (Pure.pure a) names P := ⟨a, names, rfl, h⟩

theorem bind {b : Builder α} {f : α → Builder β} (hb : Builds b names P)
    (hf : ∀ a names', P a names' → Builds (f a) names' Q) : Builds (b >>= f) names Q := by
  obtain ⟨a, names', hb, ha⟩ := hb
  obtain ⟨c, names'', hf, hc⟩ := hf a names' ha
  refine ⟨c, names'', ?_, hc⟩
  show (b names >>= fun r => f r.1 r.2) = _
  rw [hb]
  exact hf

theorem imp {b : Builder α} {P' : α → Names → Prop} (hb : Builds b names P)
    (h : ∀ a names', P a names' → P' a names') : Builds b names P' := by
  obtain ⟨a, names', hb, ha⟩ := hb
  exact ⟨a, names', hb, h a names' ha⟩

end Builds

/-- The names of the program are taken, and renamed variables have variants as names. -/
structure Names.Good (t : Table) (names : Names) : Prop where
  covers : ∀ name ∈ t.names, name ∈ names.taken
  renamed : ∀ p ∈ names.renamed,
    (∃ base n, p.2 = variant base n) ∧ p.2 ∈ names.taken ∧ p.2 ∉ t.names

/-- Names from which only the number of the next temporary and the bound temporaries differ. -/
structure Names.Advances (names names' : Names) : Prop where
  taken : names'.taken = names.taken
  renamed : names'.renamed = names.renamed

theorem Names.Good.advance {t : Table} {names names' : Names} (h : names.Good t)
    (hadv : names.Advances names') : names'.Good t where
  covers name hname := by rw [hadv.taken]; exact h.covers name hname
  renamed p hp := by
    rw [hadv.taken]
    rw [hadv.renamed] at hp
    exact h.renamed p hp

variable {t : Table} {names : Names}

/-- Names to which at most bound temporaries were added. -/
structure Names.Adds (names names' : Names) : Prop where
  taken : names'.taken = names.taken
  renamed : names'.renamed = names.renamed
  scratch : ∀ p ∈ names.scratch, p ∈ names'.scratch
  fresh : ∀ p ∈ names'.scratch, p ∈ names.scratch ∨
    ∃ n, p.1 = temporary n ∧ p.1 ∉ names.taken

namespace Names.Adds

variable {names' : Names}

theorem refl (names : Names) : names.Adds names := ⟨rfl, rfl, fun _ h => h, fun _ h => .inl h⟩

theorem trans {names'' : Names} (h : names.Adds names') (h' : names'.Adds names'') :
    names.Adds names'' where
  taken := h'.taken.trans h.taken
  renamed := h'.renamed.trans h.renamed
  scratch p hp := h'.scratch p (h.scratch p hp)
  fresh p hp := by
    rcases h'.fresh p hp with hp | hp
    · exact h.fresh p hp
    · exact .inr (h.taken ▸ hp)

theorem advances (h : names.Adds names') : names.Advances names' := ⟨h.taken, h.renamed⟩

end Names.Adds

/-- A temporary that was reserved, and the names before and after that. -/
structure NewTemp (names : Names) (temp : String) (names' : Names) : Prop where
  adds : names.Adds names'
  scratch : names'.scratch = names.scratch
  fresh : ∃ n, temp = temporary n ∧ temp ∉ names.taken

theorem newTemp_builds : Builds newTemp names (NewTemp names) :=
  ⟨_, _, rfl, ⟨rfl, rfl, fun _ h => h, fun _ h => .inl h⟩, rfl, _, rfl,
    candidate_first_not_mem temporary_injective _⟩

theorem cName_builds (symbol : Option SymbolId) (name : String) :
    Builds (cName symbol name) names fun c names' =>
      names = names' ∧ c = (symbol.bind fun id => names.renamed.lookup id).getD name :=
  ⟨_, names, rfl, rfl, rfl⟩

/-- A name of the program stands for a variable under its C name. -/
theorem Names.Good.isVarName (h : names.Good t) {name : String} (hname : name ∈ t.names)
    (symbol : Option SymbolId) :
    IsVarName t ((symbol.bind fun id => names.renamed.lookup id).getD name) := by
  cases hlookup : symbol.bind fun id => names.renamed.lookup id with
  | none => exact .inl hname
  | some c =>
    obtain ⟨id, -, hc⟩ := Option.bind_eq_some_iff.mp hlookup
    obtain ⟨l, r, hmem, -⟩ := lookup_eq_some_iff.mp hc
    exact .inr (h.renamed (id, c) (by rw [hmem]; simp)).1

theorem freeTemps_eq (hbind : n.kind ≠ .bind) (hvar : n.kind ≠ .varRef) :
    n.freeTemps = n.children.flatMap freeTemps := by
  have hstep : ∀ slots, freeStep n slots = (slots.flatMap Slot.toList).flatten := by
    intro slots
    unfold freeStep
    split
    · exact absurd rfl hvar
    · exact absurd rfl hbind
    · rfl
  rw [freeTemps, fold_eq, hstep, children]
  induction n.slots with
  | nil => rfl
  | cons s ss ih =>
    simp only [map_cons, flatMap_cons, flatten_append, ih, Slot.toList_mapChildren, flatMap_append]
    rw [flatMap_def]
    rfl

end Build

/-! ## Widening -/

/-- The only widening of a value is from `int` to `float`. -/
def Annotated.WidensValue (e : Expr) : Prop :=
  e.promoteTo = none ∨ e.ty = some .int ∧ e.promoteTo = some .float

theorem Annotated.widensValue_of_assignable {target : Ty} (hty : e.ty = some source)
    (hassign : source.assignable target) (hwide : e.WidenedTo target) : e.WidensValue := by
  unfold WidenedTo at hwide
  split at hwide
  · exact .inl hwide
  · rename_i hne
    simp only [Ty.assignable, Bool.or_eq_true, decide_eq_true_eq, Bool.and_eq_true] at hassign
    rcases hassign with rfl | ⟨rfl, rfl⟩
    · exact absurd hty hne
    · exact .inr ⟨hty, hwide⟩

/-- Operands are widened to the common type of their arithmetic. -/
theorem arithmetic_of_typing
    (h : op.typing l r = .result ty (some wide)) : Ty.arithmetic? l r = some wide := by
  generalize hcommon : some wide = common at h
  cases typed_of_typing h with
  | arithmetic _ _ _ harith => exact harith
  | compare => rfl
  | join | equate | logical => cases hcommon

theorem arithmetic_of_vector (h : Ty.arithmetic? l r = some .vector) :
    l = .vector ∨ r = .vector := by
  cases l <;> cases r <;> simp [Ty.arithmetic?, Ty.rank?] at h ⊢

/-- Operands that are not widened have one type. -/
theorem operands_of_none (h : op.typing l r = .result ty none) : l = r := by
  generalize hcommon : none = common at h
  cases typed_of_typing h with
  | join | equate | logical => rfl
  | arithmetic => cases hcommon
  | compare _ hl hr =>
    cases l <;> cases hl <;> cases r <;> cases hr <;> cases hcommon

/-- An operand is widened as a value, or it is a number that is spread over a vector. -/
theorem widensOperand_of_typing
    (h : op.typing l r = .result ty (some wide)) (hsource : source = l ∨ source = r)
    (hty : e.ty = some source) (hwide : e.WidenedTo wide) :
    e.WidensValue ∨ e.promoteTo = some .vector ∧ e.ty ≠ some .vector := by
  have harith := arithmetic_of_typing h
  unfold Annotated.WidenedTo at hwide
  split at hwide
  · exact .inl (.inl hwide)
  · rename_i hne
    rw [hty] at hne
    cases l <;> cases r <;> simp [Ty.arithmetic?, Ty.rank?] at harith <;> subst harith <;>
      rcases hsource with rfl | rfl <;> simp_all [Annotated.WidensValue]

section

variable (h : op.typing l r = .result ty common)

include h

/-- A heap value comes from two strings or from arithmetic with a vector. -/
theorem operands_of_heap (hty : ty.isHeap) :
    (l = .string ∧ common = none) ∨ (common = some .vector ∧ (l = .vector ∨ r = .vector)) := by
  cases typed_of_typing h with
  | join => exact .inl ⟨rfl, rfl⟩
  | arithmetic _ hl hr harith =>
    cases l <;> cases r <;> simp [Ty.arithmetic?, Ty.rank?] at harith <;> subst harith <;>
      simp_all [Ty.isHeap]
  | compare | equate | logical => cases hty

/-- An operation on a vector gives a vector, unless it compares two of them. -/
theorem typing_of_vector (hvector : l = .vector ∨ r = .vector) :
    ty = .vector ∨ (l = r ∧ common = none) := by
  cases typed_of_typing h with
  | join | equate | logical => exact .inr ⟨rfl, rfl⟩
  | arithmetic _ _ _ harith =>
    left
    cases l <;> cases r <;> simp [Ty.arithmetic?, Ty.rank?] at harith hvector <;> exact harith.symm
  | compare _ hl hr => rcases hvector with rfl | rfl <;> contradiction

/-- Truth values are connected. -/
theorem operands_of_logical (hop : op.family = .logical) :
    ty = .boolean ∧ l = .boolean ∧ r = .boolean ∧ common = none := by
  cases typed_of_typing h with
  | join hplus => subst hplus; cases hop
  | arithmetic hfamily | equate hfamily => cases hfamily.symm.trans hop
  | compare hfamily => grind
  | logical => exact ⟨rfl, rfl, rfl, rfl⟩

end

/-- What has the type already is not widened. -/
theorem Annotated.WidenedTo.eq_none (h : e.WidenedTo ty)
    (hty : e.ty = some ty) : e.promoteTo = none := by
  unfold WidenedTo at h
  rwa [if_pos hty] at h

end WichToC

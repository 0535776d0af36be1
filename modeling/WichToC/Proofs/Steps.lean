import WichToC.Proofs.Typing

/-!
# What typing a script yields

Statements are typed in the order in which they stand in the source, whatever their nesting, and
each of them sees the types that variables have at that moment.  `Typing.Step` says what typing one
statement, without its blocks, does to the table; `Typing.Steps` is a run of such steps, and
`Typing.items_types` gives the run for the items of a script.
-/

namespace WichToC

open List Annotated Located Declare Table

variable {ss' ss : List Stmt} {s s' : Stmt} {v : Variable} {symbol : Option SymbolId} {span : Span}
    {id : SymbolId}

/-! ## Steps -/

/-- An expression and its parts have types by their rules, and it can be used as a value. -/
structure Annotated.Value (t : Table) (e : Expr) : Prop where
  ruled : e.Ruled t
  isValue : e.IsValue

namespace Typing

variable {t t' : Table} {ss : List Stmt} {k : StmtKind} {id : SymbolId}

/-- What typing one statement does, apart from the statements in its blocks: its expressions have
types by the rules in the table before, and a definition or the first assignment to a variable gives
the variable a type. -/
inductive Step (t : Table) : StmtKind → Table → Prop
  | define {name : String} {value : Expr} {id : SymbolId} {v : Variable} {ty : Ty}
      (var : t.var? id = some v) (named : v.name = name) (notParam : v.isParameter = false)
      (typed : value.Value t)
      (given : value.ty = some ty) (widening : value.promoteTo = none) :
      Step t (.define name value (some id)) (t.setVariableTy id ty)
  | assignFirst {name : String} {value : Expr} {id : SymbolId} {v : Variable} {ty : Ty}
      (var : t.var? id = some v) (named : v.name = name) (untyped : v.ty = none)
      (typed : value.Value t)
      (given : value.ty = some ty) (widening : value.promoteTo = none) :
      Step t (.assign name value (some id)) (t.setVariableTy id ty)
  | assign {name : String} {value : Expr} {id : SymbolId} {v : Variable} {expected source : Ty}
      (var : t.var? id = some v) (named : v.name = name) (ty : v.ty = some expected)
      (typed : value.Value t)
      (given : value.ty = some source) (assignable : source.assignable expected)
      (widening : value.WidenedTo expected) :
      Step t (.assign name value (some id)) t
  | assignElement {name : String} {i value : Expr} {id : SymbolId} {v : Variable}
      (var : t.var? id = some v) (named : v.name = name) (ty : v.ty = some .vector)
      (place : i.Ruled t) (placeTy : i.ty = some .int) (placeWidening : i.promoteTo = none)
      (typed : value.Value t)
      (given : value.ty = some .int ∨ value.ty = some .float)
      (widening : value.WidenedTo .float) :
      Step t (.assignElement name i value (some id)) t
  | ifElse {cond : Expr} {thenBlock : Block} {elseBlock : Option Block} (typed : cond.Value t)
      (given : cond.ty = some .boolean) (widening : cond.promoteTo = none) :
      Step t (.ifElse cond thenBlock elseBlock) t
  | loop {cond : Expr} {body : Block} (typed : cond.Value t) (given : cond.ty = some .boolean)
      (widening : cond.promoteTo = none) : Step t (.loop cond body) t
  | call {c : Expr} (typed : c.Ruled t) (widening : c.promoteTo = none)
      (notName : c.kind.isName = false) : Step t (.call c) t
  | printNothing : Step t (.print none) t
  | print {value : Expr} (typed : value.Value t) (widening : value.promoteTo = none) :
      Step t (.print (some value)) t
  | ret {value : Expr} {source target : Ty} (typed : value.Value t)
      (given : value.ty = some source) (assignable : source.assignable target)
      (widening : value.WidenedTo target) :
      Step t (.ret value) t
  | block {b : Block} : Step t (.block b) t

/-- A run of steps over statements in the order in which they stand in the source. -/
inductive Steps : Table → List Stmt → Table → Prop
  | nil {t : Table} : Steps t [] t
  | cons {t t₁ t₂ : Table} {s : Stmt} {ss : List Stmt} (step : Step t s.kind t₁)
      (rest : Steps t₁ ss t₂) : Steps t (s :: ss) t₂

theorem Steps.append {t₁ t₂ : Table} (h₁ : Steps t ss t₁)
    (h₂ : Steps t₁ ss' t₂) : Steps t (ss ++ ss') t₂ := by
  induction h₁ with
  | nil => exact h₂
  | cons step _ ih => exact .cons step (ih h₂)

/-- Only the types of variables that are no parameters change. -/
theorem Step.retypes (hclean : t.Clean) (h : Step t k t') : t.Retypes t' := by
  cases h with
  | define var _ notParam => exact retypes_setVariableTy var notParam
  | @assignFirst _ _ _ v _ var _ untyped =>
    apply retypes_setVariableTy var
    cases hp : v.isParameter with
    | false => rfl
    | true =>
      obtain ⟨ty, hty⟩ := hclean.param var hp
      rw [hty] at untyped
      cases untyped
  | _ => exact .refl t

/-- A variable gets the type of a value. -/
theorem clean_setVariableTy {ty : Ty} (hclean : t.Clean)
    (hty : ty ≠ .error) (hret : t.Retypes (t.setVariableTy id ty)) :
    (t.setVariableTy id ty).Clean where
  ty := by
    intro i v hv
    rw [var?_setVariableTy] at hv
    split at hv
    · obtain ⟨w, -, rfl⟩ := Option.map_eq_some_iff.mp hv
      exact fun h => hty (Option.some.inj h)
    · exact hclean.ty hv
  param := by
    intro i v hv hp
    obtain ⟨w, hw, hvw, hsame, -⟩ := hret.var?_back hv
    have hpw : w.isParameter = true := by rw [hvw] at hp; exact hp
    rw [hsame hpw]
    exact hclean.param hw hpw
  returnTy := by
    intro i f hf
    rw [hret.func?] at hf
    exact hclean.returnTy hf
  params := by
    intro i f hf p hp
    rw [hret.func?] at hf
    obtain ⟨v, hv, hparam⟩ := hclean.params hf p hp
    obtain ⟨ty, hv', -⟩ := hret.var? hv
    exact ⟨_, hv', hparam⟩

theorem Step.clean (hclean : t.Clean) (h : Step t k t') : t'.Clean := by
  have hret := h.retypes hclean
  cases h with
  | define _ _ _ typed given | assignFirst _ _ _ typed given =>
    obtain ⟨ty, hty, -, hne⟩ := typed.isValue
    rw [given] at hty
    cases hty
    exact clean_setVariableTy hclean hne hret
  | _ => exact hclean

theorem Steps.retypes_clean (hclean : t.Clean) (h : Steps t ss t') : t.Retypes t' ∧ t'.Clean := by
  induction h with
  | nil => exact ⟨.refl _, hclean⟩
  | cons step _ ih =>
    obtain ⟨hret, hclean'⟩ := ih (step.clean hclean)
    exact ⟨(step.retypes hclean).trans hret, hclean'⟩

/-- Every statement of a run was typed by a step. -/
theorem Steps.step_of_mem (h : Steps t ss t') (hclean : t.Clean) {n : Stmt} (hn : n ∈ ss) :
    ∃ t₁ t₂, t₁.Retypes t' ∧ Step t₁ n.kind t₂ := by
  induction h with
  | nil => cases hn
  | @cons t t₁ t₂ s ss step rest ih =>
    rcases mem_cons.mp hn with rfl | hn
    · exact ⟨t, t₁, (step.retypes hclean).trans (rest.retypes_clean (step.clean hclean)).1, step⟩
    · exact ih (step.clean hclean) hn

/-! ## What a step leaves alone -/

/-- A variable with a type keeps it, unless the statement defines the variable. -/
theorem Step.keeps (h : Step t s.kind t')
    (hv : t.var? id = some v) (hty : v.ty.isSome) (hid : s.defined? ≠ some id) :
    t'.var? id = some v := by
  generalize hk : s.kind = k at h
  cases h with
  | @define _ _ i _ _ var =>
    have hne : id ≠ i := by
      rintro rfl
      exact hid (by simp [defined?, hk])
    rw [var?_setVariableTy, if_neg hne, hv]
  | @assignFirst _ _ i w _ var _ untyped =>
    have hne : id ≠ i := by grind
    rw [var?_setVariableTy, if_neg hne, hv]
  | _ => exact hv

theorem Steps.keeps (h : Steps t ss t')
    (hv : t.var? id = some v) (hty : v.ty.isSome) (hid : id ∉ definedIds ss) :
    t'.var? id = some v := by
  induction h with
  | nil => exact hv
  | @cons _ _ _ s ss step _ ih =>
    rw [definedIds_cons, mem_append, not_or] at hid
    refine ih (step.keeps hv hty fun hs => hid.1 ?_) hid.2
    simp [definedIds, hs]

/-- A variable ends with the type of the value of its definition. -/
theorem Steps.var?_of_define (h : Steps t ss t') (hnodup : (definedIds ss).Nodup)
    {d : Stmt} (hd : d ∈ ss) {n : String} {value : Expr}
    (hk : d.kind = .define n value symbol) :
    ∃ id v ty, symbol = some id ∧ t'.var? id = some v ∧ v.ty = some ty ∧
      value.effectiveTy = some ty := by
  induction h with
  | nil => cases hd
  | @cons t t₁ t₂ s ss step rest ih =>
    rw [definedIds_cons, nodup_append] at hnodup
    rcases mem_cons.mp hd with rfl | hd
    · rw [hk] at step
      cases step with
      | @define _ _ id v ty var _ _ _ given widening =>
        have hv : (t.setVariableTy id ty).var? id = some { v with ty := some ty } := by
          rw [var?_setVariableTy, if_pos rfl, var]
          rfl
        have hid : id ∉ definedIds ss := fun hmem =>
          hnodup.2.2 id (by simp [definedIds, defined?, hk]) id hmem rfl
        exact ⟨id, _, ty, rfl, rest.keeps hv rfl hid, rfl,
          (effectiveTy_of_promoteTo widening).trans given⟩
    · exact ih hnodup.2.1 hd

/-- All expressions of a typed statement have types by the rules. -/
theorem Step.ruled (h : Step t k t') : ∀ e ∈ k.exprs, e.Ruled t := by
  cases h <;> simp only [StmtKind.exprs, Option.toList_some, Option.toList_none, mem_cons,
    not_mem_nil, or_false, forall_eq_or_imp, forall_eq, false_imp_iff, implies_true]
  case define typed _ _ | assignFirst typed _ _ | assign typed _ _ _ | ifElse typed _ _ |
      loop typed _ _ | print typed _ | ret typed _ _ _ => exact typed.ruled
  case assignElement place _ _ typed _ _ => exact ⟨place, typed.ruled⟩
  case call typed _ _ => exact typed

end Typing

/-! ## Statements -/

/-- The variable to which a statement assigns: its name and its symbol. -/
def StmtKind.target? : StmtKind → Option (String × Option SymbolId)
  | .assign name _ symbol | .assignElement name _ _ symbol => some (name, symbol)
  | _ => none

/-- All names of a statement and of the statements inside it have the symbols that they stand for in
their scopes, and what is returned has the result type of the function around. -/
inductive Located.Resolves (t : Table) : ScopeId → Stmt → Prop
  | intro {scope : ScopeId} {s : Stmt} (exprs : ∀ e ∈ s.kind.exprs, e.Resolves t scope)
      (target : ∀ {name symbol}, s.kind.target? = some (name, symbol) →
        symbol = t.resolve scope name)
      (ret : ∀ {value}, s.kind = .ret value → ∀ {id f}, t.enclosingFunction scope = some id →
        t.func? id = some f → value.effectiveTy = some f.returnTy)
      (inside : ∀ b ∈ s.kind.blocks, ∀ inner, b.scope = some inner →
        ∀ c ∈ b.statements, Resolves t inner c) :
      Resolves t scope s

/-- A statement and the statements inside it return only from functions. -/
inductive Located.Returns (t : Table) : ScopeId → Stmt → Prop
  | intro {scope : ScopeId} {s : Stmt}
      (ret : ∀ {value}, s.kind = .ret value → ∃ id, t.enclosingFunction scope = some id)
      (inside : ∀ b ∈ s.kind.blocks, ∀ inner, b.scope = some inner →
        ∀ c ∈ b.statements, Returns t inner c) :
      Returns t scope s

theorem Annotated.Resolves.before {t t' : Table} {scope : ScopeId} {e : Expr}
    (h : e.Resolves t' scope) (hret : t.Retypes t') : e.Resolves t scope := by
  intro n hn
  have hself := h n hn
  unfold ExprKind.Resolves at hself ⊢
  split <;> simp_all [hret.resolve]

/-- What typing makes of a statement, apart from the statements in its blocks. -/
structure Located.Fits (base : Table) (scope : ScopeId) (s s' : Stmt) : Prop where
  define : ∀ {name value symbol}, s'.kind = .define name value symbol →
    ∃ value', s.kind = .define name value' symbol
  defined : s'.defined? = s.defined?
  exprs : ∀ e ∈ s'.kind.exprs, e.Resolves base scope
  target : ∀ {name symbol}, s'.kind.target? = some (name, symbol) → symbol = base.resolve scope name
  ret : ∀ {value}, s'.kind = .ret value → ∃ id, base.enclosingFunction scope = some id ∧
    ∀ {f}, base.func? id = some f → value.effectiveTy = some f.returnTy

namespace Typing

/-- What typing statements of a scope without a fault yields; `base` is the table after declaring,
with the scopes and symbols that the statements were given there. -/
structure Types (base : Table) (scope : ScopeId) (t : Table) (ss tree : List Stmt) (t' : Table) :
    Prop where
  steps : Steps t (tree.flatMap nodes) t'
  placed : ∀ s ∈ tree, s.Placed base scope
  resolves : ∀ s ∈ tree, s.Resolves base scope
  returns : ∀ s ∈ tree, s.Returns base scope
  ids : definedIds tree = definedIds ss
  allIds : allDefinedIds tree = allDefinedIds ss

/-- What typing a block yields. -/
structure TypesBlock (base t : Table) (b tree : Block) (t' : Table) : Prop where
  scope : tree.scope = b.scope
  steps : Steps t tree.nodes t'
  placed : ∀ inner, b.scope = some inner → ∀ s ∈ tree.statements, s.Placed base inner
  resolves : ∀ inner, b.scope = some inner → ∀ s ∈ tree.statements, s.Resolves base inner
  returns : ∀ inner, b.scope = some inner → ∀ s ∈ tree.statements, s.Returns base inner
  ids : definedIds tree.statements = definedIds b.statements
  allIds : definedIds tree.nodes = definedIds b.nodes

/-- What typing blocks one after the other yields. -/
inductive TypesBlocks (base : Table) : Table → List Block → List Block → Table → Prop
  | nil {t : Table} : TypesBlocks base t [] [] t
  | cons {t t₁ t₂ : Table} {b b' : Block} {bs bs' : List Block}
      (first : TypesBlock base t b b' t₁) (rest : TypesBlocks base t₁ bs bs' t₂) :
      TypesBlocks base t (b :: bs) (b' :: bs') t₂

namespace TypesBlocks

variable {base t t' : Table} {bs bs' : List Block}

section

variable (h : TypesBlocks base t bs bs' t')

include h

theorem steps : Steps t (bs'.flatMap BlockOf.nodes) t' := by
  induction h with
  | nil => exact .nil
  | cons first _ ih => exact first.steps.append ih

theorem allIds :
    definedIds (bs'.flatMap BlockOf.nodes) = definedIds (bs.flatMap BlockOf.nodes) := by
  induction h with
  | nil => rfl
  | cons first _ ih =>
    have hfirst := first.allIds
    simp only [definedIds, flatMap_cons, filterMap_append] at hfirst ih ⊢
    rw [hfirst, ih]

theorem exists_of_mem {b' : Block} (hb : b' ∈ bs') :
    ∃ b ∈ bs, ∃ t₁ t₂, TypesBlock base t₁ b b' t₂ := by
  induction h with
  | nil => cases hb
  | cons first _ ih => grind

end

end TypesBlocks

namespace Types

variable {base t t' t'' : Table} {scope : ScopeId}

theorem nil : Types base scope t [] [] t := ⟨.nil, nofun, nofun, nofun, rfl, rfl⟩

theorem cons (h₁ : Types base scope t [s] [s'] t')
    (h₂ : Types base scope t' ss ss' t'') : Types base scope t (s :: ss) (s' :: ss') t'' where
  steps := by
    have hfirst : Steps t s'.nodes t' := by simpa using h₁.steps
    exact hfirst.append h₂.steps
  placed := forall_mem_cons.mpr ⟨h₁.placed s' (.head _), h₂.placed⟩
  resolves := forall_mem_cons.mpr ⟨h₁.resolves s' (.head _), h₂.resolves⟩
  returns := forall_mem_cons.mpr ⟨h₁.returns s' (.head _), h₂.returns⟩
  ids := by rw [definedIds_cons, h₁.ids, h₂.ids, ← definedIds_cons]
  allIds := by rw [allDefinedIds_cons, h₁.allIds, h₂.allIds, ← allDefinedIds_cons]

/-- A statement is typed by a step and by typing its blocks. -/
theorem ofBlocks {t₁ : Table} (hplaced : s.Placed base scope)
    (hfits : s.Fits base scope s') (hstep : Step t s'.kind t₁)
    (hblocks : TypesBlocks base t₁ s.kind.blocks s'.kind.blocks t') :
    Types base scope t [s] [s'] t' := by
  obtain ⟨define, scopes, inside⟩ := hplaced
  constructor
  case steps =>
    rw [flatMap_cons, flatMap_nil, append_nil, Located.nodes_eq]
    exact .cons hstep hblocks.steps
  case placed =>
    intro c hc
    obtain rfl := mem_singleton.mp hc
    refine .intro ?_ ?_ ?_
    · intro name value symbol hk
      obtain ⟨value', hk'⟩ := hfits.define hk
      exact define hk'
    · intro b' hb'
      obtain ⟨b, hb, _, _, h⟩ := hblocks.exists_of_mem hb'
      obtain ⟨inner, hinner, henc, hids⟩ := scopes b hb
      exact ⟨inner, h.scope.trans hinner, henc, hids.trans h.ids.symm⟩
    · intro b' hb' inner hinner
      obtain ⟨b, hb, _, _, h⟩ := hblocks.exists_of_mem hb'
      exact h.placed inner (h.scope.symm.trans hinner)
  case resolves =>
    refine forall_mem_singleton.mpr
      (.intro hfits.exprs hfits.target ?_ fun b' hb' inner hinner => ?_)
    · intro value hk id f hid hf
      obtain ⟨id', hid', hty⟩ := hfits.ret hk
      cases hid.symm.trans hid'
      exact hty hf
    · obtain ⟨b, hb, _, _, h⟩ := hblocks.exists_of_mem hb'
      exact h.resolves inner (h.scope.symm.trans hinner)
  case returns =>
    refine forall_mem_singleton.mpr (.intro (fun hk => ?_) fun b' hb' inner hinner => ?_)
    · obtain ⟨id, hid, -⟩ := hfits.ret hk
      exact ⟨id, hid⟩
    · obtain ⟨b, hb, _, _, h⟩ := hblocks.exists_of_mem hb'
      exact h.returns inner (h.scope.symm.trans hinner)
  case ids => simp only [definedIds, filterMap_cons, hfits.defined]
  case allIds =>
    have hids := hblocks.allIds
    simp only [allDefinedIds, definedIds, flatMap_cons, flatMap_nil, append_nil,
      nodes_eq s, nodes_eq s', filterMap_cons, hfits.defined] at hids ⊢
    rw [hids]

end Types

section Statements

variable {base t : Table} {scope : ScopeId} {e : Typed} {name : String}

theorem Typed.Valid.value (h : e.Valid t scope) (hvoid : e.ty ≠ .void) : e.expr.Value t :=
  ⟨h.ruled, h.isValue hvoid⟩

theorem Typed.Valid.value_promote (h : e.Valid t scope) (hvoid : e.ty ≠ .void) (target : Ty) :
    (e.expr.promote target).Value t :=
  ⟨h.ruled.promote target, (isValue_promote target).mpr (h.isValue hvoid)⟩

theorem condition_sound (hclean : t.Clean) (scope : ScopeId) {cond : Expr} (hu : cond.Unwidened)
    (hfaults : (condition t scope cond).2 = []) :
    (condition t scope cond).1.Value t ∧ (condition t scope cond).1.ty = some .boolean ∧
      (condition t scope cond).1.promoteTo = none ∧
        (condition t scope cond).1.Resolves t scope := by
  unfold condition at hfaults ⊢
  dsimp only at hfaults ⊢
  split at hfaults
  case isFalse => simp at hfaults
  case isTrue hty =>
    obtain ⟨hs, hvoid⟩ := value_sound hclean hu hfaults
    rw [if_pos hty]
    exact ⟨hs.value hvoid, hs.ty.trans (congrArg some (hty.resolve_right hs.ne_error)),
      hs.widening, hs.names⟩

theorem target_ok (h : target t scope span name = .ok (id, v)) :
    t.var? id = some v ∧ v.name = name ∧ t.resolve scope name = some id := by
  unfold target at h
  split at h
  · cases h
  · rename_i hid
    split at h
    · rename_i hv
      cases h
      exact ⟨hv, name_of_var? (name_of_resolve hid) hv, hid⟩
    · cases h

theorem assignment_sound (hclean : t.Clean) (span : Span)
    (he : e.faults = [] → e.Valid t scope ∧ e.ty ≠ .void)
    (hfaults : (assignment t scope span name e symbol).faults = []) :
    Step t (assignment t scope span name e symbol).tree
      (assignment t scope span name e symbol).table ∧ ∃ value, value.Resolves t scope ∧
        (assignment t scope span name e symbol).tree =
          .assign name value (t.resolve scope name) := by
  unfold assignment at hfaults ⊢
  split at hfaults
  case h_1 => simp at hfaults
  case h_2 id v htarget =>
    obtain ⟨hv, hname, hid⟩ := target_ok htarget
    rw [hid]
    dsimp only at hfaults ⊢
    split at hfaults
    case h_1 hnone =>
      obtain ⟨hs, hvoid⟩ := he hfaults
      exact ⟨.assignFirst hv hname hnone (hs.value hvoid) hs.ty hs.widening, _, hs.names, rfl⟩
    case h_2 expected hty =>
      have hexpected : expected ≠ .error := fun h => hclean.ty hv (h ▸ hty)
      by_cases herr : e.ty = .error
      · rw [if_pos (.inr herr)] at hfaults
        exact absurd herr (he hfaults).1.ne_error
      · rw [if_neg (by simp [hexpected, herr])] at hfaults ⊢
        split at hfaults
        case isFalse => simp at hfaults
        case isTrue hok =>
          obtain ⟨hs, hvoid⟩ := he hfaults
          rw [if_pos hok]
          exact ⟨.assign hv hname hty (hs.value_promote hvoid expected)
            ((ty_promote _ _).trans hs.ty) hok (widenedTo_promote hs.widening expected), _,
            hs.names.congr kind_promote, rfl⟩

theorem elementTarget_sound (hclean : t.Clean)
    (hfaults : (elementTarget t scope span name).2 = []) :
    ∃ id v, (elementTarget t scope span name).1 = some id ∧ t.resolve scope name = some id ∧
      t.var? id = some v ∧ v.name = name ∧ v.ty = some .vector := by
  unfold elementTarget at hfaults ⊢
  split at hfaults
  case h_1 => cases hfaults
  case h_2 id v htarget =>
    obtain ⟨hv, hname, hid⟩ := target_ok htarget
    split at hfaults
    case h_1 hty => exact ⟨id, v, rfl, hid, hv, hname, hty⟩
    case h_2 hty => exact absurd hty (hclean.ty hv)
    case h_3 => cases hfaults
    case h_4 => cases hfaults

theorem returning_sound (hclean : t.Clean) (span : Span)
    (he : e.faults = [] → e.Valid t scope ∧ e.ty ≠ .void)
    (hfaults : (returning t scope span e).2 = []) :
    Step t (returning t scope span e).1 t ∧
      ∃ value, value.Resolves t scope ∧ (returning t scope span e).1 = .ret value ∧
        ∃ id, t.enclosingFunction scope = some id ∧
          ∀ {f}, t.func? id = some f → value.effectiveTy = some f.returnTy := by
  unfold returning at hfaults ⊢
  split at hfaults
  case h_1 => simp at hfaults
  case h_2 id hid =>
    split at hfaults
    case h_1 hnone =>
      -- Without a return type to compare with the value keeps its own type.
      obtain ⟨hs, hvoid⟩ := he hfaults
      have hassign : e.ty.assignable e.ty := by simp [Ty.assignable]
      refine ⟨.ret (hs.value hvoid) hs.ty hassign ?_, _, hs.names, rfl, id, hid, fun hf => ?_⟩
      · rw [WidenedTo, hs.ty, if_pos rfl, hs.widening]
      · cases hnone.symm.trans hf
    case h_2 f hf =>
      split at hfaults
      case isTrue => simp at hfaults
      case isFalse hret =>
        rw [if_neg hret]
        split at hfaults
        case isTrue h => exact absurd h (not_or.mpr ⟨hclean.returnTy hf, (he hfaults).1.ne_error⟩)
        case isFalse h =>
          rw [if_neg h]
          split at hfaults
          case isFalse => simp at hfaults
          case isTrue hok =>
            obtain ⟨hs, hvoid⟩ := he hfaults
            have hwide := widenedTo_promote hs.widening f.returnTy
            rw [if_pos hok]
            refine ⟨.ret (hs.value_promote hvoid f.returnTy)
              ((ty_promote _ _).trans hs.ty) hok hwide,
              _, hs.names.congr kind_promote, rfl, id, hid, fun hf' => ?_⟩
            cases hf.symm.trans hf'
            exact hwide.effectiveTy

/-- Typing a statement yields what `Types` says, in every table with other types of variables than
the table after declaring. -/
def StmtTypes (base : Table) (s : Stmt) : Prop :=
  ∀ (scope : ScopeId) (t : Table), base.Retypes t → t.Clean → s.Placed base scope → s.AsRead →
    (stmt scope t s).faults = [] →
    Types base scope t [s] [(stmt scope t s).tree] (stmt scope t s).table

theorem stmts_types_of (hss : ∀ s ∈ ss, StmtTypes base s)
    (hret : base.Retypes t) (hclean : t.Clean) (hplaced : ∀ s ∈ ss, s.Placed base scope)
    (hu : ∀ s ∈ ss, s.AsRead) (hfaults : (stmts scope t ss).faults = []) :
    Types base scope t ss (stmts scope t ss).tree (stmts scope t ss).table := by
  induction ss generalizing t with
  | nil => exact .nil
  | cons s ss ih =>
    simp only [stmts, append_eq_nil_iff] at hfaults ⊢
    have hs := mem_cons_self (a := s) (l := ss)
    have hfirst := hss s hs scope t hret hclean (hplaced s hs) (hu s hs) hfaults.1
    obtain ⟨hret', hclean'⟩ := hfirst.steps.retypes_clean hclean
    exact hfirst.cons (ih (fun c hc => hss c (.tail s hc)) (hret.trans hret') hclean'
      (fun c hc => hplaced c (.tail s hc))
      (fun c hc => hu c (.tail s hc)) hfaults.2)

theorem block_types_of {b : Block} (hb : ∀ c ∈ b.statements, StmtTypes base c)
    (hmem : b ∈ s.kind.blocks) (hret : base.Retypes t) (hclean : t.Clean)
    (hplaced : s.Placed base scope) (hu : s.AsRead) (hfaults : (block t b).faults = []) :
    TypesBlock base t b (block t b).tree (block t b).table := by
  obtain ⟨-, scopes, inside⟩ := hplaced
  obtain ⟨inner, hinner, -, -⟩ := scopes b hmem
  have hub := (asRead_iff.mp hu).2 b hmem
  have hinside := inside b hmem inner hinner
  rcases b with ⟨statements, span, bscope⟩
  obtain rfl : bscope = some inner := hinner
  have h := stmts_types_of hb hret hclean hinside hub hfaults
  refine ⟨rfl, ?_, ?_, ?_, ?_, h.ids, ?_⟩
  · rw [BlockOf.nodes_eq]
    exact h.steps
  · intro i hi
    cases hi
    exact h.placed
  · intro i hi
    cases hi
    exact h.resolves
  · intro i hi
    cases hi
    exact h.returns
  · rw [BlockOf.nodes_eq, BlockOf.nodes_eq]
    exact h.allIds

/-- A statement that defines nothing, assigns to nothing and returns nothing. -/
theorem fits_plain (hexprs : ∀ e ∈ s'.kind.exprs, e.Resolves base scope)
    (hdefine : ∀ name value symbol, s'.kind ≠ .define name value symbol)
    (htarget : s'.kind.target? = none) (hret : ∀ value, s'.kind ≠ .ret value)
    (hdefined : s'.defined? = s.defined?) : s.Fits base scope s' where
  define hk := absurd hk (hdefine _ _ _)
  defined := hdefined
  exprs := hexprs
  target ht := by
    rw [htarget] at ht
    cases ht
  ret hk := absurd hk (hret _)

theorem stmt_types (s : Stmt) : StmtTypes base s := by
  induction s using Stmt.induction with
  | step s ih =>
    intro scope t hret hclean hplaced hu hfaults
    rcases s with ⟨kind, span⟩
    have hread := (asRead_iff.mp hu).1
    have hexpr := hread.exprs
    -- Typing the blocks of the statement from a table that earlier steps have left.
    have hblock : ∀ b ∈ kind.blocks, ∀ t', base.Retypes t' → t'.Clean →
        (block t' b).faults = [] → TypesBlock base t' b (block t' b).tree (block t' b).table :=
      fun b hb t' hret' hclean' => block_types_of (ih b hb) hb hret' hclean' hplaced hu
    have hplain : ∀ {s' : Stmt} {e : Expr}, s'.kind.exprs = [e] → e.Resolves base scope →
        (∀ name value symbol, s'.kind ≠ .define name value symbol) → s'.kind.target? = none →
          (∀ value, s'.kind ≠ .ret value) → s'.defined? = defined? ⟨kind, span⟩ →
            Fits base scope ⟨kind, span⟩ s' := fun hes he =>
      fits_plain (hes ▸ forall_mem_singleton.mpr he)
    cases kind with
    | define name value symbol =>
      obtain ⟨hs, hvoid⟩ := value_sound hclean (hexpr value (by simp)) hfaults
      obtain ⟨define, -, -⟩ := id hplaced
      obtain ⟨id, v, hid, hv, hname, hparam⟩ := define rfl
      obtain rfl : symbol = some id := hid
      obtain ⟨ty, hv', -⟩ := hret.var? hv
      refine .ofBlocks hplaced ⟨fun h => by cases h; exact ⟨_, rfl⟩, rfl,
        forall_mem_singleton.mpr (hs.names.before hret), by rintro _ _ ⟨⟩, by rintro _ ⟨⟩⟩ ?_ .nil
      exact .define hv' hname hparam (hs.value hvoid) hs.ty hs.widening
    | assign name value symbol =>
      obtain ⟨hstep, v', hnames, htree⟩ := assignment_sound hclean span
        (value_sound hclean (hexpr value (by simp))) hfaults
      have htree : (stmt scope t ⟨.assign name value symbol, span⟩).tree =
          ⟨.assign name v' (t.resolve scope name), span⟩ := congrArg (Located.mk · span) htree
      replace hstep : Step t (stmt scope t ⟨.assign name value symbol, span⟩).tree.kind _ := hstep
      rw [htree] at hstep ⊢
      refine .ofBlocks hplaced ⟨by rintro _ _ _ ⟨⟩, rfl, ?_, ?_, by rintro _ ⟨⟩⟩ hstep .nil
      · exact forall_mem_singleton.mpr (hnames.before hret)
      · rintro _ _ ⟨⟩
        exact hret.resolve scope name
    | assignElement name i value symbol =>
      simp only [stmt, stmtKind, Passed.map, append_eq_nil_iff] at hfaults ⊢
      obtain ⟨⟨⟨⟨hplace, hinit⟩, htarget⟩, hindex⟩, helement⟩ := hfaults
      have hi := expr_sound hclean (hexpr i (by simp)) hplace
      obtain ⟨hs, hvoid⟩ := value_sound hclean (hexpr value (by simp)) hinit
      obtain ⟨id, v, hid, hresolve, hv, hname, hty⟩ := elementTarget_sound hclean htarget
      obtain ⟨hnum, hwide, hisValue, hruled⟩ := asElement_sound hs hvoid helement
      rw [hid]
      refine .ofBlocks hplaced ⟨by rintro _ _ _ ⟨⟩, rfl, ?_, ?_, by rintro _ ⟨⟩⟩
        (.assignElement hv hname hty hi.ruled (indexFaults_sound hi hindex) hi.widening
          ⟨hruled, hisValue⟩ hnum hwide) .nil
      · exact forall_mem_pair.mpr
          ⟨hi.names.before hret, ((hs.names.before hret).congr Typed.kind_asElement)⟩
      · rintro _ _ ⟨⟩
        rw [← hret.resolve, hresolve]
        rfl
    | ifElse cond thenBlock elseBlock =>
      have hcond := condition_sound hclean scope (hexpr cond (by simp))
      cases elseBlock with
      | none =>
        simp only [stmt, stmtKind, Passed.map, append_eq_nil_iff] at hfaults ⊢
        obtain ⟨hc, hty, hwide, hnames⟩ := hcond hfaults.1
        have hthen := hblock thenBlock (by simp) t hret hclean hfaults.2
        exact .ofBlocks hplaced (hplain rfl (hnames.before hret) (by simp) rfl (by simp) rfl)
          (.ifElse hc hty hwide) (.cons hthen .nil)
      | some elseBlock =>
        simp only [stmt, stmtKind, Passed.map, append_eq_nil_iff] at hfaults ⊢
        obtain ⟨hc, hty, hwide, hnames⟩ := hcond hfaults.1.1
        have hthen := hblock thenBlock (by simp) t hret hclean hfaults.1.2
        obtain ⟨hret', hclean'⟩ := hthen.steps.retypes_clean hclean
        have helse := hblock elseBlock (by simp) _ (hret.trans hret') hclean'
          hfaults.2
        exact .ofBlocks hplaced (hplain rfl (hnames.before hret) (by simp) rfl (by simp) rfl)
          (.ifElse hc hty hwide) (.cons hthen (.cons helse .nil))
    | loop cond body =>
      simp only [stmt, stmtKind, Passed.map, append_eq_nil_iff] at hfaults ⊢
      obtain ⟨hc, hty, hwide, hnames⟩ :=
        condition_sound hclean scope (hexpr cond (by simp)) hfaults.1
      have hbody := hblock body (by simp) t hret hclean hfaults.2
      exact .ofBlocks hplaced (hplain rfl (hnames.before hret) (by simp) rfl (by simp) rfl)
        (.loop hc hty hwide) (.cons hbody .nil)
    | call c =>
      have hu := hexpr c (by simp)
      have hc := expr_sound hclean hu hfaults
      have hname : (expr t scope c).expr.kind.isName = false := by
        obtain ⟨ty, kind, h⟩ := elaborates_of_faults hclean c hu hfaults
        rw [finds hclean c hu ty kind h, elaborated, typedAs, h.isName]
        exact hread.calls c (by simp [StmtKind.calls])
      exact .ofBlocks hplaced (hplain rfl (hc.names.before hret) (by rintro _ _ _ ⟨⟩) rfl
        (by rintro _ ⟨⟩) rfl) (.call hc.ruled hc.widening hname) .nil
    | print shown =>
      cases shown with
      | none =>
        exact .ofBlocks hplaced (fits_plain (forall_mem_nil _) (by rintro _ _ _ ⟨⟩) rfl
          (by rintro _ ⟨⟩) rfl) .printNothing .nil
      | some shown =>
        obtain ⟨hs, hvoid⟩ := value_sound hclean (hexpr shown (by simp)) hfaults
        exact .ofBlocks hplaced (hplain rfl (hs.names.before hret) (by rintro _ _ _ ⟨⟩) rfl
          (by rintro _ ⟨⟩) rfl) (.print (hs.value hvoid) hs.widening) .nil
    | ret given =>
      obtain ⟨hstep, v', hnames, htree, id, hid, hty⟩ := returning_sound hclean span
        (value_sound hclean (hexpr given (by simp))) hfaults
      have htree : (stmt scope t ⟨.ret given, span⟩).tree = ⟨.ret v', span⟩ :=
        congrArg (Located.mk · span) htree
      replace hstep : Step t (stmt scope t ⟨.ret given, span⟩).tree.kind _ := hstep
      rw [htree] at hstep ⊢
      refine .ofBlocks hplaced ⟨by rintro _ _ _ ⟨⟩, rfl, ?_, by rintro _ _ ⟨⟩, ?_⟩ hstep .nil
      · exact forall_mem_singleton.mpr (hnames.before hret)
      · rintro _ ⟨⟩
        rw [hret.enclosingFunction] at hid
        refine ⟨id, hid, fun hf => hty ?_⟩
        rw [hret.func?, hf]
    | block body =>
      have hbody := hblock body (by simp) t hret hclean hfaults
      exact .ofBlocks hplaced (fits_plain (forall_mem_nil _) (by rintro _ _ _ ⟨⟩) rfl
        (by rintro _ ⟨⟩) rfl) .block (.cons hbody .nil)

end Statements

/-! ## Scripts -/

/-- The names of an item have the symbols that they stand for. -/
def ItemResolves (t : Table) : Item → Prop
  | .function f => ∀ inner, f.body.scope = some inner → ∀ s ∈ f.body.statements, s.Resolves t inner
  | .statement s => s.Resolves t global

/-- What typing items without a fault yields. -/
structure TypesItems (base t : Table) (items tree : List Item) (t' : Table) : Prop where
  steps : Steps t (tree.flatMap Item.nodes) t'
  placed : ∀ item ∈ tree, item.Placed base
  resolves : ∀ item ∈ tree, ItemResolves base item
  returns : ∀ s, .statement s ∈ tree → s.Returns base global
  ids : tree.filterMap Item.defined? = items.filterMap Item.defined?
  allIds : definedIds (tree.flatMap Item.nodes) = definedIds (items.flatMap Item.nodes)

namespace TypesItems

variable {base t t' t'' : Table}

theorem cons {item item' : Item} {items items' : List Item}
    (h₁ : TypesItems base t [item] [item'] t') (h₂ : TypesItems base t' items items' t'') :
    TypesItems base t (item :: items) (item' :: items') t'' where
  steps := by
    have hfirst : Steps t item'.nodes t' := by simpa using h₁.steps
    exact hfirst.append h₂.steps
  placed := forall_mem_cons.mpr ⟨h₁.placed item' (.head _), h₂.placed⟩
  resolves := forall_mem_cons.mpr ⟨h₁.resolves item' (.head _), h₂.resolves⟩
  returns := by
    intro c hc
    rcases mem_cons.mp hc with hc | hc
    · exact h₁.returns c (mem_singleton.mpr hc)
    · exact h₂.returns c hc
  ids := by
    show ([item'] ++ items').filterMap Item.defined? = ([item] ++ items).filterMap Item.defined?
    rw [filterMap_append, filterMap_append, h₁.ids, h₂.ids]
  allIds := by
    have hfirst := h₁.allIds
    have hrest := h₂.allIds
    simp only [definedIds, flatMap_cons, flatMap_nil, append_nil,
      filterMap_append] at hfirst hrest ⊢
    rw [hfirst, hrest]

theorem statement (h : Types base global t [s] [s'] t') :
    TypesItems base t [.statement s] [.statement s'] t' where
  steps := h.steps
  placed := forall_mem_singleton.mpr (h.placed s' (.head _))
  resolves := forall_mem_singleton.mpr (h.resolves s' (.head _))
  returns c hc := by
    cases mem_singleton.mp hc
    exact h.returns s' (.head _)
  ids := h.ids
  allIds := h.allIds

/-- A function is typed by typing its body as a block. -/
theorem function {f : Function} {sig : Signature} {body : Block} (hf : f.PlacedAs base id sig)
    (h : Types base sig.scope t [⟨.block f.body, f.span⟩] [⟨.block body, f.span⟩] t') :
    TypesItems base t [.function f] [.function { f with body := body }] t' where
  steps := by
    have hsteps := h.steps
    rw [flatMap_cons, flatMap_nil, append_nil, Located.nodes_eq] at hsteps
    cases hsteps with
    | cons step rest =>
      cases step
      exact rest
  placed := forall_mem_singleton.mpr
    ⟨id, sig, { hf with body := h.placed _ (.head _) }⟩
  resolves := by
    obtain ⟨-, -, -, inside⟩ := h.resolves _ (.head _)
    exact forall_mem_singleton.mpr (inside body (.head _))
  returns c hc := by cases mem_singleton.mp hc
  ids := rfl
  allIds := by
    have hids := h.allIds
    rw [allDefinedIds_of_blocks rfl, allDefinedIds_of_blocks rfl] at hids
    simpa [allDefinedIds, definedIds, blocksAlone, Item.nodes, Located.nodes_eq ⟨.block _,
      _⟩, filterMap_cons_none defined?_block]
      using hids

end TypesItems

/-- **Typing items.**  Without a fault, typing the items of a script is a run of steps over all
their statements in the order of the source. -/
theorem items_types {base t : Table} {its : List Item} (hret : base.Retypes t) (hclean : t.Clean)
    (hplaced : ∀ item ∈ its, item.Placed base)
    (hu : ∀ item ∈ its, ∀ s ∈ itemStmts item, s.AsRead)
    (hfaults : (items global t its).faults = []) :
    TypesItems base t its (items global t its).tree (items global t its).table := by
  induction its generalizing t with
  | nil => exact ⟨.nil, nofun, nofun, nofun, rfl, rfl⟩
  | cons item its ih =>
    have hfirst := hplaced item (.head _)
    have hufirst := hu item (.head _)
    have hrest : ∀ c ∈ its, c.Placed base := fun c hc => hplaced c (.tail item hc)
    have hurest : ∀ c ∈ its, ∀ s ∈ itemStmts c, s.AsRead :=
      fun c hc => hu c (.tail item hc)
    cases item with
    | function f =>
      obtain ⟨id, sig, hf⟩ := hfirst
      have hubody : AsRead ⟨.block f.body, f.span⟩ := by
        refine asRead_iff.mpr ⟨.of_exprs rfl nofun, fun b hb => ?_⟩
        obtain rfl := mem_singleton.mp hb
        exact hufirst
      simp only [items, append_eq_nil_iff] at hfaults ⊢
      have hs := stmt_types ⟨.block f.body, f.span⟩ sig.scope t hret hclean hf.body hubody
        hfaults.1
      obtain ⟨hret', hclean'⟩ := hs.steps.retypes_clean hclean
      exact (TypesItems.function hf hs).cons
        (ih (hret.trans hret') hclean' hrest hurest hfaults.2)
    | statement s =>
      simp only [items, append_eq_nil_iff] at hfaults ⊢
      have hs := stmt_types s global t hret hclean hfirst
        (hufirst s (.head _)) hfaults.1
      obtain ⟨hret', hclean'⟩ := hs.steps.retypes_clean hclean
      exact (TypesItems.statement hs).cons
        (ih (hret.trans hret') hclean' hrest hurest hfaults.2)

end Typing

end WichToC

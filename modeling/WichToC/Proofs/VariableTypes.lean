import WichToC.Proofs.Acceptance

/-!
# Types of variables

The type that a variable has when a statement is typed need not be the type that it ends with: the
first assignment to a variable gives it a type, and its definition, which may come later, gives it
another one.  `Script.VariablesSound` says that the types seen at all uses are the final ones, and
`variablesSound_iff_keepsTypes` that this holds exactly if no assignment that precedes the
definition of its variable stores a value of another type than the definition.
-/

namespace WichToC

open Analysis List

/-- The types that a statement sees at its uses of variables are those of the table. -/
structure Located.SeesTypes (table : Table) (s : Stmt) : Prop where
  name : ∀ e ∈ s.exprNodes, ∀ {n symbol}, e.kind = .name n symbol →
    ∃ id v ty, symbol = some id ∧ table.var? id = some v ∧ v.ty = some ty ∧ e.ty = some ty
  define : ∀ {n value symbol}, s.kind = .define n value symbol →
    ∃ id v ty, symbol = some id ∧ table.var? id = some v ∧ v.ty = some ty ∧
      value.effectiveTy = some ty
  assign : ∀ {n value symbol}, s.kind = .assign n value symbol →
    ∃ id v ty, symbol = some id ∧ table.var? id = some v ∧ v.ty = some ty ∧
      value.effectiveTy = some ty
  assignElement : ∀ {n i value symbol}, s.kind = .assignElement n i value symbol →
    ∃ id v, symbol = some id ∧ table.var? id = some v ∧ v.ty = some .vector

/-- Every use of a variable in the script sees the type that the variable has in the table. -/
def Script.VariablesSound (script : Script) (table : Table) : Prop :=
  ∀ s ∈ script.nodes, s.SeesTypes table

/-- An assignment stores a value of the type that a definition of the same variable gives it. -/
def Located.agrees (s d : Stmt) : Bool :=
  match s.kind, d.kind with
  | .assign _ value (some id), .define _ init (some id') =>
    id ≠ id' || value.effectiveTy = init.effectiveTy
  | _, _ => true

/-- Every assignment that precedes the definition of its variable agrees with it. -/
def Script.KeepsTypes (script : Script) : Prop :=
  script.nodes.Pairwise fun s d => s.agrees d

instance (script : Script) : Decidable script.KeepsTypes :=
  inferInstanceAs (Decidable (Pairwise _ _))

namespace Typing

variable {t t' : Table} {table : Table} {ss : List Stmt}

/-! ## Types at the moment of a step are final -/

/-- The types that variables have now are those that they end with. -/
def Final (t table : Table) : Prop :=
  ∀ id v ty, t.var? id = some v → v.ty = some ty → ∃ w, table.var? id = some w ∧ w.ty = some ty

theorem Final.set {id : SymbolId} {ty : Ty} (h : Final t table)
    (hfinal : ∃ w, table.var? id = some w ∧ w.ty = some ty) :
    Final (t.setVariableTy id ty) table := by
  intro i v vty hv hvty
  rw [Table.var?_setVariableTy] at hv
  split at hv
  · rename_i hi
    subst hi
    obtain ⟨w, -, rfl⟩ := Option.map_eq_some_iff.mp hv
    cases hvty
    exact hfinal
  · exact h i v vty hv hvty

/-- A step of a run in which assignments agree with later definitions keeps the types final. -/
theorem Step.final {s : Stmt} (hstep : Step t s.kind t')
    (hrest : Steps t' ss table) (hnodup : (definedIds (s :: ss)).Nodup)
    (hagrees : ∀ d ∈ ss, s.agrees d) (hsettled : Final t table) : Final t' table := by
  rw [Declare.definedIds_cons, nodup_append] at hnodup
  have hfinal : ∀ {id v ty}, t.var? id = some v → t' = t.setVariableTy id ty →
      id ∉ definedIds ss → ∃ w, table.var? id = some w ∧ w.ty = some ty := by
    rintro id v ty hv rfl hid
    refine ⟨{ v with ty := some ty }, hrest.keeps ?_ rfl hid, rfl⟩
    rw [Table.var?_setVariableTy, if_pos rfl, hv]
    rfl
  generalize hk : s.kind = k at hstep
  cases hstep with
  | @define _ _ id _ _ var =>
    refine hsettled.set (hfinal var rfl fun hmem => ?_)
    exact hnodup.2.2 id (by simp [definedIds, Located.defined?, hk]) id hmem rfl
  | @assignFirst _ value id _ ty var _ _ _ given widening =>
    apply hsettled.set
    by_cases hid : id ∈ definedIds ss
    · -- The definition follows, and it agrees with this assignment.
      obtain ⟨d, hd, hdid⟩ := mem_filterMap.mp hid
      obtain ⟨n, init, hdk⟩ : ∃ n init, d.kind = .define n init (some id) := by
        unfold Located.defined? at hdid
        grind
      obtain ⟨id', w, ty', hid', hw, hwty, hinit⟩ := hrest.var?_of_define hnodup.2.1 hd hdk
      cases hid'
      have hagree := hagrees d hd
      simp only [Located.agrees, hk, hdk, ne_eq, not_true_eq_false, decide_false, Bool.false_or,
        decide_eq_true_eq, hinit, Annotated.effectiveTy_of_promoteTo widening, given] at hagree
      cases hagree
      exact ⟨w, hw, hwty⟩
    · exact hfinal var rfl hid
  | _ => exact hsettled

/-! ## What a step sees -/

/-- A statement that is typed between two such tables sees the final types. -/
theorem Step.seesTypes {s : Stmt} (h : Step t s.kind t') (ht : Final t table)
    (ht' : Final t' table) : s.SeesTypes table := by
  constructor
  case name =>
    intro e he n symbol hk
    obtain ⟨root, hroot, he⟩ := mem_flatMap.mp he
    obtain ⟨ty, hty, -, hgives⟩ := (h.ruled root hroot e he).gives
    rw [hk] at hgives
    obtain ⟨id, v, rfl, hv, -, hvty⟩ := hgives
    obtain ⟨w, hw, hwty⟩ := ht id v ty hv hvty
    exact ⟨id, w, ty, rfl, hw, hwty, hty⟩
  case define =>
    intro n value symbol hk
    rw [hk] at h
    cases h with
    | @define _ _ id v ty var _ _ _ given widening =>
      obtain ⟨w, hw, hwty⟩ := ht' id _ ty (by rw [Table.var?_setVariableTy, if_pos rfl, var]; rfl)
        rfl
      exact ⟨id, w, ty, rfl, hw, hwty, (Annotated.effectiveTy_of_promoteTo widening).trans given⟩
  case assign =>
    intro n value symbol hk
    rw [hk] at h
    cases h with
    | @assignFirst _ _ id v ty var _ _ _ given widening =>
      obtain ⟨w, hw, hwty⟩ := ht' id _ ty (by rw [Table.var?_setVariableTy, if_pos rfl, var]; rfl)
        rfl
      exact ⟨id, w, ty, rfl, hw, hwty, (Annotated.effectiveTy_of_promoteTo widening).trans given⟩
    | @assign _ _ id v expected _ var _ ty _ _ _ widening =>
      obtain ⟨w, hw, hwty⟩ := ht id v expected var ty
      exact ⟨id, w, expected, rfl, hw, hwty, widening.effectiveTy⟩
  case assignElement =>
    intro n i value symbol hk
    rw [hk] at h
    cases h with
    | @assignElement _ _ _ id v var _ ty =>
      obtain ⟨w, hw, hwty⟩ := ht id v .vector var ty
      exact ⟨id, w, rfl, hw, hwty⟩

/-- In a run in which assignments agree with later definitions every statement sees the final
types. -/
theorem Steps.seesTypes (h : Steps t ss table)
    (hnodup : (definedIds ss).Nodup) (hagrees : ss.Pairwise fun s d => s.agrees d)
    (hsettled : Final t table) : ∀ s ∈ ss, s.SeesTypes table := by
  induction h with
  | nil => nofun
  | @cons _ _ table s ss step rest ih =>
    obtain ⟨hfirst, hlater⟩ := pairwise_cons.mp hagrees
    have hsettled' := step.final rest hnodup hfirst hsettled
    rw [Declare.definedIds_cons, nodup_append] at hnodup
    intro c hc
    rcases mem_cons.mp hc with rfl | hc
    · exact step.seesTypes hsettled hsettled'
    · exact ih hnodup.2.1 hlater hsettled' c hc

end Typing

namespace Accepted

variable {base table : Table} {script : Script}

/-- The types that parameters have from the start are final. -/
theorem final (h : Accepted base script table) : Typing.Final base table := by
  intro id v ty hv hty
  obtain ⟨ty', hv', hparam, -⟩ := h.retypes.var? hv
  rcases h.var hv with ⟨hp, -⟩ | ⟨-, hnone, -⟩
  · exact ⟨_, hv', (hparam hp).trans hty⟩
  · rw [hnone] at hty
    cases hty

end Accepted

/-- **Types of variables.**  In a script without errors all uses of variables see their final types
exactly if every assignment that precedes the definition of its variable stores a value of the type
that the definition gives the variable. -/
theorem variablesSound_iff_keepsTypes (source : String) (report : Report)
    (h : (ofSource source report).report.hasErrors = false) :
    (ofSource source report).script.VariablesSound
        (ofSource source report).table ↔
      (ofSource source report).script.KeepsTypes := by
  obtain ⟨base, hacc⟩ := accepted h
  constructor
  · intro hsound
    refine pairwise_of_forall_mem_list fun s hs d hd => ?_
    unfold Located.agrees
    split
    · rename_i id _ _ id' hsk hdk
      obtain ⟨_, v, ty, hid, hv, hty, heff⟩ := (hsound s hs).assign hsk
      obtain ⟨_, v', ty', hid', hv', hty', heff'⟩ := (hsound d hd).define hdk
      cases hid
      cases hid'
      simp only [Bool.or_eq_true, decide_eq_true_eq]
      refine (Classical.em (id = id')).symm.imp_right fun he => ?_
      subst he
      rw [hv] at hv'
      cases hv'
      rw [heff, heff', ← hty, ← hty']
    · rfl
  · exact fun hkeeps => hacc.steps.seesTypes hacc.definedIds_nodup hkeeps hacc.final

/-- A script that defines a variable after an assignment to it, with another type. -/
def lateDefinition : String := "x = 1\nvar x = 2.5\n"

set_option maxRecDepth 20000 in
/-- The script with the late definition is accepted, and its assignment does not see the final
type. -/
theorem not_variablesSound_lateDefinition : (ofSource lateDefinition {}).report.hasErrors = false ∧
      ¬ (ofSource lateDefinition {}).script.VariablesSound
        (ofSource lateDefinition {}).table :=
  have haccepted : (ofSource lateDefinition {}).report.hasErrors = false := by
    decide +kernel
  ⟨haccepted, fun hsound => absurd
    ((variablesSound_iff_keepsTypes lateDefinition {} haccepted).mp hsound) (by decide +kernel)⟩

end WichToC

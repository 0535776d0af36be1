import Mathlib.Data.List.Perm.Basic
import WichToC.Proofs.Annotations
import WichToC.Symbol.Dump

/-!
# Scopes as text

The text of a scope is that of an `Outline`, a tree of scopes and variables.  A scope holds its
symbols in order of definition, a function as its scope, and then the other scopes that lie in it,
in order of creation (`Table.inside`).  The outline of the global scope has every other scope and
every variable once, in its own place (`dump_complete`).

A function has its scope twice, as its symbol and as a scope inside the global one; the other scopes
inside are those of blocks and of functions that were rejected.
-/

namespace WichToC

open List Table Definition Declare

variable (source : String) (report : Report)

def Table.nameOf (t : Table) (id : ScopeId) : String := ((t.scope? id).map Scope.name).getD ""

/-- A variable, or a scope with what stands between its braces. -/
inductive Outline where
  | var (id : SymbolId)
  | scope (id : ScopeId) (inside : List Outline)

namespace Outline

/-- The lines of an outline; what is inside a scope is one level further in. -/
def text (t : Table) (level : Nat) : Outline → String
  | var id =>
    ((t.var? id).map fun v => indentation level ++ t.nameOf v.scope ++ "." ++ v.name ++ ":" ++
      (v.ty.map Ty.name).getD "void" ++ "\n").getD ""
  | scope id inside => indentation level ++ t.nameOf id ++ " \x7b\n" ++
      String.join (inside.map (text t (level + 1))) ++ indentation level ++ "\x7d\n"

/-- The scopes of an outline, from the top. -/
def scopes : Outline → List ScopeId
  | var _ => []
  | scope id inside => id :: inside.flatMap scopes

/-- The variables of an outline, from the top. -/
def vars : Outline → List SymbolId
  | var id => [id]
  | scope _ inside => inside.flatMap vars

end Outline

namespace Table

variable {t t' : Table} {s c : ScopeId} {id : SymbolId} {draw : ScopeId → Outline}

/-- The scopes of the functions that a scope defines. -/
def functionScopes (t : Table) (s : ScopeId) : List ScopeId :=
  (t.symbolsOf s).filterMap fun id => (t.func? id).map Signature.scope

/-- The scopes that lie in a scope and belong to none of its functions, in order of creation. -/
def otherScopes (t : Table) (s : ScopeId) : List ScopeId :=
  (t.scopeIds.filter fun c => t.parent? c = some s).filter fun c => c ∉ t.functionScopes s

/-- The scopes that lie in a scope. -/
def innerScopes (t : Table) (s : ScopeId) : List ScopeId := t.functionScopes s ++ t.otherScopes s

/-- The variables that a scope defines. -/
def varIds (t : Table) (s : ScopeId) : List SymbolId :=
  (t.symbolsOf s).filter fun id => (t.var? id).isSome

/-- What a scope holds: its symbols, functions as their scopes, and then the other scopes. -/
def inside (t : Table) (draw : ScopeId → Outline) (s : ScopeId) : List Outline :=
  ((t.symbolsOf s).filterMap fun id => (t.symbol? id).bind fun
    | .var _ => some (.var id)
    | .func f => some (draw f.scope)
    | .type _ => none) ++ (t.otherScopes s).map draw

/-- The outline of a scope.  A scope that is not inside it is cut off. -/
def outline (t : Table) (s : ScopeId) : Outline :=
  .scope s (t.inside (fun c =>
    if s.index < c.index ∧ c.index < t.scopes.size then t.outline c else .scope c []) s)
termination_by t.scopes.size - s.index

/-- What declaring leaves: a tree of scopes, in which functions and variables know their scopes, and
every variable is in one scope. -/
structure Laid (t : Table) : Prop where
  nested : t.Nested
  parent : ∀ {c s}, t.parent? c = some s → s.index < c.index
  root : t.parent? predefined = none ∧ t.parent? global = some predefined
  symbols : ∀ {s id}, id ∈ t.symbolsOf s → (∃ v, t.var? id = some v ∧ v.scope = s) ∨
    (∃ f, t.func? id = some f ∧ t.parent? f.scope = some s) ∨
      t.var? id = none ∧ t.func? id = none ∧ s.index = 0
  distinct : ∀ s, (t.functionScopes s).Nodup
  owned : ∀ {id v}, t.var? id = some v → (t.scopeIds.tail.flatMap t.symbolsOf).count id = 1

namespace Laid

/-- From the inside out. -/
theorem induction (h : t.Laid) {P : ScopeId → Prop}
    (step : ∀ s, (∀ c, t.parent? c = some s → P c) → P s) (s : ScopeId) : P s := by
  induction hn : t.scopes.size - s.index using Nat.strongRecOn generalizing s with
  | ind n ih =>
    refine step s fun c hc => ih (t.scopes.size - c.index) ?_ c rfl
    have := h.parent hc
    have := lt_size_of_parent? hc
    omega

theorem scope_of_var {v : Variable} (h : t.Laid) (hid : id ∈ t.symbolsOf s)
    (hv : t.var? id = some v) :
    v.scope = s := by
  have hfunc := func?_of_var? hv
  have hsymbol := h.symbols hid
  grind

theorem parent_of_mem (h : t.Laid) (hc : c ∈ t.innerScopes s) : t.parent? c = some s := by
  rcases mem_append.mp hc with hc | hc
  · obtain ⟨id, hid, hf⟩ := mem_filterMap.mp hc
    obtain ⟨v, hv, -⟩ | ⟨f, hf', hparent⟩ | ⟨-, hnone, -⟩ := h.symbols hid
    · simp [func?_of_var? hv] at hf
    · simp_all
    · simp [hnone] at hf
  · simpa using (mem_filter.mp (mem_filter.mp hc).1).2

theorem outline_eq (h : t.Laid) (s : ScopeId) : t.outline s = .scope s (t.inside t.outline s) := by
  have hinner : ∀ c ∈ t.innerScopes s,
      (if s.index < c.index ∧ c.index < t.scopes.size then t.outline c else .scope c []) =
        t.outline c :=
    fun c hc => if_pos ⟨h.parent (h.parent_of_mem hc), lt_size_of_parent? (h.parent_of_mem hc)⟩
  rw [outline, inside, inside, map_congr_left fun c hc => hinner c (mem_append_right _ hc)]
  congr 2
  refine filterMap_congr fun id hid => ?_
  rcases hsymbol : t.symbol? id with _ | _ | _ | f
  · rfl
  · rfl
  · rfl
  · refine congrArg some (hinner f.scope (mem_append_left _ (mem_filterMap.mpr ⟨id, hid, ?_⟩)))
    simp [func?, hsymbol, Symbol.func?]

/-! ## Every scope once -/

theorem inside_perm :
    (t.inside draw s).Perm ((t.varIds s).map .var ++ (t.innerScopes s).map draw) := by
  rw [inside, innerScopes, map_append, ← append_assoc]
  refine .append_right _ ?_
  unfold varIds functionScopes
  induction t.symbolsOf s with
  | nil => exact .refl _
  | cons id ids ih =>
    cases hsymbol : t.symbol? id with
    | none => simpa [hsymbol, var?, func?] using ih
    | some symbol =>
      cases symbol with
      | type | var => simpa [hsymbol, var?, func?, Symbol.var?, Symbol.func?] using ih
      | func =>
        simpa [hsymbol, var?, func?, Symbol.var?, Symbol.func?] using (ih.cons _).trans
          perm_middle.symm

theorem count_innerScopes (h : t.Laid) (i s : ScopeId) :
    (t.innerScopes s).count i = if t.parent? i = some s then 1 else 0 := by
  have hids : t.scopeIds.Nodup := nodup_range.map fun _ _ => ScopeId.mk.inj
  have hnodup : (t.innerScopes s).Nodup := by
    refine nodup_append.mpr ⟨h.distinct s, (hids.filter _).filter _, fun c hc c' hc' heq => ?_⟩
    subst heq
    simpa [hc] using (mem_filter.mp hc').2
  have hmem : i ∈ t.innerScopes s ↔ t.parent? i = some s := by
    refine ⟨h.parent_of_mem, fun hi => ?_⟩
    have hid : i ∈ t.scopeIds := mem_map.mpr ⟨i.index, mem_range.mpr (lt_size_of_parent? hi), rfl⟩
    by_cases hf : i ∈ t.functionScopes s
    · exact mem_append_left _ hf
    · exact mem_append_right _ (by simp [otherScopes, hid, hi, hf])
  rw [hnodup.count]
  simp only [hmem]

theorem count_flatMap_innerScopes (h : t.Laid) (i : ScopeId) (ss : List ScopeId) :
    (ss.flatMap t.innerScopes).count i = ((t.parent? i).map ss.count).getD 0 := by
  induction ss with
  | nil => cases t.parent? i <;> rfl
  | cons s ss ih =>
    rw [flatMap_cons, count_append, ih, h.count_innerScopes]
    cases t.parent? i with
    | none => rfl
    | some p => grind

theorem scopes_outline (h : t.Laid) (s : ScopeId) : (t.outline s).scopes.Perm
    (s :: (t.innerScopes s).flatMap fun c => (t.outline c).scopes) := by
  rw [h.outline_eq, Outline.scopes]
  refine .cons s ((inside_perm.flatMap_right _).trans ?_)
  have hvars : ((t.varIds s).map Outline.var).flatMap Outline.scopes = [] :=
    flatMap_eq_nil_iff.mpr (by simp [Outline.scopes])
  rw [flatMap_append, hvars, nil_append, flatMap_map]

/-- The scopes of an outline are the outermost one and those that lie in one of them. -/
theorem scopes_perm (h : t.Laid) (s : ScopeId) : (t.outline s).scopes.Perm
    (s :: (t.outline s).scopes.flatMap t.innerScopes) := by
  induction s using h.induction with
  | step s ih =>
    have hinner := Perm.flatMap_left (t.innerScopes s) fun c hc => ih c (h.parent_of_mem hc)
    refine (h.scopes_outline s).trans (.cons s (hinner.trans ?_))
    refine (flatMap_append_perm _ (fun c => [c])
      fun c => (t.outline c).scopes.flatMap t.innerScopes).symm.trans ?_
    rw [flatMap_singleton', ← flatMap_assoc]
    exact ((h.scopes_outline s).flatMap_right t.innerScopes).symm

theorem vars_perm (h : t.Laid) (s : ScopeId) : (t.outline s).vars.Perm
    ((t.outline s).scopes.flatMap t.varIds) := by
  induction s using h.induction with
  | step s ih =>
    have hinner := Perm.flatMap_left (t.innerScopes s) fun c hc => ih c (h.parent_of_mem hc)
    have hvars : (t.outline s).vars.Perm
        (t.varIds s ++ (t.innerScopes s).flatMap fun c => (t.outline c).vars) := by
      rw [h.outline_eq, Outline.vars]
      refine (inside_perm.flatMap_right _).trans ?_
      simp [flatMap_map, Outline.vars]
    refine hvars.trans ((hinner.append_left _).trans ?_)
    rw [← flatMap_assoc]
    exact ((h.scopes_outline s).flatMap_right t.varIds).symm

theorem count_tail_scopeIds {i : ScopeId} :
    t.scopeIds.tail.count i = if 0 < i.index ∧ i.index < t.scopes.size then 1 else 0 := by
  rcases i with ⟨i⟩
  have hids : t.scopeIds.Nodup := nodup_range.map fun _ _ => ScopeId.mk.inj
  rw [(hids.sublist (tail_sublist _)).count, scopeIds, ← map_tail, tail_range]
  grind

/-- The outline of the global scope has all scopes but the predefined one. -/
theorem scopes_global (h : t.Laid) : (t.outline global).scopes.Perm t.scopeIds.tail := by
  refine perm_iff_count.mpr fun i => ?_
  rw [count_tail_scopeIds]
  induction hn : i.index using Nat.strongRecOn generalizing i with
  | ind n ih =>
    subst hn
    rw [(h.scopes_perm global).count_eq, count_cons, h.count_flatMap_innerScopes]
    have hglobal := h.root.2
    have hsize := lt_size_of_parent? hglobal
    have hone : i.index = 1 ↔ i = global := ⟨congrArg ScopeId.mk, fun hi => hi ▸ rfl⟩
    cases hp : t.parent? i with
    | none =>
      have hparent := h.nested.parents i
      grind
    | some p =>
      have hparent := h.nested.parents i
      have hlt := h.parent hp
      have hinside := lt_size_of_parent? hp
      have hfound := ih p.index hlt p rfl
      grind [predefined]

theorem vars_global (h : t.Laid) (id : SymbolId) :
    (t.outline global).vars.count id = if (t.var? id).isSome then 1 else 0 := by
  have hperm := (h.vars_perm global).trans (h.scopes_global.flatMap_right t.varIds)
  rw [hperm.count_eq]
  unfold varIds
  rw [← filter_flatMap]
  cases hv : t.var? id with
  | none => exact count_eq_zero.mpr fun hid => by simp [hv] at hid
  | some v => rw [count_filter (by rw [hv]; rfl), h.owned hv]; rfl

/-! ## The text -/

theorem indentation_succ {level : Nat} : indentation level ++ "    " = indentation (level + 1) := by
  have hblanks : "    " = String.ofList (replicate 4 ' ') := rfl
  rw [indentation, hblanks, ← String.ofList_append, replicate_append_replicate]
  rfl

theorem dumpFrom_eq (h : t.Laid) (s : ScopeId) : 0 < s.index → s.index < t.scopes.size →
    ∀ {fuel : Nat} (level : Nat), t.scopes.size ≤ s.index + fuel →
      t.dumpFrom fuel level s = (t.outline s).text t level := by
  induction s using h.induction with
  | step s ih =>
    intro hs hlt fuel level hfuel
    obtain ⟨fuel, rfl⟩ : ∃ n, fuel = n + 1 := ⟨fuel - 1, by omega⟩
    obtain ⟨scope, hscope⟩ : ∃ scope, t.scope? s = some scope := ⟨_, Array.getElem?_eq_getElem hlt⟩
    have hsymbols : t.symbolsOf s = scope.symbols := by rw [symbolsOf, hscope]; rfl
    have hname : t.nameOf s = scope.name := by rw [nameOf, hscope]; rfl
    have hinner : ∀ c ∈ t.innerScopes s,
        t.dumpFrom fuel (level + 1) c = (t.outline c).text t (level + 1) := by
      intro c hc
      have hparent := h.parent_of_mem hc
      have := h.parent hparent
      exact ih c hparent (by omega) (lt_size_of_parent? hparent) _ (by omega)
    have hwritten : (scope.symbols.filterMap t.symbol?).filterMap
      (fun s => s.func?.map Signature.scope) =
        t.functionScopes s := by
      rw [filterMap_filterMap, functionScopes, hsymbols]
      refine filterMap_congr fun id _ => ?_
      rw [func?, Option.map_bind]
      rfl
    have hothers : scope.nested.filter (fun c => !(t.functionScopes s).contains c) =
        t.otherScopes s := by
      have hlisted := h.nested.listed s hs
      rw [nestedOf, hscope] at hlisted
      rw [show scope.nested = _ from hlisted, otherScopes]
      simp
    rw [dumpFrom, hscope, h.outline_eq, Outline.text]
    dsimp only
    rw [hwritten, hothers, inside, map_append, String.join_append, map_map, hname,
      map_congr_left fun c hc => hinner c (mem_append_right _ hc), ← hsymbols, map_filterMap,
      map_filterMap, ← String.append_assoc]
    -- What is left are the lines of the symbols.
    congr 5
    refine filterMap_congr fun id hid => ?_
    rcases hsymbol : t.symbol? id with _ | ty | v | f
    · rfl
    · have hsymbols := h.symbols hid
      simp [var?, func?, hsymbol, Symbol.var?, Symbol.func?, Nat.ne_of_gt hs] at hsymbols
    · have hv : t.var? id = some v := by rw [var?, hsymbol]; rfl
      simp [Outline.text, hv, indentation_succ, h.scope_of_var hid hv, hname]
    · have hf : t.func? id = some f := by rw [func?, hsymbol]; rfl
      exact congrArg some
        (hinner f.scope (mem_append_left _ (mem_filterMap.mpr ⟨id, hid, by rw [hf]; rfl⟩)))

end Laid

end Table

/-! ## Declared scripts -/

namespace Definition

variable {t : Table} {s : ScopeId} {d : Definition} {id : SymbolId}

theorem HeldBy.head (h : d.HeldBy t s id) : (t.func? id).map Signature.scope = d.head? := by
  cases h with
  | var symbol | param symbol => rw [func?_of_var? symbol]; rfl
  | func _ own _ symbol => rw [symbol]; exact own.symm

theorem firsts_sublist (earlier : List String) (ds : List Definition) :
    (firsts earlier ds).Sublist ds := by
  induction ds generalizing earlier with
  | nil => exact .refl _
  | cons d ds ih =>
    rw [firsts]
    grind

theorem functionScopes_of_held {ds : List Definition} {ids : List SymbolId}
    (h : List.Forall₂ (HeldBy t s) ds ids) :
    (ids.filterMap fun id => (t.func? id).map Signature.scope) = ds.filterMap head? := by
  induction h with
  | nil => rfl
  | cons hd _ ih => rw [filterMap_cons, filterMap_cons, hd.head, ih]

end Definition

variable {base t : Table} {ds : List Definition} {rs : List Region} {faults : List Diagnostic}

/-- The scopes that declaring makes of the initial table hold what was defined in them. -/
theorem Grows.held (h : Grows global [] initial t ds rs faults) {s : ScopeId} (hs : 0 < s.index) :
    ∃ ds' : List Definition, List.Forall₂ (HeldBy t s) ds' (t.symbolsOf s) ∧
      (ds'.filterMap Definition.head?).Nodup := by
  obtain ⟨ids, hown, hheld, -⟩ := h.own
  have hown : t.symbolsOf global = ids := hown
  by_cases hlt : s.index < t.scopes.size
  · have hmem : s ∈ t.scopeIds.tail := by
      rw [← count_pos_iff, Laid.count_tail_scopeIds, if_pos ⟨hs, hlt⟩]
      decide
    rcases mem_cons.mp ((tail_scopes h.ext.size_scopes : t.scopeIds.tail = _) ▸ hmem) with rfl | hs
    · refine ⟨_, hown ▸ hheld, (nodup_newScopes.sublist h.heads).sublist ?_⟩
      exact (firsts_sublist [] ds).filterMap _
    · obtain ⟨r, hr, hsettled⟩ := exists_of_forall₂ h.regions hs
      refine ⟨_, hsettled.symbols, ((h.inner r hr ▸ nodup_nil :)).sublist ?_⟩
      exact (firsts_sublist [] r.definitions).filterMap _
  · have hnone : t.symbolsOf s = [] := by simp [symbolsOf, scope?, hlt]
    exact ⟨[], hnone ▸ .nil, nodup_nil⟩

/-- What declaring and typing leave in the scopes. -/
theorem Grows.laid (h : Grows global [] initial base ds rs faults) (hret : base.Retypes t) :
    t.Laid := by
  have hbuiltin : ∀ id ∈ t.symbolsOf predefined, t.var? id = none ∧ t.func? id = none := by
    intro id hid
    rw [hret.symbolsOf, h.frame predefined (by decide) nofun] at hid
    have hlt := wellFormed_initial.bound predefined id hid
    refine ⟨hret.var?_eq_none ?_, ?_⟩
    · rw [h.ext.var? hlt, var?_initial]
    · rw [hret.func?, h.ext.func? hlt, func?_initial]
  constructor
  case nested =>
    exact (h.nested (by decide) nested_initial).congr (by rw [hret.scopes]) hret.kind? hret.parent?
      fun i => by rw [nestedOf, hret.scope?, nestedOf]
  case parent => exact fun hp => h.wellFormed.parent (hret.parent? _ ▸ hp)
  case root =>
    rw [hret.parent?, hret.parent?]
    exact ⟨h.ext.parent? predefined (by decide), h.ext.parent? global (by decide)⟩
  case symbols =>
    intro s id hid
    rcases Nat.eq_zero_or_pos s.index with hs | hs
    · obtain rfl : s = predefined := congrArg ScopeId.mk hs
      grind
    · obtain ⟨ds', hheld, -⟩ := h.held hs
      obtain ⟨d, -, hd⟩ := exists_of_forall₂ hheld (hret.symbolsOf s ▸ hid)
      cases hd with
      | var symbol | param symbol =>
        obtain ⟨ty, hv, -⟩ := hret.var? symbol
        exact .inl ⟨_, hv, rfl⟩
      | func _ _ parent symbol =>
        exact .inr (.inl ⟨_, (hret.func? id).trans symbol, (hret.parent? _).trans parent⟩)
  case distinct =>
    intro s
    rcases Nat.eq_zero_or_pos s.index with hs | hs
    · obtain rfl : s = predefined := congrArg ScopeId.mk hs
      have hnone : t.functionScopes predefined = [] :=
        filterMap_eq_nil_iff.mpr fun id hid => by rw [(hbuiltin id hid).2]; rfl
      exact hnone ▸ nodup_nil
    · obtain ⟨ds', hheld, hnodup⟩ := h.held hs
      simp only [functionScopes, hret.symbolsOf, hret.func?]
      rwa [Definition.functionScopes_of_held hheld]
  case owned =>
    intro id v' hv'
    obtain ⟨v, hv, -⟩ := hret.var?_back hv'
    obtain ⟨ids, hown, -, hperm⟩ := h.own
    have hlt : initial.symbols.size ≤ id.index := Nat.le_of_not_lt fun hlt => by
      rw [h.ext.var? hlt, var?_initial] at hv
      cases hv
    have htail : t.scopeIds.tail = global :: initial.newScopes base := by
      rw [scopeIds, hret.scopes]
      exact tail_scopes h.ext.size_scopes
    rw [htail, flatMap_congr fun s _ => hret.symbolsOf s, flatMap_cons,
      show base.symbolsOf global = ids from hown, hperm.count_eq]
    refine count_eq_one_of_mem (List.Nodup.map (fun _ _ => SymbolId.mk.inj) nodup_range') ?_
    exact mem_newSymbols.mpr ⟨hlt, lt_size_of_var? hv⟩

namespace Analysis

/-- Typing changes nothing in the table but the types of variables, with or without faults. -/
theorem ofSource_retypes : (items initial (Script.read source report).1.items).table.Retypes
      (ofSource source report).table := by
  obtain ⟨ts, hread⟩ := Script.read_derived source report
  have hdeclares := script_declares hread
  have hdeclared := script_declared hread
  refine (Typing.items_complete global (items_scoped hread.pristine)
    ⟨fun hv hparam => ?_, fun _ =>
    hdeclares.mem_iff.mp⟩).retypes
  obtain ⟨ty, hty⟩ := hdeclared.clean.param hv hparam
  rw [hty]
  rfl

end Analysis

/-- **The text of a table.**  Whatever the source, with or without faults, the text of the global
scope is that of an outline.  Each scope holds its symbols in order of definition, variables as
themselves and functions as their scopes, and then the other scopes that lie in it, in order of
creation.  All scopes but the predefined one and all variables of the table are there once,
variables in the scope that they name and the scopes of functions in the scope that they lie in. -/
theorem dump_complete (source : String) (report : Report) :
    let t := (Analysis.ofSource source report).table
    ∃ draw : ScopeId → Outline, (∀ s, draw s = .scope s (t.inside draw s)) ∧
      t.dump global = (draw global).text t 0 ∧
      (draw global).scopes.Perm t.scopeIds.tail ∧
      (∀ id, (draw global).vars.count id = if (t.var? id).isSome then 1 else 0) ∧
      (∀ {s id v}, id ∈ t.symbolsOf s → t.var? id = some v → v.scope = s) ∧
      ∀ {s c}, c ∈ t.functionScopes s → t.parent? c = some s := by
  intro t
  obtain ⟨ts, hread⟩ := Script.read_derived source report
  have h : t.Laid := (items_grows hread.pristine stands_initial).laid
    (Analysis.ofSource_retypes source report)
  refine ⟨t.outline, h.outline_eq, ?_, h.scopes_global, h.vars_global, h.scope_of_var, fun hc =>
    h.parent_of_mem (mem_append_left _ hc)⟩
  exact h.dumpFrom_eq global (by decide) (lt_size_of_parent? h.root.2) 0 (by omega)

end WichToC

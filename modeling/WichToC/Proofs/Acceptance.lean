import WichToC.Proofs.Declared
import WichToC.Proofs.Faults
import WichToC.Proofs.Steps

/-!
# Accepted scripts

What is known of a script about which nothing was reported.  `base` is its table after declaring:
all scopes and symbols are there, and the variables that are no parameters have no types yet.
Typing its statements in order is a run of steps from `base` to the table of the analysis.

Typing gives every name the symbol that the name stands for in its scope: `Analysis.resolved` says
so of all names in expressions and of all targets of assignments, where nothing was reported.
-/

namespace WichToC

open Table Declare Typing

variable {ds : List Diagnostic}

/-- A script that was declared and typed without a fault. -/
structure Accepted (base : Table) (script : Script) (table : Table) : Prop where
  scope : script.scope = some global
  clean : base.Clean
  wellFormed : base.WellFormed
  global : base.kind? global = some .global
  placed : ∀ item ∈ script.items, item.Placed base
  resolves : ∀ item ∈ script.items, ItemResolves table item
  returns : ∀ s, .statement s ∈ script.items → s.Returns base Table.global
  /-- The global scope holds what the items define, in order. -/
  globals : base.symbolsOf Table.global = script.items.filterMap Item.defined?
  var : ∀ {id v}, base.var? id = some v →
    (v.isParameter = true ∧ ∃ ty ∈ Ty.builtins, v.ty = some ty) ∨
      (v.isParameter = false ∧ v.ty = none ∧ id ∈ definedIds script.nodes)
  /-- No two statements define the same variable. -/
  sorted : (definedIds script.nodes).Pairwise fun a b => a.index < b.index
  steps : Steps base script.nodes table
  around : table.parent? Table.global = some Table.predefined
  outermost : table.parent? predefined = none
  /-- Around the global scope there are no variables and no functions. -/
  predefined : ∀ id ∈ table.symbolsOf predefined, table.var? id = none ∧ table.func? id = none

namespace Accepted

variable {base table : Table} {script : Script}

section

variable (h : Accepted base script table)

include h

theorem retypes : base.Retypes table :=
  (h.steps.retypes_clean h.clean).1

theorem table_clean : table.Clean :=
  (h.steps.retypes_clean h.clean).2

theorem definedIds_nodup : (definedIds script.nodes).Nodup := by
  refine List.Pairwise.imp (fun {a b} hlt heq => ?_) h.sorted
  rw [heq] at hlt
  exact Nat.lt_irrefl _ hlt

end

end Accepted

section Retypes

variable {t t' : Table} {scope : ScopeId}

theorem Annotated.Resolves.retypes {e : Expr} (h : e.Resolves t scope) (hret : t.Retypes t') :
    e.Resolves t' scope := by
  intro n hn
  have hself := h n hn
  unfold ExprKind.Resolves at hself ⊢
  split <;> simp_all [hret.resolve]

theorem Located.Resolves.retypes {s : Stmt} (h : s.Resolves t scope) (hret : t.Retypes t') :
    s.Resolves t' scope := by
  induction h with
  | intro exprs target ret inside ih =>
    refine .intro (fun e he => (exprs e he).retypes hret) (fun ht => ?_) (fun hk => ?_) ih
    · rw [hret.resolve]
      exact target ht
    · intro id f hid hf
      rw [hret.enclosingFunction] at hid
      rw [hret.func?] at hf
      exact ret hk hid hf

theorem Typing.ItemResolves.retypes {item : Item} (h : ItemResolves t item) (hret : t.Retypes t') :
    ItemResolves t' item := by
  cases item with
  | function f => exact fun inner hinner s hs => (h inner hinner s hs).retypes hret
  | statement s => exact Located.Resolves.retypes h hret

end Retypes

/-- **Accepted scripts.**  A script as read that is declared and typed without a fault. -/
theorem accepted_of_faults {script : Script} {ts : List Token}
    (hread : script.Derived BeginsWithCall ts)
    (hdeclare : (Declare.script initial script).faults = [])
    (htype : (Typing.script (Declare.script initial script).table
      (Declare.script initial script).tree).faults = []) :
    Accepted (Declare.script initial script).table
      (Typing.script (Declare.script initial script).table
        (Declare.script initial script).tree).tree
      (Typing.script (Declare.script initial script).table
        (Declare.script initial script).tree).table := by
  have hd := items_grows hread.pristine stands_initial
  have hplaced := items_placed hread.pristine stands_initial hdeclare
  have hu := asRead_items (t := initial) hread.asRead
  have hdeclares := script_declares hread
  have hdeclared := script_declared hread
  have ht := items_types (.refl _) hdeclared.clean hplaced hu htype
  have hret := (ht.steps.retypes_clean hdeclared.clean).1
  exact {
    scope := rfl
    clean := hdeclared.clean
    wellFormed := hd.wellFormed
    global := (hd.ext.kind? _ (by decide)).trans rfl
    placed := ht.placed
    resolves := fun item hitem => (ht.resolves item hitem).retypes hret
    returns := ht.returns
    globals := by
      rw [show (Declare.script initial script).table.symbolsOf global = _ from
        items_own hread.pristine stands_initial hdeclare]
      exact ht.ids.symm
    var := fun hv => (hdeclared.var hv).imp_right fun h =>
      ⟨h.1, h.2, ht.allIds ▸ hdeclares.mem_iff.mpr ⟨_, hv, h.1⟩⟩
    sorted := ht.allIds ▸ hdeclares.sorted
    steps := ht.steps
    around := (hret.parent? _).trans ((hd.ext.parent? global (by decide)).trans rfl)
    outermost := (hret.parent? _).trans ((hd.ext.parent? predefined (by decide)).trans rfl)
    predefined := by
      intro id hid
      have hsame := (hret.symbolsOf predefined).trans (hd.frame _ (by decide) (by decide))
      have hlt : id.index < initial.symbols.size :=
        wellFormed_initial.bound _ id ((congrArg (id ∈ ·) hsame).mp hid)
      exact ⟨hret.var?_eq_none ((hd.ext.var? hlt).trans var?_initial),
        (hret.func? id).trans ((hd.ext.func? hlt).trans func?_initial)⟩ }

/-! ## Names -/

/-- The names of a script have the symbols that they stand for. -/
structure Script.Resolved (t : Table) (script : Script) : Prop where
  items : ∀ item ∈ script.items, ItemResolves t item
  /-- The scope of the parameters of a function knows the function. -/
  attached : ∀ f ∈ script.functions, ∃ scope, f.scope = some scope ∧ t.function? scope = f.symbol
  around : t.parent? global = some predefined
  outermost : t.parent? predefined = none
  /-- Around the global scope there are no variables and no functions. -/
  predefined : ∀ id ∈ t.symbolsOf predefined, t.var? id = none ∧ t.func? id = none

theorem Accepted.resolved {base t : Table} {script : Script} (hacc : Accepted base script t) :
    script.Resolved t := by
  refine ⟨hacc.resolves, fun f hf => ?_, hacc.around, hacc.outermost, hacc.predefined⟩
  obtain ⟨item, hitem, heq⟩ := List.mem_filterMap.mp hf
  cases item with
  | statement s => cases heq
  | function g =>
    cases heq
    obtain ⟨id, sig, hplaced⟩ := hacc.placed _ hitem
    refine ⟨sig.scope, hplaced.scope, ?_⟩
    rw [function?, hacc.retypes.scope?, hplaced.symbol]
    exact hplaced.attached

/-! ## Reports -/

theorem Report.addAll_addAll (report : Report) (ds ds' : List Diagnostic) :
    (report.addAll ds).addAll ds' = report.addAll (ds ++ ds') := by
  simp [addAll]

theorem Report.errorCount_addAll {report : Report} :
    (report.addAll ds).errorCount = report.errorCount + (ds.filter Diagnostic.isError).length := by
  simp [errorCount, errors, addAll]

/-- Where only errors were added, no error means that nothing was added. -/
theorem Report.eq_nil_of_errorCount (report : Report) (hds : AllErrors ds)
    (h : (report.addAll ds).errorCount = 0) : ds = [] := by
  rw [errorCount_addAll, List.filter_eq_self.mpr hds] at h
  exact List.length_eq_zero_iff.mp (by omega)

namespace Analysis

/-- The script was read, declared and typed without a fault. -/
def Faultless (a : Analysis) : Prop :=
  ∃ script ts, script.Derived BeginsWithCall ts ∧ (Declare.script initial script).faults = [] ∧
    (Typing.script (Declare.script initial script).table
      (Declare.script initial script).tree).faults = [] ∧
    a.script = (Typing.script (Declare.script initial script).table
      (Declare.script initial script).tree).tree ∧
    a.table = (Typing.script (Declare.script initial script).table
      (Declare.script initial script).tree).table

/-- Analysis adds errors to the report and nothing else. -/
theorem ofSource_spec (source : String) (report : Report) :
    ∃ faults, (ofSource source report).report = report.addAll faults ∧ AllErrors faults ∧
      (faults = [] → (ofSource source report).Faultless) := by
  obtain ⟨⟨ts, hread⟩, faults, hreport, herrors⟩ := Script.read_spec source report
  unfold ofSource ofScript
  generalize Script.read source report = read at hread hreport ⊢
  obtain ⟨script, report'⟩ := read
  dsimp only at hread hreport ⊢
  subst hreport
  refine ⟨_, Report.addAll_addAll _ _ _, ?_, fun hnil => ?_⟩
  · simp only [AllErrors.append]
    exact ⟨herrors, allErrors_script hread.pristine, allErrors_items _ _ _⟩
  · simp only [List.append_eq_nil_iff] at hnil
    exact ⟨script, ts, hread, hnil.2.1, hnil.2.2, rfl, rfl⟩

theorem Faultless.accepted {a : Analysis} (h : a.Faultless) :
    ∃ base, Accepted base a.script a.table := by
  obtain ⟨script, ts, hread, hdeclare, htype, hscript, htable⟩ := h
  rw [hscript, htable]
  exact ⟨_, accepted_of_faults hread hdeclare htype⟩

variable {source : String} {report : Report}

section

variable (h : (ofSource source report).report.hasErrors = false)

include h

/-- Where no error was reported there was no fault. -/
theorem faultless : (ofSource source report).Faultless := by
  obtain ⟨faults, hreport, herrors, hfaultless⟩ := ofSource_spec source report
  apply hfaultless
  rw [hreport] at h
  refine Report.eq_nil_of_errorCount report herrors ?_
  simpa [Report.hasErrors] using h

/-- A script about which no error was reported is accepted. -/
theorem accepted :
    ∃ base, Accepted base (ofSource source report).script (ofSource source report).table :=
  (faultless h).accepted

/-- **Resolved names.**  In a script without errors names have the symbols that they stand for. -/
theorem resolved : (ofSource source report).script.Resolved (ofSource source report).table := by
  obtain ⟨base, hacc⟩ := accepted h
  exact hacc.resolved

end

end Analysis

end WichToC

import Mathlib.Data.List.Find
import WichToC.Proofs.Regions

/-!
# Tables that operations reach

A table is changed by six operations, and `Table.RunsTo` lists what rows of them can make of it.
The tables that they make of the initial one are consistent: parents have smaller numbers, so the
loops outwards end, a scope has no two symbols of one name, and every symbol is in one scope.

Defining a symbol changes what a name stands for in the scopes that see the new symbol and nowhere
else (`Defines.resolve`).
-/

namespace WichToC.Table

open List

variable {t t' t'' : Table} {scope s : ScopeId} {symbol : Symbol} {id : SymbolId} {name : String}

/-- The ways to change a table. -/
inductive Operation where
  | pushScope (kind : ScopeKind) (name : String) (parent : Option ScopeId)
  | define (scope : ScopeId) (symbol : Symbol)
  | attachFunction (scope : ScopeId) (function : SymbolId)
  | setVariableTy (id : SymbolId) (ty : Ty)
  | setReturnTy (id : SymbolId) (ty : Ty)
  | addParameter (function param : SymbolId)

/-- The table after an operation.  A definition that is rejected leaves it as it is. -/
def Operation.run (t : Table) : Operation → Table
  | pushScope kind name parent => (t.pushScope kind name parent).2
  | define scope symbol => (t.define scope symbol).toOption.elim t Prod.snd
  | attachFunction scope function => t.attachFunction scope function
  | setVariableTy id ty => t.setVariableTy id ty
  | setReturnTy id ty => t.setReturnTy id ty
  | addParameter function param => t.addParameter function param

/-- A new scope lies in a scope of the table or in none, and a symbol is defined in a scope of the
table. -/
def Operation.Fits (t : Table) : Operation → Prop
  | pushScope _ _ parent => ∀ p ∈ parent, p.index < t.scopes.size
  | define scope _ => scope.index < t.scopes.size
  | _ => True

/-- The tables that rows of operations make of a table. -/
inductive RunsTo (allowed : Table → Operation → Prop) (t : Table) : Table → Prop
  | refl : RunsTo allowed t t
  | step {t' : Table} {op : Operation} (before : RunsTo allowed t t') (fits : allowed t' op) :
      RunsTo allowed t (op.run t')

theorem RunsTo.trans {allowed : Table → Operation → Prop} (h : RunsTo allowed t t')
    (h' : RunsTo allowed t' t'') : RunsTo allowed t t'' := by
  induction h' with
  | refl => exact h
  | step _ fits ih => exact .step ih fits

/-! ## What one operation does -/

/-- The symbols of all scopes and the names of all symbols are as before. -/
structure Keeps (t t' : Table) : Prop where
  size : t'.symbols.size = t.symbols.size
  symbolsOf : ∀ i, t'.symbolsOf i = t.symbolsOf i
  name? : ∀ i, (t'.symbol? i).map Symbol.name = (t.symbol? i).map Symbol.name

theorem keeps_pushScope {kind : ScopeKind} {parent : Option ScopeId} :
    t.Keeps (t.pushScope kind name parent).2 where
  size := by simp
  symbolsOf i := by
    rw [symbolsOf_pushScope]
    split
    · rename_i hi
      simp [symbolsOf, scope?, hi]
    · rfl
  name? i := by rw [symbol?_pushScope]

/-- A symbol that changes keeps its name. -/
theorem keeps_modifySymbol {change : Symbol → Symbol} (h : ∀ s, (change s).name = s.name)
    (id : SymbolId) : t.Keeps (t.modifySymbol id change) where
  size := by simp [modifySymbol]
  symbolsOf _ := rfl
  name? := read_modifySymbol (Option.map Symbol.name) (fun s => congrArg some (h s)) id

theorem run_define (scope : ScopeId) (symbol : Symbol) :
    (∃ held, t.define scope symbol = .error held ∧ (Operation.define scope symbol).run t = t) ∨
      ∃ id t', t.define scope symbol = .ok (id, t') ∧
        (Operation.define scope symbol).run t = t' := by
  cases h : t.define scope symbol with
  | error held => exact .inl ⟨held, rfl, by simp [Operation.run, h, Except.toOption]⟩
  | ok r => exact .inr ⟨r.1, r.2, rfl, by simp [Operation.run, h, Except.toOption]⟩

/-- An operation defines a symbol, or symbols and their names stay as they are. -/
theorem Operation.run_cases (t : Table) (op : Operation) : t.Keeps (op.run t) ∨
    ∃ scope symbol id, op = .define scope symbol ∧ t.Defines scope symbol id (op.run t) := by
  cases op with
  | pushScope kind name parent => exact .inl keeps_pushScope
  | define scope symbol =>
    rcases run_define (t := t) scope symbol with ⟨held, -, hrun⟩ | ⟨id, t', hok, hrun⟩
    · exact .inl ⟨by rw [hrun], fun _ => by rw [hrun], fun _ => by rw [hrun]⟩
    · exact .inr ⟨scope, symbol, id, rfl, hrun ▸ defines_of_define hok⟩
  | attachFunction scope f =>
    exact .inl ⟨rfl, symbolsOf_attachFunction scope f, fun _ => rfl⟩
  | setVariableTy id ty | setReturnTy id ty | addParameter id param =>
    exact .inl (keeps_modifySymbol (by rintro (_ | _ | _) <;> rfl) id)

/-- A parent was there before, or it is that of the new scope. -/
theorem Operation.parent?_run {op : Operation} {p : ScopeId} (h : (op.run t).parent? s = some p) :
    t.parent? s = some p ∨
      s.index = t.scopes.size ∧ ∃ kind name, op = .pushScope kind name (some p) := by
  cases op with
  | pushScope kind name parent =>
    rw [run, parent?_pushScope] at h
    split at h
    · exact .inr ⟨‹_›, kind, name, by rw [h]⟩
    · exact .inl h
  | define scope symbol =>
    rcases run_define (t := t) scope symbol with ⟨held, -, hrun⟩ | ⟨id, t', hok, hrun⟩ <;>
      rw [hrun] at h
    · exact .inl h
    · exact .inl ((defines_of_define hok).parent? s ▸ h)
  | attachFunction scope f => exact .inl (parent?_attachFunction scope f s ▸ h)
  | setVariableTy | setReturnTy | addParameter => exact .inl h

/-! ## Consistent tables -/

/-- What the operations keep. -/
structure Consistent (t : Table) : Prop extends t.WellFormed where
  owner : ∀ id : SymbolId, id.index < t.symbols.size → ∃! s, id ∈ t.symbolsOf s

theorem consistent_initial : initial.Consistent where
  toWellFormed := wellFormed_initial
  owner id hid := by
    refine ⟨predefined, ?_, fun s hs => ?_⟩
    · rcases id with ⟨i⟩
      exact mem_map_of_mem (mem_range.mpr hid)
    · rcases s with ⟨_ | _ | i⟩
      · rfl
      · cases hs
      · cases hs

theorem Consistent.step (h : t.Consistent) (op : Operation) (hfits : op.Fits t) :
    (op.run t).Consistent := by
  have hparent : ∀ {i p}, (op.run t).parent? i = some p → p.index < i.index := by
    intro i p hp
    rcases Operation.parent?_run hp with hold | ⟨hi, kind, name, rfl⟩
    · exact h.parent hold
    · rw [hi]
      exact hfits p rfl
  rcases op.run_cases t with hkeeps | ⟨scope, symbol, id, rfl, hdef⟩
  · refine ⟨h.toWellFormed.congr hkeeps.size hparent (fun i => .inl (hkeeps.symbolsOf i))
      hkeeps.name?, fun id hid => ?_⟩
    simp only [hkeeps.symbolsOf]
    exact h.owner id (hkeeps.size ▸ hid)
  · refine ⟨h.toWellFormed.define hdef, fun i hi => ?_⟩
    have hnew : ∀ s, id ∉ t.symbolsOf s := fun s hs =>
      absurd (h.bound s id hs) (by rw [hdef.id_eq]; exact Nat.lt_irrefl _)
    have hmem : ∀ s, i ∈ ((Operation.define scope symbol).run t).symbolsOf s ↔
        i ∈ t.symbolsOf s ∨ s = scope ∧ i = id := by
      intro s
      rw [hdef.symbolsOf]
      have hs : s = scope → s.index < t.scopes.size := fun he => he ▸ hfits
      grind
    simp only [hmem]
    by_cases heq : i = id
    · subst heq
      exact ⟨scope, .inr ⟨rfl, rfl⟩, fun s hs => (hs.resolve_left (hnew s)).1⟩
    · have hlt : i.index < t.symbols.size := by
        rcases i with ⟨i⟩
        rw [hdef.size_symbols] at hi
        rw [hdef.id_eq, SymbolId.mk.injEq] at heq
        dsimp only at hi ⊢
        omega
      obtain ⟨s, hs, huniq⟩ := h.owner i hlt
      exact ⟨s, .inl hs, fun s' hs' => huniq s' (hs'.resolve_right fun h => heq h.2)⟩

theorem RunsTo.consistent (h : RunsTo Operation.Fits initial t) : t.Consistent := by
  induction h with
  | refl => exact consistent_initial
  | step _ fits ih => exact ih.step _ fits

/-! ## The loops outwards -/

theorem WellFormed.chain_step (h : t.WellFormed) (s : ScopeId) :
    t.chain s = s :: ((t.parent? s).map t.chain).getD [] := by
  cases hp : t.parent? s with
  | none => exact chain_of_none hp
  | some p => exact h.chain_eq hp

theorem WellFormed.resolve_step (h : t.WellFormed) (s : ScopeId) (name : String) :
    t.resolve s name =
      (t.resolveLocal s name).or ((t.parent? s).bind fun p => t.resolve p name) := by
  rw [resolve, h.chain_step, findSome?_cons]
  cases t.resolveLocal s name with
  | some id => rfl
  | none => cases t.parent? s <;> rfl

theorem WellFormed.enclosingFunction_step (h : t.WellFormed) (s : ScopeId) :
    t.enclosingFunction s = (t.scope? s).bind fun here =>
      match here.kind with
      | .function => here.function
      | .block => here.parent.bind t.enclosingFunction
      | .global | .predefined => none := by
  rw [enclosingFunction, h.chain_step]
  cases hs : t.scope? s with
  | none => simp [kind?, hs]
  | some scope =>
    rcases scope with ⟨kind, name, parent, symbols, nested, function⟩
    have hkind : t.kind? s = some kind := by rw [kind?, hs, Option.map_some]
    have hparent : t.parent? s = parent := by rw [parent?, hs, Option.bind_some]
    cases kind <;> simp [hkind, hparent, hs]
    cases parent <;> simp [enclosingFunction]

/-! ## What a definition changes -/

/-- From a scope the name is looked for in the other scope, for no nearer one has it. -/
def Sees (t : Table) (s : ScopeId) (name : String) (scope : ScopeId) : Prop :=
  ∃ inner outer, t.chain s = inner ++ scope :: outer ∧ ∀ i ∈ inner, t.resolveLocal i name = none

theorem findSome?_update {α β : Type} [DecidableEq α] {f g : α → Option β} {a : α} {b : β}
    (hg : ∀ x, g x = if x = a then some b else f x) (xs : List α) :
    ((∃ inner outer, xs = inner ++ a :: outer ∧ ∀ x ∈ inner, f x = none) ∧
    xs.findSome? g = some b) ∨
      (¬ ∃ inner outer, xs = inner ++ a :: outer ∧ ∀ x ∈ inner, f x = none) ∧
        xs.findSome? g = xs.findSome? f := by
  induction xs with
  | nil => exact .inr ⟨by simp, rfl⟩
  | cons x xs ih =>
    by_cases hx : x = a
    · subst hx
      exact .inl ⟨⟨[], xs, rfl, nofun⟩, by simp [hg]⟩
    · have hstart : (∃ inner outer, x :: xs = inner ++ a :: outer ∧ ∀ y ∈ inner, f y = none) ↔
          f x = none ∧ ∃ inner outer, xs = inner ++ a :: outer ∧ ∀ y ∈ inner, f y = none := by
        constructor
        · rintro ⟨_ | ⟨y, inner⟩, outer, heq, hinner⟩
          · exact absurd (List.cons.inj heq).1 hx
          grind
        grind
      grind

section

variable (h : t.Defines scope symbol id t')
    (ht : t.WellFormed)
    (hscope : scope.index < t.scopes.size)

include h ht hscope

theorem Defines.resolveLocal (i : ScopeId) (name : String) : t'.resolveLocal i name =
      if i = scope ∧ name = symbol.name then some id else t.resolveLocal i name := by
  have hold : (t.symbolsOf i).find? (fun a => (t'.symbol? a).map Symbol.name = some name) =
      t.resolveLocal i name := by
    refine find?_congr fun a ha => ?_
    have hne : a ≠ id := by
      rintro rfl
      exact absurd (ht.bound i a ha) (by rw [h.id_eq]; exact Nat.lt_irrefl _)
    rw [h.symbol?, if_neg hne]
  have hself : t'.symbol? id = some symbol := by rw [h.symbol?, if_pos rfl]
  rw [Table.resolveLocal, h.symbolsOf]
  by_cases hi : i = scope
  · subst hi
    rw [if_pos ⟨rfl, hscope⟩, find?_append, hold, find?_singleton, hself]
    by_cases hname : name = symbol.name
    · simp [hname, h.free]
    · simp [hname, Ne.symm hname]
  · grind

/-- A name stands for the new symbol where it is looked for in the scope of that symbol, and for
what it stood for everywhere else. -/
theorem Defines.resolve (s : ScopeId) (name : String) :
    (name = symbol.name ∧ t.Sees s name scope ∧ t'.resolve s name = some id) ∨
      ¬ (name = symbol.name ∧ t.Sees s name scope) ∧ t'.resolve s name = t.resolve s name := by
  have hchain : t'.chain s = t.chain s := ht.chain_congr (ht.define h) fun i _ => h.parent? i
  rw [Table.resolve, Table.resolve, hchain]
  by_cases hname : name = symbol.name
  · have hlocal : ∀ i, t'.resolveLocal i name = if i =
        scope then some id else t.resolveLocal i name := by
      intro i
      rw [h.resolveLocal ht hscope]
      simp [hname]
    rcases findSome?_update hlocal (t.chain s) with ⟨hsees, hnew⟩ | ⟨hsees, hold⟩
    · exact .inl ⟨hname, hsees, hnew⟩
    · exact .inr ⟨fun hboth => hsees hboth.2, hold⟩
  · refine .inr ⟨fun hboth => hname hboth.1, ?_⟩
    simp only [h.resolveLocal ht hscope, hname, and_false, if_false]

end

/-- **Tables that operations reach.**  Parents have smaller numbers, so that the loops outwards end;
the symbols of a scope have different names; and every symbol is in one scope.  A definition is
rejected for the symbol of that name in the scope and changes nothing, or it adds a symbol with a
new number, which a name stands for exactly where the name is the new one and is looked for in that
scope. -/
theorem reached_consistent (h : RunsTo Operation.Fits initial t) :
    (∀ {s p}, t.parent? s = some p → p.index < s.index) ∧
    (∀ s name, t.resolve s name =
      (t.resolveLocal s name).or ((t.parent? s).bind fun p => t.resolve p name)) ∧
    (∀ s, t.enclosingFunction s = (t.scope? s).bind fun here =>
      match here.kind with
      | .function => here.function
      | .block => here.parent.bind t.enclosingFunction
      | .global | .predefined => none) ∧
    (∀ s, (t.namesIn s).Nodup) ∧
    (∀ id : SymbolId, id.index < t.symbols.size → ∃! s, id ∈ t.symbolsOf s) ∧
    ∀ scope symbol, scope.index < t.scopes.size →
      (∃ held, t.define scope symbol = .error held ∧ (Operation.define scope symbol).run t = t ∧
        held ∈ t.symbolsOf scope ∧ (t.symbol? held).map Symbol.name = some symbol.name) ∨
      ∃ id t', t.define scope symbol = .ok (id, t') ∧ (Operation.define scope symbol).run t = t' ∧
        t.symbol? id = none ∧ t'.symbol? id = some symbol ∧ id ∈ t'.symbolsOf scope ∧
        ∀ s name,
          (name = symbol.name ∧ t.Sees s name scope ∧ t'.resolve s name = some id) ∨
            ¬ (name = symbol.name ∧ t.Sees s name scope) ∧
              t'.resolve s name = t.resolve s name := by
  have ht := h.consistent
  refine ⟨ht.parent, ht.resolve_step, ht.enclosingFunction_step, fun s =>
    pairwise_map.mpr (ht.names s), ht.owner, fun scope symbol hscope => ?_⟩
  rcases run_define (t := t) scope symbol with ⟨held, herror, hrun⟩ | ⟨id, t', hok, hrun⟩
  · have hheld : t.resolveLocal scope symbol.name = some held := by
      unfold define at herror
      split at herror <;> cases herror
      assumption
    exact .inl ⟨held, herror, hrun, name_of_resolveLocal hheld⟩
  · have hdef := defines_of_define hok
    refine .inr ⟨id, t', hok, hrun, ?_, ?_, ?_, hdef.resolve ht.toWellFormed hscope⟩
    · simp [symbol?, hdef.id_eq]
    · rw [hdef.symbol?, if_pos rfl]
    · rw [hdef.symbolsOf, if_pos ⟨rfl, hscope⟩]
      simp

/-- A global variable and a block. -/
def blockBeside : Table :=
  (Operation.pushScope .block "local" (some global)).run
    ((Operation.define global (.var ⟨"x", none, global, false, ⟨0, 9⟩⟩)).run initial)

/-- A variable that is defined in a block hides the global one there and nowhere else. -/
theorem reached_consistent_hiding : RunsTo Operation.Fits initial blockBeside ∧ ∃ id t',
    blockBeside.define ⟨2⟩ (.var ⟨"x", none, ⟨2⟩, false, ⟨12, 21⟩⟩) = .ok (id, t') ∧
      t'.resolve ⟨2⟩ "x" = some id ∧ t'.resolve global "x" = blockBeside.resolve global "x" := by
  have hreached : RunsTo Operation.Fits initial blockBeside := by
    refine .step (.step .refl (Nat.lt_succ_self 1)) ?_
    rintro _ ⟨⟩
    decide
  obtain ⟨-, -, -, -, -, hdefine⟩ := reached_consistent hreached
  refine ⟨hreached, ?_⟩
  rcases hdefine ⟨2⟩ (.var ⟨"x", none, ⟨2⟩, false, ⟨12, 21⟩⟩) (by decide) with
    ⟨held, herror, -⟩ | ⟨id, t', hok, -, -, -, -, hresolve⟩
  · cases herror
  · refine ⟨id, t', hok, ?_, ?_⟩
    · obtain ⟨-, -, hnew⟩ | ⟨hnot, -⟩ := hresolve ⟨2⟩ "x"
      · exact hnew
      · exact absurd ⟨rfl, [], [global, predefined], by decide, nofun⟩ hnot
    · obtain ⟨-, ⟨inner, outer, hchain, -⟩, -⟩ | ⟨-, hsame⟩ := hresolve global "x"
      · have hmem : (⟨2⟩ : ScopeId) ∈ blockBeside.chain global := hchain ▸ by simp
        exact absurd hmem (by decide)
      · exact hsame

end WichToC.Table

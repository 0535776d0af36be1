import WichToC.Proofs.Elaboration
import WichToC.Proofs.Operations

/-!
# Declaring with faults

What declaring a script yields whether or not names are defined twice.  Declaring is a row of
operations on the table, and `Declare.Step` says which ones; what each of them keeps, the table
keeps (`Table.Declared`): parameters have the types that were written for them, and variables have
none. The definitions of the tree have the symbols of the variables, in order (`Table.Declares`),
and every block has a scope.

`Declare.script_declares` is the result for a script as read.
-/

namespace WichToC

open List Located Table

variable {t t' t'' : Table} {scope : ScopeId} {symbol : Symbol} {id : SymbolId}
  {ids ids' : List SymbolId}
    {s : Stmt} {op : Operation} {f : Function} {its : List Item} {script : Script} {ts : List Token}

/-! ## Operations of declaring -/

/-- A variable before typing: a parameter has the type that was written for it. -/
def Variable.IsBare (v : Variable) : Prop :=
  (v.isParameter = true ∧ ∃ ty ∈ Ty.builtins, v.ty = some ty) ∨ v.isParameter = false ∧ v.ty = none

/-- A scope of the table below the predefined one. -/
def Table.HasScope (t : Table) (scope : ScopeId) : Prop :=
  0 < scope.index ∧ scope.index < t.scopes.size

/-- The operations of declaring: scopes are made inside others, variables and functions are defined
in their scopes, and functions get parameters. -/
def Declare.Step (t : Table) : Operation → Prop
  | .pushScope kind _ parent => kind ≠ .predefined ∧ ∃ p, parent = some p ∧ t.HasScope p
  | .define scope symbol => t.HasScope scope ∧
    match symbol with
    | .var v => v.scope = scope ∧ v.IsBare
    | .func f => f.returnTy ≠ .error ∧ f.params = [] ∧ t.parent? f.scope = some scope ∧
      (t.scope? f.scope).map Scope.name = some f.name
    | .type _ => False
  | .attachFunction .. => True
  | .addParameter _ p => ∃ v, t.var? p = some v ∧ v.isParameter = true
  | .setVariableTy .. | .setReturnTy .. => False

theorem Table.hasScope_pushScope (kind : ScopeKind) (name : String) (h : t.HasScope scope) :
    (t.pushScope kind name (some scope)).2.HasScope ⟨t.scopes.size⟩ :=
  ⟨Nat.zero_lt_of_lt h.2, by simp⟩

/-- A table with more scopes and symbols, where variables are as before. -/
structure Table.Later (t t' : Table) : Prop where
  scopes : t.scopes.size ≤ t'.scopes.size
  symbols : t.symbols.size ≤ t'.symbols.size
  var? : ∀ {id}, id.index < t.symbols.size → t'.var? id = t.var? id

theorem Table.Later.refl (t : Table) : t.Later t := ⟨Nat.le_refl _, Nat.le_refl _, fun _ => rfl⟩

theorem Table.Later.trans (h : t.Later t') (h' : t'.Later t'') : t.Later t'' :=
  ⟨Nat.le_trans h.scopes h'.scopes, Nat.le_trans h.symbols h'.symbols,
    fun hid => (h'.var? (Nat.lt_of_lt_of_le hid h.symbols)).trans (h.var? hid)⟩

namespace Declare

theorem Step.later (h : Step t op) : t.Later (op.run t) := by
  have of_extends : ∀ {t'}, t.Extends t' → t.Later t' := fun h =>
    ⟨h.size_scopes, h.size_symbols, h.var?⟩
  cases op with
  | pushScope => exact of_extends (.pushScope ..)
  | define scope symbol =>
    rcases run_define (t := t) scope symbol with ⟨held, -, hrun⟩ | ⟨id, t', hok, hrun⟩ <;> rw [hrun]
    · exact .refl t
    · exact of_extends (.define (defines_of_define hok))
  | attachFunction =>
    exact ⟨by simp [Operation.run, attachFunction, modifyScope], Nat.le_refl _, fun _ => rfl⟩
  | addParameter f p =>
    exact ⟨Nat.le_refl _, by simp [Operation.run, addParameter, modifySymbol],
      fun _ => var?_addParameter f p _⟩
  | setVariableTy | setReturnTy => exact h.elim

theorem later_of_runs (h : RunsTo Step t t') : t.Later t' := by
  induction h with
  | refl => exact .refl t
  | step _ fits ih => exact ih.trans fits.later

/-- A symbol was there before or is the new one, or it is a function with one more parameter. -/
theorem Step.symbol?_cases (h : Step t op) (hs : (op.run t).symbol? id = some symbol) :
    t.symbol? id = some symbol ∨ (∃ scope, op = .define scope symbol) ∨
      ∃ f p, op = .addParameter id p ∧ t.func? id = some f ∧
        symbol = .func { f with params := f.params ++ [p] } := by
  cases op with
  | pushScope => exact .inl (by rwa [Operation.run, symbol?_pushScope] at hs)
  | define scope symbol =>
    rcases run_define (t := t) scope symbol with ⟨held, -, hrun⟩ | ⟨new, t', hok, hrun⟩ <;>
      rw [hrun] at hs
    · exact .inl hs
    · rw [(defines_of_define hok).symbol?] at hs
      grind
  | attachFunction => exact .inl hs
  | addParameter f p =>
    rw [Operation.run, addParameter, symbol?_modifySymbol] at hs
    split at hs
    · rename_i hid
      obtain ⟨symbol, hold, rfl⟩ := Option.map_eq_some_iff.mp hs
      cases symbol with
      | func g => exact .inr (.inr ⟨g, p, hid ▸ rfl, by rw [func?, hold]; rfl, rfl⟩)
      | type | var => exact .inl hold
    · exact .inl hs
  | setVariableTy | setReturnTy => exact h.elim

end Declare

structure Table.Declared (t : Table) : Prop where
  var : ∀ {id v}, t.var? id = some v → v.IsBare
  func : ∀ {id f}, t.func? id = some f → f.returnTy ≠ .error ∧
    ∀ p ∈ f.params, ∃ v, t.var? p = some v ∧ v.isParameter = true

theorem Table.var?_initial : initial.var? id = none := by
  rcases id with ⟨_ | _ | _ | _ | _ | n⟩ <;> rfl

theorem Table.func?_initial : initial.func? id = none := by
  rcases id with ⟨_ | _ | _ | _ | _ | n⟩ <;> rfl

theorem Table.declared_initial : initial.Declared where
  var hv := by simp [var?_initial] at hv
  func hf := by simp [func?_initial] at hf

theorem Table.Declared.step (h : t.Declared) (hstep : Declare.Step t op) : (op.run t).Declared := by
  have hkept : ∀ {p v}, t.var? p = some v → (op.run t).var? p = some v := fun hv =>
    (hstep.later.var? (lt_size_of_var? hv)).trans hv
  have hparams : ∀ {id f}, t.func? id = some f →
      ∀ p ∈ f.params, ∃ v, (op.run t).var? p = some v ∧ v.isParameter = true := fun hf p hp =>
    ((h.func hf).2 p hp).imp fun _ hv => ⟨hkept hv.1, hv.2⟩
  constructor
  case var =>
    intro id v hv
    rcases hstep.symbol?_cases (symbol?_of_var? hv) with hold | ⟨scope, rfl⟩ | ⟨f, p, -, -, heq⟩
    · exact h.var (by rw [var?, hold]; rfl)
    · exact hstep.2.2
    · cases heq
  case func =>
    intro id f hf
    rcases hstep.symbol?_cases (symbol?_of_func? hf) with hold | ⟨scope, rfl⟩ | ⟨g, p, rfl, hg, heq⟩
    · have hold : t.func? id = some f := by rw [func?, hold]; rfl
      exact ⟨(h.func hold).1, hparams hold⟩
    · obtain ⟨-, hreturn, hnone, -⟩ := hstep
      exact ⟨hreturn, hnone ▸ (by simp)⟩
    · cases heq
      refine ⟨(h.func hg).1, forall_mem_append.mpr ⟨hparams hg, forall_mem_singleton.mpr ?_⟩⟩
      exact hstep.imp fun _ hv => ⟨hkept hv.1, hv.2⟩

theorem Declare.declared_of_runs (h : RunsTo Step t t') (ht : t.Declared) : t'.Declared := by
  induction h with
  | refl => exact ht
  | step _ fits ih => exact ih.step fits

/-- Typing can start from a declared table. -/
theorem Table.Declared.clean (h : t.Declared) : t.Clean where
  ty {id v} hv herror := by
    rcases h.var hv with ⟨-, ty, hmem, hty⟩ | ⟨-, hty⟩
    · rw [hty] at herror
      cases herror
      simp [Ty.builtins] at hmem
    · rw [hty] at herror
      cases herror
  param {id v} hv hparam := by
    rcases h.var hv with ⟨-, ty, -, hty⟩ | ⟨hnot, -⟩
    · exact ⟨ty, hty⟩
    · rw [hnot] at hparam
      cases hparam
  returnTy hf := (h.func hf).1
  params hf := (h.func hf).2

/-! ## Definitions -/

/-- The variables that a later table adds, without parameters. -/
def Table.newVars (t t' : Table) : List SymbolId :=
  (t.newSymbols t').filter fun id => (t'.var? id).any fun v => !v.isParameter

/-- Declaring made one table from another, and `ids` are the variables that it added. -/
structure Table.Declares (t t' : Table) (ids : List SymbolId) : Prop where
  runs : RunsTo Declare.Step t t'
  ids : ids = t.newVars t'

namespace Table.Declares

theorem refl (t : Table) : t.Declares t [] :=
  ⟨.refl, by rw [newVars, newSymbols_of_size rfl]; rfl⟩

theorem later (h : t.Declares t' ids) : t.Later t' := Declare.later_of_runs h.runs

theorem hasScope (h : t.Declares t' ids) (hscope : t.HasScope scope) : t'.HasScope scope :=
  ⟨hscope.1, Nat.lt_of_lt_of_le hscope.2 h.later.scopes⟩

theorem append (h : t.Declares t' ids) (h' : t'.Declares t'' ids') :
    t.Declares t'' (ids ++ ids') where
  runs := h.runs.trans h'.runs
  ids := by
    rw [h.ids, h'.ids, newVars, newVars, newVars, newSymbols_trans h.later.symbols h'.later.symbols,
      filter_append]
    congr 1
    exact filter_congr fun id hid => by rw [h'.later.var? (mem_newSymbols.mp hid).2]

/-- An operation that adds no symbol. -/
theorem step (op : Operation) (hstep : Declare.Step t op)
    (hsize : (op.run t).symbols.size = t.symbols.size) : t.Declares (op.run t) [] :=
  ⟨.step .refl hstep, by rw [newVars, newSymbols_of_size hsize]; rfl⟩

theorem pushScope (kind : ScopeKind) (name : String) (hkind : kind ≠ .predefined)
    (hscope : t.HasScope scope) : t.Declares (t.pushScope kind name (some scope)).2 [] :=
  step (.pushScope kind name (some scope)) ⟨hkind, scope, rfl, hscope⟩
    (congrArg Array.size (symbols_pushScope ..))

theorem define (hok : t.define scope symbol = .ok (id, t'))
    (hstep : Declare.Step t (.define scope symbol)) :
    t.Declares t' (bif symbol.var?.any fun v => !v.isParameter then [id] else []) where
  runs := by
    have hruns : RunsTo Declare.Step t _ := .step .refl hstep
    rwa [Operation.run, hok] at hruns
  ids := by
    have hdef := defines_of_define hok
    rw [newVars, newSymbols_succ hdef.size_symbols, ← hdef.id_eq, filter_singleton, var?,
      hdef.symbol?, if_pos rfl]
    rfl

/-- The definitions are the variables of the later table. -/
theorem mem_iff (h : initial.Declares t ids) :
    id ∈ ids ↔ ∃ v, t.var? id = some v ∧ v.isParameter = false := by
  rw [h.ids, newVars, mem_filter, mem_newSymbols]
  refine ⟨fun hid => by simpa [Option.any_eq_true] using hid.2, ?_⟩
  rintro ⟨v, hv, hparam⟩
  refine ⟨⟨?_, lt_size_of_var? hv⟩, by simp [hv, hparam]⟩
  by_contra hlt
  rw [h.later.var? (Nat.not_le.mp hlt), var?_initial] at hv
  cases hv

theorem sorted (h : t.Declares t' ids) : ids.Pairwise fun a b => a.index < b.index := by
  rw [h.ids]
  exact .filter _ (pairwise_map.mpr pairwise_lt_range')

end Table.Declares

/-! ## Statements -/

/-- A plain statement has plain blocks. -/
theorem Located.blocks_plain (h : s.plain = s) : ∀ b ∈ s.kind.blocks, b.plain = b := by
  rcases s with ⟨kind, span⟩
  rw [plain, mk.injEq] at h
  replace h := h.1
  cases kind with
  | ifElse cond thenBlock elseBlock =>
    cases elseBlock <;> simp_all [StmtKind.plain, StmtKind.blocks]
  | loop cond body | block body => simp_all [StmtKind.plain, StmtKind.blocks]
  | define | assign | assignElement | call | print | ret => simp

/-- A plain block has plain statements. -/
theorem BlockOf.statements_plain {b : Block} (h : b.plain = b) :
    ∀ s ∈ b.statements, s.plain = s := by
  rw [BlockOf.plain_eq] at h
  have hmap : b.statements.map Located.plain = b.statements.map id := by
    rw [map_id]
    exact congrArg BlockOf.statements h
  exact map_inj_left.mp hmap

namespace Declare

/-- Declaring a plain statement in a scope of a table. -/
def StmtDeclares (s : Stmt) : Prop :=
  s.plain = s → ∀ {scope : ScopeId} {t : Table}, t.HasScope scope →
    t.Declares (stmt scope t s).table (allDefinedIds [(stmt scope t s).tree])

theorem define_declares {name : String} {value : Expr} {span : Span} (hscope : t.HasScope scope) :
    t.Declares (stmt scope t ⟨.define name value none, span⟩).table
      (allDefinedIds [(stmt scope t ⟨.define name value none, span⟩).tree]) := by
  simp only [stmt, stmtKind, Passed.map]
  split
  case h_1 id t' hok => exact .define hok ⟨hscope, rfl, .inr ⟨rfl, rfl⟩⟩
  case h_2 => exact .refl t

theorem stmts_declares_of {ss : List Stmt} (hss : ∀ s ∈ ss, StmtDeclares s)
    (hplain : ∀ s ∈ ss, s.plain = s) (hscope : t.HasScope scope) :
    t.Declares (stmts scope t ss).table (allDefinedIds (stmts scope t ss).tree) := by
  induction ss generalizing t with
  | nil => exact .refl t
  | cons s ss ih =>
    obtain ⟨hs, hss⟩ := forall_mem_cons.mp hss
    obtain ⟨hfirst, hrest⟩ := forall_mem_cons.mp hplain
    have hs := hs hfirst hscope
    rw [stmts, allDefinedIds_cons]
    exact hs.append (ih hss hrest (hs.hasScope hscope))

theorem block_declares_of {b : Block} (hb : ∀ s ∈ b.statements, StmtDeclares s)
    (hplain : b.plain = b) (hscope : t.HasScope scope) :
    t.Declares (block scope t b).table (definedIds (block scope t b).tree.nodes) := by
  have hinside := BlockOf.statements_plain hplain
  rcases b with ⟨statements, span, old⟩
  simp only [block, pushScope_fst]
  rw [BlockOf.nodes_eq]
  exact (Declares.pushScope .block "local" (by simp) hscope).append
    (stmts_declares_of hb hinside (hasScope_pushScope _ _ hscope))

/-- A statement that defines nothing itself is declared by declaring its blocks. -/
theorem declares_of_blocks (hs : s.defined? = none)
    (h : t.Declares t' (definedIds (s.kind.blocks.flatMap BlockOf.nodes))) :
    t.Declares t' (allDefinedIds [s]) := by
  have hids : allDefinedIds [s] = definedIds (s.kind.blocks.flatMap BlockOf.nodes) := by
    simp [allDefinedIds, nodes_eq, definedIds, hs]
  rwa [hids]

/-- **Declaring a statement.** -/
theorem stmt_declares : StmtDeclares s := by
  induction s using Stmt.induction with
  | step s ih =>
    intro hplain scope t hscope
    have hblocks := blocks_plain hplain
    rcases s with ⟨kind, span⟩
    have hblock : ∀ b ∈ kind.blocks, ∀ {t : Table}, t.HasScope scope →
        t.Declares (block scope t b).table (definedIds (block scope t b).tree.nodes) :=
      fun b hb _ => block_declares_of (ih b hb) (hblocks b hb)
    cases kind with
    | define name value symbol =>
      obtain rfl : symbol = none := (congrArg defined? hplain).symm
      exact define_declares hscope
    | assign | assignElement | call | print | ret => exact .refl t
    | loop cond body | block body =>
      have hbody := hblock body (.head _) hscope
      exact declares_of_blocks rfl (by simpa [stmt, stmtKind, Passed.map] using hbody)
    | ifElse cond thenBlock elseBlock =>
      have hthen := hblock thenBlock (.head _) hscope
      cases elseBlock with
      | none =>
        exact declares_of_blocks rfl (by simpa [stmt, stmtKind, Passed.map] using hthen)
      | some elseBlock =>
        have helse := hthen.append (hblock elseBlock (.tail _ (.head _)) (hthen.hasScope hscope))
        exact declares_of_blocks rfl (by simpa [stmt, stmtKind, Passed.map, definedIds] using helse)

/-! ## Functions -/

theorem params_declares (function : Option SymbolId) {ps : List Param}
    (hps : ∀ p ∈ ps, p.mark.ty ∈ Ty.builtins) (hscope : t.HasScope scope) :
    t.Declares (params scope function t ps).1 [] := by
  induction ps generalizing t with
  | nil => exact .refl t
  | cons p ps ih =>
    obtain ⟨hp, hps⟩ := forall_mem_cons.mp hps
    have hrest : ∀ {t' : Table}, t.Declares t' [] → t.Declares (params scope function t' ps).1 [] :=
      fun h => h.append (ih hps (h.hasScope hscope))
    simp only [params]
    split
    case h_2 => exact hrest (.refl t)
    case h_1 id t' hok =>
      have hdefined : t.Declares t' [] := .define hok ⟨hscope, rfl, .inl ⟨rfl, _, hp, rfl⟩⟩
      cases function with
      | none => exact hrest hdefined
      | some f =>
        refine hrest (hdefined.append (.step (.addParameter f id) ⟨p.toVariable scope, ?_, rfl⟩ ?_))
        · rw [var?, (defines_of_define hok).symbol?, if_pos rfl]
          rfl
        · simp [Operation.run, addParameter, modifySymbol]

theorem function_declares (hplain : f.plain = f) (hmarks : f.HasWrittenTypes)
    (hglobal : t.HasScope global) :
    t.Declares (function t f).table (definedIds (function t f).tree.body.nodes) := by
  have hreturn : (f.returnMark.map TypeMark.ty).getD .void ≠ .error := by
    cases hmark : f.returnMark with
    | none => simp
    | some mark =>
      intro herror
      have hmem := hmarks.result mark hmark
      rw [show mark.ty = .error from herror] at hmem
      simp [Ty.builtins] at hmem
  have hpush := Declares.pushScope .function f.name (by simp) hglobal
  have hscope := hasScope_pushScope .function f.name hglobal
  -- The parameters and the body are declared once the function has its scope and its symbol.
  have hinside : ∀ {t' : Table} (symbol : Option SymbolId), t.Declares t' [] →
    t'.HasScope ⟨t.scopes.size⟩ →
      t.Declares (block ⟨t.scopes.size⟩ (params ⟨t.scopes.size⟩ symbol t' f.params).1 f.body).table
        (definedIds (block ⟨t.scopes.size⟩ (params ⟨t.scopes.size⟩ symbol t' f.params).1
          f.body).tree.nodes) := by
    intro t' symbol h hscope
    have hparams := params_declares symbol hmarks.params hscope
    exact (h.append hparams).append (block_declares_of (fun s _ => stmt_declares)
      (congrArg Function.body hplain) (hparams.hasScope hscope))
  simp only [function, pushScope_fst]
  split
  case h_2 => exact hinside f.symbol hpush hscope
  case h_1 id t₁ hok =>
    have hdefined := Declares.define hok ⟨hpush.hasScope hglobal, hreturn, rfl, ?_, ?_⟩
    · have hattached := hdefined.append (.step (.attachFunction ⟨t.scopes.size⟩ id) trivial rfl)
      exact hinside (some id) (hpush.append hattached) (hattached.hasScope hscope)
    · rw [parent?_pushScope, if_pos rfl]
    · exact (read_pushScope .function f.name (some global) (Option.map Scope.name) (fun _ _ => rfl)
        ⟨t.scopes.size⟩).trans (if_pos rfl)

end Declare

/-! ## Scripts -/

/-- All blocks of a statement and of the statements inside it have scopes. -/
def Located.Scoped (s : Stmt) : Prop :=
  ∀ c ∈ s.nodes, ∀ b ∈ c.kind.blocks, b.scope.isSome

structure BlockOf.Scoped (b : Block) : Prop where
  scope : b.scope.isSome
  inside : ∀ s ∈ b.statements, s.Scoped

/-- All blocks and functions of an item have scopes. -/
def Item.Scoped : Item → Prop
  | .function f => f.scope.isSome ∧ f.body.Scoped
  | .statement s => s.Scoped

theorem Located.scoped_iff : s.Scoped ↔ ∀ b ∈ s.kind.blocks, b.Scoped := by
  refine forall_nodes.trans ⟨fun ⟨h, h'⟩ b hb => ⟨h b hb, h' b hb⟩, fun h => ?_⟩
  exact ⟨fun b hb => (h b hb).scope, fun b hb => (h b hb).inside⟩

theorem Located.scoped_of_regions {around : List (Option ScopeId)}
    (h : ∀ r ∈ s.regions around, r.scope.isSome) : s.Scoped := by
  induction s using Stmt.induction generalizing around with
  | step s ih =>
    refine scoped_iff.mpr fun b hb => ?_
    have hregions : ∀ r ∈ b.regions around, r.scope.isSome := fun r hr =>
      h r (by rw [regions_eq]; exact mem_flatMap.mpr ⟨b, hb, hr⟩)
    rw [BlockOf.regions_eq] at hregions
    obtain ⟨hscope, hinside⟩ := forall_mem_cons.mp hregions
    exact ⟨hscope, fun c hc => ih b hb c hc fun r hr => hinside r (mem_flatMap.mpr ⟨c, hc, hr⟩)⟩

namespace Declare

/-- Every block and every function gets a scope. -/
theorem items_scoped (hits : ∀ item ∈ its, item.Pristine) :
    ∀ item ∈ (items initial its).tree, item.Scoped := by
  have hregions : ∀ item ∈ (items initial its).tree, ∀ r ∈ item.regions [some global],
      r.scope.isSome := by
    intro item hitem r hr
    obtain ⟨i, -, hsettled⟩ := exists_of_forall₂ (items_grows hits stands_initial).regions.flip
      (mem_flatMap.mpr ⟨item, hitem, hr⟩)
    rw [hsettled.scope]
    rfl
  intro item hitem
  cases item with
  | statement s => exact scoped_of_regions (hregions _ hitem)
  | function f =>
    obtain ⟨hscope, hbody⟩ := forall_mem_cons.mp (hregions _ hitem)
    have hblock : Located.Scoped ⟨.block f.body, f.span⟩ := scoped_of_regions hbody
    exact ⟨hscope, scoped_iff.mp hblock _ (.head _)⟩

theorem items_declares (hplain : ∀ item ∈ its, item.plain = item)
    (hread : ∀ item ∈ its, item.AsRead) (hglobal : t.HasScope global) :
    t.Declares (items t its).table (definedIds ((items t its).tree.flatMap Item.nodes)) := by
  induction its generalizing t with
  | nil => exact .refl t
  | cons item its ih =>
    obtain ⟨hfirst, hothers⟩ := forall_mem_cons.mp hplain
    obtain ⟨hitem, hreads⟩ := forall_mem_cons.mp hread
    have hrest : ∀ {t' : Table} {ids}, t.Declares t' ids →
        t.Declares (items t' its).table
          (ids ++ definedIds ((items t' its).tree.flatMap Item.nodes)) :=
      fun h => h.append (ih hothers hreads (h.hasScope hglobal))
    cases item with
    | function f =>
      have hf := hrest (function_declares (Item.function.inj hfirst) hitem.2 hglobal)
      simpa [items, definedIds, Item.nodes] using hf
    | statement s =>
      have hs := hrest (stmt_declares (Item.statement.inj hfirst) hglobal)
      simpa [items, allDefinedIds, definedIds, Item.nodes] using hs

/-- **Declaring a script.**  The table after declaring a script that was read, with or without
faults. -/
theorem script_declares (h : script.Derived BeginsWithCall ts) :
    initial.Declares (Declare.script initial script).table
      (definedIds (Declare.script initial script).tree.nodes) := by
  have hplain : script.items.map Item.plain = script.items.map id := by
    rw [map_id]
    exact congrArg Script.items h.plain_eq
  exact items_declares (map_inj_left.mp hplain) h.asRead ⟨by decide, by decide⟩

theorem script_declared (h : script.Derived BeginsWithCall ts) :
    (Declare.script initial script).table.Declared :=
  declared_of_runs (script_declares h).runs declared_initial

end Declare

end WichToC

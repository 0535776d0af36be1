import Mathlib.Data.List.Forall2
import Mathlib.Data.List.Nodup
import WichToC.Analysis.Declare
import WichToC.Proofs.Table

/-!
# Regions of a script

A `Region` is a part of a script with a scope of its own: the whole script, the header of a
function, or a block.  `Script.regions` lists the regions of a declared script from the outside in
and in source order, each with the scopes that the tree records for the regions around it.

A region is recorded in a table (`Region.Recorded`) if its scope lies in the scopes around it and
its symbols are the definitions of the region whose name no earlier one has.  `Grows` says what
declaring a part of a region does: its definitions go to the scope of the region, and the regions
inside it are recorded in new scopes.
-/

namespace WichToC

open List Table

variable {p scope s i : ScopeId} {names earlier : List String} {ds : List Definition}
    {d : Definition}

/-! ## Definitions and regions -/

/-- The variable that a parameter becomes in the scope of its function. -/
def Param.toVariable (p : Param) (scope : ScopeId) : Variable :=
  { name := p.name, ty := some p.mark.ty, scope := scope, isParameter := true, span := p.span }

inductive Definition where
  | var (name : String) (span : Span) (symbol : Option SymbolId)
  | param (p : Param)
  | func (f : Function)

namespace Definition

def name : Definition → String
  | var name _ _ => name
  | param p => p.name
  | func f => f.name

def span : Definition → Span
  | var _ span _ => span
  | param p => p.span
  | func f => f.span

/-- The scope of the header of a function. -/
def head? : Definition → Option ScopeId
  | func f => f.scope
  | var .. | param _ => none

/-- The report of a name that is defined twice. -/
def redefined (d : Definition) : Diagnostic :=
  (Fault.redefinition d.name).located d.span

/-- The definitions whose name no earlier one has. -/
def firsts (earlier : List String) : List Definition → List Definition
  | [] => []
  | d :: ds =>
    if d.name ∈ earlier then firsts (d.name :: earlier) ds else d :: firsts (d.name :: earlier) ds

/-- The definitions whose name an earlier one has. -/
def repeats (earlier : List String) : List Definition → List Definition
  | [] => []
  | d :: ds =>
    if d.name ∈ earlier then d :: repeats (d.name :: earlier) ds else repeats (d.name :: earlier) ds

/-- The symbol of a definition in the scope of its region.  A function has the symbols of its own
scope as its parameters. -/
inductive HeldBy (t : Table) (scope : ScopeId) : Definition → SymbolId → Prop
  | var {name : String} {span : Span} {id : SymbolId}
      (symbol : t.var? id = some
        { name := name, ty := none, scope := scope, isParameter := false, span := span }) :
      HeldBy t scope (.var name span (some id)) id
  | param {p : Param} {id : SymbolId}
      (symbol : t.var? id = some (p.toVariable scope)) : HeldBy t scope (.param p) id
  | func {f : Function} {inner : ScopeId} {id : SymbolId} (recorded : f.symbol = some id)
      (own : f.scope = some inner) (parent : t.parent? inner = some scope)
      (symbol : t.func? id = some
        { name := f.name, returnTy := (f.returnMark.map TypeMark.ty).getD .void,
          params := t.symbolsOf inner, scope := inner, span := f.span }) :
      HeldBy t scope (.func f) id

end Definition

/-- A part of a script with a scope of its own. -/
structure Region where
  scope : Option ScopeId
  /-- The scopes of the regions around it, from the inside out. -/
  around : List (Option ScopeId)
  definitions : List Definition

/-- The variable that a statement defines. -/
def Located.definition? (s : Stmt) : Option Definition :=
  match s.kind with
  | .define name _ symbol => some (.var name s.span symbol)
  | _ => none

def Item.definition? : Item → Option Definition
  | .function f => some (.func f)
  | .statement s => s.definition?

mutual

/-- The blocks of a statement. -/
def StmtKind.regions (around : List (Option ScopeId)) : StmtKind → List Region
  | .ifElse _ thenBlock none => BlockOf.regions around thenBlock
  | .ifElse _ thenBlock (some elseBlock) =>
    BlockOf.regions around thenBlock ++ BlockOf.regions around elseBlock
  | .loop _ body | .block body => BlockOf.regions around body
  | .define .. | .assign .. | .assignElement .. | .call _ | .print _ | .ret _ => []

/-- The blocks of a statement, within the given scopes. -/
def Located.regions (around : List (Option ScopeId)) : Stmt → List Region
  | ⟨kind, _⟩ => kind.regions around

def BlockOf.regions (around : List (Option ScopeId)) : Block → List Region
  | ⟨statements, _, scope⟩ =>
    ⟨scope, around, statements.filterMap Located.definition?⟩ ::
      stmtsRegions (scope :: around) statements

/-- The blocks of statements. -/
def stmtsRegions (around : List (Option ScopeId)) : List Stmt → List Region
  | [] => []
  | s :: ss => Located.regions around s ++ stmtsRegions around ss

end

/-- The header of a function, and its body inside. -/
def Function.regions (around : List (Option ScopeId)) (f : Function) : List Region :=
  ⟨f.scope, around, f.params.map .param⟩ :: f.body.regions (f.scope :: around)

def Item.regions (around : List (Option ScopeId)) : Item → List Region
  | .function f => f.regions around
  | .statement s => s.regions around

/-- The regions of a script: the script itself, and what is inside it. -/
def Script.regions (script : Script) : List Region :=
  ⟨script.scope, [], script.items.filterMap Item.definition?⟩ ::
    script.items.flatMap (Item.regions [script.scope])

/-- A region has a scope, which lies in the scopes around the region and holds what it defines. -/
structure Region.Recorded (t : Table) (r : Region) (s : ScopeId) : Prop where
  scope : r.scope = some s
  chain : (t.chain s).map some = r.scope :: r.around ++ [some predefined]
  symbols : Forall₂ (Definition.HeldBy t s) (Definition.firsts [] r.definitions) (t.symbolsOf s)

/-! ## Later tables -/

namespace Table

variable {t t' t'' : Table} {s : ScopeId}

/-- The scopes that a later table adds. -/
def newScopes (t t' : Table) : List ScopeId :=
  (range' t.scopes.size (t'.scopes.size - t.scopes.size)).map ScopeId.mk

theorem newScopes_trans (h₁ : t.scopes.size ≤ t'.scopes.size)
    (h₂ : t'.scopes.size ≤ t''.scopes.size) :
    newScopes t t'' = newScopes t t' ++ newScopes t' t'' := by
  rw [newScopes, range'_trans h₁ h₂, map_append]
  rfl

theorem newScopes_of_size (h : t'.scopes.size = t.scopes.size) : newScopes t t' = [] := by
  rw [newScopes, h, Nat.sub_self]
  rfl

theorem newScopes_succ (h : t'.scopes.size = t.scopes.size + 1) :
    newScopes t t' = [⟨t.scopes.size⟩] := by
  rw [newScopes, h, Nat.add_sub_cancel_left]
  rfl

theorem mem_newScopes (h : s ∈ newScopes t t') :
    t.scopes.size ≤ s.index ∧ s.index < t'.scopes.size := by
  obtain ⟨i, hi, rfl⟩ := mem_map.mp h
  have := mem_range'_1.mp hi
  dsimp only
  omega

theorem nodup_newScopes : (t.newScopes t').Nodup :=
  Nodup.map (fun _ _ => ScopeId.mk.inj) nodup_range'

theorem chain_of_none (h : t.parent? s = none) : t.chain s = [s] := by
  have h : (t.scope? s).bind Scope.parent = none := h
  rw [chain, chainFrom, h]

/-- The scopes around a scope stay if none of them gets another parent. -/
theorem WellFormed.chain_congr (ht : t.WellFormed) (ht' : t'.WellFormed)
    (hparent : ∀ i : ScopeId, i.index ≤ s.index → t'.parent? i = t.parent? i) :
    t'.chain s = t.chain s := by
  induction hn : s.index using Nat.strongRecOn generalizing s with
  | ind n ih =>
    have hs := hparent s (Nat.le_refl _)
    cases hp : t.parent? s with
    | none => rw [chain_of_none hp, chain_of_none (hs.trans hp)]
    | some p =>
      have hlt := ht.parent hp
      have hrest := ih p.index (by omega) (fun i hi => hparent i (by omega)) rfl
      rw [ht.chain_eq hp, ht'.chain_eq (hs.trans hp), hrest]

theorem WellFormed.parent_of_chain (ht : t.WellFormed) {rest : List (Option ScopeId)}
    (h : (t.chain s).map some = some s :: some p :: rest) : t.parent? s = some p := by
  cases hp : t.parent? s with
  | none =>
    rw [chain_of_none hp] at h
    cases h
  | some q =>
    obtain ⟨outer, houter⟩ : ∃ outer, t.chain q = q :: outer := by
      rw [chain, chainFrom]
      split <;> exact ⟨_, rfl⟩
    rw [ht.chain_eq hp, houter] at h
    cases h
    rfl

theorem Extends.chain (h : t.Extends t') (ht : t.WellFormed) (ht' : t'.WellFormed)
    (hs : s.index < t.scopes.size) : t'.chain s = t.chain s :=
  ht.chain_congr ht' fun i hi => h.parent? i (Nat.lt_of_le_of_lt hi hs)

/-- The names of the symbols of a scope, in order. -/
def namesIn (t : Table) (scope : ScopeId) : List (Option String) :=
  (t.symbolsOf scope).map fun id => (t.symbol? id).map Symbol.name

theorem resolveLocal_eq_none {name : String} :
    t.resolveLocal scope name = none ↔ some name ∉ t.namesIn scope := by
  simp [resolveLocal, namesIn]

/-- A scope has these names. -/
def Names (t : Table) (scope : ScopeId) (names : List String) : Prop :=
  ∀ name, some name ∈ t.namesIn scope ↔ name ∈ names

/-- A definition succeeds exactly if its name is new in the scope. -/
theorem Names.define (h : t.Names scope names) (symbol : Symbol) :
    (symbol.name ∈ names ∧ ∃ held, t.define scope symbol = .error held) ∨
      symbol.name ∉ names ∧
        ∃ id t', t.define scope symbol = .ok (id, t') ∧ t.Defines scope symbol id t' := by
  by_cases hname : symbol.name ∈ names
  · cases hr : t.resolveLocal scope symbol.name with
    | none => exact absurd ((h _).mpr hname) (resolveLocal_eq_none.mp hr)
    | some held => exact .inl ⟨hname, held, by rw [Table.define, hr]⟩
  · have hr := resolveLocal_eq_none.mpr fun hmem => hname ((h _).mp hmem)
    have hdefine : ∃ id t', t.define scope symbol = .ok (id, t') := ⟨_, _, by rw [Table.define, hr]⟩
    obtain ⟨id, t', hok⟩ := hdefine
    exact .inr ⟨hname, id, t', hok, defines_of_define hok⟩

end Table

/-! ## Names of definitions -/

namespace Definition

variable {t t' : Table} {scope : ScopeId} {d : Definition} {id : SymbolId}

theorem firsts_append {earlier : List String} {ds ds' : List Definition} :
    firsts earlier (ds ++ ds') =
      firsts earlier ds ++ firsts ((ds.map name).reverse ++ earlier) ds' := by
  induction ds generalizing earlier with
  | nil => rfl
  | cons d ds ih =>
    rw [cons_append, firsts, firsts, ih]
    split <;> simp

theorem repeats_append (earlier : List String) (ds ds' : List Definition) :
    repeats earlier (ds ++ ds') =
      repeats earlier ds ++ repeats ((ds.map name).reverse ++ earlier) ds' := by
  induction ds generalizing earlier with
  | nil => rfl
  | cons d ds ih =>
    rw [cons_append, repeats, repeats, ih]
    split <;> simp

theorem firsts_eq_self (h : repeats earlier ds = []) : firsts earlier ds = ds := by
  induction ds generalizing earlier with
  | nil => rfl
  | cons d ds ih =>
    rw [repeats] at h
    split at h
    · cases h
    · rename_i hd
      rw [firsts, if_neg hd, ih h]

/-- A name that is not there yet is defined by a first definition of that name. -/
theorem mem_names_firsts {x : String} :
    x ∈ earlier ∨ x ∈ (firsts earlier ds).map name ↔ x ∈ earlier ∨ x ∈ ds.map name := by
  induction ds generalizing earlier with
  | nil => rfl
  | cons d ds ih =>
    have hrest := @ih (d.name :: earlier)
    simp only [mem_cons, or_assoc] at hrest
    rw [firsts, map_cons, mem_cons, or_left_comm, ← hrest]
    grind

theorem HeldBy.name? (h : HeldBy t scope d id) : (t.symbol? id).map Symbol.name = some d.name := by
  cases h with
  | var symbol | param symbol => exact name?_of_var? symbol
  | func _ _ _ symbol =>
    obtain ⟨s, hs, hf⟩ := Option.bind_eq_some_iff.mp symbol
    cases s <;> cases hf
    rw [hs]
    rfl

theorem names_of_held {ids : List SymbolId} (h : Forall₂ (HeldBy t scope) ds ids) :
    (ids.map fun id => (t.symbol? id).map Symbol.name) = (ds.map name).map some := by
  induction h with
  | nil => rfl
  | cons hd _ ih => rw [map_cons, map_cons, map_cons, hd.name?, ih]

/-- A definition keeps its symbol while other scopes grow. -/
theorem HeldBy.mono (h : HeldBy t scope d id) (ht : t.WellFormed) (hext : t.Extends t')
    (hframe : ∀ i : ScopeId, scope.index < i.index → i.index < t.scopes.size →
      t'.symbolsOf i = t.symbolsOf i) : HeldBy t' scope d id := by
  cases h with
  | var symbol => exact .var ((hext.var? (lt_size_of_var? symbol)).trans symbol)
  | param symbol => exact .param ((hext.var? (lt_size_of_var? symbol)).trans symbol)
  | func recorded own parent symbol =>
    have hsize := lt_size_of_parent? parent
    refine .func recorded own ((hext.parent? _ hsize).trans parent) ?_
    rw [hframe _ (ht.parent parent) hsize]
    exact (hext.func? (lt_size_of_func? symbol)).trans symbol

end Definition

/-- A region that is recorded stays so while scopes around it grow. -/
theorem Region.Recorded.mono {t t' : Table} {r : Region} (h : r.Recorded t s)
    (ht : t.WellFormed) (ht' : t'.WellFormed) (hext : t.Extends t') (hs : s.index < t.scopes.size)
    (hframe : ∀ i : ScopeId, s.index ≤ i.index → i.index < t.scopes.size →
      t'.symbolsOf i = t.symbolsOf i) : r.Recorded t' s where
  scope := h.scope
  chain := (hext.chain ht ht' hs).symm ▸ h.chain
  symbols := by
    rw [hframe s (Nat.le_refl _) hs]
    exact h.symbols.imp fun _ _ hd => hd.mono ht hext fun i hi => hframe i (Nat.le_of_lt hi)

/-! ## Growing scopes -/

/-- A scope that is being filled: it lies in the scopes around it and has the given names. -/
structure Table.Stands (t : Table) (scope : ScopeId) (around : List (Option ScopeId))
    (earlier : List String) : Prop where
  wellFormed : t.WellFormed
  size : scope.index < t.scopes.size
  chain : (t.chain scope).map some = around ++ [some predefined]
  names : t.Names scope earlier

/-- What declaring a part of a region does to the table: the definitions with new names go to the
end of the scope, in order, and the regions inside get the new scopes. -/
structure Grows (scope : ScopeId) (earlier : List String) (t t' : Table) (ds : List Definition)
    (rs : List Region) (faults : List Diagnostic) : Prop where
  ext : t.Extends t'
  wellFormed : t'.WellFormed
  own : ∃ ids, t'.symbolsOf scope = t.symbolsOf scope ++ ids ∧
    Forall₂ (Definition.HeldBy t' scope) (Definition.firsts earlier ds) ids ∧
    (ids ++ (t.newScopes t').flatMap t'.symbolsOf).Perm (t.newSymbols t')
  frame : ∀ i : ScopeId, i.index < t.scopes.size → i ≠ scope → t'.symbolsOf i = t.symbolsOf i
  regions : Forall₂ (Region.Recorded t') rs (t.newScopes t')
  nested : 0 < scope.index → t.Nested → t'.Nested
  /-- Functions have new scopes, in order, and stand in no inner region. -/
  heads : (ds.filterMap Definition.head?).Sublist (t.newScopes t')
  inner : ∀ r ∈ rs, r.definitions.filterMap Definition.head? = []
  /-- New scopes are those of blocks, the headers of functions apart. -/
  kinds : ∀ i ∈ t.newScopes t', (∀ d ∈ ds, d.head? ≠ some i) → t'.kind? i = some .block
  faults : faults.Perm ((Definition.repeats earlier ds ++
    rs.flatMap fun r => Definition.repeats [] r.definitions).map Definition.redefined)

namespace Grows

variable {scope : ScopeId} {around : List (Option ScopeId)} {earlier : List String}
  {t t' t'' : Table}
  {ds ds' : List Definition} {rs rs' : List Region} {faults faults' : List Diagnostic}

theorem nil (h : t.WellFormed) : Grows scope earlier t t [] [] [] where
  ext := .refl t
  wellFormed := h
  own := ⟨[], (append_nil _).symm, .nil, by
    rw [newScopes_of_size rfl, newSymbols_of_size rfl]; exact .refl _⟩
  frame _ _ _ := rfl
  regions := by rw [newScopes_of_size rfl]; exact .nil
  nested _ := id
  heads := nil_sublist _
  inner := nofun
  kinds := by rw [newScopes_of_size rfl]; nofun
  faults := .refl _

section

variable (h : Grows scope earlier t t' ds rs faults) (ht : t.Stands scope around earlier)

include h ht

/-- The scope now also has the names of the definitions. -/
theorem stands : t'.Stands scope around ((ds.map Definition.name).reverse ++ earlier) where
  wellFormed := h.wellFormed
  size := Nat.lt_of_lt_of_le ht.size h.ext.size_scopes
  chain := (h.ext.chain ht.wellFormed h.wellFormed ht.size).symm ▸ ht.chain
  names x := by
    obtain ⟨ids, hown, hheld, -⟩ := h.own
    have hold : ((t.symbolsOf scope).map fun id => (t'.symbol? id).map Symbol.name) =
        t.namesIn scope :=
      map_congr_left fun id hid => by rw [h.ext.symbol? (ht.wellFormed.bound scope id hid)]
    rw [namesIn, hown, map_append, hold, Definition.names_of_held hheld, mem_append,
      ht.names x, mem_map_of_injective fun _ _ => Option.some.inj, Definition.mem_names_firsts,
      mem_append, mem_reverse, or_comm]

/-- Parts of a region are declared one after the other. -/
theorem append
    (h' : Grows scope ((ds.map Definition.name).reverse ++ earlier) t' t'' ds' rs' faults') :
    Grows scope earlier t t'' (ds ++ ds') (rs ++ rs') (faults ++ faults') := by
  have hscopes := newScopes_trans h.ext.size_scopes h'.ext.size_scopes
  have hinner : ∀ i : ScopeId, scope.index < i.index → i.index < t'.scopes.size →
      t''.symbolsOf i = t'.symbolsOf i := by
    intro i hlt hi
    apply h'.frame i hi
    rintro rfl
    exact Nat.lt_irrefl _ hlt
  have hnew : ∀ s ∈ t.newScopes t', scope.index < s.index ∧ s.index < t'.scopes.size := by
    intro s hs
    obtain ⟨hge, hlt⟩ := mem_newScopes hs
    exact ⟨Nat.lt_of_lt_of_le ht.size hge, hlt⟩
  constructor
  case ext => exact h.ext.trans h'.ext
  case wellFormed => exact h'.wellFormed
  case own =>
    obtain ⟨ids, hown, hheld, hperm⟩ := h.own
    obtain ⟨ids', hown', hheld', hperm'⟩ := h'.own
    refine ⟨ids ++ ids', by rw [hown', hown, append_assoc], ?_, ?_⟩
    · rw [Definition.firsts_append]
      exact rel_append (hheld.imp fun _ _ hd => hd.mono h.wellFormed h'.ext hinner) hheld'
    · have hkept : (t.newScopes t').flatMap t''.symbolsOf = (t.newScopes t').flatMap t'.symbolsOf :=
        flatMap_congr fun s hs => hinner s (hnew s hs).1 (hnew s hs).2
      rw [hscopes, newSymbols_trans h.ext.size_symbols h'.ext.size_symbols, flatMap_append,
        hkept]
      grind
  case frame =>
    intro i hi hne
    rw [h'.frame i (Nat.lt_of_lt_of_le hi h.ext.size_scopes) hne, h.frame i hi hne]
  case regions =>
    rw [hscopes]
    refine rel_append ?_ h'.regions
    obtain ⟨hlength, heach⟩ := forall₂_iff_zip.mp h.regions
    refine forall₂_iff_zip.mpr ⟨hlength, fun {r s} hrs => ?_⟩
    obtain ⟨hlt, hsize⟩ := hnew s (of_mem_zip hrs).2
    exact (heach hrs).mono h.wellFormed h'.wellFormed h'.ext hsize fun i hi =>
      hinner i (Nat.lt_of_lt_of_le hlt hi)
  case nested => exact fun hs => h'.nested hs ∘ h.nested hs
  case heads =>
    rw [filterMap_append, hscopes]
    exact h.heads.append h'.heads
  case inner => exact forall_mem_append.mpr ⟨h.inner, h'.inner⟩
  case kinds =>
    intro i hi hds
    rcases mem_append.mp (hscopes ▸ hi) with hi | hi
    · rw [h'.ext.kind? i (hnew i hi).2]
      exact h.kinds i hi fun d hd => hds d (mem_append_left _ hd)
    · exact h'.kinds i hi fun d hd => hds d (mem_append_right _ hd)
  case faults =>
    rw [Definition.repeats_append, flatMap_append]
    refine (h.faults.append h'.faults).trans ?_
    grind

end

/-- A rejected definition changes nothing. -/
theorem rejected (ht : t.WellFormed) (hhead : d.head? = none) (hd : d.name ∈ earlier) :
    Grows scope earlier t t [d] [] [d.redefined] := by
  have h : Grows scope earlier t t [] [] [] := nil ht
  refine { h with
    own := ?_
    heads := by simp [hhead]
    kinds := fun i hi _ => h.kinds i hi nofun
    faults := ?_ }
  · rw [Definition.firsts, if_pos hd]
    exact h.own
  · rw [Definition.repeats, if_pos hd]
    exact .refl _

/-- A definition with a new name. -/
theorem defined {symbol : Symbol} {id : SymbolId} (ht : t.Stands scope around earlier)
    (hdef : t.Defines scope symbol id t') (hhead : d.head? = none) (hd : d.name ∉ earlier)
    (hheld : d.HeldBy t' scope id) :
    Grows scope earlier t t' [d] [] [] where
  ext := .define hdef
  wellFormed := ht.wellFormed.define hdef
  own := by
    refine ⟨[id], by rw [hdef.symbolsOf, if_pos ⟨rfl, ht.size⟩], ?_, ?_⟩
    · rw [Definition.firsts, if_neg hd]
      exact .cons hheld .nil
    · rw [newScopes_of_size hdef.size_scopes, newSymbols_succ hdef.size_symbols, hdef.id_eq]
      exact .refl _
  frame i _ hne := by rw [hdef.symbolsOf, if_neg fun h => hne h.1]
  regions := by
    rw [newScopes_of_size hdef.size_scopes]
    exact .nil
  nested _ hn := hn.congr hdef.size_scopes hdef.kind? hdef.parent? hdef.nestedOf
  heads := by simp [hhead]
  inner := nofun
  kinds := by
    rw [newScopes_of_size hdef.size_scopes]
    nofun
  faults := by
    rw [Definition.repeats, if_neg hd]
    exact .refl _

/-- Without faults no name is defined twice. -/
theorem clear (h : Grows scope earlier t t' ds rs []) : Definition.repeats earlier ds = [] ∧
    ∀ r ∈ rs, Definition.repeats [] r.definitions = [] := by
  obtain ⟨hds, hrs⟩ := append_eq_nil_iff.mp (map_eq_nil_iff.mp h.faults.nil_eq.symm)
  exact ⟨hds, flatMap_eq_nil_iff.mp hrs⟩

/-- Without definitions the scopes that were there stay as they are. -/
theorem symbolsOf_eq (h : Grows scope earlier t t' [] rs faults)
    (hi : i.index < t.scopes.size) : t'.symbolsOf i = t.symbolsOf i := by
  by_cases hne : i = scope
  · obtain ⟨ids, hown, hheld, -⟩ := h.own
    rw [hne, hown, forall₂_nil_left_iff.mp hheld, append_nil]
  · exact h.frame i hi hne

end Grows

end WichToC

import WichToC.Proofs.Plain
import WichToC.Proofs.Regions

/-!
# The scope tree of a script

Declaring a script builds a scope tree of the same shape.  The main statement,
`scopes_mirror_script`, holds of every script, with or without faults: its regions have the scopes
of the table one by one, and each is recorded in its scope.  A definition whose name an earlier one
of its region has is reported, once, and leaves no symbol.

A function is the one case where a step changes what was there: its symbol gets its parameters while
they are declared.  `GrowsParams` follows the parameters on their own, and `Table.Opens` describes
the table when the scope of the function is filled and its body comes next.
-/

namespace WichToC

open List Located Definition Table Declare

variable {t t' : Table} {scope : ScopeId} {around : List (Option ScopeId)} {earlier : List String}
variable {t'' : Table} {kind : ScopeKind} {f symbol : Option SymbolId} {id : SymbolId}
    {ids : List SymbolId} {rs : List Region} {faults : List Diagnostic}

/-! ## Blocks and statements -/

namespace Table.Stands

variable {t : Table} {scope : ScopeId} {around : List (Option ScopeId)} {earlier : List String}

/-- A new scope inside, which is still empty. -/
theorem push (h : t.Stands scope around earlier) (kind : ScopeKind) (name : String) :
    (t.pushScope kind name (some scope)).2.Stands ⟨t.scopes.size⟩ (some ⟨t.scopes.size⟩ :: around)
    [] := by
  have hwf := h.wellFormed.pushScope kind name h.size
  have hext : t.Extends (t.pushScope kind name (some scope)).2 := .pushScope _ _ _
  refine ⟨hwf, by simp, ?_, fun x => ?_⟩
  · rw [hwf.chain_eq (p := scope) (by rw [parent?_pushScope, if_pos rfl]),
      hext.chain h.wellFormed hwf h.size, map_cons, h.chain, cons_append]
  · rw [namesIn, symbolsOf_pushScope, if_pos rfl]
    simp

end Table.Stands

/-- A scope was opened inside another one: it already holds the definitions `ps`, and the outer
scope got the symbols `ids`.  If it belongs to a function, it knows the function. -/
structure Table.Opens (kind : ScopeKind) (f : Option SymbolId) (scope : ScopeId)
    (around : List (Option ScopeId)) (t t' : Table) (ids : List SymbolId) (ps : List Definition) :
    Prop where
  ext : t.Extends t'
  kind : t'.kind? ⟨t.scopes.size⟩ = some kind
  function : t'.function? ⟨t.scopes.size⟩ = f
  size : t'.scopes.size = t.scopes.size + 1
  parent : t'.parent? ⟨t.scopes.size⟩ = some scope
  stands : t'.Stands ⟨t.scopes.size⟩ (some ⟨t.scopes.size⟩ :: around) (ps.map name).reverse
  own : t'.symbolsOf scope = t.symbolsOf scope ++ ids
  frame : ∀ i : ScopeId, i.index < t.scopes.size → i ≠ scope → t'.symbolsOf i = t.symbolsOf i
  held : Forall₂ (HeldBy t' ⟨t.scopes.size⟩) (firsts [] ps)
    (t'.symbolsOf ⟨t.scopes.size⟩)
  nested : 0 < scope.index → t.Nested → t'.Nested
  symbols : ids ++ t'.symbolsOf ⟨t.scopes.size⟩ = t.newSymbols t'

/-- A new scope is opened without definitions. -/
theorem Table.Stands.opens (h : t.Stands scope around earlier) (kind : ScopeKind)
    (hkind : kind ≠ .predefined) (name : String) :
    Opens kind none scope around t (t.pushScope kind name (some scope)).2 [] [] := by
  have hempty : (t.pushScope kind name (some scope)).2.symbolsOf ⟨t.scopes.size⟩ = [] := by
    rw [symbolsOf_pushScope, if_pos rfl]
  have hold : ∀ i : ScopeId, i.index < t.scopes.size →
      (t.pushScope kind name (some scope)).2.symbolsOf i = t.symbolsOf i := by
    intro i hi
    rw [symbolsOf_pushScope, if_neg (Nat.ne_of_lt hi)]
  constructor
  case ext => exact .pushScope _ _ _
  case kind => rw [kind?_pushScope, if_pos rfl]
  case function => rw [function?_pushScope, if_pos rfl]
  case size => simp
  case parent => rw [parent?_pushScope, if_pos rfl]
  case stands => exact h.push kind name
  case own => rw [hold scope h.size, append_nil]
  case frame => exact fun i hi _ => hold i hi
  case held => rw [hempty]; exact .nil
  case nested => exact fun hs hn => hn.pushScope hkind name h.size hs
  case symbols => rw [hempty, newSymbols_of_size (by simp)]; rfl

/-- The function of the new scope is defined in the outer one. -/
theorem Table.Opens.attach {symbol : Symbol} (h : Opens kind f scope around t t' [] [])
    (hscope : scope.index < t.scopes.size) (hsymbols : t'.symbols.size = t.symbols.size)
    (hdef : t'.Defines scope symbol id t'') :
    Opens kind (some id) scope around t (t''.attachFunction ⟨t.scopes.size⟩ id) [id] [] := by
  have hsize : (t''.attachFunction ⟨t.scopes.size⟩ id).scopes.size = t'.scopes.size := by
    simp [attachFunction, modifyScope, hdef.size_scopes]
  have hparent : ∀ i, (t''.attachFunction ⟨t.scopes.size⟩ id).parent? i = t'.parent? i := fun i =>
    (parent?_attachFunction _ id i).trans (hdef.parent? i)
  have hwf : (t''.attachFunction ⟨t.scopes.size⟩ id).WellFormed :=
    (h.stands.wellFormed.define hdef).attachFunction _ _
  have hother : ∀ i, i ≠ scope →
      (t''.attachFunction ⟨t.scopes.size⟩ id).symbolsOf i = t'.symbolsOf i := by
    intro i hne
    rw [symbolsOf_attachFunction, hdef.symbolsOf, if_neg fun he => hne he.1]
  have hempty : (t''.attachFunction ⟨t.scopes.size⟩ id).symbolsOf ⟨t.scopes.size⟩ = [] := by
    rw [hother, forall₂_nil_left_iff.mp h.held]
    rintro rfl
    exact Nat.lt_irrefl _ hscope
  constructor
  case ext => exact (h.ext.trans (.define hdef)).attachFunction (Nat.le_refl _) id
  case kind => rw [kind?_attachFunction, hdef.kind?, h.kind]
  case function =>
    rw [function?_attachFunction, if_pos rfl, scope?,
      Array.getElem?_eq_getElem (hdef.size_scopes ▸ h.stands.size)]
    rfl
  case size => rw [hsize, h.size]
  case parent => rw [hparent, h.parent]
  case stands =>
    refine ⟨hwf, hsize ▸ h.stands.size, ?_, fun x => ?_⟩
    · rw [h.stands.wellFormed.chain_congr hwf fun i _ => hparent i, h.stands.chain]
    · rw [namesIn, hempty]
      simp
  case own =>
    rw [symbolsOf_attachFunction, hdef.symbolsOf,
      if_pos ⟨rfl, Nat.lt_of_lt_of_le hscope h.ext.size_scopes⟩, h.own, append_nil]
  case frame => exact fun i hi hne => (hother i hne).trans (h.frame i hi hne)
  case held => rw [hempty]; exact .nil
  case nested =>
    exact fun hs hn => (h.nested hs hn).congr hsize
      (fun i => (kind?_attachFunction _ id i).trans (hdef.kind? i)) hparent
      fun i => (nestedOf_attachFunction _ id i).trans (hdef.nestedOf i)
  case symbols =>
    rw [hempty, newSymbols_succ (t := t), hdef.id_eq, hsymbols]
    · rfl
    · rw [← hsymbols]
      exact hdef.size_symbols

/-- What is declared in the new scope becomes a region inside the outer one. -/
theorem Table.Opens.enclose {ps ds ds' : List Definition}
    {faults' : List Diagnostic} (h : Opens kind f scope around t t' ids ps)
    (hscope : scope.index < t.scopes.size)
    (hkind : (∀ d ∈ ds, d.head? ≠ some ⟨t.scopes.size⟩) → kind = .block)
    (hheads : (ds.filterMap Definition.head?).Sublist [⟨t.scopes.size⟩])
    (hinner : ∀ d ∈ ps ++ ds', d.head? = none)
    (hin : Grows ⟨t.scopes.size⟩ (ps.map name).reverse t' t'' ds' rs faults')
    (hheld : Forall₂ (HeldBy t'' scope) (firsts earlier ds) ids)
    (hfaults : faults.Perm
      ((repeats earlier ds ++ repeats [] ps).map redefined)) :
    Grows scope earlier t t'' ds (⟨some ⟨t.scopes.size⟩, around, ps ++ ds'⟩ :: rs)
      (faults ++ faults') := by
  obtain ⟨ids', hown', hheld', hperm'⟩ := hin.own
  have hnew : (⟨t.scopes.size⟩ : ScopeId).index < t'.scopes.size := by
    rw [h.size]
    exact Nat.lt_succ_self _
  have hold : ∀ i : ScopeId, i.index < t.scopes.size → t''.symbolsOf i = t'.symbolsOf i := by
    intro i hi
    apply hin.frame i (Nat.lt_of_lt_of_le hi h.ext.size_scopes)
    rintro rfl
    exact Nat.lt_irrefl _ hi
  have hscopes : t.newScopes t'' = ⟨t.scopes.size⟩ :: t'.newScopes t'' := by
    rw [newScopes_trans h.ext.size_scopes hin.ext.size_scopes, newScopes_succ h.size,
      singleton_append]
  constructor
  case ext => exact h.ext.trans hin.ext
  case wellFormed => exact hin.wellFormed
  case own =>
    refine ⟨ids, by rw [hold scope hscope, h.own], hheld, ?_⟩
    rw [hscopes, newSymbols_trans h.ext.size_symbols hin.ext.size_symbols, ← h.symbols,
      flatMap_cons, hown', append_assoc, append_assoc]
    grind
  case frame =>
    intro i hi hne
    rw [hold i hi, h.frame i hi hne]
  case regions =>
    rw [hscopes]
    refine .cons ⟨rfl, ?_, ?_⟩ hin.regions
    · rw [hin.ext.chain h.stands.wellFormed hin.wellFormed hnew, h.stands.chain]
    · rw [hown', firsts_append, append_nil]
      refine rel_append (h.held.imp fun _ _ hd => ?_) hheld'
      refine hd.mono h.stands.wellFormed hin.ext fun i hlt hi => hin.frame i hi ?_
      rintro rfl
      exact Nat.lt_irrefl _ hlt
  case nested => exact fun hs hn => hin.nested (Nat.zero_lt_of_lt hscope) (h.nested hs hn)
  case heads => grind
  case inner => exact forall_mem_cons.mpr ⟨filterMap_eq_nil_iff.mpr hinner, hin.inner⟩
  case kinds =>
    intro i hi hds
    rcases mem_cons.mp (hscopes ▸ hi) with rfl | hi
    · rw [hin.ext.kind? _ hnew, h.kind, hkind hds]
    · exact hin.kinds i hi fun d hd => by rw [hinner d (mem_append_right _ hd)]; nofun
  case faults =>
    refine (hfaults.append hin.faults).trans ?_
    rw [← map_append, flatMap_cons, repeats_append, append_nil]
    simp only [append_assoc]
    exact .refl _

/-- The scope around a new scope stands as before. -/
theorem Table.Opens.outer {inner : List (Option ScopeId)}
    (h : Opens kind f scope inner t t' [] []) (ht : t.Stands scope around earlier) :
    t'.Stands scope around earlier where
  wellFormed := h.stands.wellFormed
  size := Nat.lt_of_lt_of_le ht.size h.ext.size_scopes
  chain := (h.ext.chain ht.wellFormed h.stands.wellFormed ht.size).symm ▸ ht.chain
  names x := by
    have hold : ((t.symbolsOf scope).map fun id => (t'.symbol? id).map Symbol.name) =
        t.namesIn scope :=
      map_congr_left fun id hid => by rw [h.ext.symbol? (ht.wellFormed.bound scope id hid)]
    rw [namesIn, h.own, append_nil, hold, ht.names x]

theorem stmtsRegions_cons {s : Stmt} {ss : List Stmt} :
    stmtsRegions around (s :: ss) = s.regions around ++ stmtsRegions around ss := rfl

theorem Located.head?_of_definition? {s : Stmt} {d : Definition} (h : s.definition? = some d) :
    d.head? = none := by
  unfold definition? at h
  split at h <;> cases h
  rfl

namespace Declare

variable {t t' t'' : Table} {scope : ScopeId} {around : List (Option ScopeId)}
  {earlier : List String}
  {ss : List Stmt} {b : Block}

/-! Declaring fills in annotations and changes nothing else. -/

theorem stmts_plain_of (hss : ∀ s ∈ ss, ∀ scope t, (stmt scope t s).tree.plain = s.plain)
    (scope : ScopeId) (t : Table) : (stmts scope t ss).tree.map plain = ss.map plain := by
  induction ss generalizing t with
  | nil => rfl
  | cons s ss ih =>
    obtain ⟨hs, hss⟩ := forall_mem_cons.mp hss
    rw [stmts, map_cons, map_cons, hs, ih hss]

theorem block_plain_of
    (hb : ∀ s ∈ b.statements, ∀ scope t, (stmt scope t s).tree.plain = s.plain) (scope : ScopeId)
    (t : Table) : (block scope t b).tree.plain = b.plain := by
  rw [BlockOf.plain_eq, BlockOf.plain_eq]
  rcases b with ⟨statements, span, old⟩
  simp only [block, stmts_plain_of hb]

theorem stmt_plain (s : Stmt) (scope : ScopeId) (t : Table) :
    (stmt scope t s).tree.plain = s.plain := by
  induction s using Stmt.induction generalizing scope t with
  | step s ih =>
    rcases s with ⟨kind, span⟩
    have hblock : ∀ b ∈ kind.blocks, ∀ scope t, (block scope t b).tree.plain = b.plain :=
      fun b hb => block_plain_of (ih b hb)
    cases kind with
    | define name value symbol =>
      simp only [stmt, stmtKind, Passed.map]
      split <;> rfl
    | assign | assignElement | call | print | ret => rfl
    | loop cond body | block body =>
      simp only [stmt, stmtKind, Passed.map, plain, StmtKind.plain,
        hblock body (.head _)]
    | ifElse cond thenBlock elseBlock =>
      have hthen := hblock thenBlock (.head _)
      cases elseBlock with
      | none => simp only [stmt, stmtKind, Passed.map, plain, StmtKind.plain, hthen]
      | some elseBlock =>
        have helse := hblock elseBlock (.tail _ (.head _))
        simp only [stmt, stmtKind, Passed.map, plain, StmtKind.plain, hthen, helse]

theorem function_plain (f : Function) : (function t f).tree.plain = f.plain := by
  simp only [function, Function.plain, block_plain_of fun s _ => stmt_plain s]

theorem items_plain {its : List Item} : (items t its).tree.map Item.plain = its.map Item.plain := by
  induction its generalizing t with
  | nil => rfl
  | cons item its ih =>
    cases item with
    | function f => simp only [items, map_cons, Item.plain, function_plain, ih]
    | statement s => simp only [items, map_cons, Item.plain, stmt_plain, ih]

/-- What declaring a statement of a scope does. -/
def StmtGrows (s : Stmt) : Prop :=
  ∀ {t : Table} {scope : ScopeId} {around : List (Option ScopeId)} {earlier : List String},
    t.Stands scope around earlier →
      Grows scope earlier t (stmt scope t s).table (stmt scope t s).tree.definition?.toList
        ((stmt scope t s).tree.regions around) (stmt scope t s).faults

theorem define_grows {name : String} {value : Expr} {span : Span} :
    StmtGrows ⟨.define name value symbol, span⟩ := by
  intro t scope around earlier ht
  let v : Variable :=
    { name := name, ty := none, scope := scope, isParameter := false, span := span }
  simp only [stmt, stmtKind, Passed.map]
  rcases ht.names.define (.var v) with ⟨hmem, held, herror⟩ | ⟨hnot, id, t', hok, hdef⟩
  · rw [herror]
    exact .rejected (d := .var name span symbol) ht.wellFormed rfl hmem
  · rw [hok]
    refine .defined ht hdef rfl hnot (.var ?_)
    rw [var?, hdef.symbol?, if_pos rfl]
    rfl

theorem stmts_grows_of (hss : ∀ s ∈ ss, StmtGrows s) (ht : t.Stands scope around earlier) :
    Grows scope earlier t (stmts scope t ss).table
      ((stmts scope t ss).tree.filterMap definition?)
      (stmtsRegions around (stmts scope t ss).tree) (stmts scope t ss).faults := by
  induction ss generalizing t earlier with
  | nil => exact .nil ht.wellFormed
  | cons s ss ih =>
    obtain ⟨hs, hss⟩ := forall_mem_cons.mp hss
    have hfirst := hs ht
    have hrest := ih hss (hfirst.stands ht)
    have hds : ∀ rest : List Stmt, ((stmt scope t s).tree :: rest).filterMap definition? =
        (stmt scope t s).tree.definition?.toList ++ rest.filterMap definition? := by grind
    simp only [stmts]
    rw [hds, stmtsRegions_cons]
    exact hfirst.append ht hrest

/-- A block gets a scope inside the scope that it stands in. -/
theorem block_grows_of (hb : ∀ s ∈ b.statements, StmtGrows s) (ht : t.Stands scope around earlier) :
    Grows scope earlier t (block scope t b).table [] ((block scope t b).tree.regions around)
      (block scope t b).faults := by
  rcases b with ⟨statements, span, old⟩
  simp only [block, pushScope_fst]
  refine (ht.opens .block nofun "local").enclose ht.size (fun _ => rfl) (by exact nil_sublist _)
    (fun d hd => ?_) (stmts_grows_of hb (ht.push .block "local")) .nil (.refl _)
  obtain ⟨s, -, hs⟩ := mem_filterMap.mp hd
  exact head?_of_definition? hs

/-- **Declaring a statement.** -/
theorem stmt_grows (s : Stmt) : StmtGrows s := by
  induction s using Stmt.induction with
  | step s ih =>
    intro t scope around earlier ht
    rcases s with ⟨kind, span⟩
    cases kind with
    | define name value symbol => exact define_grows ht
    | loop cond body | block body => exact block_grows_of (ih body (.head _)) ht
    | ifElse cond thenBlock elseBlock =>
      have hthen := block_grows_of (ih thenBlock (.head _)) ht
      cases elseBlock with
      | none => exact hthen
      | some elseBlock =>
        have helse := block_grows_of (ih elseBlock (by simp)) (hthen.stands ht)
        exact hthen.append ht helse
    | assign | assignElement | call | print | ret => exact .nil ht.wellFormed

/-! ## Functions -/

/-- What declaring parameters does to the table: those with new names become symbols of the scope
and parameters of the function, and the others are reported. -/
structure GrowsParams (scope : ScopeId) (f : Option SymbolId) (earlier : List String) (t t' : Table)
    (ps : List Param) (faults : List Diagnostic) : Prop extends Fills scope f t t' where
  held : Forall₂ (HeldBy t' scope) (firsts earlier (ps.map .param))
    (t.newSymbols t')
  names : t'.Names scope ((ps.map Param.name).reverse ++ earlier)
  faults : faults = (repeats earlier (ps.map .param)).map redefined

namespace GrowsParams

variable {f : Option SymbolId} {p : Param} {ps : List Param} {faults faults' : List Diagnostic}

theorem nil (hnames : t.Names scope earlier) : GrowsParams scope f earlier t t [] [] where
  toFills := .refl t
  held := by rw [newSymbols_of_size rfl]; exact .nil
  names := hnames
  faults := rfl

/-- A rejected parameter changes nothing. -/
theorem rejected (hnames : t.Names scope earlier) (hp : p.name ∈ earlier) :
    GrowsParams scope f earlier t t [p] [(param p).redefined] := by
  have hp' : (param p).name ∈ earlier := hp
  have h : GrowsParams scope f earlier t t [] [] := .nil hnames
  refine { h with held := ?_, names := fun x => ?_, faults := ?_ }
  · rw [map_singleton, firsts, if_pos hp']
    exact h.held
  · rw [hnames x]
    grind
  · rw [map_singleton, repeats, if_pos hp']
    rfl

/-- A parameter with a new name. -/
theorem defined (hscope : scope.index < t.scopes.size)
    (hf : ∀ g ∈ f, g.index < t.symbols.size) (ht : t.WellFormed) (hnames : t.Names scope earlier)
    (hp : p.name ∉ earlier) (hdef : t.Defines scope (.var (p.toVariable scope)) id t') :
    GrowsParams scope f earlier t ((f.map fun g => t'.addParameter g id).getD t') [p] [] := by
  have hp' : (param p).name ∉ earlier := hp
  obtain ⟨hfills, hnew, hsymbol⟩ := Fills.define hdef hscope hf
  refine { hfills with held := ?_, names := ?_, faults := ?_ }
  · rw [map_singleton, firsts, if_neg hp', hnew]
    exact .cons (.param (by rw [var?, hsymbol]; rfl)) .nil
  · intro x
    have hold : ((t.symbolsOf scope).map fun i =>
        (((f.map fun g => t'.addParameter g id).getD t').symbol? i).map Symbol.name) =
          t.namesIn scope :=
      map_congr_left fun i hi => hfills.name? (ht.bound scope i hi)
    rw [namesIn, hfills.own, hnew, map_append, hold, map_singleton, hsymbol, mem_append, hnames x,
      or_comm]
    simp [Symbol.name, Param.toVariable]
  · rw [map_singleton, repeats, if_neg hp']
    rfl

/-- Parameters are declared one after the other. -/
theorem cons (h : GrowsParams scope f earlier t t' [p] faults)
    (hf : ∀ g ∈ f, g.index < t.symbols.size)
    (h' : GrowsParams scope f (p.name :: earlier) t' t'' ps faults') :
    GrowsParams scope f earlier t t'' (p :: ps) (faults ++ faults') := by
  have hnew := newSymbols_trans h.size_symbols h'.size_symbols
  refine { h.toFills.trans h'.toFills with held := ?_, names := ?_, faults := ?_ }
  · have hfirst : Forall₂ (HeldBy t'' scope) (firsts earlier [.param p])
        (t.newSymbols t') := by
      obtain ⟨hlength, heach⟩ := forall₂_iff_zip.mp h.held
      refine forall₂_iff_zip.mpr ⟨hlength, fun {d id} hd => ?_⟩
      obtain ⟨hmem, hid⟩ := of_mem_zip hd
      obtain ⟨hge, hlt⟩ := mem_newSymbols.mp hid
      have hne : f ≠ some id := fun he => Nat.not_lt_of_le hge (hf id he)
      obtain rfl : d = .param p := by
        rw [firsts] at hmem
        split at hmem
        · cases hmem
        · exact mem_singleton.mp hmem
      cases heach hd with
      | param symbol => exact .param (by rw [var?, h'.symbol? hne hlt, ← var?, symbol])
    rw [hnew, map_cons, ← singleton_append, firsts_append]
    exact rel_append hfirst h'.held
  · intro x
    rw [h'.names x]
    simp
  · have hsplit := repeats_append earlier [.param p] (ps.map .param)
    rw [h.faults, h'.faults, ← map_append]
    exact congrArg _ hsplit.symm

end GrowsParams

/-- Nothing is reported about a type that a program can write. -/
theorem typeFaults_of_mem {mark : TypeMark} (h : mark.ty ∈ Ty.builtins) : typeFaults mark = [] := by
  unfold TypeMark.ty at h
  unfold typeFaults
  cases hname : Ty.ofName? mark.name with
  | none => rw [hname] at h; exact absurd h (by decide)
  | some ty => rfl

theorem params_grows (scope : ScopeId) (f : Option SymbolId) (ps : List Param)
    (hps : ∀ p ∈ ps, p.mark.ty ∈ Ty.builtins) (hscope : scope.index < t.scopes.size)
    (hf : ∀ g ∈ f, g.index < t.symbols.size) (ht : t.WellFormed) (hnames : t.Names scope earlier) :
    GrowsParams scope f earlier t (params scope f t ps).1 ps (params scope f t ps).2 := by
  induction ps generalizing t earlier with
  | nil => exact .nil hnames
  | cons p ps ih =>
    obtain ⟨hp, hps⟩ := forall_mem_cons.mp hps
    have hstep : ∀ {t₁ : Table} {faults : List Diagnostic},
        GrowsParams scope f earlier t t₁ [p] faults →
          GrowsParams scope f earlier t (params scope f t₁ ps).1 (p :: ps)
            (faults ++ (params scope f t₁ ps).2) := fun h =>
      h.cons hf (ih hps (h.size_scopes ▸ hscope)
        (fun g hg => Nat.lt_of_lt_of_le (hf g hg) h.size_symbols) (h.wellFormed ht) h.names)
    simp only [params, typeFaults_of_mem hp, nil_append]
    rcases hnames.define
      (.var (p.toVariable scope)) with ⟨hmem, held, herror⟩ | ⟨hnot, id, t', hok, hdef⟩
    · rw [Param.toVariable] at herror
      rw [herror]
      exact hstep (.rejected hnames hmem)
    · rw [Param.toVariable] at hok
      rw [hok]
      exact hstep (.defined hscope hf ht hnames hnot hdef)

/-- The parameters go to the scope that was opened for them. -/
theorem GrowsParams.opens {g : Option SymbolId}
    {ps : List Param} (hopens : Opens kind g scope around t t' ids [])
    (hscope : scope.index < t.scopes.size) (hf : ∀ g ∈ f, t.symbols.size ≤ g.index)
    (h : GrowsParams ⟨t.scopes.size⟩ f [] t' t'' ps faults) :
    Opens kind g scope around t t'' ids (ps.map .param) := by
  have hempty : t'.symbolsOf ⟨t.scopes.size⟩ = [] := forall₂_nil_left_iff.mp hopens.held
  have hown : t''.symbolsOf ⟨t.scopes.size⟩ = t'.newSymbols t'' := by
    rw [h.own, hempty, nil_append]
  have hold : ∀ i : ScopeId, i.index < t.scopes.size → t''.symbolsOf i = t'.symbolsOf i := by
    intro i hi
    apply h.frame i
    rintro rfl
    exact Nat.lt_irrefl _ hi
  have hwf := h.wellFormed hopens.stands.wellFormed
  have hnames : (ps.map param).map name = ps.map Param.name := by
    rw [map_map]
    rfl
  constructor
  case ext => exact h.extends_of hopens.ext hf
  case kind => rw [h.kind?, hopens.kind]
  case function => rw [h.function?, hopens.function]
  case size => rw [h.size_scopes, hopens.size]
  case parent => rw [h.parent?, hopens.parent]
  case stands =>
    refine ⟨hwf, h.size_scopes ▸ hopens.stands.size, ?_, ?_⟩
    · rw [hopens.stands.wellFormed.chain_congr hwf fun i _ => h.parent? i, hopens.stands.chain]
    · rw [hnames, ← append_nil (ps.map Param.name).reverse]
      exact h.names
  case own => rw [hold scope hscope, hopens.own]
  case frame => exact fun i hi hne => (hold i hi).trans (hopens.frame i hi hne)
  case held => rw [hown]; exact h.held
  case nested =>
    exact fun hs hn => (hopens.nested hs hn).congr h.size_scopes h.kind? h.parent? h.nestedOf
  case symbols =>
    rw [newSymbols_trans hopens.ext.size_symbols h.size_symbols, ← hopens.symbols, hempty, hown,
      append_nil]

/-- What declaring a function does: the scope of its header knows the function. -/
structure GrowsFunction (earlier : List String) (around : List (Option ScopeId)) (t t' : Table)
    (f : Function) (faults : List Diagnostic) : Prop extends
    Grows global earlier t t' [.func f] (f.regions around) faults where
  scope : f.scope = some ⟨t.scopes.size⟩
  kind : t'.kind? ⟨t.scopes.size⟩ = some .function
  function : t'.function? ⟨t.scopes.size⟩ = f.symbol

/-- The body of a function is declared in the scope of its parameters. -/
theorem body_grows {f tree : Function}
    (hheader : Opens .function symbol global around t t' ids (f.params.map .param))
    (hscope : global.index < t.scopes.size)
    (htree : tree = { f with
      body :=
        (block ⟨t.scopes.size⟩ t' f.body).tree, scope := some ⟨t.scopes.size⟩, symbol := symbol })
    (hheld : Forall₂ (HeldBy t' global) (firsts earlier [.func tree]) ids)
    (hfaults : faults = (repeats earlier [.func tree] ++
      repeats [] (f.params.map .param)).map redefined) :
    GrowsFunction earlier around t (block ⟨t.scopes.size⟩ t' f.body).table tree
      (faults ++ (block ⟨t.scopes.size⟩ t' f.body).faults) := by
  subst htree
  have hbody := block_grows_of (fun s _ => stmt_grows s) hheader.stands (b := f.body)
  have hheld' := hheld.imp fun _ _ hd => hd.mono hheader.stands.wellFormed hbody.ext fun _ _ hi =>
    hbody.symbolsOf_eq hi
  have hwhole := hheader.enclose hscope (fun h => absurd rfl (h _ (.head _))) (.refl _)
    (by simp [Definition.head?]) hbody hheld' (.of_eq hfaults)
  rw [append_nil] at hwhole
  exact ⟨hwhole, rfl, (hbody.ext.kind? _ hheader.stands.size).trans hheader.kind,
    (hbody.ext.function? _ hheader.stands.size).trans hheader.function⟩

/-- **Declaring a function.** -/
theorem function_grows {f : Function} (hf : f.Pristine) (ht : t.Stands global around earlier) :
    GrowsFunction earlier around t (function t f).table (function t f).tree
      (function t f).faults := by
  have hopens := ht.opens .function nofun f.name
  have hglobal : (t.pushScope .function f.name (some global)).2.Stands global around earlier :=
    hopens.outer ht
  let sig : Signature :=
    { name := f.name, returnTy := (f.returnMark.map TypeMark.ty).getD .void, params := [],
      scope := ⟨t.scopes.size⟩, span := f.span }
  have hresult : f.returnMark.toList.flatMap typeFaults = [] :=
    flatMap_eq_nil_iff.mpr fun mark hmark =>
      typeFaults_of_mem (hf.result mark (Option.mem_toList.mp hmark))
  simp only [function, pushScope_fst, hf.symbol, hresult, nil_append]
  rcases hglobal.names.define (.func sig) with ⟨hmem, held, herror⟩ | ⟨hnot, id, t₁, hok, hdef⟩
  · rw [herror]
    have hparams :=
      params_grows ⟨t.scopes.size⟩ none f.params hf.params hopens.stands.size (by simp)
      hopens.stands.wellFormed hopens.stands.names
    have hheader := hparams.opens hopens ht.size (by simp)
    refine body_grows hheader ht.size rfl ?_ ?_
    · rw [firsts, if_pos (by exact hmem)]
      exact .nil
    · rw [repeats, if_pos (by exact hmem), hparams.faults]
      rfl
  · rw [hok]
    have hattached := hopens.attach ht.size (by simp) hdef
    have hsig : (t₁.attachFunction ⟨t.scopes.size⟩ id).func? id = some sig := by
      rw [func?, symbol?_attachFunction, hdef.symbol?, if_pos rfl]
      rfl
    have hid : t.symbols.size ≤ id.index := by
      exact Nat.le_of_eq (by rw [hdef.id_eq, symbols_pushScope])
    have hparams := params_grows ⟨t.scopes.size⟩ (some id) f.params hf.params hattached.stands.size
      (by simpa using lt_size_of_func? hsig) hattached.stands.wellFormed hattached.stands.names
    have hheader := hparams.opens hattached ht.size (by simpa using hid)
    refine body_grows hheader ht.size rfl ?_ ?_
    · rw [firsts, if_neg (by exact hnot)]
      refine .cons (.func rfl rfl hheader.parent ?_) .nil
      rw [hparams.func? rfl hsig, hparams.own, forall₂_nil_left_iff.mp hattached.held]
    · rw [repeats, if_neg (by exact hnot), hparams.faults]
      rfl

/-- What an item does to the global scope. -/
theorem items_grows (hits : ∀ item ∈ its, item.Pristine) (ht : t.Stands global around earlier) :
    Grows global earlier t (items t its).table ((items t its).tree.filterMap Item.definition?)
      ((items t its).tree.flatMap (Item.regions around)) (items t its).faults := by
  induction its generalizing t earlier with
  | nil => exact .nil ht.wellFormed
  | cons item its ih =>
    obtain ⟨hitem, hothers⟩ := forall_mem_cons.mp hits
    cases item with
    | function f =>
      have hf := (function_grows hitem ht).toGrows
      exact hf.append ht (ih hothers (hf.stands ht))
    | statement s =>
      have hs := stmt_grows s ht
      have hrest := ih hothers (hs.stands ht)
      have hds : ∀ rest : List Item,
          (Item.statement (stmt global t s).tree :: rest).filterMap Item.definition? =
            (stmt global t s).tree.definition?.toList ++ rest.filterMap Item.definition? := by
        intro rest
        rw [filterMap_cons, Item.definition?]
        cases (stmt global t s).tree.definition? <;> rfl
      simp only [items, hds]
      exact hs.append ht hrest

end Declare

/-! ## Scripts -/

/-- The scopes and the symbols of a declared script mirror its tree. -/
structure Passed.Mirrors (script : Script) (passed : Passed Script) : Prop where
  /-- Declaring fills in annotations and changes nothing else. -/
  plain : passed.tree.plain = script.plain
  scope : passed.tree.scope = some global
  distinct : (passed.tree.regions.map Region.scope).Nodup
  /-- Apart from the predefined scope there is one scope for each region, in order. -/
  regions : Forall₂ (Region.Recorded passed.table) passed.tree.regions
    ((range passed.table.scopes.size).map ScopeId.mk).tail
  /-- Every new symbol is in one scope. -/
  symbols : (((range passed.table.scopes.size).map ScopeId.mk).tail.flatMap
    passed.table.symbolsOf).Perm (initial.newSymbols passed.table)
  faults : passed.faults.Perm ((passed.tree.regions.flatMap fun r =>
    repeats [] r.definitions).map redefined)

theorem Table.stands_initial : initial.Stands global [some global] [] where
  wellFormed := wellFormed_initial
  size := by decide
  chain := by decide
  names x := by simp [namesIn, symbolsOf, scope?, initial, global]

/-- Declaring leaves the built-in types as they are: the table knows the names that `Ty.ofName?`
knows. -/
theorem Declare.resolveType_items (hits : ∀ item ∈ its, item.Pristine) (name : String) :
    (items initial its).table.resolveType name = Ty.ofName? name := by
  have hgrows := items_grows hits stands_initial
  have hown : (items initial its).table.symbolsOf predefined = [⟨0⟩, ⟨1⟩, ⟨2⟩, ⟨3⟩, ⟨4⟩] :=
    hgrows.frame predefined (by decide) (by decide)
  have hsymbol : ∀ i < 5, (items initial its).table.symbol? ⟨i⟩ = Ty.builtins[i]?.map .type :=
    fun i hi => (hgrows.ext.symbol? hi).trans (by simp [initial, Table.symbol?])
  generalize (items initial its).table = t at hown hsymbol
  simp only [resolveType, resolveLocal, hown, find?_cons, find?_nil, hsymbol, Nat.reduceLT,
    Ty.ofName?, Ty.builtins, getElem?_cons_zero, getElem?_cons_succ, Option.map_some, Symbol.name,
    Option.some.injEq]
  repeat' split
  all_goals simp [hsymbol, Ty.builtins]

theorem Region.map_scope {scopes : List ScopeId}
    (h : Forall₂ (Region.Recorded t) rs scopes) : rs.map Region.scope = scopes.map some := by
  induction h with
  | nil => rfl
  | cons hr _ ih => rw [map_cons, map_cons, hr.scope, ih]

/-- The scopes of a later table, without the predefined scope. -/
theorem Table.tail_scopes (h : initial.scopes.size ≤ t.scopes.size) :
    ((range t.scopes.size).map ScopeId.mk).tail = global :: initial.newScopes t := by
  have hrange : range t.scopes.size = 0 :: 1 :: range' 2 (t.scopes.size - 2) := by
    obtain ⟨n, hn⟩ : ∃ n, t.scopes.size = n + 2 := ⟨t.scopes.size - 2, (Nat.sub_add_cancel h).symm⟩
    rw [hn, range_eq_range', range'_succ, range'_succ, Nat.add_sub_cancel]
  rw [hrange]
  rfl

/-- **The scope tree mirrors the script.**  In every script whose functions carry no symbol yet,
every block and every function gets a scope of its own, which lies in the scopes of the blocks and
the function around it, innermost first, then in the global and the predefined scope; every
definition either has its symbol in the scope of its region or, if the region defines the name
before, is reported once; and a function has as parameters those of its parameters that are not
reported, in order. -/
theorem scopes_mirror_script (script : Script) (h : script.Pristine) :
    (Declare.script Table.initial script).Mirrors script := by
  have hgrows := items_grows h stands_initial
  obtain ⟨ids, hown, hheld, hperm⟩ := hgrows.own
  have hown : (Declare.script initial script).table.symbolsOf global = ids := hown
  have hscopes : ((range (Declare.script initial script).table.scopes.size).map
      ScopeId.mk).tail = _ := tail_scopes hgrows.ext.size_scopes
  have hglobal := hgrows.stands stands_initial
  have hregions : Forall₂ (Region.Recorded (Declare.script initial script).table)
      (Declare.script initial script).tree.regions
      ((range (Declare.script initial script).table.scopes.size).map ScopeId.mk).tail := by
    rw [hscopes]
    exact .cons ⟨rfl, hglobal.chain, hown ▸ hheld⟩ hgrows.regions
  constructor
  case plain => exact congrArg (Script.mk · none) items_plain
  case scope => rfl
  case distinct =>
    rw [Region.map_scope hregions]
    refine Nodup.map (fun _ _ => Option.some.inj) (Nodup.sublist (tail_sublist _) ?_)
    exact nodup_range.map fun _ _ => ScopeId.mk.inj
  case regions => exact hregions
  case symbols =>
    rw [hscopes, flatMap_cons, hown]
    exact hperm
  case faults => exact hgrows.faults

/-- A script in which a parameter, a function and a variable are defined twice. -/
def repeatedNames : Script :=
  (Script.read "func f(a : int, a : string) \x7b var a = 1 while (a < 2) \x7b var a = 3 \x7d \x7d
    func f(b : int) \x7b \x7d var x = 1 \x7b var x = 2 \x7d var x = 3" (.on "")).1

set_option maxRecDepth 20000 in
theorem scopes_mirror_repeatedNames : repeatedNames.Pristine ∧
    (script Table.initial repeatedNames).faults.length = 3 ∧
    (script Table.initial repeatedNames).Mirrors repeatedNames := by
  obtain ⟨ts, hread⟩ := Script.read_derived _ _
  exact ⟨hread.pristine, by decide +kernel, scopes_mirror_script _ hread.pristine⟩

end WichToC

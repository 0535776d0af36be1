import WichToC.Proofs.ScopeTree

/-!
# What declaring a script yields

Declaring a script without a fault gives every block and every function a scope of its own, and
every definition a symbol.  `Located.Placed` says so of a statement and all that is inside it: a
definition names a variable, and the scope of a block lies in the scope around the block and holds
exactly the variables that the statements of the block define, in their order.

All this is read off the regions of the script, which are recorded in their scopes:
`Declare.items_placed` is the result for the items of a script.
-/

namespace WichToC

open List Located Definition Table

variable {t t' : Table}
variable {outer around : List (Option ScopeId)} {s : Stmt} {id : SymbolId} {earlier : List String}
    {its : List Item} (ss : List Stmt) {α : Type}

/-! ## Placed statements -/

def Located.defined? (s : Stmt) : Option SymbolId :=
  match s.kind with
  | .define _ _ symbol => symbol
  | _ => none

/-- The symbols that statements define, without those in their blocks. -/
def definedIds : List SymbolId := ss.filterMap defined?

/-- The symbols that statements and the statements in their blocks define, in order. -/
def allDefinedIds : List SymbolId := definedIds (ss.flatMap nodes)

/-- The scope `inner` belongs to a block that stands directly in `outer`. -/
structure Table.Encloses (t : Table) (outer inner : ScopeId) : Prop where
  kind : t.kind? inner = some .block
  parent : t.parent? inner = some outer
  lt : outer.index < inner.index

/-- A statement stands in a scope: what it defines is a variable, and each of its blocks has a scope
inside that holds what the block defines. -/
inductive Located.Placed (t : Table) : ScopeId → Stmt → Prop
  | intro {scope : ScopeId} {s : Stmt}
      (define : ∀ {name value symbol}, s.kind = .define name value symbol →
        ∃ id v, symbol = some id ∧ t.var? id = some v ∧ v.name = name ∧ v.isParameter = false)
      (scopes : ∀ b ∈ s.kind.blocks, ∃ inner, b.scope = some inner ∧ t.Encloses scope inner ∧
        t.symbolsOf inner = definedIds b.statements)
      (inside : ∀ b ∈ s.kind.blocks, ∀ inner, b.scope = some inner →
        ∀ c ∈ b.statements, Placed t inner c) :
      Placed t scope s

namespace Table

variable {t t' : Table} {id : SymbolId}

theorem Encloses.lt_size {outer inner : ScopeId} (h : t.Encloses outer inner) :
    inner.index < t.scopes.size :=
  lt_size_of_kind? h.kind

theorem Encloses.mono {outer inner : ScopeId} (h : t.Encloses outer inner) (ht : t.Extends t') :
    t'.Encloses outer inner :=
  ⟨(ht.kind? _ h.lt_size).trans h.kind, (ht.parent? _ h.lt_size).trans h.parent, h.lt⟩

end Table

/-- A statement stays placed when scopes and symbols are added, as long as nothing is added to the
scopes inside it. -/
theorem Located.Placed.mono {scope : ScopeId} (h : s.Placed t scope) (ht : t.Extends t')
    (hinner : ∀ i : ScopeId, scope.index < i.index → i.index < t.scopes.size →
      t'.symbolsOf i = t.symbolsOf i) : s.Placed t' scope := by
  induction h with
  | @intro scope s define scopes inside ih =>
    refine .intro ?_ ?_ ?_
    · intro name value symbol hk
      obtain ⟨id, v, hid, hv, hname, hparam⟩ := define hk
      exact ⟨id, v, hid, (ht.var? (lt_size_of_var? hv)).trans hv, hname, hparam⟩
    · intro b hb
      obtain ⟨inner, hscope, henc, hids⟩ := scopes b hb
      exact ⟨inner, hscope, henc.mono ht, (hinner inner henc.lt henc.lt_size).trans hids⟩
    · intro b hb inner hscope c hc
      obtain ⟨inner', hscope', henc, _⟩ := scopes b hb
      obtain rfl : inner' = inner := Option.some.inj (hscope'.symm.trans hscope)
      exact ih b hb _ hscope c hc fun i hlt hsize =>
        hinner i (Nat.lt_trans henc.lt hlt) hsize

theorem exists_of_forall₂ {β : Type} {R : α → β → Prop} {as : List α} {bs : List β} {b : β}
    (h : List.Forall₂ R as bs) (hb : b ∈ bs) : ∃ a ∈ as, R a b := by
  induction h with
  | nil => cases hb
  | @cons a c as bs hac _ ih => grind

/-! ## Statements -/

namespace Declare

variable {scope : ScopeId} {t t' t'' : Table} (ss : List Stmt)

/-- The blocks of a statement, each as a statement of its own. -/
def blocksAlone (s : Stmt) : List Stmt :=
  s.kind.blocks.map fun b => ⟨.block b, s.span⟩

theorem allDefinedIds_cons : allDefinedIds (s :: ss) = allDefinedIds [s] ++ allDefinedIds ss := by
  simp [allDefinedIds, definedIds]

theorem definedIds_cons : definedIds (s :: ss) = definedIds [s] ++ definedIds ss := by
  simp only [definedIds, filterMap_cons, filterMap_nil]
  cases s.defined? <;> rfl

theorem defined?_block {b : Block} {span : Span} : defined? ⟨.block b, span⟩ = none := rfl

theorem allDefinedIds_of_blocks (hs : s.defined? = none) :
    allDefinedIds [s] = allDefinedIds (blocksAlone s) := by
  have hblocks : ∀ bs : List Block, definedIds (bs.flatMap BlockOf.nodes) =
      allDefinedIds (bs.map fun b => ⟨.block b, s.span⟩) := by
    intro bs
    induction bs with
    | nil => rfl
    | cons b bs ih =>
      rw [map_cons, allDefinedIds_cons, ← ih]
      simp only [allDefinedIds, definedIds, flatMap_cons, flatMap_nil, append_nil,
        filterMap_append, nodes_eq ⟨.block b, s.span⟩, StmtKind.blocks,
        filterMap_cons_none defined?_block]
  rw [blocksAlone, ← hblocks, allDefinedIds, flatMap_cons, flatMap_nil,
    append_nil, nodes_eq]
  simp [definedIds, hs]

end Declare

section Recorded

variable {t : Table} {scope : ScopeId} (around : List (Option ScopeId))

theorem stmtsRegions_eq : stmtsRegions around ss = ss.flatMap (regions around) := by
  induction ss with
  | nil => rfl
  | cons s ss ih => rw [stmtsRegions, ih, flatMap_cons]

theorem BlockOf.regions_eq {b : Block} :
    b.regions around = ⟨b.scope, around, b.statements.filterMap definition?⟩ ::
      b.statements.flatMap (Located.regions (b.scope :: around)) := by
  rcases b with ⟨statements, span, scope⟩
  rw [BlockOf.regions, stmtsRegions_eq]

theorem Located.regions_eq : s.regions around = s.kind.blocks.flatMap (BlockOf.regions around) := by
  rcases s with ⟨kind, span⟩
  rw [regions]
  cases kind with
  | ifElse cond thenBlock elseBlock => cases elseBlock <;> simp [StmtKind.regions, StmtKind.blocks]
  | loop | block => simp [StmtKind.regions, StmtKind.blocks]
  | define | assign | assignElement | call | print | ret => rfl

/-- The symbols of definitions that are held. -/
theorem Definition.filterMap_of_held {define? : α → Option Definition}
    {id? : α → Option SymbolId} (hnone : ∀ {a}, define? a = none → id? a = none)
    (hsome : ∀ {a d id}, define? a = some d → d.HeldBy t scope id → id? a = some id) {as : List α}
    {ids : List SymbolId} (h : List.Forall₂ (HeldBy t scope) (as.filterMap define?) ids) :
    as.filterMap id? = ids := by
  induction as generalizing ids with
  | nil => exact (forall₂_nil_left_iff.mp h).symm
  | cons a as ih =>
    cases hd : define? a with
    | none => grind
    | some d =>
      rw [filterMap_cons_some hd] at h
      cases h with
      | cons hheld hrest => grind

theorem Located.defined?_of_none (h : s.definition? = none) : s.defined? = none := by
  rcases s with ⟨kind, span⟩
  cases kind <;> first | rfl | cases h

theorem Located.defined?_of_held {d : Definition}
    (hd : s.definition? = some d) (h : d.HeldBy t scope id) : s.defined? = some id := by
  rcases s with ⟨kind, span⟩
  cases kind <;> cases hd
  cases h
  rfl

/-- The region of a block that defines no name twice. -/
def Region.Clear (t : Table) (r : Region) : Prop :=
  ∃ i, r.Recorded t i ∧ t.kind? i = some .block ∧ repeats [] r.definitions = []

/-- **Placed statements.**  A statement stands in a scope that holds what it defines if the regions
of its blocks are recorded. -/
theorem Located.placed_of_clear (ht : t.WellFormed) (outer : List (Option ScopeId))
    (hregions : ∀ r ∈ s.regions (some scope :: outer), r.Clear t)
    (hown : ∀ d, s.definition? = some d → ∃ id, d.HeldBy t scope id) : s.Placed t scope := by
  induction s using Stmt.induction generalizing scope outer with
  | step s ih =>
    have hblock : ∀ b ∈ s.kind.blocks, ∀ r ∈ b.regions (some scope :: outer), r.Clear t := by
      intro b hb r hr
      apply hregions
      rw [regions_eq]
      exact mem_flatMap.mpr ⟨b, hb, hr⟩
    have hsettled : ∀ b ∈ s.kind.blocks, ∃ inner, b.scope = some inner ∧ t.Encloses scope inner ∧
        List.Forall₂ (HeldBy t inner) (b.statements.filterMap definition?)
          (t.symbolsOf inner) := by
      intro b hb
      obtain ⟨inner, hr, hkind, hrepeats⟩ := hblock b hb ⟨b.scope, _, _⟩ (by
        rw [BlockOf.regions_eq]
        exact .head _)
      have hscope : b.scope = some inner := hr.scope
      have hparent := ht.parent_of_chain (hscope ▸ hr.chain)
      refine ⟨inner, hscope, ⟨hkind, hparent, ht.parent hparent⟩, ?_⟩
      have hheld := hr.symbols
      rwa [firsts_eq_self hrepeats] at hheld
    refine .intro ?_ ?_ ?_
    · intro name value symbol hk
      obtain ⟨id, hid⟩ := hown (.var name s.span symbol) (by rw [definition?, hk])
      cases hid with
      | var symbol => exact ⟨id, _, rfl, symbol, rfl, rfl⟩
    · intro b hb
      obtain ⟨inner, hscope, hencloses, hheld⟩ := hsettled b hb
      refine ⟨inner, hscope, hencloses, ?_⟩
      exact (filterMap_of_held defined?_of_none defined?_of_held hheld).symm
    · intro b hb inner hscope c hc
      obtain ⟨inner', hscope', -, hheld⟩ := hsettled b hb
      cases hscope.symm.trans hscope'
      refine ih b hb c hc (some scope :: outer) (fun r hr => hblock b hb r ?_) fun d hd => ?_
      · rw [BlockOf.regions_eq, hscope]
        exact .tail _ (mem_flatMap.mpr ⟨c, hc, hr⟩)
      · obtain ⟨id, -, hid⟩ := exists_of_forall₂ hheld.flip (mem_filterMap.mpr ⟨c, hc, hd⟩)
        exact ⟨id, hid⟩

end Recorded

namespace Declare

/-! ## Functions and items -/

/-- A symbol is the variable that a parameter declares. -/
def IsParam (t : Table) (p : Param) (id : SymbolId) : Prop :=
  ∃ v, t.var? id = some v ∧ v.name = p.name ∧ v.ty = some p.mark.ty ∧ v.isParameter = true

end Declare

/-- A function has a symbol with its signature and a scope with its parameters, and its body stands
there as a block. -/
structure Function.PlacedAs (t : Table) (f : Function) (id : SymbolId) (sig : Signature) :
    Prop where
  symbol : f.symbol = some id
  func : t.func? id = some sig
  scope : f.scope = some sig.scope
  name : sig.name = f.name
  returnTy : sig.returnTy = (f.returnMark.map TypeMark.ty).getD .void
  kind : t.kind? sig.scope = some .function
  parent : t.parent? sig.scope = some global
  attached : t.function? sig.scope = some id
  lt : global.index < sig.scope.index
  own : t.symbolsOf sig.scope = sig.params
  typed : List.Forall₂ (Declare.IsParam t) f.params sig.params
  body : Placed t sig.scope ⟨.block f.body, f.span⟩

/-- An item stands in the global scope. -/
def Item.Placed (t : Table) : Item → Prop
  | .function f => ∃ id sig, f.PlacedAs t id sig
  | .statement s => s.Placed t global

def Item.defined? : Item → Option SymbolId
  | .function f => f.symbol
  | .statement s => s.defined?

theorem Declare.IsParam.mono {p : Param}
    (h : Declare.IsParam t p id) (ht : t.Extends t') : Declare.IsParam t' p id := by
  obtain ⟨v, hv, hrest⟩ := h
  exact ⟨v, (ht.var? (lt_size_of_var? hv)).trans hv, hrest⟩

theorem Item.Placed.mono {item : Item} (h : item.Placed t) (ht : t.Extends t')
    (hinner : ∀ i : ScopeId, i.index < t.scopes.size → i ≠ global →
      t'.symbolsOf i = t.symbolsOf i) : item.Placed t' := by
  have hne : ∀ {i : ScopeId}, global.index < i.index → i ≠ global :=
    fun hlt he => absurd hlt (he ▸ Nat.lt_irrefl _)
  cases item with
  | statement s => exact Located.Placed.mono h ht fun i hlt hsize => hinner i hsize (hne hlt)
  | function f =>
    obtain ⟨id, sig, h⟩ := h
    have hsize := lt_size_of_kind? h.kind
    have hid := lt_size_of_func? h.func
    refine ⟨id, sig, { h with
      func := (ht.func? hid).trans h.func
      kind := (ht.kind? _ hsize).trans h.kind
      parent := (ht.parent? _ hsize).trans h.parent
      attached := (ht.function? _ hsize).trans h.attached
      own := (hinner _ hsize (hne h.lt)).trans h.own
      typed := h.typed.imp fun _ _ hp => hp.mono ht
      body := h.body.mono ht fun i hlt hi => hinner i hi (hne (Nat.lt_trans h.lt hlt)) }⟩

namespace Declare

variable {scope : ScopeId} {t t' t'' : Table} {f : Function}

theorem stmt_placed
    (ht : t.Stands scope (some scope :: outer) earlier) (hfaults : (stmt scope t s).faults = []) :
    (stmt scope t s).tree.Placed (stmt scope t s).table scope := by
  have h := stmt_grows s ht
  rw [hfaults] at h
  obtain ⟨hds, hrs⟩ := h.clear
  refine placed_of_clear h.wellFormed outer (fun r hr => ?_) fun d hd => ?_
  · obtain ⟨i, hi, hsettled⟩ := exists_of_forall₂ h.regions.flip hr
    refine ⟨i, hsettled, h.kinds i hi fun d hd => ?_, hrs r hr⟩
    rw [head?_of_definition? (Option.mem_toList.mp hd)]
    nofun
  · obtain ⟨ids, -, hheld, -⟩ := h.own
    rw [firsts_eq_self hds] at hheld
    obtain ⟨id, -, hid⟩ := exists_of_forall₂ hheld.flip (Option.mem_toList.mpr hd)
    exact ⟨id, hid⟩

theorem function_placed (hf : f.Pristine)
    (ht : t.Stands global [some global] earlier) (hfaults : (function t f).faults = []) :
    Item.Placed (function t f).table (.function (function t f).tree) := by
  have h := function_grows hf ht
  rw [hfaults] at h
  generalize (function t f).tree = f, (function t f).table = t' at h ⊢
  obtain ⟨hds, hrs⟩ := h.clear
  obtain ⟨ids, -, hheld, -⟩ := h.own
  rw [firsts_eq_self hds] at hheld
  obtain ⟨id, -, hfunc, -, -⟩ := forall₂_cons_left_iff.mp hheld
  obtain ⟨inner, rest, hheader, hbody, hscopes⟩ := forall₂_cons_left_iff.mp h.regions
  obtain ⟨hparams, hblocks⟩ := forall_mem_cons.mp hrs
  have hscope : f.scope = some inner := hheader.scope
  have hnew : inner = ⟨t.scopes.size⟩ := Option.some.inj (hscope.symm.trans h.scope)
  have hinner : inner ∉ rest := (nodup_cons.mp (hscopes ▸ nodup_newScopes)).1
  have htyped := hheader.symbols
  rw [firsts_eq_self hparams, forall₂_map_left_iff] at htyped
  cases hfunc with
  | func recorded own parent symbol =>
    cases own.symm.trans hscope
    refine ⟨id, _, recorded, symbol, own, rfl, rfl, hnew ▸ h.kind, parent, ?_,
      h.wellFormed.parent parent, rfl, htyped.imp ?_, ?_⟩
    · rw [← recorded, ← h.function, hnew]
    · rintro p i ⟨⟩
      exact ⟨_, ‹_›, rfl, rfl, rfl⟩
    · refine placed_of_clear h.wellFormed [some global] (fun r hr => ?_) nofun
      obtain ⟨i, hi, hsettled⟩ := exists_of_forall₂ hbody.flip (hscope ▸ hr)
      refine ⟨i, hsettled, h.kinds i (hscopes ▸ .tail _ hi) fun d hd => ?_, hblocks r (hscope ▸ hr)⟩
      obtain rfl := mem_singleton.mp hd
      rintro heq
      cases hscope.symm.trans heq
      exact hinner hi

/-- **Declaring items.**  Without a fault, declaring the items of a script places each of them. -/
theorem items_placed (hits : ∀ item ∈ its, item.Pristine)
    (ht : t.Stands global [some global] earlier) (hfaults : (items t its).faults = []) :
    ∀ item ∈ (items t its).tree, item.Placed (items t its).table := by
  induction its generalizing t earlier with
  | nil => nofun
  | cons item its ih =>
    obtain ⟨hitem, hothers⟩ := forall_mem_cons.mp hits
    cases item with
    | function f =>
      simp only [items, append_eq_nil_iff] at hfaults ⊢
      have hstands := (function_grows hitem ht).stands ht
      have hrest := items_grows hothers hstands
      exact forall_mem_cons.mpr ⟨(function_placed hitem ht hfaults.1).mono hrest.ext hrest.frame,
        ih hothers hstands hfaults.2⟩
    | statement s =>
      simp only [items, append_eq_nil_iff] at hfaults ⊢
      have hstands := (stmt_grows s ht).stands ht
      have hrest := items_grows hothers hstands
      have hs : Item.Placed _ (.statement (stmt global t s).tree) := stmt_placed ht hfaults.1
      exact forall_mem_cons.mpr ⟨hs.mono hrest.ext hrest.frame, ih hothers hstands hfaults.2⟩

/-- The global scope gets what the items define. -/
theorem items_own (hits : ∀ item ∈ its, item.Pristine)
    (ht : t.Stands global around earlier) (hfaults : (items t its).faults = []) :
    (items t its).table.symbolsOf global =
      t.symbolsOf global ++ (items t its).tree.filterMap Item.defined? := by
  have h := items_grows hits ht
  rw [hfaults] at h
  obtain ⟨ids, hown, hheld, -⟩ := h.own
  rw [firsts_eq_self h.clear.1] at hheld
  rw [hown, filterMap_of_held (fun {item} hnone => ?_) (fun {item d id} hd hid => ?_) hheld]
  · cases item with
    | function f => cases hnone
    | statement s => exact defined?_of_none hnone
  · cases item with
    | function f =>
      cases hd
      cases hid
      assumption
    | statement s => exact defined?_of_held hd hid

/-! ## Expressions are left alone -/

theorem stmts_asRead_of {ss : List Stmt}
    (hss : ∀ s ∈ ss, ∀ scope t, (stmt scope t s).tree.AsRead) (scope : ScopeId) (t : Table) :
    ∀ s ∈ (stmts scope t ss).tree, s.AsRead := by
  induction ss generalizing t with
  | nil => nofun
  | cons s ss ih =>
    obtain ⟨hs, hss⟩ := forall_mem_cons.mp hss
    exact forall_mem_cons.mpr ⟨hs scope t, ih hss _⟩

theorem block_asRead_of {b : Block}
    (hb : ∀ s ∈ b.statements, ∀ scope t, (stmt scope t s).tree.AsRead) (scope : ScopeId)
    (t : Table) :
    (block scope t b).tree.AsRead := by
  rcases b with ⟨statements, span, bscope⟩
  exact stmts_asRead_of hb _ _

theorem stmt_asRead (h : s.AsRead) (scope : ScopeId) (t : Table) :
    (stmt scope t s).tree.AsRead := by
  induction s using Stmt.induction generalizing scope t with
  | step s ih =>
    obtain ⟨here, inside⟩ := asRead_iff.mp h
    rcases s with ⟨kind, span⟩
    have hblock : ∀ b ∈ kind.blocks, ∀ scope t, (block scope t b).tree.AsRead := fun b hb =>
      block_asRead_of fun s hs => ih b hb s hs (inside b hb s hs)
    rw [asRead_iff]
    cases kind with
    | define name value symbol =>
      simp only [stmt, stmtKind, Passed.map]
      split <;> exact ⟨⟨here.exprs, here.calls⟩, by simp⟩
    | assign | assignElement | call | print | ret => exact ⟨here, forall_mem_nil _⟩
    | loop cond body | block body =>
      exact ⟨⟨here.exprs, here.calls⟩, forall_mem_singleton.mpr (hblock body (.head _) _ _)⟩
    | ifElse cond thenBlock elseBlock =>
      have hthen := hblock thenBlock (.head _)
      cases elseBlock with
      | none => exact ⟨⟨here.exprs, here.calls⟩, forall_mem_singleton.mpr (hthen _ _)⟩
      | some elseBlock =>
        have helse := hblock elseBlock (.tail _ (.head _))
        exact ⟨⟨here.exprs, here.calls⟩, forall_mem_pair.mpr ⟨hthen _ _, (helse _ _)⟩⟩

/-- The statements of an item, a function being its body. -/
def itemStmts : Item → List Stmt
  | .function f => f.body.statements
  | .statement s => [s]

/-- Declaring items leaves their expressions as they were read. -/
theorem asRead_items (hread : ∀ item ∈ its, item.AsRead) :
    ∀ item ∈ (items t its).tree, ∀ s ∈ itemStmts item, s.AsRead := by
  induction its generalizing t with
  | nil => intro item hitem; cases hitem
  | cons item its ih =>
    obtain ⟨hfirst, hrest⟩ := forall_mem_cons.mp hread
    cases item with
    | function f =>
      exact forall_mem_cons.mpr
        ⟨block_asRead_of (fun s hs => stmt_asRead (hfirst.1 s hs)) _ _, ih hrest⟩
    | statement s =>
      exact forall_mem_cons.mpr ⟨forall_mem_singleton.mpr (stmt_asRead hfirst _ _), ih hrest⟩

end Declare

end WichToC

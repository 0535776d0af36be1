import WichToC.Proofs.Scoping

/-!
# Building statements

The statements of a script without errors can be built.  `Build.stmt_builds` says what a statement
yields: a node of the shape of statements, whose names refer to what the script means by them in all
frames that show what its scope shows.  The argument goes along the recursion of building:
expressions, lists of statements, blocks and statements.

A block collects its temporaries while its statements are built, so what is known of a statement is
stated for all frames in which the temporaries of its block are declared.
-/

namespace WichToC

open List Node Annotated WichToC.Frame

variable {t₁ : Table} {x : String} {n : Node} {names₁ : Names} {ss : List Stmt}

namespace Build

variable {t : Table} {names names' : Names} {returns : Bool} {nest : Nest} {scope : ScopeId}
  {frames : List Frame} {id : SymbolId} {s : Stmt} {node : Node} {e : Expr}

/-! ## Expressions -/

/-- The names of an expression are right in frames that show what its scope shows. -/
theorem Visible.covers (h : Visible t nest names scope frames)
    (hret : t₁.Retypes t) (hruled : e.Ruled t₁) (hresolves : e.Resolves t scope) :
    Covers (toLookup frames) names.renamed e := by
  intro c hc
  have hrule := (hruled c hc).gives
  have hself := hresolves c hc
  obtain ⟨ty, -, -, hgives⟩ := hrule
  split
  · rename_i n id hk
    rw [hk] at hgives hself
    obtain ⟨id', v, hid, hv, -, -⟩ := hgives
    cases hid
    obtain ⟨ty', hv', -⟩ := hret.var? hv
    exact h.var hself.symm hv'
  · rename_i f args id hk
    rw [hk] at hgives hself
    obtain ⟨id', sig, hid, hsig, -⟩ := hgives
    cases hid
    exact h.func hself.symm ((hret.func? id).trans hsig)
  · trivial

theorem Visible.adds (h : Visible t nest names scope frames)
    (hadds : names.Adds names') : Visible t nest names' scope frames :=
  h.mono (hadds.advances.grows []) fun _ _ => not_mem_nil

/-- A bound temporary of the present block. -/
def Names.IsScratch (names : Names) (x : String) : Prop := x ∈ names.scratch.map Prod.fst

/-- What building an expression of a scope yields. -/
structure BuildsExpr (t : Table) (nest : Nest) (names : Names) (scope : ScopeId) (e : Expr)
    (n : Node) (names' : Names) : Prop where
  adds : names.Adds names'
  closed : n.ClosedExpr t
  typed : n.ty? = e.effectiveTy
  notVar : e.kind.isName = false → n.kind ≠ .varRef
  binds : n.All (BindsIn names'.IsScratch)
  built : ∀ frames, Visible t nest names scope frames →
    (∀ p ∈ names'.scratch, find? frames p.1 = some .temp) →
      BuiltFor (toLookup frames) .used e n

theorem expr_builds (hret : t₁.Retypes t) (hruled : e.Ruled t₁)
    (hresolves : e.Resolves t scope) (hwide : e.WidensValue) (hgood : names.Good t) :
    Builds (expr e) names (BuildsExpr t nest names scope e) := by
  refine (value_builds (base_builds hruled) hwide).imp fun n names' hn => ?_
  -- The shape of the node does not depend on what its names refer to.
  let shapely : Lookup := ⟨fun _ c => IsVarName t c, fun _ _ => True, names'.IsScratch⟩
  have hcovers : Covers shapely names'.renamed e := by
    intro c hc
    obtain ⟨ty, -, -, hgives⟩ := (hruled c hc).gives
    split
    · rename_i n id hk
      rw [hk] at hgives
      obtain ⟨id', v, -, hv, hname, -⟩ := hgives
      rw [hn.adds.renamed]
      exact hgood.isVarName (hname ▸ hret.mem_names hv) (some id)
    · trivial
    · trivial
  have hbuilt := hn.built shapely ⟨hcovers, fun p hp => mem_map_of_mem hp⟩
  exact {
    adds := hn.adds
    closed := hbuilt.closedExpr (fun _ _ hc => hc) hruled
    typed := hbuilt.ty?_used
    notVar := hbuilt.kind_ne_varRef
    binds := hbuilt.bindsIn
    built := fun frames hvisible htemps =>
      hn.built _ ⟨hn.adds.renamed ▸ hvisible.covers hret hruled hresolves, htemps⟩ }

theorem effectiveTy_builds (h : ∃ ty, e.ty = some ty ∧ ty ≠ .error) :
    Builds (effectiveTy e) names fun ty names' => names = names' ∧ e.effectiveTy = some ty := by
  refine (exprTy_builds h).bind ?_
  rintro ty _ ⟨rfl, hty⟩
  refine .pure ⟨rfl, ?_⟩
  rw [Annotated.effectiveTy, hty]
  cases e.promoteTo <;> rfl

/-! ## Bound names are declared -/

theorem exists_tempDecl {scratch : List (String × Ty)} (h : x ∈ scratch.map Prod.fst) :
    ∃ ty, (x, .tempDecl x ty) ∈ tempDecls scratch := by
  obtain ⟨p, hp, rfl⟩ := mem_map.mp (keys_tempDecls.mpr h)
  rcases mem_insertEntries hp with hnone | hnew
  · cases hnone
  · grind

theorem Names.IsScratch.mono (h : names.IsScratch x)
    (hkept : names.scratch ⊆ names'.scratch) : names'.IsScratch x := by
  obtain ⟨p, hp, rfl⟩ := mem_map.mp h
  exact mem_map_of_mem (hkept hp)

theorem BuildsExpr.bindsIn
    (h : BuildsExpr t nest names scope e n names₁) (hkept : names₁.scratch ⊆ names'.scratch) :
    n.All (BindsIn names'.IsScratch) :=
  h.binds.imp fun m hm => by
    cases m with
    | bind => exact Names.IsScratch.mono hm hkept
    | block => cases hm
    | _ => trivial

/-- A statement whose own bindings are temporaries of the present block, and whose blocks declare
what they bind. -/
structure BindsScratch (n : Node) (names : Names) : Prop where
  own : ∀ e ∈ n.exprs, ∀ x ∈ e.boundNames, names.IsScratch x
  inside : n.All DeclaresBound

/-- A statement over expressions and blocks. -/
theorem BindsScratch.over (es bs : List Node) (here : n.DeclaresBound)
    (hn : n.children = es ++ bs) (hes : ∀ e ∈ es, e.All (BindsIn names.IsScratch))
    (hbs : ∀ c ∈ bs, c.kind = .block ∧ c.All DeclaresBound) : BindsScratch n names where
  own e he := by
    obtain ⟨hmem, hkind⟩ := mem_filter.mp he
    rcases mem_append.mp (hn ▸ hmem) with hmem | hmem
    · exact BindsIn.mem (hes e hmem)
    · grind
  inside := by
    refine .of_children here hn fun c hc => ?_
    rcases mem_append.mp hc with hc | hc
    · refine (hes c hc).imp fun m hm => ?_
      cases m with
      | block => cases hm
      | _ => trivial
    · exact (hbs c hc).2

/-- A statement over an expression. -/
theorem BindsScratch.single {e : Node} (here : n.DeclaresBound) (hn : n.children = [e])
    (he : e.All (BindsIn names.IsScratch)) : BindsScratch n names :=
  .over [e] [] here hn (forall_mem_singleton.mpr he) nofun

/-- A block over statements that bind its temporaries. -/
theorem declaresBound_block {b : CBlock Node}
    (hlocals : ∀ p ∈ b.locals, ∃ name ty isTemp, p.2 = .varDecl name ty isTemp)
    (htemps : b.temps = tempDecls names.scratch) (hcleanup : b.cleanup = [])
    (hstats : ∀ n ∈ b.stats, BindsScratch n names) : (Node.block b).All Node.DeclaresBound := by
  have hblock : b.Uncounted := ⟨hlocals, htemps ▸ tempDecls_isTempDecl names.scratch, hcleanup⟩
  refine .intro (fun s hs e he x hx => htemps ▸ exists_tempDecl ((hstats s hs).own e he x hx)) ?_
  exact hblock.forall_children (fun _ _ _ => .intro trivial nofun) fun s hs => (hstats s hs).inside

/-! ## Lists of statements -/

/-- Built statements in order, and the names before and after building them. -/
structure BuiltStats (t : Table) (returns : Bool) (nest : Nest) (scope : ScopeId) (names : Names)
    (ss : List Stmt) (nodes : List Node) (names' : Names) : Prop where
  stats : ∀ n ∈ nodes, BuiltStat t returns nest n
  defs : nodes.filterMap defined? = declared t names' (definedIds ss)
  good : names'.Good t
  grows : names.Grows names' (innerIds ss)
  tidy : names.Tidy t → names'.Tidy t
  kept : ∀ p ∈ names.scratch, p ∈ names'.scratch
  binds : ∀ n ∈ nodes, BindsScratch n names'
  built : ∀ frames, Visible t nest names scope frames → Apart t scope (innerIds ss) →
    (∀ p ∈ names'.scratch, find? frames p.1 = some .temp) →
      ∃ pairs : List (Stmt × Node), ss = pairs.map Prod.fst ∧ nodes = pairs.map Prod.snd ∧
        ∀ p ∈ pairs, PieceBuiltFor t frames (.stmt p.1) p.2

/-- A statement can be built wherever it is ready. -/
def StmtBuilds (t : Table) (returns : Bool) (s : Stmt) : Prop :=
  ∀ {nest : Nest} {scope : ScopeId} {names : Names}, Site t nest names →
    StmtsReady t returns nest scope names [s] →
      Builds (stmt t s) names fun node names' =>
        BuiltStats t returns nest scope names [s] [node] names'

theorem BuiltStats.nil (hgood : names.Good t) : BuiltStats t returns nest scope names [] [] names :=
  ⟨nofun, rfl, hgood, ⟨fun _ h => h, fun _ _ => rfl⟩, id, fun _ h => h, nofun,
    fun _ _ _ _ => ⟨[], rfl, rfl, nofun⟩⟩

theorem BuiltStats.cons {names₂ : Names}
    {nodes : List Node} (h : BuiltStats t returns nest scope names [s] [node] names₁)
    (hs : BuiltStats t returns nest scope names₁ ss nodes names₂)
    (hnodup : (definedIds (s :: ss) ++ innerIds (s :: ss)).Nodup) :
    BuiltStats t returns nest scope names (s :: ss) (node :: nodes) names₂ where
  stats := forall_mem_cons.mpr ⟨h.stats node (.head _), hs.stats⟩
  defs := by
    have hsplit : ∀ names, declared t names (definedIds (s :: ss)) =
        declared t names (definedIds [s]) ++ declared t names (definedIds ss) := by
      intro names
      rw [Declare.definedIds_cons, declared, filterMap_append]
      rfl
    have hfirst : declared t names₂ (definedIds [s]) = declared t names₁ (definedIds [s]) := by
      refine declared_congr fun id hid => hs.grows.stable id fun hinner => ?_
      rw [Declare.definedIds_cons, innerIds_cons] at hnodup
      grind
    rw [hsplit, hfirst, ← h.defs, ← hs.defs, ← filterMap_append]
    rfl
  good := hs.good
  grows := innerIds_cons ▸ h.grows.trans hs.grows
  tidy htidy := hs.tidy (h.tidy htidy)
  kept p hp := hs.kept p (h.kept p hp)
  binds := by
    have hnode := h.binds node (.head _)
    exact forall_mem_cons.mpr
      ⟨⟨fun e he x hx => (hnode.own e he x hx).mono hs.kept, hnode.inside⟩, hs.binds⟩
  built frames hvisible hapart htemps := by
    rw [innerIds_cons] at hapart
    have hapart₁ : Apart t scope (innerIds [s]) := hapart.mono fun id hid => mem_append_left _ hid
    obtain ⟨first, hfirst, hnode, hbuilt⟩ :=
      h.built frames hvisible hapart₁ fun p hp => htemps p (hs.kept p hp)
    obtain ⟨pairs, rfl, rfl, hpairs⟩ := hs.built frames (hvisible.mono h.grows hapart₁)
      (hapart.mono fun id hid => mem_append_right _ hid) htemps
    refine ⟨first ++ pairs, ?_, ?_, forall_mem_append.mpr ⟨hbuilt, hpairs⟩⟩
    · rw [map_append, ← hfirst]
      rfl
    · rw [map_append, ← hnode]
      rfl

theorem stmts_builds_of (hss : ∀ s ∈ ss, StmtBuilds t returns s)
    (hsite : Site t nest names) (hready : StmtsReady t returns nest scope names ss) :
    Builds (stmts t ss) names fun nodes names' =>
      BuiltStats t returns nest scope names ss nodes names' := by
  induction ss generalizing names with
  | nil => exact .pure (.nil hsite.good)
  | cons s ss ih =>
    rw [stmts]
    refine (hss s (.head _) hsite hready.head).bind fun node names₁ hnode => ?_
    refine (ih (fun c hc => hss c (.tail s hc)) (hsite.mono hnode.grows hnode.good)
      (hready.tail hnode.grows)).bind fun nodes names₂ hnodes => ?_
    exact .pure (hnode.cons hnodes hready.nodup)

/-! ## Blocks -/

/-- A built block, and the names before and after building it. -/
structure BuildsBlock (t : Table) (returns isFunctionBody : Bool) (nest : Nest) (scope : ScopeId)
    (names : Names) (b : Block) (node : Node) (names' : Names) : Prop where
  shape : ∃ scope vars c, node = .block c ∧ BuiltBlock t isFunctionBody nest scope vars c ∧
    ∀ s ∈ c.stats, BuiltStat t returns ((scope, vars.map Prod.fst) :: nest) s
  good : names'.Good t
  grows : names.Grows names' (definedIds b.nodes)
  scratch : names'.scratch = names.scratch
  binds : node.All DeclaresBound
  built : ∀ frames, Visible t nest names scope frames → Apart t scope (definedIds b.nodes) →
    PieceBuiltFor t frames (.block b) node

theorem isTempDecl_tempDecls (scratch : List (String × Ty)) :
    ∀ p ∈ tempDecls scratch, p.2.isTempDecl = true := by
  intro p hp
  obtain ⟨name, ty, heq⟩ := tempDecls_isTempDecl scratch p hp
  rw [heq]
  rfl

theorem block_builds_of {b : Block} {inner : ScopeId}
    (hb : ∀ s ∈ b.statements, StmtBuilds t returns s)
    (ht : t.Typed) (hsite : Site t nest names)
    (hready : BlockReady t returns nest scope inner names b) (isFunctionBody : Bool) :
    Builds (block t isFunctionBody b) names fun node names' =>
      BuildsBlock t returns isFunctionBody nest scope names b node names' := by
  have hids := hready.symbols
  have hvars := hready.vars
  have hperm := BlockReady.definedIds_perm b
  have hnodup := hperm.nodup_iff.mp hready.nodup
  have henter := hready.enter ht hsite
  have hapartEnter := fun h => Apart.enter ht hready.encloses hids hready.nodup h
  rcases b with ⟨statements, span, _⟩
  cases hready.ownScope
  dsimp only at hids hb hperm hnodup henter hapartEnter
  rw [block]
  refine henter.bind fun locals names₁ hentered => ?_
  have hdecl := hentered.decl
  refine (swapScratch_builds []).bind ?_
  rintro _ _ ⟨rfl, rfl⟩
  have hadvance : names₁.Advances { names₁ with scratch := [] } := ⟨rfl, rfl⟩
  refine (stmts_builds_of hb (hentered.site.mono (hadvance.grows []) (hdecl.good.advance hadvance))
    (hentered.ready.advance hadvance)).bind fun stats names₃ hstats => ?_
  refine (swapScratch_builds _).bind ?_
  rintro _ _ ⟨rfl, rfl⟩
  have hadvance₃ : names₃.Advances { names₃ with scratch := names₁.scratch } := ⟨rfl, rfl⟩
  let c : CBlock Node :=
    { locals := locals, temps := tempDecls names₃.scratch, stats := stats, scope := some inner,
      isFunctionBody := isFunctionBody }
  have hvarsEq : declared t names₃ (definedIds statements) =
      declared t names₁ (t.symbolsOf inner) := by
    rw [hids]
    refine declared_congr fun id hid => ?_
    rw [hstats.grows.stable id fun hin => (nodup_append.mp hnodup).2.2 id hid id hin rfl]
  have hdecls := isDecl_declOf (declared t names₁ (t.symbolsOf inner))
  rw [← hentered.locals] at hdecls
  -- The temporaries of the block are those that its statements bind.
  have htemps := isTemp_tempDecls (hstats.tidy nofun)
  refine .pure (a := Node.block c)
    ⟨⟨inner, declared t names₁ (t.symbolsOf inner), c, rfl, ?_, hstats.stats⟩,
    hstats.good.advance hadvance₃, ?_, hdecl.scratch,
      declaresBound_block hdecls rfl rfl hstats.binds,
    fun frames hvisible hapart => ?_⟩
  · exact {
      ownScope := rfl
      encloses := ⟨scope, hready.innermost, hready.encloses⟩
      locals := hentered.locals
      nodup := hentered.nodup
      varNames := hdecl.varName
      apart := hsite.named.not_mem hsite.linked ht.wellFormed hready.innermost hready.encloses hdecl
      defs := hstats.defs.trans hvarsEq
      temps := tempDecls_isTempDecl _
      cleanup := rfl
      body := rfl
      injected := rfl }
  · refine ((hdecl.grows.trans (hadvance.grows [])).trans
      (hstats.grows.trans (hadvance₃.grows []))).mono fun id hid => hperm.mem_iff.mpr ?_
    simpa [hids] using hid
  · obtain ⟨hapartOwn, hapartInner⟩ := hapartEnter hapart
    have hnoParams : ∀ id ∈ t.symbolsOf inner, ∀ v, t.var? id = some v → v.isParameter = false := by
      grind
    obtain ⟨hframe, hdeclares⟩ := frame_eq (b := c) ht hnoParams hentered.locals rfl
    have hentered' := hvisible.enter ht hsite hready.innermost hready.encloses
      (fun id hid => (hvars id hid).imp fun _ h => h.1) hdecl hentered.nodup hapartOwn htemps
    obtain ⟨pairs, hstatements, hnodes, hinside⟩ := hstats.built _
      (hentered'.mono (hadvance.grows []) fun _ _ => not_mem_nil) hapartInner fun p hp => by
        obtain ⟨q, hq, heq⟩ := mem_map.mp (keys_tempDecls.mpr (mem_map_of_mem hp))
        rw [← heq]
        exact find?_of_some (lookup_temp ht hdecl hq (htemps q hq))
    refine .block rfl rfl hdeclares ?_ ?_
      (fun p hp => ⟨isTempDecl_tempDecls _ p hp, htemps p hp⟩) rfl
      hstatements hnodes fun p hp => ?_
    · rw [hframe]
      exact hentered'.distinct
    · rw [hframe]
      exact hvisible.hidesNone ht hready.encloses hdecl htemps
    · rw [hframe]
      exact hinside p hp

/-! ## Statements -/

/-- The expressions of a typed statement are widened as values. -/
theorem widensValue_of_step {t₂ : Table} {k : StmtKind} (h : Typing.Step t₁ k t₂) :
    ∀ e ∈ k.exprs, e.WidensValue := by
  intro e he
  cases h <;> simp only [StmtKind.exprs, Option.toList_some, Option.toList_none, mem_cons,
    not_mem_nil, or_false] at he
  case define widening | assignFirst widening | ifElse widening | loop widening | call widening _ |
      print widening => exact .inl (he ▸ widening)
  case assign given assignable widening | ret given assignable widening =>
    subst he
    exact widensValue_of_assignable given assignable widening
  case assignElement placeWidening _ given widening =>
    rcases he with rfl | rfl
    · exact .inl placeWidening
    · rcases given with given | given <;> exact widensValue_of_assignable given rfl widening

/-- A target that a name stands for is found under its C name. -/
theorem cName_refers {c : String} {v : Variable}
    (hvisible : Visible t nest names scope frames) (hr : t.resolve scope x = some id)
    (hv : t.var? id = some v) (hadds : names.Adds names')
    (hc : c = ((some id).bind fun id => names'.renamed.lookup id).getD x) :
    find? frames c = some (.var id) := by
  rw [hadds.renamed] at hc
  exact hc ▸ hvisible.var hr hv

/-- A statement without blocks. -/
theorem BuiltStats.leaf (hgood : names.Good t) (hstat : BuiltStat t returns nest node)
    (hdefs : node.defined?.toList = declared t names' (definedIds [s]))
    (hadds : names.Adds names') (hbinds : BindsScratch node names')
    (hbuilt : ∀ frames, Visible t nest names scope frames →
      (∀ p ∈ names'.scratch, find? frames p.1 = some .temp) →
        PieceBuiltFor t frames (.stmt s) node) :
    BuiltStats t returns nest scope names [s] [node] names' where
  stats := forall_mem_singleton.mpr hstat
  defs := by grind
  good := hgood.advance hadds.advances
  grows := hadds.advances.grows _
  tidy := hadds.tidy hgood
  kept := hadds.scratch
  binds := forall_mem_singleton.mpr hbinds
  built frames hvisible _ htemps :=
    ⟨[(s, node)], rfl, rfl, forall_mem_singleton.mpr (hbuilt frames hvisible htemps)⟩

/-- A statement with blocks, which defines nothing itself, and whose blocks bind their
temporaries. -/
theorem BuiltStats.ofBlocks (hgood : names.Good t) (hadds : names.Adds names₁)
    (hscratch : names'.scratch = names₁.scratch) (hgood' : names'.Good t)
    (hgrows : names.Grows names' (s.kind.blocks.flatMap fun b => definedIds b.nodes))
    (hstat : BuiltStat t returns nest node) (hnode : node.defined? = none) (hs : s.defined? = none)
    (hbinds : BindsScratch node names₁)
    (hbuilt : ∀ frames, Visible t nest names scope frames →
      (∀ b ∈ s.kind.blocks, Apart t scope (definedIds b.nodes)) →
        (∀ p ∈ names₁.scratch, find? frames p.1 = some .temp) →
          PieceBuiltFor t frames (.stmt s) node) :
    BuiltStats t returns nest scope names [s] [node] names' where
  stats := forall_mem_singleton.mpr hstat
  defs := by simp [declared, definedIds, hs, hnode]
  good := hgood'
  grows := by simpa [innerIds] using hgrows
  tidy htidy := by
    unfold Names.Tidy
    rw [hscratch]
    exact hadds.tidy hgood htidy
  kept p hp := hscratch ▸ hadds.scratch p hp
  binds := forall_mem_singleton.mpr
    ⟨fun e he x hx => (hbinds.own e he x hx).mono fun _ hp => hscratch ▸ hp, hbinds.inside⟩
  built frames hvisible hapart htemps := by
    refine ⟨[(s, node)], rfl, rfl, forall_mem_singleton.mpr (hbuilt frames hvisible (fun b hb => ?_)
      (hscratch ▸ htemps))⟩
    exact hapart.mono fun id hid => by simpa [innerIds, -StmtKind.blocks] using ⟨b, hb, hid⟩

theorem BuildsBlock.builtStat {b : Block}
    (h : BuildsBlock t returns false nest scope names b node names') :
    ∃ c, node = .block c ∧ BuiltStat t returns nest (.block c) := by
  obtain ⟨scope, vars, c, hnode, hshape, hstats⟩ := h.shape
  exact ⟨c, hnode, .block hshape hstats⟩

/-- **Building statements.**  A statement can be built wherever it is ready. -/
theorem stmt_builds (ht : t.Typed) (s : Stmt) : StmtBuilds t returns s := by
  induction s using Stmt.induction with
  | step s ih =>
    intro nest scope names hsite hready
    have hgood := hsite.good
    have hself := hready.ready s (by simp [Located.nodes_eq])
    obtain ⟨t₁, t₂, hret, hstep⟩ := hself.step
    cases hready.resolves s (.head _) with
    | intro exprs target ret inside =>
    have htyped : ∀ e ∈ s.kind.exprs, ∃ ty, e.ty = some ty ∧ ty ≠ .error := by
      intro e he
      obtain ⟨ty, hty, hne, -⟩ := (ruled_iff.mp (hstep.ruled e he)).1.gives
      exact ⟨ty, hty, hne⟩
    have hexpr : ∀ e ∈ s.kind.exprs, ∀ {names : Names}, names.Good t →
        Builds (expr e) names (BuildsExpr t nest names scope e) := fun e he names =>
      expr_builds hret (hstep.ruled e he) (exprs e he) (widensValue_of_step hstep e he)
    have hblock : ∀ {b before after names'}, s.kind.blocks = before ++ b :: after →
        names.Grows names' (before.flatMap fun c => definedIds c.nodes) → names'.Good t →
        Builds (block t false b) names' fun node names'' =>
          BuildsBlock t returns false nest scope names' b node names'' := by
      intro b before after names' hb hgrows hgood'
      obtain ⟨inner, hinner⟩ := hready.blocks hb hgrows
      exact block_builds_of (ih b (by simp [hb, -StmtKind.blocks])) ht (hsite.mono hgrows hgood')
        hinner false
    rcases s with ⟨kind, span⟩
    dsimp only at hself hstep htyped hexpr hblock target
    show Builds (stmtKind t kind) names _
    cases kind with
    | define name value symbol =>
      obtain ⟨id, v, ty, rfl, hv, rfl, -, hty, heff⟩ := hself.define rfl
      have hid : id ∈ t.symbolsOf scope := hready.own id (by simp [definedIds, Located.defined?])
      rw [stmtKind]
      refine (effectiveTy_builds (htyped value (by simp))).bind ?_
      rintro ty' _ ⟨rfl, hty'⟩
      obtain rfl := Option.some.inj (heff.symm.trans hty')
      refine (hexpr value (by simp) hgood).bind fun node names₁ hnode => ?_
      refine (cName_builds (some id) v.name).bind ?_
      rintro c _ ⟨rfl, hc⟩
      have hvar :=
        (hgood.advance hnode.adds.advances).isVarName (Table.mem_names_of_var? hv) (some id)
      refine .pure (.leaf hgood (.varDef (hc ▸ hvar) hnode.closed (hnode.typed.trans hty')) ?_
        hnode.adds (.single trivial rfl hnode.binds) fun frames hvisible htemps => ?_)
      · simp [defined?, declared, definedIds, Located.defined?, hv, hty, Names.cName, hc]
      · exact .define
          (cName_refers hvisible (ht.wellFormed.resolve_of_mem hid hv) hv hnode.adds hc) hty'
          (hnode.built frames hvisible htemps)
    | assign name value symbol =>
      obtain ⟨id, v, rfl, hr, hv⟩ : ∃ id v, symbol = some id ∧ t.resolve scope name = some id ∧
          t.var? id = some v := by
        have hsymbol := target rfl
        cases hstep with
        | assignFirst var | assign var =>
          obtain ⟨ty, hv, -⟩ := hret.var? var
          exact ⟨_, _, rfl, hsymbol.symm, hv⟩
      rw [stmtKind]
      refine (effectiveTy_builds (htyped value (by simp))).bind ?_
      rintro ty _ ⟨rfl, hty⟩
      refine (hexpr value (by simp) hgood).bind fun node names₁ hnode => ?_
      refine (cName_builds (some id) name).bind ?_
      rintro c _ ⟨rfl, hc⟩
      have hvar := (hgood.advance hnode.adds.advances).isVarName (mem_names_of_resolve hr) (some id)
      refine newTemp_builds.bind fun temp names₂ htemp => ?_
      refine .pure (.leaf hgood (.assign (hc ▸ hvar) hnode.closed (hnode.typed.trans hty)) rfl
        (hnode.adds.trans htemp.adds) (.single trivial rfl (hnode.bindsIn htemp.adds.scratch))
        fun frames hvisible htemps => ?_)
      exact .assign (cName_refers hvisible hr hv hnode.adds hc) hty
        (hnode.built frames hvisible fun p hp => htemps p (htemp.adds.scratch p hp))
    | assignElement name i value symbol =>
      obtain ⟨id, v, rfl, hr, hv⟩ : ∃ id v, symbol = some id ∧ t.resolve scope name = some id ∧
          t.var? id = some v := by
        have hsymbol := target rfl
        cases hstep with
        | assignElement var =>
          obtain ⟨ty, hv, -⟩ := hret.var? var
          exact ⟨_, _, rfl, hsymbol.symm, hv⟩
      rw [stmtKind]
      refine (hexpr i (by simp) hgood).bind fun place names₁ hplace => ?_
      have hgood₁ := hgood.advance hplace.adds.advances
      refine (hexpr value (by simp) hgood₁).bind fun node names₂ hnode => ?_
      refine (cName_builds (some id) name).bind ?_
      rintro c _ ⟨rfl, hc⟩
      have hvar :=
        (hgood₁.advance hnode.adds.advances).isVarName (mem_names_of_resolve hr) (some id)
      refine .pure (.leaf hgood (.elementAssign (hc ▸ hvar) hplace.closed hnode.closed) rfl
        (hplace.adds.trans hnode.adds) (.over [place, node] [] trivial rfl
          (forall_mem_pair.mpr ⟨hplace.bindsIn hnode.adds.scratch, hnode.binds⟩)
          (by simp)) fun frames hvisible htemps => ?_)
      exact .assignElement (cName_refers hvisible hr hv (hplace.adds.trans hnode.adds) hc)
        (hplace.built frames hvisible fun p hp => htemps p (hnode.adds.scratch p hp))
        (hnode.built frames (hvisible.adds hplace.adds) htemps)
    | ifElse cond thenBlock elseBlock =>
      rw [stmtKind]
      refine (hexpr cond (by simp) hgood).bind fun test names₁ htest => ?_
      have hgrows₁ := htest.adds.advances.grows []
      refine (hblock (show _ = [] ++ thenBlock :: elseBlock.toList from rfl) hgrows₁
        (hgood.advance htest.adds.advances)).bind fun yes names₂ hyes => ?_
      obtain ⟨b, rfl, hyesStat⟩ := hyes.builtStat
      have hgrows₂ := hgrows₁.trans hyes.grows
      cases elseBlock with
      | none =>
        refine .pure (.ofBlocks hgood htest.adds hyes.scratch hyes.good (by simpa using hgrows₂)
          (.ifThen htest.closed hyesStat) rfl rfl (.over [test] [_] trivial rfl
            (forall_mem_singleton.mpr htest.binds) (forall_mem_singleton.mpr ⟨rfl, hyes.binds⟩))
          fun frames hvisible hapart htemps => ?_)
        exact .ifThen (htest.built frames hvisible htemps)
          (hyes.built frames (hvisible.adds htest.adds) (hapart thenBlock (by simp)))
      | some elseBlock =>
        rw [block?, bind_assoc]
        refine (hblock (show _ = [thenBlock] ++ elseBlock :: [] from rfl) (by simpa using hgrows₂)
          hyes.good).bind fun no names₃ hno => ?_
        obtain ⟨b', rfl, hnoStat⟩ := hno.builtStat
        refine .pure (.ofBlocks hgood htest.adds (hno.scratch.trans hyes.scratch) hno.good
          (by simpa using hgrows₂.trans hno.grows) (.ifElse htest.closed hyesStat hnoStat) rfl rfl
          (.over [test] [_, _] trivial rfl (forall_mem_singleton.mpr htest.binds)
            (forall_mem_pair.mpr ⟨⟨rfl, hyes.binds⟩, ⟨rfl, hno.binds⟩⟩))
          fun frames hvisible hapart htemps => ?_)
        have hvisible₁ := hvisible.adds htest.adds
        have hapartYes : Apart t scope (definedIds thenBlock.nodes) := hapart thenBlock (by simp)
        exact .ifElse (htest.built frames hvisible htemps) (hyes.built frames hvisible₁ hapartYes)
          (hno.built frames (hvisible₁.mono hyes.grows hapartYes) (hapart elseBlock (by simp)))
    | loop cond body =>
      rw [stmtKind]
      refine (hexpr cond (by simp) hgood).bind fun test names₁ htest => ?_
      have hgrows₁ := htest.adds.advances.grows []
      refine (hblock (show _ = [] ++ body :: [] from rfl) hgrows₁
        (hgood.advance htest.adds.advances)).bind fun again names₂ hagain => ?_
      obtain ⟨b, rfl, hstat⟩ := hagain.builtStat
      refine .pure (.ofBlocks hgood htest.adds hagain.scratch hagain.good
        (by simpa using hgrows₁.trans hagain.grows) (.whileStat htest.closed hstat) rfl rfl
        (.over [test] [_] trivial rfl (forall_mem_singleton.mpr htest.binds)
          (forall_mem_singleton.mpr ⟨rfl, hagain.binds⟩)) fun frames hvisible hapart htemps => ?_)
      exact .loop (htest.built frames hvisible htemps)
        (hagain.built frames (hvisible.adds htest.adds) (hapart body (by simp)))
    | call c =>
      have hname : c.kind.isName = false := by
        cases hstep with
        | call _ _ notName => exact notName
      rw [stmtKind]
      refine (hexpr c (by simp) hgood).bind fun node names₁ hnode => ?_
      exact .pure (.leaf hgood (.callStat hnode.closed (hnode.notVar hname)) rfl hnode.adds
        (.single trivial rfl hnode.binds) fun frames hvisible htemps =>
          .call (hnode.built frames hvisible htemps))
    | print value =>
      cases value with
      | none =>
        exact .pure (.leaf hgood .printNothing rfl (.refl _)
          (.over [] [] trivial rfl (by simp) (by simp)) fun _ _ _ => .printNothing)
      | some value =>
        rw [stmtKind]
        refine (effectiveTy_builds (htyped value (by simp))).bind ?_
        rintro ty _ ⟨rfl, hty⟩
        refine (hexpr value (by simp) hgood).bind fun node names₁ hnode => ?_
        exact .pure (.leaf hgood (.printStat hnode.closed) rfl hnode.adds
          (.single trivial rfl hnode.binds) fun frames hvisible htemps =>
            .print hty (hnode.built frames hvisible htemps))
    | ret value =>
      rw [stmtKind]
      refine (effectiveTy_builds (htyped value (by simp))).bind ?_
      rintro ty _ ⟨rfl, hty⟩
      refine (hexpr value (by simp) hgood).bind fun node names₁ hnode => ?_
      refine newTemp_builds.bind fun temp names₂ htemp => ?_
      refine .pure
        (.leaf hgood (.returnStat (hself.ret rfl) hnode.closed (hnode.typed.trans hty)) rfl
        (hnode.adds.trans htemp.adds) (.single trivial rfl (hnode.bindsIn htemp.adds.scratch))
        fun frames hvisible htemps => ?_)
      exact .ret hty (hnode.built frames hvisible fun p hp => htemps p (htemp.adds.scratch p hp))
    | block inner =>
      rw [stmtKind]
      refine (hblock (show _ = [] ++ inner :: [] from rfl) ⟨fun _ h => h, fun _ _ => rfl⟩
        hgood).bind fun node names₁ hnode => ?_
      obtain ⟨b, rfl, hstat⟩ := hnode.builtStat
      refine .pure (.ofBlocks hgood (.refl _) hnode.scratch hnode.good (by simpa using hnode.grows)
        (.blockStat hstat) rfl rfl (.over [] [_] trivial rfl (by simp)
          (forall_mem_singleton.mpr ⟨rfl, hnode.binds⟩)) fun frames hvisible hapart _ => ?_)
      exact .blockStat (hnode.built frames hvisible (hapart inner (by simp)))

end Build

end WichToC

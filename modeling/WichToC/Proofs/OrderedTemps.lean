import WichToC.Proofs.Filling

/-!
# Temporaries in order

The code of a statement, wherever it stands: `CodeTemps` says which temporaries it fills, that they
are some of those reserved for the statement, and that its blocks declare the variables that they
declared before counting.  It goes from statements to blocks and functions.  As the reserved names
are different, every temporary is declared once: `temporaries_in_order` is the main statement.
-/

namespace WichToC

open List Node CBlock Analysis

variable {declared outer : List String}

namespace Counting

/-! ## Setups -/

/-- A setup fills the temporaries that belong to it, and its blocks declare no variables. -/
theorem Prepared.fillsUsed {s : Setup} (h : Prepared s) :
    ((s.stats.flatMap Node.definedTemps).map Prod.fst).Perm s.used ∧
      (s.stats.flatMap allBlocks).flatMap vars = [] := by
  induction h with
  | nil => exact ⟨.nil, rfl⟩
  | @append a b _ _ _ iha ihb =>
    rw [Setup.stats_append, flatMap_append, flatMap_append, map_append, flatMap_append,
      iha.2, ihb.2]
    exact ⟨(iha.1.append ihb.1).trans (Setup.used_append_perm a b).symm, rfl⟩
  | @define name ty value adopts operation adopted =>
    have hdef : ∀ {α : Type} {own : Node → List α}, Sparse own →
        (Setup.define name ty value adopts).stats.flatMap (collect own) =
          own (.tempDef name ty true (some value)) := by
      intro α own hown
      have hrefer : ∀ n ∈ (if ty.isHeap && !adopts then [refer name] else []), Flat n := by
        split
        · exact forall_mem_singleton.mpr (flat_count ..)
        · exact nofun
      rw [Setup.define, flatMap_cons, hown.flats hrefer, collect_over [value] [] rfl
        (forall_mem_singleton.mpr (hown.exprs operation.operations))]
      exact append_nil _
    rw [Setup.used_define operation]
    exact ⟨.of_eq (congrArg (map Prod.fst) (hdef sparse_defs)),
      congrArg (flatMap vars) (hdef sparse_blocks)⟩
  | @guarded op temp inner right setup settled ih =>
    have hnodup := setup.nodup_names
    have hvars : (guardBlock temp inner right).vars = [] := by
      rw [vars, show (guardBlock temp inner right).locals = inner.decls from
        insertEntries_eq (by simpa using hnodup)]
      exact (filter_decls inner).2
    have hdefs : (rightOperand op temp inner (some right)).definedTemps =
        inner.stats.flatMap Node.definedTemps ++ [] := sparse_defs.rightOperand hnodup settled
    have hblocks : (rightOperand op temp inner (some right)).allBlocks =
        inner.stats.flatMap allBlocks ++ [guardBlock temp inner right] :=
      sparse_blocks.rightOperand hnodup settled
    rw [Setup.used_rightOperand op temp inner hnodup settled]
    simp only [Setup.ofStats, flatMap_singleton, hdefs, hblocks, flatMap_append, ih.2, hvars,
      append_nil]
    exact ⟨ih.1, trivial⟩

/-! ## Code -/

/-- The temporaries that code fills, and the variables of its blocks.  The code releases the slots
in `sweep` where it returns. -/
structure CodeTemps (t : Table) (sweep : List String) (temps : List (String × Ty))
    (reserved : List String) (vars : List (String × Node)) (code : List Node) : Prop where
  own : code.filterMap definedTemp? = temps
  fills : ∀ {declared}, (∀ p ∈ temps, p.1 ∈ declared) → (∀ x ∈ sweep, IsTemp t x → x ∈ declared) →
    Fills t declared [] code
  once : ∀ x, ((code.flatMap definedTemps).map Prod.fst).count x ≤ reserved.count x
  vars : (code.flatMap allBlocks).flatMap CBlock.vars = vars

/-- A block with the temporaries that are filled in it. -/
structure BlockCode (t : Table) (outer reserved : List String) (vars : List (String × Node))
    (b : CBlock Node) : Prop where
  fills : ∀ {declared}, (∀ x ∈ outer, IsTemp t x → x ∈ declared) → FillsBlock t declared [] b
  once : ∀ x, ((block b).definedTemps.map Prod.fst).count x ≤ reserved.count x
  vars : (block b).allBlocks.flatMap CBlock.vars = vars

section Code

variable {t : Table} {returns : Bool} {sweep outer reserved reserved' : List String}
  {temps temps' : List (String × Ty)} {vars vars' : List (String × Node)}
    {code code' ss : List Node}
  {s : Setup} {n c : Node} {b : CBlock Node}

theorem BlockCode.weaken (h : BlockCode t outer reserved vars b) (names : List String) :
    BlockCode t (names ++ outer) reserved vars b :=
  ⟨fun houter => h.fills fun x hx => houter x (mem_append_right _ hx), h.once, h.vars⟩

namespace CodeTemps

theorem nil : CodeTemps t sweep [] reserved [] [] :=
  ⟨rfl, fun _ _ => .nil, fun _ => Nat.zero_le _, rfl⟩

theorem append (h : CodeTemps t sweep temps reserved vars code)
    (h' : CodeTemps t sweep temps' reserved' vars' code') :
    CodeTemps t sweep (temps ++ temps') (reserved ++ reserved') (vars ++ vars')
      (code ++ code') where
  own := by rw [filterMap_append, h.own, h'.own]
  fills htemps hsweep := by
    obtain ⟨htemps, htemps'⟩ := forall_mem_append.mp htemps
    exact (h.fills htemps hsweep).seq (h'.fills htemps' hsweep)
  once x := by
    rw [flatMap_append, map_append, count_append, count_append]
    exact Nat.add_le_add (h.once x) (h'.once x)
  vars := by rw [flatMap_append, flatMap_append, h.vars, h'.vars]

/-- The temporaries that code fills for itself are reserved. -/
theorem mem_reserved (h : CodeTemps t sweep temps reserved vars code) :
    ∀ p ∈ temps, p.1 ∈ reserved := by
  intro p hp
  rw [← h.own] at hp
  obtain ⟨n, hn, hp⟩ := mem_filterMap.mp hp
  have hmem : p ∈ n.definedTemps := by
    rw [definedTemps_eq, hp]
    simp
  have hpos := count_pos_iff.mpr
    (mem_map_of_mem (f := Prod.fst) (mem_flatMap.mpr ⟨n, hn, hmem⟩))
  exact count_pos_iff.mp (Nat.lt_of_lt_of_le hpos (h.once p.1))

theorem of_prepared (hs : Prepared s) (hreserved : s.used ⊆ reserved)
    (hfills : ∀ {declared}, (s.names ⊆ declared) → (∀ x ∈ sweep, IsTemp t x → x ∈ declared) →
      Fills t declared [] (s.stats ++ code)) (hcode : ∀ n ∈ code, Flat n) :
    CodeTemps t sweep s.temps reserved [] (s.stats ++ code) where
  own := by
    rw [filterMap_append, hs.definedTemps, filterMap_eq_nil_iff.mpr fun n hn =>
      (hcode n hn).defines, append_nil]
  fills hsub := hfills (forall_mem_map.mpr hsub)
  once x := by
    have hnone : code.flatMap definedTemps = [] := sparse_defs.flats hcode
    rw [flatMap_append, hnone, append_nil, hs.fillsUsed.1.count_eq]
    by_cases hx : x ∈ s.used
    · exact Nat.le_trans (nodup_iff_count.mp hs.nodup x) (count_pos_iff.mpr (hreserved hx))
    · grind
  vars := by
    have hnone : code.flatMap allBlocks = [] := sparse_blocks.flats hcode
    rw [flatMap_append, hnone, append_nil, hs.fillsUsed.2]

/-- A statement over expressions and blocks, after a setup. -/
theorem upon (hs : CodeTemps t sweep s.temps reserved [] s.stats) (cs : List Node)
    (bs : List (CBlock Node)) (count : CBlock Node → CBlock Node) (own : CBlock Node → List String)
    (hn : n.children = cs ++ bs.map fun b => .block (count b)) (hblock : n.block? = none)
    (hdef : n.definedTemp? = none) (hcs : ∀ c ∈ cs, c.All fun m => m.isOperation = true)
    (hbs : ∀ b ∈ bs, BlockCode t (s.names ++ sweep) (own b)
      ((block b).allBlocks.flatMap CBlock.vars) (count b))
    (hfills : ∀ {declared}, (s.names ⊆ declared) →
      (∀ b ∈ bs, FillsBlock t declared s.names (count b)) → Fills t declared s.names [n]) :
    CodeTemps t sweep s.temps (reserved ++ bs.flatMap own)
      ((bs.flatMap fun b => (block b).allBlocks).flatMap CBlock.vars) (s.stats ++ [n]) where
  own := by
    rw [filterMap_append, hs.own, filterMap_cons_none hdef]
    exact append_nil _
  fills {declared} htemps hsweep := by
    have hsub : s.names ⊆ declared := forall_mem_map.mpr htemps
    refine (hs.fills htemps hsweep).after hs.own ?_
    rw [append_nil]
    refine hfills hsub fun b hb => ((hbs b hb).fills fun x hx htemp => ?_).mono nofun
    grind
  once x := by
    have hdefs : n.definedTemps = (bs.flatMap fun b => (block (count b)).definedTemps) ++ [] := by
      rw [definedTemps, collect_over _ _ hn fun c hc => sparse_defs.exprs (hcs c hc), hdef,
        flatMap_map]
      rfl
    have hblocks : ((bs.flatMap fun b => (block (count b)).definedTemps).map Prod.fst).count x ≤
        (bs.flatMap own).count x := by
      clear hn hfills hdefs
      induction bs with
      | nil => exact Nat.zero_le _
      | cons b bs ih =>
        obtain ⟨hb, hbs⟩ := forall_mem_cons.mp hbs
        rw [flatMap_cons, flatMap_cons, map_append, count_append, count_append]
        exact Nat.add_le_add (hb.once x) (ih hbs)
    rw [flatMap_append, flatMap_singleton, hdefs, append_nil, map_append,
      count_append, count_append]
    exact Nat.add_le_add (hs.once x) hblocks
  vars := by
    have hblocks : n.allBlocks = (bs.flatMap fun b => (block (count b)).allBlocks) ++ [] := by
      rw [allBlocks, collect_over _ _ hn fun c hc => sparse_blocks.exprs (hcs c hc), hblock,
        flatMap_map]
      rfl
    rw [flatMap_append, flatMap_singleton, hblocks, append_nil, flatMap_append, hs.vars,
      nil_append, flatMap_assoc, flatMap_assoc]
    exact flatMap_congr fun b hb => (hbs b hb).vars

end CodeTemps

section

variable (hc : c.ClosedExpr t) (hreserves : ReservesTemps t c) (sweep : List String)

include hc hreserves

/-- A closed expression is supplied with all it reads. -/
theorem supplied_of_closed : Supplied t declared [] c :=
  ⟨tempsApart_of_closed hc hreserves.nodup, hreserves.isTemp, by rw [hc.closed]; exact nofun,
    forall_mem_nil _⟩

/-- The setup of a condition. -/
theorem codeTemps_hoist : CodeTemps t sweep (hoist c).1.temps c.reserved [] (hoist c).1.stats := by
  have hhoisted := hoist_hoisted hc.expr hreserves.nodup
  have hcode : CodeTemps t sweep (hoist c).1.temps c.reserved [] ((hoist c).1.stats ++ []) := by
    refine .of_prepared hhoisted.prepared hhoisted.reserved (fun hsub _ => ?_) nofun
    rw [append_nil]
    exact ((hoist_moved hc.expr).fills (supplied_of_closed hc hreserves) hsub).1
  rwa [append_nil] at hcode

theorem readsKnown_hoist
    (hsub : (hoist c).1.names ⊆ declared) : ReadsKnown t (hoist c).1.names (hoist c).2 := by
  have hm := ((hoist_moved hc.expr).fills (supplied_of_closed hc hreserves) hsub).2
  rwa [append_nil] at hm

theorem readsKnown_loopCond : ReadsKnown t [] (loopCond c) := by
  unfold loopCond
  split
  · rename_i hnone
    have hnames : (hoist c).1.names = [] := by rw [Setup.names, isEmpty_iff.mp hnone]; rfl
    exact hnames ▸ readsKnown_hoist hc hreserves fun x hx => hx
  · exact .of_operands rfl (by rintro ⟨⟩) (forall_mem_nil _)

/-- What a loop starts with. -/
theorem codeTemps_loopStart :
    CodeTemps t sweep (loopStart c).temps c.reserved [] (loopStart c).stats := by
  have hhoisted := hoist_hoisted hc.expr hreserves.nodup
  unfold loopStart
  split
  · exact .nil
  · -- the loop is left in a block that declares nothing
    let exit : CBlock Node := { stats := (hoist c).1.releases ++ [.breakStat], injected := true }
    have hnot : (unary .not .boolean "" (some (hoist c).2)).All fun m => m.isOperation = true :=
      .of_children rfl rfl (forall_mem_singleton.mpr hhoisted.settled.overSettled.operations)
    have hbreak : ∀ {declared}, Fills t declared [] [.breakStat] := by
      refine .upon [] [] rfl rfl (by rintro _ ⟨⟩) (by simp) (by simp) (by simp)
        (fun hruns => ?_) (by rintro _ ⟨⟩)
      cases hruns
      exact .quiet (by simp)
    have hnames : (heapNames (hoist c).1.temps).reverse ⊆ (hoist c).1.names := fun x hx =>
      mem_heapNames (mem_reverse.mp hx)
    have hstats : exit.stats ++ exit.cleanup =
        releases (heapNames (hoist c).1.temps).reverse ++ [.breakStat] := by
      rw [← Setup.releases_eq]
      exact append_nil _
    have hcollect : ∀ {α : Type} {own : Node → List α}, Sparse own → own .breakStat = [] →
        (block exit).collect own = own (.block exit) := by
      intro α own hown hbreak
      have hreleases : ∀ n ∈ releases (heapNames (hoist c).1.temps).reverse, Flat n :=
        flat_counts _ _
      rw [collect_block hown.decl (forall_mem_nil _), hstats, flatMap_append,
        hown.flats hreleases, flatMap_singleton, collect_eq, hbreak]
      rfl
    have hblocks : (block exit).allBlocks = [exit] := hcollect sparse_blocks rfl
    have hdefs : (block exit).definedTemps = [] := hcollect sparse_defs rfl
    have hexit : BlockCode t ((hoist c).1.names ++ sweep) []
        ((block exit).allBlocks.flatMap vars) exit := by
      refine ⟨fun hsub => .of_stats (forall_mem_nil _) (forall_mem_nil _) ?_ ?_ (by simp),
        fun x => by rw [hdefs]; exact Nat.zero_le _, rfl⟩
      · rw [hstats]
        exact .seq (.counts fun x hx => hsub x (mem_append_left _ (hnames hx))) hbreak
      · rw [hstats]
        simp [exit, releases, definedTemp?, release, localTemps, Function.comp_def]
    have hcode := (codeTemps_hoist hc hreserves sweep).upon
      [.unary .not .boolean "" (some (hoist c).2)] [exit] id (fun _ => [])
      (n := loopExit (hoist c).1 (some (hoist c).2)) rfl rfl rfl (forall_mem_singleton.mpr hnot)
      (forall_mem_singleton.mpr hexit) fun hsub hblock => .ifStat none hsub
        (.of_operands rfl (by rintro ⟨⟩)
          (forall_mem_singleton.mpr (readsKnown_hoist hc hreserves hsub)))
        (hblock exit (.head _)) (by simp)
    simpa [hblocks, exit, CBlock.vars, Setup.ofStats] using hcode

end

end Code

/-! ## Statements and blocks -/

section Blocks

variable {t : Table} {returns : Bool} {nest : Nest} {s n : Node} {b : CBlock Node}
  {setup start : Setup}
  {rest ss : List Node} {reserved : List String} {vars : List (String × Ty)}

theorem Plain.flat (h : Plain n) : Flat n := by
  cases h with
  | varDef _ settled | assign _ settled | printStat settled =>
    exact .over rfl rfl rfl settled.overSettled
  | elementAssign place settled =>
    exact ⟨rfl, rfl, forall_mem_pair.mpr ⟨place.overSettled.operations,
      settled.overSettled.operations⟩⟩
  | printNothing => exact ⟨rfl, rfl, nofun⟩
  | callStat _ operation => exact .over rfl rfl rfl operation

theorem Leaf.flat (h : Leaf t returns setup rest) (sweep : List String) :
    ∀ n ∈ beforeReturns (releases sweep) rest, Flat n := by
  have htemp : ∀ {n : Node} {name : String} {ty : Ty}, isSimple n = true → n.definedTemp? = none →
      n.children = [.temp name ty] → Flat n := fun hn hdef hcs =>
    .over hn hdef hcs (settled_temp _ _).overSettled
  suffices hrest : ∀ n ∈ rest, Flat n from fun n hn =>
    (mem_beforeReturns hn).elim (flat_counts .deref sweep n) (hrest n)
  cases h with
  | nothing => exact nofun
  | plain plain => exact forall_mem_singleton.mpr plain.flat
  | define _ _ operation =>
    exact forall_mem_pair.mpr ⟨.over rfl rfl rfl operation,
      (flat_count ..)⟩
  | assign =>
    exact forall_mem_cons.mpr
      ⟨flat_count .., forall_mem_pair.mpr ⟨htemp rfl rfl rfl, (flat_count ..)⟩⟩
  | returnHeap =>
    exact forall_mem_pair.mpr ⟨flat_count .., (htemp rfl rfl rfl)⟩
  | returnPlain => exact forall_mem_singleton.mpr (htemp rfl rfl rfl)

/-- The temporaries in the code of a statement. -/
def StatTemps (t : Table) (s : Node) : Prop := ∀ sweep,
  CodeTemps t sweep (lowerStat s).temps s.reserved (s.allBlocks.flatMap CBlock.vars)
    (codeOf sweep s)

theorem BuiltStat.target (h : BuiltStat t returns nest s) : ∀ x ∈ s.slot?, IsVarName t x := by
  cases h <;> first | (rintro _ ⟨⟩; assumption) | nofun

theorem LeafStat.temps (h : LeafStat t returns s setup rest) (hbuilt : BuiltStat t returns nest s)
    (hreserves : ReservesTemps t s) : StatTemps t s := by
  intro sweep
  have hblocks : s.allBlocks = [] := by
    have hexprs := fun c hc =>
      allBlocks_of_exprs ((h.exprs c hc).expr.imp fun _ => kind_of_isExprNode)
    have hsimple := h.simple
    rw [allBlocks, collect_over s.children [] (append_nil _).symm hexprs]
    cases s <;> first | rfl | cases hsimple
  have hflat := h.leaf.flat sweep
  rw [hblocks, h.lowers.temps, h.codeOf_eq]
  refine .of_prepared h.lowers.prepared h.lowers.reserved (fun hsub hsweep => ?_) hflat
  refine (h.form sweep).fills (fun c hc => supplied_of_closed (h.exprs c hc) (hreserves.child hc))
    (fun x hx => hreserves.isTemp x (mem_reserved_own hx))
    (fun x hx htemp => htemp.ne (BuiltStat.target hbuilt x hx) rfl) ?_ hsweep
  rw [filterMap_append, h.lowers.prepared.definedTemps,
    filterMap_eq_nil_iff.mpr fun n hn => (hflat n hn).defines, append_nil]
  exact fun p hp => hsub (mem_map_of_mem hp)

theorem codeTemps_codesOf (h : ∀ s ∈ ss, StatTemps t s) (sweep : List String) :
    CodeTemps t sweep (lowered ss).temps (ss.flatMap Node.reserved)
      ((ss.flatMap allBlocks).flatMap CBlock.vars) (codesOf sweep ss) := by
  induction ss with
  | nil =>
    rw [codesOf]
    exact .nil
  | cons s ss ih =>
    obtain ⟨hs, hss⟩ := forall_mem_cons.mp h
    rw [codesOf, flatMap_cons, flatMap_cons, flatMap_append]
    exact (hs sweep).append (ih hss)

/-- **A block with counts** declares the temporaries that its statements fill. -/
theorem blockCode_countBlock (start : Setup) (hlocals : b.locals = vars.map Build.declOf)
    (hvarNames : ∀ p ∈ vars, IsVarName t p.1) (h : b.Uncounted)
    (hreserves : ReservesTemps t (.block b)) (hstats : ∀ s ∈ b.stats, StatTemps t s)
    (hstart : ∀ sweep, CodeTemps t sweep start.temps reserved [] start.stats)
    (hreserved : ∀ x ∈ reserved, IsTemp t x) (outer : List String) :
    BlockCode t outer (reserved ++ (block b).reserved) ((block b).allBlocks.flatMap CBlock.vars)
      (countBlock start outer b) := by
  have hblock := h.reserved
  have hcode := (hstart (ownSlots start b ++ outer)).append (codeTemps_codesOf hstats _)
  rw [← stats_countBlock, ← hblock, nil_append] at hcode
  have hisTemp : ∀ p ∈ start.temps ++ (lowered b.stats).temps, IsTemp t p.1 := fun p hp =>
    (mem_append.mp (hcode.mem_reserved p hp)).elim (hreserved p.1) (hreserves.isTemp p.1)
  obtain ⟨slots, hslots, hclean⟩ : ∃ slots, (slots ⊆ ownSlots start b ++ outer) ∧
      (countBlock start outer b).cleanup = releases slots := by
    rw [cleanup_countBlock]
    split
    · exact ⟨[], by simp, rfl⟩
    grind
  have hcollect : ∀ {α : Type} {own : Node → List α}, Sparse own →
      (block (countBlock start outer b)).collect own =
        (countBlock start outer b).stats.flatMap (collect own) ++
          own (.block (countBlock start outer b)) := by
    intro α own hown
    have hreleases : ∀ n ∈ releases slots, Flat n := flat_counts _ _
    rw [collect_block hown.decl (decls_countBlock h), hclean, flatMap_append,
      hown.flats hreleases, append_nil]
  have hnames : ∀ x ∈ vars.map Prod.fst ++ (start.temps ++ (lowered b.stats).temps).map Prod.fst,
      x ∈ (countBlock start outer b).localNames := by
    have hkeys : (countBlock start outer b).localNames =
        start.names ++ vars.map Prod.fst ++ (lowered b.stats).names := by
      rw [localNames, locals_countBlock, map_append, map_append, Setup.fst_decls,
        Setup.fst_decls, hlocals, map_map]
      rfl
    intro x hx
    rw [hkeys]
    simp only [map_append, mem_append] at hx ⊢
    rcases hx with hx | hx | hx
    · exact .inl (.inr hx)
    · exact .inl (.inl hx)
    · exact .inr hx
  refine ⟨fun {declared} houter => .of_stats ?locals h.temps ?stats ?own (by simp), ?_, ?_⟩
  case locals =>
    have hsetup : ∀ s : Setup, (s.temps ⊆ start.temps ++ (lowered b.stats).temps) →
        ∀ p ∈ s.decls, (∃ ty, p.2 = .tempDecl p.1 ty ∧ IsTemp t p.1) ∨
          ∃ ty, p.2 = .varDecl p.1 ty false ∧ IsVarName t p.1 := by
      intro s hs p hp
      obtain ⟨q, hq, rfl⟩ := mem_map.mp hp
      exact .inl ⟨q.2, rfl, hisTemp q (hs hq)⟩
    rw [locals_countBlock, hlocals]
    refine forall_mem_append.mpr ⟨forall_mem_append.mpr
      ⟨hsetup _ fun p => mem_append_left _, forall_mem_map.mpr fun q hq => ?_⟩,
      hsetup _ fun p => mem_append_right _⟩
    exact .inr ⟨q.2, rfl, hvarNames q hq⟩
  case stats =>
    have hsweep : ∀ x ∈ ownSlots start b ++ outer, IsTemp t x →
        x ∈ (countBlock start outer b).localNames ++ declared := by
      intro x hx htemp
      refine mem_append.mpr ((mem_append.mp hx).imp (fun hx => hnames x ?_) fun hx =>
        houter x hx htemp)
      rw [ownSlots_eq hlocals, mem_reverse] at hx
      exact mem_append.mpr ((mem_append.mp hx).imp mem_heapNames mem_heapNames)
    rw [hclean]
    refine .seq (hcode.fills (fun p hp => ?_) hsweep) (.counts fun x hx => hsweep x (hslots hx))
    grind
  case own =>
    rw [filterMap_append, hcode.own, hclean, localTemps, temps_countBlock hlocals]
    simp [releases, definedTemp?, release, Function.comp_def]
  · intro x
    have hcounted : (block (countBlock start outer b)).definedTemps =
        (countBlock start outer b).stats.flatMap definedTemps ++ [] := hcollect sparse_defs
    rw [hcounted, append_nil]
    exact hcode.once x
  · have hown : (block b).allBlocks = b.stats.flatMap allBlocks ++ [b] := by
      rw [allBlocks, collect_block (fun _ _ _ => rfl) h.decls, h.cleanup, append_nil]
      rfl
    have hcounted : (block (countBlock start outer b)).allBlocks =
        (countBlock start outer b).stats.flatMap allBlocks ++ [countBlock start outer b] :=
      hcollect sparse_blocks
    rw [hown, hcounted, flatMap_append, flatMap_append, hcode.vars, flatMap_singleton,
      flatMap_singleton, vars_countBlock]

/-- The temporaries in a block, whatever it starts with. -/
def CountsTemps (t : Table) (b : CBlock Node) : Prop :=
  ∀ {start : Setup} {reserved : List String},
    (∀ sweep, CodeTemps t sweep start.temps reserved [] start.stats) →
    (∀ x ∈ reserved, IsTemp t x) →
      ∀ outer, BlockCode t outer (reserved ++ (block b).reserved)
        ((block b).allBlocks.flatMap CBlock.vars) (countBlock start outer b)

/-- What is in a statement over expressions and blocks of the model. -/
theorem model_over (cs : List Node) (bs : List (CBlock Node)) (hs : s.children = cs ++ bs.map block)
    (hown : s.ownNames = []) (hblock : s.block? = none) (hcs : ∀ c ∈ cs, c.ClosedExpr t) :
    s.allBlocks = (bs.flatMap fun b => (block b).allBlocks) ∧
      s.reserved = cs.flatMap Node.reserved ++ bs.flatMap fun b => (Node.block b).reserved := by
  constructor
  · rw [allBlocks, collect_over cs _ hs fun c hc =>
      allBlocks_of_exprs ((hcs c hc).expr.imp fun _ => kind_of_isExprNode), hblock, flatMap_map]
    exact append_nil _
  · rw [Node.reserved_eq, hs, hown, append_nil, flatMap_append, flatMap_map]

theorem BlockCode.code {decls : List (String × Node)}
    (h : BlockCode t outer reserved decls b) : CodeTemps t outer [] reserved decls [.block b] where
  own := rfl
  fills _ houter := (h.fills houter).inner
  once x := by
    rw [flatMap_singleton]
    exact h.once x
  vars := by
    rw [flatMap_singleton]
    exact h.vars

/-- **The code of statements** fills the temporaries that are reserved for it. -/
theorem BuiltStat.temps (h : BuiltStat t returns nest s) (hreserves : ReservesTemps t s) :
    StatTemps t s := by
  refine BuiltStat.lowering (S := fun _ => StatTemps t) (B := fun _ => CountsTemps t)
    ?leaf ?ifStat ?whileStat ?blockStat ?inner ?block h hreserves
  case leaf => exact fun hleaf hbuilt hreserves => hleaf.temps hbuilt hreserves
  case ifStat =>
    intro nest c b other hc hhoisted hreserves hb hother sweep
    have hchildren : (ifStat (some c) (some (.block b)) (other.map block)).children =
        [c] ++ (b :: other.toList).map block := by
      cases other <;> rfl
    have hcounts : ∀ d ∈ b :: other.toList, CountsTemps t d :=
      forall_mem_cons.mpr ⟨hb, fun d hd => hother d (Option.mem_toList.mp hd)⟩
    have hcond : ReservesTemps t c := hreserves.child (hchildren ▸ .head _)
    obtain ⟨hblocks, hreserved⟩ := model_over [c] _ hchildren rfl rfl (forall_mem_singleton.mpr hc)
    rw [codeOf_ifStat, branchOf_block, branchOf_map, hblocks, hreserved]
    have htemps : (lowerStat (.ifStat (some c) (some (.block b)) (other.map block))).temps =
        (hoist c).1.temps := append_nil _
    rw [htemps, flatMap_singleton]
    refine (codeTemps_hoist hc hcond sweep).upon [(hoist c).2] _ (countBlock {} sweep) _
      (by cases other <;> rfl) rfl rfl
        (forall_mem_singleton.mpr hhoisted.settled.overSettled.operations)
      (fun d hd => (hcounts d hd (fun _ => .nil) (forall_mem_nil _) sweep).weaken _)
      fun hsub hbs => .ifStat _ hsub (readsKnown_hoist hc hcond hsub) (hbs b (.head _)) ?_
    intro d hd
    obtain ⟨d', hd', rfl⟩ := Option.map_eq_some_iff.mp hd
    grind
  case whileStat =>
    intro nest c b hc hhoisted hreserves hb sweep
    have hcond : ReservesTemps t c := hreserves.child (by simp [children])
    obtain ⟨hblocks, hreserved⟩ := model_over [c] [b]
      (s := .whileStat (some c) (some (.block b))) rfl rfl rfl (forall_mem_singleton.mpr hc)
    rw [codeOf_whileStat, branchOf_block, hblocks, hreserved,
      show (lowerStat (.whileStat (some c) (some (.block b)))).temps = [] from rfl]
    have hbody := hb (codeTemps_loopStart hc hcond) hcond.isTemp sweep
    have hnone : CodeTemps t sweep ({} : Setup).temps [] [] ({} : Setup).stats := .nil
    have hcode := hnone.upon [loopCond c] [b] (countBlock (loopStart c) sweep)
      (fun b => c.reserved ++ (block b).reserved)
      (n := .whileStat (some (loopCond c)) (some (.block (countBlock (loopStart c) sweep b))))
      rfl rfl rfl
      (forall_mem_singleton.mpr (settled_loopCond hhoisted).overSettled.operations)
      (forall_mem_singleton.mpr hbody)
      fun hsub hbs => .whileStat hsub (readsKnown_loopCond hc hcond) (hbs b (.head _))
    simpa using hcode
  case blockStat =>
    intro nest b hb sweep
    obtain ⟨hblocks, hreserved⟩ :=
      model_over (t := t) [] [b] (s := .blockStat (some (.block b))) rfl rfl rfl (by simp)
    rw [codeOf_blockStat, branchOf_block, hblocks, hreserved]
    have hnone : CodeTemps t sweep ({} : Setup).temps [] [] ({} : Setup).stats := .nil
    exact hnone.upon [] [b] (countBlock {} sweep) _ rfl rfl rfl (by simp)
      (forall_mem_singleton.mpr (hb (fun _ => .nil) (forall_mem_nil _) sweep))
      fun hsub hbs => .blockStat (hbs b (.head _)) hsub
  case inner =>
    intro nest b hb sweep
    rw [codeOf_block]
    exact (hb (fun _ => .nil) (forall_mem_nil _) sweep).code
  case block =>
    exact fun shape hscoped ih => blockCode_countBlock _ shape.locals shape.varNames
      shape.uncounted hscoped.reserves ih

end Blocks

end Counting

/-! ## Functions -/

section Functions

open Counting

variable {t : Table} {outer reserved : List String} {n : Node} {b b' : CBlock Node}
  {vars : List (String × Ty)}

/-- A function whose body is in order, before and after counting. -/
theorem Counting.BlockCode.ordersTemps {f f' : Node}
    (h : BlockCode t outer reserved ((block b).allBlocks.flatMap CBlock.vars) b')
    (params : List (String × Ty))
    (houter : ∀ x ∈ outer, IsVarName t x) (hnodup : reserved.Nodup)
    (hf : f.children = argDefs params ++ [.block b] ∧ f.block? = none)
    (hf' : f'.children = argDefs params ++ [.block b'] ∧ f'.block? = none)
    (hslot : f'.slot? = none) (hdef : f'.definedTemp? = none) : f.OrdersTemps t f' := by
  have hfills : FillsBlock t [] [] b' := h.fills fun x hx htemp =>
    absurd rfl (htemp.ne (houter x hx))
  have hblocks : ∀ {g : Node} {c : CBlock Node}, g.children = argDefs params ++ [.block c] ∧
    g.block? = none →
      g.allBlocks = (block c).allBlocks := by
    intro g c hg
    rw [allBlocks, collect_over _ _ hg.1 (forall_mem_map.mpr fun _ _ => rfl), hg.2,
      flatMap_singleton]
    exact append_nil _
  have hdefs : f'.definedTemps = (block b').definedTemps := by
    rw [definedTemps, collect_over _ _ hf'.1 (forall_mem_map.mpr fun _ _ => rfl), hdef,
      flatMap_singleton]
    exact append_nil _
  have hdeclared : f'.declaredTemps = (block b').declaredTemps :=
    congrArg (flatMap localTemps) (hblocks hf')
  have huses : TempsDeclared t [] f' := by
    refine .of_children (by rw [opens, hf'.2]; rfl) (by rw [SlotIn, hslot]; simp) ?_
    rw [hf'.1]
    exact forall_mem_append.mpr ⟨forall_mem_map.mpr fun _ _ =>
      .of_children rfl (by rintro _ ⟨⟩) (forall_mem_nil _), forall_mem_singleton.mpr hfills.uses⟩
  refine ⟨huses.marked, fun x hmem hx => huses.declaredOnce ?_ ?_ (fun y => ?_) hmem hx, ?_⟩
  · exact hblocks hf' ▸ hfills.blocks
  · rw [hdefs, hdeclared]
    exact hfills.defs
  · rw [hdeclared, ← (hfills.defs.map Prod.fst).count_eq]
    exact Nat.le_trans (h.once y) (nodup_iff_count.mp hnodup y)
  · rw [hblocks hf, hblocks hf', h.vars]

theorem isVarName_heapNames (h : ∀ p ∈ vars, IsVarName t p.1) :
    ∀ x ∈ heapNames vars, IsVarName t x := by
  intro x hx
  obtain ⟨p, hp, rfl⟩ := mem_map.mp (mem_heapNames hx)
  exact h p hp

theorem Node.IsBuiltFunc.ordersTemps (h : n.IsBuiltFunc t) : n.OrdersTemps t (countFunc n) := by
  obtain ⟨head, params, scope, vars, b, rfl, h⟩ := h
  have hargs : ∀ x ∈ heapArgs (argDefs params), IsVarName t x :=
    heapArgs_argDefs ▸ isVarName_heapNames h.varNames
  -- references to the parameters are taken first
  have hstart : ∀ sweep, CodeTemps t sweep [] [] [] ((heapArgs (argDefs params)).map refer) :=
    fun sweep => .of_prepared .nil nofun
      (fun _ _ => .counts fun x hx htemp => absurd rfl (htemp.ne (hargs x hx))) (flat_counts _ _)
  have hbody :=
    blockCode_countBlock (.ofStats ((heapArgs (argDefs params)).map refer)) h.body.locals
    h.body.varNames h.body.uncounted h.temps
    (fun s hs => BuiltStat.temps (h.stats s hs) ((Scoped.ofFunc h).child hs)) hstart
    nofun (heapArgs (argDefs params)).reverse
  exact hbody.ordersTemps params (fun x hx => hargs x (mem_reverse.mp hx)) h.temps.nodup ⟨rfl, rfl⟩
    ⟨rfl, rfl⟩ rfl rfl

theorem BuiltMain.ordersTemps (h : BuiltMain t vars b) : OrdersTemps t (.mainFunc (some (.block b)))
      (countMain (slotsIn (vars.map Build.declOf)) (.mainFunc (some (.block b)))) := by
  have hlocals : b.locals = map Build.declOf [] := h.locals
  have hbody := blockCode_countBlock {} hlocals (forall_mem_nil _) h.uncounted h.temps
    (fun s hs => BuiltStat.temps (h.stats s hs) ((Scoped.ofMain h).child hs)) (fun _ => .nil)
    (forall_mem_nil _) (heapNames vars).reverse
  rw [slotsIn_declOf]
  have hglobals : ∀ x ∈ (heapNames vars).reverse, IsVarName t x := fun x hx =>
    isVarName_heapNames h.varNames x (mem_reverse.mp hx)
  exact hbody.ordersTemps [] hglobals h.temps.nodup ⟨rfl, rfl⟩ ⟨rfl, rfl⟩ rfl rfl

theorem Node.IsBuiltFile.ordersTemps (h : n.IsBuiltFile t) :
    Forall₂ (OrdersTemps t) n.functions n.counted.functions := by
  obtain ⟨vars, funcs, b, rfl, hfuncs, hmain⟩ := h
  have hall : Forall₂ (OrdersTemps t) funcs (funcs.map countFunc) :=
    forall₂_map_right_iff.mpr (forall₂_same.mpr fun f hf => (hfuncs f hf).ordersTemps)
  exact rel_append hall (.cons hmain.ordersTemps .nil)

end Functions

/-- **Temporaries are in order.**  In each function of the counted code of a script without errors,
every temporary is declared by one block, with the type of the one statement that fills it.  All its
uses stand in that block, no path from the start of the block reads it before it is filled, and the
variables of the blocks are declared as before counting. -/
theorem temporaries_in_order (source : String) (report : Report)
    (h : (ofSource source report).report.hasErrors = false) :
    ∃ model, ofScript (ofSource source report).script
        (ofSource source report).table = .ok model ∧
      Forall₂ (OrdersTemps (ofSource source report).table) model.functions
        (model.inject (ofSource source report).table).functions := by
  obtain ⟨base, hacc⟩ := accepted h
  obtain ⟨model, hmodel, hshape⟩ := hacc.ofScript
  refine ⟨model, hmodel, ?_⟩
  rw [inject_eq_counted hacc.typed.wellFormed hshape]
  exact hshape.ordersTemps

/-- A script whose temporaries hold conditions, operands and returned values at several depths. -/
def heldValues : String :=
  "func f(s : string) : string \x7b\n" ++
  "  while (s + \"x\" != \"y\" && f(s) == \"z\" || s == f(s + \"w\")) \x7b\n" ++
  "    var u = [1] + 2 if (u + u == u) \x7b return s + f(s) \x7d s = f(s + \"v\")\n  \x7d\n" ++
  "  return f(s + s)\n\x7d\nvar s = f(\"a\")\nprint(s + \"b\" + f(s))\nf(s) == s && s != f(\"c\")\n"

set_option maxRecDepth 20000 in
/-- The script with the held values is accepted, and its temporaries are in order. -/
theorem temporaries_in_order_heldValues : ∃ model, ofScript (ofSource heldValues {}).script
        (ofSource heldValues {}).table = .ok model ∧
      Forall₂ (OrdersTemps (ofSource heldValues {}).table) model.functions
        (model.inject (ofSource heldValues {}).table).functions :=
  temporaries_in_order heldValues {} (by decide +kernel)

end WichToC

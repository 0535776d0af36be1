import WichToC.Proofs.Injection

/-!
# Sweeps

Where code with counts leaves blocks, it releases their slots.  A return releases the slots of all
blocks around it and the parameters, the end of a block its own slots, and the `break` of a loop the
temporaries of the condition.  `exact_sweeps` says that these are the right slots in the right
order, for every block of every function: `BlockIn` finds the blocks of a script with the blocks
around them, and `ExactSweeps` states what is released where one of them is left.
-/

namespace WichToC

open List Counting Node Analysis Prod

variable {n m : Node}

/-! ## Blocks and their slots -/

/-- Whether a node is a block of the script; the blocks that injection makes have no scope. -/
def Node.isScoped : Node → Bool
  | block b => b.scope.isSome
  | _ => false

/-- The second node stands in the first one, but not inside a block of the script there. -/
inductive Node.Within : Node → Node → Prop
  | refl (n : Node) : Within n n
  | child {n c m : Node} (unscoped : n.isScoped = false) (mem : c ∈ n.children)
      (within : Within c m) :
      Within n m

/-- From a block, with the blocks around it, to a block of the script inside, with the blocks around
that one; the innermost of them comes first. -/
inductive BlockIn : List (CBlock Node) → CBlock Node → List (CBlock Node) → CBlock Node → Prop
  | refl (around : List (CBlock Node)) (b : CBlock Node) : BlockIn around b around b
  | inner {around around' : List (CBlock Node)} {b c d : CBlock Node} {s : Node} (mem : s ∈ b.stats)
      (within : s.Within (.block c)) (isScoped : (block c).isScoped = true)
      (rest : BlockIn (b :: around) c around' d) : BlockIn around b around' d

/-- The temporary that a declaration makes. -/
def Node.declaredTemp? : Node → Option (String × Ty)
  | varDecl name ty true => some (name, ty)
  | _ => none

/-- The temporary that a statement gives its value. -/
def Node.definedTemp? : Node → Option (String × Ty)
  | tempDef name ty _ _ => some (name, ty)
  | _ => none

/-- The heap slots of a block: the variables that it defines, in order, then its temporaries. -/
def CBlock.slots (b : CBlock Node) : List String :=
  heapNames (b.stats.filterMap defined?) ++
    heapNames ((b.locals.map snd).filterMap declaredTemp?)

/-- What a return in the first of some nested blocks releases. -/
def sweepOf (params : List String) (blocks : List (CBlock Node)) : List String :=
  (blocks.flatMap fun b => b.slots.reverse) ++ params.reverse

/-- A statement that leaves a loop by `break`.  First it releases the heap temporaries that were
filled before. -/
def LeavesLoop (before : List Node) (s : Node) : Prop :=
  ∃ cond exit, s = .ifStat (some (.unary .not .boolean "" (some cond))) (some (.block exit)) none ∧
    exit.stats = releases (heapNames (before.filterMap definedTemp?)).reverse ++ [.breakStat]

/-- What is released where a block is left, in a function with the given heap parameters. -/
structure ExactSweeps (params : List String) (around : List (CBlock Node)) (b : CBlock Node) :
    Prop where
  nodup : (sweepOf params (b :: around)).Nodup
  /-- Every return is a statement of the block and comes right after the releases. -/
  atReturn : ∀ {before s after r}, b.stats = before ++ s :: after → s.Within r → isReturn r = true →
    s = r ∧ ∃ first n, before = first ++ n :: releases (sweepOf params (b :: around)) ∧
      ∀ x, n ≠ .release x
  atEnd : b.cleanup = if endsInReturn b.stats then [] else
    releases (b.slots.reverse ++ if b.isFunctionBody then params.reverse else [])
  /-- Every `break` leaves a loop after its condition has been evaluated. -/
  atBreak : ∀ {before s after}, b.stats = before ++ s :: after → s.Within .breakStat →
    LeavesLoop before s

/-- The heap parameters and the body of a function; the main function has no parameters. -/
def Node.body? : Node → Option (List String × CBlock Node)
  | func _ args (some (block b)) => some (heapArgs args, b)
  | mainFunc (some (block b)) => some ([], b)
  | _ => none

/-- The functions of a file with the main function. -/
def Node.functions : Node → List Node
  | file _ funcs main => funcs ++ main.toList
  | _ => []

/-- All blocks of all functions of a file release the right slots where they are left. -/
def Node.SweepsExactly (n : Node) : Prop :=
  ∀ f ∈ n.functions, ∃ params body, f.body? = some (params, body) ∧
    ∀ around b, BlockIn [] body around b → ExactSweeps params around b

/-! ## What stands in a node -/

theorem Node.Within.inside (h : n.Within m) :
    m = n ∨ n.isScoped = false ∧ ∃ c ∈ n.children, c.Within m := by
  cases h with
  | refl => exact .inl rfl
  | child unscoped mem within => exact .inr ⟨unscoped, _, mem, within⟩

theorem Node.Within.eq_of_isScoped (h : n.Within m) (hn : n.isScoped = true) : m = n := by
  rcases h.inside with rfl | ⟨hnot, -⟩
  · rfl
  · rw [hn] at hnot
    cases hnot

theorem Node.All.within {p : Node → Prop} (hm : n.Within m) (h : n.All p) : p m := by
  induction hm with
  | refl => exact h.here
  | child _ mem _ ih => exact ih (h.inside _ mem)

namespace Counting

variable {t : Table} {returns isBody : Bool} {n m s : Node} {slots outer params names : List String}
  {ns rest ss : List Node} {setup start : Setup} {nest : Nest} {b : CBlock Node}
  {vars : List (String × Ty)} {around : List (CBlock Node)} {scope : ScopeId}

/-- A block of the script, or a node over hoisted expressions, setups and blocks of the script. -/
def Layered (n : Node) : Prop := n.isScoped = true ∨ ∀ c ∈ n.children, Filler c ∨ c.isScoped = true

/-- What stands in a node over expressions and blocks of the script. -/
theorem Layered.within (h : Layered n) (hm : n.Within m) :
    m = n ∨ isFiller m = true ∨ m ∈ n.children ∧ m.isScoped = true := by
  rcases h with hn | h
  · exact .inl (hm.eq_of_isScoped hn)
  · rcases hm.inside with rfl | ⟨-, c, hc, hwithin⟩
    · exact .inl rfl
    · rcases h c hc with hfiller | hscoped
      · exact .inr (.inl (hfiller.within hwithin))
      · obtain rfl := hwithin.eq_of_isScoped hscoped
        exact .inr (.inr ⟨hc, hscoped⟩)

theorem isScoped_of_isFiller (h : isFiller n = true) : n.isScoped = false := by
  cases n <;> first | rfl | cases h | skip
  case block b =>
    have hnone := (Bool.and_eq_true_iff.mp h).2
    simpa [isScoped] using hnone

theorem isReturn_of_isFiller (h : isFiller n = true) : isReturn n = false := by
  cases n <;> first | rfl | cases h

theorem Layered.eq_of_isReturn {r : Node} (h : Layered n) (hr : n.Within r)
    (hreturn : isReturn r = true) : n = r := by
  rcases h.within hr with rfl | hfiller | ⟨-, hscoped⟩
  · rfl
  · rw [isReturn_of_isFiller hfiller] at hreturn
    cases hreturn
  · cases r <;> first | (cases hreturn; done) | cases hscoped

theorem Layered.not_within_break (h : Layered n) (hn : n ≠ .breakStat) : ¬ n.Within .breakStat := by
  intro hm
  rcases h.within hm with heq | hfiller | ⟨-, hscoped⟩
  · exact hn heq.symm
  · cases hfiller
  · cases hscoped

theorem Layered.mem_of_isScoped (h : Layered n) (hm : n.Within m)
    (hscoped : m.isScoped = true) : m = n ∨ m ∈ n.children := by
  rcases h.within hm with rfl | hfiller | ⟨hmem, -⟩
  · exact .inl rfl
  · rw [isScoped_of_isFiller hfiller] at hscoped
    cases hscoped
  · exact .inr hmem

theorem Filler.not_isScoped (h : Filler n) (hm : n.Within m) : m.isScoped = false :=
  isScoped_of_isFiller (h.within hm)

theorem Simple.not_isScoped (h : Simple n) (hm : n.Within m) : m.isScoped = false := by
  rcases hm.inside with rfl | ⟨-, c, hc, hwithin⟩
  · have here := h.here
    cases m <;> first | rfl | cases here
  · exact (h.inside c hc).not_isScoped hwithin

theorem Filler.layered (h : Filler n) : Layered n :=
  .inr fun c hc => .inl (h.inside c hc)

theorem Simple.layered (h : Simple n) : Layered n :=
  .inr fun c hc => .inl (h.inside c hc)

/-! ## The code of a statement -/

/-- The releases come right before every return. -/
def Swept (slots : List String) (ns : List Node) : Prop :=
  ∀ before r after, ns = before ++ r :: after → isReturn r = true →
    ∃ first n, before = first ++ n :: releases slots ∧ ∀ x, n ≠ .release x

theorem swept_of_forall (h : ∀ n ∈ ns, isReturn n = false) : Swept slots ns := by
  rintro before r after rfl hreturn
  grind

/-- A place in statements is a place in their first or in their second part. -/
theorem append_eq_append_cons {α : Type} {xs ys before after : List α} {a : α}
    (h : xs ++ ys = before ++ a :: after) :
    (∃ after', xs = before ++ a :: after') ∨
      ∃ before', before = xs ++ before' ∧ ys = before' ++ a :: after := by
  rcases append_eq_append_iff.mp h with ⟨before', hbefore, hys⟩ | ⟨middle, hxs, hcons⟩
  · exact .inr ⟨before', hbefore, hys⟩
  · cases middle with
    | nil => grind
    | cons m middle => grind

theorem Swept.append {ns' : List Node} (h : Swept slots ns)
    (h' : Swept slots ns') : Swept slots (ns ++ ns') := by
  intro before r after heq hreturn
  rcases append_eq_append_cons heq with ⟨after', hns⟩ | ⟨before', rfl, hns'⟩
  · exact h _ _ _ hns hreturn
  · obtain ⟨first, n, rfl, hn⟩ := h' _ _ _ hns' hreturn
    exact ⟨ns ++ first, n, by simp, hn⟩

theorem swept_return {r : Node} (hn : ∀ x, n ≠ .release x)
    (hnot : isReturn n = false) : Swept slots (n :: (releases slots ++ [r])) := by
  intro before q after heq hreturn
  have heq : (n :: releases slots) ++ [r] = before ++ q :: after := heq
  rcases append_eq_append_cons heq with ⟨after', hfirst⟩ | ⟨before', rfl, hlast⟩
  · have hmem : q ∈ n :: releases slots := by grind
    have hfalse : isReturn q = false := by
      rcases mem_cons.mp hmem with rfl | hmem
      · exact hnot
      · exact (kept_releases q hmem).returns
    rw [hfalse] at hreturn
    cases hreturn
  · have hnil : before' = [] := by
      cases before' with
      | nil => rfl
      | cons m before' => simp at hlast
    exact ⟨[], n, by simp [hnil], hn⟩

/-- The block in a branch of a statement. -/
def branchBlocks (start : Setup) (sweep : List String) : Option Node → List (CBlock Node)
  | some (.block b) => [countBlock start sweep b]
  | _ => []

/-- The blocks of the script in the code of a statement. -/
def codeBlocks (sweep : List String) : Node → List (CBlock Node)
  | .block b => [countBlock {} sweep b]
  | .ifStat _ yes no => branchBlocks {} sweep yes ++ branchBlocks {} sweep no
  | .whileStat (some cond) body => branchBlocks (loopStart cond) sweep body
  | .blockStat body => branchBlocks {} sweep body
  | _ => []

/-- What is needed of the code of a statement. -/
structure StatCode (sweep : List String) (s : Node) : Prop where
  layered : ∀ n ∈ codeOf sweep s, Layered n ∧ n ≠ .breakStat
  blocks : ∀ n ∈ codeOf sweep s, ∀ c, n.Within (.block c) → (block c).isScoped = true →
    c ∈ codeBlocks sweep s
  swept : Swept sweep (codeOf sweep s)
  defined : (codeOf sweep s).filterMap defined? = s.defined?.toList

theorem defined_of_filler (h : ∀ n ∈ ns, Filler n) : ns.filterMap defined? = [] := by
  refine filterMap_eq_nil_iff.mpr fun n hn => ?_
  have here := (h n hn).here
  cases n <;> first | rfl | cases here

theorem defined_beforeReturns :
    (beforeReturns (releases slots) ns).filterMap defined? = ns.filterMap defined? := by
  induction ns with
  | nil => rfl
  | cons n ns ih =>
    have hcons : beforeReturns (releases slots) (n :: ns) =
        (if isReturn n then releases slots ++ [n] else [n]) ++ beforeReturns (releases slots) ns :=
      rfl
    have hfirst : (if isReturn n then releases slots ++ [n] else [n]).filterMap defined? =
        [n].filterMap defined? := by
      split
      · rw [filterMap_append, defined_of_filler filler_releases, nil_append]
      · rfl
    rw [hcons, filterMap_append, ih, hfirst, ← filterMap_append]
    rfl

theorem leaf_swept (hsetup : Prepared setup) (h : Leaf t returns setup rest) (sweep : List String) :
    Swept sweep (setup.stats ++ beforeReturns (releases sweep) rest) := by
  have hquiet : ∀ setup : Setup, Prepared setup → Swept sweep setup.stats := fun setup hsetup =>
    swept_of_forall fun n hn => (hsetup.kept n hn).returns
  have hnone : ∀ ns : List Node, (∀ n ∈ ns, isReturn n = false) →
      Swept sweep (setup.stats ++ beforeReturns (releases sweep) ns) := by
    intro ns hns
    rw [beforeReturns_eq hns]
    exact (hquiet setup hsetup).append (swept_of_forall hns)
  cases h with
  | nothing => exact hnone [] (by simp)
  | plain plain => exact hnone _ (forall_mem_singleton.mpr plain.simple.2)
  | define =>
    refine hnone _ fun n hn => ?_
    simp only [mem_cons, not_mem_nil, or_false] at hn
    rcases hn with rfl | rfl <;> rfl
  | assign =>
    refine hnone _ fun n hn => ?_
    simp only [mem_cons, not_mem_nil, or_false] at hn
    rcases hn with rfl | rfl | rfl <;> rfl
  | @returnHeap _ _ _ _ holder =>
    refine (hquiet setup hsetup).append ?_
    rw [← singleton_append, beforeReturns_append, beforeReturns_returnStat]
    exact swept_return (n := .refer holder) (by rintro _ ⟨⟩) rfl
  | @returnPlain before ty capture e allowed heap =>
    have hstats : (before ++ Setup.define capture ty e false).stats =
        before.stats ++ [.tempDef capture ty true (some e)] := by
      simp [Setup.define, heap]
    have hbefore : Swept sweep before.stats := swept_of_forall fun n hn =>
      (hsetup.kept n (hstats ▸ mem_append_left _ hn)).returns
    rw [hstats, append_assoc, beforeReturns_returnStat]
    exact hbefore.append
      (swept_return (n := .tempDef capture ty true (some e)) (by rintro _ ⟨⟩) rfl)

/-- The code of a statement without blocks has nodes of setups and statements without blocks. -/
theorem leaf_nodes (h : LeafStat t returns s setup rest)
    (sweep : List String) : ∀ n ∈ codeOf sweep s, Filler n ∨ Simple n := by
  intro n hn
  rw [h.codeOf_eq sweep] at hn
  rcases mem_append.mp hn with hn | hn
  · exact .inl (h.lowers.prepared.filler n hn)
  · exact (mem_beforeReturns hn).imp (filler_releases n) fun hn => (h.leaf.simple n hn).1

theorem leaf_code (h : LeafStat t returns s setup rest)
    (sweep : List String) : StatCode sweep s := by
  refine ⟨fun n hn => ?_, fun n hn c hc hscoped => ?_, ?_, ?_⟩
  · rcases leaf_nodes h sweep n hn with hn | hn
    · exact ⟨hn.layered, fun heq => by subst heq; cases hn.here⟩
    · exact ⟨hn.layered, fun heq => by subst heq; cases hn.here⟩
  · have hnot : (block c).isScoped = false :=
      (leaf_nodes h sweep n hn).elim (·.not_isScoped hc) (·.not_isScoped hc)
    rw [hnot] at hscoped
    cases hscoped
  · rw [h.codeOf_eq sweep]
    exact leaf_swept h.lowers.prepared h.leaf sweep
  · rw [h.codeOf_eq sweep, filterMap_append, defined_of_filler h.lowers.prepared.filler,
      defined_beforeReturns, nil_append, h.defined]

/-- A setup and a node over expressions and blocks of the script. -/
theorem code_over {sweep : List String} (hsetup : Prepared setup)
    (heq : codeOf sweep s = setup.stats ++ [n]) (cs : List Node) (bs : List (CBlock Node))
    (hn : n.children = cs ++ bs.map block) (hcs : ∀ c ∈ cs, Filler c)
    (hbs : ∀ b ∈ bs, (block b).isScoped = true ∧ b ∈ codeBlocks sweep s)
    (hunscoped : n.isScoped = false) (hbreak : n ≠ .breakStat) (hreturn : isReturn n = false)
    (hdefined : n.defined? = none) (hs : s.defined? = none) : StatCode sweep s := by
  have hnodes : ∀ m ∈ codeOf sweep s, Filler m ∨ m = n := by
    intro m hm
    rw [heq] at hm
    exact (mem_append.mp hm).imp (hsetup.filler m) mem_singleton.mp
  have hlayered : Layered n := by
    refine .inr fun c hc => ?_
    grind
  refine ⟨fun m hm => ?_, fun m hm c hc hscoped => ?_, ?_, ?_⟩
  · rcases hnodes m hm with hm | rfl
    · exact ⟨hm.layered, fun heq => by subst heq; cases hm.here⟩
    · exact ⟨hlayered, hbreak⟩
  · rcases hnodes m hm with hm | rfl
    · rw [hm.not_isScoped hc] at hscoped
      cases hscoped
    · rcases hlayered.mem_of_isScoped hc hscoped with rfl | hc
      · cases hscoped.symm.trans hunscoped
      · rcases mem_append.mp (hn ▸ hc) with hc | hc
        · cases hscoped.symm.trans (isScoped_of_isFiller (hcs _ hc).here)
        grind
  · rw [heq]
    exact (swept_of_forall fun m hm => (hsetup.kept m hm).returns).append
      (swept_of_forall (forall_mem_singleton.mpr hreturn))
  · rw [heq, filterMap_append, defined_of_filler hsetup.filler, hs]
    simp [hdefined]

/-- The code of built statements; a block among them is one of the script. -/
theorem BuiltStat.code (h : BuiltStat t returns nest s) (hreserves : ReservesTemps t s) :
    ∀ sweep, StatCode sweep s := by
  refine BuiltStat.lowering (S := fun _ s => ∀ sweep, StatCode sweep s)
    (B := fun _ b => (block b).isScoped = true)
    ?leaf ?ifStat ?whileStat ?blockStat ?inner ?block h hreserves
  case leaf => exact fun hleaf _ _ => leaf_code hleaf
  case ifStat =>
    intro nest c b other _ hcond _ hb hother sweep
    refine code_over hcond.prepared (codeOf_ifStat ..) [(hoist c).2]
      (countBlock {} sweep b :: (other.map (countBlock {} sweep)).toList)
      (by cases other <;> simp [children])
      (forall_mem_singleton.mpr (filler_of_settled hcond.settled))
      (forall_mem_cons.mpr ⟨⟨hb, .head _⟩, fun d hd => ?_⟩) rfl (by simp) rfl rfl rfl
    obtain ⟨b', rfl, rfl⟩ := Option.map_eq_some_iff.mp (Option.mem_toList.mp hd)
    exact ⟨hother b' rfl, .tail _ (.head _)⟩
  case whileStat =>
    intro nest c b _ hcond _ hb sweep
    exact code_over .nil (codeOf_whileStat ..) [loopCond c] [countBlock (loopStart c) sweep b]
      (by simp [children])
      (forall_mem_singleton.mpr (filler_of_settled (settled_loopCond hcond)))
      (forall_mem_singleton.mpr ⟨hb, .head _⟩) rfl (by simp) rfl rfl rfl
  case blockStat =>
    intro nest b hb sweep
    exact code_over .nil (codeOf_blockStat ..) [] [countBlock {} sweep b] (by simp [children])
      (by simp) (forall_mem_singleton.mpr ⟨hb, .head _⟩) rfl (by simp) rfl rfl rfl
  case inner =>
    intro nest b hscoped sweep
    have heq := codeOf_block sweep b
    refine ⟨fun n hn => ?_, fun n hn d hd _ => ?_, ?_, ?_⟩
    · rw [heq] at hn
      obtain rfl := mem_singleton.mp hn
      exact ⟨.inl hscoped, by simp⟩
    · rw [heq] at hn
      obtain rfl := mem_singleton.mp hn
      exact mem_singleton.mpr (block.inj (hd.eq_of_isScoped hscoped))
    · rw [heq]
      exact swept_of_forall (forall_mem_singleton.mpr rfl)
    · rw [heq]
      rfl
  case block =>
    intro nest scope vars b shape _ _
    simp [isScoped, shape.ownScope]

/-! ## What blocks start with -/

/-- What the statements of a block can start with: no return, no definition, no block of the script,
and a `break` only where a loop is left. -/
structure Opens (start : Setup) : Prop where
  quiet : ∀ n ∈ start.stats, n.All fun m =>
    isReturn m = false ∧ m.isScoped = false ∧ m.defined? = none
  breaks : ∀ {before s after}, start.stats = before ++ s :: after → s.Within .breakStat →
    LeavesLoop before s

theorem quiet_of_isFiller (h : isFiller n = true) :
    isReturn n = false ∧ n.isScoped = false ∧ n.defined? = none := by
  refine ⟨isReturn_of_isFiller h, isScoped_of_isFiller h, ?_⟩
  cases n <;> first | rfl | cases h

theorem opens_of_filler (h : ∀ n ∈ start.stats, Filler n) : Opens start where
  quiet n hn := (h n hn).imp fun _ => quiet_of_isFiller
  breaks := by
    intro before s after heq hbreak
    have hfiller := h s (heq ▸ mem_append_right _ (.head _))
    cases hfiller.within hbreak

theorem Prepared.definedTemps {s : Setup} (h : Prepared s) :
    s.stats.filterMap definedTemp? = s.temps := by
  induction h with
  | nil | guarded => rfl
  | append _ _ _ iha ihb =>
    rw [Setup.stats_append, filterMap_append, iha, ihb]
    rfl
  | define =>
    unfold Setup.define
    dsimp only
    split <;> rfl

theorem opens_loopStart {c : Node} (h : Hoisted c (hoist c)) : Opens (loopStart c) := by
  unfold loopStart
  split
  · exact opens_of_filler (by simp)
  · refine ⟨fun n hn => ?_, fun {before s after} heq hbreak => ?_⟩
    · rcases mem_append.mp hn with hn | hn
      · exact (h.prepared.filler n hn).imp fun _ => quiet_of_isFiller
      · obtain rfl := mem_singleton.mp hn
        refine all_of_ifStat ⟨rfl, rfl, rfl⟩ (.intro ⟨rfl, rfl, rfl⟩ fun d hd => ?_)
          (all_of_block ⟨rfl, rfl, rfl⟩ (by simp) rfl (fun m hm => ?_)
            (by simp))
        · obtain rfl : d = (hoist c).2 := by
            simpa [children] using hd
          exact (filler_of_settled h.settled).imp fun _ => quiet_of_isFiller
        · rcases mem_append.mp hm with hm | hm
          · rw [Setup.releases_eq] at hm
            exact (filler_releases m hm).imp fun _ => quiet_of_isFiller
          · obtain rfl := mem_singleton.mp hm
            exact .intro ⟨rfl, rfl, rfl⟩ (forall_mem_nil _)
    · rcases append_eq_append_cons heq with ⟨after', hfirst⟩ | ⟨before', rfl, hlast⟩
      · have hmem : s ∈ (hoist c).1.stats := by grind
        cases (h.prepared.filler s hmem).within hbreak
      · obtain ⟨rfl, rfl⟩ : before' = [] ∧ s = loopExit (hoist c).1 (some (hoist c).2) := by
          cases before' with
          | nil => exact ⟨rfl, (cons.inj hlast).1.symm⟩
          | cons m before' => simp [Setup.ofStats] at hlast
        refine ⟨_, _, rfl, ?_⟩
        rw [append_nil, h.prepared.definedTemps, ← Setup.releases_eq]

/-! ## Blocks with counts -/

theorem codes_defined (h : ∀ s ∈ ss, ∀ sweep, StatCode sweep s) (sweep : List String) :
    (codesOf sweep ss).filterMap defined? = ss.filterMap defined? := by
  induction ss with
  | nil => rw [codesOf]
  | cons s ss ih =>
    rw [codesOf, filterMap_append, (h s (.head _) sweep).defined,
      ih fun c hc => h c (.tail s hc)]
    cases hs : s.defined? <;> simp [hs]

theorem codes_swept (h : ∀ s ∈ ss, ∀ sweep, StatCode sweep s)
    (sweep : List String) : Swept sweep (codesOf sweep ss) := by
  induction ss with
  | nil =>
    rw [codesOf]
    exact swept_of_forall (by simp)
  | cons s ss ih =>
    rw [codesOf]
    exact (h s (.head _) sweep).swept.append
      (ih fun c hc => h c (.tail s hc))

theorem codes_layered (h : ∀ s ∈ ss, ∀ sweep, StatCode sweep s)
    (sweep : List String) : ∀ n ∈ codesOf sweep ss, Layered n ∧ n ≠ .breakStat := by
  intro n hn
  rw [codesOf_eq_flatMap] at hn
  obtain ⟨s, hs, hn⟩ := mem_flatMap.mp hn
  exact (h s hs sweep).layered n hn

theorem temps_countBlock (hlocals : b.locals = vars.map Build.declOf) :
    ((countBlock start outer b).locals.map snd).filterMap declaredTemp? =
      start.temps ++ (lowered b.stats).temps := by
  have htemps : ∀ s : Setup, (s.decls.map snd).filterMap declaredTemp? = s.temps := by
    intro s
    simp [Setup.decls, tempDecl, declaredTemp?, Function.comp_def]
  have hvars : (b.locals.map snd).filterMap declaredTemp? = [] := by
    simp [hlocals, Build.declOf, declaredTemp?, Function.comp_def]
  simp only [locals_countBlock, map_append, filterMap_append, htemps, hvars, append_nil]

section

variable (hopens : Opens start) (hcode : ∀ s ∈ b.stats, ∀ sweep, StatCode sweep s)

include hopens hcode

theorem slots_countBlock (hlocals : b.locals = vars.map Build.declOf) :
    (countBlock start outer b).slots = heapNames (b.stats.filterMap defined?) ++
      heapNames (start.temps ++ (lowered b.stats).temps) := by
  have hstart : start.stats.filterMap defined? = [] :=
    filterMap_eq_nil_iff.mpr fun n hn => (hopens.quiet n hn).here.2.2
  rw [CBlock.slots, stats_countBlock, filterMap_append, hstart, codes_defined hcode,
    temps_countBlock hlocals]
  rfl

/-- A block with counts releases what it has to, if the slots around it are right. -/
theorem countBlock_exact
    (hsweep : ownSlots start b ++ outer = sweepOf params (countBlock start outer b :: around))
    (hend : (ownSlots start b ++ if b.isFunctionBody then outer else []) =
      (countBlock start outer b).slots.reverse ++ if b.isFunctionBody then params.reverse else [])
    (hnodup : (sweepOf params (countBlock start outer b :: around)).Nodup) :
    ExactSweeps params around (countBlock start outer b) where
  nodup := hnodup
  atReturn := by
    intro before s after r heq hr hreturn
    rw [← hsweep]
    rw [stats_countBlock] at heq
    have hswept : Swept (ownSlots start b ++ outer)
        (start.stats ++ codesOf (ownSlots start b ++ outer) b.stats) :=
      (swept_of_forall fun n hn => (hopens.quiet n hn).here.1).append (codes_swept hcode _)
    have hmem : s ∈ start.stats ++ codesOf (ownSlots start b ++ outer) b.stats := by grind
    rcases mem_append.mp hmem with hmem | hmem
    · rw [((hopens.quiet s hmem).within hr).1] at hreturn
      cases hreturn
    · obtain rfl := (codes_layered hcode _ s hmem).1.eq_of_isReturn hr hreturn
      exact ⟨rfl, hswept _ _ _ heq hreturn⟩
  atEnd := by
    rw [cleanup_countBlock, hend]
    rfl
  atBreak := by
    intro before s after heq hbreak
    rw [stats_countBlock] at heq
    rcases append_eq_append_cons heq with ⟨after', hstart⟩ | ⟨before', rfl, hcodes⟩
    · exact hopens.breaks hstart hbreak
    · have hmem : s ∈ codesOf (ownSlots start b ++ outer) b.stats := by grind
      obtain ⟨hlayered, hne⟩ := codes_layered hcode _ s hmem
      exact absurd hbreak (hlayered.not_within_break hne)

end

/-! ## All blocks -/

/-- The slots around a place: they are different, they are temporaries or variables that are visible
there, and they are none of the temporaries that are reserved at the place. -/
structure Fits (t : Table) (nest : Nest) (reserved names : List String) : Prop where
  nodup : names.Nodup
  visible : ∀ x ∈ names, IsTemp t x ∨ ∃ q ∈ nest, x ∈ q.2
  apart : ∀ x ∈ names, x ∉ reserved

theorem Fits.sub {reserved reserved' : List String} (h : Fits t nest reserved names)
    (hsub : reserved' ⊆ reserved) : Fits t nest reserved' names :=
  ⟨h.nodup, h.visible, fun x hx hx' => h.apart x hx (hsub hx')⟩

/-- The slots around a block that starts with `start`. -/
structure FitsBlock (t : Table) (nest : Nest) (start : Setup) (b : CBlock Node)
    (names : List String) :
    Prop extends Fits t nest (block b).reserved names where
  starts : Starts t b start
  fresh : ∀ x ∈ start.names, x ∉ names

theorem Fits.block (h : Fits t nest (block b).reserved names) : FitsBlock t nest {} b names :=
  ⟨h, .empty b, nofun⟩

/-- The slots around a statement fit around the blocks that it enters. -/
theorem Fits.enter (h : Fits t nest (innerReserved s) names) (henters : Enters t s start b) :
    FitsBlock t nest start b names :=
  ⟨h.sub henters.reserved, henters.starts, fun x hx hmem =>
    h.apart x hmem (henters.used x (Setup.mem_used_of_mem_names hx))⟩

/-- The blocks in the code of a statement release what they have to. -/
def StatSweeps (t : Table) (nest : Nest) (s : Node) : Prop :=
  ∀ params around, Fits t nest (innerReserved s) (sweepOf params around) →
    ∀ c ∈ codeBlocks (sweepOf params around) s, ∀ around' d, BlockIn around c around' d →
      ExactSweeps params around' d

/-- A block and the blocks inside release what they have to. -/
def BlockSweeps (t : Table) (nest : Nest) (b : CBlock Node) : Prop :=
  ∀ start params around, FitsBlock t nest start b (sweepOf params around) → Opens start →
    ∀ around' d, BlockIn around (countBlock start (sweepOf params around) b) around' d →
      ExactSweeps params around' d

/-- The blocks inside a block come from its statements. -/
theorem countBlock_sweeps (hopens : Opens start) (hcode : ∀ s ∈ b.stats, ∀ sweep, StatCode sweep s)
    (hexact : ExactSweeps params around (countBlock start outer b))
    (hsweep : ownSlots start b ++ outer = sweepOf params (countBlock start outer b :: around))
    (hstats : ∀ s ∈ b.stats, StatSweeps t nest s)
    (hfits : ∀ s ∈ b.stats, Fits t nest (innerReserved s)
      (sweepOf params (countBlock start outer b :: around))) :
    ∀ around' d, BlockIn around (countBlock start outer b) around' d →
      ExactSweeps params around' d := by
  intro around' d hd
  cases hd with
  | refl => exact hexact
  | @inner _ _ _ c _ s mem within isScoped rest =>
    rw [stats_countBlock] at mem
    rcases mem_append.mp mem with hmem | hmem
    · rw [((hopens.quiet s hmem).within within).2.1] at isScoped
      cases isScoped
    · rw [codesOf_eq_flatMap, hsweep] at hmem
      obtain ⟨s₀, hs₀, hmem⟩ := mem_flatMap.mp hmem
      exact hstats s₀ hs₀ params _ (hfits s₀ hs₀) c
        ((hcode s₀ hs₀ _).blocks s hmem c within isScoped) around' d rest

theorem mem_heapNames {x : String} (h : x ∈ heapNames vars) : x ∈ vars.map fst :=
  (heapNames_sublist vars).subset h

/-- The slots of a block are new, and they stay so inside. -/
theorem fits_slots (h : Scoped t returns ((scope, vars.map fst) :: nest) vars b)
    (hapart : ∀ p ∈ vars, ∀ q ∈ nest, p.1 ∉ q.2) (hfits : FitsBlock t nest start b names) :
    Fits t ((scope, vars.map fst) :: nest) (b.stats.flatMap innerReserved)
      ((heapNames vars ++ heapNames (start.temps ++ (lowered b.stats).temps)).reverse ++
        names) := by
  have hstarts := hfits.starts
  have hinner : b.stats.flatMap innerReserved ⊆ (block b).reserved := by
    intro x hx
    obtain ⟨s, hs, hx⟩ := mem_flatMap.mp hx
    exact h.reserved ▸ mem_flatMap.mpr ⟨s, hs, mem_reserved_of_inner hx⟩
  have hvarName : ∀ x ∈ heapNames vars, IsVarName t x := by
    intro x hx
    obtain ⟨p, hp, rfl⟩ := mem_map.mp (mem_heapNames hx)
    exact h.varNames p hp
  have hsplit : ∀ x ∈ heapNames (start.temps ++ (lowered b.stats).temps),
      x ∈ start.names ∨ x ∈ (lowered b.stats).names := by
    intro x hx
    rw [heapNames_append] at hx
    exact (mem_append.mp hx).imp mem_heapNames mem_heapNames
  have hisTemp : ∀ x ∈ heapNames (start.temps ++ (lowered b.stats).temps), IsTemp t x := fun x hx =>
    (hsplit x hx).elim (fun hx => hstarts.isTemp x (Setup.mem_used_of_mem_names hx)) fun hx =>
      h.reserves.isTemp x (h.lowered_reserved hx)
  have hnames : ∀ x ∈ heapNames vars ++ heapNames (start.temps ++ (lowered b.stats).temps),
      x ∉ names := by
    intro x hx hmem
    rcases mem_append.mp hx with hx | hx
    · rcases hfits.visible x hmem with htemp | ⟨q, hq, hxq⟩
      · exact htemp.ne (hvarName x hx) rfl
      · obtain ⟨p, hp, rfl⟩ := mem_map.mp (mem_heapNames hx)
        exact hapart p hp q hq hxq
    · rcases hsplit x hx with hx | hx
      · exact hfits.fresh x hx hmem
      · exact hfits.apart x hmem (h.lowered_reserved hx)
  have hown : (heapNames vars ++ heapNames (start.temps ++ (lowered b.stats).temps)).Nodup := by
    refine nodup_append.mpr ⟨h.nodup.sublist (heapNames_sublist vars), ?_, fun x hx y hy => ?_⟩
    · refine List.Nodup.sublist (heapNames_sublist _) ?_
      rw [map_append]
      refine nodup_append.mpr ⟨hstarts.nodup, h.names.nodup, ?_⟩
      rintro x hx y hy rfl
      exact hstarts.apart x (Setup.mem_used_of_mem_names hx) (h.lowered_reserved hy)
    · exact fun heq => (hisTemp y hy).ne (hvarName x hx) heq.symm
  refine ⟨nodup_append.mpr ⟨nodup_reverse.mpr hown, hfits.nodup, ?_⟩, fun x hx => ?_,
    fun x hx hxs => ?_⟩
  · grind
  · rcases mem_append.mp hx with hx | hx
    · rcases mem_append.mp (mem_reverse.mp hx) with hx | hx
      · exact .inr ⟨_, .head _, mem_heapNames hx⟩
      · exact .inl (hisTemp x hx)
    · exact (hfits.visible x hx).imp_right (Exists.imp fun _ => And.imp_left (mem_cons_of_mem _))
  · rcases mem_append.mp hx with hx | hx
    · rcases mem_append.mp (mem_reverse.mp hx) with hx | hx
      · exact (h.reserves.isTemp x (hinner hxs)).ne (hvarName x hx) rfl
      · rcases hsplit x hx with hx | hx
        · exact hstarts.apart x (Setup.mem_used_of_mem_names hx) (hinner hxs)
        · exact h.names.apart x hx hxs
    · exact hfits.apart x hx (hinner hxs)

theorem sweepOf_cons : sweepOf params (b :: around) = b.slots.reverse ++ sweepOf params around := by
  simp [sweepOf]

theorem fits_stat (h : Fits t nest (ss.flatMap innerReserved) names) (hs : s ∈ ss) :
    Fits t nest (innerReserved s) names :=
  h.sub fun _ hx => mem_flatMap.mpr ⟨s, hs, hx⟩

/-- The slots of a block of a function, with those around it. -/
theorem fits_ownSlots (shape : BuiltBlock t isBody nest scope vars b)
    (h : Scoped t returns ((scope, vars.map fst) :: nest) vars b)
    (hfits : FitsBlock t nest start b names) :
    Fits t ((scope, vars.map fst) :: nest) (b.stats.flatMap innerReserved)
      (ownSlots start b ++ names) :=
  ownSlots_eq shape.locals ▸ fits_slots h shape.apart hfits

theorem Scoped.code (h : Scoped t returns nest vars b) : ∀ s ∈ b.stats, ∀ sweep, StatCode sweep s :=
  fun s hs => BuiltStat.code (h.stats s hs) (h.child hs)

/-- A block of a function and the blocks inside. -/
theorem builtBlock_sweeps (shape : BuiltBlock t isBody nest scope vars b)
    (hscoped : Scoped t returns ((scope, vars.map fst) :: nest) vars b)
    (hsweeps : ∀ s ∈ b.stats, StatSweeps t ((scope, vars.map fst) :: nest) s)
    (hbody : isBody = true → around = [])
    (hfits : FitsBlock t nest start b (sweepOf params around)) (hopens : Opens start) :
    ∀ around' d, BlockIn around (countBlock start (sweepOf params around) b) around' d →
      ExactSweeps params around' d := by
  have hslots : ownSlots start b = (countBlock start (sweepOf params around) b).slots.reverse := by
    rw [ownSlots_eq shape.locals, slots_countBlock hopens hscoped.code shape.locals, shape.defs]
  have hsweep : ownSlots start b ++ sweepOf params around =
      sweepOf params (countBlock start (sweepOf params around) b :: around) := by
    rw [sweepOf_cons, hslots]
  have hinner := fits_ownSlots shape hscoped hfits
  rw [hsweep] at hinner
  refine countBlock_sweeps hopens hscoped.code
    (countBlock_exact hopens hscoped.code hsweep ?_ hinner.nodup) hsweep hsweeps
    fun s hs => fits_stat hinner hs
  rw [hslots, shape.body]
  cases isBody with
  | false => rfl
  | true =>
    rw [hbody rfl]
    rfl

/-- **Sweeps in statements.**  All blocks in the code of a built statement release what they have
to. -/
theorem BuiltStat.sweeps (h : BuiltStat t returns nest s)
    (hreserves : ReservesTemps t s) : StatSweeps t nest s := by
  have hopens : Opens {} := opens_of_filler nofun
  refine BuiltStat.lowering (S := StatSweeps t) (B := BlockSweeps t)
    ?leaf ?ifStat ?whileStat ?blockStat ?inner ?block h hreserves
  case leaf =>
    intro nest s setup rest hleaf _ _ params around _ c hc
    have hnone : codeBlocks (sweepOf params around) s = [] := by
      have hsimple := hleaf.simple
      cases s <;> first | rfl | cases hsimple
    rw [hnone] at hc
    cases hc
  case ifStat =>
    intro nest c b other _ _ _ hb hother params around hfits d hd
    rcases mem_append.mp hd with hd | hd
    · obtain rfl := mem_singleton.mp hd
      exact hb {} params around (hfits.enter (.yes _)) hopens
    · cases other with
      | none => cases hd
      | some b' =>
        obtain rfl := mem_singleton.mp hd
        exact hother b' rfl {} params around (hfits.enter (.no _ rfl)) hopens
  case whileStat =>
    intro nest c b _ hcond hreserves hb params around hfits d hd
    obtain rfl := mem_singleton.mp hd
    exact hb (loopStart c) params around (hfits.enter (.body hcond hreserves))
      (opens_loopStart hcond)
  case blockStat =>
    intro nest b hb params around hfits d hd
    obtain rfl := mem_singleton.mp hd
    exact hb {} params around (hfits.enter .inner) hopens
  case inner =>
    intro nest b hb params around hfits d hd
    obtain rfl := mem_singleton.mp hd
    exact hb {} params around hfits.block hopens
  case block =>
    exact fun shape hscoped ih start params around hfits hopens =>
      builtBlock_sweeps shape hscoped ih nofun hfits hopens

/-- The heap parameters around the body of a function. -/
theorem params_fit {head : FuncHead} {args : List (String × Ty)}
    (h : BuiltFunc t head args scope vars b) :
    FitsBlock t [(head.scope, args.map fst)] (.ofStats ((heapNames args).map refer)) b
      (heapNames args).reverse := by
  refine ⟨⟨nodup_reverse.mpr (h.nodup.sublist (heapNames_sublist args)), fun x hx => ?_,
    fun x hx hmem => ?_⟩, starts_refers _ b, nofun⟩
  · exact .inr ⟨_, .head _, mem_heapNames (mem_reverse.mp hx)⟩
  · obtain ⟨p, hp, rfl⟩ := mem_map.mp (mem_heapNames (mem_reverse.mp hx))
    exact (h.temps.isTemp p.1 hmem).ne (h.varNames p hp) rfl

/-- The slots of the main function with the global variables. -/
theorem globals_fit (h : BuiltMain t vars b) :
    Fits t [(Table.global, vars.map fst)] (b.stats.flatMap innerReserved)
      (ownSlots {} b ++ (heapNames vars).reverse) := by
  have hnothing : Fits t [] (block b).reserved [] := ⟨.nil, nofun, nofun⟩
  have hinner := fits_slots (.ofMain h) nofun hnothing.block
  have hlocals : b.locals = map Build.declOf [] := h.locals
  rw [ownSlots_eq hlocals]
  simpa [heapNames] using hinner

theorem func_sweeps (h : n.IsBuiltFunc t) :
    ∃ params body, (countFunc n).body? = some (params, body) ∧
      ∀ around b, BlockIn [] body around b → ExactSweeps params around b := by
  obtain ⟨head, args, scope, vars, b, rfl, hfunc⟩ := h
  have hbody : (countFunc (.func head (argDefs args) (some (.block b)))).body? =
    some (heapNames args,
      countBlock (.ofStats ((heapNames args).map refer)) (sweepOf (heapNames args) []) b) := by
    rw [countFunc, heapArgs_argDefs, body?, heapArgs_argDefs]
    rfl
  refine ⟨_, _, hbody, ?_⟩
  have hscoped := Scoped.ofFunc hfunc
  exact builtBlock_sweeps hfunc.body hscoped
    (fun s hs => BuiltStat.sweeps (hscoped.stats s hs) (hscoped.child hs)) (fun _ => rfl)
    (params_fit hfunc) (opens_of_filler fun n hn => by
      obtain ⟨slot, -, rfl⟩ := mem_map.mp hn
      exact filler_count _ _)

theorem main_sweeps (h : BuiltMain t vars b) :
    ∀ around d, BlockIn [] (countBlock {} (heapNames vars).reverse b) around d →
      ExactSweeps [] around d := by
  have hscoped := Scoped.ofMain h
  have hcode := hscoped.code
  have hopens : Opens {} := opens_of_filler nofun
  have hslots : ownSlots {} b ++ (heapNames vars).reverse =
      (countBlock {} (heapNames vars).reverse b).slots.reverse := by
    have hlocals : b.locals = map Build.declOf [] := h.locals
    rw [ownSlots_eq hlocals, slots_countBlock hopens hcode hlocals, h.defs]
    simp [heapNames]
  have hsweep : ownSlots {} b ++ (heapNames vars).reverse =
      sweepOf [] [countBlock {} (heapNames vars).reverse b] := by
    rw [sweepOf_cons, hslots]
    exact (append_nil _).symm
  have hinner := globals_fit h
  rw [hsweep] at hinner
  refine countBlock_sweeps hopens hcode
    (countBlock_exact hopens hcode hsweep ?_ hinner.nodup) hsweep
    (fun s hs => BuiltStat.sweeps (h.stats s hs) (hscoped.child hs)) fun s hs => fits_stat hinner hs
  rw [h.body]
  simpa using hslots

end Counting

/-- The functions of a built file release what they have to. -/
theorem Node.IsBuiltFile.sweeps {t : Table} (h : n.IsBuiltFile t) : n.counted.SweepsExactly := by
  obtain ⟨vars, funcs, b, rfl, hfuncs, hmain⟩ := h
  intro f hf
  rcases mem_append.mp (show f ∈ funcs.map countFunc ++ _ from hf) with hf | hf
  · obtain ⟨g, hg, rfl⟩ := mem_map.mp hf
    exact func_sweeps (hfuncs g hg)
  · obtain rfl := mem_singleton.mp hf
    exact ⟨_, _, by rw [countMain, slotsIn_declOf, body?], main_sweeps hmain⟩

/-- **Exact sweeps.**  In the model with counts of a script without errors, every block releases its
slots where it is left, each of them once: a return releases the slots of the blocks around it and
the heap parameters, the end of a block its own slots, in a function body also the parameters, and
the `break` that leaves a loop the heap temporaries of the condition. -/
theorem exact_sweeps (source : String) (report : Report)
    (h : (ofSource source report).report.hasErrors = false) :
    ∃ model, Node.ofScript (ofSource source report).script
        (ofSource source report).table = .ok model ∧
      (model.inject (ofSource source report).table).SweepsExactly := by
  obtain ⟨base, hacc⟩ := accepted h
  obtain ⟨model, hmodel, hshape⟩ := hacc.ofScript
  refine ⟨model, hmodel, ?_⟩
  rw [inject_eq_counted hacc.typed.wellFormed hshape]
  exact hshape.sweeps

/-- A script that returns out of a block in a loop whose condition makes strings. -/
def nestedReturns : String :=
  "func f(p : string) : string \x7b\n  var a = p\n" ++
  "  while (a + p != \"xx\") \x7b var b = a + p \x7b var c = b + \"y\" return c \x7d \x7d\n" ++
  "  return a\n\x7d\nvar r = f(\"x\")\nprint(r)\n"

set_option maxRecDepth 20000 in
/-- The script with nested returns is accepted, and all its blocks release the right slots. -/
theorem exact_sweeps_nestedReturns : (ofSource nestedReturns {}).report.hasErrors = false ∧
      ∃ model, Node.ofScript (ofSource nestedReturns {}).script
          (ofSource nestedReturns {}).table = .ok model ∧
        (model.inject (ofSource nestedReturns {}).table).SweepsExactly :=
  have haccepted : (ofSource nestedReturns {}).report.hasErrors = false := by decide +kernel
  ⟨haccepted, exact_sweeps nestedReturns {} haccepted⟩

end WichToC

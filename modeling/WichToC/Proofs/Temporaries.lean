import WichToC.Proofs.Erasure

/-!
# Temporaries

Counted code keeps values in temporaries and reads them later.  `DeclaredOnce` is what makes that
work for one of them: a single block declares it, every use of it stands in that block, a single
statement fills it, and no path from the start of the block reads it before.

Uses are found from the outside in: `TempsDeclared` hands down the names that the blocks around a
node declare.  If the names of temporaries are different and every block fills its own ones before
it reads them, each temporary is declared once: `TempsDeclared.declaredOnce`.
-/

namespace WichToC

open List Counting CBlock
open Prod (fst snd)

variable {α : Type} {b : CBlock Node}

/-! ## Slots and their declarations -/

namespace Node

variable (n : Node)

/-- The slot that a node reads, fills or counts. -/
def slot? : Node → Option String
  | varRef name .. | varDef name .. | assign name .. | elementAssign name .. | tempDef name ..
  | count _ name => some name
  | _ => none

/-- Whether a node takes its slot for a temporary. -/
def marksTemp : Node → Bool
  | varRef _ _ isTemp => isTemp
  | tempDef .. => true
  | _ => false

/-- The slots that are used in a node, once for each use. -/
def slotUses : List String := n.collect fun m => m.slot?.toList

def block? : Node → Option (CBlock Node)
  | block b => some b
  | _ => none

/-- The blocks in a node, inner ones first. -/
def allBlocks : List (CBlock Node) := n.collect fun m => m.block?.toList

/-- The temporaries that are filled in a node, once for each statement that fills one. -/
def definedTemps : List (String × Ty) := n.collect fun m => m.definedTemp?.toList

end Node

namespace CBlock

variable (b : CBlock Node)

/-- The names that the locals of a block declare. -/
def localNames : List String := b.locals.map fst

/-- The temporaries that the locals of a block declare. -/
def localTemps : List (String × Ty) :=
  (b.locals.map snd).filterMap Node.declaredTemp?

end CBlock

/-- The temporaries that are filled on a path. -/
def filled (acts : List Act) : List String :=
  acts.filterMap fun
    | .store .temp name .. => some name
    | _ => none

/-- The temporary `x` of a function, which the block `b` declares with the type `ty`. -/
structure DeclaredOnce (f : Node) (x : String) (b : CBlock Node) (ty : Ty) : Prop where
  /-- No other block of the function declares it. -/
  block : f.allBlocks.filter (fun c => x ∈ c.localNames) = [b]
  entry : b.locals.filter (fun p => p.1 = x) = [(x, .tempDecl x ty)]
  /-- One statement fills it. -/
  defined : f.definedTemps.filter (fun p => p.1 = x) = [(x, ty)]
  /-- All uses stand in the block. -/
  inside : (Node.block b).slotUses.count x = f.slotUses.count x
  /-- On every path through the block it is filled before it is read. -/
  first : ∀ {acts exit before readTy truth after}, Runs (.block b) acts exit →
    acts = before ++ .read x readTy truth :: after → x ∈ filled before

/-- The temporaries of counted code `f'` are in order, and the variables are declared as in the code
`f` before counting. -/
structure Node.OrdersTemps (t : Table) (f f' : Node) : Prop where
  marked : f'.All fun n => n.marksTemp = true → ∀ x ∈ n.slot?, IsTemp t x
  declared : ∀ x ∈ f'.slotUses, IsTemp t x → ∃ b ty, DeclaredOnce f' x b ty
  vars : f'.allBlocks.flatMap vars = f.allBlocks.flatMap vars

namespace Node

section Collected

variable {n : Node}

theorem slotUses_eq : n.slotUses = n.children.flatMap slotUses ++ n.slot?.toList :=
  n.collect_eq _

theorem allBlocks_eq : n.allBlocks = n.children.flatMap allBlocks ++ n.block?.toList :=
  n.collect_eq _

theorem definedTemps_eq :
    n.definedTemps = n.children.flatMap definedTemps ++ n.definedTemp?.toList :=
  n.collect_eq _

/-- What is collected in a node over nodes that have none of it and others. -/
theorem collect_over {own : Node → List α} (cs cs' : List Node)
    (hn : n.children = cs ++ cs') (hcs : ∀ c ∈ cs, c.collect own = []) :
    n.collect own = cs'.flatMap (collect own) ++ own n := by
  rw [collect_eq, hn, flatMap_append, flatMap_eq_nil_iff.mpr hcs, nil_append]

/-- What is collected in a block, besides its declarations. -/
theorem collect_block {own : Node → List α}
    (hown : ∀ name ty isTemp, own (varDecl name ty isTemp) = [])
    (hdecls : ∀ p ∈ b.locals ++ b.temps, ∃ name ty isTemp, p.2 = varDecl name ty isTemp) :
    (block b).collect own = (b.stats ++ b.cleanup).flatMap (collect own) ++ own (block b) := by
  have hchildren : (block b).children = (b.locals ++ b.temps).map snd ++
      (b.stats ++ b.cleanup) := by
    simp [children]
  refine collect_over _ _ hchildren (forall_mem_map.mpr fun p hp => ?_)
  obtain ⟨name, ty, isTemp, heq⟩ := hdecls p hp
  rw [heq, collect_eq, hown]
  rfl

/-- Expressions contain no blocks. -/
theorem allBlocks_of_exprs (h : n.All fun m => m.kind ≠ .block) : n.allBlocks = [] := by
  refine h.collect_eq_nil fun m hm => ?_
  cases m <;> first | rfl | exact absurd rfl hm

theorem OverSettled.operations (h : n.OverSettled) : n.All fun m => m.isOperation = true :=
  .intro h.operation fun c hc => (h.operands c hc).imp fun _ hm => hm.1

end Collected

/-- The names that a node declares for the nodes inside. -/
def opens (n : Node) : List String := (n.block?.map localNames).getD []

def declaredTemps (n : Node) : List (String × Ty) := n.allBlocks.flatMap localTemps

end Node

/-- The slot of a node is no temporary, or it is one of those given. -/
def Node.SlotIn (t : Table) (names : List String) (n : Node) : Prop :=
  ∀ x ∈ n.slot?, (n.marksTemp = true → IsTemp t x) ∧ (IsTemp t x → x ∈ names)

/-- Every temporary that is used in a node is one of those given or declared by a block around its
use. -/
inductive TempsDeclared (t : Table) : List String → Node → Prop
  | intro {names : List String} {n : Node} (own : n.SlotIn t names)
      (inside : ∀ c ∈ n.children, TempsDeclared t (n.opens ++ names) c) : TempsDeclared t names n

namespace TempsDeclared

variable {t : Table} {names names' : List String} {n : Node}

theorem mono (h : TempsDeclared t names n) (hsub : names ⊆ names') :
    TempsDeclared t names' n := by
  induction h generalizing names' with
  | intro own _ ih =>
    refine .intro (fun x hx => ⟨(own x hx).1, fun htemp => hsub ((own x hx).2 htemp)⟩)
      fun c hc => ?_
    grind

/-- A node that declares nothing. -/
theorem of_children (hopens : n.opens = []) (own : n.SlotIn t names)
    (inside : ∀ c ∈ n.children, TempsDeclared t names c) : TempsDeclared t names n :=
  .intro own (by rwa [hopens])

theorem marked (h : TempsDeclared t names n) :
    n.All fun m => m.marksTemp = true → ∀ x ∈ m.slot?, IsTemp t x := by
  induction h with
  | intro own _ ih => exact .intro (fun hmarks x hx => (own x hx).1 hmarks) ih

end TempsDeclared

/-! ## Statements that fill nothing -/

/-- A statement without blocks that fills no temporary. -/
structure Flat (n : Node) : Prop where
  simple : isSimple n = true
  defines : n.definedTemp? = none
  operands : ∀ c ∈ n.children, c.All fun m => m.isOperation = true

/-- What expressions and statements without blocks have none of. -/
structure Sparse {α : Type} (own : Node → List α) : Prop where
  decl : ∀ name ty isTemp, own (.varDecl name ty isTemp) = []
  expr : ∀ {n}, n.isOperation = true → own n = []
  flat : ∀ {n}, isSimple n = true → n.definedTemp? = none → own n = []
  ifStat : ∀ cond yes no, own (.ifStat cond yes no) = []

theorem sparse_blocks : Sparse fun n => n.block?.toList where
  decl _ _ _ := rfl
  expr {n} h := by cases n <;> first | rfl | cases h
  flat {n} h _ := by cases n <;> first | rfl | cases h
  ifStat _ _ _ := rfl

theorem sparse_defs : Sparse fun n => n.definedTemp?.toList where
  decl _ _ _ := rfl
  expr {n} h := by cases n <;> first | rfl | cases h
  flat _ h := by rw [h]; rfl
  ifStat _ _ _ := rfl

section Sparse

variable {α : Type} {own : Node → List α} {n : Node} {ns : List Node} (kind : CountKind)

theorem Sparse.exprs (h : Sparse own) (hn : n.All fun m => m.isOperation = true) :
    n.collect own = [] :=
  hn.collect_eq_nil fun _ => h.expr

theorem Sparse.flats (h : Sparse own) (hns : ∀ n ∈ ns, Flat n) :
    ns.flatMap (Node.collect own) = [] := by
  refine flatMap_eq_nil_iff.mpr fun n hn => ?_
  rw [Node.collect_over n.children [] (append_nil _).symm fun c hc =>
    h.exprs ((hns n hn).operands c hc), h.flat (hns n hn).simple (hns n hn).defines]
  rfl

theorem Flat.over {e : Node} (hn : isSimple n = true) (hdef : n.definedTemp? = none)
    (hchildren : n.children = [e]) (he : e.OverSettled) : Flat n :=
  ⟨hn, hdef, hchildren ▸ forall_mem_singleton.mpr he.operations⟩

theorem flat_count (slot : String) : Flat (.count kind slot) := ⟨rfl, rfl, nofun⟩

theorem flat_counts (slots : List String) : ∀ n ∈ slots.map (Node.count kind), Flat n :=
  forall_mem_map.mpr fun slot _ => flat_count kind slot

/-- What the evaluation of a right operand adds to its setup. -/
theorem Sparse.rightOperand (h : Sparse own) {op temp : String} {s : Setup} {right : Node}
    (hs : s.names.Nodup) (hright : right.Settled) :
    (rightOperand op temp s (some right)).collect own =
      s.stats.flatMap (Node.collect own) ++ own (.block (guardBlock temp s right)) := by
  have hlast : ∀ n ∈ [Node.assign temp .boolean "" (some right)] ++ s.releases, Flat n := by
    rw [Setup.releases_eq]
    exact forall_mem_append.mpr ⟨forall_mem_singleton.mpr
      (.over rfl rfl rfl hright.overSettled), flat_counts _ _⟩
  have hdecls : ∀ p ∈ (guardBlock temp s right).locals ++ (guardBlock temp s right).temps,
      ∃ name ty isTemp, p.2 = .varDecl name ty isTemp := by
    refine forall_mem_append.mpr ⟨fun p hp => ?_, nofun⟩
    rw [show (guardBlock temp s right).locals =
      s.decls from insertEntries_eq (by simpa using hs)] at hp
    obtain ⟨q, -, rfl⟩ := mem_map.mp hp
    exact ⟨_, _, _, rfl⟩
  have hstats : (guardBlock temp s right).stats ++ (guardBlock temp s right).cleanup =
      s.stats ++ ([.assign temp .boolean "" (some right)] ++ s.releases) := append_assoc ..
  rw [rightOperand_eq, Node.collect_over [guard op temp] [.block (guardBlock temp s right)] rfl
    (forall_mem_singleton.mpr (h.exprs (settled_guard op temp).overSettled.operations)),
    flatMap_singleton, Node.collect_block h.decl hdecls, hstats, flatMap_append, h.flats hlast,
    h.ifStat, append_nil, append_nil]

end Sparse

/-! ## One declaration and all uses -/

section Declaring

variable {t : Table} {names : List String} {n : Node} {x : String}

/-- The blocks in a node that declare a name. -/
def Node.declaring (x : String) (n : Node) : List (CBlock Node) :=
  n.allBlocks.filter fun b => x ∈ b.localNames

theorem Node.declaring_eq : n.declaring x =
    n.children.flatMap (declaring x) ++ n.block?.toList.filter fun b => x ∈ b.localNames := by
  rw [declaring, allBlocks_eq, filter_append, filter_flatMap]
  rfl

theorem Node.exists_block_of_opens (h : x ∈ n.opens) : ∃ b, n = .block b ∧ x ∈ b.localNames := by
  cases n <;> first | exact ⟨_, rfl, h⟩ | cases h

section

variable (h : TempsDeclared t names n) (hx : IsTemp t x)

include h hx

/-- A temporary that is used and not given is declared. -/
theorem TempsDeclared.declaring_ne_nil
    (hmem : x ∈ n.slotUses) : x ∈ names ∨ n.declaring x ≠ [] := by
  induction h with
  | @intro names n own _ ih =>
    rw [Node.slotUses_eq] at hmem
    rw [Node.declaring_eq]
    rcases mem_append.mp hmem with hmem | hmem
    · obtain ⟨c, hc, hmem⟩ := mem_flatMap.mp hmem
      rcases ih c hc hmem with hnames | hdecl
      · rcases mem_append.mp hnames with hopens | hnames
        · obtain ⟨b, rfl, hb⟩ := Node.exists_block_of_opens hopens
          exact .inr (by simp [Node.block?, hb])
        · exact .inl hnames
      · right
        simp only [ne_eq, append_eq_nil_iff, flatMap_eq_nil_iff, not_and]
        exact fun hnone => absurd (hnone c hc) hdecl
    · exact .inl ((own x (Option.mem_toList.mp hmem)).2 hx)

theorem TempsDeclared.count_eq_zero (hout : x ∉ names)
    (hnone : n.declaring x = []) : n.slotUses.count x = 0 :=
  List.count_eq_zero.mpr fun hmem => (h.declaring_ne_nil hx hmem).elim hout fun hne => hne hnone

/-- If no two blocks declare a temporary, one does and all its uses are inside. -/
theorem TempsDeclared.exists_declaring
    (hout : x ∉ names) (honce : (n.declaring x).length ≤ 1) (hmem : x ∈ n.slotUses) :
    ∃ b, n.declaring x = [b] ∧ (Node.block b).slotUses.count x = n.slotUses.count x := by
  induction h with
  | @intro names n own inside ih =>
    by_cases hopens : x ∈ n.opens
    · -- the node is the block
      obtain ⟨b, rfl, hb⟩ := Node.exists_block_of_opens hopens
      rw [Node.declaring_eq] at honce ⊢
      have hself : (Node.block b).block?.toList.filter (fun b => x ∈ b.localNames) = [b] := by
        simp [Node.block?, hb]
      rw [hself, length_append, length_singleton] at honce
      grind
    · -- it stands in one child, and the others have no part in it
      have hnone : n.block?.toList.filter (fun b => x ∈ b.localNames) = [] := by
        refine filter_eq_nil_iff.mpr fun b hb hdecl => hopens ?_
        rw [Node.opens, Option.mem_toList.mp hb]
        simpa using hdecl
      have hown : n.slot?.toList.count x = 0 := by
        refine List.count_eq_zero.mpr fun hslot => hout ?_
        exact (own x (Option.mem_toList.mp hslot)).2 hx
      rw [Node.slotUses_eq] at hmem ⊢
      rw [Node.declaring_eq, hnone, append_nil] at honce ⊢
      have hchild : x ∈ n.children.flatMap Node.slotUses :=
        (mem_append.mp hmem).resolve_right (List.count_eq_zero.mp hown)
      obtain ⟨c, hc, hmem⟩ := mem_flatMap.mp hchild
      have hnames : x ∉ n.opens ++ names := by simp [hopens, hout]
      obtain ⟨before, after, hsplit⟩ := append_of_mem hc
      rw [hsplit] at honce inside ih ⊢
      simp only [flatMap_append, flatMap_cons, length_append] at honce
      obtain ⟨b, hb, hcount⟩ := ih c (by simp) hnames (by omega) hmem
      rw [hb, length_singleton] at honce
      have hothers : before.flatMap (Node.declaring x) = [] ∧
          after.flatMap (Node.declaring x) = [] :=
        ⟨length_eq_zero_iff.mp (by omega), length_eq_zero_iff.mp (by omega)⟩
      have hzero : ∀ cs : List Node, (∀ d ∈ cs, TempsDeclared t (n.opens ++ names) d) →
          cs.flatMap (Node.declaring x) = [] → (cs.flatMap Node.slotUses).count x = 0 := by
        intro cs hcs hdecl
        refine List.count_eq_zero.mpr fun hmem => ?_
        obtain ⟨d, hd, hmem⟩ := mem_flatMap.mp hmem
        have hd' := (hcs d hd).count_eq_zero hx hnames (flatMap_eq_nil_iff.mp hdecl d hd)
        exact List.count_eq_zero.mp hd' hmem
      have hbefore := hzero before (fun d hd => inside d (by simp [hd])) hothers.1
      have hafter := hzero after (fun d hd => inside d (by simp [hd])) hothers.2
      grind

end

end Declaring

/-! ## Temporaries of blocks -/

/-- What a block has to do with its temporaries: they are told from its variables, and each path
through the block fills them before it reads them. -/
structure BlockTemps (t : Table) (b : CBlock Node) : Prop where
  locals : ∀ p ∈ b.locals, (∃ ty, p.2 = .tempDecl p.1 ty ∧ IsTemp t p.1) ∨
    ∃ ty, p.2 = .varDecl p.1 ty false ∧ IsVarName t p.1
  first : ∀ {acts exit}, Runs (.block b) acts exit → ∀ x ∈ b.localNames, IsTemp t x →
    ∀ before ty truth after, acts = before ++ .read x ty truth :: after → x ∈ filled before

section Assembling

variable {t : Table} {n : Node} {x : String}

/-- An entry whose key is there once. -/
theorem exists_filter_eq_singleton {l : List (String × α)} (hmem : x ∈ l.map fst)
    (honce : (l.map fst).count x ≤ 1) : ∃ a, l.filter (fun p => p.1 = x) = [(x, a)] := by
  have hlength : (l.filter fun p => p.1 = x).length = (l.map fst).count x := by
    rw [count, countP_map, countP_eq_length_filter]
    exact congrArg length (filter_congr fun p _ => (beq_eq_decide p.1 x).symm)
  have hpos := count_pos_iff.mpr hmem
  obtain ⟨p, hp⟩ := length_eq_one_iff.mp (show (l.filter fun p => p.1 = x).length = 1 by omega)
  have hkey : p ∈ l.filter fun p => p.1 = x := hp ▸ .head _
  grind

/-- The entries of a temporary are its declarations. -/
theorem BlockTemps.filter_locals (h : BlockTemps t b) (hx : IsTemp t x) :
    b.locals.filter (fun p => p.1 = x) =
      (b.localTemps.filter fun p => p.1 = x).map fun p => (p.1, .tempDecl p.1 p.2) := by
  have hlocals := h.locals
  unfold localTemps
  generalize b.locals = ps at hlocals
  induction ps with
  | nil => rfl
  | cons p ps ih =>
    obtain ⟨hp, hps⟩ := forall_mem_cons.mp hlocals
    obtain ⟨key, decl⟩ := p
    dsimp only at hp
    rcases hp with ⟨ty, rfl, -⟩ | ⟨ty, rfl, hvar⟩
    · by_cases hkey : key = x <;> simp [Node.tempDecl, Node.declaredTemp?, hkey, ih hps]
    · have hkey : key ≠ x := (hx.ne hvar).symm
      rw [map_cons, filterMap_cons_none rfl, filter_cons_of_neg (by simpa using hkey)]
      exact ih hps

theorem BlockTemps.mem_localNames (h : BlockTemps t b) (hx : IsTemp t x) :
    x ∈ b.localNames ↔ x ∈ b.localTemps.map fst := by
  have hfilter := congrArg (map fst) (h.filter_locals hx)
  have hkeys : ∀ {α : Type} (l : List (String × α)),
      x ∈ l.map fst ↔ x ∈ (l.filter fun p => p.1 = x).map fst := by simp
  rw [localNames, hkeys, hfilter, hkeys b.localTemps, map_map]
  rfl

/-- A temporary is declared by as many blocks as declare it. -/
theorem length_declaring_le (hblocks : ∀ b ∈ n.allBlocks, BlockTemps t b) (hx : IsTemp t x) :
    (n.declaring x).length ≤ (n.declaredTemps.map fst).count x := by
  rw [Node.declaring, Node.declaredTemps]
  generalize n.allBlocks = bs at hblocks
  induction bs with
  | nil => exact Nat.zero_le _
  | cons b bs ih =>
    obtain ⟨hb, hbs⟩ := forall_mem_cons.mp hblocks
    have ih := ih hbs
    rw [flatMap_cons, map_append, count_append]
    by_cases hdecl : x ∈ b.localNames
    · have hpos := count_pos_iff.mpr ((hb.mem_localNames hx).mp hdecl)
      grind
    · grind

/-- **A temporary is declared once** if the names of temporaries are different, as many statements
fill one as blocks declare it, and its uses are declared. -/
theorem TempsDeclared.declaredOnce (h : TempsDeclared t [] n)
    (hblocks : ∀ b ∈ n.allBlocks, BlockTemps t b) (hperm : n.definedTemps.Perm n.declaredTemps)
    (honce : ∀ x, (n.declaredTemps.map fst).count x ≤ 1) (hmem : x ∈ n.slotUses)
    (hx : IsTemp t x) : ∃ b ty, DeclaredOnce n x b ty := by
  obtain ⟨b, hb, hinside⟩ := h.exists_declaring hx not_mem_nil
    (Nat.le_trans (length_declaring_le hblocks hx) (honce x)) hmem
  have hdeclaring : b ∈ n.declaring x := hb ▸ .head _
  obtain ⟨hbn, hlocal⟩ := mem_filter.mp hdeclaring
  have hlocal : x ∈ b.localNames := by simpa using hlocal
  have htemps := hblocks b hbn
  have hlocalOnce : (b.localTemps.map fst).count x ≤ 1 := by
    refine Nat.le_trans (List.Sublist.count_le x ?_) (honce x)
    rw [Node.declaredTemps, flatMap_def]
    exact (sublist_flatten_of_mem (mem_map_of_mem hbn)).map fst
  obtain ⟨ty, hty⟩ := exists_filter_eq_singleton ((htemps.mem_localNames hx).mp hlocal) hlocalOnce
  have hdeclared : (x, ty) ∈ n.declaredTemps := by
    have hlocal : (x, ty) ∈ b.localTemps := (mem_filter.mp (hty ▸ mem_singleton_self _)).1
    exact mem_flatMap.mpr ⟨b, hbn, hlocal⟩
  have hdefined := hperm.mem_iff.mpr hdeclared
  obtain ⟨ty', hty'⟩ := exists_filter_eq_singleton (l := n.definedTemps)
    (mem_map_of_mem (f := fst) hdefined) (by grind)
  have hsame : (x, ty) ∈ n.definedTemps.filter fun p => p.1 = x := by simp [hdefined]
  rw [hty', mem_singleton] at hsame
  refine ⟨b, ty, hb, ?_, hsame ▸ hty', hinside, fun hruns heq => ?_⟩
  · rw [htemps.filter_locals hx, hty]
    rfl
  · exact htemps.first hruns x hlocal hx _ _ _ _ heq

end Assembling

end WichToC

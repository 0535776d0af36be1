import WichToC.Proofs.Temporaries

/-!
# Filling temporaries

Counted code fills a temporary before it reads it.  `Fills` says so of a list of statements, given
the names that are declared around them and those that are filled before, and `FillsBlock` of a
block; both are kept when code is put together.  Moved expressions give code of this kind
(`Moved.fills`), and so do statements without blocks (`StatForm.fills`).
-/

namespace WichToC

open List Counting Node
open Setup (define names_append names stats_append)

variable {c value : Node} {ty : Ty} {ns cs : List Node} {kind : CountKind}
    {slots sweep : List String} {name op : String}

/-! ## Paths -/

/-- On a path every temporary is filled before it is read, if it is not `known` before. -/
def FilledFirst (t : Table) (known : List String) (acts : List Act) : Prop :=
  ∀ before x ty truth after, acts = before ++ .read x ty truth :: after → IsTemp t x →
    x ∈ known ∨ x ∈ filled before

namespace FilledFirst

variable {t : Table} {known known' : List String} {acts acts' : List Act}

theorem append (h : FilledFirst t known acts) (h' : FilledFirst t (filled acts ++ known) acts') :
    FilledFirst t known (acts ++ acts') := by
  intro before x ty truth after heq hx
  rcases append_eq_append_cons heq with ⟨after', hacts⟩ | ⟨before', rfl, hacts'⟩
  · exact h before x ty truth after' hacts hx
  · have hfilled : filled (acts ++ before') = filled acts ++ filled before' := filterMap_append
    rw [hfilled]
    rcases h' before' x ty truth after hacts' hx with hmem | hmem
    · grind
    · exact .inr (mem_append_right _ hmem)

theorem mono (h : FilledFirst t known acts) (hsub : known ⊆ known') :
    FilledFirst t known' acts := fun before x ty truth after heq hx =>
  (h before x ty truth after heq hx).imp (@hsub x) id

/-- Code after other code that needs no more. -/
theorem seq (h : FilledFirst t known acts) (h' : FilledFirst t known acts') :
    FilledFirst t known (acts ++ acts') :=
  h.append (h'.mono fun _ => mem_append_right _)

theorem of_reads (h : ∀ x ty truth, .read x ty truth ∈ acts → IsTemp t x → x ∈ known) :
    FilledFirst t known acts := by
  rintro before x ty truth after rfl hx
  exact .inl (h x ty truth (by simp) hx)

theorem quiet (h : ∀ x ty truth, .read x ty truth ∉ acts) : FilledFirst t known acts :=
  of_reads fun x ty truth hmem => absurd hmem (h x ty truth)

end FilledFirst

/-! ## Expressions -/

/-- An expression that reads no temporaries but those given. -/
structure ReadsKnown (t : Table) (known : List String) (e : Node) : Prop where
  operations : e.All fun m => m.isOperation = true
  temps : TempsDeclared t known e

section Exprs

variable {t : Table} {known known' : List String} {n e : Node} {acts : List Act}
  {truths : List Bool}

theorem Node.opens_of_operation (h : n.isOperation = true) : n.opens = [] := by
  cases n <;> first | rfl | cases h

theorem Node.slot?_of_operation (h : n.isOperation = true) (hvar : n.kind ≠ .varRef) :
    n.slot? = none := by
  cases n <;> first | rfl | exact absurd rfl hvar | cases h

namespace ReadsKnown

variable {name : String}

theorem child (h : ReadsKnown t known n) (hc : c ∈ n.children) : ReadsKnown t known c := by
  refine ⟨h.operations.inside c hc, ?_⟩
  cases h.temps with
  | intro _ inside =>
    have hc := inside c hc
    rwa [opens_of_operation h.operations.here] at hc

theorem mono (h : ReadsKnown t known n) (hsub : known ⊆ known') : ReadsKnown t known' n :=
  ⟨h.operations, h.temps.mono hsub⟩

theorem of_operands (hop : n.isOperation = true) (hvar : n.kind ≠ .varRef)
    (h : ∀ c ∈ n.children, ReadsKnown t known c) : ReadsKnown t known n := by
  refine ⟨.intro hop fun c hc => (h c hc).operations,
    .of_children (opens_of_operation hop) ?_ fun c hc => (h c hc).temps⟩
  rw [SlotIn, slot?_of_operation hop hvar]
  nofun

theorem var {isTemp : Bool} (htemp : isTemp = true → IsTemp t name)
    (hknown : IsTemp t name → name ∈ known) : ReadsKnown t known (.varRef name ty isTemp) := by
  refine ⟨.intro rfl nofun, .of_children rfl (fun x hx => ?_) nofun⟩
  cases hx
  exact ⟨htemp, hknown⟩

theorem temp (ty : Ty) (htemp : IsTemp t name) (hmem : name ∈ known) :
    ReadsKnown t known (.temp name ty) :=
  var (fun _ => htemp) fun _ => hmem

theorem mem_of_temp (h : ReadsKnown t known (.temp name ty)) : IsTemp t name ∧ name ∈ known := by
  cases h.temps with
  | intro own _ =>
    have hown := own name rfl
    exact ⟨hown.1 rfl, hown.2 (hown.1 rfl)⟩

end ReadsKnown

/-- The evaluation of expressions reads what they say. -/
theorem reads_of_evals (h : Evals ns acts truths) (hns : ∀ n ∈ ns, ReadsKnown t known n) :
    ∀ x ty truth, .read x ty truth ∈ acts → IsTemp t x → x ∈ known := by
  induction h with
  | nil => exact fun _ _ _ hmem => absurd hmem not_mem_nil
  | @read name ty isTemp ns acts truth truths rest ih =>
    obtain ⟨hn, hns⟩ := forall_mem_cons.mp hns
    intro x ty' truth' hmem hx
    rcases mem_cons.mp hmem with heq | hmem
    · cases heq
      cases hn.temps with
      | intro own _ => exact (own name rfl).2 hx
    · exact ih hns x ty' truth' hmem hx
  | @operate n ns acts acts' operands truths truth operation varRef strict children gives rest ihn
    ihns =>
    obtain ⟨hn, hns⟩ := forall_mem_cons.mp hns
    intro x ty truth' hmem hx
    rcases mem_append.mp hmem with hmem | hmem
    · exact ihn (fun c hc => hn.child hc) x ty truth' hmem hx
    · grind
  | @decided op temp ty operandTy l r ns acts acts' truth truths logical left decided rest ihl
    ihns =>
    obtain ⟨hn, hns⟩ := forall_mem_cons.mp hns
    intro x ty' truth' hmem hx
    rcases mem_append.mp hmem with hmem | hmem
    · refine ihl (forall_mem_singleton.mpr (hn.child ?_)) x ty' truth' hmem hx
      simp [children]
    · grind
  | @undecided op temp ty operandTy l r ns acts acts' acts'' truth truth' truths logical left
      undecided right rest ihl ihr ihns =>
    obtain ⟨hn, hns⟩ := forall_mem_cons.mp hns
    intro x ty' truth'' hmem hx
    have hmem : .read x ty' truth'' ∈ acts ∨ .read x ty' truth'' ∈ acts' ∨
        .read x ty' truth'' ∈ acts'' := by simpa using hmem
    rcases hmem with hmem | hmem | hmem
    · refine ihl (forall_mem_singleton.mpr (hn.child ?_)) x ty' truth'' hmem hx
      simp [children]
    · refine ihr (forall_mem_singleton.mpr (hn.child ?_)) x ty' truth'' hmem hx
      simp [children]
    · exact ihns hns x ty' truth'' hmem hx

theorem filledFirst_evals
    (h : Evals ns acts truths) (hns : ∀ n ∈ ns, ReadsKnown t known n) : FilledFirst t known acts :=
  .of_reads (reads_of_evals h hns)

theorem filledFirst_eval (h : Evals [e] acts truths)
    (he : ReadsKnown t known e) : FilledFirst t known acts :=
  filledFirst_evals h (forall_mem_singleton.mpr he)

/-- Statements without blocks read what their expressions say. -/
theorem filledFirst_simple {exit : Exit} (h : Runs (.stat n) acts exit)
    (hn : isSimple n = true) (hcs : ∀ c ∈ n.children, ReadsKnown t known c)
    (htarget : ∀ name i value, n = .elementAssign name i value → ¬IsTemp t name) :
    FilledFirst t known acts := by
  have hlast : ∀ act : Act, (∀ x ty truth, act ≠ .read x ty truth) → FilledFirst t known [act] :=
    fun act hact => .quiet fun x ty truth hmem => hact x ty truth (mem_singleton.mp hmem).symm
  cases h with
  | varDef value | assign value | tempDef value | printStat value | callStat value =>
    exact (filledFirst_evals value hcs).seq (hlast _ nofun)
  | @elementAssign name i e acts truth truths values =>
    have hname : FilledFirst t known [.read name .vector truth] := by
      refine .of_reads fun x ty truth' hmem hx => ?_
      grind
    exact hname.seq ((filledFirst_evals values hcs).seq (hlast _ nofun))
  | count => exact hlast _ nofun
  | printNothing => exact .quiet (by simp)
  | returnStat value => exact filledFirst_evals value hcs
  | _ => cases hn

end Exprs

/-! ## Statements -/

/-- Statements that fill temporaries of their own: the uses are declared, each temporary is filled
by as many statements as declare it, and the paths fill before they read.  The names in `known` are
filled before. -/
structure Fills (t : Table) (declared known : List String) (ns : List Node) : Prop where
  uses : ∀ n ∈ ns, TempsDeclared t declared n
  blocks : ∀ n ∈ ns, ∀ b ∈ n.allBlocks, BlockTemps t b
  defs : (ns.flatMap definedTemps).Perm
    (ns.filterMap definedTemp? ++ ns.flatMap declaredTemps)
  reads : ∀ {acts exit}, Runs (.stats ns) acts exit → FilledFirst t known acts
  fills : ∀ {acts}, Runs (.stats ns) acts .next →
    ∀ p ∈ ns.filterMap definedTemp?, p.1 ∈ filled acts

/-- A block that declares the temporaries which its statements fill. -/
structure FillsBlock (t : Table) (declared known : List String) (b : CBlock Node) : Prop where
  uses : TempsDeclared t declared (.block b)
  blocks : ∀ c ∈ (block b).allBlocks, BlockTemps t c
  defs : (block b).definedTemps.Perm (block b).declaredTemps
  reads : ∀ {acts exit}, Runs (.block b) acts exit → FilledFirst t known acts

section Statements

variable {t : Table} {declared known known' : List String} {n : Node} {ns ns' : List Node}
  {b : CBlock Node}

theorem FillsBlock.mono (h : FillsBlock t declared known b)
    (hsub : known ⊆ known') : FillsBlock t declared known' b :=
  ⟨h.uses, h.blocks, h.defs, fun hruns => (h.reads hruns).mono hsub⟩

namespace Fills

theorem mono (h : Fills t declared known ns) (hsub : known ⊆ known') :
    Fills t declared known' ns :=
  ⟨h.uses, h.blocks, h.defs, fun hruns => (h.reads hruns).mono hsub, h.fills⟩

theorem nil : Fills t declared known [] where
  uses := nofun
  blocks := nofun
  defs := .nil
  reads hruns := by
    obtain ⟨rfl, -⟩ := runs_nil hruns
    exact .quiet (by simp)
  fills _ := nofun

/-- Code after code that fills temporaries for it. -/
theorem append (h : Fills t declared known ns)
    (h' : Fills t declared ((ns.filterMap definedTemp?).map Prod.fst ++ known) ns') :
    Fills t declared known (ns ++ ns') where
  uses := forall_mem_append.mpr ⟨h.uses, h'.uses⟩
  blocks := forall_mem_append.mpr ⟨h.blocks, h'.blocks⟩
  defs := by
    refine perm_iff_count.mpr fun p => ?_
    have hcount := h.defs.count_eq p
    have hcount' := h'.defs.count_eq p
    grind
  reads hruns := by
    rcases runs_append hruns with ⟨acts₁, acts₂, rfl, hfirst, hsecond⟩ | ⟨hfirst, -⟩
    · refine (h.reads hfirst).append ((h'.reads hsecond).mono fun x hx => ?_)
      refine mem_append.mpr ((mem_append.mp hx).imp (fun hx => ?_) id)
      obtain ⟨p, hp, rfl⟩ := mem_map.mp hx
      exact h.fills hfirst p hp
    · exact h.reads hfirst
  fills hruns p hp := by
    rcases runs_append hruns with ⟨acts₁, acts₂, rfl, hfirst, hsecond⟩ | ⟨-, hne⟩
    · rw [filterMap_append] at hp
      rw [filled, filterMap_append]
      exact mem_append.mpr ((mem_append.mp hp).imp (h.fills hfirst p) (h'.fills hsecond p))
    · exact absurd rfl hne

/-- Code that needs nothing from the code before. -/
theorem seq (h : Fills t declared known ns) (h' : Fills t declared known ns') :
    Fills t declared known (ns ++ ns') :=
  h.append (h'.mono fun _ => mem_append_right _)

theorem flatMap {code : Node → List Node}
    (h : ∀ c ∈ cs, Fills t declared known (code c)) : Fills t declared known (cs.flatMap code) := by
  induction cs with
  | nil => exact .nil
  | cons c cs ih =>
    obtain ⟨hc, hcs⟩ := forall_mem_cons.mp h
    exact hc.seq (ih hcs)

/-- Code after a setup. -/
theorem after {s : Setup} (hs : s.stats.filterMap definedTemp? = s.temps)
    (h : Fills t declared known s.stats) (h' : Fills t declared (s.names ++ known) ns) :
    Fills t declared known (s.stats ++ ns) :=
  h.append (by rwa [hs])

/-- A statement over expressions and blocks. -/
theorem upon (cs : List Node) (bs : List (CBlock Node)) (hn : n.children = cs ++ bs.map block)
    (hblock : n.block? = none) (hslot : n.SlotIn t declared) (hsub : known ⊆ declared)
    (hcs : ∀ c ∈ cs, ReadsKnown t known c) (hbs : ∀ b ∈ bs, FillsBlock t declared known b)
    (hreads : ∀ {acts exit}, Runs (.stat n) acts exit → FilledFirst t known acts)
    (hfills : ∀ {acts}, Runs (.stat n) acts .next → ∀ p ∈ n.definedTemp?, p.1 ∈ filled acts) :
    Fills t declared known [n] := by
  have hblocks : n.allBlocks = bs.flatMap fun b => (block b).allBlocks := by
    rw [allBlocks, collect_over _ _ hn fun c hc => sparse_blocks.exprs (hcs c hc).operations,
      hblock, flatMap_map]
    exact append_nil _
  have hdeclared : n.declaredTemps = bs.flatMap fun b => (block b).declaredTemps := by
    rw [declaredTemps, hblocks, flatMap_assoc]
    rfl
  have hdefined : n.definedTemps =
      (bs.flatMap fun b => (block b).definedTemps) ++ n.definedTemp?.toList := by
    rw [definedTemps, collect_over _ _ hn fun c hc => sparse_defs.exprs (hcs c hc).operations,
      flatMap_map]
    rfl
  have hown : [n].filterMap definedTemp? = n.definedTemp?.toList := by
    cases hdef : n.definedTemp? <;> simp [hdef]
  refine ⟨forall_mem_singleton.mpr (.of_children ?_ hslot ?_),
    forall_mem_singleton.mpr ?_, ?_, fun hruns => ?_, fun hruns => ?_⟩
  · rw [opens, hblock]
    rfl
  · rw [hn]
    refine forall_mem_append.mpr ⟨fun c hc => (hcs c hc).temps.mono hsub, ?_⟩
    exact forall_mem_map.mpr fun b hb => (hbs b hb).uses
  · rw [hblocks]
    intro d hd
    obtain ⟨b, hb, hd⟩ := mem_flatMap.mp hd
    exact (hbs b hb).blocks d hd
  · rw [flatMap_singleton, flatMap_singleton, hown, hdefined, hdeclared]
    exact ((List.Perm.flatMap_left bs fun b hb => (hbs b hb).defs).append_right _).trans
      perm_append_comm
  · rcases runs_singleton hruns with hruns | ⟨rfl, -⟩
    · exact hreads hruns
    · exact .quiet (by simp)
  · rw [hown]
    rcases runs_singleton hruns with hruns | ⟨-, hexit⟩
    · exact fun p hp => hfills hruns p (Option.mem_toList.mp hp)
    · cases hexit

/-- A statement without blocks that fills no temporary. -/
theorem simple (hn : isSimple n = true) (hdef : n.definedTemp? = none) (hslot : n.SlotIn t declared)
    (hsub : known ⊆ declared) (hcs : ∀ c ∈ n.children, ReadsKnown t known c)
    (htarget : ∀ name i value, n = .elementAssign name i value → ¬IsTemp t name) :
    Fills t declared known [n] := by
  have hblock : n.block? = none := by
    cases n <;> first | rfl | cases hn
  refine .upon n.children [] (append_nil _).symm hblock hslot hsub hcs nofun
    (fun hruns => filledFirst_simple hruns hn hcs htarget) fun _ p hp => ?_
  rw [hdef] at hp
  cases hp

/-- A statement without blocks on variables. -/
theorem stat (hn : isSimple n = true) (hmarks : n.marksTemp = false) (hdef : n.definedTemp? = none)
    (hslot : ∀ x ∈ n.slot?, ¬IsTemp t x) (hsub : known ⊆ declared)
    (hcs : ∀ c ∈ n.children, ReadsKnown t known c) : Fills t declared known [n] := by
  refine .simple hn hdef
    (fun x hx => ⟨fun hmark => ?_, fun htemp => absurd htemp (hslot x hx)⟩) hsub hcs ?_
  · rw [hmarks] at hmark
    cases hmark
  · rintro name i value rfl
    exact hslot name rfl

theorem count {slot : String} (hslot : IsTemp t slot → slot ∈ declared) :
    Fills t declared known [.count kind slot] := by
  have hnone : Fills t declared [] [.count kind slot] := by
    refine .simple rfl rfl (fun x hx => ?_) nofun nofun nofun
    cases hx
    exact ⟨nofun, hslot⟩
  exact hnone.mono nofun

theorem counts (hslots : ∀ x ∈ slots, IsTemp t x → x ∈ declared) :
    Fills t declared known (slots.map (Node.count kind)) := by
  induction slots with
  | nil => exact .nil
  | cons slot slots ih =>
    obtain ⟨hslot, hslots⟩ := forall_mem_cons.mp hslots
    have hfirst : Fills t declared known [.count kind slot] := .count hslot
    exact hfirst.seq (ih hslots)

section

variable (hname : IsTemp t name)
    (hmem : name ∈ declared)
    (hsub : known ⊆ declared)
    (hvalue : ReadsKnown t known value)

include hname hmem hsub hvalue

theorem tempDef {refInserted : Bool} :
    Fills t declared known [.tempDef name ty refInserted (some value)] := by
  refine .upon [value] [] rfl rfl (fun x hx => ?_) hsub (forall_mem_singleton.mpr hvalue)
    nofun (fun hruns => ?_) fun hruns p hp => ?_
  · cases hx
    exact ⟨fun _ => hname, fun _ => hmem⟩
  · exact filledFirst_simple hruns rfl (forall_mem_singleton.mpr hvalue) nofun
  · cases hp
    cases hruns with
    | tempDef => simp [filled]

/-- A value is given to a temporary. -/
theorem define {adopts : Bool} :
    Fills t declared known (define name ty value adopts).stats := by
  have hdef : Fills t declared known [.tempDef name ty true (some value)] :=
    tempDef hname hmem hsub hvalue
  have hrefer : Fills t declared known (if ty.isHeap && !adopts then [.refer name] else []) := by
    split
    · exact .count fun _ => hmem
    · exact .nil
  exact hdef.seq hrefer

end

/-- A conditional statement. -/
theorem ifStat (other : Option (CBlock Node))
    (hsub : known ⊆ declared) (hc : ReadsKnown t known c) (hb : FillsBlock t declared known b)
    (hother : ∀ d ∈ other, FillsBlock t declared known d) :
    Fills t declared known [.ifStat (some c) (some (.block b)) (other.map block)] := by
  have htest : FilledFirst t known [.use 1] := .quiet (by simp)
  refine .upon [c] (b :: other.toList) ?_ rfl nofun hsub (forall_mem_singleton.mpr hc)
    (forall_mem_cons.mpr ⟨hb, fun d hd => hother d (Option.mem_toList.mp hd)⟩)
    (fun hruns => ?_) nofun
  · cases other <;> rfl
  · generalize hno : other.map block = no at hruns
    cases hruns with
    | ifYes cond branch => exact (filledFirst_eval cond hc).seq (htest.seq (hb.reads branch))
    | @ifNo _ _ d _ _ _ cond branch =>
      cases other with
      | none => cases hno
      | some d =>
        cases hno
        exact (filledFirst_eval cond hc).seq (htest.seq ((hother d rfl).reads branch))
    | ifSkip cond => exact (filledFirst_eval cond hc).seq htest

/-- A loop. -/
theorem whileStat (hsub : known ⊆ declared)
    (hc : ReadsKnown t known c) (hb : FillsBlock t declared known b) :
    Fills t declared known [.whileStat (some c) (some (.block b))] := by
  have htest : FilledFirst t known [.use 1] := .quiet (by simp)
  refine .upon [c] [b] rfl rfl nofun hsub (forall_mem_singleton.mpr hc)
    (forall_mem_singleton.mpr hb) (fun {acts exit} hruns => ?_) nofun
  -- one round after the other, each from the same known names
  generalize hcode : Code.stat (.whileStat (some c) (some (.block b))) = code at hruns
  induction hruns with
  | whileDone cond =>
    cases hcode
    exact (filledFirst_eval cond hc).seq htest
  | whileAgain cond body _ _ ih =>
    cases hcode
    exact (filledFirst_eval cond hc).seq (htest.seq ((hb.reads body).seq (ih rfl)))
  | whileBroke cond body | whileStop cond body =>
    cases hcode
    exact (filledFirst_eval cond hc).seq (htest.seq (hb.reads body))
  | _ => cases hcode

theorem blockStat (hb : FillsBlock t declared known b)
    (hsub : known ⊆ declared) : Fills t declared known [.blockStat (some (.block b))] := by
  refine .upon [] [b] rfl rfl nofun hsub nofun (forall_mem_singleton.mpr hb)
    (fun hruns => ?_) nofun
  cases hruns with
  | blockStat inner => exact hb.reads inner

end Fills

/-- A block among statements. -/
theorem FillsBlock.inner (h : FillsBlock t declared known b) :
    Fills t declared known [.block b] where
  uses := forall_mem_singleton.mpr h.uses
  blocks := forall_mem_singleton.mpr h.blocks
  defs := by
    rw [flatMap_singleton, flatMap_singleton]
    exact h.defs
  reads hruns := by
    rcases runs_singleton hruns with hruns | ⟨rfl, -⟩
    · cases hruns with
      | inner inner => exact h.reads inner
    · exact .quiet (by simp)
  fills _ := nofun

/-- **A block** is in order if its statements are, and if it declares what they fill. -/
theorem FillsBlock.of_stats
    (hlocals : ∀ p ∈ b.locals, (∃ ty, p.2 = .tempDecl p.1 ty ∧ IsTemp t p.1) ∨
      ∃ ty, p.2 = .varDecl p.1 ty false ∧ IsVarName t p.1)
    (htemps : ∀ p ∈ b.temps, ∃ name ty, p.2 = .tempDecl name ty)
    (hstats : Fills t (b.localNames ++ declared) known (b.stats ++ b.cleanup))
    (hown : (b.stats ++ b.cleanup).filterMap definedTemp? = b.localTemps)
    (hapart : ∀ x ∈ b.localNames, IsTemp t x → x ∉ known) : FillsBlock t declared known b := by
  have hchildren := children_block b
  have hdecls : ∀ p ∈ b.locals ++ b.temps, ∃ name ty isTemp, p.2 = .varDecl name ty isTemp := by
    refine forall_mem_append.mpr ⟨fun p hp => ?_, fun p hp => ?_⟩
    · rcases hlocals p hp with ⟨ty, heq, -⟩ | ⟨ty, heq, -⟩ <;> exact ⟨_, _, _, heq⟩
    · obtain ⟨name, ty, heq⟩ := htemps p hp
      exact ⟨name, ty, true, heq⟩
  have hblocks : (block b).allBlocks = (b.stats ++ b.cleanup).flatMap allBlocks ++ [b] :=
    collect_block (fun _ _ _ => rfl) hdecls
  have hdefined : (block b).definedTemps = (b.stats ++ b.cleanup).flatMap definedTemps := by
    rw [definedTemps, collect_block (fun _ _ _ => rfl) hdecls]
    exact append_nil _
  have hreads : ∀ {acts exit}, Runs (.block b) acts exit → FilledFirst t known acts := by
    intro acts exit hruns
    obtain ⟨inner, rfl, hinner⟩ := runs_block hruns
    have henter : FilledFirst t known [.enter b.heapSlots] := .quiet (by simp)
    refine henter.seq ((hstats.reads hinner).seq (.quiet ?_))
    cases exit <;> simp [leaving]
  refine ⟨.intro nofun ?_, fun c hc => ?_, ?_, hreads⟩
  · rw [hchildren]
    refine forall_mem_append.mpr ⟨fun c hc => ?_, hstats.uses⟩
    obtain ⟨p, hp, rfl⟩ := mem_map.mp hc
    obtain ⟨name, ty, isTemp, heq⟩ := hdecls p hp
    rw [heq]
    exact .of_children rfl nofun nofun
  · rw [hblocks] at hc
    rcases mem_append.mp hc with hc | hc
    · obtain ⟨n, hn, hc⟩ := mem_flatMap.mp hc
      exact hstats.blocks n hn c hc
    · obtain rfl := mem_singleton.mp hc
      refine ⟨hlocals, fun hruns x hx htemp before ty truth after heq => ?_⟩
      exact (hreads hruns before x ty truth after heq htemp).resolve_left (hapart x hx htemp)
  · have hdefs := hstats.defs
    rw [hown] at hdefs
    have hdeclared : (block b).declaredTemps =
        (b.stats ++ b.cleanup).flatMap declaredTemps ++ b.localTemps := by
      rw [declaredTemps, hblocks, flatMap_append, flatMap_assoc, flatMap_singleton]
      rfl
    grind

end Statements

/-! ## Moved expressions -/

namespace Counting

/-- An expression whose temporaries have different names; those that it reads are known. -/
structure Supplied (t : Table) (declared known : List String) (e : Node) : Prop where
  apart : TempsApart t e
  isTemp : ∀ x ∈ e.reserved, IsTemp t x
  free : ∀ x ∈ e.freeTemps, IsTemp t x ∧ x ∈ known
  sub : known ⊆ declared

section Moving

variable {t : Table} {declared known : List String} {e m n : Node} {s : Setup} {temp : String}

theorem Supplied.child (h : Supplied t declared known n) (hop : n.isOperation = true)
    (hvar : n.kind ≠ .varRef) (hc : c ∈ n.children) : Supplied t declared known c where
  apart := h.apart.child hop hvar hc
  isTemp x hx := h.isTemp x (mem_reserved_child hc hx)
  free x hx := h.free x (mem_freeTemps_child hop hvar hc hx)
  sub := h.sub

theorem Supplied.operands {kind : OperandKind} {operandTy : Ty} {l r : Node}
    (h : Supplied t declared known (.binary kind op ty operandTy temp (some l) (some r))) :
    Supplied t declared known l ∧ Supplied t declared known r := by
  have hvar : (binary kind op ty operandTy temp (some l) (some r)).kind ≠ .varRef := by
    cases kind <;> nofun
  exact ⟨h.child rfl hvar (by simp [children]),
    h.child rfl hvar (by simp [children])⟩

/-- The parts of a binding.  The body also reads what the value was put in. -/
theorem Supplied.bound {v b : Node} (more : List String)
    (h : Supplied t declared known (.bind name .vector (some v) (some b)))
    (hmore : more ⊆ declared) (hname : name ∈ more) (hknown : known ⊆ more) :
    IsTemp t name ∧ Supplied t declared known v ∧ Supplied t declared more b := by
  obtain ⟨hv, hb, -, -⟩ := h.apart.bound
  have hreserved := h.isTemp
  have hfree := h.free
  rw [reserved_bind] at hreserved
  rw [freeTemps_bind] at hfree
  have htemp : IsTemp t name := hreserved name (by simp)
  refine ⟨htemp,
    ⟨hv, fun x hx => hreserved x (by simp [hx]), fun x hx => hfree x (by simp [hx]), h.sub⟩,
    hb, fun x hx => hreserved x (by simp [hx]), fun x hx => ?_, hmore⟩
  grind

theorem readsKnown_guard (htemp : IsTemp t temp) (hmem : temp ∈ known) :
    ReadsKnown t known (guard op temp) := by
  have hleft : ReadsKnown t known (.temp temp .boolean) := .temp .boolean htemp hmem
  unfold guard
  extract_lets left
  split
  · exact hleft
  · exact .of_operands rfl nofun (forall_mem_singleton.mpr hleft)

/-- A right operand is evaluated in a block of its own, which declares the temporaries of the
operand. What the operand reads besides is in `inner`. -/
theorem fills_rightOperand {right : Node} {inner : List String}
    (htemp : IsTemp t temp) (hmem : temp ∈ known) (hsub : known ⊆ declared)
    (hinner : inner ⊆ known) (hs : s.stats.filterMap definedTemp? = s.temps)
    (hnodup : s.names.Nodup) (hnames : ∀ x ∈ s.names, IsTemp t x ∧ x ∉ inner)
    (hstats : Fills t (s.names ++ declared) inner s.stats)
    (hright : ReadsKnown t (s.names ++ inner) right) :
    Fills t declared known [rightOperand op temp s (some right)] := by
  have hlocals : (guardBlock temp s right).locals = s.decls :=
    insertEntries_eq (by simpa using hnodup)
  have hlocalNames : (guardBlock temp s right).localNames = s.names := by
    rw [CBlock.localNames, hlocals, Setup.fst_decls]
  have hlocalTemps : (guardBlock temp s right).localTemps = s.temps := by
    simp [CBlock.localTemps, hlocals, Setup.decls, tempDecl, declaredTemp?, Function.comp_def]
  have hreleases : (guardBlock temp s right).cleanup = releases (heapNames s.temps).reverse :=
    s.releases_eq
  have hassign : Fills t (s.names ++ declared) (s.names ++ inner)
      [.assign temp .boolean "" (some right)] := by
    refine .simple rfl rfl (fun x hx => ?_) (fun x hx => ?_) (forall_mem_singleton.mpr hright)
      (by simp)
    · cases hx
      grind
    · grind
  have hcleanup : Fills t (s.names ++ declared) inner (releases (heapNames s.temps).reverse) := by
    refine .counts fun x hx _ => mem_append_left _ ?_
    exact (heapNames_sublist s.temps).subset (mem_reverse.mp hx)
  have hblock : FillsBlock t declared inner (guardBlock temp s right) := by
    refine .of_stats (fun p hp => ?_) (forall_mem_nil _) ?_ ?_ fun x hx _ => ?_
    · rw [hlocals] at hp
      obtain ⟨q, hq, rfl⟩ := mem_map.mp hp
      exact .inl ⟨q.2, rfl, (hnames q.1 (mem_map_of_mem hq)).1⟩
    · rw [hlocalNames, hreleases]
      exact (hstats.after hs hassign).seq hcleanup
    · rw [hlocalTemps, hreleases, filterMap_append,
        show (guardBlock temp s right).stats = s.stats ++
          [.assign temp .boolean "" (some right)] from rfl,
        filterMap_append, hs]
      simp [releases, definedTemp?, release, Function.comp_def]
    · exact (hnames x (hlocalNames ▸ hx)).2
  rw [rightOperand_eq]
  exact .ifStat none hsub (readsKnown_guard htemp hmem) (hblock.mono hinner) (by simp)

/-- **Moved expressions** fill the temporaries that they are read from. -/
theorem Moved.fills (h : Moved e s m) (hsupplied : Supplied t declared known e)
    (hnames : s.names ⊆ declared) :
    Fills t declared known s.stats ∧ ReadsKnown t (s.names ++ known) m := by
  induction h generalizing declared known with
  | @var name ty isTemp =>
    refine ⟨.nil, .var (fun hmark => ?_) fun htemp => ?_⟩
    · subst hmark
      exact (hsupplied.free name (.head _)).1
    · cases isTemp with
      | true => exact (hsupplied.free name (.head _)).2
      | false => exact absurd rfl (htemp.ne (hsupplied.apart.expr.here rfl))
  | @operation n operation notVar strict children ih =>
    have hsub : ∀ c ∈ n.children, (hoist c).1.names ⊆
        (Setup.join (n.children.map fun c => (hoist c).1)).names := by
      intro c hc x hx
      obtain ⟨p, hp, rfl⟩ := mem_map.mp hx
      exact mem_map_of_mem (temps_join hc hp)
    have hchild := fun c hc => ih c hc (hsupplied.child operation notVar hc)
      (Subset.trans (hsub c hc) hnames)
    refine ⟨?_, .of_operands ((isOperation_mapChildren _).trans operation)
      ((kind_mapChildren _).symm ▸ notVar) ?_⟩
    · show Fills t declared known ((n.children.map fun c => (hoist c).1).flatMap Setup.stats)
      rw [flatMap_map]
      exact .flatMap fun c hc => (hchild c hc).1
    · rw [children_mapChildren]
      refine forall_mem_map.mpr fun c hc => (hchild c hc).2.mono fun x hx => ?_
      grind
  | @fresh n name ty operation notVar strict temp type heap operands ih =>
    rw [names_append] at hnames ⊢
    have hname : name ∈ declared := hnames (by simp [names, define])
    have htemp := hsupplied.isTemp name (mem_reserved_own (mem_ownNames_of_temp? temp))
    have hfirst := (append_subset.mp hnames).1
    obtain ⟨hstats, hm⟩ := ih hsupplied hfirst
    exact ⟨hstats.after operands.definedTemps (.define htemp hname
      (append_subset.mpr ⟨hfirst, hsupplied.sub⟩) hm),
      .temp ty htemp (by simp [names, define])⟩
  | @inPlace op temp ty operandTy l r logical left right still ihl ihr =>
    obtain ⟨hl, hr⟩ := hsupplied.operands
    have hnone : (hoist r).1.names = [] := by
      rw [names, ← right.definedTemps, still]
      rfl
    obtain ⟨hstats, hl⟩ := ihl hl hnames
    obtain ⟨-, hr⟩ := ihr hr (by rw [hnone]; simp)
    rw [hnone, nil_append] at hr
    refine ⟨hstats, .of_operands rfl (by rintro ⟨⟩) (forall_mem_cons.mpr ⟨hl, ?_⟩)⟩
    exact forall_mem_singleton.mpr (hr.mono fun x => mem_append_right _)
  | @guarded op temp ty operandTy l r logical left right stirred ihl ihr =>
    obtain ⟨hl, hr⟩ := hsupplied.operands
    have htemp : IsTemp t temp := by
      apply hsupplied.isTemp
      rw [reserved_binary]
      exact mem_append_right _ (.head _)
    have hleft : (hoist l).1.names ⊆ declared := fun x hx =>
      hnames (by simp [names_append, hx])
    have hmem : temp ∈ declared := hnames (by simp [names, define])
    have hsub : (hoist l).1.names ++ known ⊆ declared :=
      append_subset.mpr ⟨hleft, hsupplied.sub⟩
    -- the block of the right operand knows what the operand reads, and nothing of its own
    have hinner : Supplied t ((hoist r).1.names ++ declared) r.freeTemps r :=
      ⟨hr.apart, hr.isTemp, fun x hx => ⟨(hr.free x hx).1, hx⟩,
        fun x hx => mem_append_right _ (hsupplied.sub (hr.free x hx).2)⟩
    obtain ⟨hlstats, hl⟩ := ihl hl hleft
    obtain ⟨hrstats, hright⟩ := ihr hinner fun x hx => mem_append_left _ hx
    have hrnames : ∀ x ∈ (hoist r).1.names, IsTemp t x ∧ x ∉ r.freeTemps := fun x hx =>
      ⟨hr.isTemp x (right.names_reserved hx), fun hfree =>
        hr.apart.apart x hfree (right.names_reserved hx)⟩
    have hdefine : Fills t declared ((hoist l).1.names ++ known)
        (define temp .boolean (hoist l).2 false).stats := .define htemp hmem hsub hl
    have hguard : Fills t declared ([temp] ++ ((hoist l).1.names ++ known))
        [rightOperand op temp (hoist r).1 (some (hoist r).2)] := by
      refine fills_rightOperand htemp (mem_append_left _ (.head _))
        (fun x hx => ?_) (fun x hx => ?_) right.definedTemps
        (hoist_hoisted hr.apart.expr hr.apart.nodup).prepared.nodup_names hrnames hrstats hright
      · grind
      · exact mem_append_right _ (mem_append_right _ (hr.free x hx).2)
    refine ⟨?_, .temp .boolean htemp (by simp [names, define])⟩
    rw [stats_append, stats_append, append_assoc]
    exact hlstats.after left.definedTemps (hdefine.after (definedTemps_define ..) hguard)
  | @bind name v b m s value body ihv ihb =>
    have hvalue : (hoist v).1.names ⊆ declared := fun x hx =>
      hnames (by simp [names_append, hx])
    have hmem : name ∈ declared := hnames (by simp [names, define])
    have hsub : (hoist v).1.names ++ known ⊆ declared :=
      append_subset.mpr ⟨hvalue, hsupplied.sub⟩
    obtain ⟨htemp, hv, hb⟩ := hsupplied.bound ([name] ++ ((hoist v).1.names ++ known))
      (cons_subset.mpr ⟨hmem, hsub⟩)
      (by simp) fun x hx => by simp [hx]
    obtain ⟨hvstats, hv⟩ := ihv hv hvalue
    obtain ⟨hbstats, hm⟩ := ihb hb fun x hx => hnames (by simp [names_append, hx])
    have hdefine : Fills t declared ((hoist v).1.names ++ known)
        (define name .vector (hoist v).2 false).stats := .define htemp hmem hsub hv
    refine ⟨?_, hm.mono fun x hx => ?_⟩
    · rw [stats_append, stats_append, append_assoc]
      exact hvstats.after value.definedTemps (hdefine.after (definedTemps_define ..) hbstats)
    · have hdef : (define name .vector (hoist v).2 false).names = [name] := rfl
      simp only [names_append, hdef, mem_append] at hx ⊢
      tauto

end Moving

/-! ## Statements without blocks -/

section Leaves

variable {t : Table} {declared : List String} {e n : Node} {s : Setup} {code : List Node}
    {holderTy : Ty}

/-- A heap value is held by a temporary of its setup. -/
theorem HeldIn.fills {capture holder : String}
    (h : HeldIn capture ty e s holder holderTy) (hsupplied : Supplied t declared [] e)
    (hcapture : IsTemp t capture) (hnames : s.names ⊆ declared) :
    Fills t declared [] s.stats ∧ ReadsKnown t s.names (.temp holder holderTy) := by
  cases h with
  | found moved =>
    obtain ⟨hstats, hm⟩ := moved.fills hsupplied hnames
    rw [append_nil] at hm
    exact ⟨hstats, hm⟩
  | @captured m s moved =>
    rw [names_append] at hnames
    obtain ⟨hfirst, hlast⟩ := append_subset.mp hnames
    obtain ⟨hstats, hm⟩ := moved.fills hsupplied hfirst
    have hmem : capture ∈ (define capture ty m false).names := .head _
    refine ⟨hstats.after moved.definedTemps (.define hcapture (hlast hmem)
      (by simpa using hfirst) hm), ?_⟩
    rw [names_append]
    exact .temp ty hcapture (mem_append_right _ hmem)

theorem HeldIn.definedTemps {capture holder : String}
    (h : HeldIn capture ty e s holder holderTy) : s.stats.filterMap definedTemp? = s.temps := by
  cases h with
  | found moved => exact moved.definedTemps
  | captured moved =>
    rw [stats_append, filterMap_append, moved.definedTemps, definedTemps_define]
    rfl

/-- **Statements without blocks** fill the temporaries that they read. -/
theorem StatForm.fills (h : StatForm sweep n code)
    (hexprs : ∀ c ∈ n.children, Supplied t declared [] c) (hown : ∀ x ∈ n.ownNames, IsTemp t x)
    (htarget : ∀ x ∈ n.slot?, ¬IsTemp t x)
    (hdeclared : ∀ p ∈ code.filterMap definedTemp?, p.1 ∈ declared)
    (hsweep : ∀ x ∈ sweep, IsTemp t x → x ∈ declared) : Fills t declared [] code := by
  have hnames : ∀ (before : List Node) {s : Setup} {rest : List Node},
      s.stats.filterMap definedTemp? = s.temps → code = before ++ (s.stats ++ rest) →
        s.names ⊆ declared := by
    rintro before s rest hs rfl x hx
    obtain ⟨p, hp, rfl⟩ := mem_map.mp hx
    grind
  -- one expression is moved, or two are, and a statement follows
  have hmoved : ∀ {e m : Node} {s : Setup} {rest : List Node}, Moved e s m → e ∈ n.children →
      code = s.stats ++ rest → (s.names ⊆ declared → ReadsKnown t s.names m →
        Fills t declared s.names rest) → Fills t declared [] code := by
    intro e m s rest moved he hcode hrest
    have hsub := hnames [] moved.definedTemps hcode
    obtain ⟨hstats, hm⟩ := moved.fills (hexprs e he) hsub
    rw [append_nil] at hm
    rw [hcode]
    exact hstats.after moved.definedTemps (by rw [append_nil]; exact hrest hsub hm)
  have htwo : ∀ {l r l' r' : Node} {s s' : Setup} {rest : List Node}, Moved l s l' → Moved r s' r' →
      Supplied t declared [] l → Supplied t declared [] r → code = s.stats ++ s'.stats ++ rest →
        (s'.names ++ s.names ⊆ declared → ReadsKnown t (s'.names ++ s.names) l' →
          ReadsKnown t (s'.names ++ s.names) r' → Fills t declared (s'.names ++ s.names) rest) →
            Fills t declared [] code := by
    intro l r l' r' s s' rest left right hl hr hcode hrest
    rw [append_assoc] at hcode
    have hfirst := hnames [] left.definedTemps hcode
    have hsecond := hnames _ right.definedTemps hcode
    obtain ⟨hlstats, hl'⟩ := left.fills hl hfirst
    obtain ⟨hrstats, hr'⟩ := right.fills hr hsecond
    rw [append_nil] at hl' hr'
    rw [hcode]
    refine hlstats.after left.definedTemps ((hrstats.mono (by simp)).after right.definedTemps ?_)
    rw [append_nil]
    exact hrest (forall_mem_append.mpr ⟨hsecond, hfirst⟩) (hl'.mono fun x => mem_append_right _)
      (hr'.mono fun x => mem_append_left _)
  have hheld : ∀ {capture holder : String} {ty holderTy : Ty} {e : Node} {s : Setup}
    {rest : List Node},
      HeldIn capture ty e s holder holderTy → e ∈ n.children → capture ∈ n.ownNames →
        code = s.stats ++ rest → ((s.names ⊆ declared) →
          ReadsKnown t s.names (.temp holder holderTy) → Fills t declared s.names rest) →
            Fills t declared [] code := by
    intro capture holder ty holderTy e s rest held he hcapture hcode hrest
    have hsub := hnames [] held.definedTemps hcode
    obtain ⟨hstats, hm⟩ := held.fills (hexprs e he) (hown capture hcapture) hsub
    rw [hcode]
    exact hstats.after held.definedTemps (by rw [append_nil]; exact hrest hsub hm)
  have hcount : ∀ {known : List String} (kind : CountKind) {x : String}, x ∈ n.slot? →
      Fills t declared known [.count kind x] := fun kind x hx =>
    .count fun htemp => absurd htemp (htarget x hx)
  cases h with
  | @varDef name ty e m s moved =>
    refine hmoved moved (.head _) rfl fun hsub hm => ?_
    have hdef : Fills t declared s.names [.varDef name ty (some m)] :=
      .stat rfl rfl rfl htarget hsub (forall_mem_singleton.mpr hm)
    have hrefer : Fills t declared s.names (if ty.isHeap then [.refer name] else []) := by
      split
      · exact hcount _ rfl
      · exact .nil
    exact hdef.seq hrefer
  | assign heap moved =>
    exact hmoved moved (.head _) rfl fun hsub hm =>
      .stat rfl rfl rfl htarget hsub (forall_mem_singleton.mpr hm)
  | @assignHeap name capture holder ty holderTy e s heap held =>
    refine hheld held (.head _) (.head _) rfl fun hsub hm => ?_
    have hassign : Fills t declared s.names
        [.assign name ty capture (some (.temp holder holderTy))] :=
      .stat rfl rfl rfl htarget hsub (forall_mem_singleton.mpr hm)
    exact .seq (hcount .deref rfl) (hassign.seq (hcount .ref rfl))
  | @elementAssign name i e i' m s s' place moved =>
    refine htwo place moved (hexprs i (by simp [children]))
      (hexprs e (by simp [children])) rfl fun hsub hi hm => ?_
    exact .stat rfl rfl rfl htarget hsub
      (forall_mem_pair.mpr ⟨hi, hm⟩)
  | printNothing =>
    exact .stat rfl rfl rfl (by rintro _ ⟨⟩) (by simp) (forall_mem_nil _)
  | printStat moved | callStat heap moved strict =>
    exact hmoved moved (.head _) rfl fun hsub hm =>
      .stat rfl rfl rfl (by rintro _ ⟨⟩) hsub (forall_mem_singleton.mpr hm)
  | callHeap heap notVar moved =>
    exact hmoved moved (.head _) (append_nil _).symm fun _ _ => .nil
  | callLogical logical left right =>
    obtain ⟨hl, hr⟩ := (hexprs _ (.head _)).operands
    refine htwo left right hl hr rfl fun hsub hl hr => ?_
    refine .stat rfl rfl rfl (by rintro _ ⟨⟩) hsub
      (forall_mem_singleton.mpr (.of_operands rfl (by rintro ⟨⟩) ?_))
    exact forall_mem_pair.mpr ⟨hl, hr⟩
  | @returnStat capture ty e m s heap moved =>
    refine hmoved moved (.head _) rfl fun hsub hm => ?_
    have hcapture : IsTemp t capture := hown capture (.head _)
    have hmem : capture ∈ declared := hdeclared (capture, ty) (by simp [definedTemp?])
    have hreturn : Fills t declared ([capture] ++ s.names)
        [.returnStat ty capture (some (.temp capture ty))] := by
      refine .stat rfl rfl rfl (by rintro _ ⟨⟩) (forall_mem_cons.mpr ⟨hmem, hsub⟩) ?_
      exact forall_mem_singleton.mpr (.temp ty hcapture (.head _))
    have hdef : Fills t declared s.names [.tempDef capture ty true (some m)] :=
      .tempDef hcapture hmem hsub hm
    exact hdef.append (.seq (.counts hsweep) hreturn)
  | @returnHeap capture holder ty holderTy e s heap held =>
    refine hheld held (.head _) (.head _) rfl fun hsub hm => ?_
    have hrefer : Fills t declared s.names [.refer holder] := .count fun _ => hsub hm.mem_of_temp.2
    have hreturn : Fills t declared s.names
        [.returnStat ty capture (some (.temp holder holderTy))] :=
      .stat rfl rfl rfl (by rintro _ ⟨⟩) hsub (forall_mem_singleton.mpr hm)
    exact hrefer.seq (.seq (.counts hsweep) hreturn)

end Leaves

end Counting

end WichToC

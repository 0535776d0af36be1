import WichToC.Proofs.Counted

/-!
# Walking a model to inject counts

The walk that injects reference counts changes functions and blocks only, each before its children;
`Still` nodes stay as they are.  Statements of setups are `Kept`: they are lowered to themselves, so
that it does no harm to lower them once more at the start of a loop's body.
-/

namespace WichToC

open List Node Slot

namespace Counting

variable {t : Table} {f : Node → Pending} {ns sweep ns' : List Node} {s : Setup} {n c : Node}
  {b : CBlock Node} {slots : List String} {ty : Ty}

/-! ## The walk -/

/-- How the walk goes on below a node that was changed. -/
def below (t : Table) : Nat → Node → Pending
  | 0 => fun n known => (n, known)
  | fuel + 1 => rounds t fuel

theorem rounds_eq (fuel : Nat) (n : Node) :
    rounds t fuel n = roundStep t (below t fuel) n (n.slots.map (mapChildren (rounds t fuel))) := by
  cases fuel <;> exact fold_eq ..

/-- The walk of nodes in order. -/
def walkAll (f : Node → Pending) (ns : List Node) (known : Known) : List Node × Known :=
  threadList (ns.map f) known

theorem walkAll_cons {known : Known} : walkAll f (n :: ns) known =
      ((f n known).1 :: (walkAll f ns (f n known).2).1, (walkAll f ns (f n known).2).2) := rfl

theorem walkAll_append {known : Known} : walkAll f (ns ++ ns') known =
      ((walkAll f ns known).1 ++ (walkAll f ns' (walkAll f ns known).2).1,
        (walkAll f ns' (walkAll f ns known).2).2) := by
  induction ns generalizing known with
  | nil => rfl
  | cons n ns ih =>
    rw [cons_append, walkAll_cons, walkAll_cons, ih]
    rfl

theorem walkAll_eq (h : ∀ n ∈ ns, ∀ known, f n known = (n, known)) (known : Known) :
    walkAll f ns known = (ns, known) := by
  induction ns generalizing known with
  | nil => rfl
  | cons n ns ih =>
    rw [walkAll_cons, h n (.head _), ih fun m hm => h m (.tail n hm)]

theorem thread_eq {s : Slot Node}
    (h : ∀ n ∈ s.toList, ∀ known, f n known = (n, known)) (known : Known) :
    (s.mapChildren f).thread known = (s, known) := by
  cases s with
  | single child =>
    cases child with
    | none => rfl
    | some c =>
      rw [Slot.mapChildren, Option.map_some, Slot.thread, h c (.head _)]
  | sequence cs =>
    have := walkAll_eq h known
    rw [walkAll] at this
    rw [Slot.mapChildren, Slot.thread]
    exact congrArg (fun r : List Node × Known => (sequence r.1, r.2)) this
  | map entries =>
    have : walkAll f (entries.map Prod.snd) known = _ := walkAll_eq h known
    rw [walkAll, map_map] at this
    rw [Slot.mapChildren, Slot.thread, map_map, map_map,
      show threadList (entries.map (Prod.snd ∘ fun x => (x.1, f x.2))) known = _ from this]
    show (map ((entries.map Prod.fst).zip (entries.map Prod.snd)), known) = _
    rw [← unzip_fst, ← unzip_snd, zip_unzip]

theorem thread_sequence {known : Known} : ((sequence ns).mapChildren f).thread known =
      (.sequence (walkAll f ns known).1, (walkAll f ns known).2) := rfl

theorem thread_single {known : Known} : ((single (some n)).mapChildren f).thread known =
      (.single (some (f n known).1), (f n known).2) := rfl

theorem threadAll_eq {ss : List (Slot Node)}
    (h : ∀ s ∈ ss, ∀ n ∈ s.toList, ∀ known, f n known = (n, known)) (known : Known) :
    threadAll (ss.map (mapChildren f)) known = (ss, known) := by
  induction ss generalizing known with
  | nil => rfl
  | cons s ss ih =>
    rw [map_cons, threadAll, thread_eq (h s (.head _))]
    grind

/-- Whether the walk does something at a node. -/
def stirs : Node → Bool
  | .func .. | .mainFunc _ => true
  | .block b => !b.injected
  | _ => false

/-- Nodes that the walk leaves as they are, with all nodes inside. -/
def Still (n : Node) : Prop := n.All fun m => stirs m = false

theorem visit_eq (h : stirs n = false) (known : Known) : visit t n known = (none, known) := by
  cases n <;> first | rfl | cases h | skip
  case block b =>
    have hinjected : b.injected = true := by simpa [stirs] using h
    simp [visit, hinjected]

theorem rounds_of_not_stirs (h : stirs n = false) (fuel : Nat) (known : Known) :
    rounds t fuel n known =
      ((n.withSlots (threadAll (n.slots.map (mapChildren (rounds t fuel))) known).1,
        (threadAll (n.slots.map (mapChildren (rounds t fuel))) known).2)) := by
  rw [rounds_eq, roundStep, visit_eq h]

theorem Still.rounds_eq (h : Still n) (fuel : Nat) (known : Known) :
    rounds t fuel n known = (n, known) := by
  induction h generalizing known with
  | @intro n here inside ih =>
    rw [rounds_of_not_stirs here, threadAll_eq fun s hs c hc => ih c (mem_flatMap.mpr ⟨s, hs, hc⟩)]
    simp [-slots]

/-! ## Nodes without blocks of the script -/

/-- The nodes that setups consist of; a block among them is marked and has no scope. -/
def isFiller : Node → Bool
  | .tempDef .. | .assign .. | .count .. | .ifStat .. | .varDecl .. => true
  | .block b => b.injected && b.scope.isNone
  | n => n.isOperation

/-- A node of a setup, with all nodes inside. -/
def Filler (n : Node) : Prop := n.All fun m => isFiller m = true

theorem stirs_of_isFiller (h : isFiller n = true) : stirs n = false := by
  cases n <;> first | rfl | cases h | skip
  case block b =>
    have hmark : b.injected = true := (Bool.and_eq_true_iff.mp h).1
    simp [stirs, hmark]

theorem Filler.still (h : Filler n) : Still n := h.imp fun _ => stirs_of_isFiller

theorem filler_of_settled (h : n.Settled) : Filler n := by
  refine h.imp fun m hm => ?_
  cases m <;> first | rfl | cases hm.1

theorem filler_of_operands (h : n.OverSettled) : Filler n := by
  refine .intro ?_ fun c hc => filler_of_settled (h.operands c hc)
  have hop := h.operation
  cases n <;> first | rfl | cases hop

theorem filler_temp {name : String} : Filler (.temp name ty) := .intro rfl nofun

theorem filler_count (kind : CountKind) (slot : String) : Filler (.count kind slot) :=
  .intro rfl nofun

/-- A property of all nodes in a block. -/
theorem all_of_block {p : Node → Prop} (here : p (.block b))
    (hlocals : ∀ q ∈ b.locals, q.2.All p) (htemps : b.temps = []) (hstats : ∀ n ∈ b.stats, n.All p)
    (hcleanup : ∀ n ∈ b.cleanup, n.All p) : (block b).All p := by
  refine .intro here fun c hc => ?_
  simp only [children, slots, toList, flatMap_cons, flatMap_nil, htemps,
    map_nil, nil_append, append_nil, mem_append, mem_map] at hc
  grind

/-- A property of all nodes in a conditional statement with one block. -/
theorem all_of_ifStat {p : Node → Prop}
    (here : p (.ifStat (some c) (some (.block b)) none)) (hc : c.All p) (hb : (block b).All p) :
    (ifStat (some c) (some (.block b)) none).All p := by
  refine .intro here fun d hd => ?_
  rcases (show d = c ∨ d = .block b by
    simpa [children] using hd) with rfl | rfl
  · exact hc
  · exact hb

theorem settled_guard (op temp : String) : (guard op temp).Settled := by
  unfold guard
  extract_lets left
  split
  · exact settled_temp temp .boolean
  · refine .intro ⟨rfl, nofun⟩ fun c hc => ?_
    obtain rfl : c = left := by simpa [children] using hc
    exact settled_temp temp .boolean

theorem Setup.releases_eq (s : Setup) :
    s.releases = Counting.releases (heapNames s.temps).reverse := by
  simp [Setup.releases, Counting.releases, heapNames, Function.comp_def]

theorem filler_releases : ∀ n ∈ releases slots, Filler n := by
  intro n hn
  obtain ⟨slot, -, rfl⟩ := mem_map.mp hn
  exact filler_count _ _

theorem Setup.filler_decls (s : Setup) : ∀ p ∈ s.decls, Filler p.2 := by
  intro p hp
  obtain ⟨q, -, rfl⟩ := mem_map.mp hp
  exact .intro rfl nofun

theorem Prepared.filler (h : Prepared s) : ∀ n ∈ s.stats, Filler n := by
  induction h with
  | nil => nofun
  | append _ _ _ iha ihb => exact fun n hn => (mem_append.mp hn).elim (iha n) (ihb n)
  | @define name ty value adopts operation _ =>
    intro n hn
    rcases mem_cons.mp hn with rfl | hn
    · refine .intro rfl fun c hc => ?_
      obtain rfl : c = value := by simpa [children] using hc
      exact filler_of_operands operation
    · split at hn
      · obtain rfl := mem_singleton.mp hn
        exact filler_count _ _
      · cases hn
  | @guarded op temp inner right setup settled ih =>
    intro n hn
    obtain rfl := mem_singleton.mp hn
    refine all_of_ifStat rfl (filler_of_settled (settled_guard op temp))
      (all_of_block rfl ?_ rfl ?_ ?_)
    · show ∀ p ∈ insertEntries [] inner.decls, Filler p.2
      rw [insertEntries_eq (by simpa using setup.nodup_names), nil_append]
      exact inner.filler_decls
    · intro n hn
      rcases mem_append.mp hn with hn | hn
      · exact ih n hn
      · obtain rfl := mem_singleton.mp hn
        refine .intro rfl fun c hc => ?_
        obtain rfl : c = right := by simpa [children] using hc
        exact filler_of_settled settled
    · exact fun n hn => filler_releases n (inner.releases_eq ▸ hn)

/-- The kinds of statements without blocks. -/
def isSimple : Node → Bool
  | .varDef .. | .assign .. | .elementAssign .. | .returnStat .. | .printStat .. | .callStat ..
  | .tempDef .. | .count .. => true
  | _ => false

/-- A statement without blocks, over expressions that are hoisted. -/
structure Simple (n : Node) : Prop where
  here : isSimple n = true
  inside : ∀ c ∈ n.children, Filler c

theorem Simple.still (h : Simple n) : Still n := by
  refine .intro ?_ fun c hc => (h.inside c hc).still
  have here := h.here
  cases n <;> first | rfl | cases here

/-! ## Nodes that lowering keeps -/

/-- A node that lowering and the walk keep as it is. -/
structure Kept (n : Node) : Prop where
  lower : lowerStat n = .ofStats [n]
  still : Still n
  returns : isReturn n = false

theorem kept_releases : ∀ n ∈ releases slots, Kept n := by
  intro n hn
  obtain ⟨slot, -, rfl⟩ := mem_map.mp hn
  exact ⟨rfl, (filler_count _ _).still, rfl⟩

theorem kept_ifStat (hc : c.Settled) (hb : Still (.block b)) :
    Kept (.ifStat (some c) (some (.block b)) none) where
  lower := by
    show (hoist c).1 ++ Setup.ofStats [.ifStat (some (hoist c).2) _ _] = _
    rw [hoist_settled hc]
    rfl
  still := all_of_ifStat rfl (filler_of_settled hc).still hb
  returns := rfl

/-- Setups are lowered already. -/
theorem Prepared.kept (h : Prepared s) : ∀ n ∈ s.stats, Kept n := by
  suffices hlower : ∀ n ∈ s.stats, lowerStat n = .ofStats [n] ∧ isReturn n = false from
    fun n hn => ⟨(hlower n hn).1, (h.filler n hn).still, (hlower n hn).2⟩
  induction h with
  | nil => nofun
  | append _ _ _ iha ihb => exact fun n hn => (mem_append.mp hn).elim (iha n) (ihb n)
  | define =>
    intro n hn
    rcases mem_cons.mp hn with rfl | hn
    · exact ⟨rfl, rfl⟩
    · split at hn
      · obtain rfl := mem_singleton.mp hn
        exact ⟨rfl, rfl⟩
      · cases hn
  | @guarded op temp inner right setup settled _ =>
    intro n hn
    have hfiller := Prepared.filler (.guarded setup settled) n hn
    obtain rfl := mem_singleton.mp hn
    have hblock : Filler _ := hfiller.inside _ (.tail _ (.head _))
    exact ⟨(kept_ifStat (settled_guard op temp) hblock.still).lower, rfl⟩

theorem kept_loopExit (hc : c.Settled) : Kept (loopExit s (some c)) := by
  refine kept_ifStat (.intro ⟨rfl, by rintro ⟨⟩⟩ fun d hd => ?_)
    (all_of_block rfl (by simp) rfl ?_ (by simp))
  · obtain rfl : d = c := by simpa [children] using hd
    exact hc
  · intro n hn
    rcases mem_append.mp hn with hn | hn
    · exact (kept_releases n (s.releases_eq ▸ hn)).still
    · obtain rfl := mem_singleton.mp hn
      exact .intro rfl (forall_mem_nil _)

theorem kept_loopStart {cond : Node} (h : Hoisted cond (hoist cond)) :
    ∀ n ∈ (loopStart cond).stats, Kept n := by
  unfold loopStart
  split
  · nofun
  · intro n hn
    rcases mem_append.mp hn with hn | hn
    · exact h.prepared.kept n hn
    · obtain rfl := mem_singleton.mp hn
      exact kept_loopExit h.settled

theorem kept_refers : ∀ n ∈ slots.map refer, Kept n := by
  intro n hn
  obtain ⟨slot, -, rfl⟩ := mem_map.mp hn
  exact ⟨rfl, (filler_count _ _).still, rfl⟩

theorem lowered_kept (h : ∀ n ∈ ns, Kept n) : lowered ns = .ofStats ns := by
  induction ns with
  | nil => rfl
  | cons n ns ih =>
    have ih := ih fun m hm => h m (.tail n hm)
    rw [lowered] at ih
    rw [lowered, map_cons, Setup.join_cons, (h n (.head _)).lower, ih]
    rfl

theorem mem_beforeReturns {ns : List Node} (h : n ∈ beforeReturns sweep ns) :
    n ∈ sweep ∨ n ∈ ns := by
  obtain ⟨m, hm, hn⟩ := mem_flatMap.mp h
  grind

theorem beforeReturns_append :
    beforeReturns sweep (ns ++ ns') = beforeReturns sweep ns ++ beforeReturns sweep ns' :=
  flatMap_append

theorem beforeReturns_returnStat {capture : String} {e : Option Node} :
    beforeReturns sweep [.returnStat ty capture e] = sweep ++ [.returnStat ty capture e] :=
  append_nil _

theorem beforeReturns_eq (h : ∀ n ∈ ns, isReturn n = false) : beforeReturns sweep ns = ns := by
  induction ns with
  | nil => rfl
  | cons n ns ih =>
    have ih := ih fun m hm => h m (.tail n hm)
    rw [beforeReturns] at ih
    rw [beforeReturns, flatMap_cons, h n (.head _), ih]
    rfl

end Counting

end WichToC

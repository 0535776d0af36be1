import Mathlib.Logic.Function.Basic
import WichToC.Proofs.Paths
import WichToC.Proofs.Sweeps

/-!
# Slots on paths

On a path through code with counts every heap slot can be followed: it starts empty, it owns a
reference after a store and the `ref` that follows, or after the store of a call's result, and it is
empty again after a `deref`.  `Safe` says that no store of a path hits a slot that owns a reference,
and that the slots of the blocks that are left are empty.

`Wp` is the weakest precondition of a piece of code.  There is one rule for each kind of statement;
the effect of a setup follows from them.
-/

namespace WichToC

open List Counting

variable {ns ns' : List Node} {truths : List Bool} {code : Code} {capture slot x name : String}

/-! ## Slots on a path -/

/-- A heap slot: the references that it owns, and whether its value was assigned. -/
structure Held where
  refs : Nat := 0
  assigned : Bool := false

abbrev Slots := String → Held

/-- The slots after an act.  A stored value comes without a reference, unless a temporary stores the
result of a call. -/
def Act.apply (c : Slots) : Act → Slots
  | enter slots => fun x => if x ∈ slots then {} else c x
  | store kind name ty fromCall _ =>
    if ty.isHeap then Function.update c name
      ⟨(kind = .temp && fromCall).toNat, kind = .assign⟩ else c
  | count .ref slot => Function.update c slot { c slot with refs := (c slot).refs + 1 }
  | count .deref slot => Function.update c slot { c slot with refs := (c slot).refs - 1 }
  | _ => c

/-- The slots after several acts. -/
def slotsAfter (c : Slots) (acts : List Act) : Slots := acts.foldl Act.apply c

/-- Nothing leaks at an act: a store hits an empty slot, and the slots of a block that is left are
empty.  A definition may hit a slot whose value was assigned. -/
def Act.Fine (c : Slots) : Act → Prop
  | store kind name ty _ _ =>
    ty.isHeap = true → (c name).refs = 0 ∨ kind = .define ∧ (c name).assigned = true
  | leave slots kept => ∀ x ∈ slots, (c x).refs = if kept = some x then 1 else 0
  | _ => True

/-- Nothing leaks on a path. -/
def Safe : Slots → List Act → Prop
  | _, [] => True
  | c, a :: acts => a.Fine c ∧ Safe (a.apply c) acts

namespace Counting

variable {t : Table} {returns : Bool} {c : Slots} {acts acts' : List Act} (first : Slots → Prop)
    {s : Setup}

theorem slotsAfter_append :
    slotsAfter c (acts ++ acts') = slotsAfter (slotsAfter c acts) acts' := foldl_append

theorem safe_append : Safe c (acts ++ acts') ↔ Safe c acts ∧ Safe (slotsAfter c acts) acts' := by
  induction acts generalizing c with
  | nil => exact (iff_of_eq (true_and _)).symm
  | cons a acts ih =>
    rw [cons_append, Safe, Safe, ih, and_assoc]
    rfl

/-- Whether an act has nothing to do with slots. -/
def isQuiet : Act → Bool
  | .read .. | .operate _ | .left .. | .use _ => true
  | _ => false

theorem evals_quiet (h : Evals ns acts truths) : ∀ a ∈ acts, isQuiet a = true := by
  induction h with
  | nil => nofun
  | read _ ih => exact forall_mem_cons.mpr ⟨rfl, ih⟩
  | operate _ _ _ _ _ _ ihc ih =>
    exact forall_mem_append.mpr ⟨ihc, forall_mem_cons.mpr ⟨rfl, ih⟩⟩
  | decided _ _ _ _ ihl ih =>
    exact forall_mem_append.mpr ⟨ihl, forall_mem_cons.mpr ⟨rfl, ih⟩⟩
  | undecided _ _ _ _ _ ihl ihr ih =>
    exact forall_mem_append.mpr ⟨ihl, forall_mem_cons.mpr ⟨rfl,
      forall_mem_cons.mpr ⟨rfl, forall_mem_append.mpr ⟨ihr, ih⟩⟩⟩⟩

theorem slotsAfter_quiet (h : ∀ a ∈ acts, isQuiet a = true) : slotsAfter c acts = c := by
  induction acts generalizing c with
  | nil => rfl
  | cons a acts ih =>
    have ha : a.apply c = c := by
      have := h a (.head _)
      cases a <;> first | rfl | cases this
    show slotsAfter (a.apply c) acts = c
    rw [ha, ih fun b hb => h b (.tail a hb)]

theorem safe_quiet (h : ∀ a ∈ acts, isQuiet a = true) : Safe c acts := by
  induction acts generalizing c with
  | nil => trivial
  | cons a acts ih =>
    refine ⟨?_, ih fun b hb => h b (.tail a hb)⟩
    have := h a (.head _)
    cases a <;> trivial

/-- A definition may give the slot a value. -/
def Overwritable (c : Slots) (x : String) : Prop := (c x).refs = 0 ∨ (c x).assigned = true

/-- Nothing leaks on the paths through code that start with the slots `c`, and unless they are cut
off, `Q` holds where they end. -/
def Wp (code : Code) (Q : Exit → Slots → Prop) (c : Slots) : Prop :=
  ∀ acts exit, Runs code acts exit →
    Safe c acts ∧ (exit ≠ .cut → Q exit (slotsAfter c acts))

/-- What is to hold after the first of two pieces of code. -/
def andThen (Q : Exit → Slots → Prop) : Exit → Slots → Prop
  | .next => first
  | exit => Q exit

section Rules

variable {Q Q' : Exit → Slots → Prop} {ns : List Node} {n e cond : Node} {name : String} {ty : Ty}
  {slots : List String} {exit : Exit} {b : CBlock Node}

@[simp] theorem andThen_next : andThen first Q .next = first := rfl

theorem Wp.mono (h : Wp code Q c)
    (hQ : ∀ exit c', exit ≠ .cut → Q exit c' → Q' exit c') : Wp code Q' c :=
  fun acts exit hrun => ⟨(h acts exit hrun).1, fun hne => hQ _ _ hne ((h acts exit hrun).2 hne)⟩

theorem wp_nil (h : Q .next c) : Wp (.stats []) Q c := by
  intro acts exit hrun
  obtain ⟨rfl, rfl⟩ := runs_nil hrun
  exact ⟨trivial, fun _ => h⟩

theorem wp_append (h : Wp (.stats ns) (andThen (Wp (.stats ns') Q) Q) c) :
    Wp (.stats (ns ++ ns')) Q c := by
  intro acts exit hrun
  rcases runs_append hrun with ⟨acts₁, acts₂, rfl, hfirst, hsecond⟩ | ⟨hfirst, hne⟩
  · obtain ⟨hsafe, hnext⟩ := h acts₁ .next hfirst
    obtain ⟨hsafe', hexit⟩ := hnext nofun acts₂ exit hsecond
    rw [slotsAfter_append]
    exact ⟨safe_append.mpr ⟨hsafe, hsafe'⟩, hexit⟩
  · refine ⟨(h acts exit hfirst).1, fun hcut => ?_⟩
    have := (h acts exit hfirst).2 hcut
    cases exit <;> first | exact this | exact absurd rfl hne

theorem wp_cons (h : Wp (.stat n) (andThen (Wp (.stats ns) Q) Q) c) :
    Wp (.stats (n :: ns)) Q c := by
  intro acts exit hrun
  cases hrun with
  | cut => exact ⟨trivial, fun hne => absurd rfl hne⟩
  | cons first rest =>
    obtain ⟨hsafe, hnext⟩ := h _ _ first
    obtain ⟨hsafe', hexit⟩ := hnext nofun _ _ rest
    rw [slotsAfter_append]
    exact ⟨safe_append.mpr ⟨hsafe, hsafe'⟩, hexit⟩
  | stop first ends =>
    refine ⟨(h acts exit first).1, fun hcut => ?_⟩
    have := (h acts exit first).2 hcut
    cases exit <;> first | exact this | exact absurd rfl ends

theorem wp_single (h : Wp (.stat n) Q c) : Wp (.stats [n]) Q c :=
  wp_cons (h.mono fun exit c' _ hQ => by
    cases exit <;> first | exact wp_nil hQ | exact hQ)

/-- A statement that evaluates an expression and then does one thing. -/
theorem wp_of_acts (h : ∀ acts exit, Runs (.stat n) acts exit → ∃ evaluation act,
      acts = evaluation ++ act ∧ (∀ a ∈ evaluation, isQuiet a = true) ∧ Safe c act ∧
        Q exit (slotsAfter c act)) :
    Wp (.stat n) Q c := by
  intro acts exit hrun
  obtain ⟨evaluation, act, rfl, hquiet, hsafe, hQ⟩ := h acts exit hrun
  rw [safe_append, slotsAfter_append, slotsAfter_quiet hquiet]
  exact ⟨⟨safe_quiet hquiet, hsafe⟩, fun _ => hQ⟩

theorem wp_varDef (hfine : ty.isHeap = true → Overwritable c name)
    (h : Q .next (if ty.isHeap then Function.update c name {} else c)) :
    Wp (.stat (.varDef name ty (some e))) Q c := by
  refine wp_of_acts fun acts exit hrun => ?_
  cases hrun with
  | varDef value =>
    refine ⟨_, _, rfl, evals_quiet value, ⟨fun hheap => ?_, trivial⟩, h⟩
    exact (hfine hheap).imp_right fun hassigned => ⟨rfl, hassigned⟩

theorem wp_assign (hfine : ty.isHeap = true → (c name).refs = 0)
    (h : Q .next (if ty.isHeap then Function.update c name { assigned := true } else c)) :
    Wp (.stat (.assign name ty capture (some e))) Q c := by
  refine wp_of_acts fun acts exit hrun => ?_
  cases hrun with
  | assign value =>
    exact ⟨_, _, rfl, evals_quiet value, ⟨fun hheap => .inl (hfine hheap), trivial⟩, h⟩

theorem wp_tempDef {refInserted : Bool} (hfine : ty.isHeap = true → (c name).refs = 0)
    (h : Q .next (if ty.isHeap then Function.update c name { refs := (isCall e).toNat } else c)) :
    Wp (.stat (.tempDef name ty refInserted (some e))) Q c := by
  refine wp_of_acts fun acts exit hrun => ?_
  cases hrun with
  | tempDef value =>
    exact ⟨_, _, rfl, evals_quiet value, ⟨fun hheap => .inl (hfine hheap), trivial⟩, h⟩

theorem wp_refer (h : Q .next (Function.update c slot { c slot with refs := (c slot).refs + 1 })) :
    Wp (.stat (.refer slot)) Q c := by
  refine wp_of_acts fun acts exit hrun => ?_
  cases hrun
  exact ⟨[], _, rfl, nofun, ⟨trivial, trivial⟩, h⟩

theorem wp_release
    (h : Q .next (Function.update c slot { c slot with refs := (c slot).refs - 1 })) :
    Wp (.stat (.release slot)) Q c := by
  refine wp_of_acts fun acts exit hrun => ?_
  cases hrun
  exact ⟨[], _, rfl, nofun, ⟨trivial, trivial⟩, h⟩

/-- The slots after the release of some of them. -/
def released (slots : List String) (c : Slots) : Slots := fun x =>
  { c x with refs := (c x).refs - slots.count x }

theorem released_of_mem (hnodup : slots.Nodup) (hx : x ∈ slots) :
    (released slots c x).refs = (c x).refs - 1 := by
  rw [released, count_eq_one_of_mem hnodup hx]

theorem released_of_not_mem (hx : x ∉ slots) : released slots c x = c x := by
  rw [released, count_eq_zero.mpr hx, Nat.sub_zero]

theorem released_le_one (hone : ∀ x, (c x).refs ≤ 1) (x : String) : (released slots c x).refs ≤ 1 :=
  Nat.le_trans (Nat.sub_le ..) (hone x)

theorem wp_releases (h : Q .next (released slots c)) : Wp (.stats (releases slots)) Q c := by
  induction slots generalizing c with
  | nil => exact wp_nil h
  | cons slot slots ih =>
    refine wp_cons (wp_release (ih ?_))
    convert h using 1
    funext x
    rw [released, released, count_cons]
    grind

/-- The slots after some have taken a reference. -/
def referred (slots : List String) (c : Slots) : Slots := fun x =>
  { c x with refs := (c x).refs + slots.count x }

theorem wp_refers (h : Q .next (referred slots c)) : Wp (.stats (slots.map Node.refer)) Q c := by
  induction slots generalizing c with
  | nil => exact wp_nil h
  | cons slot slots ih =>
    refine wp_cons (wp_refer (ih ?_))
    convert h using 1
    funext x
    rw [referred, referred, count_cons]
    grind

theorem wp_returnStat (h : Q (.returned (keptBy ty e)) c) :
    Wp (.stat (.returnStat ty capture (some e))) Q c := by
  refine wp_of_acts fun acts exit hrun => ?_
  cases hrun with
  | returnStat value => exact ⟨_, [], (append_nil _).symm, evals_quiet value, trivial, h⟩

theorem wp_breakStat (h : Q .broke c) : Wp (.stat .breakStat) Q c := by
  refine wp_of_acts fun acts exit hrun => ?_
  cases hrun
  exact ⟨[], [], rfl, nofun, trivial, h⟩

/-- The slots where a block begins. -/
def entered (b : CBlock Node) (c : Slots) : Slots := fun x => if x ∈ b.heapSlots then {} else c x

/-- The slots of a block are empty where it is left. -/
def Emptied (slots : List String) (exit : Exit) (c : Slots) : Prop :=
  ∀ x ∈ slots, (c x).refs = if exit = .returned (some x) then 1 else 0

theorem safe_leaving (h : exit ≠ .cut → Emptied slots exit c) : Safe c (leaving slots exit) := by
  cases exit with
  | next | broke | returned kept => exact ⟨by simpa [Emptied, Act.Fine] using h nofun, trivial⟩
  | cut => trivial

theorem slotsAfter_leaving : slotsAfter c (leaving slots exit) = c := by
  cases exit <;> rfl

theorem wp_block (h : Wp (.stats (b.stats ++ b.cleanup))
      (fun exit c' => Emptied b.heapSlots exit c' ∧ Q exit c') (entered b c)) :
    Wp (.block b) Q c := by
  intro acts exit hrun
  obtain ⟨acts', rfl, hstats⟩ := runs_block hrun
  obtain ⟨hsafe, hexit⟩ := h acts' exit hstats
  have hafter : slotsAfter c (.enter b.heapSlots :: (acts' ++ leaving b.heapSlots exit)) =
      slotsAfter (entered b c) acts' := by
    show slotsAfter (entered b c) (acts' ++ leaving b.heapSlots exit) = _
    rw [slotsAfter_append, slotsAfter_leaving]
  rw [hafter]
  exact ⟨⟨trivial, safe_append.mpr ⟨hsafe, safe_leaving fun hne => (hexit hne).1⟩⟩,
    fun hne => (hexit hne).2⟩

/-- What is done before a block, without any slot. -/
theorem wp_before {before : List Act}
    (hbefore : ∀ a ∈ before, isQuiet a = true) (h : Wp code Q c) (hrun : Runs code acts exit) :
    Safe c (before ++ acts) ∧ (exit ≠ .cut → Q exit (slotsAfter c (before ++ acts))) := by
  rw [safe_append, slotsAfter_append, slotsAfter_quiet hbefore]
  exact ⟨⟨safe_quiet hbefore, (h acts exit hrun).1⟩, (h acts exit hrun).2⟩

theorem quiet_used (h : Evals ns acts truths) : ∀ a ∈ acts ++ [.use 1], isQuiet a = true :=
  forall_mem_append.mpr ⟨evals_quiet h, forall_mem_singleton.mpr rfl⟩

theorem wp_ifStat {other : Option (CBlock Node)}
    (hyes : Wp (.block b) Q c) (hno : ∀ b' ∈ other, Wp (.block b') Q c) (hskip : Q .next c) :
    Wp (.stat (.ifStat (some cond) (some (.block b)) (other.map Node.block))) Q c := by
  intro acts exit hrun
  cases other with
  | none =>
    cases hrun with
    | @ifYes _ _ _ acts acts' _ cond branch =>
      have := wp_before (quiet_used cond) hyes branch
      rwa [append_assoc] at this
    | ifSkip cond =>
      rw [slotsAfter_quiet (quiet_used cond)]
      exact ⟨safe_quiet (quiet_used cond), fun _ => hskip⟩
  | some b' =>
    cases hrun with
    | @ifYes _ _ _ acts acts' _ cond branch =>
      have := wp_before (quiet_used cond) hyes branch
      rwa [append_assoc] at this
    | @ifNo _ _ _ acts acts' _ cond branch =>
      have := wp_before (quiet_used cond) (hno b' rfl) branch
      rwa [append_assoc] at this

theorem wp_ifThen (hyes : Wp (.block b) Q c) (hskip : Q .next c) :
    Wp (.stat (.ifStat (some cond) (some (.block b)) none)) Q c :=
  @wp_ifStat _ _ cond b none hyes nofun hskip

/-- A loop keeps what its body keeps. -/
theorem wp_whileStat {I : Slots → Prop} (hbody : ∀ c, I c → Wp (.block b) (fun exit c' =>
      match exit with | .next => I c' | .broke => Q .next c' | exit => Q exit c') c)
    (hdone : ∀ c, I c → Q .next c) (hI : I c) :
    Wp (.stat (.whileStat (some cond) (some (.block b)))) Q c := by
  intro acts exit hrun
  generalize hcode : Code.stat (.whileStat (some cond) (some (.block b))) = code at hrun
  induction hrun generalizing c with
  | whileDone eval =>
    rw [slotsAfter_quiet (quiet_used eval)]
    exact ⟨safe_quiet (quiet_used eval), fun _ => hdone c hI⟩
  | @whileAgain _ b' acts acts' acts'' exit eval body rest _ ih =>
    cases hcode
    obtain ⟨hsafe, hnext⟩ := wp_before (quiet_used eval) (hbody c hI) body
    obtain ⟨hsafe', hexit⟩ := ih (hnext nofun) rfl
    have hsplit : acts ++ Act.use 1 :: (acts' ++ acts'') =
        (acts ++ [.use 1] ++ acts') ++ acts'' := by
      simp
    rw [hsplit, slotsAfter_append]
    exact ⟨safe_append.mpr ⟨hsafe, hsafe'⟩, hexit⟩
  | @whileBroke _ b' acts acts' eval body _ =>
    cases hcode
    obtain ⟨hsafe, hexit⟩ := wp_before (quiet_used eval) (hbody c hI) body
    grind
  | @whileStop _ b' acts acts' exit eval body ends leaves _ =>
    cases hcode
    obtain ⟨hsafe, hexit⟩ := wp_before (quiet_used eval) (hbody c hI) body
    grind
  | _ => cases hcode

theorem wp_blockStat (h : Wp (.block b) Q c) : Wp (.stat (.blockStat (some (.block b)))) Q c := by
  intro acts exit hrun
  cases hrun with
  | blockStat inner => exact h acts exit inner

theorem wp_inner (h : Wp (.block b) Q c) : Wp (.stat (.block b)) Q c := by
  intro acts exit hrun
  cases hrun with
  | inner inner => exact h acts exit inner

theorem wp_plain (hn : Plain n) (h : Q .next c) : Wp (.stat n) Q c := by
  cases hn with
  | varDef heap => exact wp_varDef (by simp [heap]) (by simpa [heap] using h)
  | assign heap => exact wp_assign (by simp [heap]) (by simpa [heap] using h)
  | elementAssign =>
    refine wp_of_acts fun acts exit hrun => ?_
    cases hrun with
    | @elementAssign _ _ _ acts _ _ values =>
      refine ⟨_, [], (append_nil _).symm, forall_mem_cons.mpr ⟨rfl, ?_⟩, trivial, h⟩
      exact forall_mem_append.mpr ⟨evals_quiet values, forall_mem_singleton.mpr rfl⟩
  | printNothing =>
    refine wp_of_acts fun acts exit hrun => ?_
    cases hrun
    exact ⟨[], [], rfl, nofun, trivial, h⟩
  | printStat =>
    refine wp_of_acts fun acts exit hrun => ?_
    cases hrun with
    | printStat value => exact ⟨_, [], (append_nil _).symm, quiet_used value, trivial, h⟩
  | callStat =>
    refine wp_of_acts fun acts exit hrun => ?_
    cases hrun with
    | callStat value => exact ⟨_, [], (append_nil _).symm, quiet_used value, trivial, h⟩

end Rules

/-! ## Setups -/

/-- What a setup does to the slots: its heap temporaries own one reference each. -/
structure SetupPost (s : Setup) (c c' : Slots) : Prop where
  one : ∀ x, (c' x).refs ≤ 1
  owned : ∀ x ∈ heapNames s.temps, (c' x).refs = 1
  frame : ∀ x ∉ s.used, c' x = c x

theorem heapSlots_decls :
    heapNames ((s.decls.map Prod.snd).filterMap Node.declared?) = heapNames s.temps := by
  simp [Setup.decls, Node.tempDecl, Node.declared?, Function.comp_def]

theorem mem_used_of_heap (h : x ∈ heapNames s.temps) : x ∈ s.used :=
  Setup.mem_used_of_mem_names (mem_heapNames h)

theorem update_le_one {held : Held} (hone : ∀ x, (c x).refs ≤ 1) (h : held.refs ≤ 1)
    (x : String) : (Function.update c name held x).refs ≤ 1 := by grind

theorem entered_le_one {b : CBlock Node} (hone : ∀ x, (c x).refs ≤ 1) (x : String) :
    (entered b c x).refs ≤ 1 := by
  unfold entered
  split
  · exact Nat.zero_le 1
  · exact hone x

variable {Q : Exit → Slots → Prop}

theorem define_wp {ty : Ty} {value : Node} {adopts : Bool}
    (operation : value.OverSettled) (adopted : ty.isHeap = true → adopts = isCall value)
    (hone : ∀ x, (c x).refs ≤ 1)
    (hzero : ∀ x ∈ heapNames (Setup.define name ty value adopts).temps, (c x).refs = 0)
    (hQ : ∀ c', SetupPost (.define name ty value adopts) c c' → Q .next c') :
    Wp (.stats (Setup.define name ty value adopts).stats) Q c := by
  cases hheap : ty.isHeap with
  | false =>
    rw [Setup.define, hheap]
    refine wp_single (wp_tempDef (by simp [hheap]) ?_)
    rw [hheap]
    exact hQ c ⟨hone, by simp [Setup.define, heapNames, hheap], fun _ _ => rfl⟩
  | true =>
    have hfine : (c name).refs = 0 := hzero name (by simp [Setup.define, heapNames, hheap])
    have hfinal : Q .next (Function.update c name { refs := 1 }) := by
      refine hQ _ ⟨update_le_one hone (Nat.le_refl 1), fun x hx => ?_, fun x hx => ?_⟩
      · obtain rfl : x = name := by simpa [Setup.define, heapNames, hheap] using hx
        rw [Function.update_self]
      · exact Function.update_of_ne (fun heq => hx ((Setup.mem_used_define operation).mpr heq)) ..
    rw [Setup.define, hheap, adopted hheap]
    cases hcall : isCall value with
    | true =>
      refine wp_single (wp_tempDef (fun _ => hfine) ?_)
      rw [hheap, hcall]
      exact hfinal
    | false =>
      refine wp_cons (wp_tempDef (fun _ => hfine) (wp_single (wp_refer ?_)))
      rw [hheap, hcall]
      simpa using hfinal

/-- **Setups** own what they fill, and change no other slot. -/
theorem Prepared.wp (h : Prepared s) (hone : ∀ x, (c x).refs ≤ 1)
    (hzero : ∀ x ∈ heapNames s.temps, (c x).refs = 0) (hQ : ∀ c', SetupPost s c c' → Q .next c') :
    Wp (.stats s.stats) Q c := by
  induction h generalizing c Q with
  | nil => exact wp_nil (hQ c ⟨hone, forall_mem_nil _, fun _ _ => rfl⟩)
  | @append a b _ _ apart iha ihb =>
    rw [Setup.temps_append, heapNames_append] at hzero
    refine wp_append (iha hone (fun x hx => hzero x (mem_append_left _ hx)) fun c₁ h₁ => ?_)
    have hframe : ∀ x ∈ heapNames b.temps, (c₁ x).refs = 0 := by
      intro x hx
      rw [h₁.frame x fun hxa => apart x hxa (mem_used_of_heap hx)]
      exact hzero x (mem_append_right _ hx)
    refine ihb h₁.one hframe fun c₂ h₂ => hQ c₂ ⟨h₂.one, fun x hx => ?_, fun x hx => ?_⟩
    · rw [Setup.temps_append, heapNames_append] at hx
      rcases mem_append.mp hx with hx | hx
      · rw [h₂.frame x fun hxb => apart x (mem_used_of_heap hx) hxb]
        exact h₁.owned x hx
      · exact h₂.owned x hx
    · rw [h₂.frame x fun hxb => hx (Setup.mem_used_append.mpr (.inr hxb)),
        h₁.frame x fun hxa => hx (Setup.mem_used_append.mpr (.inl hxa))]
  | define operation adopted => exact define_wp operation adopted hone hzero hQ
  | @guarded op temp inner right setup settled ih =>
    have hslots : (guardBlock temp inner right).heapSlots = heapNames inner.temps := by
      rw [CBlock.heapSlots, guardBlock, insertEntries_eq (by simpa using setup.nodup_names),
        nil_append, heapSlots_decls]
    rw [Setup.ofStats, rightOperand_eq]
    refine wp_single (wp_ifThen (wp_block ?_) (hQ c ⟨hone, forall_mem_nil _, fun _ _ => rfl⟩))
    -- the temporaries of the block are empty at first, then filled, and released at its end
    have hempty : ∀ x ∈ heapNames inner.temps, entered (guardBlock temp inner right) c x = {} :=
      fun x hx => if_pos (hslots ▸ hx)
    refine wp_append (wp_append (ih (entered_le_one hone) (fun x hx => by rw [hempty x hx])
      fun c₁ h₁ => wp_single (wp_assign (by rintro ⟨⟩) ?_)))
    rw [if_neg (by rintro ⟨⟩), andThen_next, show (guardBlock temp inner right).cleanup = _ from
      inner.releases_eq]
    refine wp_releases ?_
    have hnodup : (heapNames inner.temps).reverse.Nodup :=
      nodup_reverse.mpr (setup.nodup_names.sublist (heapNames_sublist _))
    refine ⟨fun x hx => ?_, hQ _ ⟨released_le_one h₁.one, forall_mem_nil _, fun x hx => ?_⟩⟩
    · rw [hslots] at hx
      rw [released_of_mem hnodup (mem_reverse.mpr hx), h₁.owned x hx, if_neg (by simp)]
    · rw [Setup.used_rightOperand op temp inner setup.nodup_names settled] at hx
      have hnot : x ∉ heapNames inner.temps := fun h => hx (mem_used_of_heap h)
      rw [released_of_not_mem fun h => hnot (mem_reverse.mp h), h₁.frame x hx]
      exact if_neg fun h => hnot (hslots ▸ h)

end Counting

end WichToC

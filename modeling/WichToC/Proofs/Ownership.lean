import WichToC.Proofs.Holding

/-!
# Leaks

`no_leaked_slot` says that no path through a function of a translated script leaks a reference: no
store hits a slot that owns one, and all slots of a block are empty when it is left, apart from the
reference that is returned.  There is one exception: a definition overwrites what has been assigned
to its variable before.

The proof follows the code: what a statement does to the slots, what statements in order do, what a
block does that fills its slots and releases them, and what all built statements do, by induction.
A loop keeps what each of its rounds keeps.
-/

namespace WichToC

open List Counting Node Analysis Build

variable {rest ns : List Node} {sweep slots globals : List String} {c₂ : Slots}

/-- The heap variable that a definition gives its value. -/
def Node.definedSlot? (n : Node) : Option String :=
  n.defined?.bind fun p => if p.2.isHeap then some p.1 else none

namespace Counting

variable {t : Table} {returns : Bool} {c : Slots} {Q : Exit → Slots → Prop} {nest : Nest} {s : Node}
  {ss : List Node} {c₁ : Slots} {start : Setup} {b : CBlock Node} {vars : List (String × Ty)}
  {x : String} {outer : List String} {acts : List Act}

/-! ## Statements without blocks -/

/-- What has to hold before a statement: its temporaries are empty, and the variable that it defines
may get a value. -/
structure Ready (c : Slots) (s : Node) : Prop where
  temps : ∀ x ∈ heapNames (lowerStat s).temps, (c x).refs = 0
  defined : ∀ x, s.definedSlot? = some x → Overwritable c x

/-- What a statement does to the slots: the variables that are visible and not yet defined may still
get a value after it, and the temporaries of other statements stay as they are. -/
structure StatPost (t : Table) (nest : Nest) (s : Node) (c c' : Slots) : Prop where
  one : ∀ x, (c' x).refs ≤ 1
  vars : ∀ x, IsVarName t x → (∃ q ∈ nest, x ∈ q.2) → s.definedSlot? ≠ some x →
    Overwritable c x → Overwritable c' x
  temps : ∀ x, IsTemp t x → x ∉ s.reserved → c' x = c x

/-- What holds at the end of a statement: a return has emptied all slots around it. -/
def StatQ (t : Table) (nest : Nest) (sweep : List String) (s : Node) (c : Slots) :
    Exit → Slots → Prop
  | .next, c' => StatPost t nest s c c'
  | .returned kept, c' => Emptied sweep (.returned kept) c'
  | .broke, _ => False
  | .cut, _ => False

/-- A statement without blocks: after its setup it stores a value, or it returns. -/
theorem leaf_wp {setup : Setup}
    (h : LeafStat t returns s setup rest) (hreserves : ReservesTemps t s)
    (hnodup : sweep.Nodup) (hone : ∀ x, (c x).refs ≤ 1) (hready : Ready c s) :
    Wp (.stats (codeOf sweep s)) (StatQ t nest sweep s c) c := by
  have hzero : ∀ x ∈ heapNames setup.temps, (c x).refs = 0 := fun x hx =>
    hready.temps x (h.lowers.temps ▸ hx)
  have hused : ∀ x ∈ setup.used, IsTemp t x := fun x hx =>
    hreserves.isTemp x (h.lowers.reserved x hx)
  have hvar : ∀ {c₁ : Slots}, SetupPost setup c c₁ → ∀ x, IsVarName t x → c₁ x = c x :=
    fun h₁ x hx => h₁.frame x fun hmem => (hused x hmem).ne hx rfl
  have htemp : ∀ {c₁ : Slots}, SetupPost setup c c₁ → ∀ x ∉ s.reserved, c₁ x = c x :=
    fun h₁ x hx => h₁.frame x fun hmem => hx (h.lowers.reserved x hmem)
  have hpost : ∀ {c₁ : Slots}, SetupPost setup c c₁ → StatPost t nest s c c₁ := fun h₁ =>
    ⟨h₁.one, fun x hx _ _ hopen => by rwa [Overwritable, hvar h₁ x hx], fun x _ => htemp h₁ x⟩
  -- the statement may also change the slot of one variable
  have hstore : ∀ {c₁ : Slots} {name : String} (held : Held), SetupPost setup c c₁ →
      IsVarName t name → (held.assigned = true ∨ s.definedSlot? = some name) → held.refs ≤ 1 →
        StatPost t nest s c (Function.update c₁ name held) := by
    intro c₁ name held h₁ hname hstored hheld
    refine ⟨update_le_one h₁.one hheld, fun x hx _ hdefined hopen => ?_, fun x hx hmem => ?_⟩
    · by_cases hxn : x = name
      · subst hxn
        rw [Overwritable, Function.update_self]
        exact .inr (hstored.resolve_right hdefined)
      · rwa [Overwritable, Function.update_of_ne hxn, hvar h₁ x hx]
    · rw [Function.update_of_ne (hx.ne hname), htemp h₁ x hmem]
  -- a return releases all slots
  have hswept : ∀ {c₁ : Slots} {ty : Ty} {capture : String} {e : Node}, (∀ x ∈ sweep,
      (c₁ x).refs ≤ if keptBy ty e = some x then 2 else 1) →
      (∀ x ∈ sweep, keptBy ty e = some x → (c₁ x).refs = 2) →
        Wp (.stats (releases sweep ++ [.returnStat ty capture (some e)]))
          (StatQ t nest sweep s c) c₁ := by
    intro c₁ ty capture e hle hkept
    refine wp_append (wp_releases (wp_single (wp_returnStat fun x hx => ?_)))
    rw [released_of_mem hnodup hx]
    grind
  rw [h.codeOf_eq]
  refine wp_append (h.lowers.prepared.wp hone hzero fun c₁ h₁ => ?_)
  rw [andThen_next]
  have hdefined := h.defined
  cases h.leaf with
  | nothing => exact wp_nil (hpost h₁)
  | plain plain =>
    rw [beforeReturns_eq (forall_mem_singleton.mpr plain.simple.2)]
    exact wp_single (wp_plain plain (hpost h₁))
  | @define _ name ty e varName heap _ _ =>
    have hslot : s.definedSlot? = some name := by
      have : s.defined? = some (name, ty) := Option.toList_eq_singleton_iff.mp hdefined.symm
      simp [definedSlot?, this, heap]
    refine wp_cons (wp_varDef (fun _ => ?_) (wp_single (wp_refer ?_)))
    · rw [Overwritable, hvar h₁ name varName]
      exact hready.defined name hslot
    · rw [heap]
      simpa [StatQ] using hstore { refs := 1 } h₁ varName (.inr hslot) (Nat.le_refl 1)
  | @assign _ name capture holder ty holderTy varName heap held =>
    have hle := h₁.one name
    refine wp_cons (wp_release (wp_cons (wp_assign (fun _ => ?_) (wp_single (wp_refer ?_)))))
    · grind
    · rw [heap]
      simpa [StatQ] using hstore ⟨1, true⟩ h₁ varName (.inl rfl) (Nat.le_refl 1)
  | @returnHeap _ ty holderTy capture holder _ heap held =>
    rw [← singleton_append, beforeReturns_append, beforeReturns_returnStat]
    have hkeeps : keptBy ty (.temp holder holderTy) = some holder := if_pos heap
    refine wp_append (wp_single (wp_refer (hswept (fun x hx => ?_) fun x hx hk => ?_)))
    · rw [hkeeps]
      by_cases hxh : x = holder
      · subst hxh
        rw [Function.update_self, if_pos rfl]
        exact Nat.succ_le_succ (h₁.one x)
      · rw [Function.update_of_ne hxh, if_neg fun heq => hxh (Option.some.inj heq).symm]
        exact h₁.one x
    · obtain rfl : holder = x := Option.some.inj (hkeeps ▸ hk)
      rw [Function.update_self]
      exact congrArg (· + 1) (h₁.owned holder held)
  | @returnPlain before ty capture e _ heap =>
    rw [beforeReturns_returnStat]
    have hkeeps : keptBy ty (.temp capture ty) = none := if_neg (by simp [heap])
    refine hswept (fun x _ => ?_) fun x _ hk => ?_
    · rw [hkeeps, if_neg nofun]
      exact h₁.one x
    · rw [hkeeps] at hk
      cases hk

/-! ## Statements in order -/

/-- Nothing leaks on the paths through the code of a statement. -/
def StatSafe (t : Table) (nest : Nest) (s : Node) : Prop :=
  ∀ (sweep : List String) (c : Slots), Fits t nest (innerReserved s) sweep → (∀ x, (c x).refs ≤ 1) →
    Ready c s → Wp (.stats (codeOf sweep s)) (StatQ t nest sweep s c) c

/-- The slots that statements fill are different. -/
structure InOrder (t : Table) (nest : Nest) (ss : List Node) : Prop where
  temps : ∀ s ∈ ss, ∀ x ∈ heapNames (lowerStat s).temps, IsTemp t x ∧ x ∈ s.reserved
  nodup : (ss.flatMap reserved).Nodup
  vars : ∀ s ∈ ss, ∀ x, s.definedSlot? = some x → IsVarName t x ∧ ∃ q ∈ nest, x ∈ q.2
  defs : (ss.filterMap definedSlot?).Nodup

theorem InOrder.tail (h : InOrder t nest (s :: ss)) : InOrder t nest ss where
  temps s' hs' := h.temps s' (.tail s hs')
  nodup := by
    have := h.nodup
    grind
  vars s' hs' := h.vars s' (.tail s hs')
  defs := h.defs.sublist (List.Sublist.filterMap _ (sublist_cons_self s ss))

/-- The statements after one that is done are still ready. -/
theorem InOrder.ready (h : InOrder t nest (s :: ss))
    (hpost : StatPost t nest s c c₁) (hready : ∀ s' ∈ s :: ss, Ready c s') :
    ∀ s' ∈ ss, Ready c₁ s' := by
  intro s' hs'
  have hmem : s' ∈ s :: ss := .tail s hs'
  refine ⟨fun x hx => ?_, fun x hx => ?_⟩
  · obtain ⟨htemp, hreserved⟩ := h.temps s' hmem x hx
    have hnodup := h.nodup
    rw [flatMap_cons] at hnodup
    rw [hpost.temps x htemp fun hxs => (nodup_append.mp hnodup).2.2 x hxs x
      (mem_flatMap.mpr ⟨s', hs', hreserved⟩) rfl]
    exact (hready s' hmem).temps x hx
  · obtain ⟨hname, hvisible⟩ := h.vars s' hmem x hx
    refine hpost.vars x hname hvisible (fun hs => ?_) ((hready s' hmem).defined x hx)
    have hdefs := h.defs
    grind

/-- What statements do to the slots. -/
structure StatsPost (t : Table) (nest : Nest) (ss : List Node) (c c' : Slots) : Prop where
  one : ∀ x, (c' x).refs ≤ 1
  vars : ∀ x, IsVarName t x → (∃ q ∈ nest, x ∈ q.2) → x ∉ ss.filterMap definedSlot? →
    Overwritable c x → Overwritable c' x
  temps : ∀ x, IsTemp t x → x ∉ ss.flatMap reserved → c' x = c x

theorem StatsPost.cons
    (h : StatPost t nest s c c₁) (h' : StatsPost t nest ss c₁ c₂) :
    StatsPost t nest (s :: ss) c c₂ := by
  refine ⟨h'.one, fun x hname hvisible hnot hopen => ?_, fun x hx hnot => ?_⟩
  · refine h'.vars x hname hvisible (fun hmem => hnot ?_)
      (h.vars x hname hvisible (fun hs => hnot ?_) hopen)
    · grind
    · exact mem_filterMap.mpr ⟨s, .head _, hs⟩
  · rw [flatMap_cons] at hnot
    rw [h'.temps x hx fun h => hnot (mem_append_right _ h),
      h.temps x hx fun h => hnot (mem_append_left _ h)]

theorem codes_wp (hstats : ∀ s ∈ ss, StatSafe t nest s) (horder : InOrder t nest ss)
    (hfits : Fits t nest (ss.flatMap innerReserved) sweep) (hone : ∀ x, (c x).refs ≤ 1)
    (hready : ∀ s ∈ ss, Ready c s) (hnext : ∀ c', StatsPost t nest ss c c' → Q .next c')
    (hreturned : ∀ kept c', Emptied sweep (.returned kept) c' → Q (.returned kept) c') :
    Wp (.stats (codesOf sweep ss)) Q c := by
  induction ss generalizing c with
  | nil =>
    rw [codesOf]
    exact wp_nil (hnext c ⟨hone, fun _ _ _ _ h => h, fun _ _ _ => rfl⟩)
  | cons s ss ih =>
    have hs := mem_cons_self (a := s) (l := ss)
    rw [codesOf]
    refine wp_append ((hstats s hs sweep c (fits_stat hfits hs) hone (hready s hs)).mono
      fun exit c₁ hne h₁ => ?_)
    cases exit with
    | next =>
      exact ih (fun s' hs' => hstats s' (.tail s hs')) horder.tail
        (hfits.sub fun x hx => mem_append_right _ hx) h₁.one (horder.ready h₁ hready)
        fun c₂ h₂ => hnext c₂ (.cons h₁ h₂)
    | returned kept => exact hreturned kept c₁ h₁
    | broke => exact h₁.elim
    | cut => exact absurd rfl hne

/-! ## What blocks start with -/

/-- What the start of a block does to the slots: it needs the slots in `zeros` empty and changes no
slot but those in `touched`; if it leaves a loop, it has emptied `zeros` again. -/
def Begins (start : Setup) (zeros touched : List String) : Prop :=
  ∀ (c : Slots) (Q : Exit → Slots → Prop), (∀ x, (c x).refs ≤ 1) → (∀ x ∈ zeros, (c x).refs = 0) →
    (∀ c', (∀ x, (c' x).refs ≤ 1) → (∀ x ∉ touched, c' x = c x) → Q .next c') →
    (start.temps ≠ [] → ∀ c', (∀ x, (c' x).refs ≤ 1) → (∀ x ∉ touched, c' x = c x) →
      (∀ x ∈ zeros, (c' x).refs = 0) → Q .broke c') →
    Wp (.stats start.stats) Q c

theorem begins_empty : Begins {} [] [] := fun c _ hone _ hnext _ =>
  wp_nil (hnext c hone fun _ _ => rfl)

theorem begins_refers (hnodup : slots.Nodup) : Begins (.ofStats (slots.map refer)) slots slots := by
  intro c Q hone hzero hnext _
  refine wp_refers (hnext _ (fun x => ?_) fun x hx => ?_)
  · show (c x).refs + slots.count x ≤ 1
    grind
  · rw [referred, count_eq_zero.mpr hx, Nat.add_zero]

theorem begins_loopStart {cond : Node} (h : Hoisted cond (hoist cond)) :
    Begins (loopStart cond) (heapNames (loopStart cond).temps) (loopStart cond).used := by
  unfold loopStart
  split
  · exact begins_empty
  · rename_i hsome
    intro c Q hone hzero hnext hbroke
    have htemps : ((hoist cond).1 ++
      Setup.ofStats [loopExit (hoist cond).1 (some (hoist cond).2)]).temps =
        (hoist cond).1.temps := append_nil _
    rw [htemps] at hzero hbroke
    refine wp_append (h.prepared.wp hone hzero fun c₁ h₁ => ?_)
    have hframe : ∀ x ∉ ((hoist cond).1 ++ Setup.ofStats [loopExit (hoist cond).1
        (some (hoist cond).2)]).used, c₁ x = c x := fun x hx =>
      h₁.frame x fun hmem => hx (Setup.mem_used_append.mpr (.inl hmem))
    have hslots : (heapNames (hoist cond).1.temps).reverse.Nodup :=
      nodup_reverse.mpr (h.prepared.nodup_names.sublist (heapNames_sublist _))
    refine wp_single (wp_ifThen (wp_block ?_) (hnext c₁ h₁.one hframe))
    -- the loop is left: what the condition has filled is released
    rw [Setup.releases_eq, append_nil]
    refine wp_append (wp_releases ?_)
    rw [andThen_next]
    refine wp_single (wp_breakStat ⟨nofun, ?_⟩)
    refine hbroke (fun htemps => hsome (by rw [htemps]; rfl)) _
      (released_le_one (entered_le_one h₁.one)) (fun x hx => ?_) fun x hx => ?_
    · rw [released_of_not_mem fun hmem => hx (Setup.mem_used_append.mpr
        (.inl (mem_used_of_heap (mem_reverse.mp hmem))))]
      exact hframe x hx
    · rw [released_of_mem hslots (mem_reverse.mpr hx)]
      exact congrArg (· - 1) (h₁.owned x hx)

/-! ## Blocks -/

theorem definedSlots_eq : ss.filterMap definedSlot? = heapNames (ss.filterMap defined?) := by
  induction ss with
  | nil => rfl
  | cons s ss ih =>
    cases hs : s.defined? with
    | none =>
      have hslot : s.definedSlot? = none := by rw [definedSlot?, hs]; rfl
      grind
    | some p =>
      rw [filterMap_cons_some hs]
      cases hp : p.2.isHeap with
      | false =>
        have hslot : s.definedSlot? = none := by simp [definedSlot?, hs, hp]
        rw [filterMap_cons_none hslot, ih]
        simp [heapNames, hp]
      | true =>
        have hslot : s.definedSlot? = some p.1 := by simp [definedSlot?, hs, hp]
        rw [filterMap_cons_some hslot, ih]
        simp [heapNames, hp]

theorem mem_ownSlots (hlocals : b.locals = vars.map declOf) :
    x ∈ ownSlots start b ↔ x ∈ heapNames vars ∨ x ∈ heapNames start.temps ∨
      x ∈ heapNames (lowered b.stats).temps := by
  rw [ownSlots_eq hlocals, mem_reverse, heapNames_append, mem_append, mem_append]

theorem mem_heapSlots (hlocals : b.locals = vars.map declOf) :
    x ∈ (countBlock start outer b).heapSlots ↔ x ∈ ownSlots start b := by
  have hvars : (b.locals.map Prod.snd).filterMap declared? = vars := by
    simp [hlocals, declOf, declared?, Function.comp_def]
  rw [mem_ownSlots hlocals, CBlock.heapSlots, locals_countBlock, map_append, map_append,
    filterMap_append, filterMap_append, heapNames_append, heapNames_append,
    heapSlots_decls, heapSlots_decls, hvars, mem_append, mem_append, or_assoc, or_left_comm]

/-- No path goes past a return. -/
theorem wp_endsInReturn (hreturn : endsInReturn ns = true) (h : Wp (.stats ns) Q c) :
    Wp (.stats ns) (fun exit c' => exit ≠ .next ∧ Q exit c') c := by
  intro acts exit hrun
  refine ⟨(h acts exit hrun).1, fun hne => ⟨?_, (h acts exit hrun).2 hne⟩⟩
  rintro rfl
  obtain ⟨r, hr, hlast⟩ : ∃ r, ns.getLast? = some r ∧ isReturn r = true := by
    unfold endsInReturn at hreturn
    grind
  obtain ⟨init, rfl⟩ := getLast?_eq_some_iff.mp hr
  rcases runs_append hrun with ⟨acts₁, acts₂, rfl, -, hreturns⟩ | ⟨-, hnot⟩
  · rcases runs_singleton hreturns with hreturns | ⟨-, hcut⟩
    · cases r <;> first | (cases hlast; done) | cases hreturns
    · cases hcut
  · exact hnot rfl

/-- What a block does to the slots, where its statements end: it empties those in `closed`. -/
structure Closes (t : Table) (nest : Nest) (ss : List Node) (closed touched : List String)
    (c c' : Slots) : Prop where
  one : ∀ x, (c' x).refs ≤ 1
  emptied : ∀ x ∈ closed, (c' x).refs = 0
  vars : ∀ x ∉ closed, x ∉ touched → IsVarName t x → (∃ q ∈ nest, x ∈ q.2) →
    x ∉ ss.filterMap definedSlot? → Overwritable c x → Overwritable c' x
  temps : ∀ x ∉ closed, x ∉ touched → IsTemp t x → x ∉ ss.flatMap reserved → c' x = c x

/-- **Blocks with counts.**  A block whose statements leak nothing leaks nothing either. -/
theorem countBlock_wp {zeros touched : List String} (hlocals : b.locals = vars.map declOf)
    (hbegins : Begins start zeros touched) (hstats : ∀ s ∈ b.stats, StatSafe t nest s)
    (horder : InOrder t nest b.stats)
    (hfits : Fits t nest (b.stats.flatMap innerReserved) (ownSlots start b ++ outer))
    (hone : ∀ x, (c x).refs ≤ 1) (hzeros : ∀ x ∈ zeros, x ∈ ownSlots start b ∨ (c x).refs = 0)
    (hfresh : ∀ s ∈ b.stats, ∀ x, x ∈ heapNames (lowerStat s).temps ∨ s.definedSlot? = some x →
      (x ∈ ownSlots start b ∨ (c x).refs = 0) ∧ x ∉ touched)
    (htouched : ∀ x ∈ ownSlots start b, x ∈ touched → x ∈ zeros)
    (hnext : ∀ c', Closes t nest b.stats
      (ownSlots start b ++ if b.isFunctionBody then outer else []) touched c c' → Q .next c')
    (hbroke : start.temps ≠ [] → ∀ c', (∀ x, (c' x).refs ≤ 1) →
      (∀ x ∉ ownSlots start b, x ∉ touched → c' x = c x) → Q .broke c')
    (hreturned : ∀ kept c', Emptied (ownSlots start b ++ outer) (.returned kept) c' →
      Q (.returned kept) c') :
    Wp (.block (countBlock start outer b)) Q c := by
  set own := ownSlots start b with hown
  have hmem : ∀ {x}, x ∈ (countBlock start outer b).heapSlots ↔ x ∈ own := mem_heapSlots hlocals
  have hempty : ∀ x, x ∈ own ∨ (c x).refs = 0 →
      (entered (countBlock start outer b) c x).refs = 0 := by
    intro x hx
    unfold entered
    grind
  have hkeeps : ∀ x ∉ own, entered (countBlock start outer b) c x = c x := fun x hx =>
    if_neg fun h => hx (hmem.mp h)
  have hreturns : ∀ kept c', Emptied (own ++ outer) (.returned kept) c' →
      Emptied (countBlock start outer b).heapSlots (.returned kept) c' ∧ Q (.returned kept) c' :=
    fun kept c' h => ⟨fun x hx => h x (mem_append_left _ (hmem.mp hx)), hreturned kept c' h⟩
  -- the paths to the end of the statements
  have hcode : Wp (.stats (countBlock start outer b).stats)
      (andThen
        (fun c₂ => ∃ c₁, (∀ x ∉ own, x ∉ touched → c₁ x = c x) ∧ StatsPost t nest b.stats c₁ c₂)
        fun exit c' => Emptied (countBlock start outer b).heapSlots exit c' ∧ Q exit c')
      (entered (countBlock start outer b) c) := by
    rw [stats_countBlock]
    refine wp_append (hbegins _ _ (entered_le_one hone) (fun x hx => hempty x (hzeros x hx))
      (fun c₁ hone₁ hsame₁ => ?_) fun htemps c₁ hone₁ hsame₁ hzero₁ => ⟨fun x hx => ?_, ?_⟩)
    · have hready : ∀ s ∈ b.stats, Ready c₁ s := by
        intro s hs
        have hzero : ∀ x, x ∈ heapNames (lowerStat s).temps ∨ s.definedSlot? = some x →
            (c₁ x).refs = 0 := by grind
        exact ⟨fun x hx => hzero x (.inl hx), fun x hx => .inl (hzero x (.inr hx))⟩
      refine codes_wp hstats horder hfits hone₁ hready (fun c₂ h₂ => ⟨c₁, fun x hx hnot => ?_, h₂⟩)
        hreturns
      rw [hsame₁ x hnot, hkeeps x hx]
    · grind
    · grind
  refine wp_block ?_
  rw [cleanup_countBlock]
  split
  · rename_i hreturn
    rw [append_nil]
    refine (wp_endsInReturn hreturn hcode).mono fun exit c' _ h => ?_
    cases exit with
    | next => exact absurd rfl h.1
    | _ => exact h.2
  · refine wp_append (hcode.mono fun exit c₂ _ h₂ => ?_)
    cases exit with
    | next =>
      obtain ⟨c₁, hsame₁, h₂⟩ := h₂
      have hnodup : (own ++ if b.isFunctionBody then outer else []).Nodup := by
        refine hfits.nodup.sublist (List.Sublist.append_left ?_ own)
        grind
      have hzero : ∀ x ∈ own ++ (if b.isFunctionBody then outer else []),
          (released (own ++ if b.isFunctionBody then outer else []) c₂ x).refs = 0 := by
        intro x hx
        rw [released_of_mem hnodup hx]
        have := h₂.one x
        omega
      rw [andThen_next]
      refine wp_releases ⟨fun x hx => ?_, hnext _ ⟨released_le_one h₂.one, hzero,
        fun x hx hnot hname hvisible hdefined hopen => ?_, fun x hx hnot htemp hreserved => ?_⟩⟩
      · grind
      · rw [Overwritable, released_of_not_mem hx]
        refine h₂.vars x hname hvisible hdefined ?_
        rwa [Overwritable, hsame₁ x (fun h => hx (mem_append_left _ h)) hnot]
      · rw [released_of_not_mem hx, h₂.temps x htemp hreserved,
          hsame₁ x (fun h => hx (mem_append_left _ h)) hnot]
    | _ => exact h₂

section

variable (h : Scoped t returns nest vars b)

include h

/-- The variable that a statement of a block defines. -/
theorem Scoped.defined (hs : s ∈ b.stats) (hx : s.definedSlot? = some x) : x ∈ heapNames vars := by
  rw [← h.defs, ← definedSlots_eq]
  exact mem_filterMap.mpr ⟨s, hs, hx⟩

theorem Scoped.mem_vars (hx : x ∈ heapNames vars) : IsVarName t x ∧ ∃ q ∈ nest, x ∈ q.2 := by
  obtain ⟨p, hp, rfl⟩ := mem_map.mp (mem_heapNames hx)
  exact ⟨h.varNames p hp, h.visible p hp⟩

/-- The temporaries that a statement of a block fills. -/
theorem Scoped.temps (hs : s ∈ b.stats) (hx : x ∈ heapNames (lowerStat s).temps) :
    IsTemp t x ∧ x ∈ s.reserved ∧ x ∈ heapNames (lowered b.stats).temps := by
  obtain ⟨setup, rest, hlowers⟩ := BuiltStat.lowers (h.stats s hs) (h.child hs)
  have hmem : x ∈ s.reserved := hlowers.reserved x (mem_used_of_heap (hlowers.temps ▸ hx))
  refine ⟨(h.child hs).isTemp x hmem, hmem, ?_⟩
  obtain ⟨p, hp, rfl⟩ := mem_map.mp hx
  obtain ⟨hp, hheap⟩ := mem_filter.mp hp
  refine mem_map.mpr ⟨p, mem_filter.mpr ⟨?_, hheap⟩, rfl⟩
  exact mem_flatMap.mpr ⟨lowerStat s, mem_map.mpr ⟨s, hs, rfl⟩, hp⟩

theorem Scoped.inOrder : InOrder t nest b.stats where
  temps _ hs _ hx := ⟨(h.temps hs hx).1, (h.temps hs hx).2.1⟩
  nodup := h.reserved ▸ h.reserves.nodup
  vars _ hs _ hx := h.mem_vars (h.defined hs hx)
  defs := by
    rw [definedSlots_eq, h.defs]
    exact h.nodup.sublist (heapNames_sublist vars)

end

/-! ## All statements -/

/-- What a block of a function does to the slots. -/
structure BlockPost (t : Table) (nest : Nest) (start : Setup) (b : CBlock Node) (c c' : Slots) :
    Prop where
  one : ∀ x, (c' x).refs ≤ 1
  vars : ∀ x, IsVarName t x → (∃ q ∈ nest, x ∈ q.2) → Overwritable c x → Overwritable c' x
  temps : ∀ x, IsTemp t x → x ∉ (block b).reserved → x ∉ start.used → c' x = c x

/-- What holds where a block is left that starts with `start`. -/
def BlockQ (t : Table) (nest : Nest) (start : Setup) (outer : List String) (b : CBlock Node)
    (c : Slots) : Exit → Slots → Prop
  | .next, c' => BlockPost t nest start b c c'
  | .broke, c' => start.temps ≠ [] ∧ BlockPost t nest start b c c'
  | .returned kept, c' => Emptied outer (.returned kept) c'
  | .cut, _ => False

/-- Nothing leaks on the paths through the code of a block. -/
def BlockSafe (t : Table) (nest : Nest) (b : CBlock Node) : Prop :=
  ∀ (start : Setup) (outer : List String) (c : Slots), FitsBlock t nest start b outer →
    Begins start (heapNames start.temps) start.used → (∀ x, (c x).refs ≤ 1) →
      Wp (.block (countBlock start outer b)) (BlockQ t nest start outer b c) c

/-- A block of a function. -/
theorem builtBlock_safe {scope : ScopeId} (shape : BuiltBlock t false nest scope vars b)
    (hscoped : Scoped t returns ((scope, vars.map Prod.fst) :: nest) vars b)
    (hstats : ∀ s ∈ b.stats, StatSafe t ((scope, vars.map Prod.fst) :: nest) s) :
    BlockSafe t nest b := by
  intro start outer c hfits hbegins hone
  have hstarts := hfits.starts
  have hinner := fits_ownSlots shape hscoped hfits
  have hown : ∀ {x}, x ∈ ownSlots start b ↔ x ∈ heapNames vars ∨ x ∈ heapNames start.temps ∨
      x ∈ heapNames (lowered b.stats).temps := mem_ownSlots shape.locals
  have hlowered : heapNames (lowered b.stats).temps ⊆ (block b).reserved := fun x hx =>
    hscoped.lowered_reserved (mem_heapNames hx)
  -- what is visible outside is no slot of the block
  have hvar : ∀ x, IsVarName t x → (∃ q ∈ nest, x ∈ q.2) → x ∉ heapNames vars ∧
      x ∉ ownSlots start b ∧ x ∉ start.used := by
    rintro x hname ⟨q, hq, hxq⟩
    have hother : x ∉ heapNames vars := by
      intro hx
      obtain ⟨p, hp, rfl⟩ := mem_map.mp (mem_heapNames hx)
      exact shape.apart p hp q hq hxq
    have hnot : x ∉ start.used := fun hx => (hstarts.isTemp x hx).ne hname rfl
    refine ⟨hother, fun hx => ?_, hnot⟩
    rcases hown.mp hx with hx | hx | hx
    · exact hother hx
    · exact hnot (mem_used_of_heap hx)
    · exact (hscoped.reserves.isTemp x (hlowered hx)).ne hname rfl
  have htemp : ∀ x, IsTemp t x → x ∉ (block b).reserved → x ∉ start.used →
      x ∉ ownSlots start b := by
    intro x htemp hmem hnot hx
    rcases hown.mp hx with hx | hx | hx
    · exact htemp.ne (hscoped.mem_vars hx).1 rfl
    · exact hnot (mem_used_of_heap hx)
    · exact hmem (hlowered hx)
  refine countBlock_wp shape.locals hbegins hstats hscoped.inOrder hinner hone
    (fun x hx => .inl (hown.mpr (.inr (.inl hx)))) (fun s hs x hx => ?_) (fun x hx htouched => ?_)
    (fun c' h => ⟨h.one, fun x hname hvisible => ?_, fun x hx hmem hnot => ?_⟩)
    (fun htemps c' hone' hsame => ⟨htemps, hone', fun x hname hvisible hopen => ?_,
      fun x hx hmem hnot => ?_⟩)
    fun kept c' h x hx => h x (mem_append_right _ hx)
  · rcases hx with hx | hx
    · obtain ⟨-, -, hx⟩ := hscoped.temps hs hx
      exact ⟨.inl (hown.mpr (.inr (.inr hx))), fun hused => hstarts.apart x hused (hlowered hx)⟩
    · have hx := hscoped.defined hs hx
      exact ⟨.inl (hown.mpr (.inl hx)), fun hused =>
        (hstarts.isTemp x hused).ne (hscoped.mem_vars hx).1 rfl⟩
  · rcases hown.mp hx with hx | hx | hx
    · exact absurd rfl ((hstarts.isTemp x htouched).ne (hscoped.mem_vars hx).1)
    · exact hx
    · exact absurd (hlowered hx) (hstarts.apart x htouched)
  · obtain ⟨hother, hnotOwn, hnot⟩ := hvar x hname hvisible
    obtain ⟨q, hq, hxq⟩ := hvisible
    rw [shape.body] at h
    refine h.vars x (by simpa using hnotOwn) hnot hname ⟨q, .tail _ hq, hxq⟩ ?_
    rwa [definedSlots_eq, shape.defs]
  · rw [shape.body] at h
    refine h.temps x (by simpa using htemp x hx hmem hnot) hnot hx ?_
    rwa [← hscoped.reserved]
  · obtain ⟨-, hnotOwn, hnot⟩ := hvar x hname hvisible
    rwa [Overwritable, hsame x hnotOwn hnot]
  · exact hsame x (htemp x hx hmem hnot) hnot

/-- What a block inside does, the statement does. -/
theorem BlockPost.stat (h : BlockPost t nest start b c₁ c₂) (hmem : .block b ∈ s.children)
    (hused : start.used ⊆ s.reserved) (hpost : StatPost t nest s c c₁) :
    StatPost t nest s c c₂ where
  one := h.one
  vars x hname hvisible hdefined hopen :=
    h.vars x hname hvisible (hpost.vars x hname hvisible hdefined hopen)
  temps x hx hnot := by
    have hblock : x ∉ (block b).reserved := by
      intro hxb
      rw [reserved_eq] at hnot
      grind
    rw [h.temps x hx hblock fun hxu => hnot (hused hxu), hpost.temps x hx hnot]

theorem StatPost.refl (s : Node) (hone : ∀ x, (c x).refs ≤ 1) : StatPost t nest s c c :=
  ⟨hone, fun _ _ _ _ h => h, fun _ _ _ => rfl⟩

/-- A block that does not belong to a loop. -/
theorem branch_wp (hb : BlockSafe t nest b) (henters : Enters t s {} b)
    (hfits : Fits t nest (innerReserved s) outer) (hpost : StatPost t nest s c c₁) :
    Wp (.block (countBlock {} outer b)) (StatQ t nest outer s c) c₁ := by
  refine (hb {} outer c₁ (hfits.enter henters) begins_empty hpost.one).mono
    fun exit c' hne hexit => ?_
  cases exit with
  | next => exact BlockPost.stat hexit henters.mem nofun hpost
  | broke => exact absurd rfl hexit.1
  | returned kept => exact hexit
  | cut => exact absurd rfl hne

/-- **Statements.**  Nothing leaks on the paths through the code of a built statement. -/
theorem BuiltStat.safe (h : BuiltStat t returns nest s)
    (hreserves : ReservesTemps t s) : StatSafe t nest s := by
  refine BuiltStat.lowering (S := StatSafe t) (B := BlockSafe t)
    ?leaf ?ifStat ?whileStat ?blockStat ?inner ?block h hreserves
  case leaf =>
    intro nest s setup rest hleaf _ hreserves sweep c hfits hone hready
    exact leaf_wp hleaf hreserves hfits.nodup hone hready
  case ifStat =>
    intro nest cond b other _ hcond hreserves hb hother sweep c hfits hone hready
    set s := ifStat (some cond) (some (.block b)) (other.map block) with hs
    have hused : (hoist cond).1.used ⊆ s.reserved := by
      intro x hx
      rw [hs, reserved_ifStat]
      exact mem_append_left _ (hcond.reserved x hx)
    have htemps : (lowerStat s).temps = (hoist cond).1.temps := append_nil _
    rw [hs, codeOf_ifStat, ← hs, branchOf_block, branchOf_map]
    refine wp_append (hcond.prepared.wp hone (htemps ▸ hready.temps) fun c₁ h₁ => ?_)
    have hpost : StatPost t nest s c c₁ := by
      refine ⟨h₁.one, fun x hx _ _ hopen => ?_, fun x _ hx => h₁.frame x fun h => hx (hused h)⟩
      rwa [Overwritable, h₁.frame x fun h => (hreserves.isTemp x (hused h)).ne hx rfl]
    rw [andThen_next]
    refine wp_single (wp_ifStat (branch_wp hb (.yes _) hfits hpost) (fun d hd => ?_) hpost)
    obtain ⟨b', rfl, rfl⟩ := Option.map_eq_some_iff.mp hd
    exact branch_wp (hother b' rfl) (.no _ rfl) hfits hpost
  case whileStat =>
    intro nest cond b _ hcond hreserves hb sweep c hfits hone hready
    have henters : Enters t _ (loopStart cond) b := .body hcond hreserves
    rw [codeOf_whileStat, branchOf_block]
    -- every round keeps what is known after the rounds before
    refine wp_single (wp_whileStat
      (fun c₁ h₁ => ?_) (fun _ h => h) (.refl _ hone))
    refine (hb (loopStart cond) sweep c₁ (hfits.enter henters) (begins_loopStart hcond) h₁.one).mono
      fun exit c' hne hexit => ?_
    have hused := fun x hx => mem_reserved_of_inner (henters.used x hx)
    cases exit with
    | next => exact BlockPost.stat hexit henters.mem hused h₁
    | broke => exact BlockPost.stat hexit.2 henters.mem hused h₁
    | returned kept => exact hexit
    | cut => exact absurd rfl hne
  case blockStat =>
    intro nest b hb sweep c hfits hone _
    rw [codeOf_blockStat, branchOf_block]
    exact wp_single (wp_blockStat (branch_wp hb .inner hfits (.refl _ hone)))
  case inner =>
    intro nest b hb sweep c hfits hone _
    rw [codeOf_block]
    refine wp_single (wp_inner ?_)
    refine (hb {} sweep c hfits.block begins_empty hone).mono fun exit c' hne hexit => ?_
    cases exit with
    | next =>
      exact ⟨hexit.one, fun x hx hv _ => hexit.vars x hx hv,
        fun x hx hnot => hexit.temps x hx hnot nofun⟩
    | broke => exact absurd rfl hexit.1
    | returned kept => exact hexit
    | cut => exact absurd rfl hne
  case block => exact fun shape hscoped ih => builtBlock_safe shape hscoped ih

/-! ## Functions -/

/-- A path of a function, whose slots are empty at first and at the end. -/
theorem safe_path {exit : Exit}
    (h : Wp (.block b) (Emptied slots) fun _ => {}) (hrun : Runs (.block b) acts exit) :
    Safe (fun _ => {}) (.enter slots :: (acts ++ leaving slots exit)) := by
  have hempty : Act.apply (fun _ => {}) (.enter slots) = fun _ => {} := funext fun _ => ite_self _
  refine ⟨trivial, ?_⟩
  rw [hempty]
  exact safe_append.mpr ⟨(h acts exit hrun).1, safe_leaving (h acts exit hrun).2⟩

theorem func_safe {n : Node} (h : n.IsBuiltFunc t)
    (hpath : (countFunc n).HasPath globals acts) : Safe (fun _ => {}) acts := by
  obtain ⟨head, args, scope, vars, b, rfl, hfunc⟩ := h
  rw [countFunc, heapArgs_argDefs] at hpath
  cases hpath with
  | func body =>
    rw [heapArgs_argDefs]
    refine safe_path ?_ body
    have hscoped := Scoped.ofFunc hfunc
    have hinner := fits_ownSlots hfunc.body hscoped (params_fit hfunc)
    -- parameters are no slots of the body
    have hparam : ∀ s ∈ b.stats, ∀ x, x ∈ heapNames (lowerStat s).temps ∨
        s.definedSlot? = some x → x ∉ heapNames args := by
      intro s hs x hx harg
      obtain ⟨p, hp, rfl⟩ := mem_map.mp (mem_heapNames harg)
      rcases hx with hx | hx
      · exact (hscoped.temps hs hx).1.ne (hfunc.varNames p hp) rfl
      · obtain ⟨q, hq, hqp⟩ := mem_map.mp (mem_heapNames (hscoped.defined hs hx))
        exact hfunc.body.apart q hq _ (.head _)
          (hqp ▸ mem_map_of_mem hp)
    refine countBlock_wp hfunc.body.locals
      (begins_refers (hfunc.nodup.sublist (heapNames_sublist args)))
      (fun s hs => BuiltStat.safe (hfunc.stats s hs) (hscoped.child hs)) hscoped.inOrder hinner
      (fun _ => Nat.zero_le 1) (fun _ _ => .inr rfl) (fun s hs x hx => ⟨.inr rfl, hparam s hs x hx⟩)
      (fun _ _ h => h) (fun c' h x hx => ?_) (fun htemps => absurd rfl htemps)
      fun kept c' h x hx => ?_
    · rw [if_neg (by simp)]
      refine h.emptied x (mem_append_right _ ?_)
      rw [hfunc.body.body]
      exact mem_reverse.mpr hx
    · exact h x (mem_append_right _ (mem_reverse.mpr hx))

theorem main_safe (h : BuiltMain t vars b) (hpath : (mainFunc (some (.block
      (countBlock {} (heapNames vars).reverse b)))).HasPath (heapNames vars) acts) :
    Safe (fun _ => {}) acts := by
  cases hpath with
  | main body =>
    refine safe_path ?_ body
    have hscoped := Scoped.ofMain h
    have hlocals : b.locals = map declOf [] := h.locals
    refine countBlock_wp hlocals begins_empty
      (fun s hs => BuiltStat.safe (h.stats s hs) (hscoped.child hs)) hscoped.inOrder
      (globals_fit h) (fun _ => Nat.zero_le 1) nofun (fun _ _ _ _ => ⟨.inr rfl, nofun⟩)
      (fun _ _ h => h) (fun c' hc x hx => ?_) (fun htemps => absurd rfl htemps)
      fun kept c' h x hx => ?_
    · rw [if_neg nofun]
      refine hc.emptied x (mem_append_right _ ?_)
      rw [h.body]
      exact mem_reverse.mpr hx
    · exact h x (mem_append_right _ (mem_reverse.mpr hx))

end Counting

/-- The heap slots of the global variables of a file. -/
def Node.globalSlots : Node → List String
  | file globals _ _ => heapNames ((globals.map Prod.snd).filterMap declared?)
  | _ => []

/-- Nothing leaks on the paths of the functions of a file. -/
def Node.LeaksNothing (n : Node) : Prop :=
  ∀ f ∈ n.functions, ∀ acts, f.HasPath n.globalSlots acts → Safe (fun _ => {}) acts

theorem Node.IsBuiltFile.leaksNothing {t : Table} {n : Node} (h : n.IsBuiltFile t) :
    n.counted.LeaksNothing := by
  obtain ⟨vars, funcs, b, rfl, hfuncs, hmain⟩ := h
  intro f hf acts hpath
  rcases mem_append.mp (show f ∈ funcs.map countFunc ++ _ from hf) with hf | hf
  · obtain ⟨g, hg, rfl⟩ := mem_map.mp hf
    exact func_safe (hfuncs g hg) hpath
  · obtain rfl := mem_singleton.mp hf
    have hglobals : (counted (.file (vars.map declOf) funcs
        (some (.mainFunc (some (.block b)))))).globalSlots = heapNames vars := by
      simp [counted, globalSlots, declOf, declared?, Function.comp_def]
    rw [hglobals, countMain, slotsIn_declOf] at hpath
    exact main_safe hmain hpath

/-- **No leaked slot.**  On every path through a function of a script without errors, stores hit
empty slots and the slots of a block are empty where it is left, apart from the one reference that
is returned; but a definition overwrites what has been assigned to its variable before. -/
theorem no_leaked_slot (source : String) (report : Report)
    (h : (ofSource source report).report.hasErrors = false) :
    ∃ model, Node.ofScript (ofSource source report).script
        (ofSource source report).table = .ok model ∧
      (model.inject (ofSource source report).table).LeaksNothing := by
  obtain ⟨base, hacc⟩ := accepted h
  obtain ⟨model, hmodel, hshape⟩ := hacc.ofScript
  refine ⟨model, hmodel, ?_⟩
  rw [inject_eq_counted hacc.typed.wellFormed hshape]
  exact hshape.leaksNothing

/-- A script with a loop, a guarded operand and returns out of nested blocks. -/
def guardedLoop : String :=
  "func f(p : string) : string \x7b\n  var a = p\n" ++
  "  while (a != \"x\" && a + p != \"xx\") \x7b a = a + p " ++
  "if (a == p) \x7b return a + \"y\" \x7d \x7d\n" ++
  "  return a\n\x7d\nvar r = f(\"x\")\nr = r + \"z\"\nprint(r)\n"

set_option maxRecDepth 20000 in
/-- The script with the loop is accepted, and nothing leaks on its paths. -/
theorem no_leaked_slot_guardedLoop : (ofSource guardedLoop {}).report.hasErrors = false ∧
      ∃ model, Node.ofScript (ofSource guardedLoop {}).script
          (ofSource guardedLoop {}).table = .ok model ∧
        (model.inject (ofSource guardedLoop {}).table).LeaksNothing :=
  have haccepted : (ofSource guardedLoop {}).report.hasErrors = false := by decide +kernel
  ⟨haccepted, no_leaked_slot guardedLoop {} haccepted⟩

/-! ## A definition after an assignment -/

/-- The slots that own a reference when a value is stored in them. -/
def overwritten : Slots → List Act → List String
  | _, [] => []
  | c, a :: acts =>
    (match a with
      | .store _ name ty _ _ => if ty.isHeap && (c name).refs != 0 then [name] else []
      | _ => []) ++ overwritten (a.apply c) acts

/-- A script that assigns a variable before it defines it. -/
def lateString : String := "s = \"a\"\nvar s = \"b\"\n"

set_option maxRecDepth 20000 in
/-- In an accepted script a definition loses the reference to what was assigned before. -/
theorem lateString_leaks : (ofSource lateString {}).report.hasErrors = false ∧
      ∃ model, Node.ofScript (ofSource lateString {}).script
          (ofSource lateString {}).table = .ok model ∧
        ∃ f ∈ (model.inject (ofSource lateString {}).table).functions, ∃ acts,
          f.HasPath (model.inject (ofSource lateString {}).table).globalSlots acts ∧
            overwritten (fun _ => {}) acts = ["s"] := by
  refine ⟨by decide +kernel, ?_⟩
  set analysis := ofSource lateString {} with hanalysis
  have hrun : ((ofScript analysis.script analysis.table).toOption.bind fun model =>
      (model.inject analysis.table).functions.getLast?.bind fun f =>
        (f.straightPath (model.inject analysis.table).globalSlots).map
          (overwritten fun _ => {})) = some ["s"] := by
    rw [hanalysis]
    decide +kernel
  obtain ⟨model, hmodel, hrun⟩ := Option.bind_eq_some_iff.mp hrun
  obtain ⟨f, hf, hrun⟩ := Option.bind_eq_some_iff.mp hrun
  obtain ⟨acts, hacts, hover⟩ := Option.map_eq_some_iff.mp hrun
  exact ⟨model, ofScript_of_toOption hmodel, f, mem_of_getLast? hf, acts,
    hasPath_straight hacts, hover⟩

end WichToC

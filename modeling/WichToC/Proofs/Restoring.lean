import WichToC.Proofs.Erasure

/-!
# Restoring models

Erasing the counts of a model gives back the model before counting.  A statement of it becomes a few
statements, and erasing these restores the statement: what is moved ahead is put back, and the code
around the statement is not touched since no other statement reads its temporaries.

The loop that evaluates its condition in its body is the only statement with blocks that does not
keep its form, and the only place where a counted block starts with something else than its
statements.
-/

namespace WichToC

open List Node Analysis

variable {t : Table}
variable {e m : Node} {rest : List Node} {vars : List (String × Ty)}

/-- Values of temporaries do not matter for an expression that binds all it reads. -/
theorem Node.ClosedExpr.inlineWith_eq (he : e.ClosedExpr t) (values : Values) :
    e.inlineWith values = e.inlined := by
  refine inlineWith_congr (he.expr.imp fun _ => IsExprNode.isValue) fun x hx => ?_
  rw [he.closed] at hx
  cases hx

namespace Counting

variable {e n c i : Node} {s : Setup} {holder capture : String} {holderTy ty : Ty}
  {sweep : List String} {code ss : List Node} {b : CBlock Node} (slots : List String)

/-! ## Closed expressions -/

theorem touched_of_closed (he : e.ClosedExpr t) : Moved.touched e = e.reserved := by
  rw [Moved.touched, he.closed, nil_append]

/-- What is left of two expressions after their code. -/
theorem erases_both {l r ml mr : Node} {sl sr : Setup} (hl : Moved l sl ml) (hr : Moved r sr mr)
    (hlclosed : l.ClosedExpr t) (hrclosed : r.ClosedExpr t)
    (hnodup : (l.reserved ++ r.reserved).Nodup) (values : Values) :
    ∃ values', ml.eraseWith values' = l.inlined ∧ mr.eraseWith values' = r.inlined ∧
      ∀ rest, (ml.freeTemps ++ mr.freeTemps ⊆ reads rest) →
        eraseStats (sl.stats ++ sr.stats ++ rest) values = eraseStats rest values' := by
  obtain ⟨hlnodup, hrnodup, hdisjoint⟩ := nodup_append.mp hnodup
  obtain ⟨newLeft, hleft⟩ := hl.erases (tempsApart_of_closed hlclosed hlnodup) values
  obtain ⟨newRight, hright⟩ := hr.erases (tempsApart_of_closed hrclosed hrnodup) (newLeft ++ values)
  refine ⟨newRight ++ (newLeft ++ values), ?_, ?_, fun rest hrest => ?_⟩
  · rw [hleft.later hl fun p hp hx => ?_, hlclosed.inlineWith_eq]
    rw [touched_of_closed hlclosed] at hx
    exact hdisjoint _ hx _ (hr.names_reserved (hright.names p hp)) rfl
  · rw [hright.value, hrclosed.inlineWith_eq]
  · rw [append_assoc, hleft.stats, hright.stats]
    · grind
    · intro x hx
      rw [reads_append]
      grind

/-! ## Statements without blocks -/

/-- A statement that is made from one expression. -/
structure Wraps (f : Node → Node) : Prop where
  simple : ∀ e, isSimple (f e) = true
  kept : ∀ e, isKept (f e) = true
  children : ∀ e, (f e).children = [e]
  map : ∀ e g, (f e).mapChildren g = f (g e)

theorem kind_of_isSimple (h : isSimple n = true) :
    n.kind ≠ .bind ∧ n.kind ≠ .block ∧ n.kind ≠ .varRef := by
  cases n <;> try (cases h; done)
  case count kind _ => cases kind <;> exact ⟨nofun, nofun, nofun⟩
  all_goals exact ⟨nofun, nofun, nofun⟩

theorem refold_bare_of_isSimple (h : isSimple n = true) : n.bare.refold = n ∧ n.bare = n := by
  cases n <;> first | (cases h; done) | exact ⟨rfl, rfl⟩

namespace Wraps

variable {f : Node → Node} (h : Wraps f)
include h

theorem freeTemps (e : Node) : (f e).freeTemps = e.freeTemps := by
  obtain ⟨hbind, -, hvar⟩ := kind_of_isSimple (h.simple e)
  exact freeTemps_single (h.children e) hbind hvar

theorem eraseWith (e : Node) (values : Values) :
    (f e).eraseWith values = f (e.eraseWith values) := by
  obtain ⟨-, hblock, hvar⟩ := kind_of_isSimple (h.simple e)
  rw [eraseWith_node hblock hvar, h.map, (refold_bare_of_isSimple (h.simple _)).1]

theorem inlined (e : Node) : (f e).inlined = f e.inlined := by
  obtain ⟨hbind, -, hvar⟩ := kind_of_isSimple (h.simple e)
  rw [Node.inlined, inlineWith_node hbind hvar, h.map, (refold_bare_of_isSimple (h.simple _)).2]
  rfl

theorem reads_stat (e : Node) (rest : List Node) :
    reads (f e :: rest) = e.freeTemps ++ reads rest := by
  rw [reads_cons, h.freeTemps]

/-- An expression is put back into its statement. -/
theorem erases {values new : Values} (herases : Erases e s m values new)
    (he : e.ClosedExpr t) (between : List Node)
    (hbetween : ∀ ns values, eraseStats (between ++ ns) values = eraseStats ns values)
    (rest : List Node) :
    eraseStats (s.stats ++ (between ++ f m :: rest)) values =
      (f e).inlined :: eraseStats rest (new ++ values) := by
  rw [herases.stats, hbetween, eraseStats_kept (h.kept m), h.eraseWith, herases.value,
    he.inlineWith_eq, h.inlined]
  intro x hx
  rw [reads_append, h.reads_stat]
  exact mem_append_right _ (mem_append_left _ hx)

theorem erases_moved (hmoved : Moved e s m)
    (hexprs : ∀ c ∈ (f e).children, c.ClosedExpr t) (hnodup : (f e).reserved.Nodup)
    (rest : List Node) (values : Values) :
    ∃ values', eraseStats (s.stats ++ f m :: rest) values =
      (f e).inlined :: eraseStats rest values' := by
  have hmem : e ∈ (f e).children := h.children e ▸ .head _
  obtain ⟨new, hnew⟩ := hmoved.erases
    (tempsApart_of_closed (hexprs e hmem) (nodup_reserved_child hnodup hmem)) values
  exact ⟨_, h.erases hnew (hexprs e hmem) [] (fun _ _ => rfl) rest⟩

end Wraps

theorem wraps_varDef (name : String) (ty : Ty) : Wraps fun e => .varDef name ty (some e) :=
  ⟨fun _ => rfl, fun _ => rfl, fun _ => rfl, fun _ _ => rfl⟩

theorem wraps_assign (name : String) (ty : Ty) (capture : String) :
    Wraps fun e => .assign name ty capture (some e) :=
  ⟨fun _ => rfl, fun _ => rfl, fun _ => rfl, fun _ _ => rfl⟩

theorem wraps_printStat (ty : Ty) : Wraps fun e => .printStat (some ty) (some e) :=
  ⟨fun _ => rfl, fun _ => rfl, fun _ => rfl, fun _ _ => rfl⟩

theorem wraps_callStat : Wraps fun e => .callStat (some e) :=
  ⟨fun _ => rfl, fun _ => rfl, fun _ => rfl, fun _ _ => rfl⟩

theorem wraps_returnStat (ty : Ty) (capture : String) :
    Wraps fun e => .returnStat ty capture (some e) :=
  ⟨fun _ => rfl, fun _ => rfl, fun _ => rfl, fun _ _ => rfl⟩

/-- The code of a new heap value that is not used is the call that makes it. -/
theorem Moved.erases_unused
    (h : Moved e s (.temp holder holderTy)) (he : e.ClosedExpr t) (hnodup : e.reserved.Nodup)
    (hheap : e.isHeap = true) (hvar : e.kind ≠ .varRef)
    (hrest : ∀ x ∈ e.reserved, x ∉ reads rest) (values : Values) :
    ∃ values', eraseStats (s.stats ++ rest) values =
      .callStat (some e.inlined) :: eraseStats rest values' := by
  have hholder : holder ∈ e.reserved := by
    rw [← touched_of_closed he]
    exact h.free_touched (.head _)
  obtain ⟨before, value, ty, adopts, rfl, -, herases⟩ :=
    h.defined_last rfl (tempsApart_of_closed he hnodup) hheap hvar
  obtain ⟨new, hnew⟩ := herases values
  refine ⟨new ++ values, ?_⟩
  have hlast : eraseStats ((Setup.define holder ty value adopts).stats ++ rest) (new ++ values) =
      .callStat (some (value.eraseWith (new ++ values))) :: eraseStats rest (new ++ values) := by
    unfold Setup.define
    dsimp only
    split
    · refine (eraseStats_unread fun hmem => hrest holder hholder ?_).trans rfl
      simpa [refer] using hmem
    · exact eraseStats_unread (hrest holder hholder)
  rw [Setup.stats_append, append_assoc, hnew.stats, hlast, hnew.value, he.inlineWith_eq]
  intro x hx
  rw [reads_append, reads_define]
  exact mem_append_left _ hx

theorem Moved.reads_reserved (h : Moved e s m) (he : e.ClosedExpr t) :
    reads s.stats ++ m.freeTemps ⊆ e.reserved := by
  intro x hx
  rw [← touched_of_closed he]
  exact append_subset.mpr ⟨h.reads_touched, h.free_touched⟩ hx

theorem reserved_elementAssign {name : String} :
    (elementAssign name (some i) (some e)).reserved = i.reserved ++ e.reserved := by
  simp [reserved_eq (.elementAssign ..), children, ownNames, temp?]

theorem freeTemps_elementAssign {name : String} :
    (elementAssign name (some i) (some e)).freeTemps = i.freeTemps ++ e.freeTemps := by
  rw [Build.freeTemps_eq (n := .elementAssign ..) nofun nofun]
  simp [children]

theorem reads_releases : reads (releases slots) = [] := reads_counts .deref slots

theorem eraseStats_releases (ns : List Node) (values : Values) :
    eraseStats (releases slots ++ ns) values = eraseStats ns values :=
  eraseStats_counts .deref slots ns values

/-- The operands of a closed expression. -/
theorem closed_operands {kind : OperandKind} {op temp : String} {operandTy : Ty} {l r : Node}
    (h : (binary kind op ty operandTy temp (some l) (some r)).ClosedExpr t) :
    l.ClosedExpr t ∧ r.ClosedExpr t := by
  have hclosed := h.closed
  rw [Moved.freeTemps_binary, append_eq_nil_iff] at hclosed
  exact ⟨⟨h.expr.inside l (by simp [children]), hclosed.1⟩,
    ⟨h.expr.inside r (by simp [children]), hclosed.2⟩⟩

/-- The code of a statement reads the temporaries that the statement reserves. -/
theorem StatForm.reads_reserved {s : Node}
    (h : StatForm sweep s code) (hexprs : ∀ c ∈ s.children, c.ClosedExpr t) :
    reads code ⊆ s.reserved := by
  refine h.of_parts (P := fun ns => reads ns ⊆ s.reserved)
    (Q := fun m => m.freeTemps ⊆ s.reserved) nofun
    (fun h h' => reads_append ▸ forall_mem_append.mpr ⟨h, h'⟩) (fun he hmoved _ => ?_)
    (fun hname hm _ => ⟨reads_define .. ▸ hm, forall_mem_singleton.mpr ?_⟩)
    (fun {n} hsame hcs => ?_)
    (fun _ _ _ => nofun) (fun _ => nofun) (reads_releases sweep ▸ nofun) ?_
  · exact forall_mem_append.mp fun x hx =>
      mem_reserved_child he (hmoved.reads_reserved (hexprs _ he) hx)
  · exact mem_reserved_own hname
  · have hreads : reads [n] = n.children.flatMap freeTemps := by
      rw [reads_cons, reads_nil, append_nil]
      cases hsame <;> exact Build.freeTemps_eq nofun nofun
    rw [hreads]
    exact forall_mem_flatMap.mpr hcs
  · rintro op temp ty operandTy l r - rfl left right rfl x hx
    obtain ⟨hl, hr⟩ := closed_operands (hexprs _ (.head _))
    rw [reads_append, reads_append, wraps_callStat.reads_stat, Moved.freeTemps_binary] at hx
    refine mem_reserved_child (.head _) ?_
    rw [reserved_binary]
    have hl := left.reads_reserved hl
    have hr := right.reads_reserved hr
    simp only [mem_append, reads_nil, append_nil] at hx hl hr ⊢
    grind

/-- Erasing the code of a statement restores it. -/
theorem StatForm.erases {s : Node}
    (h : StatForm sweep s code) (hexprs : ∀ c ∈ s.children, c.ClosedExpr t)
    (hnodup : s.reserved.Nodup) (hrest : ∀ x ∈ s.reserved, x ∉ reads rest) (values : Values) :
    ∃ values', eraseStats (code ++ rest) values = s.inlined :: eraseStats rest values' := by
  have closed : ∀ c ∈ s.children, TempsApart t c := fun c hc =>
    tempsApart_of_closed (hexprs c hc) (nodup_reserved_child hnodup hc)
  cases h with
  | @varDef name ty e m setup moved =>
    rw [append_assoc]
    obtain ⟨values', hstats⟩ := (wraps_varDef name ty).erases_moved moved hexprs hnodup
      ((if ty.isHeap then [.refer name] else []) ++ rest) values
    refine ⟨values', hstats.trans (congrArg _ ?_)⟩
    split <;> rfl
  | @assign name capture ty e m setup _ moved =>
    rw [append_assoc]
    exact (wraps_assign name ty capture).erases_moved moved hexprs hnodup rest values
  | @assignHeap name capture holder ty holderTy e setup _ held =>
    have hmem : e ∈ (Node.assign name ty capture (some e)).children := .head _
    obtain ⟨new, hnew⟩ := held.erases (closed e hmem) values
    refine ⟨new ++ values, ?_⟩
    rw [append_assoc]
    exact (wraps_assign name ty capture).erases hnew (hexprs e hmem) [.release name]
      (fun _ _ => rfl) (.refer name :: rest)
  | @elementAssign name i e i' m setup setup' place moved =>
    rw [reserved_elementAssign] at hnodup
    obtain ⟨values', hi, he, hstats⟩ := erases_both place moved
      (hexprs i (by simp [children]))
      (hexprs e (by simp [children])) hnodup values
    refine ⟨values', ?_⟩
    rw [append_assoc, hstats, singleton_append, eraseStats_kept rfl]
    · show Node.elementAssign name (some (i'.eraseWith values'))
        (some (m.eraseWith values')) :: _ = _
      rw [hi, he]
      rfl
    · intro x hx
      rw [singleton_append, reads_cons, freeTemps_elementAssign]
      exact mem_append_left _ hx
  | printNothing => exact ⟨values, rfl⟩
  | @printStat ty e m setup moved =>
    rw [append_assoc]
    exact (wraps_printStat ty).erases_moved moved hexprs hnodup rest values
  | @callHeap e setup holder holderTy heap notVar moved =>
    have hmem : e ∈ (Node.callStat (some e)).children := .head _
    rw [reserved_of_child rfl rfl] at hnodup hrest
    rw [wraps_callStat.inlined]
    exact moved.erases_unused (hexprs e hmem) hnodup heap notVar hrest values
  | callStat _ moved =>
    rw [append_assoc]
    exact wraps_callStat.erases_moved moved hexprs hnodup rest values
  | @callLogical op temp ty operandTy l r _ left right =>
    obtain ⟨hl, hr⟩ := closed_operands (hexprs _ (.head _))
    rw [reserved_of_child rfl rfl, reserved_binary] at hnodup
    obtain ⟨values', hleft, hright, hstats⟩ := erases_both left right hl hr
      (nodup_append.mp hnodup).1 values
    refine ⟨values', ?_⟩
    rw [append_assoc, hstats, singleton_append, eraseStats_kept rfl, wraps_callStat.eraseWith,
      wraps_callStat.inlined]
    · show Node.callStat (some (.binary .int op ty operandTy temp
        (some ((hoist l).2.eraseWith values')) (some ((hoist r).2.eraseWith values')))) :: _ = _
      rw [hleft, hright]
      rfl
    · intro x hx
      rw [singleton_append, wraps_callStat.reads_stat, Moved.freeTemps_binary]
      exact mem_append_left _ hx
  | @returnStat capture ty e m setup heap moved =>
    have hmem : e ∈ (Node.returnStat ty capture (some e)).children := .head _
    obtain ⟨new, hnew⟩ := moved.erases (closed e hmem) values
    have hdef := (wraps_returnStat ty capture).erases (hnew.define capture ty false) (hexprs e hmem)
      (releases sweep) (eraseStats_releases sweep) rest
    refine ⟨_, Eq.trans ?_ hdef⟩
    simp [Setup.stats_append, Setup.define, heap]
  | @returnHeap capture holder ty holderTy e setup _ held =>
    have hmem : e ∈ (Node.returnStat ty capture (some e)).children := .head _
    obtain ⟨new, hnew⟩ := held.erases (closed e hmem) values
    refine ⟨new ++ values, Eq.trans ?_ ((wraps_returnStat ty capture).erases
      hnew (hexprs e hmem) (.refer holder :: releases sweep)
      (fun ns values => eraseStats_releases sweep ns values) rest)⟩
    simp

/-! ## Assignments -/

theorem assigns_define {x name : String} {value : Node} {adopts : Bool} :
    ∀ n ∈ (Setup.define name ty value adopts).stats, assigns x n = false := by
  unfold Setup.define
  dsimp only
  split <;> simp [assigns, refer]

/-- The code of a moved expression assigns nothing outside its blocks. -/
theorem Moved.assigns_nothing (h : Moved e s m) (x : String) :
    ∀ n ∈ s.stats, assigns x n = false := by
  have happend : ∀ a b : Setup, (∀ n ∈ a.stats, assigns x n = false) →
      (∀ n ∈ b.stats, assigns x n = false) → ∀ n ∈ (a ++ b).stats, assigns x n = false := by
    intro a b ha hb n hn
    rw [Setup.stats_append] at hn
    exact (mem_append.mp hn).elim (ha n) (hb n)
  induction h with
  | var => nofun
  | operation _ _ _ _ ih =>
    intro n hn
    obtain ⟨setup, hsetup, hn⟩ := mem_flatMap.mp hn
    grind
  | fresh _ _ _ _ _ _ _ ih => exact happend _ _ ih assigns_define
  | inPlace _ _ _ _ ihl => exact ihl
  | guarded _ _ _ _ ihl =>
    refine happend _ _ (happend _ _ ihl assigns_define) (forall_mem_singleton.mpr ?_)
    rw [rightOperand_eq]
    rfl
  | bind _ _ ihv ihb => exact happend _ _ (happend _ _ ihv assigns_define) ihb

/-- A statement of the code assigns what the statement before counting assigns. -/
theorem StatForm.assigns_same {s : Node}
    (h : StatForm sweep s code) (x : String) :
    ∀ n ∈ code, assigns x n = true → assigns x s = true := by
  have hnot : ∀ {ns : List Node}, (∀ n ∈ ns, assigns x n = false) →
      ∀ n ∈ ns, assigns x n = true → assigns x s = true := by grind
  have hcount : ∀ {kind slot}, ∀ n ∈ [count kind slot], assigns x n = true → assigns x s = true :=
    hnot (forall_mem_singleton.mpr rfl)
  refine h.of_parts (P := fun ns => ∀ n ∈ ns, assigns x n = true → assigns x s = true)
    (Q := fun _ => True) nofun (fun h h' => forall_mem_append.mpr ⟨h, h'⟩)
    (fun _ hmoved _ => ⟨hnot (hmoved.assigns_nothing x), trivial⟩)
    (fun _ _ _ => ⟨hnot assigns_define, trivial⟩) (fun hsame _ => ?_)
    (fun _ _ _ => hcount) (fun _ => hcount) (hnot (forall_mem_map.mpr fun _ _ => rfl)) ?_
  · cases hsame <;> exact forall_mem_singleton.mpr id
  · rintro _ _ _ _ l r - rfl left right rfl
    exact forall_mem_append.mpr ⟨forall_mem_append.mpr ⟨hnot (left.assigns_nothing x),
      hnot (right.assigns_nothing x)⟩, hnot (forall_mem_singleton.mpr rfl)⟩

/-! ## Blocks -/

/-- A block that declares variables and nothing else. -/
structure PlainBlock (b : CBlock Node) : Prop where
  locals : ∃ vars : List (String × Ty), b.locals = vars.map Build.declOf
  temps : ∀ p ∈ b.temps, ∃ name ty, p.2 = .tempDecl name ty
  cleanup : b.cleanup = []

namespace PlainBlock

variable {b : CBlock Node} (h : PlainBlock b) (start : Setup) (outer : List String)
include h

theorem inlined : (block b).inlined =
    .block { b with
      temps := [], stats := b.stats.map inlined, cleanup := [], injected := false } := by
  obtain ⟨vars, hvars⟩ := h.locals
  have hlocals : b.locals.map (fun p => (p.1, p.2.inlineWith [])) = b.locals := by
    rw [hvars, map_map]
    rfl
  rw [Node.inlined, inlineWith_node (n := .block b) nofun nofun]
  show block { b with
    locals := b.locals.map fun p => (p.1, p.2.inlineWith []), temps := []
    stats := b.stats.map Node.inlined, cleanup := b.cleanup.map _, injected := false } = _
  rw [hlocals, h.cleanup]
  rfl

theorem eraseWith_countBlock (values : Values) :
    (block (countBlock start outer b)).eraseWith values =
      .block { b with
        temps := [], cleanup := [], injected := false
        stats :=
          eraseStats (start.stats ++ codesOf (ownSlots start b ++ outer) b.stats) values } := by
  obtain ⟨vars, hvars⟩ := h.locals
  have hdecls : ∀ setup : Setup, setup.decls.filter (fun p => !p.2.isTempDecl) = [] := by
    intro setup
    refine filter_eq_nil_iff.mpr fun p hp => ?_
    obtain ⟨q, -, rfl⟩ := mem_map.mp hp
    nofun
  have hlocals : (countBlock start outer b).vars = b.locals := by
    rw [CBlock.vars, locals_countBlock, filter_append, filter_append, hdecls, hdecls, hvars,
      nil_append, append_nil]
    refine filter_eq_self.mpr fun p hp => ?_
    obtain ⟨q, -, rfl⟩ := mem_map.mp hp
    rfl
  rw [eraseWith_block, hlocals, stats_countBlock]
  rfl

theorem freeTemps_countBlock : (block (countBlock start outer b)).freeTemps =
      reads start.stats ++ reads (codesOf (ownSlots start b ++ outer) b.stats) := by
  obtain ⟨vars, hvars⟩ := h.locals
  rw [freeTemps_block, stats_countBlock, reads_append]
  · intro p hp
    rw [locals_countBlock, hvars] at hp
    simp only [Setup.decls, mem_append, mem_map] at hp
    rcases hp with (⟨q, -, rfl⟩ | ⟨q, -, rfl⟩) | ⟨q, -, rfl⟩ <;> rfl
  · intro p hp
    obtain ⟨name, ty, hdecl⟩ := h.temps p hp
    rw [hdecl]
    rfl
  · rw [cleanup_countBlock]
    split
    · rfl
    · exact reads_releases _

end PlainBlock

/-! ## What restoring a statement needs -/

/-- Erasing the code of a statement restores it, if no code after it reads its temporaries. -/
structure Restores (s : Node) : Prop where
  reads_reserved : ∀ sweep, ∀ x ∈ reads (codeOf sweep s), x ∈ s.reserved
  assigns_same : ∀ sweep x, ∀ n ∈ codeOf sweep s, assigns x n = true → assigns x s = true
  erases : ∀ sweep {rest}, (∀ x ∈ s.reserved, x ∉ reads rest) → ∀ values,
    ∃ values', eraseStats (codeOf sweep s ++ rest) values = s.inlined :: eraseStats rest values'

/-- A statement that is erased on its own. -/
theorem Restores.of_single {s : Node} {code : List String → Node}
    (hcode : ∀ sweep, codeOf sweep s = [code sweep])
    (hreads : ∀ sweep, (code sweep).freeTemps ⊆ s.reserved)
    (hassigns : ∀ sweep x, assigns x (code sweep) = false)
    (hkept : ∀ sweep, isKept (code sweep) = true)
    (herases : ∀ sweep values, (code sweep).eraseWith values = s.inlined) : Restores s where
  reads_reserved sweep x hx := by
    rw [hcode, reads_cons, reads_nil, append_nil] at hx
    exact hreads sweep hx
  assigns_same sweep x n hn h := by grind
  erases sweep rest _ values := by
    refine ⟨values, ?_⟩
    rw [hcode, singleton_append, eraseStats_kept (hkept sweep), herases]

theorem reads_codesOf (h : ∀ s ∈ ss, Restores s) (sweep : List String) :
    reads (codesOf sweep ss) ⊆ ss.flatMap reserved := by
  intro x hx
  rw [codesOf_eq_flatMap, reads, flatMap_assoc] at hx
  obtain ⟨s, hs, hx⟩ := mem_flatMap.mp hx
  exact mem_flatMap.mpr ⟨s, hs, (h s hs).reads_reserved sweep x hx⟩

/-- Statements one after the other. -/
theorem eraseStats_codesOf (h : ∀ s ∈ ss, Restores s)
    (hnodup : (ss.flatMap reserved).Nodup) (sweep : List String) (values : Values) :
    eraseStats (codesOf sweep ss) values = ss.map inlined := by
  induction ss generalizing values with
  | nil =>
    rw [codesOf]
    rfl
  | cons s ss ih =>
    obtain ⟨hs, hss⟩ := forall_mem_cons.mp h
    obtain ⟨-, htail, hapart⟩ := nodup_append.mp hnodup
    obtain ⟨values', hstats⟩ := hs.erases sweep
      (fun x hx hread => hapart x hx x (reads_codesOf hss sweep hread) rfl) values
    rw [codesOf, hstats, ih hss htail]
    rfl

/-- Erasing the code of a block restores it. -/
structure RestoresBlock (t : Table) (b : CBlock Node) : Prop where
  plain : PlainBlock b
  reads_reserved : ∀ sweep, ∀ x ∈ reads (codesOf sweep b.stats), x ∈ (block b).reserved
  assigns_vars : ∀ sweep x, ∀ n ∈ codesOf sweep b.stats, assigns x n = true → IsVarName t x
  enters : ∀ s ∈ b.stats, s.inlined.exitTest? = none
  erases : ∀ sweep values, eraseStats (codesOf sweep b.stats) values = b.stats.map inlined

namespace RestoresBlock

variable {b : CBlock Node}

theorem eraseWith_countBlock (h : RestoresBlock t b) (outer : List String) (values : Values) :
    (block (countBlock {} outer b)).eraseWith values = (block b).inlined := by
  rw [h.plain.eraseWith_countBlock, h.plain.inlined]
  exact congrArg (fun stats => block { b with
    temps := [], cleanup := [], injected := false, stats := stats }) (h.erases _ values)

theorem freeTemps_countBlock (h : RestoresBlock t b) (outer : List String) :
    (block (countBlock {} outer b)).freeTemps ⊆ (block b).reserved := by
  intro x hx
  rw [h.plain.freeTemps_countBlock] at hx
  exact h.reads_reserved _ x hx

end RestoresBlock

/-! ## Branches -/

/-- A branch that assigns no temporary is no right operand. -/
theorem guarded?_eq_none {other : Option Node}
    (h : ∀ x ∈ c.freeTemps, ∀ n ∈ b.stats, assigns x n = false) :
    (ifStat (some c) (some (.block b)) other).guarded? = none := by
  have hlast : ∀ x ∈ c.freeTemps, ¬b.stats.getLast?.any (assigns x) = true := by grind
  unfold guarded?
  split
  · rename_i name _ _ heq
    cases heq
    exact if_neg (hlast name (.head _))
  · rename_i name _ _ heq
    cases heq
    exact if_neg (hlast name (.head _))
  · rfl

theorem freeTemps_ifStat (c : Node) (b : CBlock Node) (other : Option (CBlock Node)) :
    (ifStat (some c) (some (.block b)) (other.map block)).freeTemps =
      c.freeTemps ++ ((block b).freeTemps ++
        (other.map block).toList.flatMap freeTemps) := by
  rw [Build.freeTemps_eq (n := .ifStat ..) nofun nofun]
  simp [children]

theorem restores_ifStat {other : Option (CBlock Node)} (hc : c.ClosedExpr t)
    (hreserves : ReservesTemps t (.ifStat (some c) (some (.block b)) (other.map block)))
    (hyes : RestoresBlock t b) (hno : ∀ b' ∈ other, RestoresBlock t b') :
    Restores (.ifStat (some c) (some (.block b)) (other.map block)) := by
  have hmoved := hoist_moved hc.expr
  have hcode : ∀ sweep, codeOf sweep (.ifStat (some c) (some (.block b)) (other.map block)) =
      (hoist c).1.stats ++ [.ifStat (some (hoist c).2) (some (.block (countBlock {} sweep b)))
        ((other.map (countBlock {} sweep)).map block)] := by
    intro sweep
    rw [codeOf_ifStat, branchOf_block]
    cases other <;> simp
  have hcond := hmoved.reads_reserved hc
  have hmem : c ∈ (ifStat (some c) (some (.block b)) (other.map block)).children := by
    simp [children]
  refine ⟨fun sweep x hx => ?_, fun sweep x n hn hassigns => ?_, fun sweep rest _ values => ?_⟩
  · rw [hcode, reads_append, reads_cons, reads_nil, append_nil, freeTemps_ifStat,
      ← append_assoc] at hx
    rw [reserved_ifStat]
    rcases mem_append.mp hx with hx | hx
    · exact mem_append_left _ (hcond hx)
    · refine mem_append_right _ ((mem_append.mp hx).elim
        (fun hx => mem_append_left _ (hyes.freeTemps_countBlock sweep hx)) fun hx => ?_)
      obtain ⟨n, hn, hx⟩ := mem_flatMap.mp hx
      simp only [Option.map_map, Option.mem_toList, Option.map_eq_some_iff,
        Function.comp_apply] at hn
      obtain ⟨b', hb', rfl⟩ := hn
      refine mem_append_right _ (mem_flatMap.mpr ⟨.block b', ?_,
        (hno b' hb').freeTemps_countBlock sweep hx⟩)
      simp [hb']
  · rw [hcode] at hn
    rcases mem_append.mp hn with hn | hn
    · rw [hmoved.assigns_nothing x n hn] at hassigns
      cases hassigns
    · rw [mem_singleton.mp hn] at hassigns
      cases hassigns
  · obtain ⟨new, hnew⟩ := hmoved.erases
      (tempsApart_of_closed hc (hreserves.child hmem).nodup) values
    have hkept : isKept (.ifStat (some (hoist c).2) (some (.block (countBlock {} sweep b)))
        ((other.map (countBlock {} sweep)).map block)) = true := by
      refine Option.isNone_iff_eq_none.mpr (guarded?_eq_none fun x hx n hn => ?_)
      rw [Bool.eq_false_iff]
      intro hassigns
      have htemp : IsTemp t x :=
        (hreserves.child hmem).isTemp x (hcond (mem_append_right _ hx))
      exact htemp.ne (hyes.assigns_vars _ x n hn hassigns) rfl
    refine ⟨new ++ values, ?_⟩
    rw [hcode, append_assoc, hnew.stats, singleton_append, eraseStats_kept hkept,
      eraseWith_node (n := .ifStat ..) (by rintro ⟨⟩) (by rintro ⟨⟩), inlined,
      inlineWith_node (n := .ifStat ..) (by rintro ⟨⟩) (by rintro ⟨⟩)]
    · show ifStat (some ((hoist c).2.eraseWith (new ++ values)))
        (some ((block (countBlock {} sweep b)).eraseWith (new ++ values)))
        (((other.map (countBlock {} sweep)).map block).map (·.eraseWith (new ++ values))) :: _ =
        ifStat (some c.inlined) (some (block b).inlined)
          ((other.map block).map inlined) :: _
      rw [hnew.value, hc.inlineWith_eq, hyes.eraseWith_countBlock]
      congr 2
      cases other with
      | none => rfl
      | some b' => exact congrArg some ((hno b' rfl).eraseWith_countBlock sweep _)
    · intro x hx
      rw [singleton_append, reads_cons, freeTemps_ifStat]
      exact mem_append_left _ (mem_append_left _ hx)

/-! ## Loops -/

theorem freeTemps_whileStat :
    (whileStat (some c) (some (.block b))).freeTemps = c.freeTemps ++ (block b).freeTemps := by
  rw [Build.freeTemps_eq (n := .whileStat ..) nofun nofun]
  simp [children]

theorem freeTemps_loopExit : (loopExit s (some c)).freeTemps = c.freeTemps := by
  have hcond : (unary .not .boolean "" (some c)).freeTemps = c.freeTemps :=
    freeTemps_single rfl nofun nofun
  have hblock : (block { stats := s.releases ++ [.breakStat], injected := true }).freeTemps =
      [] := by
    rw [freeTemps_block
      (b := { stats := s.releases ++ [.breakStat], injected := true }) nofun nofun rfl,
      reads_append, Setup.releases_eq, reads_releases]
    rfl
  have hif := freeTemps_ifStat (.unary .not .boolean "" (some c))
    { stats := s.releases ++ [.breakStat], injected := true } none
  rw [hcond, hblock] at hif
  exact hif.trans (append_nil _)

theorem reads_loop (hc : c.ClosedExpr t) :
    (loopCond c).freeTemps ++ reads (loopStart c).stats ⊆ c.reserved := by
  intro x hx
  have hread := (hoist_moved hc.expr).reads_reserved hc
  unfold loopCond loopStart at hx
  split at hx
  · exact hread (mem_append_right _ (by simpa using hx))
  · rw [Setup.stats_append, reads_append, Setup.ofStats, reads_cons, freeTemps_loopExit, reads_nil,
      append_nil] at hx
    exact hread hx

theorem isKept_loopExit (c : Option Node) : isKept (loopExit s c) = true := by
  cases c with
  | none => rfl
  | some c =>
    refine Option.isNone_iff_eq_none.mpr (guarded?_eq_none fun x _ n hn => ?_)
    rcases mem_append.mp hn with hn | hn
    · rw [Setup.releases_eq] at hn
      obtain ⟨slot, -, rfl⟩ := mem_map.mp hn
      rfl
    · rw [mem_singleton.mp hn]
      rfl

theorem eraseWith_loopExit {values : Values} : (loopExit s (some c)).eraseWith values =
      .ifStat (some (.unary .not .boolean "" (some (c.eraseWith values))))
        (some (.block { stats := [.breakStat] })) none := by
  have hcond : (unary .not .boolean "" (some c)).eraseWith values =
      .unary .not .boolean "" (some (c.eraseWith values)) := rfl
  have hblock : (block { stats := s.releases ++ [.breakStat], injected := true }).eraseWith values =
      .block { stats := [.breakStat] } := by
    have hstats : eraseStats (s.releases ++ [.breakStat]) values = [.breakStat] := by
      rw [Setup.releases_eq, eraseStats_releases]
      rfl
    rw [eraseWith_block, hstats]
    rfl
  rw [loopExit]
  show ifStat (some ((unary .not .boolean "" (some c)).eraseWith values))
    (some ((block { stats := s.releases ++ [.breakStat], injected := true }).eraseWith values))
    none = _
  rw [hcond, hblock]

/-- A loop that does not start with the test of its condition stays as it is. -/
theorem refold_of_enters (h : ∀ s ∈ b.stats, s.exitTest? = none) :
    (whileStat (some c) (some (.block b))).refold = .whileStat (some c) (some (.block b)) := by
  have hnone : b.stats.head?.bind exitTest? = none := by
    cases hstats : b.stats with
    | nil => rfl
    | cons s ss => exact h s (hstats ▸ .head _)
  unfold refold
  grind

/-- A loop that starts with the test of its condition. -/
theorem refold_of_exitTest {test : Node}
    (hstats : b.stats = test :: ss) (htest : test.exitTest? = some c) :
    (whileStat (some (.literal .bool "true" none)) (some (.block b))).refold =
      .whileStat (some c) (some (.block { b with stats := ss })) := by
  have hsome : b.stats.head?.bind exitTest? = some c := by
    rw [hstats]
    exact htest
  have htail : b.stats.tail = ss := by
    rw [hstats]
    rfl
  rw [refold, hsome, ← htail]

theorem inlined_whileStat : (whileStat (some c) (some (.block b))).inlined =
      .whileStat (some c.inlined) (some (block b).inlined) :=
  inlineWith_node nofun nofun

theorem loop_erased (hc : c.ClosedExpr t) (hnodup : c.reserved.Nodup)
    (hbody : RestoresBlock t b) (sweep : List String) (values : Values) :
    (whileStat (some (loopCond c))
      (some (.block (countBlock (loopStart c) sweep b)))).eraseWith values =
        (whileStat (some c) (some (.block b))).inlined := by
  obtain ⟨new, hnew⟩ := (hoist_moved hc.expr).erases (tempsApart_of_closed hc hnodup) values
  rw [inlined_whileStat]
  show (whileStat (some ((loopCond c).eraseWith values))
    (some ((block (countBlock (loopStart c) sweep b)).eraseWith values))).refold = _
  by_cases htemps : (hoist c).1.temps.isEmpty = true
  · have hnil : new = [] := by
      refine eq_nil_iff_forall_not_mem.mpr fun p hp => ?_
      have hnames := hnew.names p hp
      rw [Setup.names, isEmpty_iff.mp htemps] at hnames
      cases hnames
    have hvalue := hnew.value
    rw [hnil, nil_append, hc.inlineWith_eq] at hvalue
    rw [loopCond, loopStart, if_pos htemps, if_pos htemps, hvalue, hbody.eraseWith_countBlock,
      hbody.plain.inlined]
    refine refold_of_enters fun s hs => ?_
    obtain ⟨s, hmem, rfl⟩ := mem_map.mp hs
    exact hbody.enters s hmem
  · -- the test of the condition is the first statement that is left
    have hread : ∀ ns, ∀ x ∈ (hoist c).2.freeTemps,
        x ∈ reads (loopExit (hoist c).1 (some (hoist c).2) :: ns) := by
      intro ns x hx
      rw [reads_cons, freeTemps_loopExit]
      exact mem_append_left _ hx
    have hstats : ∀ sweep, eraseStats ((loopStart c).stats ++ codesOf sweep b.stats) values =
        .ifStat (some (.unary .not .boolean "" (some c.inlined)))
          (some (.block { stats := [.breakStat] })) none :: b.stats.map inlined := by
      intro sweep
      rw [loopStart, if_neg htemps, Setup.stats_append, append_assoc, Setup.ofStats,
        singleton_append, hnew.stats _ (hread _), eraseStats_kept (isKept_loopExit ..),
        eraseWith_loopExit, hnew.value, hc.inlineWith_eq, hbody.erases]
    rw [loopCond, if_neg htemps, hbody.plain.eraseWith_countBlock, hstats, hbody.plain.inlined]
    exact refold_of_exitTest rfl rfl

/-! ## Built statements -/

section BuiltStat

variable {returns : Bool} {nest : Nest} {s : Node} {b : CBlock Node}

theorem BuiltStat.varName_of_assigns (h : BuiltStat t returns nest s) {x : String}
    (hx : assigns x s = true) : IsVarName t x := by
  cases h with
  | assign varName => exact of_decide_eq_true hx ▸ varName
  | _ => cases hx

/-- Built statements do not leave loops. -/
theorem BuiltStat.inlined_ne_breakStat (h : BuiltStat t returns nest s) :
    s.inlined ≠ .breakStat := by
  intro heq
  have hkind : s.kind ≠ .bind ∧ s.kind ≠ .varRef ∧ s.kind ≠ .breakStat := by
    cases h <;> exact ⟨nofun, nofun, nofun⟩
  rw [inlined, inlineWith_node hkind.1 hkind.2.1] at heq
  cases h <;> cases heq

theorem BuiltBlock.plain {isFunctionBody : Bool} {scope : ScopeId}
    (h : BuiltBlock t isFunctionBody nest scope vars b) : PlainBlock b :=
  ⟨⟨vars, h.locals⟩, h.temps, h.cleanup⟩

theorem BuiltStat.exitTest?_inlined (h : BuiltStat t returns nest s) :
    s.inlined.exitTest? = none := by
  have hbranch : ∀ {nest : Nest} {b : CBlock Node} (c : Node) (other : Option Node),
      BuiltStat t returns nest (.block b) →
      (ifStat (some c) (some (block b).inlined) other).exitTest? = none := by
    intro nest b c other hb
    cases hb with
    | @block _ _ _ _ shape stats =>
      rw [(BuiltBlock.plain shape).inlined]
      unfold exitTest?
      split
      · rename_i heq
        injection heq with _ hblock _
        injection hblock with hblock
        injection hblock with hblock
        injection hblock with _ _ hstats
        obtain ⟨s, hs, hbreak⟩ : ∃ s ∈ b.stats, s.inlined = .breakStat := by
          rw [← mem_map, hstats]
          exact .head _
        exact absurd hbreak (BuiltStat.inlined_ne_breakStat (stats s hs))
      · rfl
  have hkind : s.kind ≠ .bind ∧ s.kind ≠ .varRef := by
    cases h <;> exact ⟨nofun, nofun⟩
  rw [inlined, inlineWith_node hkind.1 hkind.2]
  cases h with
  | ifThen _ yes => exact hbranch _ none yes
  | ifElse _ yes => exact hbranch _ _ yes
  | _ => rfl

theorem PlainBlock.reserved (h : PlainBlock b) : (block b).reserved = b.stats.flatMap reserved := by
  obtain ⟨vars, hvars⟩ := h.locals
  exact CBlock.Uncounted.reserved ⟨hvars ▸ Build.isDecl_declOf vars, h.temps, h.cleanup⟩

/-- Blocks of statements that are restored. -/
theorem restoresBlock (hplain : PlainBlock b)
    (hscoped : Scoped t returns nest vars b) (h : ∀ s ∈ b.stats, Restores s) :
    RestoresBlock t b where
  plain := hplain
  reads_reserved sweep := hplain.reserved ▸ reads_codesOf h sweep
  assigns_vars sweep x n hn hassigns := by
    rw [codesOf_eq_flatMap] at hn
    obtain ⟨s, hs, hn⟩ := mem_flatMap.mp hn
    exact BuiltStat.varName_of_assigns (hscoped.stats s hs)
      ((h s hs).assigns_same sweep x n hn hassigns)
  enters s hs := BuiltStat.exitTest?_inlined (hscoped.stats s hs)
  erases := eraseStats_codesOf h (hplain.reserved ▸ hscoped.reserves.nodup)

/-- **Restoring statements.** -/
theorem BuiltStat.restores (h : BuiltStat t returns nest s) (hreserves : ReservesTemps t s) :
    Restores s := by
  refine BuiltStat.lowering (S := fun _ => Restores) (B := fun _ => RestoresBlock t)
    ?leaf ?ifStat ?whileStat ?blockStat ?inner ?block h hreserves
  case leaf =>
    intro nest s setup rest hleaf _ hreserves
    refine ⟨fun sweep => ?_, fun sweep => ?_, fun sweep rest hrest => ?_⟩
    · rw [hleaf.codeOf_eq]
      exact (hleaf.form sweep).reads_reserved hleaf.exprs
    · rw [hleaf.codeOf_eq]
      exact (hleaf.form sweep).assigns_same
    · rw [hleaf.codeOf_eq]
      exact (hleaf.form sweep).erases hleaf.exprs hreserves.nodup hrest
  case ifStat => exact fun other hc _ hreserves hyes hno => restores_ifStat hc hreserves hyes hno
  case whileStat =>
    intro nest c b hc _ hreserves hbody
    have hcond := hreserves.child (c := c) (by simp [children])
    refine .of_single (fun sweep => (codeOf_whileStat sweep c _).trans (by rw [branchOf_block]))
      (fun sweep x hx => ?_) (fun _ _ => rfl) (fun _ => rfl) (loop_erased hc hcond.nodup hbody)
    rw [freeTemps_whileStat, hbody.plain.freeTemps_countBlock, ← append_assoc] at hx
    rw [reserved_whileStat]
    exact mem_append.mpr ((mem_append.mp hx).imp (fun hx => reads_loop hc hx)
      (hbody.reads_reserved _ x))
  case blockStat =>
    intro nest b hb
    refine .of_single (fun sweep => (codeOf_blockStat sweep _).trans (by rw [branchOf_block]))
      (fun sweep x hx => ?_) (fun _ _ => rfl) (fun _ => rfl) (fun sweep values => ?_)
    · rw [freeTemps_single (n := .blockStat _) rfl (by rintro ⟨⟩) (by rintro ⟨⟩)] at hx
      rw [reserved_of_child rfl rfl]
      exact hb.freeTemps_countBlock sweep hx
    · exact congrArg (fun n => blockStat (some n)) (hb.eraseWith_countBlock sweep values)
  case inner =>
    exact fun hb =>
      .of_single (fun sweep => codeOf_block sweep _) hb.freeTemps_countBlock (fun _ _ => rfl)
      (fun _ => rfl) hb.eraseWith_countBlock
  case block => exact fun shape hscoped ih => restoresBlock (BuiltBlock.plain shape) hscoped ih

end BuiltStat

/-! ## Functions -/

/-- The body of a function that takes references to its parameters first. -/
theorem RestoresBlock.eraseWith_body (h : RestoresBlock t b) (params outer : List String)
    (values : Values) :
    (block (countBlock (.ofStats (params.map refer)) outer b)).eraseWith values =
      (block b).inlined := by
  rw [h.plain.eraseWith_countBlock, h.plain.inlined, ← h.erases (ownSlots _ b ++ outer) values]
  exact congrArg (fun stats => block { b with
    temps := [], cleanup := [], injected := false, stats := stats })
      (eraseStats_counts .ref params _ values)

end Counting

open Counting

theorem Node.IsBuiltFunc.erased {f : Node} (h : f.IsBuiltFunc t) :
    (countFunc f).erased = f.inlined := by
  obtain ⟨head, params, scope, vars, b, rfl, hfunc⟩ := h
  have hscoped := Scoped.ofFunc hfunc
  have hb := restoresBlock (BuiltBlock.plain hfunc.body) hscoped fun s hs =>
    BuiltStat.restores (hscoped.stats s hs) (hscoped.child hs)
  have hargs : (argDefs params).map (·.eraseWith []) = (argDefs params).map (·.inlineWith []) := by
    rw [argDefs, map_map, map_map]
    rfl
  rw [countFunc, Node.erased, eraseWith_node (n := .func ..) (by rintro ⟨⟩) (by rintro ⟨⟩), inlined,
    inlineWith_node (n := .func ..) (by rintro ⟨⟩) (by rintro ⟨⟩)]
  show func { head with injected := false } ((argDefs params).map (·.eraseWith []))
    (some ((block _).eraseWith [])) =
    .func { head with injected := false } _ (some (block b).inlined)
  rw [hb.eraseWith_body, hargs]

theorem BuiltMain.erased {b : CBlock Node} (h : BuiltMain t vars b) (globals : List String) :
    (countMain globals (.mainFunc (some (.block b)))).erased =
    (mainFunc (some (.block b))).inlined := by
  have hscoped := Scoped.ofMain h
  have hb := restoresBlock ⟨⟨[], h.locals⟩, h.bound, h.cleanup⟩ hscoped fun s hs =>
    BuiltStat.restores (h.stats s hs) (hscoped.child hs)
  exact congrArg (fun body => mainFunc (some body)) (hb.eraseWith_countBlock globals.reverse [])

theorem Node.IsBuiltFile.erased {n : Node} (h : n.IsBuiltFile t) :
    n.counted.erased = n.inlined := by
  obtain ⟨vars, funcs, b, rfl, hfuncs, hmain⟩ := h
  have hvars : (vars.map Build.declOf).map (fun p => (p.1, p.2.eraseWith [])) =
      (vars.map Build.declOf).map fun p => (p.1, p.2.inlineWith []) := by
    rw [map_map, map_map]
    rfl
  have hfuncs : (funcs.map countFunc).map (·.eraseWith []) = funcs.map (·.inlineWith []) := by
    rw [map_map]
    exact map_congr_left fun f hf => (hfuncs f hf).erased
  rw [counted, Node.erased, eraseWith_node (n := .file ..) (by rintro ⟨⟩) (by rintro ⟨⟩), inlined,
    inlineWith_node (n := .file ..) (by rintro ⟨⟩) (by rintro ⟨⟩)]
  show file ((vars.map Build.declOf).map fun p => (p.1, p.2.eraseWith []))
    ((funcs.map countFunc).map (·.eraseWith [])) (some ((countMain _ _).erased)) = _
  rw [hvars, hfuncs, hmain.erased]
  rfl

/-- **Erasing counts.**  The counts of a script without errors can be erased again: what is left of
its model with counts is its model before counting, with bound values in place of their names. -/
theorem erased_inject (source : String) (report : Report)
    (h : (ofSource source report).report.hasErrors = false) :
    ∃ model, ofScript (ofSource source report).script
        (ofSource source report).table = .ok model ∧
      (model.inject (ofSource source report).table).erased = model.inlined := by
  obtain ⟨base, hacc⟩ := accepted h
  obtain ⟨model, hmodel, hshape⟩ := hacc.ofScript
  refine ⟨model, hmodel, ?_⟩
  rw [inject_eq_counted hacc.typed.wellFormed hshape]
  exact hshape.erased

/-- A script with values that are bound, guarded, not used and made in the condition of a loop. -/
def restorable : String :=
  "func vec(n : int) : [] \x7b var v = [1, n] return v + 1 \x7d\n" ++
  "func has(s : string) : boolean \x7b return s == \"x\" || s + \"y\" != \"xy\" \x7d\n" ++
  "var s = \"a\"\n" ++
  "while (has(s + \"b\") && s != \"abc\") \x7b s = s + \"c\" print(vec(2) * 3) \x7d\n" ++
  "if (has(s) && has(s + \"d\")) \x7b vec(3) \x7d else \x7b s = \"e\" \x7d\n"

set_option maxRecDepth 20000 in
/-- The script with all kinds of moved values is accepted, and its counts can be erased. -/
theorem erased_inject_restorable : (ofSource restorable {}).report.hasErrors = false ∧
      ∃ model, ofScript (ofSource restorable {}).script
          (ofSource restorable {}).table = .ok model ∧
        (model.inject (ofSource restorable {}).table).erased = model.inlined :=
  have haccepted : (ofSource restorable {}).report.hasErrors = false := by decide +kernel
  ⟨haccepted, erased_inject restorable {} haccepted⟩

end WichToC

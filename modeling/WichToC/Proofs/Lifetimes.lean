import WichToC.Proofs.Execution

/-!
# Lifetimes

Between the statements of a function every cell that holds an object owns a reference to it, so that
the object is not freed while the cell holds it.  `Backed` says this of one object, for the cells of
a function and the global variables; a reserve stands for what the callers hold.

Operands are read from cells, and nothing but a call can change a cell before they are used.  A call
does not change the cells of its caller; if it gives another value to a global variable from which
an object was read that is still to be used, the object is lost.  Unless this happens, the operands
can be used when they are complete: `settled_yields`, by induction over the evaluation.
-/

namespace WichToC.Machine

open List Counting Cells Memory Option

variable {ns args es : List Node} {result : Option (List Value)} {n : Node} {vs : List Value}
    {waiting : Waiting} {name : String} {cells' : Cells}

/-! ## Events -/

/-- Whether an object was lost while it was waiting to be used. -/
def Lost (o : Nat) (past : List Event) : Prop := ∃ name, .overwrite name o ∈ past

section Events

variable {o : Nat} {past past' : List Event}

theorem usesLive_nil : UsesLive o [] := by
  intro later kind earlier h
  cases later <;> cases h

theorem usesLive_cons {e : Event} : UsesLive o (e :: past) ↔
      UsesLive o past ∧ ∀ kind, e = .use kind o → .free o ∈ past → Lost o past := by
  refine ⟨fun h => ⟨fun later kind earlier heq => ?_, fun kind he => ?_⟩, fun h => ?_⟩
  · exact h (e :: later) kind earlier (congrArg (e :: ·) heq)
  · exact h [] kind past (congrArg (· :: past) he)
  · intro later kind earlier heq
    cases later with
    | nil =>
      obtain ⟨rfl, rfl⟩ := cons.inj heq
      exact h.2 kind rfl
    | cons e' later => exact h.1 later kind earlier (cons.inj heq).2

theorem Lost.grow (h : Lost o past) (hpast : past <:+ past') : Lost o past' :=
  let ⟨name, hname⟩ := h
  ⟨name, hpast.subset hname⟩

/-- Once an object is lost, nothing is known of its uses. -/
theorem UsesLive.grow (h : UsesLive o past) (hlost : Lost o past) (hpast : past <:+ past') :
    UsesLive o past' := by
  obtain ⟨new, rfl⟩ := hpast
  induction new with
  | nil => exact h
  | cons e new ih =>
    exact usesLive_cons.mpr ⟨ih, fun _ _ _ => hlost.grow (suffix_append new past)⟩

end Events

/-! ## Cells -/

namespace Cells

def names (cells : Cells) : List String := cells.map Prod.fst

variable {cells : Cells} {name x : String} {v : Value}

theorem names_set : (cells.set name v).names = cells.names := by
  induction cells with
  | nil => rfl
  | cons p cells ih =>
    rw [set]
    split
    · rfl
    · exact congrArg (p.1 :: ·) ih

theorem lookup_set_of_ne (h : x ≠ name) : (cells.set name v).lookup x = cells.lookup x := by
  induction cells with
  | nil => rfl
  | cons p cells ih =>
    rw [set]
    grind

theorem get_set_of_ne (h : x ≠ name) : (cells.set name v).get x = cells.get x :=
  congrArg (·.getD none) (lookup_set_of_ne h)

theorem get_set_self (cells : Cells) (name : String) (v : Value) :
    (cells.set name v).get name = v ∨ (cells.set name v).get name = none ∧
    cells.get name = none := by
  induction cells with
  | nil => exact .inr ⟨rfl, rfl⟩
  | cons p cells ih =>
    obtain ⟨x, w⟩ := p
    rw [set]
    split
    · rename_i hx
      exact .inl (by simp [get, hx])
    · rename_i hx
      have hne : (name == x) = false := beq_false_of_ne (Ne.symm hx)
      simpa [get, lookup_cons, hne] using ih

theorem has_iff : cells.has x = true ↔ x ∈ cells.names := by
  induction cells with
  | nil => exact iff_of_false nofun nofun
  | cons p cells ih =>
    rw [has, lookup_cons, names, map_cons, mem_cons]
    by_cases hx : x = p.1
    · simp [hx]
    · rw [beq_false_of_ne hx]
      exact ih.trans (or_iff_right hx).symm

end Cells

/-! ## What executions keep -/

/-- Memory and a memory that comes after it: unless the object is lost, the global variables from
which it was read still hold it. -/
structure Follows (o : Nat) (waiting : Waiting) (m m' : Memory) : Prop where
  past : m.past <:+ m'.past
  names : m'.globals.names = m.globals.names
  kept : ¬Lost o m'.past → ∀ x, (x, o) ∈ waiting → m.globals.get x = some o →
    m'.globals.get x = some o

namespace Follows

variable {o : Nat} {waiting waiting' : Waiting} {m m₁ m' : Memory}

theorem refl (m : Memory) : Follows o waiting m m := ⟨suffix_refl _, rfl, fun _ _ _ => id⟩

theorem trans (h : Follows o waiting m m₁) (h' : Follows o waiting m₁ m') :
    Follows o waiting m m' where
  past := h.past.trans h'.past
  names := h'.names.trans h.names
  kept hlost x hx hget := h'.kept hlost x hx (h.kept (fun ho => hlost (ho.grow h'.past)) x hx hget)

theorem mono (h : Follows o waiting m m') (hsub : waiting' ⊆ waiting) : Follows o waiting' m m' :=
  ⟨h.past, h.names, fun hlost x hx => h.kept hlost x (hsub hx)⟩

theorem of_past (hpast : m.past <:+ m'.past) (hglobals : m'.globals = m.globals) :
    Follows o waiting m m' :=
  ⟨hpast, by rw [hglobals], fun _ _ _ => by rw [hglobals]; exact id⟩

end Follows

section Steps

variable {o : Nat} (waiting : Waiting) {m : Memory} (cells : Cells) (kind : Access) (v : Value)
    (name : String)

theorem follows_use : Follows o waiting m (m.use kind v) := by
  cases v with
  | none => exact .refl m
  | some _ => exact .of_past (suffix_cons _ _) rfl

theorem follows_uses (vs : List Value) : Follows o waiting m (m.uses kind vs) := by
  induction vs generalizing m with
  | nil => exact .refl m
  | cons v vs ih => exact (follows_use waiting kind v).trans ih

theorem follows_refer : Follows o waiting m (m.refer v) := by
  cases v with
  | none => exact .refl m
  | some _ => exact .of_past (suffix_cons _ _) rfl

theorem follows_release : Follows o waiting m (m.release v) := by
  cases v with
  | none => exact .refl m
  | some _ =>
    unfold release
    dsimp only
    split
    · exact .of_past ((suffix_cons _ _).trans (suffix_cons _ _)) rfl
    · exact .of_past (suffix_cons _ _) rfl

theorem follows_operate (n : Node) (vs : List Value) : Follows o waiting m (operate n vs m).2 := by
  unfold operate
  split
  · exact (follows_uses waiting .read vs).trans (.of_past (suffix_refl _) rfl)
  · exact follows_uses waiting .read vs

theorem follows_store (v : Value) : Follows o waiting m (m.store waiting cells name v).2 := by
  unfold store
  split
  · exact .refl m
  · refine ⟨suffix_append _ _, names_set .., fun hlost x hx hget => ?_⟩
    by_cases hxn : x = name
    · subst hxn
      -- the variable holds the object, so that it gets the same object
      have hsame : v = some o := by
        by_contra hne
        refine hlost ⟨x, mem_append_left _ ?_⟩
        rw [hget, overwrites, if_pos ⟨hx, hne⟩]
        exact .head _
      rcases get_set_self m.globals x v with h | ⟨-, h⟩
      · exact h.trans hsame
      · cases hget.symm.trans h
    · exact (get_set_of_ne hxn).trans hget

theorem names_store (v : Value) : (m.store waiting cells name v).1.names = cells.names := by
  unfold store
  split
  · exact names_set ..
  · rfl

end Steps

/-- What comes after a call follows on what was before. -/
def CallFollows (o : Nat) (call : CallRel) : Prop :=
  ∀ {name vs waiting m result m'}, call name vs waiting m result m' → Follows o waiting m m'

section Follows

variable {o : Nat} {call : CallRel} {waiting : Waiting} {m m' : Memory} {cells : Cells}

theorem Evaluates.follows (hcall : CallFollows o call)
    (h : Evaluates call cells waiting ns m result m') :
    Follows o waiting m m' := by
  induction h with
  | nil | cut => exact .refl _
  | read _ _ ih =>
    exact (follows_use _ .read _).trans (ih.mono fun x hx => mem_append_right _ hx)
  | operate _ _ _ _ _ _ ih ihrest => exact ih.trans ((follows_operate _ _ _).trans ihrest)
  | call _ body _ ih ihrest =>
    exact ih.trans ((follows_uses _ .pass _).trans ((hcall body).trans ihrest))
  | cutOperands _ _ _ ih => exact ih
  | cutCall _ body ih => exact ih.trans ((follows_uses _ .pass _).trans (hcall body))

theorem follows_effect {after : Outcome × Cells × Memory}
    (h : effect waiting cells m n vs = some after) :
    Follows o waiting m after.2.2 ∧ after.2.1.names = cells.names := by
  unfold effect at h
  split at h <;> cases h
  · exact ⟨follows_store .., names_store ..⟩
  · exact ⟨follows_store .., names_store ..⟩
  · exact ⟨follows_store .., names_store ..⟩
  · exact ⟨follows_use .., rfl⟩
  · exact ⟨follows_uses .., rfl⟩
  · exact ⟨.refl _, rfl⟩
  · exact ⟨.refl _, rfl⟩
  · exact ⟨.refl _, rfl⟩
  · exact ⟨follows_refer _ _, rfl⟩
  · exact ⟨follows_release _ _, rfl⟩

/-- Executions keep the names of the cells. -/
theorem Executes.follows (hcall : CallFollows o call) {code : Code} {out : Outcome}
    (h : Executes call waiting code cells m out cells' m') :
    Follows o waiting m m' ∧ cells'.names = cells.names := by
  induction h with
  | nil | cut => exact ⟨.refl _, rfl⟩
  | cons _ _ ih ihrest => exact ⟨ih.1.trans ihrest.1, ihrest.2.trans ih.2⟩
  | stop _ _ ih | blockStat _ ih | inner _ ih => exact ih
  | cutInside values => exact ⟨values.follows hcall, rfl⟩
  | simple values effect =>
    obtain ⟨hfollows, hnames⟩ := follows_effect effect
    exact ⟨(values.follows hcall).trans hfollows, hnames⟩
  | ifYes cond _ ih | ifNo cond _ ih | whileBroke cond _ ih
  | whileStop cond _ _ _ ih => exact ⟨(cond.follows hcall).trans ih.1, ih.2⟩
  | ifSkip cond => exact ⟨cond.follows hcall, rfl⟩
  | whileDone cond => exact ⟨cond.follows hcall, rfl⟩
  | whileAgain cond _ _ ih ihrest =>
    exact ⟨(cond.follows hcall).trans (ih.1.trans ihrest.1), ihrest.2.trans ih.2⟩
  | block _ ih =>
    refine ⟨ih.1, ?_⟩
    rw [names, map_drop, show map Prod.fst _ = _ from ih.2, names, map_append,
      ← length_map Prod.fst, drop_left]
    rfl

theorem calls_follow {funcs : List Node} {depth : Nat} : CallFollows o (calls funcs depth) := by
  induction depth with
  | zero => exact fun h => h.elim
  | succ depth ih =>
    rintro name vs waiting m result m' ⟨head, args, b, out, cells, -, -, body, -⟩
    exact (body.follows ih).1

end Follows

/-! ## References -/

/-- How often cells hold an object. -/
def holds (o : Nat) (cells : Cells) : Nat := (cells.map Prod.snd).count (some o)

/-- The references to an object that a value is to own. -/
def owing (o : Nat) (v : Value) : Nat := if v = some o then 1 else 0

section Holds

variable {o : Nat} {cells cells' : Cells} {name : String} {v : Value}

@[simp] theorem owing_none : owing o none = 0 := rfl

@[simp] theorem owing_some : owing o (some o) = 1 := if_pos rfl

theorem holds_cons {p : String × Value} : holds o (p :: cells) = owing o p.2 + holds o cells := by
  rw [holds, map_cons, count_cons, Nat.add_comm]
  simp [owing, holds]

theorem holds_append (o : Nat) (cells cells' : Cells) :
    holds o (cells ++ cells') = holds o cells + holds o cells' := by
  rw [holds, map_append, count_append]
  rfl

theorem holds_take_drop (o k : Nat) (cells : Cells) :
    holds o (cells.take k) + holds o (cells.drop k) = holds o cells := by
  rw [← holds_append, take_append_drop]

theorem owing_typed_le (o : Nat) (ty : Ty) (v : Value) : owing o (typed ty v) ≤ owing o v := by
  unfold typed
  split
  · exact Nat.le_refl _
  · exact Nat.zero_le _

/-- What a variable gets instead of what it held. -/
theorem holds_set (o : Nat) (cells : Cells) (name : String) (v : Value) :
    holds o (cells.set name v) + owing o (cells.get name) =
      holds o cells + owing o ((cells.set name v).get name) := by
  induction cells with
  | nil => rfl
  | cons p cells ih =>
    obtain ⟨x, w⟩ := p
    rw [Cells.set]
    split
    · rename_i hx
      subst hx
      simp only [Cells.get, lookup_cons_self, getD_some, holds_cons]
      omega
    · rename_i hx
      have hne : (name == x) = false := beq_false_of_ne (Ne.symm hx)
      simp only [Cells.get, lookup_cons, hne, holds_cons] at ih ⊢
      omega

/-- What is left when a variable is emptied. -/
theorem holds_set_none (o : Nat) (cells : Cells) (name : String) :
    holds o (cells.set name none) + owing o (cells.get name) = holds o cells := by
  have hset := holds_set o cells name none
  rwa [(get_set_self cells name none).elim id And.left, owing_none, Nat.add_zero] at hset

theorem holds_pos_of_get (h : cells.get name = some o) : 0 < holds o cells := by
  induction cells with
  | nil => cases h
  | cons p cells ih =>
    rw [holds_cons]
    rw [Cells.get, lookup_cons] at h
    split at h
    · rw [show p.2 = some o from h, owing_some]
      omega
    · exact Nat.lt_of_lt_of_le (ih h) (Nat.le_add_left ..)

/-- Different variables hold their objects in different cells. -/
theorem count_get_le {names : List String} (hnodup : names.Nodup) (o : Nat) (cells : Cells) :
    (names.map cells.get).count (some o) ≤ holds o cells := by
  induction names generalizing cells with
  | nil => exact Nat.zero_le _
  | cons x names ih =>
    obtain ⟨hx, hnodup⟩ := nodup_cons.mp hnodup
    -- without what `x` holds, the others hold the same
    have hrest : names.map cells.get = names.map (cells.set x none).get :=
      map_congr_left fun y hy => (get_set_of_ne (ne_of_mem_of_not_mem hy hx)).symm
    have hle := ih hnodup (cells.set x none)
    have hset := holds_set_none o cells x
    rw [map_cons, count_cons, hrest]
    simp only [beq_iff_eq]
    rw [owing] at hset
    omega

end Holds

/-! ## Memory with a reserve -/

/-- The object can be used, if the value refers to it. -/
def Alive (o : Nat) (m : Memory) (v : Value) : Prop := v = some o → o < m.next ∧ .free o ∉ m.past

/-- The object has as many references as the reserve asks for, and it was not used after it was
freed. -/
structure Covers (o reserve : Nat) (m : Memory) : Prop where
  count : reserve ≤ m.count o
  freed : .free o ∈ m.past → m.count o = 0
  unborn : m.next ≤ o → m.count o = 0 ∧ .free o ∉ m.past
  live : UsesLive o m.past

section Covers

variable {o reserve reserve' : Nat} {m : Memory} {v : Value} {w : Value}

theorem alive_none : Alive o m none := nofun

theorem Alive.typed (h : Alive o m v) (ty : Ty) : Alive o m (typed ty v) := by
  unfold Machine.typed
  split
  · exact h
  · exact alive_none

theorem Covers.mono (h : Covers o reserve m) (hle : reserve' ≤ reserve) : Covers o reserve' m :=
  ⟨Nat.le_trans hle h.count, h.freed, h.unborn, h.live⟩

theorem Covers.alive (h : Covers o reserve m) (hv : v = some o → 0 < reserve) : Alive o m v := by
  intro hvo
  have hpos : m.count o ≠ 0 := Nat.ne_of_gt (Nat.lt_of_lt_of_le (hv hvo) h.count)
  refine ⟨?_, fun hfree => hpos (h.freed hfree)⟩
  by_contra hlt
  exact hpos (h.unborn (Nat.le_of_not_lt hlt)).1

theorem free_mem_use {kind : Access} : .free o ∈ (m.use kind v).past ↔ .free o ∈ m.past := by
  cases v <;> simp [use]

theorem Covers.use (h : Covers o reserve m) (hv : Alive o m v) (kind : Access) :
    Covers o reserve (m.use kind v) := by
  cases v with
  | none => exact h
  | some o' =>
    refine ⟨h.count, fun ho => h.freed (free_mem_use.mp ho), fun ho => ?_, ?_⟩
    · rw [free_mem_use]
      exact h.unborn ho
    · refine usesLive_cons.mpr ⟨h.live, fun kind' heq hfreed => ?_⟩
      cases heq
      exact absurd hfreed (hv rfl).2

theorem Alive.use (h : Alive o m w) (kind : Access) (v : Value) : Alive o (m.use kind v) w := by
  intro ho
  rw [free_mem_use]
  cases v <;> exact h ho

theorem Covers.uses (h : Covers o reserve m) (hvs : ∀ v ∈ vs, Alive o m v)
    (kind : Access) : Covers o reserve (m.uses kind vs) := by
  induction vs generalizing m with
  | nil => exact h
  | cons v vs ih =>
    obtain ⟨hv, hvs⟩ := forall_mem_cons.mp hvs
    exact ih (h.use hv kind) fun w hw => (hvs w hw).use kind v

@[simp] theorem globals_use (m : Memory) (kind : Access) (v : Value) :
    (m.use kind v).globals = m.globals := by
  cases v <;> rfl

@[simp] theorem globals_uses (m : Memory) (kind : Access) (vs : List Value) :
    (m.uses kind vs).globals = m.globals := by
  induction vs generalizing m with
  | nil => rfl
  | cons v vs ih => exact (ih _).trans (globals_use ..)

@[simp] theorem globals_refer (m : Memory) (v : Value) : (m.refer v).globals = m.globals := by
  cases v <;> rfl

@[simp] theorem globals_release : (m.release v).globals = m.globals := by
  cases v with
  | none => rfl
  | some o =>
    unfold release
    dsimp only
    split <;> rfl

/-- Taking a reference. -/
theorem Covers.refer (h : Covers o reserve m) (hv : Alive o m v) :
    Covers o (reserve + owing o v) (m.refer v) := by
  cases v with
  | none => exact h
  | some o' =>
    have hused := h.use hv .ref
    by_cases heq : o' = o
    · subst heq
      obtain ⟨hborn, hfree⟩ := hv rfl
      have hcount : (m.refer (some o')).count o' = m.count o' + 1 := Function.update_self ..
      refine ⟨?_, fun ho => absurd (free_mem_use.mp ho) hfree,
        fun ho => absurd hborn (Nat.not_lt_of_le ho), hused.live⟩
      rw [hcount, owing_some]
      exact Nat.succ_le_succ h.count
    · have hcount : (m.refer (some o')).count o = m.count o :=
        Function.update_of_ne (Ne.symm heq) ..
      have howing : owing o (some o') = 0 := if_neg fun h => heq (some.inj h)
      refine ⟨?_, fun ho => ?_, fun ho => ?_, hused.live⟩
      · rw [hcount, howing]
        exact h.count
      · rw [hcount]
        exact hused.freed ho
      · rw [hcount]
        exact hused.unborn ho

theorem past_release : (m.release (some o)).past =
    (if m.count o - 1 = 0 then [.free o] else []) ++ .use .deref o :: m.past := by
  simp only [release, Function.update_self]
  split <;> rfl

theorem count_release (m : Memory) (o : Nat) :
    (m.release (some o)).count = Function.update m.count o (m.count o - 1) ∧
      (m.release (some o)).next = m.next := by
  unfold release
  dsimp only
  split <;> exact ⟨rfl, rfl⟩

/-- Giving up a reference. -/
theorem Covers.release (h : Covers o (reserve + owing o v) m) : Covers o reserve (m.release v) := by
  cases v with
  | none => exact h
  | some o' =>
    have hle := h.count
    have hused := h.use (v := some o') (h.alive fun ho => by rw [ho, owing_some]; omega) .deref
    have hzero : m.count o = 0 → Function.update m.count o' (m.count o' - 1) o = 0 := by grind
    obtain ⟨hcount, hnext⟩ := count_release m o'
    refine ⟨?_, fun ho => ?_, fun ho => ?_, ?_⟩
    · rw [hcount]
      by_cases heq : o = o'
      · subst heq
        rw [owing_some] at hle
        rw [Function.update_self]
        omega
      · rw [Function.update_of_ne heq]
        omega
    · rw [past_release, mem_append] at ho
      rw [hcount]
      rcases ho with ho | ho
      · grind
      · exact hzero (hused.freed ho)
    · obtain ⟨hnone, hfree⟩ := hused.unborn (hnext ▸ ho)
      rw [past_release, hcount, mem_append]
      refine ⟨hzero hnone, fun hmem => hmem.elim (fun hmem => ?_) hfree⟩
      split at hmem
      · cases mem_singleton.mp hmem
        have : m.count o = 0 := hnone
        rw [owing_some] at hle
        omega
      · cases hmem
    · rw [past_release]
      split
      · exact usesLive_cons.mpr ⟨hused.live, nofun⟩
      · exact hused.live

/-- A new object has no references yet. -/
theorem Covers.make (h : Covers o reserve m) :
    Covers o reserve m.make.2 ∧ Alive o m.make.2 m.make.1 := by
  have hcount : m.make.2.count o = m.count o := by
    by_cases heq : o = m.next
    · rw [Memory.make, heq, (h.unborn (Nat.le_of_eq heq.symm)).1.symm.trans (by rw [heq])]
      exact Function.update_self ..
    · exact Function.update_of_ne heq ..
  refine ⟨⟨?_, fun ho => ?_, fun ho => ?_, h.live⟩, fun ho => ?_⟩
  · rw [hcount]
    exact h.count
  · rw [hcount]
    exact h.freed ho
  · rw [hcount]
    exact h.unborn (Nat.le_of_succ_le ho)
  · cases ho
    exact ⟨Nat.lt_succ_self _, (h.unborn (Nat.le_refl _)).2⟩

theorem Covers.operate (h : Covers o reserve m) (hvs : ∀ v ∈ vs, Alive o m v) :
    Covers o reserve (operate n vs m).2 ∧ Alive o (operate n vs m).2 (operate n vs m).1 := by
  have hused := h.uses hvs .read
  unfold Machine.operate
  split
  · exact hused.make
  · exact ⟨hused, alive_none⟩

theorem globals_operate : (operate n vs m).2.globals = m.globals := by
  unfold operate
  split
  · exact globals_uses ..
  · exact globals_uses ..

theorem mem_overwrites {held : Value} {e : Event}
    (h : e ∈ overwrites waiting name held v) : ∃ o, e = .overwrite name o := by
  unfold overwrites at h
  grind

theorem past_store (m : Memory) (waiting : Waiting) (cells : Cells) (name : String) (v : Value) :
    ∃ new, (m.store waiting cells name v).2.past = new ++ m.past ∧
      ∀ e ∈ new, ∃ o, e = .overwrite name o := by
  unfold store
  split
  · exact ⟨[], rfl, nofun⟩
  · exact ⟨_, rfl, fun e he => mem_overwrites he⟩

theorem UsesLive.store (h : UsesLive o m.past) (waiting : Waiting) (cells : Cells) (name : String)
    (v : Value) : UsesLive o (m.store waiting cells name v).2.past := by
  obtain ⟨new, hpast, hnew⟩ := past_store m waiting cells name v
  rw [hpast]
  clear hpast
  induction new with
  | nil => exact h
  | cons e new ih =>
    obtain ⟨⟨o', rfl⟩, hrest⟩ := forall_mem_cons.mp hnew
    exact usesLive_cons.mpr ⟨ih hrest, nofun⟩

theorem free_mem_store {cells : Cells} :
    .free o ∈ (m.store waiting cells name v).2.past ↔ .free o ∈ m.past := by
  obtain ⟨new, hpast, hnew⟩ := past_store m waiting cells name v
  grind

theorem count_store (m : Memory) (waiting : Waiting) (cells : Cells) (name : String) (v : Value) :
    (m.store waiting cells name v).2.count = m.count ∧
      (m.store waiting cells name v).2.next = m.next := by
  unfold store
  split <;> exact ⟨rfl, rfl⟩

theorem Covers.store (h : Covers o reserve m) (waiting : Waiting) (cells : Cells) (name : String)
    (v : Value) : Covers o reserve (m.store waiting cells name v).2 := by
  obtain ⟨hcount, hnext⟩ := count_store m waiting cells name v
  refine ⟨?_, fun ho => ?_, fun ho => ?_, h.live.store waiting cells name v⟩
  · rw [hcount]
    exact h.count
  · rw [hcount]
    exact h.freed (free_mem_store.mp ho)
  · rw [hcount, free_mem_store]
    exact h.unborn (hnext ▸ ho)

theorem Alive.store (h : Alive o m w) (waiting : Waiting) (cells : Cells) (name : String)
    (v : Value) : Alive o (m.store waiting cells name v).2 w := by
  intro ho
  rw [(count_store m waiting cells name v).2, free_mem_store]
  exact h ho

theorem Alive.refer (h : Alive o m w) (v : Value) : Alive o (m.refer v) w := by
  cases v with
  | none => exact h
  | some o' => exact h.use .ref (some o')

end Covers

/-! ## Cells that own what they hold -/

section Backed

variable {o reserve reserve' : Nat} {cells : Cells} {m : Memory} {name : String} {v : Value}

/-- The cells in scope own the object as often as they hold it, beyond a reserve. -/
def Backed (o reserve : Nat) (cells : Cells) (m : Memory) : Prop :=
  Covers o (reserve + holds o (cells ++ m.globals)) m

/-- The object is in a cell, if the value refers to it. -/
def HeldBy (o : Nat) (cells : Cells) (v : Value) : Prop := v = some o → 0 < holds o cells

section

variable (h : Backed o reserve cells m)

include h

theorem Backed.alive (hv : HeldBy o (cells ++ m.globals) v) : Alive o m v :=
  Covers.alive h fun ho => Nat.lt_of_lt_of_le (hv ho) (Nat.le_add_left ..)

theorem Backed.alive_reserve (hv : v = some o → 0 < reserve) : Alive o m v :=
  Covers.alive h fun ho => Nat.lt_of_lt_of_le (hv ho) (Nat.le_add_right ..)

theorem Backed.uses (hvs : ∀ v ∈ vs, HeldBy o (cells ++ m.globals) v) (kind : Access) :
    Backed o reserve cells (m.uses kind vs) := by
  rw [Backed, globals_uses]
  exact Covers.uses h (fun v hv => h.alive (hvs v hv)) kind

theorem Backed.use (hv : HeldBy o (cells ++ m.globals) v) (kind : Access) :
    Backed o reserve cells (m.use kind v) :=
  h.uses (forall_mem_singleton.mpr hv) kind

end

/-- What the caller holds is in the reserve of the function. -/
theorem backed_nil : Backed o (reserve + holds o cells) [] m ↔ Backed o reserve cells m := by
  unfold Backed
  rw [nil_append, holds_append, Nat.add_assoc]

theorem Backed.mono (h : Backed o reserve cells m) (hle : reserve' ≤ reserve) :
    Backed o reserve' cells m :=
  Covers.mono h (Nat.add_le_add_right hle _)

theorem get_eq (m : Memory) (cells : Cells) (name : String) :
    m.get cells name = Cells.get (cells ++ m.globals) name := by
  rw [Memory.get, Cells.has, Cells.get, Cells.get, Cells.get, lookup_append]
  cases cells.lookup name <;> rfl

theorem set_append : set (cells ++ cells') name v =
      if cells.has name then cells.set name v ++ cells' else cells ++ cells'.set name v := by
  induction cells with
  | nil => rfl
  | cons p cells ih =>
    rw [cons_append, Cells.set, Cells.set, Cells.has, lookup_cons, ih]
    by_cases hp : p.1 = name
    · simp [hp]
    · rw [if_neg hp, if_neg hp, beq_false_of_ne (Ne.symm hp)]
      show _ = if has cells name then _ else _
      split <;> rfl

theorem store_eq : (m.store waiting cells name v).1 ++ (m.store waiting cells name v).2.globals =
      set (cells ++ m.globals) name v := by
  rw [set_append, store]
  split <;> rfl

theorem Backed.store (h : Backed o (reserve + owing o v) cells m) (waiting : Waiting)
    (name : String) :
    Backed o reserve (m.store waiting cells name v).1 (m.store waiting cells name v).2 := by
  rw [Backed, store_eq]
  refine (Covers.store h waiting cells name v).mono ?_
  have hset := holds_set o (cells ++ m.globals) name v
  rcases get_set_self (cells ++ m.globals) name v with hget | ⟨hget, -⟩
  · rw [hget] at hset
    omega
  · rw [hget, owing_none] at hset
    omega

/-- A variable that owns nothing gets a value and takes a reference to it. -/
theorem Covers.store_refer (h : Covers o (reserve + holds o (set (cells ++ m.globals) name none)) m)
    (hv : Alive o m v) (waiting : Waiting) :
    Backed o reserve (m.store waiting cells name v).1 ((m.store waiting cells name v).2.refer
      ((m.store waiting cells name v).2.get (m.store waiting cells name v).1 name)) := by
  have halive : Alive o m (get (set (cells ++ m.globals) name v) name) := by
    rcases get_set_self (cells ++ m.globals) name v with hget | ⟨hget, -⟩
    · rwa [hget]
    · rw [hget]
      exact alive_none
  rw [Backed, globals_refer, get_eq, store_eq]
  refine ((h.store waiting cells name v).refer (halive.store waiting cells name v)).mono ?_
  have hset := holds_set o (cells ++ m.globals) name v
  have hnone := holds_set_none o (cells ++ m.globals) name
  omega

theorem heldBy_get {ty : Ty} : HeldBy o cells (typed ty (cells.get name)) := by
  intro ho
  unfold typed at ho
  split at ho
  · exact holds_pos_of_get ho
  · cases ho

end Backed

/-! ## Evaluations -/

/-- The object was not used after it was freed, and `P` holds unless it was lost. -/
structure Intact (o : Nat) (P : Prop) (m : Memory) : Prop where
  live : UsesLive o m.past
  post : ¬Lost o m.past → P

theorem Intact.imp {o : Nat} {P P' : Prop} {m : Memory} (h : Intact o P m) (himp : P → P') :
    Intact o P' m :=
  ⟨h.live, fun hlost => himp (h.post hlost)⟩

/-- Once the object is lost, there is nothing to show. -/
theorem Intact.bind {o : Nat} {P P' : Prop} {m m' : Memory} (h : Intact o P m)
    (hpast : m.past <:+ m'.past) (hnext : P → Intact o P' m') : Intact o P' m' := by
  by_cases hlost : Lost o m.past
  · exact ⟨h.live.grow hlost hpast, fun hnot => absurd (hlost.grow hpast) hnot⟩
  · exact hnext (h.post hlost)

/-- Calls keep the references of their callers, and the result owns one. -/
structure CallSound (o : Nat) (call : CallRel) : Prop where
  follows : CallFollows o call
  sound : ∀ {reserve name vs waiting m result m'}, call name vs waiting m result m' →
    Backed o reserve [] m → (∀ v ∈ vs, Alive o m v) →
    Intact o (∀ v, result = some v → Backed o (reserve + owing o v) [] m') m'

section Evaluations

variable {o reserve : Nat} {call : CallRel} {waiting : Waiting} {cells : Cells} {m m' : Memory}
  {name : String} {ty : Ty}

/-- A call with arguments that are held. -/
theorem CallSound.of_held (hcall : CallSound o call) {result : Option Value}
    (hargs : Intact o (Backed o reserve cells m ∧ ∀ v ∈ vs, HeldBy o (cells ++ m.globals) v) m)
    (h : call name vs waiting (m.uses .pass vs) result m') :
    Intact o (∀ v, result = some v → Backed o (reserve + owing o v) cells m') m' := by
  have hfollows : Follows o waiting m m' := (follows_uses waiting .pass vs).trans (hcall.follows h)
  refine hargs.bind hfollows.past ?_
  rintro ⟨hm, hvs⟩
  have hused := hm.uses hvs .pass
  refine (hcall.sound h (backed_nil.mpr hused) fun v hv => hused.alive ?_).imp fun hres v hv => ?_
  · rw [globals_uses]
    exact hvs v hv
  · refine backed_nil.mp ((hres v hv).mono ?_)
    omega

theorem args_settled {temp : String}
    (h : ∀ c ∈ (Node.call name ty temp args).children, c.Settled) : ∀ c ∈ args, c.Settled := by
  simpa [Node.children] using h

theorem operands_settled (h : Operands n es)
    (hn : ∀ c ∈ n.children, c.Settled) : ∀ e ∈ es, e.Settled := by
  rcases h with rfl | ⟨-, rfl⟩
  · exact hn
  · exact fun e he => hn e (mem_of_mem_take he)

/-- The evaluation of expressions keeps the object intact, and `Q` holds of its values and of the
memory after it. -/
def Yields (o : Nat) (call : CallRel) (waiting : Waiting) (cells : Cells) (ns : List Node)
    (Q : List Value → Memory → Prop) (m : Memory) : Prop :=
  ∀ result m', Evaluates call cells waiting ns m result m' →
    Intact o (∀ vs, result = some vs → Q vs m') m'

theorem Yields.mono {Q Q' : List Value → Memory → Prop}
    (h : Yields o call waiting cells ns Q m) (hQ : ∀ vs m', Q vs m' → Q' vs m') :
    Yields o call waiting cells ns Q' m :=
  fun result m' heval => (h result m' heval).imp fun hvs vs hres => hQ vs m' (hvs vs hres)

/-- Settled expressions read their heap values from cells, which still hold them at the end. -/
theorem settled_yields (hcall : CallSound o call) (hns : ∀ n ∈ ns, n.Settled)
    (hm : Backed o reserve cells m) :
    Yields o call waiting cells ns (fun vs m' => Backed o reserve cells m' ∧
      ∀ v ∈ vs, HeldBy o (cells ++ m'.globals) v) m := by
  intro result m' h
  induction h with
  | nil =>
    refine ⟨hm.live, fun _ vs hvs => ?_⟩
    cases hvs
    exact ⟨hm, nofun⟩
  | cut => exact ⟨hm.live, fun _ => nofun⟩
  | @read waiting name ty isTemp ns v m m' result value rest ih =>
    have hheld : HeldBy o (cells ++ m.globals) v := by
      rw [value, get_eq]
      exact heldBy_get
    have hrest := ih (forall_mem_cons.mp hns).2 (hm.use hheld .read)
    refine ⟨hrest.live, fun hlost vs hvs => ?_⟩
    obtain ⟨vs, rfl, rfl⟩ := map_eq_some_iff.mp hvs
    obtain ⟨hm', hvs⟩ := hrest.post hlost vs rfl
    refine ⟨hm', forall_mem_cons.mpr ⟨fun ho => ?_, hvs⟩⟩
    -- the cells of the function have not changed, and a global variable was waited for
    have hget : m.get cells name = some o := by
      rw [value, typed] at ho
      split at ho
      · exact ho
      · cases ho
    have hsame : m'.get cells name = some o := by
      rw [Memory.get] at hget ⊢
      split
      · rename_i hhas
        rwa [if_pos hhas] at hget
      · rename_i hhas
        rw [if_neg hhas, ← globals_use m .read v] at hget
        exact (rest.follows hcall.follows).kept hlost name (by simp [awaited, ho, hhas]) hget
    exact holds_pos_of_get (get_eq m' cells name ▸ hsame)
  | @operate waiting n es ns m m₁ m' vs result operation notVar notCall chosen operands rest ih
    ihrest =>
    obtain ⟨hn, hns⟩ := forall_mem_cons.mp hns
    have hfollows : Follows o waiting m₁ m' :=
      (follows_operate waiting n vs).trans (rest.follows hcall.follows)
    refine (ih (operands_settled chosen hn.inside) hm).bind hfollows.past fun h₁ => ?_
    obtain ⟨hm₁, hvs⟩ := h₁ vs rfl
    have hm₂ : Backed o reserve cells (operate n vs m₁).2 := by
      rw [Backed, globals_operate]
      exact (Covers.operate hm₁ fun v hv => hm₁.alive (hvs v hv)).1
    refine (ihrest hns hm₂).imp fun hrest vs' hvs' => ?_
    obtain ⟨vs', rfl, rfl⟩ := map_eq_some_iff.mp hvs'
    obtain ⟨hm', hheld⟩ := hrest vs' rfl
    have hnone : (operate n vs m₁).1 = none := by
      rw [operate, if_neg fun hheap => notVar (hn.here.2 hheap)]
    exact ⟨hm', forall_mem_cons.mpr ⟨hnone ▸ nofun, hheld⟩⟩
  | @call waiting name temp ty args ns m m₁ m₂ m' vs v result operands body rest ih ihrest =>
    obtain ⟨hn, hns⟩ := forall_mem_cons.mp hns
    have hargs := (ih (args_settled hn.inside) hm).imp fun h => h vs rfl
    refine (hcall.of_held hargs body).bind (rest.follows hcall.follows).past fun h₂ => ?_
    refine (ihrest hns ((h₂ v rfl).mono (Nat.le_add_right ..))).imp fun hrest vs' hvs' => ?_
    obtain ⟨vs', rfl, rfl⟩ := map_eq_some_iff.mp hvs'
    obtain ⟨hm', hheld⟩ := hrest vs' rfl
    have hnone : typed ty v = none := if_neg fun hheap => nomatch hn.here.2 hheap
    exact ⟨hm', forall_mem_cons.mpr ⟨hnone ▸ nofun, hheld⟩⟩
  | cutOperands _ chosen _ ih =>
    have hn := (forall_mem_cons.mp hns).1
    exact ⟨(ih (operands_settled chosen hn.inside) hm).live, fun _ => nofun⟩
  | @cutCall waiting name temp ty args ns m m₁ m' vs operands body ih =>
    have hn := (forall_mem_cons.mp hns).1
    have hargs := (ih (args_settled hn.inside) hm).imp fun h => h vs rfl
    exact (hcall.of_held hargs body).imp fun _ => nofun

theorem evaluates_nil (h : Evaluates call cells waiting [] m result m') :
    m' = m ∧ ∀ vs, result = some vs → vs = [] := by
  cases h with
  | nil => simp
  | cut => exact ⟨rfl, nofun⟩

theorem read_yields (hm : Covers o reserve m) {isTemp : Bool}
    (hv : Alive o m (typed ty (m.get cells name))) :
    Yields o call waiting cells [.varRef name ty isTemp] (fun vs m' =>
      vs = [typed ty (m.get cells name)] ∧ m' = m.use .read (typed ty (m.get cells name))) m := by
  intro result m' h
  cases h with
  | cut => exact ⟨hm.live, fun _ => nofun⟩
  | read value rest =>
    subst value
    obtain ⟨rfl, hnil⟩ := evaluates_nil rest
    refine ⟨(hm.use hv .read).live, fun _ vs hvs => ?_⟩
    obtain ⟨vs, rfl, rfl⟩ := map_eq_some_iff.mp hvs
    exact ⟨congrArg _ (hnil vs rfl), rfl⟩
  | operate _ notVar => exact absurd rfl notVar
  | cutOperands _ chosen operands =>
    have hnil : ∀ es, Operands (.varRef name ty isTemp) es → es = [] := by
      rintro es (rfl | ⟨-, rfl⟩) <;> rfl
    obtain ⟨rfl, -⟩ := evaluates_nil (hnil _ chosen ▸ operands)
    exact ⟨hm.live, fun _ => nofun⟩

/-- The value of an operation can be used, and the result of a call comes with a reference. -/
theorem operation_yields (hcall : CallSound o call) {e : Node} (he : e.OverSettled)
    (hm : Backed o reserve cells m) :
    Yields o call waiting cells [e] (fun vs m' => ∃ v, vs = [v] ∧ Alive o m' v ∧
      Backed o (reserve + if isCall e then owing o v else 0) cells m') m := by
  -- what is left after the value `v`
  have hsingle : ∀ {waiting v m₁ result m'}, Evaluates call cells waiting [] m₁ result m' →
      Alive o m₁ v → Backed o (reserve + if isCall e then owing o v else 0) cells m₁ →
      Intact o (∀ vs, result.map (v :: ·) = some vs → ∃ v, vs = [v] ∧ Alive o m' v ∧
        Backed o (reserve + if isCall e then owing o v else 0) cells m') m' := by
    intro waiting v m₁ result m' hrest halive hbacked
    obtain ⟨rfl, hnil⟩ := evaluates_nil hrest
    refine ⟨hbacked.live, fun _ vs hvs => ?_⟩
    obtain ⟨vs, rfl, rfl⟩ := map_eq_some_iff.mp hvs
    grind
  intro result m' h
  cases h with
  | cut => exact ⟨hm.live, fun _ => nofun⟩
  | @read _ name ty isTemp _ v _ _ result value rest =>
    have hheld : HeldBy o (cells ++ m.globals) v := by
      rw [value, get_eq]
      exact heldBy_get
    exact hsingle rest ((hm.alive hheld).use .read v) (hm.use hheld .read)
  | @operate _ _ es _ _ m₁ _ vs result operation notVar notCall chosen operands rest =>
    have hfollows : Follows o waiting m₁ m' :=
      (follows_operate waiting e vs).trans (rest.follows hcall.follows)
    refine (settled_yields hcall (operands_settled chosen he.operands) hm _ _ operands).bind
      hfollows.past fun h₁ => ?_
    obtain ⟨hm₁, hvs⟩ := h₁ vs rfl
    obtain ⟨hm₂, halive⟩ := Covers.operate (n := e) hm₁ fun v hv => hm₁.alive (hvs v hv)
    refine hsingle rest halive ?_
    rw [Backed, globals_operate, notCall]
    exact hm₂
  | @call _ name temp ty args _ _ m₁ m₂ _ vs v result operands body rest =>
    have hargs := (settled_yields hcall (args_settled he.operands) hm _ _ operands).imp fun h =>
      h vs rfl
    refine (hcall.of_held hargs body).bind (rest.follows hcall.follows).past fun h₂ => ?_
    have hm₂ := h₂ v rfl
    have halive : Alive o m₂ v := hm₂.alive_reserve fun ho => by rw [ho, owing_some]; omega
    exact hsingle rest (halive.typed ty) (hm₂.mono (Nat.add_le_add_left (owing_typed_le o ty v) _))
  | cutOperands operation chosen operands =>
    exact ⟨(settled_yields hcall (operands_settled chosen he.operands) hm _ _ operands).live,
      fun _ => nofun⟩
  | @cutCall _ name temp ty args _ _ m₁ _ vs operands body =>
    have hargs := (settled_yields hcall (args_settled he.operands) hm _ _ operands).imp fun h =>
      h vs rfl
    exact (hcall.of_held hargs body).imp fun _ => nofun

end Evaluations

end WichToC.Machine

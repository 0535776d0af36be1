import Mathlib.Data.List.Basic
import WichToC.Proofs.Model
import WichToC.Template.Memory

/-!
# Models and groups of templates

Rendering meets a node and, slot by slot, what is in the slots that its template asks for:
`Node.met` lists these nodes.  The kinds among them that do not fit the group are reported once
each, in the order in which they are met (`render_warns_once`).

So nothing is reported about a model all of whose nodes fit.  The counting group fits every model;
the plain group fits every model without counts and without temporaries that hold a value.
-/

namespace WichToC

open List Mismatch Render Option Prod

namespace TemplateGroup

variable {group : TemplateGroup} {kind : Kind}

/-- The group has a template for the kind, and the template asks only for slots of the kind. -/
def Fits (group : TemplateGroup) (kind : Kind) : Prop :=
  ∃ template, group.template? kind = some template ∧ missing? kind template = none

/-- The kind has no template, or its template asks for a slot that the kind does not have. -/
def unfit (group : TemplateGroup) (kind : Kind) : Bool :=
  (group.template? kind).all fun template =>
    template.params.any fun param => param ∉ kind.slots.map fst

/-- What is wrong with a kind that does not fit. -/
def mismatch? (group : TemplateGroup) (kind : Kind) : Option Mismatch :=
  match group.template? kind with
  | none => some ⟨kind, .noTemplate⟩
  | some template => (missing? kind template).map fun param => ⟨kind, .noSlot param⟩

/-- The slots that the template for a kind asks for. -/
def params (group : TemplateGroup) (kind : Kind) : List String :=
  ((group.template? kind).map Template.params).getD []

theorem Fits.mismatch? (h : group.Fits kind) : group.mismatch? kind = none := by
  obtain ⟨template, htemplate, hmissing⟩ := h
  simp [TemplateGroup.mismatch?, htemplate, hmissing]

theorem kind_mismatch? (group : TemplateGroup) (kind : Kind) :
    (group.mismatch? kind).map Mismatch.kind = if group.unfit kind then some kind else none := by
  unfold mismatch? unfit
  cases group.template? kind with
  | none => rfl
  | some template =>
    simp only [missing?, Option.all_some, Option.map_map]
    cases hfind : template.params.find? _ with
    | none => grind
    | some param => grind

end TemplateGroup

/-! ## Nodes that are met -/

namespace Node

/-- What stands in those of the slots that are asked for, slot by slot. -/
def askedOf {α : Type} (group : TemplateGroup) (n : Node) (slots : List (Slot α)) : List α :=
  ((n.kind.slots.map fst).zip slots).flatMap fun p =>
    if p.1 ∈ group.params n.kind then p.2.toList else []

/-- The nodes that rendering meets, each before those in the slots that its template asks for. -/
def met (group : TemplateGroup) (n : Node) : List Node :=
  n.fold fun n inside => n :: (n.askedOf group inside).flatten

variable {group : TemplateGroup} {n : Node}

theorem met_eq : n.met group = n :: (n.askedOf group n.slots).flatMap (met group) := by
  have hasked : n.askedOf group (n.slots.map (Slot.mapChildren (met group))) =
      (n.askedOf group n.slots).map (met group) := by
    rw [askedOf, zip_map_right, flatMap_map, askedOf, map_flatMap]
    refine flatMap_congr fun p _ => ?_
    simp only [Prod.map, id_eq, Slot.toList_mapChildren]
    split <;> rfl
  unfold met at hasked ⊢
  rw [fold_eq, hasked, flatMap_def]

theorem mem_children_of_mem_askedOf {c : Node} (h : c ∈ n.askedOf group n.slots) :
    c ∈ n.children := by
  obtain ⟨p, hp, hc⟩ := mem_flatMap.mp h
  split at hc
  · exact mem_flatMap.mpr ⟨p.2, (of_mem_zip hp).2, hc⟩
  · cases hc

theorem All.met {P : Node → Prop} (h : n.All P) : ∀ m ∈ n.met group, P m := by
  induction h with
  | @intro n here _ ih =>
    rw [met_eq]
    refine forall_mem_cons.mpr ⟨here, fun m hm => ?_⟩
    obtain ⟨c, hc, hm⟩ := mem_flatMap.mp hm
    exact ih c (mem_children_of_mem_askedOf hc) m hm

end Node

/-! ## What is noted -/

namespace Render

variable {group : TemplateGroup} {α : Type} {f : α → Pending} {g : α → List Mismatch}

/-- Notes mismatches one after the other. -/
def noteAll (ms seen : List Mismatch) : List Mismatch := ms.foldl (fun seen m => m.note seen) seen

/-- Rendering a part notes these mismatches, in order. -/
def Notes (pending : Pending) (ms : List Mismatch) : Prop :=
  ∀ seen, (pending seen).2 = noteAll ms seen

theorem noteAll_append {ms ms' seen : List Mismatch} :
    noteAll (ms ++ ms') seen = noteAll ms' (noteAll ms seen) :=
  foldl_append

theorem threadList_notes {cs : List α} (h : ∀ c ∈ cs, Notes (f c) (g c)) (seen : List Mismatch) :
    (Slot.threadList (cs.map f) seen).2 = noteAll (cs.flatMap g) seen := by
  induction cs generalizing seen with
  | nil => rfl
  | cons c cs ih =>
    obtain ⟨hc, hcs⟩ := forall_mem_cons.mp h
    rw [flatMap_cons, noteAll_append, ← hc seen]
    exact ih hcs _

theorem thread_notes {s : Slot α} (h : ∀ c ∈ s.toList, Notes (f c) (g c)) (seen : List Mismatch) :
    ((s.mapChildren f).thread seen).2 = noteAll (s.toList.flatMap g) seen := by
  cases s with
  | single child =>
    cases child with
    | none => rfl
    | some c => exact (h c (.head _) seen).trans (by simp)
  | sequence children => exact threadList_notes h seen
  | map entries =>
    refine Eq.trans ?_ (threadList_notes h seen)
    simp [Slot.mapChildren, Slot.thread, Slot.toList, Function.comp_def]

theorem args_notes (params : List String) {slots : List (String × Slot α)}
    (h : ∀ p ∈ slots, ∀ c ∈ p.2.toList, Notes (f c) (g c)) (seen : List Mismatch) :
    (args params (slots.map (map id (Slot.mapChildren f))) seen).2 =
      noteAll
        ((slots.flatMap fun p => if p.1 ∈ params then p.2.toList else []).flatMap g) seen := by
  induction slots generalizing seen with
  | nil => rfl
  | cons p slots ih =>
    obtain ⟨hp, hslots⟩ := forall_mem_cons.mp h
    simp only [map_cons, args, flatMap_cons, flatMap_append, noteAll_append, Prod.map, id_eq]
    split
    · rw [← thread_notes hp seen]
      exact ih hslots _
    · exact ih hslots seen

/-- **Rendering a node** notes what is wrong with the nodes that it meets. -/
theorem fold_notes {n : Node} : Notes (n.fold (step group))
    ((n.met group).filterMap fun m => group.mismatch? m.kind) := by
  induction n using Node.induction with
  | step n ih =>
    intro seen
    have hself : [n].filterMap (fun m => group.mismatch? m.kind) =
        (group.mismatch? n.kind).toList := by
      cases h : group.mismatch? n.kind <;> simp [h]
    rw [Node.fold_eq, Node.met_eq, ← singleton_append, filterMap_append, hself, noteAll_append,
      filterMap_flatMap, Node.askedOf, TemplateGroup.params, TemplateGroup.mismatch?]
    cases htemplate : group.template? n.kind with
    | none =>
      have hnone : ((n.kind.slots.map fst).zip n.slots).flatMap
          (fun p => if p.1 ∈ ([] : List String) then p.2.toList else []) = [] := by
        simp [-Node.slots]
      rw [map_none, getD_none, hnone, step, htemplate]
      rfl
    | some template =>
      have hslots := args_notes template.params
        fun p (hp : p ∈ (n.kind.slots.map fst).zip n.slots) c hc =>
          ih c (mem_flatMap.mpr ⟨p.2, (of_mem_zip hp).2, hc⟩)
      simp only [step, htemplate, zip_map_right, map_some, getD_some, ← hslots]
      cases missing? n.kind template <;> rfl

/-! ## Kinds that are reported -/

theorem kinds_noteAll {ms seen : List Mismatch} : (noteAll ms seen).map kind =
    eraseDupsBy.loop (· == ·) (ms.map kind) (seen.map kind).reverse := by
  induction ms generalizing seen with
  | nil => simp [noteAll, eraseDupsBy.loop]
  | cons m ms ih =>
    have hstep : noteAll (m :: ms) seen = noteAll ms (m.note seen) := rfl
    have hseen : (seen.any fun other => other.kind = m.kind) =
        (seen.map kind).reverse.any (m.kind == ·) := by grind
    rw [hstep, ih, map_cons, eraseDupsBy.loop, note, ← hseen]
    cases seen.any _ <;> simp

end Render

theorem Node.render_notes {group : TemplateGroup} {n : Node} : (n.render group).2 =
    noteAll ((n.met group).filterMap fun m => group.mismatch? m.kind) [] :=
  fold_notes []

/-- Rendering a model that fits the group meets no mismatch. -/
theorem Node.render_mismatches {group : TemplateGroup} {n : Node}
    (h : n.All fun m => group.Fits m.kind) : (n.render group).2 = [] := by
  rw [render_notes, filterMap_eq_nil_iff.mpr fun m hm => (h.met m hm).mismatch?]
  rfl

/-- **Warnings of rendering.**  Rendering gives a text and reports no error.  The kinds that it
warns of are those met that do not fit the group, each once and in the order in which they are first
met. -/
theorem render_warns_once (group : TemplateGroup) (n : Node) (report : Report) :
    ∃ text found, n.render group = (text, found) ∧
      found.map kind = (((n.met group).map Node.kind).filter group.unfit).eraseDups ∧
      (report.addAll (found.map (diagnostic group.name))).errors = report.errors ∧
      (report.addAll (found.map (diagnostic group.name))).warnings =
        report.warnings ++ found.map (diagnostic group.name) ∧
      found.map (fun m => (m.diagnostic group.name).kind) =
        replicate found.length .modelMismatch := by
  refine ⟨(n.render group).1, (n.render group).2, rfl, ?_, ?_, ?_, ?_⟩
  · have hkinds : ((n.met group).filterMap fun m => group.mismatch? m.kind).map kind =
        ((n.met group).map Node.kind).filter group.unfit := by
      rw [map_filterMap, ← filterMap_eq_filter, filterMap_map]
      simp only [group.kind_mismatch?]
      rfl
    rw [Node.render_notes, kinds_noteAll, hkinds]
    rfl
  · simp [Report.errors, Report.addAll, diagnostic, Diagnostic.isError]
  · simp [Report.warnings, Report.addAll, diagnostic, Diagnostic.isWarning]
  · simp [diagnostic]

/-! ## The two groups -/

/-- The counting group fits every kind. -/
theorem TemplateGroup.fits_counting {kind : Kind} : counting.Fits kind := by
  cases kind <;> exact ⟨_, rfl, by decide⟩

/-- Whether a kind of node is made only for counting references. -/
def Kind.isCounting : Kind → Bool
  | .tempVarDef | .ref | .deref => true
  | _ => false

/-- The plain group fits every kind that is not made for counting. -/
theorem TemplateGroup.fits_plain {kind : Kind} (h : kind.isCounting = false) : plain.Fits kind := by
  cases kind with
  | tempVarDef | ref | deref => cases h
  | _ => exact ⟨_, rfl, by decide⟩

end WichToC

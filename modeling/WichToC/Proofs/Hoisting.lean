import WichToC.Counting.Hoist
import WichToC.Proofs.Occurrences

/-!
# What hoisting yields

Hoisting an expression gives a setup, which fills temporaries that the expression reserves, and an
expression that makes no heap value: whatever lives on the heap is read from a slot.

`Moved e s m` says that an expression `e` is replaced by the statements of `s` and what `m` reads
from their temporaries.  Its rules are all that hoisting does: it moves operands, takes a new heap
value to its temporary, leaves `&&` and `||` in place or guards their right operands, and puts bound
values ahead.

`Prepared` describes setups.  Every step fills a temporary of its own, or runs a setup in a block of
its own and releases its temporaries there.  `hoist_hoisted` is the main statement; an expression
that makes no heap value is hoisted to itself.
-/

namespace WichToC

open List Node

variable {value : Node} {adopts : Bool} {operandTy : Ty} {x : String}

namespace Node

variable {n : Node}

/-! ## Changing children -/

/-- The node with every child changed. -/
def mapChildren (f : Node → Node) (n : Node) : Node :=
  n.withSlots (n.slots.map (Slot.mapChildren f))

@[simp] theorem children_mapChildren {f : Node → Node} :
    (n.mapChildren f).children = n.children.map f := by
  cases n <;>
    simp [mapChildren, withSlots, children, Slot.mapChildren, Option.toList_map, Function.comp_def]

theorem mapChildren_congr {f g : Node → Node} (h : ∀ c ∈ n.children, f c = g c) :
    n.mapChildren f = n.mapChildren g := by
  unfold mapChildren
  congr 1
  refine map_congr_left fun s hs => ?_
  have hs' : ∀ c ∈ s.toList, f c = g c := fun c hc => h c (mem_flatMap.mpr ⟨s, hs, hc⟩)
  cases s with
  | single child =>
    cases child with
    | none => rfl
    | some c => exact congrArg (Slot.single ∘ some) (hs' c (.head _))
  | sequence cs => exact congrArg Slot.sequence (map_congr_left hs')
  | map entries =>
    refine congrArg Slot.map (map_congr_left fun p hp => ?_)
    exact congrArg (Prod.mk p.1) (hs' p.2 (mem_map_of_mem hp))

@[simp] theorem mapChildren_id (n : Node) : n.mapChildren id = n := by
  have h : ∀ s : Slot Node, s.mapChildren id = s := by
    intro s
    cases s <;> simp [Slot.mapChildren]
  rw [mapChildren, map_congr_left fun s _ => h s, map_id', withSlots_slots]

/-! ## Settled expressions -/

/-- The nodes of expressions, bindings apart. -/
def isOperation : Node → Bool
  | literal .. | vectorLit .. | varRef .. | call .. | binary .. | unary .. | index .. | length ..
  | widen .. => true
  | _ => false

/-- Whether the value of an expression lives on the heap. -/
def isHeap (n : Node) : Bool := (n.ty?.map Ty.isHeap).getD false

/-- An expression that makes no heap value: what lives on the heap is read from a slot. -/
def Settled (n : Node) : Prop :=
  n.All fun n => n.isOperation = true ∧ (n.isHeap = true → n.kind = .varRef)

/-- An operation on settled operands. -/
structure OverSettled (n : Node) : Prop where
  operation : n.isOperation = true
  operands : ∀ c ∈ n.children, c.Settled
  /-- A heap value that is not read from a slot is made here. -/
  made : n.isHeap = true → n.kind = .varRef ∨ Counting.makesValue n = true

theorem kinds_of_isOperation (h : n.isOperation = true) :
    n.kind ≠ .block ∧ n.kind ≠ .tempVarDef ∧ n.kind ≠ .bind := by
  cases n with
  | literal kind | binary kind | unary kind | index kind | widen kind =>
    cases kind <;> exact ⟨nofun, nofun, nofun⟩
  | vectorLit | varRef | call | length => exact ⟨nofun, nofun, nofun⟩
  | _ => cases h

theorem freeTemps_of_operation (h : n.isOperation = true) (hvar : n.kind ≠ .varRef) :
    n.freeTemps = n.children.flatMap freeTemps :=
  Build.freeTemps_eq (kinds_of_isOperation h).2.2 hvar

theorem mem_freeTemps_child {c : Node} (h : n.isOperation = true) (hvar : n.kind ≠ .varRef)
    (hc : c ∈ n.children) (hx : x ∈ c.freeTemps) : x ∈ n.freeTemps := by
  rw [freeTemps_of_operation h hvar]
  exact mem_flatMap.mpr ⟨c, hc, hx⟩

theorem Settled.overSettled (h : n.Settled) : n.OverSettled :=
  ⟨h.here.1, h.inside, fun hheap => .inl (h.here.2 hheap)⟩

/-- The variable or temporary that a declaration makes. -/
def declared? : Node → Option (String × Ty)
  | varDecl name ty _ => some (name, ty)
  | _ => none

/-- The names that the declarations inside a node make. -/
def declares (n : Node) : List String := n.collect fun n => (n.declared?.map Prod.fst).toList

theorem declares_eq :
    n.declares = n.children.flatMap declares ++ (n.declared?.map Prod.fst).toList :=
  n.collect_eq _

theorem Settled.declares_eq_nil (h : n.Settled) : n.declares = [] := by
  refine h.collect_eq_nil fun m hm => ?_
  cases m <;> first | rfl | cases hm.1

theorem OverSettled.settled (h : n.OverSettled) (hheap : n.isHeap = true → n.kind = .varRef) :
    n.Settled :=
  .intro ⟨h.operation, hheap⟩ h.operands

theorem settled_temp (name : String) (ty : Ty) : (temp name ty).Settled :=
  .intro ⟨rfl, fun _ => rfl⟩ nofun

section MapChildren

variable {n : Node} (f : Node → Node)

@[simp] theorem kind_mapChildren : (n.mapChildren f).kind = n.kind := by
  cases n with
  | binary kind | unary kind | index kind | widen kind => cases kind <;> rfl
  | _ => rfl

@[simp] theorem isOperation_mapChildren : (n.mapChildren f).isOperation = n.isOperation := by
  cases n <;> rfl

theorem ty?_mapChildren (h : n.isOperation = true) : (n.mapChildren f).ty? = n.ty? := by
  cases n <;> first | rfl | cases h

theorem isHeap_mapChildren (h : n.isOperation = true) : (n.mapChildren f).isHeap = n.isHeap := by
  rw [isHeap, ty?_mapChildren f h, isHeap]

theorem temp?_mapChildren : (n.mapChildren f).temp? = n.temp? := by
  cases n <;> rfl

theorem makesValue_mapChildren : Counting.makesValue (n.mapChildren f) = Counting.makesValue n := by
  cases n with
  | binary kind | unary kind | index kind | widen kind => cases kind <;> rfl
  | _ => rfl

end MapChildren

end Node

namespace Counting

variable {n v b e m : Node} {t : Table} {ty : Ty} {name : String} {s : Setup}

/-! ## Setups -/

theorem insertEntries_eq {α : Type} {entries new : List (String × α)}
    (h : (entries.map Prod.fst ++ new.map Prod.fst).Nodup) :
    insertEntries entries new = entries ++ new := by
  induction new generalizing entries with
  | nil => exact (append_nil _).symm
  | cons e es ih =>
    have hmem : e.1 ∉ entries.map Prod.fst := fun hmem =>
      (nodup_append.mp h).2.2 e.1 hmem e.1 (.head _) rfl
    show insertEntries (insertEntry e.1 e.2 entries) es = _
    rw [insertEntry_of_not_mem hmem, ih]
    · simp
    · simpa using h

namespace Setup

variable {a b c : Setup} {x : String} (s : Setup) (ss : List Setup)

/-- The names of the temporaries that a setup defines. -/
def names : List String := s.temps.map Prod.fst

@[simp] theorem stats_append : (a ++ b).stats = a.stats ++ b.stats := rfl

@[simp] theorem temps_append : (a ++ b).temps = a.temps ++ b.temps := rfl

@[simp] theorem names_append : (a ++ b).names = a.names ++ b.names := map_append

/-- The names that the blocks inside a setup declare. -/
def inner : List String := s.stats.flatMap declares

/-- All names that belong to a setup: its temporaries, and what its blocks declare. -/
def used : List String := s.names ++ s.inner

theorem mem_used_of_mem_names (hx : x ∈ a.names) : x ∈ a.used :=
  mem_append_left _ hx

@[simp] theorem inner_append : (a ++ b).inner = a.inner ++ b.inner := flatMap_append

theorem used_append_perm (a b : Setup) : (a ++ b).used.Perm (a.used ++ b.used) := by
  rw [used, names_append, inner_append, used, used]
  grind

theorem mem_used_append : x ∈ (a ++ b).used ↔ x ∈ a.used ∨ x ∈ b.used :=
  (used_append_perm a b).mem_iff.trans mem_append

theorem used_define (h : value.OverSettled) : (define name ty value adopts).used = [name] := by
  have hvalue : value.declares = [] := by
    rw [declares_eq, flatMap_eq_nil_iff.mpr fun c hc => (h.operands c hc).declares_eq_nil]
    have hop := h.operation
    cases value <;> first | rfl | cases hop
  have hdef : (tempDef name ty true (some value)).declares = [] := by
    rw [declares_eq]
    simp [children, hvalue, declared?]
  have hrefer : (refer name).declares = [] := rfl
  simp only [used, inner, define, names]
  split <;> simp [hdef, hrefer]

theorem mem_used_define
    (h : value.OverSettled) : x ∈ (define name ty value adopts).used ↔ x = name := by
  rw [used_define h, mem_singleton]

@[simp] theorem append_empty : a ++ ({} : Setup) = a := by
  show Setup.mk (a.stats ++ []) (a.temps ++ []) = a
  rw [append_nil, append_nil]

@[simp] theorem empty_append : ({} : Setup) ++ a = a := rfl

theorem append_assoc : a ++ b ++ c = a ++ (b ++ c) := by
  show Setup.mk _ _ = Setup.mk _ _
  simp

@[simp] theorem join_nil : join [] = {} := rfl

@[simp] theorem join_cons : join (s :: ss) = s ++ join ss := rfl

theorem join_append {ss' : List Setup} : join (ss ++ ss') = join ss ++ join ss' := by
  induction ss with
  | nil => rfl
  | cons s ss ih => rw [cons_append, join_cons, join_cons, ih, append_assoc]

@[simp] theorem fst_decls : s.decls.map Prod.fst = s.names := by
  simp [Setup.decls, Setup.names, Function.comp_def]

/-- A block that runs a setup declares what belongs to it. -/
theorem used_rightOperand {right : Node} (op temp : String) (s : Setup) (hnodup : s.names.Nodup)
    (h : right.Settled) : (ofStats [rightOperand op temp s (some right)]).used = s.used := by
  have hlocals : insertEntries [] s.decls = s.decls :=
    insertEntries_eq (by simpa using hnodup)
  have hdecls : (s.decls.map Prod.snd).flatMap declares = s.names := by
    rw [decls, map_map, flatMap_map, names, map_eq_flatMap]
    rfl
  have hassign : (Node.assign temp .boolean "" (some right)).declares = [] := by
    rw [declares_eq]
    simp [children, h.declares_eq_nil, declared?]
  have hreleases : s.releases.flatMap declares = [] := by
    rw [releases, flatMap_map]
    exact flatMap_eq_nil_iff.mpr fun _ _ => rfl
  have hguard : (guard op temp).declares = [] := by
    unfold guard
    split <;> rfl
  rw [used, show names (ofStats _) = [] from rfl, nil_append, inner, ofStats,
    flatMap_singleton, rightOperand, declares_eq]
  simp [children, hguard, declared?]
  rw [declares_eq]
  simp [children, hlocals, hdecls, hassign, hreleases, used, inner, declared?]

end Setup

/-- The block in which a right operand is evaluated. -/
def guardBlock (temp : String) (setup : Setup) (right : Node) : CBlock Node where
  locals := insertEntries [] setup.decls
  stats := setup.stats ++ [.assign temp .boolean "" (some right)]
  cleanup := setup.releases
  injected := true

theorem rightOperand_eq {op temp : String} {setup : Setup} {right : Node} :
    rightOperand op temp setup (some right) =
      .ifStat (some (guard op temp)) (some (.block (guardBlock temp setup right))) none := rfl

/-- Statements that fill temporaries, each of them once.  A temporary takes a reference to a heap
value unless it comes from a call. -/
inductive Prepared : Setup → Prop
  | nil : Prepared {}
  | append {a b : Setup} (first : Prepared a) (second : Prepared b)
      (apart : ∀ x ∈ a.used, x ∉ b.used) : Prepared (a ++ b)
  | define {name : String} {ty : Ty} {value : Node} {adopts : Bool} (operation : value.OverSettled)
      (adopted : ty.isHeap = true → adopts = isCall value) :
      Prepared (.define name ty value adopts)
  | guarded {op temp : String} {inner : Setup} {right : Node} (setup : Prepared inner)
      (settled : right.Settled) : Prepared (.ofStats [rightOperand op temp inner (some right)])

theorem Prepared.nodup {s : Setup} (h : Prepared s) : s.used.Nodup := by
  induction h with
  | nil => exact .nil
  | @append a b _ _ apart iha ihb =>
    rw [(Setup.used_append_perm a b).nodup_iff]
    grind
  | define operation =>
    rw [Setup.used_define operation]
    exact nodup_singleton _
  | @guarded op temp inner right _ settled ih =>
    rwa [Setup.used_rightOperand op temp inner (nodup_append.mp ih).1 settled]

theorem Prepared.nodup_names {s : Setup} (h : Prepared s) : s.names.Nodup :=
  (nodup_append.mp h.nodup).1

/-! ## Operations -/

/-- Whether a node may leave its right operand out. -/
def mayShortCircuit : Node → Bool
  | .binary .int op .. => isShortCircuit op
  | _ => false

theorem gather_hoist (h : n.isOperation = true) :
    hoistOperands n = (.join (n.children.map fun c => (hoist c).1),
      n.mapChildren fun c => (hoist c).2) := by
  unfold hoistOperands gather
  cases n <;>
    first
    | (cases h; done)
    | simp [withSlots, mapChildren, children, Slot.mapChildren, movedSlot,
      Option.toList_map, Function.comp_def]

theorem settle_of_isHeap_eq_false (h : n.isHeap = false) : settle n = ({}, n) := by
  have hfresh : fresh? n = none := by
    unfold fresh?
    unfold isHeap at h
    cases hty : n.ty? with
    | none => rfl
    | some ty =>
      rw [hty] at h
      have hheap : ty.isHeap = false := h
      cases n.temp? <;> simp [hheap]
  rw [settle, hfresh]

/-- Hoisting an operation hoists its operands, and then settles the operation. -/
theorem hoist_eq (h : n.isOperation = true) (hshort : mayShortCircuit n = false) :
    hoist n = ((hoistOperands n).1 ++ (settle (hoistOperands n).2).1,
      (settle (hoistOperands n).2).2) := by
  rw [hoist, fold_eq]
  cases n <;> first | (cases h; done) | try rfl
  case binary kind op ty operandTy temp l r =>
    cases kind <;> try rfl
    -- an operation on numbers is not settled at all, which makes no difference
    have hsettle : ∀ l r, settle (.binary .int op ty operandTy temp l r) =
        ({}, .binary .int op ty operandTy temp l r) := by
      intro l r
      simp [settle, fresh?, makesValue]
    have hop : isShortCircuit op = false := hshort
    show (if isShortCircuit op = true then _ else _) = _
    rw [hop, show settle (hoistOperands (.binary .int op ty operandTy temp l r)).2 = _ from
      hsettle _ _, Setup.append_empty]
    rfl

/-! ## Moved expressions -/

/-- An expression is moved to the statements of a setup and an expression after them. -/
inductive Moved : Node → Setup → Node → Prop
  | var {name : String} {ty : Ty} {isTemp : Bool} :
      Moved (.varRef name ty isTemp) {} (.varRef name ty isTemp)
  | operation {n : Node} (operation : n.isOperation = true) (notVar : n.kind ≠ .varRef)
      (strict : mayShortCircuit n = false)
      (children : ∀ c ∈ n.children, Moved c (hoist c).1 (hoist c).2) :
      Moved n (.join (n.children.map fun c => (hoist c).1)) (n.mapChildren fun c => (hoist c).2)
  | fresh {n : Node} {name : String} {ty : Ty} (operation : n.isOperation = true)
      (notVar : n.kind ≠ .varRef) (strict : mayShortCircuit n = false)
      (temp : n.temp? = some name) (type : n.ty? = some ty) (heap : ty.isHeap = true)
      (operands : Moved n (.join (n.children.map fun c => (hoist c).1))
        (n.mapChildren fun c => (hoist c).2)) :
      Moved n (.join (n.children.map fun c => (hoist c).1) ++
        .define name ty (n.mapChildren fun c => (hoist c).2) (isCall n)) (.temp name ty)
  | inPlace {op temp : String} {ty operandTy : Ty} {l r : Node} (logical : isShortCircuit op = true)
      (left : Moved l (hoist l).1 (hoist l).2) (right : Moved r (hoist r).1 (hoist r).2)
      (still : (hoist r).1.stats = []) :
      Moved (.binary .int op ty operandTy temp (some l) (some r)) (hoist l).1
        (.binary .int op ty operandTy temp (some (hoist l).2) (some (hoist r).2))
  | guarded {op temp : String} {ty operandTy : Ty} {l r : Node} (logical : isShortCircuit op = true)
      (left : Moved l (hoist l).1 (hoist l).2) (right : Moved r (hoist r).1 (hoist r).2)
      (stirred : (hoist r).1.stats ≠ []) :
      Moved (.binary .int op ty operandTy temp (some l) (some r))
        ((hoist l).1 ++ .define temp .boolean (hoist l).2 false ++
          .ofStats [rightOperand op temp (hoist r).1 (some (hoist r).2)]) (.temp temp .boolean)
  | bind {name : String} {v b m : Node} {s : Setup} (value : Moved v (hoist v).1 (hoist v).2)
      (body : Moved b s m) :
      Moved (.bind name .vector (some v) (some b))
        ((hoist v).1 ++ .define name .vector (hoist v).2 false ++ s) m

theorem mem_ownNames_of_temp? {x : String} (h : n.temp? = some x) : x ∈ n.ownNames := by
  cases n <;> first | (cases h; done) | simp [ownNames, h]

theorem isCall_mapChildren (f : Node → Node) (n : Node) : isCall (n.mapChildren f) = isCall n := by
  cases n <;> rfl

theorem isHeap_of_typed (h : n.ty? = some ty) : n.isHeap = ty.isHeap := by
  rw [isHeap, h]
  rfl

theorem reserved_binary {kind : OperandKind} {op temp : String} {l r : Node} :
    (binary kind op ty operandTy temp (some l) (some r)).reserved =
      l.reserved ++ r.reserved ++ [temp] := by
  rw [reserved_eq]
  simp [children, ownNames, temp?]

theorem reserved_bind :
    (bind name ty (some v) (some b)).reserved = v.reserved ++ b.reserved ++ [name] := by
  rw [reserved_eq]
  simp [children, ownNames]

/-- The temporaries of a moved expression are reserved in it. -/
theorem Moved.reserved (h : Moved e s m) : ∀ p ∈ s.temps, p.1 ∈ e.reserved := by
  induction h with
  | var => nofun
  | operation _ _ _ _ ih =>
    intro p hp
    obtain ⟨s, hs, hp⟩ := mem_flatMap.mp hp
    obtain ⟨c, hc, rfl⟩ := mem_map.mp hs
    exact mem_reserved_child hc (ih c hc p hp)
  | fresh _ _ _ temp _ _ _ ih =>
    exact forall_mem_append.mpr
      ⟨ih, forall_mem_singleton.mpr (mem_reserved_own (mem_ownNames_of_temp? temp))⟩
  | inPlace _ _ _ _ ihl =>
    intro p hp
    rw [reserved_binary]
    grind
  | guarded _ _ _ _ ihl =>
    rw [reserved_binary]
    refine forall_mem_append.mpr ⟨forall_mem_append.mpr ⟨?_, ?_⟩, nofun⟩
    · grind
    · exact forall_mem_singleton.mpr (mem_append_right _ (.head _))
  | bind _ _ ihv ihb =>
    rw [reserved_bind]
    refine forall_mem_append.mpr ⟨forall_mem_append.mpr ⟨?_, ?_⟩, ?_⟩
    · grind
    · exact forall_mem_singleton.mpr (mem_append_right _ (.head _))
    · grind

theorem Moved.isHeap (h : Moved e s m) (he : e.All (IsExprNode t)) : m.isHeap = e.isHeap := by
  induction h with
  | var | inPlace => rfl
  | operation operation => exact isHeap_mapChildren _ operation
  | fresh _ _ _ _ type => exact (isHeap_of_typed type).symm
  | guarded logical =>
    obtain ⟨-, rfl, -⟩ := he.here.2.2.2 (by simpa [isShortCircuit] using logical)
    rfl
  | @bind name v b _ _ _ _ _ ihb => exact ihb (he.inside b (mem_children_bind name v b).2)

/-- A temporary that is left of a moved expression was filled by its setup, or the expression reads
it. -/
theorem Moved.source (h : Moved e s m) (hm : m = .temp name ty) :
    (∃ ty', (name, ty') ∈ s.temps ∧ (ty.isHeap = true → ty'.isHeap = true)) ∨
    name ∈ e.freeTemps := by
  induction h with
  | var =>
    cases hm
    exact .inr (.head _)
  | operation _ notVar =>
    refine absurd ?_ notVar
    rw [← kind_mapChildren, hm]
    rfl
  | fresh =>
    cases hm
    exact .inl ⟨ty, mem_append_right _ (.head _), id⟩
  | inPlace => cases hm
  | guarded =>
    cases hm
    exact .inl ⟨.boolean, mem_append_left _ (mem_append_right _ (.head _)), id⟩
  | @bind bound _ _ _ _ _ _ _ ihb =>
    rw [freeTemps_bind]
    rcases ihb hm with ⟨ty', hmem, hheap⟩ | hfree
    · exact .inl ⟨ty', mem_append_right _ hmem, hheap⟩
    · by_cases hname : name = bound
      · exact .inl ⟨.vector, hname ▸ mem_append_left _ (mem_append_right _ (.head _)), fun _ => rfl⟩
      · grind

/-! ## Hoisting moves -/

/-- A heap value that is not read from a slot has a temporary to be moved to. -/
theorem fresh_of_isHeap (hexpr : n.IsExprNode t) (hheap : n.isHeap = true)
    (hop : n.isOperation = true) (hvar : n.kind ≠ .varRef) :
    ∃ temp ty, n.temp? = some temp ∧ n.ty? = some ty ∧ ty.isHeap = true ∧ makesValue n = true := by
  cases n <;> try cases hop
  case literal kind value temp =>
    cases kind <;> try cases hheap
    obtain ⟨name, rfl⟩ := Option.isSome_iff_exists.mp (hexpr.mpr rfl)
    exact ⟨name, .string, rfl, rfl, rfl, rfl⟩
  case vectorLit temp elems => exact ⟨temp, .vector, rfl, rfl, rfl, rfl⟩
  case varRef name ty isTemp => exact absurd rfl hvar
  case call name ty temp args => exact ⟨temp, ty, rfl, rfl, hheap, rfl⟩
  case binary kind op ty operandTy temp l r =>
    refine ⟨temp, ty, rfl, rfl, hheap, ?_⟩
    rcases hexpr.2.2.1 hheap with rfl | rfl <;> rfl
  case unary kind ty temp e =>
    obtain rfl := hexpr.2 hheap
    exact ⟨temp, ty, rfl, rfl, hheap, rfl⟩
  case index kind ty temp e i =>
    obtain rfl := hexpr.2.2 hheap
    exact ⟨temp, ty, rfl, rfl, hheap, rfl⟩
  case length argTy temp e => cases hheap
  case widen kind ty temp e len =>
    refine ⟨temp, ty, rfl, rfl, hheap, ?_⟩
    cases kind <;> first | rfl | exact absurd rfl (hexpr.2 hheap)

/-- Moving the operands of an operation. -/
theorem hoistOperands_moved (hop : n.isOperation = true) (hvar : n.kind ≠ .varRef)
    (hstrict : mayShortCircuit n = false) (h : ∀ c ∈ n.children, Moved c (hoist c).1 (hoist c).2) :
    Moved n (hoistOperands n).1 (hoistOperands n).2 := by
  rw [gather_hoist hop]
  exact .operation hop hvar hstrict h

section

variable (hexpr : n.IsExprNode t) (hop : n.isOperation = true) (hvar : n.kind ≠ .varRef)

include hexpr hop hvar

/-- A new heap value is moved to its temporary. -/
theorem hoist_fresh (hheap : n.isHeap = true) :
    ∃ temp ty, n.temp? = some temp ∧ n.ty? = some ty ∧ ty.isHeap = true ∧
      hoist n = (.join (n.children.map fun c => (hoist c).1) ++
        .define temp ty (n.mapChildren fun c => (hoist c).2) (isCall n), .temp temp ty) := by
  obtain ⟨temp, ty, htemp, hty, hty', hmakes⟩ := fresh_of_isHeap hexpr hheap hop hvar
  have hstrict : mayShortCircuit n = false := by
    cases n <;> try rfl
    case binary kind op _ _ _ _ _ => cases kind <;> first | rfl | cases hmakes
  have hfresh : fresh? (n.mapChildren fun c => (hoist c).2) = some (temp, ty) := by
    simp [fresh?, ty?_mapChildren _ hop, temp?_mapChildren,
      makesValue_mapChildren, htemp, hty, hty', hmakes]
  refine ⟨temp, ty, htemp, hty, hty', ?_⟩
  rw [hoist_eq hop hstrict, gather_hoist hop, settle, hfresh, isCall_mapChildren]

theorem operation_moved (hstrict : mayShortCircuit n = false)
    (h : ∀ c ∈ n.children, Moved c (hoist c).1 (hoist c).2) :
    Moved n (hoist n).1 (hoist n).2 := by
  have hmoved : Moved n _ _ := .operation hop hvar hstrict h
  cases hheap : n.isHeap with
  | false =>
    rw [hoist_eq hop hstrict, gather_hoist hop,
      settle_of_isHeap_eq_false ((isHeap_mapChildren _ hop).trans hheap), Setup.append_empty]
    exact hmoved
  | true =>
    obtain ⟨temp, ty, htemp, hty, hty', heq⟩ := hoist_fresh hexpr hop hvar hheap
    rw [heq]
    exact .fresh hop hvar hstrict htemp hty hty' hmoved

end

theorem hoist_shortCircuit {op temp : String} {l r : Node} (hop : isShortCircuit op = true) :
    hoist (.binary .int op ty operandTy temp (some l) (some r)) =
      shortCircuit op ty operandTy temp (some (hoist l)) (some (hoist r)) := by
  rw [hoist, fold_eq]
  show (if isShortCircuit op = true then _ else _) = _
  rw [if_pos hop]
  rfl

theorem shortCircuit_moved {op temp : String} {ty operandTy : Ty} {l r : Node}
    (hop : isShortCircuit op = true) (hl : Moved l (hoist l).1 (hoist l).2)
    (hr : Moved r (hoist r).1 (hoist r).2) :
    Moved (.binary .int op ty operandTy temp (some l) (some r))
      (hoist (.binary .int op ty operandTy temp (some l) (some r))).1
      (hoist (.binary .int op ty operandTy temp (some l) (some r))).2 := by
  rw [hoist_shortCircuit hop, shortCircuit]
  simp only [Option.map_some, Option.getD_some]
  split
  · rename_i hempty
    exact .inPlace hop hl hr (isEmpty_iff.mp hempty)
  · rename_i hsome
    exact .guarded hop hl hr fun hnil => hsome (by rw [hnil]; rfl)

theorem exists_varRef (h : n.kind = .varRef) : ∃ name ty isTemp, n = .varRef name ty isTemp := by
  cases n with
  | varRef name ty isTemp => exact ⟨name, ty, isTemp, rfl⟩
  | count kind | literal kind | binary kind | unary kind | index kind | widen kind =>
    cases kind <;> cases h
  | _ => cases h

theorem exists_shortCircuit (h : mayShortCircuit n = true) :
    ∃ op ty operandTy temp l r, n = .binary .int op ty operandTy temp l r ∧
      isShortCircuit op = true := by
  cases n <;> try cases h
  case binary kind op ty operandTy temp l r =>
    cases kind <;> try cases h
    exact ⟨op, ty, operandTy, temp, l, r, rfl, h⟩

/-- An expression that is no operation binds a vector. -/
theorem exists_bind (hexpr : n.IsExprNode t) (hop : ¬n.isOperation = true) :
    ∃ name v b, n = .bind name .vector (some v) (some b) ∧ v.isHeap = true ∧ b.isHeap = true := by
  cases n <;> first | exact hexpr.elim | exact absurd rfl hop | skip
  case bind name ty value body =>
    obtain ⟨rfl, ⟨v, rfl, hv⟩, b, rfl, hb, -⟩ := hexpr
    refine ⟨name, v, b, rfl, ?_, ?_⟩
    · rw [isHeap, hv]
      rfl
    · rw [isHeap, hb]
      rfl

theorem hoist_bind : hoist (.bind name .vector (some v) (some b)) =
      (held name .vector (some (hoist v)) ++ (hoist b).1, (hoist b).2) := by
  rw [hoist, fold_eq]
  rfl

/-- **Hoisting** moves expressions. -/
theorem hoist_moved (hexpr : n.All (IsExprNode t)) : Moved n (hoist n).1 (hoist n).2 := by
  induction n using induction with
  | step n ih =>
    have h : ∀ c ∈ n.children, Moved c (hoist c).1 (hoist c).2 := fun c hc =>
      ih c hc (hexpr.inside c hc)
    by_cases hop : n.isOperation = true
    · by_cases hvar : n.kind = .varRef
      · obtain ⟨name, ty, isTemp, rfl⟩ := exists_varRef hvar
        exact .var
      · cases hshort : mayShortCircuit n with
        | false => exact operation_moved hexpr.here hop hvar hshort h
        | true =>
          obtain ⟨op, ty, operandTy, temp, left, right, rfl, hshort⟩ := exists_shortCircuit hshort
          obtain ⟨hl, hr, -⟩ := hexpr.here
          obtain ⟨l, rfl⟩ := Option.isSome_iff_exists.mp hl
          obtain ⟨r, rfl⟩ := Option.isSome_iff_exists.mp hr
          refine shortCircuit_moved hshort (h l ?_) (h r ?_)
          · simp [children]
          · simp [children]
    · obtain ⟨name, v, b, rfl, -, -⟩ := exists_bind hexpr.here hop
      rw [hoist_bind]
      refine .bind (h v ?_) (h b ?_)
      · simp [children]
      · simp [children]

theorem children_moved (hexpr : n.All (IsExprNode t)) :
    ∀ c ∈ n.children, Moved c (hoist c).1 (hoist c).2 := fun c hc =>
  hoist_moved (hexpr.inside c hc)

/-- A heap value that is made by an expression is left in a temporary. -/
theorem exists_holder (hexpr : n.All (IsExprNode t))
    (hheap : n.isHeap = true) (hvar : n.kind ≠ .varRef) :
    ∃ name ty, (hoist n).2 = .temp name ty := by
  induction n using induction with
  | step n ih =>
    by_cases hop : n.isOperation = true
    · obtain ⟨temp, ty, -, -, -, heq⟩ := hoist_fresh hexpr.here hop hvar hheap
      exact ⟨temp, ty, congrArg Prod.snd heq⟩
    · obtain ⟨name, v, b, rfl, -, hb⟩ := exists_bind hexpr.here hop
      obtain ⟨-, -, _, hsome, -, hfree⟩ := hexpr.here
      cases hsome
      rw [hoist_bind]
      by_cases hvar : b.kind = .varRef
      · obtain ⟨name, ty, isTemp, rfl⟩ := exists_varRef hvar
        cases isTemp
        · cases hfree
        · exact ⟨name, ty, rfl⟩
      · have hmem : b ∈ (bind name .vector (some v) (some b)).children := by
          simp [children]
        exact ih b hmem (hexpr.inside b hmem) hb hvar

/-- What taking the bindings off an expression gives: the bound values are put ahead of the rest. -/
structure Unbound (t : Table) (n : Node) (r : Setup × Node) : Prop where
  expr : r.2.All (IsExprNode t)
  operation : r.2.isOperation = true
  heap : r.2.isHeap = n.isHeap
  moved : ∀ {s m}, Moved r.2 s m → Moved n (r.1 ++ s) m

theorem unbind_unbound (hexpr : n.All (IsExprNode t)) : Unbound t n (unbind n) := by
  induction n using induction with
  | step n ih =>
    by_cases hop : n.isOperation = true
    · have heq : unbind n = ({}, n) := by
        cases n <;> first | rfl | cases hop
      rw [heq]
      exact ⟨hexpr, hop, rfl, fun h => h⟩
    · obtain ⟨name, v, b, rfl, -, -⟩ := exists_bind hexpr.here hop
      have hmem := mem_children_bind name v b
      have hb := ih b hmem.2 (hexpr.inside b hmem.2)
      refine ⟨hb.expr, hb.operation, hb.heap, fun {s m} h => ?_⟩
      show Moved _ (held name .vector (some (hoist v)) ++ (unbind b).1 ++ s) m
      rw [Setup.append_assoc]
      exact .bind (hoist_moved (hexpr.inside v hmem.1)) (hb.moved h)

/-! ## Hoisted expressions -/

/-- What hoisting an expression gives. -/
structure Hoisted (n : Node) (r : Setup × Node) : Prop where
  prepared : Prepared r.1
  reserved : ∀ x ∈ r.1.used, x ∈ n.reserved
  settled : r.2.Settled
  heap : r.2.isHeap = n.isHeap

/-- What moving an expression gives: an operation is left, which may make a heap value. -/
structure LeavesOperation (n : Node) (s : Setup) (m : Node) : Prop where
  prepared : Prepared s
  reserved : ∀ x ∈ s.used, x ∈ n.reserved
  operation : m.OverSettled

/-- Hoisting leaves no expression that makes a heap value. -/
theorem hoist_kind (hexpr : n.All (IsExprNode t)) (hheap : (hoist n).2.isHeap = true) :
    (hoist n).2.kind = .varRef := by
  by_cases hvar : n.kind = .varRef
  · obtain ⟨name, ty, isTemp, rfl⟩ := exists_varRef hvar
    rfl
  · obtain ⟨name, ty, htemp⟩ :=
      exists_holder hexpr (((hoist_moved hexpr).isHeap hexpr).symm.trans hheap) hvar
    rw [htemp]
    rfl

theorem LeavesOperation.hoisted (h : LeavesOperation n (hoist n).1 (hoist n).2)
    (hexpr : n.All (IsExprNode t)) : Hoisted n (hoist n) :=
  ⟨h.prepared, h.reserved, h.operation.settled (hoist_kind hexpr), (hoist_moved hexpr).isHeap hexpr⟩

theorem prepared_join {cs : List Node} (h : ∀ c ∈ cs, Hoisted c (hoist c))
    (hnodup : (cs.flatMap reserved).Nodup) :
    Prepared (.join (cs.map fun c => (hoist c).1)) ∧
      ∀ x ∈ (Setup.join (cs.map fun c => (hoist c).1)).used, x ∈ cs.flatMap reserved := by
  induction cs with
  | nil => exact ⟨.nil, nofun⟩
  | cons c cs ih =>
    rw [flatMap_cons] at hnodup ⊢
    obtain ⟨-, htail, hapart⟩ := nodup_append.mp hnodup
    have hc := h c (.head _)
    obtain ⟨hprepared, hnames⟩ := ih (fun d hd => h d (.tail c hd)) htail
    constructor
    · apply Prepared.append hc.prepared hprepared
      intro x hx hx'
      exact hapart x (hc.reserved x hx) x (hnames x hx') rfl
    · intro x hx
      exact (Setup.mem_used_append.mp hx).elim (fun hx => mem_append_left _ (hc.reserved x hx))
        fun hx => mem_append_right _ (hnames x hx)

structure HoistedOperands (n : Node) (r : Setup × Node) : Prop where
  prepared : Prepared r.1
  reserved : ∀ x ∈ r.1.used, x ∈ n.children.flatMap reserved
  operation : r.2.OverSettled
  eq : r.2 = n.mapChildren fun c => (hoist c).2

theorem hoistOperands_hoisted (hexpr : n.IsExprNode t) (hop : n.isOperation = true)
    (h : ∀ c ∈ n.children, Hoisted c (hoist c)) (hnodup : n.reserved.Nodup) :
    HoistedOperands n (hoistOperands n) := by
  rw [reserved_eq] at hnodup
  obtain ⟨hprepared, hnames⟩ := prepared_join h (nodup_append.mp hnodup).1
  rw [gather_hoist hop]
  refine ⟨hprepared, hnames, ⟨by rwa [isOperation_mapChildren], ?_, fun hheap => ?_⟩, rfl⟩
  · rw [children_mapChildren]
    exact forall_mem_map.mpr fun c hc => (h c hc).settled
  · rw [isHeap_mapChildren _ hop] at hheap
    rw [kind_mapChildren, makesValue_mapChildren]
    by_cases hvar : n.kind = .varRef
    · exact .inl hvar
    · obtain ⟨_, _, -, -, -, hmakes⟩ := fresh_of_isHeap hexpr hheap hop hvar
      exact .inr hmakes

/-- Operations other than `&&` and `||`: a new heap value goes to its temporary. -/
theorem LeavesOperation.ofFresh
    (hops : HoistedOperands n (.join (n.children.map fun c => (hoist c).1),
      n.mapChildren fun c => (hoist c).2)) (htemp : n.temp? = some name)
    (hnodup : n.reserved.Nodup) :
    LeavesOperation n (.join (n.children.map fun c => (hoist c).1) ++
      .define name ty (n.mapChildren fun c => (hoist c).2) (isCall n)) (.temp name ty) := by
  have hown := mem_ownNames_of_temp? htemp
  have hdefine : ∀ {x}, x ∈ (Setup.define name ty _ (isCall n)).used ↔ x = name :=
    Setup.mem_used_define hops.operation
  rw [reserved_eq] at hnodup
  refine ⟨.append hops.prepared
    (.define hops.operation fun _ => (isCall_mapChildren _ n).symm) ?_, ?_,
    (settled_temp name ty).overSettled⟩
  · intro x hx hx'
    obtain rfl := hdefine.mp hx'
    exact (nodup_append.mp hnodup).2.2 x (hops.reserved x hx) x hown rfl
  · intro x hx
    rw [reserved_eq]
    rcases Setup.mem_used_append.mp hx with hx | hx
    · exact mem_append_left _ (hops.reserved x hx)
    · exact mem_append_right _ (hdefine.mp hx ▸ hown)

theorem isCall_eq_false (h : n.kind = .varRef) : isCall n = false := by
  cases n <;> first | rfl | cases h

/-- A value that goes to its temporary before the rest is evaluated. -/
theorem LeavesOperation.ofHeld (hv : Hoisted v (hoist v))
    (hcall : ty.isHeap = true → isCall (hoist v).2 = false) (hs : Prepared s)
    (hused : s.used ⊆ b.reserved) (hm : m.OverSettled)
    (hn : n.reserved = v.reserved ++ b.reserved ++ [name]) (hnodup : n.reserved.Nodup) :
    LeavesOperation n ((hoist v).1 ++ .define name ty (hoist v).2 false ++ s) m := by
  have hdefine : ∀ {x}, x ∈ (Setup.define name ty (hoist v).2 false).used ↔ x = name :=
    Setup.mem_used_define hv.settled.overSettled
  rw [hn] at hnodup
  obtain ⟨hboth, -, hname⟩ := nodup_append.mp hnodup
  refine ⟨.append (.append hv.prepared (.define hv.settled.overSettled fun h => (hcall h).symm) ?_)
    hs ?_, ?_, hm⟩
  · intro x hx hx'
    obtain rfl := hdefine.mp hx'
    exact hname x (mem_append_left _ (hv.reserved x hx)) x (.head _) rfl
  · intro x hx hx'
    rcases Setup.mem_used_append.mp hx with hx | hx
    · exact (nodup_append.mp hboth).2.2 x (hv.reserved x hx) x (hused hx') rfl
    · obtain rfl := hdefine.mp hx
      exact hname x (mem_append_right _ (hused hx')) x (.head _) rfl
  · intro x hx
    rw [hn]
    rcases Setup.mem_used_append.mp hx with hx | hx
    · rcases Setup.mem_used_append.mp hx with hx | hx
      · exact mem_append_left _ (mem_append_left _ (hv.reserved x hx))
      · exact mem_append_right _ (mem_singleton.mpr (hdefine.mp hx))
    · exact mem_append_left _ (mem_append_right _ (hused hx))

/-- **Moving** an expression fills temporaries that it reserves, each of them once. -/
theorem Moved.leavesOperation (h : Moved n s m) (hexpr : n.All (IsExprNode t))
    (hnodup : n.reserved.Nodup) : LeavesOperation n s m := by
  induction n using induction generalizing s m with
  | step n ih =>
    have hchild : ∀ c ∈ n.children, Hoisted c (hoist c) := fun c hc =>
      have hc' := hexpr.inside c hc
      (ih c hc (hoist_moved hc') hc' (nodup_reserved_child hnodup hc)).hoisted hc'
    cases h with
    | var => exact ⟨.nil, nofun, rfl, nofun, fun _ => .inl rfl⟩
    | operation operation =>
      have hops := hoistOperands_hoisted hexpr.here operation hchild hnodup
      rw [gather_hoist operation] at hops
      refine ⟨hops.prepared, fun x hx => ?_, hops.operation⟩
      rw [reserved_eq]
      exact mem_append_left _ (hops.reserved x hx)
    | fresh operation _ _ temp =>
      have hops := hoistOperands_hoisted hexpr.here operation hchild hnodup
      rw [gather_hoist operation] at hops
      exact .ofFresh hops temp hnodup
    | @inPlace op temp ty operandTy l r =>
      have hmem := mem_children_binary op ty operandTy temp l r
      have hl := hchild l hmem.1
      refine ⟨hl.prepared, fun x hx => mem_reserved_child hmem.1 (hl.reserved x hx), rfl,
        forall_mem_pair.mpr ⟨hl.settled, (hchild r hmem.2).settled⟩, ?_⟩
      intro hheap
      rcases hexpr.here.2.2.1 hheap with h | h <;> cases h
    | @guarded op temp ty operandTy l r =>
      have hmem := mem_children_binary op ty operandTy temp l r
      have hr := hchild r hmem.2
      refine .ofHeld (hchild l hmem.1) nofun (.guarded hr.prepared hr.settled) (fun x hx => ?_)
        (settled_temp temp .boolean).overSettled (reserved_binary ..) hnodup
      rw [Setup.used_rightOperand op temp _ hr.prepared.nodup_names hr.settled] at hx
      exact hr.reserved x hx
    | @bind name v b _ _ _ body =>
      have hmem := mem_children_bind name v b
      have hb := ih b hmem.2 body (hexpr.inside b hmem.2) (nodup_reserved_child hnodup hmem.2)
      obtain ⟨-, ⟨_, ⟨⟩, hv⟩, -⟩ := hexpr.here
      have hv' := hchild v hmem.1
      have hkind := hv'.settled.here.2 (hv'.heap.trans (isHeap_of_typed hv))
      exact .ofHeld hv' (fun _ => isCall_eq_false hkind) hb.prepared hb.reserved hb.operation
        (reserved_bind ..) hnodup

/-- **Hoisting** an expression fills temporaries that it reserves, and leaves an expression that
makes no heap value. -/
theorem hoist_hoisted (hexpr : n.All (IsExprNode t)) (hnodup : n.reserved.Nodup) :
    Hoisted n (hoist n) :=
  ((hoist_moved hexpr).leavesOperation hexpr hnodup).hoisted hexpr

/-! ## Expressions that are hoisted already -/

theorem hoistOperands_of_settled (hop : n.isOperation = true)
    (h : ∀ c ∈ n.children, hoist c = ({}, c)) : hoistOperands n = ({}, n) := by
  have hjoin : ∀ cs : List Node, (∀ c ∈ cs, hoist c = ({}, c)) →
      Setup.join (cs.map fun c => (hoist c).1) = {} := by
    intro cs hcs
    induction cs with
    | nil => rfl
    | cons c cs ih =>
      rw [map_cons, Setup.join_cons, hcs c (.head _),
        ih fun d hd => hcs d (.tail c hd)]
      rfl
  have hsame : n.mapChildren (fun c => (hoist c).2) = n := by
    refine (mapChildren_congr fun c hc => ?_).trans n.mapChildren_id
    rw [h c hc]
    rfl
  rw [gather_hoist hop, hjoin _ h, hsame]

/-- What makes no heap value is hoisted to itself. -/
theorem hoist_settled (h : n.Settled) : hoist n = ({}, n) := by
  induction h with
  | @intro n here inside ih =>
    cases hshort : mayShortCircuit n with
    | false =>
      rw [hoist_eq here.1 hshort, hoistOperands_of_settled here.1 ih]
      have hsettle : settle n = ({}, n) := by
        cases hheap : n.isHeap with
        | false => exact settle_of_isHeap_eq_false hheap
        | true =>
          obtain ⟨name, ty, isTemp, rfl⟩ := exists_varRef (here.2 hheap)
          rfl
      rw [hsettle]
      rfl
    | true =>
      obtain ⟨op, ty, operandTy, temp, l, r, rfl, hop⟩ := exists_shortCircuit hshort
      have hmap : ∀ o : Option Node, (∀ c ∈ o, hoist c = ({}, c)) →
          o.map hoist = o.map fun c => ({}, c) := by
        intro o ho
        cases o with
        | none => rfl
        | some c => exact congrArg some (ho c rfl)
      rw [hoist, fold_eq]
      show (if isShortCircuit op = true then
        shortCircuit op ty operandTy temp (l.map hoist) (r.map hoist) else _) = _
      rw [if_pos hop, hmap l fun c hc => ih c ?_, hmap r fun c hc => ih c ?_]
      · cases l <;> cases r <;> rfl
      · cases hc
        simp [children]
      · cases hc
        simp [children]

/-! ## Captured values -/

/-- What holding a heap value gives: a setup, and a temporary of it that has the value. -/
structure Holds (n : Node) (capture : String) (r : Setup × Node × String) : Prop where
  prepared : Prepared r.1
  reserved : ∀ x ∈ r.1.used, x ∈ n.reserved ∨ x = capture
  holder : ∃ ty, r.2.1 = .temp r.2.2 ty
  held : r.2.2 ∈ heapNames r.1.temps

theorem hold_holds {capture : String} (hexpr : n.ClosedExpr t)
    (hnodup : n.reserved.Nodup) (hcapture : capture ∉ n.reserved) (hheap : n.isHeap = true)
    (hty : ty.isHeap = true) : Holds n capture (hold capture ty n) := by
  have h := hoist_hoisted hexpr.expr hnodup
  have hmoved := hoist_moved hexpr.expr
  obtain ⟨name, ty', isTemp, hvar⟩ := exists_varRef (h.settled.here.2 (h.heap.trans hheap))
  have hty' : ty'.isHeap = true := by
    have := h.heap.trans hheap
    rwa [hvar] at this
  unfold hold
  obtain ⟨setup, m, hm⟩ : ∃ setup m, hoist n = (setup, m) := ⟨_, _, rfl⟩
  rw [hm] at h hvar hmoved ⊢
  obtain rfl : m = .varRef name ty' isTemp := hvar
  cases isTemp with
  | true =>
    have hsource := hmoved.source rfl
    refine ⟨h.prepared, fun x hx => .inl (h.reserved x hx), ⟨ty', rfl⟩, ?_⟩
    rcases hsource with ⟨ty, hmem, hheap⟩ | hfree
    · exact mem_map.mpr ⟨(name, ty), mem_filter.mpr ⟨hmem, hheap hty'⟩, rfl⟩
    · rw [hexpr.closed] at hfree
      cases hfree
  | false =>
    refine ⟨.append h.prepared (.define h.settled.overSettled fun _ => rfl) ?_, ?_, ⟨ty, rfl⟩, ?_⟩
    · intro x hx hx'
      obtain rfl := (Setup.mem_used_define h.settled.overSettled).mp hx'
      exact hcapture (h.reserved x hx)
    · intro x hx
      exact (Setup.mem_used_append.mp hx).imp (h.reserved x)
        (Setup.mem_used_define h.settled.overSettled).mp
    · simp [heapNames, Setup.define, hty]

end Counting

end WichToC

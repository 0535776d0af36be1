import WichToC.Model.Lemmas

/-!
# Trees of nodes

Induction over output models: what holds of a node whenever it holds of its children holds of every
node.  `Node.All` states a property of a node and of all nodes inside it.
-/

namespace WichToC.Slot

variable {α : Type}

@[simp] theorem shape_single {child : Option α} : (single child).shape = .single := rfl

@[simp] theorem shape_sequence {children : List α} : (sequence children).shape = .sequence := rfl

@[simp] theorem shape_map {entries : List (String × α)} : (map entries).shape = .map := rfl

theorem shape_eq_single {s : Slot α} : s.shape = .single ↔ ∃ child, s = .single child := by
  cases s <;> simp [shape]

theorem shape_eq_sequence {s : Slot α} :
    s.shape = .sequence ↔ ∃ children, s = .sequence children := by
  cases s <;> simp [shape]

theorem shape_eq_map {s : Slot α} : s.shape = .map ↔ ∃ entries, s = .map entries := by
  cases s <;> simp [shape]

end WichToC.Slot

namespace WichToC.Node

open List Slot

attribute [simp] slots toList

variable {c : Node} {α : Type}

/-! ## Children -/

theorem children_block (b : CBlock Node) :
    (block b).children = (b.locals ++ b.temps).map Prod.snd ++ (b.stats ++ b.cleanup) := by
  simp [children]

theorem mem_children_bind (name : String) (v b : Node) :
    v ∈ (bind name .vector (some v) (some b)).children ∧
      b ∈ (bind name .vector (some v) (some b)).children := by
  simp [children]

theorem mem_children_binary (op : String) (ty operandTy : Ty) (temp : String) (l r : Node) :
    l ∈ (binary .int op ty operandTy temp (some l) (some r)).children ∧
      r ∈ (binary .int op ty operandTy temp (some l) (some r)).children := by
  simp [children]

/-! ## Slots that are put back -/

/-- Slots of the right shapes become the slots of the node. -/
theorem slots_withSlots {n : Node} {ss : List (Slot Node)}
    (h : ss.map shape = n.slots.map shape) : (n.withSlots ss).slots = ss := by
  cases n <;>
    simp only [slots, map_cons, map_nil, map_eq_cons_iff, map_eq_nil_iff,
      shape_single, shape_sequence, shape_map, shape_eq_single,
      shape_eq_sequence, shape_eq_map] at h
  case argDef | varDecl | breakStat | count | literal | varRef =>
    rw [h]
    rfl
  case mainFunc | varDef | assign | returnStat | printStat | callStat | blockStat | tempDef |
      unary | length | vectorLit | call =>
    obtain ⟨_, _, rfl, ⟨_, rfl⟩, rfl⟩ := h
    rfl
  case func | elementAssign | whileStat | binary | index | widen | bind =>
    obtain ⟨_, _, rfl, ⟨_, rfl⟩, _, _, rfl, ⟨_, rfl⟩, rfl⟩ := h
    rfl
  case file | ifStat =>
    obtain ⟨_, _, rfl, ⟨_, rfl⟩, _, _, rfl, ⟨_, rfl⟩, _, _, rfl, ⟨_, rfl⟩, rfl⟩ := h
    rfl
  case block =>
    obtain ⟨_, _, rfl, ⟨_, rfl⟩, _, _, rfl, ⟨_, rfl⟩, _, _, rfl, ⟨_, rfl⟩, _, _, rfl, ⟨_, rfl⟩,
      rfl⟩ := h
    rfl

/-! ## Induction -/

theorem sizeOf_lt_of_mem_option {o : Option Node} (h : c ∈ o.toList) :
    sizeOf c < sizeOf o := by grind

theorem sizeOf_lt_of_mem_entries {entries : List (String × Node)}
    (h : c ∈ entries.map Prod.snd) : sizeOf c < sizeOf entries := by
  obtain ⟨⟨key, n⟩, hmem, rfl⟩ := mem_map.mp h
  have := sizeOf_lt_of_mem hmem
  grind

/-- A child is smaller. -/
theorem sizeOf_lt_of_mem_children {n : Node} (h : c ∈ n.children) : sizeOf c < sizeOf n := by
  cases n <;>
    simp only [children, slots, toList, flatMap_cons, flatMap_nil, mem_append,
      not_mem_nil, or_false] at h
  case block b =>
    rcases b with ⟨locals, temps, stats, cleanup, scope, isFunctionBody, injected⟩
    simp only [block.sizeOf_spec, CBlock.mk.sizeOf_spec]
    dsimp only at h
    rcases h with h | h | h | h
    · have := sizeOf_lt_of_mem_entries h; omega
    · have := sizeOf_lt_of_mem_entries h; omega
    · have := sizeOf_lt_of_mem h; omega
    · have := sizeOf_lt_of_mem h; omega
  case file globals funcs main =>
    simp only [file.sizeOf_spec]
    rcases h with h | h | h
    · have := sizeOf_lt_of_mem_entries h; omega
    · have := sizeOf_lt_of_mem h; omega
    · have := sizeOf_lt_of_mem_option h; omega
  case func head args body =>
    simp only [func.sizeOf_spec]
    rcases h with h | h
    · have := sizeOf_lt_of_mem h; omega
    · have := sizeOf_lt_of_mem_option h; omega
  case vectorLit temp elems => have := sizeOf_lt_of_mem h; simp; omega
  case call name ty temp args => have := sizeOf_lt_of_mem h; simp; omega
  case ifStat cond thenBranch elseBranch => grind
  case elementAssign | whileStat | binary | index | widen | bind =>
    simp only [elementAssign.sizeOf_spec, whileStat.sizeOf_spec, binary.sizeOf_spec,
      index.sizeOf_spec, widen.sizeOf_spec, bind.sizeOf_spec]
    rcases h with h | h
    all_goals
      have hlt := sizeOf_lt_of_mem_option h
      omega
  case mainFunc | varDef | assign | returnStat | printStat | callStat | blockStat | tempDef |
      unary | length =>
    have := sizeOf_lt_of_mem_option h
    simp only [mainFunc.sizeOf_spec, varDef.sizeOf_spec, assign.sizeOf_spec,
      returnStat.sizeOf_spec, printStat.sizeOf_spec, callStat.sizeOf_spec, blockStat.sizeOf_spec,
      tempDef.sizeOf_spec, unary.sizeOf_spec, length.sizeOf_spec]
    omega

/-- **Induction over models.** -/
theorem induction {P : Node → Prop} (step : ∀ n : Node, (∀ c ∈ n.children, P c) → P n) (n : Node) :
    P n := by
  induction hn : sizeOf n using Nat.strongRecOn generalizing n with
  | ind size ih =>
    apply step
    intro c hc
    exact ih (sizeOf c) (hn ▸ sizeOf_lt_of_mem_children hc) c rfl

/-! ## Properties of all nodes -/

/-- A property of a node and of all nodes inside it. -/
inductive All (P : Node → Prop) : Node → Prop
  | intro {n : Node} (here : P n) (inside : ∀ c ∈ n.children, All P c) : All P n

namespace All

variable {P Q : Node → Prop} {n : Node}

theorem here (h : n.All P) : P n := by
  cases h
  assumption

theorem inside (h : n.All P) : ∀ c ∈ n.children, c.All P := by
  cases h
  assumption

theorem of_children {cs : List Node} (here : P n) (hcs : n.children = cs)
    (inside : ∀ c ∈ cs, c.All P) : n.All P :=
  .intro here (hcs ▸ inside)

theorem imp (h : n.All P) (hPQ : ∀ m, P m → Q m) : n.All Q := by
  induction h with
  | intro here _ ih => exact .intro (hPQ _ here) ih

theorem of_forall (h : ∀ m, P m) (n : Node) : n.All P := by
  induction n using Node.induction with
  | step n ih => exact .intro (h n) ih

end All

/-! ## Gathering from all nodes -/

/-- What a node and all nodes inside it contribute, the children first. -/
def collect (own : Node → List α) (n : Node) : List α :=
  n.fold fun n slots => (slots.flatMap toList).flatten ++ own n

theorem collect_eq (own : Node → List α) (n : Node) :
    n.collect own = n.children.flatMap (collect own) ++ own n := by
  rw [collect, fold_eq, children]
  congr 1
  induction n.slots with
  | nil => rfl
  | cons s ss ih =>
    simp only [map_cons, flatMap_cons, flatten_append, ih, toList_mapChildren, flatMap_append]
    rw [flatMap_def]
    rfl

theorem All.collect_eq_nil {P : Node → Prop} {own : Node → List α} {n : Node}
    (h : n.All P) (hown : ∀ m, P m → own m = []) : n.collect own = [] := by
  induction h with
  | intro here _ ih =>
    rw [collect_eq, hown _ here, append_nil]
    exact flatMap_eq_nil_iff.mpr ih

end WichToC.Node

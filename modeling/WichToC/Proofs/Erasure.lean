import WichToC.Proofs.Capture

/-!
# Erasing counts

Counting adds statements, temporaries and blocks to a model, and `Node.erased` takes them away
again: it drops counts and declarations of temporaries, puts the value of a temporary where the
temporary is read, and folds guarded right operands and moved loop conditions back into what they
come from.

What is left is the model before counting, with the values of bindings in the place of their names:
`Node.inlined`.  So counting loses, repeats and reorders nothing.
-/

namespace WichToC

open List Counting Node
open Setup (stats_append names_append join names ofStats join_cons)

variable {n e : Node} {x op holder : String} {ty operandTy holderTy : Ty} {refInserted : Bool}
    {cs : List Node} (kind : CountKind) (slots : List String) (slot : String) {values' : Values}

/-- The expressions that temporaries stand for, the latest first. -/
abbrev Values := List (String × Node)

namespace Node

/-! ## Bindings -/

/-- The node without the marks of counting and without the slots of bound values. -/
def bare : Node → Node
  | func head args body => func { head with injected := false } args body
  | block b => block { b with temps := [], injected := false }
  | n => n

/-- A node with bound values in place of their names, given that for its children. -/
def inlineStep (n : Node) (inside : List (Slot (Values → Node))) (values : Values) : Node :=
  match n, inside with
  | varRef name _ true, _ => (values.lookup name).getD n
  | bind name _ _ _, [.single (some value), .single (some body)] =>
    body ((name, value values) :: values)
  | n, inside => (n.withSlots (inside.map (Slot.mapChildren (· values)))).bare

/-- The node with the given expressions in place of temporaries. -/
def inlineWith (n : Node) : Values → Node := n.fold inlineStep

/-- The node with every bound value in place of its name. -/
def inlined (n : Node) : Node := n.inlineWith []

/-! ## Counted code -/

/-- Whether a statement gives a variable a value. -/
def assigns (name : String) : Node → Bool
  | assign target .. => target = name
  | _ => false

/-- The operator and the temporary of a statement that evaluates a right operand. -/
def guarded? : Node → Option (String × String)
  | ifStat (some (varRef name _ true)) (some (block b)) none =>
    if b.stats.getLast?.any (assigns name) then some ("&&", name) else none
  | ifStat (some (unary .not _ _ (some (varRef name _ true)))) (some (block b)) none =>
    if b.stats.getLast?.any (assigns name) then some ("||", name) else none
  | _ => none

/-- The right operand that is left of the statement which evaluates it. -/
def rightOperand? : Node → Option Node
  | ifStat _ (some (block { stats := [assign _ _ _ right], .. })) _ => right
  | _ => none

/-- Statements without counts.  A temporary is read later, or its value is only evaluated. -/
def eraseAll : List (Node × (Values → Node)) → Values → List Node
  | [], _ => []
  | (n, erased) :: rest, values =>
    match n, erased values, n.guarded? with
    | count .., _, _ => eraseAll rest values
    | tempDef name .., tempDef _ _ _ (some value), _ =>
      if rest.any fun p => p.1.freeTemps.contains name then eraseAll rest ((name, value) :: values)
      else callStat (some value) :: eraseAll rest values
    | _, m, some (op, name) =>
      eraseAll rest ((name, binary .int op .boolean .boolean name (values.lookup name)
        m.rightOperand?) :: values)
    | _, m, none => m :: eraseAll rest values

/-- The condition of a loop that is left where the condition does not hold. -/
def exitTest? : Node → Option Node
  | ifStat (some (unary .not _ _ cond)) (some (block { stats := [breakStat], .. })) none => cond
  | _ => none

/-- The loop with its condition in front. -/
def refold : Node → Node
  | whileStat (some (literal .bool "true" none)) (some (block b)) =>
    match b.stats.head?.bind exitTest? with
    | some cond => whileStat (some cond) (some (block { b with stats := b.stats.tail }))
    | none => whileStat (some (literal .bool "true" none)) (some (block b))
  | n => n

/-- A node without counts, given that for its children. -/
def eraseStep (n : Node) (inside : List (Slot (Values → Node))) (values : Values) : Node :=
  match n, inside with
  | varRef name _ true, _ => (values.lookup name).getD n
  | block b, [_, _, .sequence stats, _] =>
    block { b with
      locals := b.vars
      temps := []
      stats := eraseAll (b.stats.zip stats) values
      cleanup := []
      injected := false }
  | n, inside => (n.withSlots (inside.map (Slot.mapChildren (· values)))).bare.refold

/-- The node without counts and with the given expressions in place of temporaries. -/
def eraseWith (n : Node) : Values → Node := n.fold eraseStep

/-- The node without counts and temporaries. -/
def erased (n : Node) : Node := n.eraseWith []

/-- Statements without counts. -/
def eraseStats (ns : List Node) (values : Values) : List Node :=
  eraseAll (ns.map fun n => (n, n.eraseWith)) values

/-! ## Equations -/

section Equations

variable {n : Node} {values : Values}

theorem withSlots_values {f : Node → Values → Node} :
    n.withSlots ((n.slots.map (Slot.mapChildren f)).map (Slot.mapChildren (· values))) =
      n.mapChildren (f · values) := by
  rw [mapChildren, map_map]
  refine congrArg n.withSlots (map_congr_left fun s _ => ?_)
  cases s <;> simp [Slot.mapChildren, Function.comp_def]

theorem inlineWith_node (hbind : n.kind ≠ .bind) (hvar : n.kind ≠ .varRef) :
    n.inlineWith values = (n.mapChildren (·.inlineWith values)).bare := by
  rw [inlineWith, fold_eq]
  unfold inlineStep
  split
  · exact absurd rfl hvar
  · exact absurd rfl hbind
  · exact congrArg bare withSlots_values

theorem inlineWith_bind {name : String} {v b : Node} :
    (bind name ty (some v) (some b)).inlineWith values =
      b.inlineWith ((name, v.inlineWith values) :: values) := by
  rw [inlineWith, fold_eq]
  rfl

theorem eraseWith_node (hblock : n.kind ≠ .block) (hvar : n.kind ≠ .varRef) :
    n.eraseWith values = (n.mapChildren (·.eraseWith values)).bare.refold := by
  rw [eraseWith, fold_eq]
  unfold eraseStep
  split
  · exact absurd rfl hvar
  · exact absurd rfl hblock
  · exact congrArg (refold ∘ bare) withSlots_values

theorem eraseWith_block {b : CBlock Node} : (block b).eraseWith values = block { b with
      locals := b.vars, temps := [], stats := eraseStats b.stats values, cleanup := [],
      injected := false } := by
  have hzip : b.stats.zip (b.stats.map eraseWith) = b.stats.map fun n => (n, n.eraseWith) := by
    simpa using zip_map' (f := id) (g := eraseWith) (l := b.stats)
  rw [eraseWith, fold_eq, eraseStats, ← hzip]
  rfl

/-- Erasing changes temporaries alone in an expression without bindings. -/
theorem eraseWith_eq_inlineWith (h : n.All fun n => n.isOperation = true) (values : Values) :
    n.eraseWith values = n.inlineWith values := by
  induction h with
  | @intro n hop _ ih =>
    by_cases hvar : n.kind = .varRef
    · obtain ⟨name, ty, isTemp, rfl⟩ := exists_varRef hvar
      cases isTemp <;> rfl
    · obtain ⟨hblock, -, hbind⟩ := kinds_of_isOperation hop
      rw [eraseWith_node hblock hvar, inlineWith_node hbind hvar, mapChildren_congr ih]
      cases n <;> first | rfl | cases hop

end Equations

/-! ## Temporaries that are read -/

end Node

/-- The nodes of expressions, with their operands where values are bound. -/
def Node.IsValue (n : Node) : Prop :=
  n.isOperation = true ∨ ∃ name v b, n = .bind name .vector (some v) (some b)

theorem Node.IsExprNode.isValue {t : Table} (h : n.IsExprNode t) : n.IsValue := by
  by_cases hop : n.isOperation = true
  · exact .inl hop
  · obtain ⟨name, v, b, rfl, -, -⟩ := exists_bind h hop
    exact .inr ⟨name, v, b, rfl⟩

/-- Only the values of the temporaries that an expression reads matter. -/
theorem Node.inlineWith_congr (h : n.All IsValue) {values : Values}
    (hsame : ∀ x ∈ n.freeTemps, values.lookup x = values'.lookup x) :
    n.inlineWith values = n.inlineWith values' := by
  induction h generalizing values values' with
  | @intro n here inside ih =>
    rcases here with hop | ⟨name, v, b, rfl⟩
    · by_cases hvar : n.kind = .varRef
      · obtain ⟨name, ty, isTemp, rfl⟩ := exists_varRef hvar
        cases isTemp with
        | false => rfl
        | true =>
          show (values.lookup name).getD _ = (values'.lookup name).getD _
          rw [hsame name (.head _)]
      · obtain ⟨-, -, hbind⟩ := kinds_of_isOperation hop
        rw [inlineWith_node hbind hvar, inlineWith_node hbind hvar]
        refine congrArg bare (mapChildren_congr fun c hc => ih c hc fun x hx => hsame x ?_)
        rw [freeTemps_of_operation hop hvar]
        exact mem_flatMap.mpr ⟨c, hc, hx⟩
    · rw [freeTemps_bind] at hsame
      have hmem := mem_children_bind name v b
      rw [inlineWith_bind, inlineWith_bind, ih v hmem.1 fun x hx => hsame x (mem_append_left _ hx)]
      grind

/-- Values of other temporaries do not matter. -/
theorem lookup_apart {new values : Values} (h : ∀ p ∈ new, p.1 ≠ x) :
    (new ++ values).lookup x = values.lookup x := by grind

namespace Counting

def reads (ns : List Node) : List String := ns.flatMap freeTemps

section Reads

variable {ns ns' : List Node} (name : String) (ty : Ty)

@[simp] theorem reads_nil : reads [] = [] := rfl

@[simp] theorem reads_append : reads (ns ++ ns') = reads ns ++ reads ns' := flatMap_append

@[simp] theorem reads_cons : reads (n :: ns) = n.freeTemps ++ reads ns :=
  flatMap_cons

@[simp] theorem freeTemps_count : (count kind slot).freeTemps = [] := rfl

@[simp] theorem freeTemps_temp : (temp name ty).freeTemps = [name] := rfl

theorem reads_counts : reads (slots.map (count kind)) = [] := by
  rw [reads, flatMap_map]
  exact flatMap_eq_nil_iff.mpr fun _ _ => rfl

theorem freeTemps_single (hchildren : n.children = [e]) (hbind : n.kind ≠ .bind)
    (hvar : n.kind ≠ .varRef) : n.freeTemps = e.freeTemps := by
  rw [Build.freeTemps_eq hbind hvar, hchildren]
  exact append_nil _

theorem reads_define {value : Node} {adopts : Bool} :
    reads (Setup.define name ty value adopts).stats = value.freeTemps := by
  have hdef : (tempDef name ty true (some value)).freeTemps = value.freeTemps :=
    freeTemps_single rfl nofun nofun
  unfold Setup.define
  dsimp only
  split <;> simp [hdef, reads, refer]

theorem reads_join {setups : List Setup} :
    reads (join setups).stats = setups.flatMap fun s => reads s.stats := by
  rw [reads, join, flatMap_assoc]
  rfl

theorem freeTemps_guard {temp : String} : (guard op temp).freeTemps = [temp] := by
  unfold guard
  split <;> rfl

theorem freeTemps_block {b : CBlock Node} (hlocals : ∀ p ∈ b.locals, p.2.freeTemps = [])
    (htemps : ∀ p ∈ b.temps, p.2.freeTemps = []) (hcleanup : reads b.cleanup = []) :
    (block b).freeTemps = reads b.stats := by
  have hentries : ∀ entries : List (String × Node), (∀ p ∈ entries, p.2.freeTemps = []) →
      (entries.map Prod.snd).flatMap freeTemps = [] := by
    intro entries h
    rw [flatMap_map]
    exact flatMap_eq_nil_iff.mpr h
  rw [Build.freeTemps_eq (n := .block b) nofun nofun]
  show (b.locals.map Prod.snd ++
    (b.temps.map Prod.snd ++ (b.stats ++ (b.cleanup ++ [])))).flatMap _ = _
  rw [flatMap_append, flatMap_append, flatMap_append, append_nil,
    hentries _ hlocals, hentries _ htemps, show flatMap freeTemps b.cleanup = [] from hcleanup,
    nil_append, nil_append, append_nil]
  rfl

/-- The statement that evaluates a right operand reads the temporary of the operation first. -/
theorem freeTemps_rightOperand {temp : String} {s : Setup} {right : Node} :
    (rightOperand op temp s (some right)).freeTemps = temp ::
    (reads s.stats ++ right.freeTemps) := by
  have hassign : (Node.assign temp .boolean "" (some right)).freeTemps = right.freeTemps :=
    freeTemps_single rfl nofun nofun
  have hblock : (block (guardBlock temp s right)).freeTemps = reads s.stats ++ right.freeTemps := by
    have hreleases : reads s.releases = [] := by
      rw [Setup.releases_eq]
      exact reads_counts .deref _
    rw [freeTemps_block (b := guardBlock temp s right) (fun p hp => ?_) nofun hreleases]
    · simp [guardBlock, hassign, reads]
    · obtain ⟨name, ty, heq⟩ := Build.tempDecls_isTempDecl s.temps p hp
      rw [heq]
      rfl
  rw [rightOperand_eq, Build.freeTemps_eq (n := .ifStat _ _ none) nofun nofun]
  simp [children, hblock, freeTemps_guard]

end Reads

/-! ## Moved expressions -/

namespace Moved

variable {t : Table} {e m : Node} {s : Setup} {temp : String}

/-- What is left of a moved expression binds nothing. -/
theorem operations (h : Moved e s m) : m.All fun n => n.isOperation = true := by
  have hchildren : ∀ n : Node, n.isOperation = true →
      (∀ c ∈ n.children, (hoist c).2.All fun n => n.isOperation = true) →
      (n.mapChildren fun c => (hoist c).2).All fun n => n.isOperation = true := by
    intro n hop hc
    refine .of_children ((isOperation_mapChildren _).trans hop) children_mapChildren ?_
    grind
  induction h with
  | var | fresh | guarded => exact .intro rfl nofun
  | operation operation _ _ _ ih => exact hchildren _ operation ih
  | inPlace _ _ _ _ ihl ihr =>
    refine .of_children rfl rfl (forall_mem_pair.mpr ⟨ihl, ihr⟩)
  | bind _ _ _ ih => exact ih

theorem freeTemps_mapChildren (hop : n.isOperation = true) (hvar : n.kind ≠ .varRef)
    (f : Node → Node) :
    (n.mapChildren f).freeTemps = n.children.flatMap fun c => (f c).freeTemps := by
  rw [freeTemps_of_operation ((isOperation_mapChildren f).trans hop)
    ((kind_mapChildren f).symm ▸ hvar), children_mapChildren, flatMap_map]

theorem freeTemps_binary (kind : OperandKind) {l r : Node} :
    (binary kind op ty operandTy temp (some l) (some r)).freeTemps =
      l.freeTemps ++ r.freeTemps := by
  rw [freeTemps_of_operation rfl (by cases kind <;> nofun)]
  simp [children]

/-- What is left of a moved expression reads what the expression does, and the temporaries of its
setup. -/
theorem free (h : Moved e s m) : ∀ x ∈ m.freeTemps, x ∈ e.freeTemps ∨ x ∈ s.names := by
  induction h with
  | var => exact fun x hx => .inl hx
  | @operation n operation notVar _ _ ih =>
    intro x hx
    rw [freeTemps_mapChildren operation notVar] at hx
    obtain ⟨c, hc, hx⟩ := mem_flatMap.mp hx
    rw [freeTemps_of_operation operation notVar]
    refine (ih c hc x hx).imp (fun hx => mem_flatMap.mpr ⟨c, hc, hx⟩) fun hx => ?_
    obtain ⟨p, hp, rfl⟩ := mem_map.mp hx
    exact mem_map_of_mem (mem_flatMap.mpr ⟨_, mem_map_of_mem hc, hp⟩)
  | fresh =>
    intro x hx
    obtain rfl := mem_singleton.mp hx
    exact .inr (by simp [names, Setup.define])
  | @inPlace op temp ty operandTy l r _ _ right still ihl ihr =>
    intro x hx
    rw [freeTemps_binary] at hx ⊢
    rcases mem_append.mp hx with hx | hx
    · exact (ihl x hx).imp (mem_append_left _) id
    · have hnone : (hoist r).1.names = [] := by
        rw [names, ← right.definedTemps, still]
        rfl
      grind
  | guarded =>
    intro x hx
    obtain rfl := mem_singleton.mp hx
    exact .inr (by simp [names, Setup.define, ofStats])
  | @bind name v b m s _ _ _ ihb =>
    intro x hx
    rw [freeTemps_bind]
    by_cases hname : x = name
    · exact .inr (by simp [names, Setup.define, hname])
    · refine (ihb x hx).imp (fun hx => mem_append_right _ ?_) fun hx => ?_
      · grind
      · rw [names_append]
        exact mem_append_right _ hx

/-- Moving loses no temporary that is read. -/
theorem keeps (h : Moved e s m) : ∀ x ∈ e.freeTemps, x ∈ reads s.stats ∨ x ∈ m.freeTemps := by
  induction h with
  | var => exact fun x hx => .inr hx
  | @operation n operation notVar _ _ ih =>
    intro x hx
    rw [freeTemps_of_operation operation notVar] at hx
    obtain ⟨c, hc, hx⟩ := mem_flatMap.mp hx
    rw [reads_join, freeTemps_mapChildren operation notVar, flatMap_map]
    grind
  | fresh _ _ _ _ _ _ _ ih =>
    intro x hx
    rw [stats_append, reads_append, reads_define]
    exact .inl (mem_append.mpr (ih x hx))
  | inPlace _ _ _ still ihl ihr =>
    intro x hx
    rw [freeTemps_binary] at hx ⊢
    rcases mem_append.mp hx with hx | hx
    · exact (ihl x hx).imp id (mem_append_left _)
    · rcases ihr x hx with hx | hx
      · rw [still] at hx
        cases hx
      · exact .inr (mem_append_right _ hx)
  | @guarded op temp ty operandTy l r _ _ _ _ ihl ihr =>
    intro x hx
    left
    rw [freeTemps_binary] at hx
    rw [stats_append, stats_append, reads_append, reads_append, reads_define, ofStats,
      reads_cons, freeTemps_rightOperand]
    grind
  | @bind name v b m s _ _ ihv ihb =>
    intro x hx
    rw [freeTemps_bind] at hx
    rw [stats_append, stats_append, reads_append, reads_append, reads_define]
    grind

/-- The temporaries that an expression reads or reserves. -/
def touched (e : Node) : List String := e.freeTemps ++ e.reserved

theorem touched_child {c : Node} (hop : n.isOperation = true) (hvar : n.kind ≠ .varRef)
    (hc : c ∈ n.children) (hx : x ∈ touched c) : x ∈ touched n := by
  rw [touched, freeTemps_of_operation hop hvar, reserved_eq]
  rcases mem_append.mp hx with hx | hx
  · grind
  · grind

theorem touched_operand {l r : Node} (h : x ∈ touched l ∨ x ∈ touched r) :
    x ∈ touched (.binary .int op ty operandTy temp (some l) (some r)) := by
  have hchild := fun c hc =>
    touched_child (n := .binary .int op ty operandTy temp (some l) (some r))
    (c := c) (x := x) rfl nofun hc
  exact h.elim (hchild l (by simp [children]))
    (hchild r (by simp [children]))

theorem free_touched (h : Moved e s m) : m.freeTemps ⊆ touched e := by
  intro x hx
  rcases h.free x hx with hx | hx
  · exact mem_append_left _ hx
  · obtain ⟨p, hp, rfl⟩ := mem_map.mp hx
    exact mem_append_right _ (h.reserved p hp)

/-- The code of a moved expression reads what the expression reads or reserves. -/
theorem reads_touched (h : Moved e s m) : reads s.stats ⊆ touched e := by
  induction h with
  | var => nofun
  | operation operation notVar _ _ ih =>
    intro x hx
    rw [reads_join, flatMap_map] at hx
    obtain ⟨c, hc, hx⟩ := mem_flatMap.mp hx
    exact touched_child operation notVar hc (ih c hc hx)
  | fresh _ _ _ _ _ _ operands ih =>
    intro x hx
    rw [stats_append, reads_append, reads_define] at hx
    exact append_subset.mpr ⟨ih, operands.free_touched⟩ hx
  | inPlace _ _ _ _ ihl => exact fun x hx => touched_operand (.inl (ihl hx))
  | guarded _ left right _ ihl ihr =>
    intro x hx
    rw [stats_append, stats_append, reads_append, reads_append, reads_define] at hx
    rcases mem_append.mp hx with hx | hx
    · exact touched_operand (.inl (append_subset.mpr ⟨ihl, left.free_touched⟩ hx))
    · rw [ofStats, reads_cons, freeTemps_rightOperand, reads_nil, append_nil] at hx
      rcases mem_cons.mp hx with rfl | hx
      · rw [touched, reserved_binary]
        simp
      · exact touched_operand (.inr (append_subset.mpr ⟨ihr, right.free_touched⟩ hx))
  | @bind name v b m s value _ ihv ihb =>
    intro x hx
    rw [stats_append, stats_append, reads_append, reads_append, reads_define] at hx
    rw [touched, freeTemps_bind, reserved_bind]
    rcases mem_append.mp hx with hx | hx
    · rcases mem_append.mp (append_subset.mpr ⟨ihv, value.free_touched⟩ hx) with hx | hx
      · exact mem_append_left _ (mem_append_left _ hx)
      · grind
    · by_cases hname : x = name
      · grind
      · rcases mem_append.mp (ihb hx) with hx | hx
        · grind
        · grind

end Moved

/-! ## Statements one after the other -/

section Stats

open Node

variable {n : Node} {ns : List Node} {values : Values} {name temp : String}

theorem eraseStats_count (ns : List Node) (values : Values) :
    eraseStats (.count kind slot :: ns) values = eraseStats ns values := rfl

theorem eraseStats_counts (ns : List Node) (values : Values) :
    eraseStats (slots.map (Node.count kind) ++ ns) values = eraseStats ns values := by
  induction slots with
  | nil => rfl
  | cons slot slots ih => exact (eraseStats_count kind slot _ values).trans ih

theorem any_reads :
    ((ns.map fun n => (n, n.eraseWith)).any fun p => p.1.freeTemps.contains name) = true ↔
      name ∈ reads ns := by
  simp [reads]

theorem eraseStats_tempDef (h : name ∈ reads ns) :
    eraseStats (.tempDef name ty refInserted (some e) :: ns) values =
      eraseStats ns ((name, e.eraseWith values) :: values) :=
  if_pos (any_reads.mpr h)

theorem eraseStats_unread (h : name ∉ reads ns) :
    eraseStats (.tempDef name ty refInserted (some e) :: ns) values =
      .callStat (some (e.eraseWith values)) :: eraseStats ns values :=
  if_neg fun hany => h (any_reads.mp hany)

/-- Whether a statement stays when counts are erased. -/
def isKept : Node → Bool
  | .count .. | .tempDef .. => false
  | n => n.guarded?.isNone

theorem eraseStats_kept (h : isKept n = true) :
    eraseStats (n :: ns) values = n.eraseWith values :: eraseStats ns values := by
  have hnone : n.guarded? = none := by
    cases n <;> first | rfl | cases h | exact Option.isNone_iff_eq_none.mp h
  show eraseAll ((n, n.eraseWith) :: ns.map fun n => (n, n.eraseWith)) values = _
  unfold eraseAll
  split
  · cases h
  · cases h
  · grind
  · rfl

theorem guarded?_rightOperand (hop : isShortCircuit op = true) (s : Setup)
    (right : Node) : (rightOperand op temp s (some right)).guarded? = some (op, temp) := by
  have hlast : (s.stats ++ [Node.assign temp .boolean "" (some right)]).getLast?.any
      (assigns temp) = true := by
    rw [getLast?_concat]
    exact decide_eq_true rfl
  have hop : op = "&&" ∨ op = "||" := by simpa [isShortCircuit] using hop
  rcases hop with rfl | rfl <;> exact if_pos hlast

/-- The statement that evaluates a right operand gives its temporary the whole operation as
value. -/
theorem eraseStats_rightOperand {s : Setup} {right r : Node} (hop : isShortCircuit op = true)
    (hinside : eraseStats (s.stats ++ [.assign temp .boolean "" (some right)]) values =
      [.assign temp .boolean "" (some r)]) :
    eraseStats (rightOperand op temp s (some right) :: ns) values =
      eraseStats ns ((temp, .binary .int op .boolean .boolean temp (values.lookup temp) (some r)) ::
        values) := by
  have hblock : (block (guardBlock temp s right)).eraseWith values =
    .block { guardBlock temp s right with
      locals := (guardBlock temp s right).vars, temps := []
      stats := [.assign temp .boolean "" (some r)]
      cleanup := [], injected := false } := by
    rw [eraseWith_block, ← hinside]
    rfl
  have herased : ((rightOperand op temp s (some right)).eraseWith values).rightOperand? =
      some r := by
    rw [rightOperand_eq, eraseWith_node (n := .ifStat _ _ none) nofun nofun]
    show rightOperand? (.ifStat _ (some ((block (guardBlock temp s right)).eraseWith values)) _) = _
    rw [hblock]
    rfl
  show eraseAll ((_, _) :: ns.map fun n => (n, n.eraseWith)) values = _
  unfold eraseAll
  rw [guarded?_rightOperand hop, ← herased]
  rfl

end Stats

/-! ## Erasing moved expressions -/

open Node

/-- Erasing the code of a moved expression gives its temporaries the values `new`, and what is left
of the expression the value that it had. -/
structure Erases (e : Node) (s : Setup) (m : Node) (values new : Values) : Prop where
  names : ∀ p ∈ new, p.1 ∈ s.names
  value : m.eraseWith (new ++ values) = e.inlineWith values
  stats : ∀ rest, (∀ x ∈ m.freeTemps, x ∈ reads rest) →
    eraseStats (s.stats ++ rest) values = eraseStats rest (new ++ values)

/-- An expression whose temporaries have different names. -/
structure TempsApart (t : Table) (e : Node) : Prop where
  expr : e.All (IsExprNode t)
  nodup : e.reserved.Nodup
  apart : ∀ x ∈ e.freeTemps, x ∉ e.reserved

section Erases

variable {t : Table} {values : Values} {e m n : Node} {s : Setup} {new : Values} {ty : Ty}
  {name temp : String} {f : Node → Node}

theorem tempsApart_of_closed (he : e.ClosedExpr t) (hnodup : e.reserved.Nodup) :
    TempsApart t e where
  expr := he.expr
  nodup := hnodup
  apart x hx := by
    rw [he.closed] at hx
    cases hx

/-- Operands one after the other. -/
structure ErasesAll (cs : List Node) (values new : Values) : Prop where
  names : ∀ p ∈ new, p.1 ∈ (join (cs.map fun c => (hoist c).1)).names
  value : ∀ c ∈ cs, (hoist c).2.eraseWith (new ++ values) = c.inlineWith values
  stats : ∀ rest, (∀ c ∈ cs, ∀ x ∈ (hoist c).2.freeTemps, x ∈ reads rest) →
    eraseStats ((join (cs.map fun c => (hoist c).1)).stats ++ rest) values =
      eraseStats rest (new ++ values)

theorem Moved.names_reserved (h : Moved e s m) : s.names ⊆ e.reserved := by
  intro x hx
  obtain ⟨p, hp, rfl⟩ := mem_map.mp hx
  exact h.reserved p hp

/-- What is left of an expression keeps its value when other temporaries are given values later. -/
theorem Erases.later {later : Values} (h : Erases e s m values new)
    (hmoved : Moved e s m) (hlater : ∀ p ∈ later, p.1 ∉ Moved.touched e) :
    m.eraseWith (later ++ (new ++ values)) = e.inlineWith values := by
  rw [← h.value, eraseWith_eq_inlineWith hmoved.operations,
    eraseWith_eq_inlineWith hmoved.operations]
  refine inlineWith_congr (hmoved.operations.imp fun _ => .inl) fun x hx => lookup_apart ?_
  rintro p hp rfl
  exact hlater p hp (hmoved.free_touched hx)

theorem ErasesAll.reserved (h : ErasesAll cs values new)
    (hmoved : ∀ c ∈ cs, Moved c (hoist c).1 (hoist c).2) :
    ∀ p ∈ new, p.1 ∈ cs.flatMap reserved := by
  intro p hp
  obtain ⟨q, hq, heq⟩ := mem_map.mp (h.names p hp)
  obtain ⟨setup, hsetup, hq⟩ := mem_flatMap.mp hq
  obtain ⟨c, hc, rfl⟩ := mem_map.mp hsetup
  exact mem_flatMap.mpr ⟨c, hc, heq ▸ (hmoved c hc).reserved q hq⟩

theorem erasesAll (hmoved : ∀ c ∈ cs, Moved c (hoist c).1 (hoist c).2)
    (hexpr : ∀ c ∈ cs, c.All (IsExprNode t)) (hnodup : (cs.flatMap reserved).Nodup)
    (hapart : ∀ c ∈ cs, ∀ x ∈ c.freeTemps, x ∉ cs.flatMap reserved)
    (h : ∀ c ∈ cs, ∀ values, ∃ new, Erases c (hoist c).1 (hoist c).2 values new) (values : Values) :
    ∃ new, ErasesAll cs values new := by
  induction cs generalizing values with
  | nil => exact ⟨[], nofun, nofun, fun _ _ => rfl⟩
  | cons c cs ih =>
    obtain ⟨hc, hcs⟩ := forall_mem_cons.mp hmoved
    obtain ⟨hcexpr, hcsexpr⟩ := forall_mem_cons.mp hexpr
    obtain ⟨hcapart, hcsapart⟩ := forall_mem_cons.mp hapart
    obtain ⟨hself, hothers⟩ := forall_mem_cons.mp h
    rw [flatMap_cons] at hnodup hcapart hcsapart
    obtain ⟨-, hcsnodup, hdisjoint⟩ := nodup_append.mp hnodup
    obtain ⟨first, hfirst⟩ := hself values
    obtain ⟨new, hnew⟩ := ih hcs hcsexpr hcsnodup
      (fun d hd x hx hmem => hcsapart d hd x hx (mem_append_right _ hmem)) hothers
      (first ++ values)
    have hreserved : ∀ p ∈ first, p.1 ∈ c.reserved := fun p hp =>
      hc.names_reserved (hfirst.names p hp)
    refine ⟨new ++ first, fun p hp => ?_, fun d hd => ?_, fun rest hrest => ?_⟩
    · rw [map_cons, join_cons, names_append]
      exact (mem_append.mp hp).elim (fun hp => mem_append_right _ (hnew.names p hp))
        fun hp => mem_append_left _ (hfirst.names p hp)
    · rw [append_assoc]
      rcases mem_cons.mp hd with rfl | hd
      · -- the operands after this one use other temporaries
        refine hfirst.later hc fun p hp hx => ?_
        have hp := hnew.reserved hcs p hp
        rcases mem_append.mp hx with hx | hx
        · exact hcapart _ hx (mem_append_right _ hp)
        · exact hdisjoint _ hx _ hp rfl
      · rw [hnew.value d hd]
        refine inlineWith_congr ((hcsexpr d hd).imp fun _ => IsExprNode.isValue) fun x hx =>
          lookup_apart ?_
        grind
    · obtain ⟨hcrest, hcsrest⟩ := forall_mem_cons.mp hrest
      rw [map_cons, join_cons, stats_append, append_assoc, append_assoc,
        hfirst.stats, hnew.stats rest hcsrest]
      intro x hx
      rw [reads_append]
      exact mem_append_right _ (hcrest x hx)

/-- A temporary takes the value of a moved expression. -/
theorem Erases.define (h : Erases e s m values new) (name : String) (ty : Ty) (adopts : Bool) :
    Erases e (s ++ .define name ty m adopts) (.temp name ty) values
      ((name, e.inlineWith values) :: new) where
  names p hp := by
    rw [names_append]
    rcases mem_cons.mp hp with rfl | hp
    · exact mem_append_right _ (.head _)
    · exact mem_append_left _ (h.names p hp)
  value := by
    show (lookup name ((name, e.inlineWith values) :: (new ++ values))).getD _ = _
    rw [lookup_cons_self]
    rfl
  stats rest hrest := by
    have hread : ∀ ns, name ∈ reads (ns ++ rest) := fun ns => by
      rw [reads_append]
      exact mem_append_right _ (hrest name (.head _))
    have hstats : ∀ values', eraseStats ((Setup.define name ty m adopts).stats ++ rest) values' =
        eraseStats rest ((name, m.eraseWith values') :: values') := by
      intro values'
      unfold Setup.define
      dsimp only
      split
      · exact (eraseStats_tempDef (hread _)).trans (eraseStats_count ..)
      · exact eraseStats_tempDef (hread _)
    rw [stats_append, append_assoc, h.stats, hstats, h.value]
    · rfl
    · intro x hx
      rw [reads_append, reads_define]
      exact mem_append_left _ hx

theorem TempsApart.child {c : Node} (h : TempsApart t n) (hop : n.isOperation = true)
    (hvar : n.kind ≠ .varRef) (hc : c ∈ n.children) : TempsApart t c where
  expr := h.expr.inside c hc
  nodup := nodup_reserved_child h.nodup hc
  apart x hx hmem := h.apart x (mem_freeTemps_child hop hvar hc hx) (mem_reserved_child hc hmem)

theorem TempsApart.operands {kind : OperandKind} {l r : Node}
    (h : TempsApart t (.binary kind op ty operandTy temp (some l) (some r))) :
    TempsApart t l ∧ TempsApart t r := by
  have hvar : (binary kind op ty operandTy temp (some l) (some r)).kind ≠ .varRef := by
    cases kind <;> nofun
  exact ⟨h.child rfl hvar (by simp [children]),
    h.child rfl hvar (by simp [children])⟩

/-- The operands of an operation. -/
theorem TempsApart.erasesAll (h : TempsApart t n) (hop : n.isOperation = true)
    (hvar : n.kind ≠ .varRef) (hmoved : ∀ c ∈ n.children, Moved c (hoist c).1 (hoist c).2)
    (ih : ∀ c ∈ n.children, TempsApart t c → ∀ values,
      ∃ new, Erases c (hoist c).1 (hoist c).2 values new) (values : Values) :
    ∃ new, ErasesAll n.children values new := by
  have hnodup := h.nodup
  rw [reserved_eq] at hnodup
  refine Counting.erasesAll hmoved h.expr.inside (nodup_append.mp hnodup).1
    (fun c hc x hx hmem => h.apart x (mem_freeTemps_child hop hvar hc hx) ?_)
    (fun c hc => ih c hc (h.child hop hvar hc)) values
  rw [reserved_eq]
  exact mem_append_left _ hmem

theorem mapChildren_mapChildren {g : Node → Node} :
    (n.mapChildren f).mapChildren g = n.mapChildren fun c => g (f c) := by
  cases n <;>
    simp [mapChildren, withSlots, Slot.mapChildren, Function.comp_def]

/-- An operation on erased operands. -/
theorem eraseWith_mapChildren (hop : n.isOperation = true) (hvar : n.kind ≠ .varRef)
    (h : ∀ c ∈ n.children, (f c).eraseWith values' = c.inlineWith values) :
    (n.mapChildren f).eraseWith values' = n.inlineWith values := by
  obtain ⟨hblock, -, hbind⟩ := kinds_of_isOperation hop
  have hkind := kind_mapChildren (n := n) f
  rw [eraseWith_node (hkind ▸ hblock) (hkind ▸ hvar), inlineWith_node hbind hvar,
    mapChildren_mapChildren, mapChildren_congr h]
  cases n <;> first | rfl | cases hop

theorem erases_guarded {l r : Node} (hop : isShortCircuit op = true)
    (he : TempsApart t (.binary .int op ty operandTy temp (some l) (some r)))
    (hl : Moved l (hoist l).1 (hoist l).2)
    (ihl : ∃ new, Erases l (hoist l).1 (hoist l).2 values new)
    (ihr : ∀ values, ∃ new, Erases r (hoist r).1 (hoist r).2 values new) :
    ∃ new, Erases (.binary .int op ty operandTy temp (some l) (some r))
      ((hoist l).1 ++ .define temp .boolean (hoist l).2 false ++
        .ofStats [rightOperand op temp (hoist r).1 (some (hoist r).2)]) (.temp temp .boolean) values
      new := by
  obtain ⟨newLeft, hleft⟩ := ihl
  have hdef := hleft.define temp .boolean false
  obtain ⟨newRight, hright⟩ := ihr ((temp, l.inlineWith values) :: newLeft ++ values)
  obtain ⟨-, rfl, rfl⟩ : OperandKind.int = .int ∧ ty = .boolean ∧ operandTy = .boolean :=
    he.expr.here.2.2.2 (by simpa [isShortCircuit] using hop)
  -- the right operand reads no temporary of the left one
  have hrvalue : r.inlineWith ((temp, l.inlineWith values) :: newLeft ++ values) =
      r.inlineWith values := by
    have hmem : r ∈ (binary .int op .boolean .boolean temp (some l) (some r)).children := by
      simp [children]
    refine inlineWith_congr ((he.expr.inside r hmem).imp fun _ => IsExprNode.isValue) fun x hx =>
      lookup_apart ?_
    rintro p hp rfl
    refine he.apart p.1 ?_ ?_
    · rw [Moved.freeTemps_binary]
      exact mem_append_right _ hx
    · rw [reserved_binary]
      rcases mem_cons.mp hp with rfl | hp
      · exact mem_append_right _ (.head _)
      · exact mem_append_left _ (mem_append_left _ (hl.names_reserved (hleft.names p hp)))
  have hinside : eraseStats ((hoist r).1.stats ++ [.assign temp .boolean "" (some (hoist r).2)])
      ((temp, l.inlineWith values) :: newLeft ++ values) =
        [.assign temp .boolean "" (some (r.inlineWith values))] := by
    rw [hright.stats, eraseStats_kept rfl, ← hrvalue, ← hright.value]
    · rfl
    · intro x hx
      rw [reads_cons, freeTemps_single (n := .assign ..) (e := (hoist r).2) rfl (by rintro ⟨⟩)
        (by rintro ⟨⟩)]
      exact mem_append_left _ hx
  refine ⟨(temp, .binary .int op .boolean .boolean temp (some (l.inlineWith values))
    (some (r.inlineWith values))) :: (temp, l.inlineWith values) :: newLeft, fun p hp => ?_, ?_,
    fun rest hrest => ?_⟩
  · rw [names_append]
    rcases mem_cons.mp hp with rfl | hp
    · exact mem_append_left _ (hdef.names (temp, l.inlineWith values) (.head _))
    · exact mem_append_left _ (hdef.names p hp)
  · show (lookup temp ((temp, _) :: _)).getD _ = _
    rw [lookup_cons_self, inlineWith_node (n := .binary .int ..) (by rintro ⟨⟩) (by rintro ⟨⟩)]
    rfl
  · rw [stats_append, append_assoc, hdef.stats]
    · refine (eraseStats_rightOperand hop hinside).trans ?_
      rw [cons_append, lookup_cons_self]
      rfl
    · intro x hx
      rw [mem_singleton.mp hx]
      show temp ∈ reads (rightOperand op temp _ _ :: rest)
      rw [reads_cons, freeTemps_rightOperand]
      exact mem_append_left _ (.head _)

theorem TempsApart.bound {v b : Node} (h : TempsApart t (.bind name .vector (some v) (some b))) :
    TempsApart t v ∧ TempsApart t b ∧ name ∉ v.reserved ∧
      ∀ x ∈ b.freeTemps, x ≠ name → x ∉ v.reserved := by
  have hmem := mem_children_bind name v b
  have hnodup := h.nodup
  have hapart := h.apart
  rw [reserved_bind] at hnodup hapart
  rw [freeTemps_bind] at hapart
  obtain ⟨hboth, -, hname⟩ := nodup_append.mp hnodup
  obtain ⟨hv, hb, hdisjoint⟩ := nodup_append.mp hboth
  have hfree : ∀ x ∈ b.freeTemps, x ≠ name → x ∉ v.reserved ++ b.reserved ++ [name] :=
    fun x hx hne => hapart x (mem_append_right _ (mem_filter.mpr ⟨hx, by simpa using hne⟩))
  have hfresh : name ∉ v.reserved ++ b.reserved := fun hmem =>
    hname name hmem name (.head _) rfl
  refine ⟨⟨h.expr.inside v hmem.1, hv, fun x hx hx' => ?_⟩, ⟨h.expr.inside b hmem.2, hb,
    fun x hx hx' => ?_⟩, fun hx => hfresh (mem_append_left _ hx), fun x hx hne hx' => ?_⟩
  · exact hapart x (mem_append_left _ hx)
      (mem_append_left _ (mem_append_left _ hx'))
  · grind
  · grind

theorem erases_bind {v b : Node} {newBody : Values}
    (he : TempsApart t (.bind name .vector (some v) (some b)))
    (hvalue : Moved v (hoist v).1 (hoist v).2)
    (hbody : ∀ x ∈ b.freeTemps, x ∈ reads s.stats ∨ x ∈ m.freeTemps)
    (hv : Erases v (hoist v).1 (hoist v).2 values new)
    (hb : Erases b s m ((name, v.inlineWith values) :: new ++ values) newBody) :
    Erases (.bind name .vector (some v) (some b))
      ((hoist v).1 ++ .define name .vector (hoist v).2 false ++ s) m values
      (newBody ++ (name, v.inlineWith values) :: new) := by
  have hdef := hv.define name .vector false
  obtain ⟨-, hbapart, hname, hfree⟩ := he.bound
  refine ⟨fun p hp => ?_, ?_, fun rest hrest => ?_⟩
  · rw [names_append]
    exact (mem_append.mp hp).elim (fun hp => mem_append_right _ (hb.names p hp))
      fun hp => mem_append_left _ (hdef.names p hp)
  · rw [append_assoc, hb.value, inlineWith_bind]
    refine inlineWith_congr (hbapart.expr.imp fun _ => IsExprNode.isValue) fun x hx => ?_
    by_cases hne : x = name
    · grind
    · rw [cons_append, lookup_cons, lookup_cons, beq_false_of_ne hne]
      refine lookup_apart fun p hp heq => hfree x hx hne ?_
      exact heq ▸ hvalue.names_reserved (hv.names p hp)
  · rw [stats_append, append_assoc, hdef.stats, hb.stats rest hrest, append_assoc]
    -- the body reads what is bound for it
    intro x hx
    obtain ⟨-, -, _, hsome, -, hread⟩ := he.expr.here
    cases hsome
    rw [mem_singleton.mp hx, reads_append]
    grind

/-- **Erasing what was moved.** -/
theorem Moved.erases (h : Moved e s m) (he : TempsApart t e)
    (values : Values) : ∃ new, Erases e s m values new := by
  induction h generalizing values with
  | @var name ty isTemp =>
    exact ⟨[], nofun,
      eraseWith_eq_inlineWith (n := .varRef name ty isTemp) (.intro rfl nofun) values,
      fun _ _ => rfl⟩
  | @operation n operation notVar strict children ih =>
    obtain ⟨new, hnew⟩ := he.erasesAll operation notVar children ih values
    refine ⟨new, hnew.names, eraseWith_mapChildren operation notVar hnew.value,
      fun rest hrest => ?_⟩
    refine hnew.stats rest fun c hc x hx => hrest x ?_
    rw [freeTemps_mapChildren operation notVar]
    exact mem_flatMap.mpr ⟨c, hc, hx⟩
  | fresh operation notVar strict temp type heap operands ih =>
    obtain ⟨new, hnew⟩ := ih he values
    exact ⟨_, hnew.define _ _ _⟩
  | @inPlace op temp ty operandTy l r logical left right still ihl ihr =>
    have hmoved : ∀ c ∈ [l, r], Moved c (hoist c).1 (hoist c).2 :=
      forall_mem_pair.mpr ⟨left, right⟩
    have hvar : (binary .int op ty operandTy temp (some l) (some r)).kind ≠ .varRef := nofun
    obtain ⟨new, hnew⟩ := he.erasesAll rfl hvar hmoved
      (forall_mem_pair.mpr ⟨ihl, ihr⟩) values
    have hnames : (hoist r).1.names = [] := by
      rw [names, ← right.definedTemps, still]
      rfl
    refine ⟨new, fun p hp => ?_, eraseWith_mapChildren rfl hvar hnew.value, fun rest hrest => ?_⟩
    · have hp : p.1 ∈ ((hoist l).1 ++ ((hoist r).1 ++ {})).names := hnew.names p hp
      rw [Setup.append_empty, names_append, hnames, append_nil] at hp
      exact hp
    · have hstats : (join ([l, r].map fun c => (hoist c).1)).stats = (hoist l).1.stats := by
        show (hoist l).1.stats ++ ((hoist r).1.stats ++ []) = _
        rw [still, append_nil, append_nil]
      rw [← hstats]
      refine hnew.stats rest fun c hc x hx => hrest x ?_
      have hchildren : (binary .int op ty operandTy temp (some l) (some r)).children = [l, r] := rfl
      have hfree := freeTemps_mapChildren (n := .binary .int op ty operandTy temp (some l) (some r))
        rfl hvar fun c => (hoist c).2
      exact hfree ▸ mem_flatMap.mpr ⟨c, hc, hx⟩
  | guarded logical left right stirred ihl ihr =>
    obtain ⟨hl, hr⟩ := he.operands
    exact erases_guarded logical he left (ihl hl values) (ihr hr)
  | bind value body ihv ihb =>
    obtain ⟨hv, hb, -, -⟩ := he.bound
    obtain ⟨new, hnew⟩ := ihv hv values
    obtain ⟨newBody, hbody⟩ := ihb hb _
    exact ⟨_, erases_bind he value body.keeps hnew hbody⟩

/-- A value that is held in a temporary. -/
theorem HeldIn.erases {capture holder : String} {holderTy : Ty}
    (h : HeldIn capture ty e s holder holderTy) (he : TempsApart t e) (values : Values) :
    ∃ new, Erases e s (.temp holder holderTy) values new := by
  cases h with
  | found moved => exact moved.erases he values
  | captured moved =>
    obtain ⟨new, hnew⟩ := moved.erases he values
    exact ⟨_, hnew.define capture ty false⟩

theorem Moved.of_varRef {isTemp : Bool}
    (h : Moved (.varRef name ty isTemp) s m) : s = {} ∧ m = .varRef name ty isTemp := by
  cases h with
  | var => exact ⟨rfl, rfl⟩
  | operation _ notVar | fresh _ notVar => exact absurd rfl notVar

/-- The temporary that a new heap value is moved to is defined last. -/
theorem Moved.defined_last (h : Moved e s m) (hm : m = .temp holder holderTy) (he : TempsApart t e)
    (hheap : e.isHeap = true) (hvar : e.kind ≠ .varRef) :
    ∃ before value ty adopts, s = before ++ .define holder ty value adopts ∧
      (∀ x ∈ e.freeTemps, x ∈ reads before.stats ∨ x ∈ value.freeTemps) ∧
      ∀ values, ∃ new, Erases e before value values new := by
  induction h with
  | var => exact absurd rfl hvar
  | @operation n operation notVar _ _ _ =>
    have hkind := congrArg kind hm
    rw [kind_mapChildren] at hkind
    exact absurd hkind notVar
  | fresh _ _ _ _ _ _ operands =>
    cases hm
    exact ⟨_, _, _, _, rfl, operands.keeps, operands.erases he⟩
  | inPlace => cases hm
  | @guarded op temp ty operandTy l r logical =>
    obtain ⟨-, rfl, -⟩ : OperandKind.int = .int ∧ ty = .boolean ∧ operandTy = .boolean :=
      he.expr.here.2.2.2 (by simpa [isShortCircuit] using logical)
    cases hheap
  | @bind name v b m s value body _ ihb =>
    obtain ⟨hv, hb, -, -⟩ := he.bound
    obtain ⟨-, -, _, hsome, hbty, hread⟩ := he.expr.here
    cases hsome
    by_cases hbvar : b.kind = .varRef
    · -- the value is bound and then left as it is
      obtain ⟨x, ty, isTemp, rfl⟩ := exists_varRef hbvar
      cases isTemp with
      | false => cases hread
      | true =>
        obtain rfl := mem_singleton.mp hread
        obtain ⟨rfl, rfl⟩ := body.of_varRef
        cases hm
        refine ⟨(hoist v).1, (hoist v).2, .vector, false, Setup.append_empty, fun x hx => ?_,
          fun values => ?_⟩
        · rw [freeTemps_bind] at hx
          refine value.keeps x ((mem_append.mp hx).resolve_right fun hx => ?_)
          obtain ⟨hx, hne⟩ := mem_filter.mp hx
          exact of_decide_eq_true hne (mem_singleton.mp hx)
        · obtain ⟨new, hnew⟩ := value.erases hv values
          refine ⟨new, hnew.names, hnew.value.trans ?_, hnew.stats⟩
          rw [inlineWith_bind]
          show _ = (lookup _ (_ :: _)).getD _
          rw [lookup_cons_self]
          rfl
    · obtain ⟨before, last, ty, adopts, rfl, hkeeps, herases⟩ := ihb hm hb
        (isHeap_of_typed hbty) hbvar
      refine ⟨(hoist v).1 ++ .define name .vector (hoist v).2 false ++ before, last, ty, adopts,
        (Setup.append_assoc ..).symm, fun x hx => ?_, fun values => ?_⟩
      · rw [freeTemps_bind] at hx
        rw [stats_append, stats_append, reads_append, reads_append, reads_define]
        rcases mem_append.mp hx with hx | hx
        · exact .inl (mem_append_left _ (mem_append.mpr (value.keeps x hx)))
        · grind
      · obtain ⟨new, hnew⟩ := value.erases hv values
        obtain ⟨newBody, hbody⟩ := herases _
        exact ⟨_, erases_bind he value hkeeps hnew hbody⟩

end Erases

end Counting

end WichToC

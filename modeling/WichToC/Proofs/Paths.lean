import WichToC.Proofs.Counted

/-!
# Paths through code

`Runs` gives the paths through C code and what is done on them, as a list of `Act`s.  Operands are
evaluated from left to right.  Reads and calls may yield any value, and a path may be cut off before
any statement, so that the paths of a function comprise all that an execution of it can do, whether
or not it ends; what other functions do is not part of a path.
-/

namespace WichToC

open Counting Node

/-- The statements that store a value in a slot. -/
inductive StoreKind where
  | define
  | assign
  | temp
deriving DecidableEq, Repr

/-- What code does on its way.  Values are told apart only as truth values. -/
inductive Act where
  /-- A block begins; these are its heap slots. -/
  | enter (slots : List String)
  /-- A block is left.  What `kept` holds is handed to the caller. -/
  | leave (slots : List String) (kept : Option String)
  /-- A variable or a temporary is read. -/
  | read (name : String) (ty : Ty) (truth : Bool)
  /-- The operation at a node is done on the values of its children. -/
  | operate (n : Node)
  /-- The left operand of the `&&` or `||` with the given temporary was evaluated. -/
  | left (temp : String) (truth : Bool)
  /-- The last values are used up. -/
  | use (values : Nat)
  /-- The last value is stored; `fromCall` tells whether a call gave it. -/
  | store (kind : StoreKind) (name : String) (ty : Ty) (fromCall truth : Bool)
  | count (kind : CountKind) (slot : String)

/-! ## Expressions -/

/-- Whether the left operand decides the result of an operator. -/
def decides (op : String) (truth : Bool) : Bool := truth == (op == "||")

/-- The truth values that an operation can have. -/
def Node.Gives (n : Node) (operands : List Bool) (truth : Bool) : Prop :=
  match n with
  | unary .not .. => operands = [!truth]
  | literal .bool value _ => truth = (value == "true")
  | _ => True

/-- The evaluation of expressions one after the other, with their values. -/
inductive Evals : List Node → List Act → List Bool → Prop
  | nil : Evals [] [] []
  | read {name : String} {ty : Ty} {isTemp : Bool} {ns : List Node} {acts : List Act} {truth : Bool}
      {truths : List Bool} (rest : Evals ns acts truths) :
      Evals (.varRef name ty isTemp :: ns) (.read name ty truth :: acts) (truth :: truths)
  | operate {n : Node} {ns : List Node} {acts acts' : List Act} {operands truths : List Bool}
      {truth : Bool} (operation : n.isOperation = true) (varRef : n.kind ≠ .varRef)
      (strict : mayShortCircuit n = false) (children : Evals n.children acts operands)
      (gives : n.Gives operands truth) (rest : Evals ns acts' truths) :
      Evals (n :: ns) (acts ++ .operate n :: acts') (truth :: truths)
  | decided {op temp : String} {ty operandTy : Ty} {l r : Node} {ns : List Node}
      {acts acts' : List Act} {truth : Bool} {truths : List Bool}
        (logical : isShortCircuit op = true)
      (left : Evals [l] acts [truth]) (decided : decides op truth = true)
      (rest : Evals ns acts' truths) :
      Evals (.binary .int op ty operandTy temp (some l) (some r) :: ns)
        (acts ++ .left temp truth :: acts') (truth :: truths)
  | undecided {op temp : String} {ty operandTy : Ty} {l r : Node} {ns : List Node}
      {acts acts' acts'' : List Act} {truth truth' : Bool} {truths : List Bool}
      (logical : isShortCircuit op = true) (left : Evals [l] acts [truth])
      (undecided : decides op truth = false) (right : Evals [r] acts' [truth'])
      (rest : Evals ns acts'' truths) :
      Evals (.binary .int op ty operandTy temp (some l) (some r) :: ns)
        (acts ++ .left temp truth :: .use 1 :: (acts' ++ acts'')) (truth' :: truths)

/-! ## Statements -/

/-- How a path ends: after the code, by `break`, by a return, or where it was cut off. -/
inductive Exit where
  | next
  | broke
  | returned (kept : Option String)
  | cut
deriving DecidableEq

/-- The pieces of code that have paths. -/
inductive Code where
  | stats (ns : List Node)
  | stat (n : Node)
  | block (b : CBlock Node)

def CBlock.heapSlots (b : CBlock Node) : List String :=
  heapNames ((b.locals.map Prod.snd).filterMap declared?)

/-- What is done when a block with the given slots is left. -/
def leaving (slots : List String) : Exit → List Act
  | .next | .broke => [.leave slots none]
  | .returned kept => [.leave slots kept]
  | .cut => []

/-- The slot whose value is returned, if it lives on the heap. -/
def keptBy (ty : Ty) : Node → Option String
  | .varRef name _ _ => if ty.isHeap then some name else none
  | _ => none

/-- The paths through code. -/
inductive Runs : Code → List Act → Exit → Prop
  | nil : Runs (.stats []) [] .next
  | cut {n : Node} {ns : List Node} : Runs (.stats (n :: ns)) [] .cut
  | cons {n : Node} {ns : List Node} {acts acts' : List Act} {exit : Exit}
      (first : Runs (.stat n) acts .next) (rest : Runs (.stats ns) acts' exit) :
      Runs (.stats (n :: ns)) (acts ++ acts') exit
  | stop {n : Node} {ns : List Node} {acts : List Act} {exit : Exit}
      (first : Runs (.stat n) acts exit) (ends : exit ≠ .next) : Runs (.stats (n :: ns)) acts exit
  | varDef {name : String} {ty : Ty} {e : Node} {acts : List Act} {truth : Bool}
      (value : Evals [e] acts [truth]) :
      Runs (.stat (.varDef name ty (some e)))
        (acts ++ [.store .define name ty (isCall e) truth]) .next
  | assign {name capture : String} {ty : Ty} {e : Node} {acts : List Act} {truth : Bool}
      (value : Evals [e] acts [truth]) :
      Runs (.stat (.assign name ty capture (some e)))
        (acts ++ [.store .assign name ty (isCall e) truth]) .next
  | tempDef {name : String} {ty : Ty} {refInserted : Bool} {e : Node} {acts : List Act}
      {truth : Bool}
      (value : Evals [e] acts [truth]) :
      Runs (.stat (.tempDef name ty refInserted (some e)))
        (acts ++ [.store .temp name ty (isCall e) truth]) .next
  | elementAssign {name : String} {i e : Node} {acts : List Act} {truth : Bool} {truths : List Bool}
      (values : Evals [i, e] acts truths) :
      Runs (.stat (.elementAssign name (some i) (some e)))
        (.read name .vector truth :: (acts ++ [.use 3])) .next
  | count {kind : CountKind} {slot : String} :
      Runs (.stat (.count kind slot)) [.count kind slot] .next
  | printNothing : Runs (.stat (.printStat none none)) [] .next
  | printStat {ty : Ty} {e : Node} {acts : List Act} {truth : Bool}
      (value : Evals [e] acts [truth]) :
      Runs (.stat (.printStat (some ty) (some e))) (acts ++ [.use 1]) .next
  | callStat {e : Node} {acts : List Act} {truth : Bool} (value : Evals [e] acts [truth]) :
      Runs (.stat (.callStat (some e))) (acts ++ [.use 1]) .next
  | returnStat {ty : Ty} {capture : String} {e : Node} {acts : List Act} {truth : Bool}
      (value : Evals [e] acts [truth]) :
      Runs (.stat (.returnStat ty capture (some e))) acts (.returned (keptBy ty e))
  | breakStat : Runs (.stat .breakStat) [] .broke
  | ifYes {c : Node} {b : CBlock Node} {no : Option Node} {acts acts' : List Act} {exit : Exit}
      (cond : Evals [c] acts [true]) (branch : Runs (.block b) acts' exit) :
      Runs (.stat (.ifStat (some c) (some (.block b)) no)) (acts ++ .use 1 :: acts') exit
  | ifNo {c : Node} {yes : Option Node} {b : CBlock Node} {acts acts' : List Act} {exit : Exit}
      (cond : Evals [c] acts [false]) (branch : Runs (.block b) acts' exit) :
      Runs (.stat (.ifStat (some c) yes (some (.block b)))) (acts ++ .use 1 :: acts') exit
  | ifSkip {c : Node} {yes : Option Node} {acts : List Act} (cond : Evals [c] acts [false]) :
      Runs (.stat (.ifStat (some c) yes none)) (acts ++ [.use 1]) .next
  | whileDone {c : Node} {body : Option Node} {acts : List Act} (cond : Evals [c] acts [false]) :
      Runs (.stat (.whileStat (some c) body)) (acts ++ [.use 1]) .next
  | whileAgain {c : Node} {b : CBlock Node} {acts acts' acts'' : List Act} {exit : Exit}
      (cond : Evals [c] acts [true]) (body : Runs (.block b) acts' .next)
      (rest : Runs (.stat (.whileStat (some c) (some (.block b)))) acts'' exit) :
      Runs (.stat (.whileStat (some c) (some (.block b))))
        (acts ++ .use 1 :: (acts' ++ acts'')) exit
  | whileBroke {c : Node} {b : CBlock Node} {acts acts' : List Act} (cond : Evals [c] acts [true])
      (body : Runs (.block b) acts' .broke) :
      Runs (.stat (.whileStat (some c) (some (.block b)))) (acts ++ .use 1 :: acts') .next
  | whileStop {c : Node} {b : CBlock Node} {acts acts' : List Act} {exit : Exit}
      (cond : Evals [c] acts [true]) (body : Runs (.block b) acts' exit) (ends : exit ≠ .next)
      (leaves : exit ≠ .broke) :
      Runs (.stat (.whileStat (some c) (some (.block b)))) (acts ++ .use 1 :: acts') exit
  | blockStat {b : CBlock Node} {acts : List Act} {exit : Exit}
      (inner : Runs (.block b) acts exit) :
      Runs (.stat (.blockStat (some (.block b)))) acts exit
  | inner {b : CBlock Node} {acts : List Act} {exit : Exit} (inner : Runs (.block b) acts exit) :
      Runs (.stat (.block b)) acts exit
  | block {b : CBlock Node} {acts : List Act} {exit : Exit}
      (stats : Runs (.stats (b.stats ++ b.cleanup)) acts exit) :
      Runs (.block b) (.enter b.heapSlots :: (acts ++ leaving b.heapSlots exit)) exit

/-- The paths of a function.  It begins with its heap parameters; the main function begins with the
global slots. -/
inductive Node.HasPath (globals : List String) : Node → List Act → Prop
  | func {head : FuncHead} {args : List Node} {b : CBlock Node} {acts : List Act} {exit : Exit}
      (body : Runs (.block b) acts exit) :
      HasPath globals (.func head args (some (.block b)))
        (.enter (heapArgs args) :: (acts ++ leaving (heapArgs args) exit))
  | main {b : CBlock Node} {acts : List Act} {exit : Exit} (body : Runs (.block b) acts exit) :
      HasPath globals (.mainFunc (some (.block b)))
        (.enter globals :: (acts ++ leaving globals exit))

namespace Counting

variable {acts : List Act} {exit : Exit} {n : Node} {ns : List Node}

/-! ## Taking paths apart -/

theorem runs_nil (h : Runs (.stats []) acts exit) : acts = [] ∧ exit = .next := by
  cases h
  exact ⟨rfl, rfl⟩

/-- Expressions are evaluated one after the other. -/
theorem evals_cons {truths : List Bool}
    (h : Evals (n :: ns) acts truths) : ∃ acts₁ acts₂ truth truths', acts = acts₁ ++ acts₂ ∧
      truths = truth :: truths' ∧ Evals [n] acts₁ [truth] ∧ Evals ns acts₂ truths' := by
  cases h with
  | @read name ty isTemp _ acts truth _ rest =>
    exact ⟨[.read name ty truth], acts, truth, _, rfl, rfl, .read .nil, rest⟩
  | @operate _ _ acts acts' _ _ truth operation varRef strict children gives rest =>
    exact ⟨acts ++ [.operate n], acts', truth, _, by simp, rfl,
      .operate operation varRef strict children gives .nil, rest⟩
  | @decided op temp _ _ _ _ _ acts acts' truth _ logical left decided rest =>
    exact ⟨acts ++ [.left temp truth], acts', truth, _, by simp, rfl,
      .decided logical left decided .nil, rest⟩
  | @undecided op temp _ _ _ _ _ acts acts' acts'' truth truth' _ logical left undecided right
    rest =>
    refine ⟨acts ++ .left temp truth :: .use 1 :: (acts' ++ []), acts'', truth', _, by simp, rfl,
      .undecided logical left undecided right .nil, rest⟩

/-- A path through two lists of statements goes through the first one and then the second one, or
ends in the first one. -/
theorem runs_append {ns' : List Node} (h : Runs (.stats (ns ++ ns')) acts exit) :
    (∃ acts₁ acts₂, acts = acts₁ ++ acts₂ ∧ Runs (.stats ns) acts₁ .next ∧
      Runs (.stats ns') acts₂ exit) ∨ Runs (.stats ns) acts exit ∧ exit ≠ .next := by
  induction ns generalizing acts with
  | nil => exact .inl ⟨[], acts, rfl, .nil, h⟩
  | cons n ns ih =>
    cases h with
    | cut => exact .inr ⟨.cut, nofun⟩
    | cons first rest =>
      rcases ih rest with ⟨acts₁, acts₂, rfl, hns, hns'⟩ | ⟨hns, hne⟩
      · exact .inl ⟨_, _, (List.append_assoc ..).symm, .cons first hns, hns'⟩
      · exact .inr ⟨.cons first hns, hne⟩
    | stop first ends => exact .inr ⟨.stop first ends, ends⟩

/-- A path through one statement, which may be cut off before it. -/
theorem runs_singleton
    (h : Runs (.stats [n]) acts exit) : Runs (.stat n) acts exit ∨ acts = [] ∧ exit = .cut := by
  cases h with
  | cut => exact .inr ⟨rfl, rfl⟩
  | cons first rest =>
    obtain ⟨rfl, rfl⟩ := runs_nil rest
    exact .inl (by simpa using first)
  | stop first _ => exact .inl first

theorem runs_block {b : CBlock Node} (h : Runs (.block b) acts exit) :
    ∃ acts', acts = .enter b.heapSlots :: (acts' ++ leaving b.heapSlots exit) ∧
      Runs (.stats (b.stats ++ b.cleanup)) acts' exit := by
  cases h with
  | block stats => exact ⟨_, rfl, stats⟩

end Counting

/-! ## Straight code -/

/-- What the evaluation of a variable, of a literal or of a call without arguments does. -/
def Node.atomActs : Node → Option (List Act)
  | varRef name ty _ => some [.read name ty true]
  | literal kind value temp =>
    if kind = .bool then none else some [.operate (literal kind value temp)]
  | call name ty temp [] => some [.operate (call name ty temp [])]
  | _ => none

/-- What a statement over such expressions does. -/
def Node.straightActs : Node → Option (List Act)
  | varDef name ty (some e) => e.atomActs.map (· ++ [.store .define name ty (isCall e) true])
  | assign name ty _ (some e) => e.atomActs.map (· ++ [.store .assign name ty (isCall e) true])
  | tempDef name ty _ (some e) => e.atomActs.map (· ++ [.store .temp name ty (isCall e) true])
  | count kind slot => some [.count kind slot]
  | _ => none

/-- The path through such statements, up to the first other one. -/
def straightRun : List Node → List Act × Exit
  | [] => ([], .next)
  | n :: ns =>
    match n.straightActs with
    | some acts => (acts ++ (straightRun ns).1, (straightRun ns).2)
    | none => ([], .cut)

/-- The path through the straight code at the start of the main function. -/
def Node.straightPath (globals : List String) : Node → Option (List Act)
  | mainFunc (some (block b)) =>
    let (acts, exit) := straightRun (b.stats ++ b.cleanup)
    some (.enter globals :: (.enter b.heapSlots :: (acts ++ leaving b.heapSlots exit)) ++
      leaving globals exit)
  | _ => none

namespace Counting

variable {acts : List Act}

theorem evals_atom {e : Node} (h : e.atomActs = some acts) : Evals [e] acts [true] := by
  unfold atomActs at h
  split at h
  · cases h
    exact .read .nil
  · split at h
    · cases h
    · rename_i kind value temp hbool
      cases h
      refine Evals.operate (n := .literal kind value temp) rfl ?_ rfl .nil ?_ .nil
      · cases kind <;> simp [kind]
      · cases kind <;> trivial
  · rename_i name ty temp
    cases h
    refine Evals.operate (n := .call name ty temp []) rfl ?_ rfl .nil trivial .nil
    simp [kind]
  · cases h

theorem runs_straight (n : Node) (h : n.straightActs = some acts) : Runs (.stat n) acts .next := by
  unfold straightActs at h
  split at h
  · obtain ⟨_, he, rfl⟩ := Option.map_eq_some_iff.mp h
    exact .varDef (evals_atom he)
  · obtain ⟨_, he, rfl⟩ := Option.map_eq_some_iff.mp h
    exact .assign (evals_atom he)
  · obtain ⟨_, he, rfl⟩ := Option.map_eq_some_iff.mp h
    exact .tempDef (evals_atom he)
  · cases h
    exact .count
  · cases h

theorem runs_straightRun {ns : List Node} :
    Runs (.stats ns) (straightRun ns).1 (straightRun ns).2 := by
  induction ns with
  | nil => exact .nil
  | cons n ns ih =>
    rw [straightRun]
    split
    · rename_i acts hn
      exact .cons (runs_straight n hn) ih
    · exact .cut

theorem ofScript_of_toOption {script : Script} {t : Table} {model : Node}
    (h : (ofScript script t).toOption = some model) : ofScript script t = .ok model := by
  cases hscript : ofScript script t with
  | error fault =>
    rw [hscript] at h
    cases h
  | ok built =>
    rw [hscript] at h
    cases h
    rfl

theorem hasPath_straight {globals : List String} {f : Node}
    (h : f.straightPath globals = some acts) : f.HasPath globals acts := by
  unfold straightPath at h
  split at h
  · cases h
    exact .main (.block runs_straightRun)
  · cases h

end Counting

end WichToC

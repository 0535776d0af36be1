import WichToC.Counting.Inject
import WichToC.Proofs.Hoisting

/-!
# Counted code

Injection walks a model, lowers each block when the blocks around it are lowered, and keeps what it
has learnt of their slots.  `Node.counted` gives the same result by recursion over the model: the
code of a statement depends on nothing but the slots that a return in it releases, and these are
handed down from block to block.

A statement without blocks becomes a setup, which fills temporaries, and a few nodes after it;
`Leaf` says which these can be.
-/

namespace WichToC

open List

variable {start : Setup} {outer : List String}

namespace Counting

/-- The statements that release slots. -/
def releases (slots : List String) : List Node := slots.map Node.release

/-- The heap slots of declarations: the variables in order, then the temporaries. -/
def slotsIn (locals : List (String × Node)) : List String :=
  (locals.map Prod.snd).filterMap (declaredSlot? false) ++
    (locals.map Prod.snd).filterMap (declaredSlot? true)

/-- What the statements of a block are lowered to, before the blocks inside are. -/
def lowered (stats : List Node) : Setup := .join (stats.map lowerStat)

/-! ## Code by recursion -/

/-- A block with counts.  `start` runs first; `outer` are the slots around the block, in the order
of their release, and `code` is the code of the statements given all slots that a return
releases. -/
def close (start : Setup) (outer : List String) (code : List String → List Node) (b : CBlock Node) :
    CBlock Node :=
  let locals := start.decls ++ b.locals ++ (lowered b.stats).decls
  let own := (slotsIn locals).reverse
  let stats := start.stats ++ code (own ++ outer)
  { b with
    locals := locals
    stats := stats
    cleanup :=
      if endsInReturn stats then [] else releases (own ++ if b.isFunctionBody then outer else [])
    injected := true }

/-- What the body of a loop starts with: the evaluation of the condition, if it needs a setup. -/
def loopStart (cond : Node) : Setup :=
  if (hoist cond).1.temps.isEmpty then {}
  else (hoist cond).1 ++ .ofStats [loopExit (hoist cond).1 (some (hoist cond).2)]

/-- The condition of a loop, which always holds if the body evaluates the original one. -/
def loopCond (cond : Node) : Node :=
  if (hoist cond).1.temps.isEmpty then (hoist cond).2 else .literal .bool "true" none

mutual

/-- The code of a statement; a return in it releases the slots in `sweep`. -/
def codeOf (sweep : List String) : Node → List Node
  | .ifStat (some cond) yes no =>
    (hoist cond).1.stats ++
      [.ifStat (some (hoist cond).2) (branchOf {} sweep yes) (branchOf {} sweep no)]
  | .whileStat (some cond) body =>
    [.whileStat (some (loopCond cond)) (branchOf (loopStart cond) sweep body)]
  | .blockStat body => [.blockStat (branchOf {} sweep body)]
  | .block ⟨locals, temps, stats, cleanup, scope, isFunctionBody, injected⟩ =>
    [.block (close {} sweep (fun sweep => codesOf sweep stats)
      ⟨locals, temps, stats, cleanup, scope, isFunctionBody, injected⟩)]
  | n => beforeReturns (releases sweep) (lowerStat n).stats

/-- The code of a block inside a statement. -/
def branchOf (start : Setup) (sweep : List String) : Option Node → Option Node
  | some (.block ⟨locals, temps, stats, cleanup, scope, isFunctionBody, injected⟩) =>
    some (.block (close start sweep (fun sweep => codesOf sweep stats)
      ⟨locals, temps, stats, cleanup, scope, isFunctionBody, injected⟩))
  | other => other

/-- The code of statements in order. -/
def codesOf (sweep : List String) : List Node → List Node
  | [] => []
  | n :: ns => codeOf sweep n ++ codesOf sweep ns

end

/-- A block with counts and with counted code inside. -/
def countBlock (start : Setup) (outer : List String) (b : CBlock Node) : CBlock Node :=
  close start outer (fun sweep => codesOf sweep b.stats) b

@[simp] theorem codeOf_block (sweep : List String) (b : CBlock Node) :
    codeOf sweep (.block b) = [.block (countBlock {} sweep b)] := by
  cases b
  rw [codeOf]
  rfl

@[simp] theorem branchOf_block {sweep : List String} {b : CBlock Node} :
    branchOf start sweep (some (.block b)) = some (.block (countBlock start sweep b)) := by
  cases b
  rw [branchOf]
  rfl

@[simp] theorem branchOf_none {sweep : List String} : branchOf start sweep none = none := by
  rw [branchOf]
  nofun

theorem branchOf_map {sweep : List String} {other : Option (CBlock Node)} :
    branchOf start sweep (other.map Node.block) =
      (other.map (countBlock start sweep)).map Node.block := by
  cases other <;> simp

theorem codeOf_ifStat {sweep : List String} {cond : Node} {yes no : Option Node} :
    codeOf sweep (.ifStat (some cond) yes no) = (hoist cond).1.stats ++
      [.ifStat (some (hoist cond).2) (branchOf {} sweep yes) (branchOf {} sweep no)] := by
  rw [codeOf]

theorem codeOf_whileStat (sweep : List String) (cond : Node) (body : Option Node) :
    codeOf sweep (.whileStat (some cond) body) =
      [.whileStat (some (loopCond cond)) (branchOf (loopStart cond) sweep body)] := by
  rw [codeOf]

theorem codeOf_blockStat (sweep : List String) (body : Option Node) :
    codeOf sweep (.blockStat body) = [.blockStat (branchOf {} sweep body)] := by
  rw [codeOf]

theorem codesOf_eq_flatMap {sweep : List String} {ns : List Node} :
    codesOf sweep ns = ns.flatMap (codeOf sweep) := by
  induction ns with
  | nil => rw [codesOf]; rfl
  | cons n ns ih => rw [codesOf, ih, flatMap_cons]

/-- The slots of a block with counts, the last one first. -/
def ownSlots (start : Setup) (b : CBlock Node) : List String :=
  (slotsIn (start.decls ++ b.locals ++ (lowered b.stats).decls)).reverse

theorem stats_countBlock {b : CBlock Node} : (countBlock start outer b).stats =
      start.stats ++ codesOf (ownSlots start b ++ outer) b.stats := rfl

theorem locals_countBlock {b : CBlock Node} :
    (countBlock start outer b).locals = start.decls ++ b.locals ++ (lowered b.stats).decls := rfl

theorem cleanup_countBlock (start : Setup) (outer : List String) (b : CBlock Node) :
    (countBlock start outer b).cleanup =
      if endsInReturn (countBlock start outer b).stats then []
      else releases (ownSlots start b ++ if b.isFunctionBody then outer else []) := rfl

/-- The declarations of a block, before and after counting. -/
theorem decls_countBlock {b : CBlock Node} (h : b.Uncounted) :
    ∀ p ∈ (countBlock start outer b).locals ++ (countBlock start outer b).temps,
      ∃ name ty isTemp, p.2 = .varDecl name ty isTemp := by
  have hdecls : ∀ s : Setup, ∀ p ∈ s.decls, ∃ name ty isTemp, p.2 = .varDecl name ty isTemp := by
    intro s p hp
    obtain ⟨q, -, rfl⟩ := mem_map.mp hp
    exact ⟨_, _, _, rfl⟩
  rw [locals_countBlock]
  obtain ⟨hlocals, htemps⟩ := forall_mem_append.mp h.decls
  exact forall_mem_append.mpr ⟨forall_mem_append.mpr
    ⟨forall_mem_append.mpr ⟨hdecls start, hlocals⟩, hdecls _⟩, htemps⟩

/-- The heap parameters among the arguments of a function. -/
def heapArgs (args : List Node) : List String :=
  args.filterMap fun
    | .argDef name ty => if ty.isHeap then some name else none
    | _ => none

/-- A function with counts: it takes references to its heap parameters first. -/
def countFunc : Node → Node
  | .func head args (some (.block b)) =>
    .func { head with injected := true } args (some (.block
      (countBlock (.ofStats ((heapArgs args).map Node.refer)) (heapArgs args).reverse b)))
  | n => n

/-- The main function with counts; the global variables are slots of its body. -/
def countMain (globals : List String) : Node → Node
  | .mainFunc (some (.block b)) => .mainFunc (some (.block (countBlock {} globals.reverse b)))
  | n => n

end Counting

/-- A file with counts, by recursion. -/
def Node.counted : Node → Node
  | .file globals funcs main =>
    .file globals (funcs.map Counting.countFunc)
      (main.map (Counting.countMain (Counting.slotsIn globals)))
  | n => n

namespace Counting

/-! ## Statements without blocks -/

theorem heapNames_sublist (vars : List (String × Ty)) :
    (heapNames vars).Sublist (vars.map Prod.fst) :=
  filter_sublist.map _

@[simp] theorem heapNames_append {vars vars' : List (String × Ty)} :
    heapNames (vars ++ vars') = heapNames vars ++ heapNames vars' := by
  rw [heapNames, filter_append, map_append]
  rfl

/-- Statements without blocks that give no heap slot a value. -/
inductive Plain : Node → Prop
  | varDef {name : String} {ty : Ty} {e : Node} (heap : ty.isHeap = false) (settled : e.Settled) :
      Plain (.varDef name ty (some e))
  | assign {name capture : String} {ty : Ty} {e : Node} (heap : ty.isHeap = false)
      (settled : e.Settled) : Plain (.assign name ty capture (some e))
  | elementAssign {name : String} {i e : Node} (place : i.Settled) (settled : e.Settled) :
      Plain (.elementAssign name (some i) (some e))
  | printNothing : Plain (.printStat none none)
  | printStat {ty : Ty} {e : Node} (settled : e.Settled) : Plain (.printStat (some ty) (some e))
  | callStat {e : Node} (heap : e.isHeap = false) (operation : e.OverSettled) :
      Plain (.callStat (some e))

/-- What follows the setup of a statement without blocks, before slots are released for a return.
`returns` tells whether the statement may return. -/
inductive Leaf (t : Table) (returns : Bool) : Setup → List Node → Prop
  | nothing {setup : Setup} : Leaf t returns setup []
  | plain {setup : Setup} {n : Node} (plain : Plain n) : Leaf t returns setup [n]
  | define {setup : Setup} {name : String} {ty : Ty} {e : Node} (varName : IsVarName t name)
      (heap : ty.isHeap = true) (operation : e.OverSettled) (owned : isCall e = false) :
      Leaf t returns setup [.varDef name ty (some e), .refer name]
  | assign {setup : Setup} {name capture holder : String} {ty holderTy : Ty}
      (varName : IsVarName t name) (heap : ty.isHeap = true)
      (held : holder ∈ heapNames setup.temps) :
      Leaf t returns setup
        [.release name, .assign name ty capture (some (.temp holder holderTy)), .refer name]
  | returnHeap {setup : Setup} {ty holderTy : Ty} {capture holder : String}
      (allowed : returns = true) (heap : ty.isHeap = true)
      (held : holder ∈ heapNames setup.temps) :
      Leaf t returns setup
        [.refer holder, .returnStat ty capture (some (.temp holder holderTy))]
  | returnPlain {before : Setup} {ty : Ty} {capture : String} {e : Node} (allowed : returns = true)
      (heap : ty.isHeap = false) :
      Leaf t returns (before ++ .define capture ty e false)
        [.returnStat ty capture (some (.temp capture ty))]

end Counting

end WichToC

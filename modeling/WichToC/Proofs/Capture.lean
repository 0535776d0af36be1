import WichToC.Proofs.Paths
import WichToC.Proofs.Sweeps

/-!
# Names in counted code

Injection moves expressions, adds temporaries to blocks and releases slots.  `Node.occurrences`
looks up every name of counted code by the C rules of scoping, and `ScriptCodeFor` compares what is
found with what the name stands for: the code of a statement uses the names of the statement, which
refer to the same things as before, the temporaries that it declares, and slots of the blocks around
it.

The condition of a loop may move into the body of the loop, and so below the variables of the body.
A variable of a block hides no variable around it, but it may hide a function:
`injection_keeps_names` is the main statement, with this one exception.
-/

namespace WichToC

open List Counting Node Setup WichToC.Frame Build Analysis
open Prod (fst snd)

variable {t : Table} {n : Node} {R : Lookup}
variable {c e s : Node} {p : Use × String} {x name : String} {b : CBlock Node} {f slots : Frame}
    {ty : Ty} {xs sweep : List String} {frames : List Frame} {temps shown vars : List (String × Ty)}
    {setup : Setup} {code rest cs ns : List Node} {returns : Bool} {piece : Piece} {script : Script}
    {adopts : Bool}

/-! ## Occurrences of names -/

/-- How a name is used. -/
inductive Use where
  | read
  | call
  /-- A variable or temporary is given a value. -/
  | target
  /-- The count of the value in a slot changes. -/
  | count
deriving DecidableEq, Repr

/-- A name in code, and what it refers to there. -/
structure Occurrence where
  use : Use
  name : String
  referent : Option Referent
deriving DecidableEq, Repr

/-- A use of a name inside frames. -/
def Occurrence.within (frames : List Frame) (p : Use × String) : Occurrence :=
  ⟨p.1, p.2, find? frames p.2⟩

/-- The variables of a block, in order, with their symbols. -/
def CBlock.varEntries (t : Table) (b : CBlock Node) : Frame :=
  (b.vars.map fst).zip (((b.scope.map t.localIds).getD []).map .var)

/-- The names that the locals of a block declare; counted code has slots for bound values there. -/
def CBlock.localFrame (t : Table) (b : CBlock Node) : Frame :=
  b.varEntries t ++ (b.locals.filter fun p => p.2.isTempDecl).map fun p => (p.1, .temp)

namespace Node

/-- The name that a node uses itself. -/
def use? : Node → Option (Use × String)
  | varRef name _ _ => some (.read, name)
  | call name .. => some (.call, name)
  | varDef name .. | assign name .. | elementAssign name .. | tempDef name .. =>
    some (.target, name)
  | count _ slot => some (.count, slot)
  | _ => none

def uses (n : Node) : List (Use × String) := n.collect fun n => n.use?.toList

/-- The frames around the children of a node. -/
def framesIn (t : Table) (frames : List Frame) : Node → List Frame
  | block b => b.localFrame t :: frames
  | _ => frames

/-- The names in a node, looked up from the locals of its blocks outwards. -/
def occurrences (t : Table) (n : Node) : List Frame → List Occurrence :=
  n.fold fun n inside frames =>
    (inside.flatMap Slot.toList).flatMap (fun found => found (n.framesIn t frames)) ++
      n.use?.toList.map (.within frames)

variable {t : Table} {frames : List Frame} {n : Node} {o : Occurrence}

theorem uses_eq : n.uses = n.children.flatMap uses ++ n.use?.toList := n.collect_eq _

theorem mem_uses (hc : c ∈ n.children) (hp : p ∈ c.uses) : p ∈ n.uses := by
  rw [uses_eq]
  grind

theorem occurrences_eq : n.occurrences t frames =
      n.children.flatMap (fun c => c.occurrences t (n.framesIn t frames)) ++
        n.use?.toList.map (.within frames) := by
  have hinside : (n.slots.map (Slot.mapChildren fun c => c.occurrences t)).flatMap Slot.toList =
      n.children.map fun c => c.occurrences t := by
    rw [children, map_flatMap, flatMap_map]
    exact flatMap_congr fun s _ => Slot.toList_mapChildren
  unfold occurrences at hinside ⊢
  rw [fold_eq, hinside, flatMap_map]

theorem mem_occurrences : o ∈ n.occurrences t frames ↔
    (∃ c ∈ n.children, o ∈ c.occurrences t (n.framesIn t frames)) ∨
      ∃ p, n.use? = some p ∧ o = .within frames p := by
  rw [occurrences_eq, mem_append, mem_flatMap, mem_map]
  simp only [Option.mem_toList, eq_comm]

/-- Without blocks all names are looked up in the same frames. -/
theorem occurrences_of_noBlock (h : n.All fun m => m.kind ≠ .block) (frames : List Frame) :
    n.occurrences t frames = n.uses.map (.within frames) := by
  induction h with
  | @intro n here _ ih =>
    have hframes : n.framesIn t frames = frames := by
      cases n <;> first | rfl | exact absurd rfl here
    rw [occurrences_eq, uses_eq, map_append, map_flatMap, hframes]
    exact congrArg (· ++ _) (flatMap_congr ih)

theorem use?_mapChildren (f : Node → Node) (n : Node) : (n.mapChildren f).use? = n.use? := by
  cases n <;> rfl

theorem kind_of_isExprNode (h : n.IsExprNode t) : n.kind ≠ .block := by
  by_cases hop : n.isOperation = true
  · exact (kinds_of_isOperation hop).1
  · obtain ⟨name, v, b, rfl, -, -⟩ := exists_bind h hop
    nofun

end Node

/-! ## What names in counted code stand for -/

/-- A name in code refers to what it stands for.  It is a temporary, or it is one of the names that
occur in the statement that the code belongs to, or the count of a slot changes: one of the slots
around the code, or the target of the statement. -/
inductive Occurrence.Stands (t : Table) (slots : Frame) (origin : List Occurrence) :
    Occurrence → Prop
  | temp {use : Use} {name : String} (isTemp : IsTemp t name) :
      Stands t slots origin ⟨use, name, some .temp⟩
  | same {o : Occurrence} (mem : o ∈ origin) : Stands t slots origin o
  | slot {p : String × Referent} (mem : p ∈ slots) : Stands t slots origin ⟨.count, p.1, some p.2⟩
  | target {name : String} {referent : Option Referent} (mem : ⟨.target, name, referent⟩ ∈ origin) :
      Stands t slots origin ⟨.count, name, referent⟩

/-- All names in code refer to what they stand for. -/
def Node.NamesStand (t : Table) (frames : List Frame) (slots : Frame) (origin : List Occurrence)
    (code : List Node) : Prop :=
  ∀ n ∈ code, ∀ o ∈ n.occurrences t frames, o.Stands t slots origin

/-- The code of a statement or a block.  In the model the statement stands inside the first frames,
in counted code inside the second ones, and `slots` are the variables and temporaries of the
function around the code.  The code of a block begins with `start`. -/
inductive CodeFor (t : Table) :
    List Frame → List Frame → Frame → List Node → Node → List Node → Prop
  | leaf {frames frames' : List Frame} {slots : Frame} {s : Node} {code : List Node}
      (simple : isSimple s = true)
      (names : NamesStand t frames' slots (s.occurrences t frames) code) :
      CodeFor t frames frames' slots [] s code
  | ifThen {frames frames' : List Frame} {slots : Frame} {c c' : Node} {yes yes' : CBlock Node}
      {before : List Node}
      (test : NamesStand t frames' slots (c.occurrences t frames) (before ++ [c']))
      (yesBlock : CodeFor t frames frames' slots [] (.block yes) [.block yes']) :
      CodeFor t frames frames' slots [] (.ifStat (some c) (some (.block yes)) none)
        (before ++ [.ifStat (some c') (some (.block yes')) none])
  | ifElse {frames frames' : List Frame} {slots : Frame} {c c' : Node}
      {yes yes' no no' : CBlock Node}
      {before : List Node}
      (test : NamesStand t frames' slots (c.occurrences t frames) (before ++ [c']))
      (yesBlock : CodeFor t frames frames' slots [] (.block yes) [.block yes'])
      (noBlock : CodeFor t frames frames' slots [] (.block no) [.block no']) :
      CodeFor t frames frames' slots [] (.ifStat (some c) (some (.block yes)) (some (.block no)))
        (before ++ [.ifStat (some c') (some (.block yes')) (some (.block no'))])
  /-- What moves into the body still refers to what it stands for, calls of a function apart whose
  name is that of a variable of the body. -/
  | whileStat {frames frames' : List Frame} {slots : Frame} {c c' : Node} {b b' : CBlock Node}
      {start : List Node} (test : NamesStand t frames' slots (c.occurrences t frames) [c'])
      (moved : ∀ n ∈ start, ∀ o ∈ n.occurrences t (b'.localFrame t :: frames'),
        o.Stands t (b'.localFrame t ++ slots) (c.occurrences t frames) ∨
          o.use = .call ∧ o.name ∈ b.vars.map fst)
      (again : CodeFor t frames frames' slots start (.block b) [.block b']) :
      CodeFor t frames frames' slots [] (.whileStat (some c) (some (.block b)))
        [.whileStat (some c') (some (.block b'))]
  | blockStat {frames frames' : List Frame} {slots : Frame} {b b' : CBlock Node}
      (inner : CodeFor t frames frames' slots [] (.block b) [.block b']) :
      CodeFor t frames frames' slots [] (.blockStat (some (.block b)))
        [.blockStat (some (.block b'))]
  | block {frames frames' : List Frame} {slots : Frame} {start : List Node} {b b' : CBlock Node}
      {pairs : List (Node × List Node)} (scope : b'.scope = b.scope) (vars : b'.vars = b.vars)
      (distinct : ((b'.localFrame t ++ slots).map fst).Nodup)
      (stats : b.stats = pairs.map fst) (code : b'.stats = start ++ pairs.flatMap snd)
      (inside : ∀ p ∈ pairs, CodeFor t (b.frame t :: frames) (b'.localFrame t :: frames')
        (b'.localFrame t ++ slots) [] p.1 p.2)
      (cleanup : NamesStand t (b'.localFrame t :: frames') (b'.localFrame t ++ slots) []
        b'.cleanup) :
      CodeFor t frames frames' slots start (.block b) [.block b']

/-- The code of a function, which takes references to parameters first. -/
inductive FunctionCodeFor (t : Table) (file : Frame) (f : Function) : Node → Node → Prop
  | intro {id : SymbolId} {sig : Signature} {head head' : FuncHead} {args start : List Node}
      {b b' : CBlock Node} (symbol : f.symbol = some id) (func : t.func? id = some sig)
      (name : head'.name = head.name)
      (params : NamesStand t (b'.localFrame t :: [ofArgs args sig.params, file])
        (ofArgs args sig.params) [] start)
      (body : CodeFor t [ofArgs args sig.params, file] [ofArgs args sig.params, file]
        (ofArgs args sig.params) start (.block b) [.block b']) :
      FunctionCodeFor t file f (.func head args (some (.block b)))
        (.func head' args (some (.block b')))

/-- The variables of the file in order, with their symbols. -/
def Frame.globals (t : Table) (globals : List (String × Node)) : Frame :=
  (globals.map fst).zip ((t.localIds Table.global).map .var)

/-- The counted code of a model that is built for the script; the global variables are slots of the
main function. -/
inductive ScriptCodeFor (t : Table) (script : Script) : Node → Node → Prop
  | intro {globals : List (String × Node)} {pairs : List (Function × Node × Node)}
      {b b' : CBlock Node} (functions : script.functions = pairs.map fst)
      (code : ∀ p ∈ pairs, FunctionCodeFor t (ofFile t script globals) p.1 p.2.1 p.2.2)
      (main : CodeFor t [ofFile t script globals] [ofFile t script globals]
        (Frame.globals t globals) [] (.block b) [.block b']) :
      ScriptCodeFor t script
        (.file globals (pairs.map fun p => p.2.1) (some (.mainFunc (some (.block b)))))
        (.file globals (pairs.map fun p => p.2.2) (some (.mainFunc (some (.block b')))))

/-! ## Moved expressions -/

/-- A name in code is a temporary, or one of the given uses, which no block inside the code
hides. -/
inductive Traced (t : Table) (frames : List Frame) (uses : List (Use × String)) : Occurrence → Prop
  | temp {use : Use} {name : String} (isTemp : IsTemp t name) :
      Traced t frames uses ⟨use, name, some .temp⟩
  | used {p : Use × String} (mem : p ∈ uses) (notTemp : ¬ IsTemp t p.2) :
      Traced t frames uses (.within frames p)

/-- All names in code are traced. -/
def TracedIn (t : Table) (frames : List Frame) (uses : List (Use × String))
    (code : List Node) : Prop :=
  ∀ n ∈ code, ∀ o ∈ n.occurrences t frames, Traced t frames uses o

namespace TracedIn

variable {t : Table} {frames : List Frame} {uses uses' : List (Use × String)}
  {code code' : List Node} {n : Node}

theorem mono (h : TracedIn t frames uses code) (hsub : uses ⊆ uses') :
    TracedIn t frames uses' code := by
  intro n hn o ho
  cases h n hn o ho with
  | temp isTemp => exact .temp isTemp
  | used mem notTemp => exact .used (hsub mem) notTemp

theorem inside (h : TracedIn t frames c.uses code) (hc : c ∈ e.children) :
    TracedIn t frames e.uses code :=
  h.mono fun _ hp => mem_uses hc hp

theorem append (h : TracedIn t frames uses code) (h' : TracedIn t frames uses code') :
    TracedIn t frames uses (code ++ code') := fun n hn =>
  (mem_append.mp hn).elim (h n) (h' n)

theorem nil : TracedIn t frames uses [] := nofun

theorem cons (h : TracedIn t frames uses [n]) (h' : TracedIn t frames uses code) :
    TracedIn t frames uses (n :: code) := h.append h'

section

variable (hframes : n.framesIn t frames = frames)

include hframes

/-- A node that is no block, and whose own name is traced. -/
theorem upon (huse : ∀ p, n.use? = some p → Traced t frames uses (.within frames p))
    (h : TracedIn t frames uses n.children) : TracedIn t frames uses [n] := by
  intro m hm o ho
  obtain rfl := mem_singleton.mp hm
  rcases mem_occurrences.mp ho with ⟨c, hc, ho⟩ | ⟨p, hp, rfl⟩
  · exact h c hc o (hframes ▸ ho)
  · exact huse p hp

/-- A node that is no block and uses no name itself. -/
theorem wrap (huse : n.use? = none)
    (h : TracedIn t frames uses n.children) : TracedIn t frames uses [n] :=
  upon hframes (by rw [huse]; nofun) h

/-- A node that uses a temporary. -/
theorem overTemp {use : Use}
    (huse : n.use? = some (use, x)) (hx : IsTemp t x) (hfound : find? frames x = some .temp)
    (h : TracedIn t frames uses n.children) : TracedIn t frames uses [n] := by
  refine upon hframes (fun p hp => ?_) h
  cases huse.symm.trans hp
  rw [Occurrence.within, hfound]
  exact .temp hx

/-- A node that uses one of the given names. -/
theorem overUsed (huse : n.use? = some p) (hp : p ∈ uses) (hnot : ¬ IsTemp t p.2)
    (h : TracedIn t frames uses n.children) : TracedIn t frames uses [n] := by
  refine upon hframes (fun q hq => ?_) h
  cases huse.symm.trans hq
  exact .used hp hnot

end

/-- A block that declares only temporaries hides none of the names. -/
theorem block (hb : ∀ p ∈ b.localFrame t, IsTemp t p.1)
    (hlocals : ∀ p ∈ b.locals, p.2.children = [] ∧ p.2.use? = none) (htemps : b.temps = [])
    (h : TracedIn t (b.localFrame t :: frames) uses (b.stats ++ b.cleanup)) :
    TracedIn t frames uses [.block b] := by
  intro m hm o ho
  obtain rfl := mem_singleton.mp hm
  rcases mem_occurrences.mp ho with ⟨c, hc, ho⟩ | ⟨p, hp, -⟩
  · have hc : c ∈ b.locals.map snd ∨ c ∈ b.stats ++ b.cleanup := by
      simpa [children, htemps] using hc
    rcases hc with hc | hc
    · obtain ⟨p, hp, rfl⟩ := mem_map.mp hc
      obtain ⟨hchildren, huse⟩ := hlocals p hp
      rw [occurrences_eq, hchildren, huse] at ho
      cases ho
    · cases h c hc o ho with
      | temp isTemp => exact .temp isTemp
      | @used p mem notTemp =>
        have hsame : Occurrence.within (b.localFrame t :: frames) p = .within frames p := by
          rw [Occurrence.within, find?_of_none]
          · rfl
          grind
        rw [hsame]
        exact .used mem notTemp
  · cases hp

theorem operation {f : Node → Node} (hop : n.isOperation = true) (hvar : n.kind ≠ .varRef)
    (huse : ∀ p, n.use? = some p → p ∈ uses) (hcalls : ∀ f, (.call, f) ∈ uses → ¬ IsTemp t f)
    (h : TracedIn t frames uses (n.children.map f)) : TracedIn t frames uses [n.mapChildren f] := by
  have hframes : (n.mapChildren f).framesIn t frames = frames := by
    cases n <;> first | rfl | cases hop
  rw [← children_mapChildren] at h
  have hown : n.use? = none ∨ ∃ f, n.use? = some (.call, f) := by
    cases n <;> first | exact .inl rfl | exact .inr ⟨_, rfl⟩ | exact absurd rfl hvar | cases hop
  rcases hown with hown | ⟨name, hown⟩
  · exact wrap hframes ((use?_mapChildren f n).trans hown) h
  · exact overUsed hframes ((use?_mapChildren f n).trans hown) (huse _ hown)
      (hcalls _ (huse _ hown)) h

theorem define {value : Node} (hname : IsTemp t name)
    (hfound : find? frames name = some .temp) (h : TracedIn t frames uses [value]) :
    TracedIn t frames uses (define name ty value adopts).stats := by
  refine cons (overTemp rfl rfl hname hfound h) ?_
  split
  · exact overTemp rfl rfl hname hfound nil
  · exact nil

theorem releases (h : ∀ x ∈ xs, IsTemp t x ∧ find? frames x = some .temp) :
    TracedIn t frames uses (releases xs) := by
  intro n hn
  obtain ⟨x, hx, rfl⟩ := mem_map.mp hn
  exact overTemp rfl rfl (h x hx).1 (h x hx).2 nil _ (.head _)

end TracedIn

/-- A temporary is found below a frame of temporaries. -/
theorem find?_below (hf : ∀ p ∈ f, p.2 = .temp)
    (h : find? frames x = some .temp) : find? (f :: frames) x = some .temp := by
  cases hlookup : lookup x f with
  | none => rw [find?_of_none hlookup, h]
  | some r =>
    rw [find?_of_some hlookup]
    exact congrArg some (hf (x, r) (mem_of_lookup hlookup))

/-- An expression whose names can be traced: its temporaries are declared, and no function that it
calls has the name of a temporary. -/
structure Traceable (t : Table) (frames : List Frame) (e : Node) : Prop where
  expr : e.All (IsExprNode t)
  reserved : ∀ x ∈ e.reserved, IsTemp t x
  free : ∀ x ∈ e.freeTemps, IsTemp t x ∧ find? frames x = some .temp
  calls : ∀ f, (.call, f) ∈ e.uses → ¬ IsTemp t f

namespace Traceable

variable {t : Table} {frames : List Frame} {e c : Node}

/-- The children of an expression, if their temporaries are declared. -/
theorem inside (h : Traceable t frames e) (hc : c ∈ e.children)
    (hfree : ∀ x ∈ c.freeTemps, IsTemp t x ∧ find? frames x = some .temp) :
    Traceable t frames c where
  expr := h.expr.inside c hc
  reserved x hx := h.reserved x (mem_reserved_child hc hx)
  free := hfree
  calls f hf := h.calls f (mem_uses hc hf)

theorem child (h : Traceable t frames e) (hop : e.isOperation = true) (hvar : e.kind ≠ .varRef)
    (hc : c ∈ e.children) : Traceable t frames c := by
  exact h.inside hc fun x hx => h.free x (mem_freeTemps_child hop hvar hc hx)

/-- The value and the body of a binding, whose temporary is declared. -/
theorem ofBind {v b : Node} (h : Traceable t frames (.bind name .vector (some v) (some b)))
    (hfound : find? frames name = some .temp) : Traceable t frames v ∧ Traceable t frames b := by
  have hmem := mem_children_bind name v b
  have hfree := freeTemps_bind name .vector v b
  refine ⟨h.inside hmem.1 fun x hx => h.free x (hfree ▸ mem_append_left _ hx),
    h.inside hmem.2 fun x hx => ?_⟩
  by_cases hx' : x = name
  · exact hx' ▸ ⟨h.reserved name (by simp [reserved_bind]), hfound⟩
  · exact h.free x (hfree ▸ mem_append_right _ (mem_filter.mpr ⟨hx, decide_eq_true hx'⟩))

/-- The frame of a guarded block declares temporaries. -/
theorem push (h : Traceable t frames e) (hf : ∀ p ∈ f, p.2 = .temp) :
    Traceable t (f :: frames) e where
  expr := h.expr
  reserved := h.reserved
  free x hx := (h.free x hx).imp_right (find?_below hf)
  calls := h.calls

end Traceable

section Moved

variable {t : Table} {frames : List Frame} {e m : Node} {s : Setup}

/-- The frame of the block in which a right operand is evaluated. -/
theorem localFrame_temps {stats cleanup : List Node} : CBlock.localFrame t
      { locals := tempDecls temps, stats := stats, cleanup := cleanup, injected := true } =
        tempFrame (tempDecls temps) := by
  have hall := isTempDecl_tempDecls temps
  have hvars : ((tempDecls temps).filter fun p => !p.2.isTempDecl) = [] :=
    filter_eq_nil_iff.mpr fun p hp => by rw [hall p hp]; exact Bool.false_ne_true
  show zip ((filter _ (tempDecls temps)).map fst) _ ++ _ = _
  rw [hvars]
  show map _ (filter _ (tempDecls temps)) = _
  rw [filter_eq_self.mpr fun p hp => hall p hp]
  rfl

theorem find?_tempFrame (hx : x ∈ temps.map fst) :
    find? (tempFrame (tempDecls temps) :: frames) x = some .temp := by
  obtain ⟨q, hq, rfl⟩ := mem_map.mp (keys_tempDecls.mpr hx)
  exact find?_of_some (lookup_tempFrame hq)

/-- The statement that evaluates a right operand in a block of its own. -/
theorem TracedIn.rightOperand {op temp : String} {right : Node}
    {uses : List (Use × String)} (htemp : IsTemp t temp) (hfound : find? frames temp = some .temp)
    (hnames : ∀ p ∈ setup.temps, IsTemp t p.1)
    (hstats : TracedIn t (tempFrame (tempDecls setup.temps) :: frames) uses setup.stats)
    (hright : TracedIn t (tempFrame (tempDecls setup.temps) :: frames) uses [right]) :
    TracedIn t frames uses [rightOperand op temp setup (some right)] := by
  have hkeys : ∀ p ∈ tempFrame (tempDecls setup.temps), IsTemp t p.1 ∧ p.2 = .temp := by
    intro p hp
    obtain ⟨q, hq, rfl⟩ := mem_map.mp hp
    obtain ⟨r, hr, heq⟩ := mem_map.mp (keys_tempDecls.mp (mem_map_of_mem hq))
    exact ⟨heq ▸ hnames r hr, rfl⟩
  have hinner : find? (tempFrame (tempDecls setup.temps) :: frames) temp =
      some .temp := find?_below (fun p hp => (hkeys p hp).2) hfound
  have hguard : TracedIn t frames uses [guard op temp] := by
    unfold Counting.guard
    have hleft : TracedIn t frames uses [.temp temp .boolean] := overTemp rfl rfl htemp hfound nil
    dsimp only
    split
    · exact hleft
    · exact wrap rfl rfl hleft
  have hblock : TracedIn t frames uses [.block
      { locals := tempDecls setup.temps
        stats := setup.stats ++ [.assign temp .boolean "" (some right)]
        cleanup := setup.releases
        injected := true }] := by
    refine block ?_ (fun p hp => ?_) rfl ?_
    · rw [localFrame_temps]
      exact fun p hp => (hkeys p hp).1
    · obtain ⟨name, ty, heq⟩ := tempDecls_isTempDecl setup.temps p hp
      rw [heq]
      exact ⟨rfl, rfl⟩
    · rw [localFrame_temps, releases_eq]
      refine append (append hstats (overTemp rfl rfl htemp hinner hright)) (releases fun x hx => ?_)
      have hx := mem_heapNames (mem_reverse.mp hx)
      obtain ⟨p, hp, rfl⟩ := mem_map.mp hx
      exact ⟨hnames p hp, find?_tempFrame hx⟩
  exact wrap rfl rfl (hguard.append hblock)

/-- The code of operands. -/
theorem TracedIn.operands (ih : ∀ c ∈ n.children, TracedIn t frames c.uses (hoist c).1.stats ∧
      TracedIn t frames c.uses [(hoist c).2]) :
    TracedIn t frames n.uses (join (n.children.map fun c => (hoist c).1)).stats ∧
      TracedIn t frames n.uses (n.children.map fun c => (hoist c).2) := by
  refine ⟨fun m hm => ?_, fun m hm => ?_⟩
  · obtain ⟨s, hs, hm⟩ := mem_flatMap.mp hm
    obtain ⟨c, hc, rfl⟩ := mem_map.mp hs
    exact (ih c hc).1.inside hc m hm
  · obtain ⟨c, hc, rfl⟩ := mem_map.mp hm
    exact (ih c hc).2.inside hc _ (.head _)

theorem temps_join {p : String × Ty} (hc : c ∈ n.children) (hp : p ∈ (hoist c).1.temps) :
    p ∈ (join (n.children.map fun c => (hoist c).1)).temps :=
  mem_flatMap.mpr ⟨_, mem_map_of_mem hc, hp⟩

theorem definedTemps_define {value : Node} :
    (define name ty value adopts).stats.filterMap definedTemp? = [(name, ty)] := by
  unfold define
  dsimp only
  split <;> rfl

/-- The temporaries of a moved expression are those that its statements define. -/
theorem Counting.Moved.definedTemps (h : Moved e s m) :
    s.stats.filterMap definedTemp? = s.temps := by
  induction h with
  | var => rfl
  | @operation n _ _ _ _ ih =>
    show ((n.children.map fun c => (hoist c).1).flatMap stats).filterMap _ =
      (n.children.map fun c => (hoist c).1).flatMap temps
    rw [flatMap_map, flatMap_map, filterMap_flatMap]
    exact flatMap_congr ih
  | fresh _ _ _ _ _ _ _ ih =>
    rw [stats_append, filterMap_append, ih, definedTemps_define]
    rfl
  | inPlace _ _ _ _ ihl => exact ihl
  | guarded _ _ _ _ ihl =>
    rw [stats_append, stats_append, filterMap_append, filterMap_append, ihl,
      definedTemps_define]
    rfl
  | bind _ _ ihv ihb =>
    rw [stats_append, stats_append, filterMap_append, filterMap_append, ihv,
      ihb, definedTemps_define]
    rfl

section

variable (h : Moved e s m)
    (he : Traceable t frames e)
    (htemps : ∀ p ∈ s.temps, find? frames p.1 = some .temp)

include h he htemps

/-- **Moving an expression.**  The code of a moved expression uses temporaries and the names of the
expression. -/
theorem Counting.Moved.traced :
    TracedIn t frames e.uses s.stats ∧ TracedIn t frames e.uses [m] := by
  induction h generalizing frames with
  | @var name ty isTemp =>
    cases isTemp with
    | true =>
      obtain ⟨htemp, hfound⟩ := he.free name (.head _)
      exact ⟨.nil, .overTemp rfl rfl htemp hfound .nil⟩
    | false =>
      refine ⟨.nil, .overUsed (p := (.read, name)) rfl rfl (.head _) ?_ .nil⟩
      exact fun htemp => htemp.ne (he.expr.here rfl) rfl
  | @operation n operation notVar strict children ih =>
    obtain ⟨hstats, hchildren⟩ := TracedIn.operands fun c hc =>
      ih c hc (he.child operation notVar hc) fun p hp => htemps p (temps_join hc hp)
    refine ⟨hstats, .operation operation notVar (fun p hp => ?_) he.calls hchildren⟩
    rw [uses_eq, hp]
    exact mem_append_right _ (.head _)
  | @fresh n name ty operation notVar strict temp type heap operands ih =>
    have hname := he.reserved name (mem_reserved_own (mem_ownNames_of_temp? temp))
    have hfound : find? frames name = some .temp :=
      htemps (name, ty) (mem_append_right _ (.head _))
    obtain ⟨hstats, hvalue⟩ := ih he fun p hp => htemps p (mem_append_left _ hp)
    exact ⟨hstats.append (.define hname hfound hvalue), .overTemp rfl rfl hname hfound .nil⟩
  | @inPlace op temp ty operandTy l r logical left right still ihl ihr =>
    have hmem := mem_children_binary op ty operandTy temp l r
    have hnone : (hoist r).1.temps = [] := by
      rw [← right.definedTemps, still]
      rfl
    obtain ⟨hstats, hl⟩ := ihl (he.child rfl nofun hmem.1) htemps
    have hr := (ihr (he.child rfl nofun hmem.2) (hnone ▸ forall_mem_nil _)).2
    exact ⟨hstats.inside hmem.1, .wrap rfl rfl ((hl.inside hmem.1).append (hr.inside hmem.2))⟩
  | @guarded op temp ty operandTy l r logical left right stirred ihl ihr =>
    have hmem := mem_children_binary op ty operandTy temp l r
    have htemp : IsTemp t temp := he.reserved temp (by simp [reserved_binary])
    have hfound : find? frames temp = some .temp := htemps (temp, .boolean)
      (mem_append_left _ (mem_append_right _ (.head _)))
    obtain ⟨hstats, hl⟩ := ihl (he.child rfl nofun hmem.1) fun p hp => htemps p
      (mem_append_left _ (mem_append_left _ hp))
    have hinner : ∀ p ∈ tempFrame (tempDecls (hoist r).1.temps), p.2 = .temp := by
      intro p hp
      obtain ⟨q, -, rfl⟩ := mem_map.mp hp
      rfl
    obtain ⟨hright, hr⟩ := ihr ((he.child rfl nofun hmem.2).push hinner) fun p hp =>
      find?_tempFrame (mem_map_of_mem hp)
    have hnames : ∀ p ∈ (hoist r).1.temps, IsTemp t p.1 := fun p hp =>
      he.reserved p.1 (mem_reserved_child hmem.2 (right.reserved p hp))
    refine ⟨.append (.append (hstats.inside hmem.1) (.define htemp hfound (hl.inside hmem.1)))
      (.rightOperand htemp hfound hnames (hright.inside hmem.2) (hr.inside hmem.2)), ?_⟩
    exact .overTemp rfl rfl htemp hfound .nil
  | @bind name v b m s value body ihv ihb =>
    have hmem := mem_children_bind name v b
    have htemp : IsTemp t name := he.reserved name (by simp [reserved_bind])
    have hfound : find? frames name = some .temp := htemps (name, .vector)
      (mem_append_left _ (mem_append_right _ (.head _)))
    obtain ⟨hv, hb⟩ := he.ofBind hfound
    obtain ⟨hstats, hv⟩ := ihv hv fun p hp => htemps p (mem_append_left _ (mem_append_left _ hp))
    obtain ⟨hbody, hm⟩ := ihb hb fun p hp => htemps p (mem_append_right _ hp)
    refine ⟨?_, hm.inside hmem.2⟩
    exact .append (.append (hstats.inside hmem.1) (.define htemp hfound (hv.inside hmem.1)))
      (hbody.inside hmem.2)

/-- A temporary that holds a moved expression is declared. -/
theorem Counting.Moved.holder (hm : m = .temp x ty) : IsTemp t x ∧ find? frames x = some .temp := by
  rcases h.source hm with ⟨ty', hmem, -⟩ | hfree
  · exact ⟨he.reserved x (h.reserved _ hmem), htemps _ hmem⟩
  · exact he.free x hfree

end

end Moved

/-! ## Statements without blocks -/

section Leaf

variable {t : Table} {frames : List Frame} {sweep : List String}

/-- The uses of names in the code of a statement without blocks. -/
def leafUses (sweep : List String) (s : Node) : List (Use × String) :=
  s.uses ++ (s.use?.toList.map fun p => (.count, p.2)) ++ sweep.map fun x => (.count, x)

/-- A statement without blocks whose names can be traced in its code. -/
structure LeafTraceable (t : Table) (frames : List Frame) (sweep : List String) (s : Node)
    (code : List Node) : Prop where
  exprs : ∀ c ∈ s.children, Traceable t frames c
  own : ∀ x ∈ s.ownNames, IsTemp t x
  target : ∀ p, s.use? = some p → ¬ IsTemp t p.2
  temps : ∀ n ∈ code, ∀ p, n.definedTemp? = some p → find? frames p.1 = some .temp
  sweep : ∀ x ∈ sweep, IsTemp t x → find? frames x = some .temp

namespace LeafTraceable

variable {s : Node} {code : List Node} {e m : Node} {setup : Setup}

section

variable (h : LeafTraceable t frames sweep s code)

include h

theorem found (hm : Moved e setup m) (hsub : setup.stats ⊆ code) :
    ∀ p ∈ setup.temps, find? frames p.1 = some .temp := by
  intro p hp
  rw [← hm.definedTemps] at hp
  obtain ⟨n, hn, hpn⟩ := mem_filterMap.mp hp
  exact h.temps n (hsub hn) p hpn

/-- The code of an expression inside the statement. -/
theorem movedIn
    (hm : Moved e setup m) (he : Traceable t frames e) (huses : e.uses ⊆ s.uses)
    (hsub : setup.stats ⊆ code) :
    TracedIn t frames (leafUses sweep s) setup.stats ∧
      TracedIn t frames (leafUses sweep s) [m] := by
  have huses : e.uses ⊆ leafUses sweep s := fun p hp =>
    mem_append_left _ (mem_append_left _ (huses hp))
  exact (hm.traced he (h.found hm hsub)).imp (·.mono huses) (·.mono huses)

theorem moved (hm : Moved e setup m) (he : e ∈ s.children) (hsub : setup.stats ⊆ code) :
    TracedIn t frames (leafUses sweep s) setup.stats ∧ TracedIn t frames (leafUses sweep s) [m] :=
  h.movedIn hm (h.exprs e he) (fun _ hp => mem_uses he hp) hsub

/-- The target of the statement. -/
theorem assigns
    (hs : s.use? = some p) (hn : n.use? = some p) (hframes : n.framesIn t frames = frames)
    (hinside : TracedIn t frames (leafUses sweep s) n.children) :
    TracedIn t frames (leafUses sweep s) [n] := by
  refine .overUsed hframes hn ?_ (h.target p hs) hinside
  rw [leafUses, uses_eq, hs]
  simp

/-- The count of the target of the statement. -/
theorem counts (hs : s.use? = some p)
    (kind : CountKind) : TracedIn t frames (leafUses sweep s) [.count kind p.2] := by
  refine .overUsed (p := (.count, p.2)) rfl rfl ?_ (h.target p hs) .nil
  rw [leafUses, hs]
  simp

theorem sweeps : TracedIn t frames (leafUses sweep s) (releases sweep) := by
  intro n hn
  obtain ⟨x, hx, rfl⟩ := mem_map.mp hn
  have hmem : (Use.count, x) ∈ leafUses sweep s := mem_append_right _ (mem_map_of_mem hx)
  by_cases htemp : IsTemp t x
  · exact TracedIn.overTemp rfl rfl htemp (h.sweep x hx htemp) .nil _ (.head _)
  · exact TracedIn.overUsed rfl rfl hmem htemp .nil _ (.head _)

end

end LeafTraceable

/-- The code of a statement without blocks uses temporaries, the names of the statement, and the
slots that are released. -/
theorem Counting.StatForm.traced (hform : StatForm sweep s code)
    (h : LeafTraceable t frames sweep s code) : TracedIn t frames (leafUses sweep s) code := by
  refine hform.of_parts (P := TracedIn t frames (leafUses sweep s))
    (Q := fun m => TracedIn t frames (leafUses sweep s) [m] ∧
      ∀ x ty, m = .temp x ty → IsTemp t x ∧ find? frames x = some .temp)
    .nil .append (fun {e setup m} he hmoved hsub => ?_) (fun {name ty m} hname hm hsub => ?_)
    (fun {n} hsame hcs => ?_) (fun kind x hx => ?_) (fun hheld => ?_) h.sweeps ?_
  · obtain ⟨hstats, hm⟩ := h.moved hmoved he hsub
    exact ⟨hstats, hm, fun x ty => hmoved.holder (h.exprs e he) (h.found hmoved hsub)⟩
  · have hcapture := h.own name hname
    have hfound : find? frames name = some .temp := h.temps _ (hsub (.head _)) (name, ty) rfl
    refine ⟨.define hcapture hfound hm.1, .overTemp rfl rfl hcapture hfound .nil, ?_⟩
    rintro _ _ ⟨⟩
    exact ⟨hcapture, hfound⟩
  · have hinside : TracedIn t frames (leafUses sweep s) n.children := fun c hc =>
      (hcs c hc).1 c (.head _)
    cases hsame with
    | varDef | assign | elementAssign => exact h.assigns rfl rfl rfl hinside
    | printStat | callStat | returnStat => exact .wrap rfl rfl hinside
  · cases s <;> cases hx <;> exact h.counts (p := (.target, x)) rfl kind
  · obtain ⟨htemp, hfound⟩ := hheld.2 _ _ rfl
    exact .overTemp rfl rfl htemp hfound .nil
  · rintro op temp ty operandTy l r - rfl left right rfl
    have hmem := mem_children_binary op ty operandTy temp l r
    have hwhole := h.exprs _ (.head _)
    have hin : ∀ {c : Node} {p : Use × String},
        c ∈ (binary .int op ty operandTy temp (some l) (some r)).children → p ∈ c.uses →
          p ∈ (Node.callStat (some (.binary .int op ty operandTy temp (some l) (some r)))).uses :=
      fun hc hp => mem_uses (.head _) (mem_uses hc hp)
    obtain ⟨hleft, hl⟩ := h.movedIn left (hwhole.child rfl nofun hmem.1) (fun p hp => hin hmem.1 hp)
      fun n hn => mem_append_left _ (mem_append_left _ hn)
    obtain ⟨hright, hr⟩ :=
      h.movedIn right (hwhole.child rfl nofun hmem.2) (fun p hp => hin hmem.2 hp)
      fun n hn => mem_append_left _ (mem_append_right _ hn)
    exact .append (hleft.append hright) (.wrap rfl rfl (.wrap rfl rfl (hl.append hr)))

end Leaf

theorem Counting.Leaf.definedTemp? (h : Leaf t returns setup rest)
    (hn : n ∈ beforeReturns (releases sweep) rest) : n.definedTemp? = none := by
  rcases mem_beforeReturns hn with hn | hn
  · obtain ⟨x, -, rfl⟩ := mem_map.mp hn
    rfl
  cases h with
  | nothing => cases hn
  | plain plain =>
    obtain rfl := mem_singleton.mp hn
    cases plain <;> rfl
  | define | assign | returnHeap | returnPlain =>
    simp only [mem_cons, not_mem_nil, or_false] at hn
    rcases hn with rfl | rfl | rfl <;> rfl

/-! ## Names in the model -/

/-- What a lookup shows of a use in an expression. -/
def Lookup.Shows (R : Lookup) (p : Use × String) : Prop :=
  p.1 = .read ∧ ((∃ id, R.var id p.2) ∨ R.temp p.2) ∨ p.1 = .call ∧ ∃ id, R.func id p.2

theorem Node.forall_uses {P : Use × String → Prop} (hown : ∀ p, n.use? = some p → P p)
    (hinside : ∀ c ∈ n.children, ∀ p ∈ c.uses, P p) : ∀ p ∈ n.uses, P p := by
  intro p hp
  rw [uses_eq, mem_append, mem_flatMap] at hp
  grind

/-- An operation that names nothing itself. -/
theorem Lookup.shows_over (hown : n.use? = none)
    (hcs : n.children = cs) (hinside : ∀ c ∈ cs, ∀ p ∈ c.uses, R.Shows p) :
    ∀ p ∈ n.uses, R.Shows p :=
  forall_uses (fun p hp => by rw [hown] at hp; cases hp) (hcs ▸ hinside)

/-- An operand that is read twice, and what is built from it. -/
theorem ReadTwice.shows {v w : Node} {bound : Option (String × Node)}
    (h : ReadTwice R v w bound) (hv : ∀ p ∈ v.uses, R.Shows p) : (∀ p ∈ w.uses, R.Shows p) ∧
      ∀ n : Node, (∀ p ∈ n.uses, R.Shows p) → ∀ p ∈ (withBound bound n).uses, R.Shows p := by
  cases h with
  | var => exact ⟨hv, fun _ hn => hn⟩
  | bound _ named =>
    refine ⟨forall_uses (fun p hp => by cases hp; exact .inl ⟨rfl, .inr named⟩) nofun,
      fun n hn => Lookup.shows_over rfl rfl ?_⟩
    exact forall_mem_pair.mpr ⟨hv, hn⟩

theorem BuiltFor.shows {sight : Sight} {e : Expr} (h : BuiltFor R sight e n) :
    ∀ p ∈ n.uses, R.Shows p := by
  have one : ∀ {n c : Node}, n.use? = none → n.children = [c] → (∀ p ∈ c.uses, R.Shows p) →
      ∀ p ∈ n.uses, R.Shows p := fun hown hcs hc =>
    Lookup.shows_over hown hcs (forall_mem_singleton.mpr hc)
  have two : ∀ {n c d : Node}, n.use? = none → n.children = [c, d] → (∀ p ∈ c.uses, R.Shows p) →
      (∀ p ∈ d.uses, R.Shows p) → ∀ p ∈ n.uses, R.Shows p := fun hown hcs hc hd =>
    Lookup.shows_over hown hcs (forall_mem_pair.mpr ⟨hc, hd⟩)
  induction h with
  | int | float | bool | text | double => nofun
  | @vector pairs _ _ _ _ _ ih =>
    refine Lookup.shows_over rfl (append_nil _) fun c hc => ?_
    obtain ⟨p, hp, rfl⟩ := mem_map.mp hc
    exact ih p hp
  | name named =>
    exact forall_uses (fun p hp => by cases hp; exact .inl ⟨rfl, .inl ⟨_, named⟩⟩) nofun
  | negate _ ih | not _ ih | len _ _ ih | widened _ _ _ ih => exact one rfl rfl ih
  | index _ _ _ iht ihp => exact two rfl rfl iht ihp
  | call named _ ih =>
    refine forall_uses (fun p hp => by cases hp; exact .inr ⟨rfl, _, named⟩) fun c hc => ?_
    rw [show children _ = _ ++ [] from rfl, append_nil] at hc
    obtain ⟨p, hp, rfl⟩ := mem_map.mp hc
    exact ih p hp
  | binary _ _ _ _ ihl ihr => exact two rfl rfl ihl ihr
  | spreadRight _ _ _ _ _ twice ihv ihs =>
    obtain ⟨hw, hbound⟩ := twice.shows ihv
    exact hbound _ (two rfl rfl hw (two rfl rfl ihs (one rfl rfl hw)))
  | spreadLeft _ _ _ _ _ twice ihv ihs =>
    obtain ⟨hw, hbound⟩ := twice.shows ihv
    exact hbound _ (two rfl rfl (two rfl rfl ihs (one rfl rfl hw)) hw)
  | own _ _ ih | same _ _ _ ih => exact ih

/-- What the frames show of a statement without blocks. -/
structure LeafShown (frames : List Frame) (s : Node) : Prop where
  target : ∀ p, s.use? = some p → p.1 = .target ∧ ∃ id, find? frames p.2 = some (.var id)
  exprs : ∀ c ∈ s.children, ∀ p ∈ c.uses, (toLookup frames).Shows p

theorem PieceBuiltFor.leafShown
    (h : PieceBuiltFor t frames piece s) (hs : isSimple s = true) : LeafShown frames s := by
  cases h with
  | define target _ expr | assign target _ expr =>
    exact ⟨fun p hp => by cases hp; exact ⟨rfl, _, target⟩, forall_mem_singleton.mpr expr.shows⟩
  | assignElement target place expr =>
    exact ⟨fun p hp => by cases hp; exact ⟨rfl, _, target⟩,
      forall_mem_pair.mpr ⟨place.shows, expr.shows⟩⟩
  | call expr | print _ expr | ret _ expr => exact ⟨nofun, forall_mem_singleton.mpr expr.shows⟩
  | printNothing => exact ⟨nofun, nofun⟩
  | ifThen | ifElse | loop | blockStat | block => cases hs

/-! ## Frames of the model and of counted code -/

/-- The frames around a place in the model and in counted code, where `slots` are the variables and
temporaries of the function around the place. -/
structure Aligned (t : Table) (frames frames' : List Frame) (slots : Frame) : Prop where
  same : ∀ {c}, ¬ IsTemp t c → find? frames' c = find? frames c
  named : ∀ {c r}, find? frames c = some r → (r = .temp ↔ IsTemp t c)
  found : ∀ p ∈ slots, find? frames' p.1 = some p.2
  kinds : ∀ p ∈ slots, p.2 = .temp ∧ IsTemp t p.1 ∨ (∃ id, p.2 = .var id) ∧ ¬ IsTemp t p.1
  distinct : (slots.map fst).Nodup

/-- Changes of the counts of slots. -/
theorem Node.NamesStand.counts
    {origin : List Occurrence} (h : ∀ p ∈ slots, find? frames p.1 = some p.2) (kind : CountKind)
    (hxs : xs ⊆ slots.map fst) :
    NamesStand t frames slots origin (xs.map (.count kind)) := by
  intro n hn o ho
  obtain ⟨x, hx, rfl⟩ := mem_map.mp hn
  obtain ⟨p, hp, rfl⟩ := mem_map.mp (hxs hx)
  rcases mem_occurrences.mp ho with ⟨c, hc, -⟩ | ⟨q, hq, rfl⟩
  · cases hc
  · cases hq
    rw [Occurrence.within, h p hp]
    exact .slot hp

namespace Aligned

variable {t : Table} {frames frames' : List Frame} {slots : Frame}

/-- An expression of the model can be traced in counted code. -/
theorem traceable (h : Aligned t frames frames' slots) (he : e.ClosedExpr t)
    (hreserves : ∀ x ∈ e.reserved, IsTemp t x) (hshown : ∀ p ∈ e.uses, (toLookup frames).Shows p)
    (inner : List Frame) : Traceable t inner e where
  expr := he.expr
  reserved := hreserves
  free x hx := by
    rw [he.closed] at hx
    cases hx
  calls f hf := by
    rcases hshown _ hf with ⟨hread, -⟩ | ⟨-, id, hid⟩
    · cases hread
    · exact fun htemp => nomatch (h.named hid).mpr htemp

/-- Code that uses the names of an expression. -/
theorem stands (h : Aligned t frames frames' slots) (he : e.All (IsExprNode t))
    (hcode : TracedIn t frames' e.uses code) :
    NamesStand t frames' slots (e.occurrences t frames) code := by
  intro n hn o ho
  cases hcode n hn o ho with
  | temp isTemp => exact .temp isTemp
  | @used p mem notTemp =>
    refine .same ?_
    rw [occurrences_of_noBlock (he.imp fun _ => kind_of_isExprNode), Occurrence.within,
      h.same notTemp]
    exact mem_map_of_mem mem

section

variable (h : Aligned t frames frames' slots)
    (hleaf : LeafStat t returns s setup rest)
    (hreserves : ReservesTemps t s)
    (hshown : LeafShown frames s)
    (htemps : ∀ p ∈ (lowerStat s).temps, (p.1, Referent.temp) ∈ slots)
    (hsweep : ∀ x ∈ sweep, x ∈ slots.map fst)

include h hleaf hreserves hshown htemps hsweep

theorem leafTraceable :
    LeafTraceable t frames' sweep s (setup.stats ++ beforeReturns (releases sweep) rest) where
  exprs c hc := h.traceable (hleaf.exprs c hc) (hreserves.child hc).isTemp (hshown.exprs c hc) _
  own x hx := hreserves.isTemp x (mem_reserved_own hx)
  target p hp := by
    obtain ⟨-, id, hid⟩ := hshown.target p hp
    exact fun htemp => nomatch (h.named hid).mpr htemp
  temps n hn p hp := by
    rcases mem_append.mp hn with hn | hn
    · have hmem : p ∈ setup.temps := by
        rw [← hleaf.lowers.prepared.definedTemps]
        exact mem_filterMap.mpr ⟨n, hn, hp⟩
      exact h.found _ (htemps p (hleaf.lowers.temps ▸ hmem))
    · rw [hleaf.leaf.definedTemp? hn] at hp
      cases hp
  sweep x hx htemp := by
    obtain ⟨p, hp, rfl⟩ := mem_map.mp (hsweep x hx)
    rcases h.kinds p hp with ⟨heq, -⟩ | ⟨-, hnot⟩
    · rw [h.found p hp, heq]
    · exact absurd htemp hnot

/-- **A statement without blocks.** -/
theorem leaf : CodeFor t frames frames' slots [] s (codeOf sweep s) := by
  refine .leaf hleaf.simple fun n hn o ho => ?_
  rw [hleaf.codeOf_eq] at hn
  have hnoBlock : s.All fun m => m.kind ≠ .block := by
    refine .intro ?_ fun c hc => (hleaf.exprs c hc).expr.imp fun _ => kind_of_isExprNode
    have hsimple := hleaf.simple
    cases s <;> first | (cases hsimple; done) | (intro h; cases h) | skip
    case count kind _ => cases kind <;> nofun
  have horigin := occurrences_of_noBlock (t := t) hnoBlock frames
  rw [horigin]
  cases (hleaf.form sweep).traced
    (h.leafTraceable hleaf hreserves hshown htemps hsweep) n hn o ho with
  | temp isTemp => exact .temp isTemp
  | @used p mem notTemp =>
    have hsame : Occurrence.within frames' p = .within frames p := by
      rw [Occurrence.within, h.same notTemp]
      rfl
    rcases mem_append.mp mem with mem | mem
    · rw [hsame]
      rcases mem_append.mp mem with mem | mem
      · exact .same (mem_map_of_mem mem)
      · obtain ⟨q, hq, rfl⟩ := mem_map.mp mem
        have hq := Option.mem_toList.mp hq
        obtain ⟨htarget, -⟩ := hshown.target q hq
        refine .target (mem_map.mpr ⟨q, ?_, ?_⟩)
        · rw [uses_eq]
          grind
        · rw [Occurrence.within, htarget]
    · obtain ⟨x, hx, rfl⟩ := mem_map.mp mem
      obtain ⟨q, hq, rfl⟩ := mem_map.mp (hsweep x hx)
      rw [Occurrence.within, h.found q hq]
      exact .slot hq

end

end Aligned

/-! ## Blocks -/

section Blocks

variable {t : Table} {returns : Bool} {frames frames' : List Frame} {slots : Frame}
  {vars : List (String × Ty)} {b : CBlock Node} {start : Setup} {outer : List String} {nest : Nest}
  {c : Node}

structure BlockShown (t : Table) (frames : List Frame) (b : CBlock Node) : Prop where
  keys : (b.varEntries t).map fst = b.vars.map fst
  hidesNone : ∀ p ∈ b.frame t, ∀ id, find? frames p.1 ≠ some (.var id)
  temps : ∀ p ∈ b.temps, IsTemp t p.1
  inside : ∀ s ∈ b.stats, ∃ piece, PieceBuiltFor t (b.frame t :: frames) piece s

theorem filter_decls (s : Setup) : (s.decls.filter fun p => p.2.isTempDecl) = s.decls ∧
      (s.decls.filter fun p => !p.2.isTempDecl) = [] := by
  have hall : ∀ p ∈ s.decls, p.2.isTempDecl = true := by
    intro p hp
    obtain ⟨q, -, rfl⟩ := mem_map.mp hp
    rfl
  exact ⟨filter_eq_self.mpr hall, filter_eq_nil_iff.mpr fun p hp => by simp [hall p hp]⟩

theorem filter_declOf (vars : List (String × Ty)) :
    ((vars.map declOf).filter fun p => p.2.isTempDecl) = [] ∧
      ((vars.map declOf).filter fun p => !p.2.isTempDecl) = vars.map declOf := by
  have hall : ∀ p ∈ vars.map declOf, p.2.isTempDecl = false := by
    intro p hp
    obtain ⟨q, -, rfl⟩ := mem_map.mp hp
    rfl
  exact ⟨filter_eq_nil_iff.mpr fun p hp => by simp [hall p hp],
    filter_eq_self.mpr fun p hp => by simp [hall p hp]⟩

theorem vars_countBlock : (countBlock start outer b).vars = b.vars := by
  show filter _ (start.decls ++ b.locals ++ (lowered b.stats).decls) = filter _ b.locals
  rw [filter_append, filter_append, (filter_decls _).2, (filter_decls _).2]
  simp

theorem keys_vars (hlocals : b.locals = vars.map declOf) :
    b.vars.map fst = vars.map fst := by
  rw [CBlock.vars, hlocals, (filter_declOf vars).2, map_map]
  rfl

def countedTemps (start : Setup) (b : CBlock Node) : List (String × Ty) :=
  start.temps ++ (lowered b.stats).temps

theorem localFrame_countBlock (hlocals : b.locals = vars.map declOf) :
    (countBlock start outer b).localFrame t =
      b.varEntries t ++ (countedTemps start b).map fun p => (p.1, .temp) := by
  have hentries : (countBlock start outer b).varEntries t = b.varEntries t := by
    rw [CBlock.varEntries, vars_countBlock]
    rfl
  rw [CBlock.localFrame, hentries, locals_countBlock, filter_append, filter_append,
    (filter_decls _).1, (filter_decls _).1, hlocals, (filter_declOf vars).1, append_nil,
    countedTemps]
  simp [decls, Function.comp_def]

theorem frame_eq_varEntries (hlocals : b.locals = vars.map declOf) :
    b.frame t = b.varEntries t ++ b.temps.map fun p => (p.1, .temp) := by
  show b.varEntries t ++ (filter _ b.locals ++ b.temps).map _ = _
  rw [hlocals, (filter_declOf vars).1, nil_append]

/-- The temporaries that a block with counts declares are new. -/
structure NewTemps (t : Table) (slots : Frame) (temps : List (String × Ty)) : Prop where
  isTemp : ∀ p ∈ temps, IsTemp t p.1
  nodup : (temps.map fst).Nodup
  apart : ∀ p ∈ temps, p.1 ∉ slots.map fst

/-- **Entering a block.** -/
theorem Aligned.enter (h : Aligned t frames frames' slots) (hlocals : b.locals = vars.map declOf)
    (hnodup : (vars.map fst).Nodup) (hvarNames : ∀ p ∈ vars, IsVarName t p.1)
    (hshown : BlockShown t frames b) (hnew : NewTemps t slots (countedTemps start b)) :
    Aligned t (b.frame t :: frames) ((countBlock start outer b).localFrame t :: frames')
      ((countBlock start outer b).localFrame t ++ slots) := by
  have hkeys : (b.varEntries t).map fst = vars.map fst := hshown.keys.trans (keys_vars hlocals)
  have hvarName : ∀ p ∈ b.varEntries t, ¬ IsTemp t p.1 ∧ ∃ id, p.2 = .var id := by
    intro p hp
    obtain ⟨q, hq, heq⟩ := mem_map.mp (hkeys ▸ mem_map_of_mem hp)
    refine ⟨fun htemp => htemp.ne (hvarNames q hq) heq.symm, ?_⟩
    obtain ⟨id, -, hid⟩ := mem_map.mp (of_mem_zip hp).2
    exact ⟨id, hid.symm⟩
  have hframe := frame_eq_varEntries (t := t) hlocals
  rw [localFrame_countBlock hlocals]
  have htemps : ∀ p ∈ (countedTemps start b).map fun p => (p.1, Referent.temp),
      p.2 = .temp ∧ IsTemp t p.1 := by
    intro p hp
    obtain ⟨q, hq, rfl⟩ := mem_map.mp hp
    exact ⟨rfl, hnew.isTemp q hq⟩
  have hdistinct : (((b.varEntries t ++ (countedTemps start b).map fun p => (p.1, Referent.temp)) ++
      slots).map fst).Nodup := by
    rw [map_append, map_append, hkeys, map_map]
    refine nodup_append.mpr ⟨nodup_append.mpr ⟨hnodup, hnew.nodup, ?_⟩, h.distinct, ?_⟩
    · rintro x hx y hy rfl
      obtain ⟨p, hp, rfl⟩ := mem_map.mp hx
      obtain ⟨q, hq, heq⟩ := mem_map.mp hy
      exact (hnew.isTemp q hq).ne (hvarNames p hp) heq
    · rintro x hx y hy rfl
      rcases mem_append.mp hx with hx | hx
      · -- A variable of the block is no variable around it.
        obtain ⟨p, hp, rfl⟩ := mem_map.mp (hkeys ▸ hx)
        obtain ⟨q, hq, heq⟩ := mem_map.mp hy
        rcases h.kinds q hq with ⟨-, htemp⟩ | ⟨⟨id, hid⟩, -⟩
        · exact (hvarName p hp).1 (heq ▸ htemp)
        · refine hshown.hidesNone p (hframe ▸ mem_append_left _ hp) id ?_
          rw [← h.same (hvarName p hp).1, ← heq, h.found q hq, hid]
      · obtain ⟨q, hq, rfl⟩ := mem_map.mp hx
        exact hnew.apart q hq hy
  have hlookup : ∀ {c : String} {temps : Frame}, ¬ IsTemp t c → (∀ p ∈ temps, IsTemp t p.1) →
      lookup c (b.varEntries t ++ temps) = lookup c (b.varEntries t) := by grind
  refine ⟨fun {c} hc => ?_, fun {c r} hfound => ?_, fun p hp => ?_, fun p hp => ?_, hdistinct⟩
  · rw [Frame.find?_cons, Frame.find?_cons, hframe, hlookup hc fun p hp => (htemps p hp).2,
      hlookup hc, h.same hc]
    intro p hp
    obtain ⟨q, hq, rfl⟩ := mem_map.mp hp
    exact hshown.temps q hq
  · cases hown : lookup c (b.frame t) with
    | none =>
      rw [find?_of_none hown] at hfound
      exact h.named hfound
    | some r' =>
      rw [find?_of_some hown] at hfound
      cases hfound
      rw [hframe] at hown
      rcases mem_append.mp (mem_of_lookup hown) with hmem | hmem
      · grind
      · obtain ⟨q, hq, heq⟩ := mem_map.mp hmem
        cases heq
        exact ⟨fun _ => hshown.temps q hq, fun _ => rfl⟩
  · rw [map_append] at hdistinct
    obtain ⟨hown, -, hapart⟩ := nodup_append.mp hdistinct
    rcases mem_append.mp hp with hp | hp
    · exact find?_of_some (lookup_of_nodup hown hp)
    · rw [find?_of_none (lookup_of_not_mem fun hmem => ?_)]
      · exact h.found p hp
      · exact hapart _ hmem _ (mem_map_of_mem hp) rfl
  · rcases mem_append.mp hp with hp | hp
    · rcases mem_append.mp hp with hp | hp
      · grind
      · exact .inl (htemps p hp)
    · exact h.kinds p hp

theorem newTemps (h : Scoped t returns nest shown b)
    (hstarts : Starts t b start) (hstart : ∀ x ∈ start.names, x ∉ slots.map fst)
    (hapart : ∀ x ∈ (block b).reserved, x ∉ slots.map fst) :
    NewTemps t slots (countedTemps start b) := by
  have hlowered := h.lowered_reserved
  refine ⟨fun p hp => ?_, ?_, fun p hp => ?_⟩
  · rcases mem_append.mp hp with hp | hp
    · exact hstarts.isTemp p.1 (mem_used_of_mem_names (mem_map_of_mem hp))
    · exact h.reserves.isTemp p.1 (hlowered (mem_map_of_mem hp))
  · rw [countedTemps, map_append]
    refine nodup_append.mpr ⟨hstarts.nodup, h.names.nodup, ?_⟩
    rintro x hx y hy rfl
    exact hstarts.apart x (mem_used_of_mem_names hx) (hlowered hy)
  · rcases mem_append.mp hp with hp | hp
    · exact hstart p.1 (mem_map_of_mem hp)
    · exact hapart p.1 (hlowered (mem_map_of_mem hp))

/-- The names in the code of a statement refer to what they stand for, wherever the temporaries of
the statement are declared. -/
def StatNamed (t : Table) (s : Node) : Prop :=
  ∀ {frames frames' : List Frame} {slots : Frame} {piece : Piece} {sweep : List String},
    PieceBuiltFor t frames piece s → Aligned t frames frames' slots →
      (∀ x ∈ innerReserved s, x ∉ slots.map fst) →
      (∀ p ∈ (lowerStat s).temps, (p.1, Referent.temp) ∈ slots) →
      (∀ x ∈ sweep, x ∈ slots.map fst) → CodeFor t frames frames' slots [] s (codeOf sweep s)

/-- **A block with counts.** -/
theorem countBlock_named (hscoped : Scoped t returns nest shown b)
    (hlocals : b.locals = vars.map declOf) (hvarNames : ∀ p ∈ vars, IsVarName t p.1)
    (hnamed : ∀ s ∈ b.stats, StatNamed t s) (hshown : BlockShown t frames b)
    (hstarts : Starts t b start) (hapart : ∀ x ∈ (block b).reserved, x ∉ slots.map fst)
    (houter : outer ⊆ slots.map fst)
    (h : Aligned t (b.frame t :: frames) ((countBlock start outer b).localFrame t :: frames')
      ((countBlock start outer b).localFrame t ++ slots)) :
    CodeFor t frames frames' slots start.stats (.block b) [.block (countBlock start outer b)] := by
  have hframe : (countBlock start outer b).localFrame t = _ := localFrame_countBlock hlocals
  have hkeys : ((countBlock start outer b).localFrame t).map fst =
      vars.map fst ++ (start.names ++ (lowered b.stats).names) := by
    rw [hframe, map_append, hshown.keys, keys_vars hlocals, map_map, countedTemps, map_append]
    rfl
  have hown : ∀ x ∈ ownSlots start b ++ outer,
      x ∈ ((countBlock start outer b).localFrame t ++ slots).map fst := by
    intro x hx
    rw [map_append, hkeys, mem_append]
    refine (mem_append.mp hx).imp (fun hx => ?_) (@houter x)
    rw [ownSlots_eq hlocals, mem_reverse] at hx
    refine mem_append.mpr ((mem_append.mp hx).imp mem_heapNames fun hx => ?_)
    exact map_append ▸ mem_heapNames hx
  have hpairs : b.stats =
      (b.stats.map fun s => (s, codeOf (ownSlots start b ++ outer) s)).map fst := by
    rw [map_map]
    exact (map_id _).symm
  refine .block rfl vars_countBlock h.distinct hpairs ?_ ?_ ?_
  · rw [stats_countBlock, codesOf_eq_flatMap, flatMap_map]
  · intro p hp
    obtain ⟨s, hs, rfl⟩ := mem_map.mp hp
    obtain ⟨piece, hpiece⟩ := hshown.inside s hs
    refine hnamed s hs hpiece h (fun x hx hmem => ?_) (fun p hp => ?_) hown
    · have hinner : x ∈ (block b).reserved := by
        rw [hscoped.reserved]
        exact mem_flatMap.mpr ⟨s, hs, mem_reserved_of_inner hx⟩
      rw [map_append, hkeys, mem_append, mem_append, mem_append] at hmem
      rcases hmem with (hmem | hmem | hmem) | hmem
      · obtain ⟨p, hp, rfl⟩ := mem_map.mp hmem
        exact (hscoped.reserves.isTemp _ hinner).ne (hvarNames p hp) rfl
      · exact hstarts.apart x (mem_used_of_mem_names hmem) hinner
      · exact hscoped.names.apart x hmem (mem_flatMap.mpr ⟨s, hs, hx⟩)
      · exact hapart x hinner hmem
    · rw [hframe]
      refine mem_append_left _ (mem_append_right _ (mem_map.mpr ⟨p, ?_, rfl⟩))
      exact mem_append_right _ (mem_flatMap.mpr ⟨_, mem_map_of_mem hs, hp⟩)
  · rw [cleanup_countBlock]
    split
    · exact nofun
    · refine .counts h.found .deref fun x hx => hown x ?_
      grind

/-! ## Loops -/

/-- The code that a loop begins with uses temporaries and the names of the condition. -/
theorem loopStart_traced (hexpr : c.All (IsExprNode t)) (hc : Traceable t frames c)
    (htemps : ∀ p ∈ (loopStart c).temps, find? frames p.1 = some .temp) :
    TracedIn t frames c.uses (loopStart c).stats := by
  unfold loopStart at htemps ⊢
  split at htemps
  · rename_i hnone
    rw [if_pos hnone]
    exact .nil
  · rename_i hsome
    rw [if_neg hsome]
    have htemps : ∀ p ∈ (hoist c).1.temps, find? frames p.1 = some .temp := fun p hp =>
      htemps p (mem_append_left _ hp)
    have hmoved := hoist_moved hexpr
    obtain ⟨hstats, htest⟩ := hmoved.traced hc htemps
    refine hstats.append (.wrap rfl rfl (.append (.wrap rfl rfl htest) (.block nofun nofun rfl ?_)))
    show TracedIn t ([] :: frames) c.uses ((hoist c).1.releases ++ [.breakStat] ++ [])
    rw [append_nil, releases_eq]
    refine .append (.releases fun x hx => ?_) (.wrap rfl rfl .nil)
    obtain ⟨p, hp, rfl⟩ := mem_map.mp (mem_heapNames (mem_reverse.mp hx))
    exact ⟨hc.reserved p.1 (hmoved.reserved p hp), htemps p hp⟩

/-- What moves from the condition into the body of a loop. -/
theorem loopStart_named (h : Aligned t frames frames' slots)
    (hin : Aligned t (b.frame t :: frames) ((countBlock start outer b).localFrame t :: frames')
      ((countBlock start outer b).localFrame t ++ slots))
    (hlocals : b.locals = vars.map declOf) (hblock : BlockShown t frames b)
    (hexpr : c.All (IsExprNode t)) (hshown : ∀ p ∈ c.uses, (toLookup frames).Shows p)
    (hcode : TracedIn t ((countBlock start outer b).localFrame t :: frames') c.uses start.stats) :
    ∀ n ∈ start.stats, ∀ o ∈ n.occurrences t ((countBlock start outer b).localFrame t :: frames'),
      o.Stands t ((countBlock start outer b).localFrame t ++ slots) (c.occurrences t frames) ∨
        o.use = .call ∧ o.name ∈ b.vars.map fst := by
  intro n hn o ho
  cases hcode n hn o ho with
  | temp isTemp => exact .inl (.temp isTemp)
  | @used p mem notTemp =>
    -- A name that is none of the body's stands for the same thing inside the body.
    have hsame : p.2 ∉ b.vars.map fst → Occurrence.within
        ((countBlock start outer b).localFrame t :: frames') p ∈ c.occurrences t frames := by
      intro hnot
      rw [occurrences_of_noBlock (hexpr.imp fun _ => kind_of_isExprNode),
        Occurrence.within, hin.same notTemp, find?_of_none]
      · exact mem_map_of_mem mem
      · refine lookup_of_not_mem fun hmem => ?_
        rw [frame_eq_varEntries hlocals, map_append, hblock.keys, mem_append] at hmem
        rcases hmem with hmem | hmem
        · exact hnot hmem
        · obtain ⟨q, hq, heq⟩ := mem_map.mp hmem
          obtain ⟨temp, htemp, rfl⟩ := mem_map.mp hq
          exact notTemp (heq ▸ hblock.temps temp htemp)
    by_cases hbody : p.2 ∈ b.vars.map fst
    · rcases hshown p mem with ⟨-, ⟨id, hid⟩ | htemp⟩ | ⟨hcall, -⟩
      · rw [← hblock.keys] at hbody
        obtain ⟨q, hq, heq⟩ := mem_map.mp hbody
        refine absurd (heq ▸ hid) (hblock.hidesNone q ?_ id)
        exact frame_eq_varEntries hlocals ▸ mem_append_left _ hq
      · exact absurd ((h.named htemp).mp rfl) notTemp
      · exact .inr ⟨hcall, hbody⟩
    · exact .inl (.same (hsame hbody))

/-! ## Statements -/

theorem PieceBuiltFor.blockShown (h : PieceBuiltFor t frames piece (.block b)) :
    BlockShown t frames b := by
  cases h with
  | @block _ _ inner _ pairs _ ownScope declares _ hidesNone temps _ _ stats inside =>
    refine ⟨?_, hidesNone, fun p hp => (temps p hp).2, fun s hs => ?_⟩
    · rw [CBlock.varEntries, ownScope, map_fst_zip]
      rw [length_map, length_map]
      exact Nat.le_of_eq declares.length_eq
    grind

/-- Entering a block that is built for a block of the script. -/
def BlockNamed (t : Table) (b : CBlock Node) : Prop :=
  ∀ (frames frames' : List Frame) (slots : Frame) (start : Setup) (outer : List String),
    BlockShown t frames b → Aligned t frames frames' slots →
      (∀ x ∈ (block b).reserved, x ∉ slots.map fst) → Starts t b start →
      (∀ x ∈ start.names, x ∉ slots.map fst) → (∀ x ∈ outer, x ∈ slots.map fst) →
      CodeFor t frames frames' slots start.stats (.block b) [.block (countBlock start outer b)] ∧
        Aligned t (b.frame t :: frames) ((countBlock start outer b).localFrame t :: frames')
          ((countBlock start outer b).localFrame t ++ slots)

theorem Counting.Scoped.named (hscoped : Scoped t returns nest shown b)
    (hlocals : b.locals = vars.map declOf) (hnodup : (vars.map fst).Nodup)
    (hvarNames : ∀ p ∈ vars, IsVarName t p.1) (hnamed : ∀ s ∈ b.stats, StatNamed t s) :
    BlockNamed t b := by
  intro frames frames' slots start outer hshown h hapart hstarts hstart houter
  have hnew := newTemps hscoped hstarts hstart hapart
  have hin : Aligned t _ ((countBlock start outer b).localFrame t :: frames') _ :=
    h.enter hlocals hnodup hvarNames hshown hnew
  exact ⟨countBlock_named hscoped hlocals hvarNames hnamed hshown hstarts hapart houter hin, hin⟩

/-- The code of a condition ahead of its statement. -/
theorem Aligned.condition (h : Aligned t frames frames' slots) (hc : c.ClosedExpr t)
    (hreserves : ∀ x ∈ c.reserved, IsTemp t x) (hshown : ∀ p ∈ c.uses, (toLookup frames).Shows p)
    (htemps : ∀ p ∈ (hoist c).1.temps, (p.1, Referent.temp) ∈ slots) :
    NamesStand t frames' slots (c.occurrences t frames) ((hoist c).1.stats ++ [(hoist c).2]) := by
  obtain ⟨hstats, htest⟩ := (hoist_moved hc.expr).traced (h.traceable hc hreserves hshown _)
    fun p hp => h.found _ (htemps p hp)
  exact h.stands hc.expr (hstats.append htest)

theorem whileStat_named (hc : c.ClosedExpr t) (hcond : Hoisted c (hoist c))
    (hreserves : ReservesTemps t (.whileStat (some c) (some (.block b))))
    (hlocals : b.locals = vars.map declOf) (hb : BlockNamed t b) :
    StatNamed t (.whileStat (some c) (some (.block b))) := by
  intro frames frames' slots piece sweep hpiece h hapart _ hsweep
  have henters : Enters t _ (loopStart c) b := .body hcond hreserves
  have hisTemp := (hreserves.child (c := c) (by simp [children])).isTemp
  cases hpiece with
  | @loop _ cond body span _ _ test again =>
    obtain ⟨hcode, hin⟩ := hb _ _ _ _ _ again.blockShown h
      (fun x hx => hapart x (henters.reserved x hx)) henters.starts
      (fun x hx => hapart x (henters.used x (mem_used_of_mem_names hx))) hsweep
    have htraceable := fun inner => h.traceable hc hisTemp test.shows inner
    have hstart := loopStart_traced hc.expr (htraceable _) fun p hp => hin.found (p.1, .temp) (by
      rw [localFrame_countBlock hlocals]
      exact mem_append_left _ (mem_append_right _
        (mem_map.mpr ⟨p, mem_append_left _ hp, rfl⟩)))
    rw [codeOf_whileStat, branchOf_block]
    refine .whileStat ?_
      (loopStart_named h hin hlocals again.blockShown hc.expr test.shows hstart) hcode
    unfold loopCond
    split
    · rename_i hnone
      have htest := h.condition hc hisTemp test.shows
        (by rw [isEmpty_iff.mp hnone]; simp)
      exact fun n hn => htest n (mem_append_right _ hn)
    · intro n hn o ho
      obtain rfl := mem_singleton.mp hn
      rw [occurrences_eq] at ho
      cases ho

/-- **Names in the code of statements.** -/
theorem BuiltStat.named (h : BuiltStat t returns nest s)
    (hreserves : ReservesTemps t s) : StatNamed t s := by
  refine BuiltStat.lowering (S := fun _ s => StatNamed t s) (B := fun _ b => BlockNamed t b ∧
    ∃ vars : List (String × Ty), b.locals = vars.map declOf)
    ?leaf ?ifStat ?whileStat ?blockStat ?inner ?block h hreserves
  case leaf =>
    intro nest s setup rest hleaf _ hreserves frames frames' slots piece sweep hpiece haligned _
      htemps hsweep
    exact haligned.leaf hleaf hreserves (hpiece.leafShown hleaf.simple) htemps hsweep
  case ifStat =>
    intro nest c b other hc _ hreserves hb hother frames frames' slots piece sweep hpiece haligned
      hapart
      htemps hsweep
    have hbranch : ∀ {d : CBlock Node} {piece : Piece}, BlockNamed t d →
        Enters t (.ifStat (some c) (some (.block b)) (other.map Node.block)) {} d →
        PieceBuiltFor t frames piece (.block d) →
          CodeFor t frames frames' slots [] (.block d) [.block (countBlock {} sweep d)] :=
      fun hd henters hpiece => (hd _ _ _ _ _ hpiece.blockShown haligned
        (fun x hx => hapart x (henters.reserved x hx)) henters.starts nofun hsweep).1
    have hisTemp := (hreserves.child (c := c) (by simp [Node.children])).isTemp
    have hahead : ∀ p ∈ (hoist c).1.temps, (p.1, Referent.temp) ∈ slots := fun p hp =>
      htemps p (mem_append_left _ hp)
    rw [codeOf_ifStat, branchOf_block]
    cases other with
    | none =>
      rw [Option.map_none, branchOf_none]
      cases hpiece with
      | ifThen test yesBlock =>
        exact .ifThen (haligned.condition hc hisTemp test.shows hahead)
          (hbranch hb.1 (.yes _) yesBlock)
    | some d =>
      rw [Option.map_some, branchOf_block]
      cases hpiece with
      | ifElse test yesBlock noBlock =>
        exact .ifElse (haligned.condition hc hisTemp test.shows hahead)
          (hbranch hb.1 (.yes _) yesBlock) (hbranch (hother d rfl).1 (.no _ rfl) noBlock)
  case whileStat =>
    intro nest c b hc hcond hreserves hb
    obtain ⟨hb, vars, hlocals⟩ := hb
    exact whileStat_named hc hcond hreserves hlocals hb
  case blockStat =>
    intro nest b hb frames frames' slots piece sweep hpiece haligned hapart _ hsweep
    have henters : Enters t _ {} b := .inner
    rw [codeOf_blockStat, branchOf_block]
    cases hpiece with
    | blockStat inner =>
      exact .blockStat (hb.1 _ _ _ _ _ inner.blockShown haligned
        (fun x hx => hapart x (henters.reserved x hx)) henters.starts nofun hsweep).1
  case inner =>
    intro nest b hb frames frames' slots piece sweep hpiece haligned hapart _ hsweep
    rw [codeOf_block]
    exact (hb.1 _ _ _ _ _ hpiece.blockShown haligned hapart (.empty b) nofun hsweep).1
  case block =>
    exact fun shape hscoped ih =>
      ⟨hscoped.named shape.locals shape.nodup shape.varNames ih, _, shape.locals⟩

end Blocks

/-! ## Functions and files -/

section Files

variable {t : Table} {file : Frame}

/-- A frame of variables and functions of the program. -/
def Frame.NamesProgram (t : Table) (f : Frame) : Prop := ∀ p ∈ f, p.2 ≠ .temp ∧ IsVarName t p.1

/-- Outside all blocks there are no temporaries. -/
theorem aligned_outside (hframes : ∀ f ∈ frames, NamesProgram t f)
    (hfound : ∀ p ∈ slots, find? frames p.1 = some p.2)
    (hvars : ∀ p ∈ slots, (∃ id, p.2 = .var id) ∧ IsVarName t p.1)
    (hdistinct : (slots.map fst).Nodup) : Aligned t frames frames slots where
  same _ := rfl
  named {c r} hc := by
    obtain ⟨f, hf, hlookup⟩ := exists_of_findSome?_eq_some hc
    obtain ⟨hr, hname⟩ := hframes f hf _ (mem_of_lookup hlookup)
    exact ⟨fun heq => absurd heq hr, fun htemp => absurd rfl (htemp.ne hname)⟩
  found := hfound
  kinds p hp := .inr ⟨(hvars p hp).1, fun htemp => htemp.ne (hvars p hp).2 rfl⟩
  distinct := hdistinct

theorem isVarName_of_keys
    (hkeys : slots.map fst = vars.map fst) (hvars : ∀ p ∈ vars, IsVarName t p.1)
    (hx : x ∈ slots.map fst) : IsVarName t x := by grind

theorem FunctionBuiltFor.codeFor {f : Function}
    (h : FunctionBuiltFor t file f n) (hfunc : n.IsBuiltFunc t) (hfile : file.NamesProgram t) :
    FunctionCodeFor t file f n (countFunc n) := by
  obtain ⟨head, params, scope, vars, b, rfl, hfunc⟩ := hfunc
  cases h with
  | @intro id sig _ _ _ symbol func name returnTy hparams built =>
    have hkeys : (ofArgs (argDefs params) sig.params).map fst = params.map fst := by
      have hnames : (argDefs params).filterMap argName? = params.map fst := by
        rw [argDefs, filterMap_map, ← filterMap_eq_map]
        rfl
      have hlength := hparams.length_eq
      rw [argDefs, length_map] at hlength
      rw [ofArgs, hnames, map_fst_zip]
      grind
    have hentry : ∀ p ∈ ofArgs (argDefs params) sig.params,
        (∃ id, p.2 = .var id) ∧ IsVarName t p.1 := by
      intro p hp
      obtain ⟨id, -, hid⟩ := mem_map.mp (of_mem_zip hp).2
      exact ⟨⟨id, hid.symm⟩, isVarName_of_keys hkeys hfunc.varNames (mem_map_of_mem hp)⟩
    have hdistinct : ((ofArgs (argDefs params) sig.params).map fst).Nodup :=
      hkeys ▸ hfunc.nodup
    have haligned : Aligned t [ofArgs (argDefs params) sig.params, file]
        [ofArgs (argDefs params) sig.params, file] (ofArgs (argDefs params) sig.params) := by
      refine aligned_outside ?_ (fun p hp => ?_) hentry hdistinct
      · refine forall_mem_pair.mpr ⟨fun p hp => ?_, hfile⟩
        grind
      · exact find?_of_some (lookup_of_nodup hdistinct hp)
    have hheap : ∀ x ∈ heapArgs (argDefs params),
        x ∈ (ofArgs (argDefs params) sig.params).map fst := fun x hx =>
      hkeys ▸ mem_heapNames (heapArgs_argDefs ▸ hx)
    have hapart : ∀ x ∈ (block b).reserved,
        x ∉ (ofArgs (argDefs params) sig.params).map fst := fun x hx hmem =>
      (hfunc.temps.isTemp x hx).ne (isVarName_of_keys hkeys hfunc.varNames hmem) rfl
    have hscoped := Scoped.ofFunc hfunc
    have hb : BlockNamed t b := hscoped.named hfunc.body.locals hfunc.body.nodup hfunc.body.varNames
      fun s hs => BuiltStat.named (hscoped.stats s hs) (hscoped.child hs)
    obtain ⟨hcode, hin⟩ := hb _ _ _ _ (heapArgs (argDefs params)).reverse built.blockShown haligned
      hapart (starts_refers (heapArgs (argDefs params)) b) (forall_mem_nil _)
      fun x hx => hheap x (mem_reverse.mp hx)
    exact .intro symbol func rfl (.counts (fun p hp => hin.found p (mem_append_right _ hp)) .ref
      hheap) hcode

theorem functions_codeFor {fs : List Function}
    (h : List.Forall₂ (FunctionBuiltFor t file) fs ns) (hfuncs : ∀ n ∈ ns, n.IsBuiltFunc t)
    (hfile : file.NamesProgram t) :
    ∃ pairs : List (Function × Node × Node), fs = pairs.map fst ∧
      ns = pairs.map (fun p => p.2.1) ∧ ns.map countFunc = pairs.map (fun p => p.2.2) ∧
      ∀ p ∈ pairs, FunctionCodeFor t file p.1 p.2.1 p.2.2 := by
  induction h with
  | nil => exact ⟨[], rfl, rfl, rfl, nofun⟩
  | @cons f n _ _ hbuilt _ ih =>
    obtain ⟨hfunc, hfuncs⟩ := forall_mem_cons.mp hfuncs
    obtain ⟨pairs, rfl, rfl, hcounted, hcode⟩ := ih hfuncs
    refine ⟨(f, n, countFunc n) :: pairs, rfl, rfl, congrArg (countFunc n :: ·) hcounted, ?_⟩
    exact forall_mem_cons.mpr ⟨hbuilt.codeFor hfunc hfile, hcode⟩

/-- The code of the main function. -/
theorem main_codeFor (hmain : BuiltMain t vars b) (hfile : file.NamesProgram t) {globals : Frame}
    (hkeys : globals.map fst = vars.map fst) (hvars : ∀ p ∈ globals, ∃ id, p.2 = .var id)
    (hfound : ∀ p ∈ globals, find? [file] p.1 = some p.2)
    (htemps : ∀ p ∈ b.temps, IsTemp t p.1)
    (hinside : ∀ s ∈ b.stats, ∃ piece, PieceBuiltFor t [b.frame t, file] piece s) :
    CodeFor t [file] [file] globals [] (.block b)
      [.block (countBlock {} (heapNames vars).reverse b)] := by
  have hlocals : b.locals = ([] : List (String × Ty)).map declOf := hmain.locals
  have hnames : ∀ x ∈ globals.map fst, IsVarName t x := fun x hx =>
    isVarName_of_keys hkeys hmain.varNames hx
  have haligned : Aligned t [file] [file] globals :=
    aligned_outside (forall_mem_singleton.mpr hfile) hfound
      (fun p hp => ⟨hvars p hp, hnames p.1 (mem_map_of_mem hp)⟩) (hkeys ▸ hmain.nodup)
  have hscoped := Scoped.ofMain hmain
  have hnoVars : b.vars = [] := by
    rw [CBlock.vars, hmain.locals]
    rfl
  have hshown : BlockShown t [file] b := by
    refine ⟨?_, fun p hp id hid => ?_, htemps, hinside⟩
    · rw [CBlock.varEntries, hnoVars]
      rfl
    · rw [frame_eq_varEntries hlocals, CBlock.varEntries, hnoVars] at hp
      obtain ⟨q, hq, rfl⟩ := mem_map.mp hp
      cases (haligned.named hid).mpr (htemps q hq)
  have hb : BlockNamed t b := hscoped.named hlocals .nil (by simp) fun s hs =>
    BuiltStat.named (hmain.stats s hs) (hscoped.child hs)
  refine (hb _ _ _ _ _ hshown haligned (fun x hx hmem => ?_) (.empty b) (forall_mem_nil _)
    fun x hx => ?_).1
  · exact (hmain.temps.isTemp x hx).ne (hnames x hmem) rfl
  · exact hkeys ▸ mem_heapNames (mem_reverse.mp hx)

/-- Variables and functions of the script have names of the program. -/
theorem namesProgram_ofFile (h : ScriptReady t script) (hvars : ∀ p ∈ vars, IsVarName t p.1) :
    (ofFile t script (vars.map declOf)).NamesProgram t := by
  intro p hp
  rcases mem_append.mp hp with hp | hp
  · obtain ⟨hname, hid⟩ := of_mem_zip hp
    obtain ⟨id, -, hid⟩ := mem_map.mp hid
    obtain ⟨q, hq, hqname⟩ := mem_map.mp hname
    obtain ⟨v, hv, rfl⟩ := mem_map.mp hq
    exact ⟨hid ▸ nofun, hqname ▸ hvars v hv⟩
  · obtain ⟨id, -, hid, hname⟩ := mem_funcFrame h hp
    obtain ⟨symbol, hsymbol, hname⟩ := Option.map_eq_some_iff.mp hname
    exact ⟨hid ▸ nofun, .inl (hname ▸ mem_map_of_mem
      (Array.mem_toList_iff.mpr (Array.mem_of_getElem? hsymbol)))⟩

/-- **Names in counted code.** -/
theorem ScriptBuiltFor.codeFor (h : ScriptBuiltFor t script n)
    (hfile : n.IsBuiltFile t) (hready : ScriptReady t script) :
    ScriptCodeFor t script n n.counted := by
  obtain ⟨vars, funcs, b, rfl, hfuncs, hmain⟩ := hfile
  have hprogram := namesProgram_ofFile hready hmain.varNames
  cases h with
  | @intro _ _ _ pairs declares functions noVars temps cleanup statements stats main =>
    have hkeys : (globals t (vars.map declOf)).map fst = vars.map fst := by
      rw [globals, map_fst_zip, map_map]
      · rfl
      · rw [length_map, (length_map _ : (map Referent.var _).length = _)]
        exact Nat.le_of_eq declares.length_eq
    have hvars : ∀ p ∈ globals t (vars.map declOf), ∃ id, p.2 = .var id := by
      intro p hp
      obtain ⟨id, -, hid⟩ := mem_map.mp (of_mem_zip hp).2
      exact ⟨id, hid.symm⟩
    have hfound : ∀ p ∈ globals t (vars.map declOf),
        find? [ofFile t script (vars.map declOf)] p.1 = some p.2 := by
      intro p hp
      refine find?_of_some ?_
      exact lookup_append.trans (by
        rw [← globals, lookup_of_nodup (hkeys ▸ hmain.nodup) hp, Option.some_or])
    have hcode := main_codeFor hmain hprogram hkeys hvars hfound (fun p hp => (temps p hp).2)
      fun s hs => by grind
    obtain ⟨pairs, hfunctions, hbuilt, hcounted, hfuncsCode⟩ :=
      functions_codeFor functions hfuncs hprogram
    rw [counted, Option.map_some, countMain, slotsIn_declOf, hcounted, hbuilt]
    exact .intro hfunctions hfuncsCode hcode

end Files

/-- **Injection keeps names.**  In a script without errors every name of the counted code is found
by the C rules of scoping as what it stands for: the names of a statement as the variables,
parameters and functions that they are in the model, temporaries as temporaries, and counted slots
as variables and temporaries of the blocks around.  But a call in the condition of a loop that moves
into the body finds a variable of the body with the name of the function. -/
theorem injection_keeps_names (source : String) (report : Report)
    (h : (ofSource source report).report.hasErrors = false) :
    ∃ model, Node.ofScript (ofSource source report).script
        (ofSource source report).table = .ok model ∧
      ScriptBuiltFor (ofSource source report).table
        (ofSource source report).script model ∧
      ScriptCodeFor (ofSource source report).table (ofSource source report).script
        model (model.inject (ofSource source report).table) := by
  obtain ⟨base, hacc⟩ := accepted h
  obtain ⟨model, hmodel, hfile, hbuilt, -⟩ := hacc.builtFor
  refine ⟨model, hmodel, hbuilt, ?_⟩
  rw [inject_eq_counted hacc.typed.wellFormed hfile]
  exact hbuilt.codeFor hfile hacc.scriptReady

/-- A script with loop conditions that move below variables of their names. -/
def hidingLoops : String :=
  "func f(s : string) : string \x7b\n" ++
  "  while (s + \"x\" == f(s)) \x7b var u = f(\"y\") s = u + s \x7d\n" ++
  "  return s + \"z\"\n\x7d\nvar s = \"a\"\n" ++
  "while (f(s) == \"b\" && s == f(\"c\")) \x7b var s = [1] \x7b var f = s print(f + s) \x7d \x7d\n"

set_option maxRecDepth 20000 in
/-- The script with hiding variables in loops is accepted, and its counted code keeps the names. -/
theorem injection_keeps_names_hidingLoops : (ofSource hidingLoops {}).report.hasErrors = false ∧
      ∃ model, Node.ofScript (ofSource hidingLoops {}).script
          (ofSource hidingLoops {}).table = .ok model ∧
        ScriptBuiltFor (ofSource hidingLoops {}).table
          (ofSource hidingLoops {}).script model ∧
        ScriptCodeFor (ofSource hidingLoops {}).table
          (ofSource hidingLoops {}).script model
          (model.inject (ofSource hidingLoops {}).table) :=
  have haccepted : (ofSource hidingLoops {}).report.hasErrors = false := by decide +kernel
  ⟨haccepted, injection_keeps_names hidingLoops {} haccepted⟩

/-! ## A call below a variable of its name -/

/-- The names in the main function of a file. -/
def Node.mainOccurrences (t : Table) (script : Script) : Node → List Occurrence
  | .file globals _ (some (.mainFunc (some body))) => body.occurrences t [ofFile t script globals]
  | _ => []

/-- A script with a loop whose body declares a variable with the name of a function that its
condition calls. -/
def capturedCall : String :=
  "func f() : string \x7b return \"x\" \x7d\nwhile (f() == \"y\") \x7b var f = 1 \x7d\n"

set_option maxRecDepth 20000 in
/-- The call refers to the function in the model, and to the variable in its counted code. -/
theorem capturedCall_captured : (ofSource capturedCall {}).report.hasErrors = false ∧
      ∃ model, Node.ofScript (ofSource capturedCall {}).script
          (ofSource capturedCall {}).table = .ok model ∧
        (∃ id, ⟨.call, "f", some (.func id)⟩ ∈ model.mainOccurrences
          (ofSource capturedCall {}).table (ofSource capturedCall {}).script) ∧
        ∃ id, ⟨.call, "f", some (.var id)⟩ ∈
          (model.inject (ofSource capturedCall {}).table).mainOccurrences
            (ofSource capturedCall {}).table (ofSource capturedCall {}).script := by
  refine ⟨by decide +kernel, ?_⟩
  set analysis := ofSource capturedCall {} with hanalysis
  have hrun : ((ofScript analysis.script analysis.table).toOption.map fun model =>
      ((model.mainOccurrences analysis.table analysis.script).filter (·.use = .call),
        ((model.inject analysis.table).mainOccurrences analysis.table analysis.script).filter
          (·.use = .call))) =
      some ([⟨.call, "f", some (.func ⟨5⟩)⟩], [⟨.call, "f", some (.var ⟨6⟩)⟩]) := by
    rw [hanalysis]
    decide +kernel
  obtain ⟨model, hmodel, hrun⟩ := Option.map_eq_some_iff.mp hrun
  obtain ⟨hbuilt, hcounted⟩ := Prod.mk.inj hrun
  have hfunc := hbuilt.symm ▸ mem_singleton_self _
  have hvar := hcounted.symm ▸ mem_singleton_self _
  exact ⟨model, ofScript_of_toOption hmodel, ⟨_, mem_of_mem_filter hfunc⟩, _,
    mem_of_mem_filter hvar⟩

end WichToC

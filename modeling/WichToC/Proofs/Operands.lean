import WichToC.Proofs.Occurrences

/-!
# Operands are built once

A call, a text or a vector literal makes something new each time it is evaluated, so a model that
had one of them twice would do twice what the script asks for once.  The danger is in an operation
between a vector and a number: the vector is read both as an operand and for its length.

`OnceFor` says that a statement of the model evaluates what its statement of the script evaluates,
as often, and that the same holds inside its blocks.  `Node.BindsOnce` is about the bindings that
make it so: a bound name is declared in its block, bound in one place, and read in the body of that
binding only.  The main statement is `operands_built_once`.
-/

namespace WichToC

open List Node Prod Analysis

variable {R : Lookup} {w n : Node} {e : Expr} {t : Table}
variable {ns cs : List Node} {nest : Nest} {file : Frame}

/-! ## Operands -/

/-- What makes something new when it is evaluated. -/
inductive Operand where
  | call (name : String) (args : Nat)
  | text (value : String)
  | vector (elements : Nat)
deriving DecidableEq, Repr

def Annotated.operand? (e : Expr) : Option Operand :=
  match e.kind with
  | .call name args _ => some (.call name args.length)
  | .text value => some (.text value)
  | .vector elements => some (.vector elements.length)
  | _ => none

def Annotated.operands (e : Expr) : List Operand := e.nodes.filterMap Annotated.operand?

/-- The operands in the expressions of a statement, without its blocks. -/
def Located.operands (s : Stmt) : List Operand := s.kind.exprs.flatMap Annotated.operands

namespace Node

variable (n : Node)

def operand? : Node → Option Operand
  | call name _ _ args => some (.call name args.length)
  | literal .string value _ => some (.text value)
  | vectorLit _ elems => some (.vector elems.length)
  | _ => none

def operands : List Operand := n.collect fun m => m.operand?.toList

/-- The blocks of a statement. -/
def blocks : List Node := n.children.filter fun c => c.kind = .block

/-- Bound names are declared in their block, each is bound in one place, and none is read outside
the body of its binding. -/
structure BindsOnce (n : Node) : Prop where
  declared : n.All DeclaresBound
  distinct : n.boundNames.Nodup
  /-- A temporary is read in the body of a binding of its name. -/
  closed : n.freeTemps = []
  notVariable : n.All fun m => ∀ name ty, m = .varRef name ty false → name ∉ n.boundNames

end Node

/-- The statement or block of the model has the operands of its statement or block of the script. -/
inductive OnceFor : Piece → Node → Prop
  | stmt {s : Stmt} {n : Node} {pairs : List (Block × Node)}
      (own : s.operands.Perm (n.exprs.flatMap operands))
      (blocks : s.kind.blocks = pairs.map fst) (nodes : n.blocks = pairs.map snd)
      (inside : ∀ p ∈ pairs, OnceFor (.block p.1) p.2) : OnceFor (.stmt s) n
  | block {b : Block} {c : CBlock Node} {pairs : List (Stmt × Node)}
      (decls : ∀ p ∈ c.locals ++ c.temps, p.2.kind = .varDecl) (cleanup : c.cleanup = [])
      (statements : b.statements = pairs.map fst) (stats : c.stats = pairs.map snd)
      (inside : ∀ p ∈ pairs, OnceFor (.stmt p.1) p.2) : OnceFor (.block b) (.block c)

/-- A function of the model evaluates what the function of the script does. -/
inductive FunctionOnce (f : Function) : Node → Prop
  | intro {head : FuncHead} {args : List Node} {body : Node} (name : head.name = f.name)
      (params : ∀ a ∈ args, a.kind = .argDef) (once : OnceFor (.block f.body) body)
      (binds : body.BindsOnce) : FunctionOnce f (.func head args (some body))

/-- The functions of the model evaluate what those of the script do, and its main function what the
statements outside functions do. -/
inductive ScriptOnce (script : Script) : Node → Prop
  | intro {globals : List (String × Node)} {funcs : List Node} {body : Node}
      (decls : ∀ p ∈ globals, p.2.kind = .varDecl)
      (functions : Forall₂ FunctionOnce script.functions funcs)
      (main : ∀ span, OnceFor (.block ⟨script.statements, span, script.scope⟩) body)
      (binds : body.BindsOnce) : ScriptOnce script
        (.file globals funcs (some (.mainFunc (some body))))

/-! ## Expressions -/

theorem Annotated.operands_eq (e : Expr) :
    e.operands = e.operand?.toList ++ e.kind.operands.flatMap Annotated.operands := by
  rw [operands, nodes_eq, filterMap_cons, filterMap_flatMap]
  cases e.operand? <;> rfl

theorem Node.operands_eq (n : Node) :
    n.operands = n.children.flatMap operands ++ n.operand?.toList :=
  n.collect_eq _

theorem Annotated.operands_binary {left right : Expr} {op : Operator} {span : Span}
    {ty promoteTo : Option Ty} :
    (⟨.binary left op right, span, ty, promoteTo⟩ : Expr).operands
      = left.operands ++ right.operands := by
  rw [operands_eq]
  simp [operand?]

theorem Node.operands_binary {kind : OperandKind} {op temp : String} {ty operandTy : Ty}
    {l r : Node} : (binary kind op ty operandTy temp (some l) (some r)).operands
      = l.operands ++ r.operands := by
  rw [operands_eq]
  simp [children, operand?]

/-- An operand that is read twice is evaluated where it is bound, if anywhere. -/
theorem ReadTwice.operands {v : Node} {bound : Option (String × Node)} (h : ReadTwice R v w bound) :
    w.operands = [] ∧ ∀ n : Node, (withBound bound n).operands = v.operands ++ n.operands := by
  cases h with
  | var => exact ⟨rfl, fun n => rfl⟩
  | bound =>
    refine ⟨rfl, fun n => ?_⟩
    rw [withBound, operands_eq]
    simp [children, operand?]

theorem Node.operands_spread {scalarTy : Ty} {s : Node} {lenTemp temp : String}
    (hw : w.operands = []) : (spread scalarTy s w lenTemp temp).operands = s.operands := by
  rw [spread, operands_eq]
  simp [children, operand?, operands_eq (.length ..), hw]

/-- Over operands that are built once, pair by pair. -/
theorem operands_perm_pairs {pairs : List (Expr × Node)}
    (h : ∀ p ∈ pairs, p.1.operands.Perm p.2.operands) :
    ((pairs.map fst).flatMap Annotated.operands).Perm
      ((pairs.map snd).flatMap operands) := by
  rw [flatMap_map, flatMap_map]
  induction pairs with
  | nil => exact .refl _
  | cons p pairs ih => grind

/-- An operation that is no operand itself. -/
theorem operands_perm_of {es : List Expr}
    (he : e.operand? = none) (hes : e.kind.operands = es) (hn : n.operand? = none)
    (hns : n.children = ns) (h : (es.flatMap Annotated.operands).Perm (ns.flatMap operands)) :
    e.operands.Perm n.operands := by
  rw [Annotated.operands_eq, operands_eq, he, hn, hes, hns]
  simpa using h

/-- **An expression is built once.** -/
theorem BuiltFor.operands_perm {sight : Sight}
    (h : BuiltFor R sight e n) : e.operands.Perm n.operands := by
  -- A vector literal or a call comes before its operands in the script and after them in the model.
  have hlist : ∀ {e : Expr} {n : Node} {pairs : List (Expr × Node)}, e.operand? = n.operand? →
      e.kind.operands = pairs.map fst → n.children = pairs.map snd →
        (∀ p ∈ pairs, p.1.operands.Perm p.2.operands) → e.operands.Perm n.operands := by
    intro e n pairs hown hes hns hpairs
    rw [Annotated.operands_eq, operands_eq, hes, hns, hown]
    exact perm_append_comm.trans ((operands_perm_pairs hpairs).append_right _)
  have hone : ∀ {e e' : Expr} {n n' : Node}, e.operand? = none → e.kind.operands = [e'] →
      n.operand? = none → n.children = [n'] → e'.operands.Perm n'.operands →
        e.operands.Perm n.operands := fun he hes hn hns h =>
    operands_perm_of he hes hn hns (by simpa using h)
  induction h with
  | int | float | bool | text | name | double => exact .refl _
  | @vector pairs _ _ _ _ _ ih | @call pairs _ _ _ _ _ _ _ _ ih =>
    exact hlist (by simp [Annotated.operand?, operand?]) rfl (append_nil _) ih
  | negate _ ih | not _ ih | len _ _ ih => exact hone rfl rfl rfl rfl ih
  | index _ _ _ iht ihi => exact operands_perm_of rfl rfl rfl rfl (iht.append (ihi.append_right _))
  | binary _ _ _ _ ihl ihr =>
    rw [Annotated.operands_binary, operands_binary]
    exact ihl.append ihr
  | spreadRight _ _ _ _ _ twice ihv ihs =>
    obtain ⟨hw, hbound⟩ := twice.operands
    rw [hbound, Annotated.operands_binary, operands_binary, hw, operands_spread hw]
    exact ihv.append ihs
  | spreadLeft _ _ _ _ _ twice ihv ihs =>
    obtain ⟨hw, hbound⟩ := twice.operands
    rw [hbound, Annotated.operands_binary, operands_binary, hw, operands_spread hw]
    grind
  | own _ _ ih | same _ _ _ ih => exact ih
  | @widened e n temp _ _ _ ih =>
    rw [operands_eq]
    simpa [operand?, children] using ih

/-! ## Bindings of built models -/

section Bindings

variable {t : Table} {returns : Bool} {n : Node} {b : CBlock Node}

theorem freeTemps_of_children (hbind : n.kind ≠ .bind)
    (hvar : n.kind ≠ .varRef) (hn : n.children = cs) (hcs : ∀ c ∈ cs, c.freeTemps = []) :
    n.freeTemps = [] := by
  rw [Build.freeTemps_eq hbind hvar, hn]
  exact flatMap_eq_nil_iff.mpr hcs

/-- A built statement binds all temporaries that it reads. -/
theorem BuiltStat.freeTemps (h : BuiltStat t returns nest n) : n.freeTemps = [] := by
  refine BuiltStat.over (P := fun n => n.freeTemps = []) (fun {n} cs hframe hcs hparts => ?_) h
  have hkind : n.kind ≠ .bind ∧ n.kind ≠ .varRef := by
    cases n <;> cases hframe <;> exact ⟨nofun, nofun⟩
  exact freeTemps_of_children hkind.1 hkind.2 hcs fun c hc => (hparts c hc).elim (·.closed) id

/-- A binding reserves the name that it binds. -/
theorem Node.boundNames_sublist (n : Node) : n.boundNames.Sublist n.reserved := by
  induction n using induction with
  | step n ih =>
    rw [boundNames_eq, reserved_eq]
    refine Sublist.append ?_ ?_
    · generalize n.children = cs at ih
      induction cs with
      | nil => exact .slnil
      | cons c cs ihcs => grind
    · cases n <;> first | exact .refl _ | exact nil_sublist _

theorem ReservesTemps.bindsOnce (h : ReservesTemps t n) (hnodes : n.All (IsBuiltNode t))
    (hclosed : n.freeTemps = []) (hdeclared : n.All DeclaresBound) : n.BindsOnce where
  declared := hdeclared
  distinct := h.nodup.sublist n.boundNames_sublist
  closed := hclosed
  notVariable := hnodes.imp fun m hm name ty heq hname => by
    have hvar : IsVarName t name := by
      rw [heq] at hm
      exact hm.elim (fun hvar => hvar rfl) nofun
    exact (h.isTemp name (n.boundNames_sublist.subset hname)).ne hvar rfl

theorem CBlock.Uncounted.bindsOnce (h : b.Uncounted) (htemps : ReservesTemps t (.block b))
    (hstats : ∀ s ∈ b.stats, BuiltStat t returns nest s)
    (hdeclared : (block b).All DeclaresBound) : (block b).BindsOnce :=
  htemps.bindsOnce (h.all_nodes fun s hs => (hstats s hs).all_nodes)
    (freeTemps_of_children nofun nofun rfl (h.forall_children (fun _ _ _ => rfl) fun s hs =>
      (hstats s hs).freeTemps)) hdeclared

end Bindings

/-! ## Statements, functions and the script -/

theorem OnceFor.kind {b : Block} (h : OnceFor (.block b) n) : n.kind = .block := by
  cases h
  rfl

/-- A statement over expressions and blocks that are built once. -/
theorem OnceFor.over {s : Stmt} (es : List (Expr × Node))
    (bs : List (Block × Node)) (hexprs : s.kind.exprs = es.map fst)
    (hblocks : s.kind.blocks = bs.map fst)
    (hn : n.children = es.map snd ++ bs.map snd)
    (hes : ∀ p ∈ es, BuiltFor R .used p.1 p.2) (hbs : ∀ p ∈ bs, OnceFor (.block p.1) p.2) :
    OnceFor (.stmt s) n := by
  have hexpr : ∀ c ∈ es.map snd, c.kind ≠ .block := forall_mem_map.mpr fun p hp =>
    (hes p hp).bindsIn.here.kind
  have hblock : ∀ c ∈ bs.map snd, c.kind = .block := forall_mem_map.mpr fun p hp =>
    (hbs p hp).kind
  refine .stmt ?_ hblocks ?_ hbs
  · have hes' : n.exprs = es.map snd := by
      rw [exprs, hn, filter_append, filter_eq_self.mpr fun c hc =>
        decide_eq_true (hexpr c hc), filter_eq_nil_iff.mpr fun c hc => by simp [hblock c hc],
        append_nil]
    rw [Located.operands, hexprs, hes']
    exact operands_perm_pairs fun p hp => (hes p hp).operands_perm
  · rw [blocks, hn, filter_append, filter_eq_self.mpr fun c hc =>
      decide_eq_true (hblock c hc), filter_eq_nil_iff.mpr fun c hc => by simp [hexpr c hc],
      nil_append]

theorem Node.kind_of_isTempDecl (h : n.isTempDecl = true) : n.kind = .varDecl := by
  cases n <;> first | rfl | cases h

/-- The entries of a block are declarations. -/
theorem CBlock.kind_of_vars {b : CBlock Node} {ids : List SymbolId}
    (hvars : Forall₂ t.DeclaredAs b.vars ids)
    (htemps : ∀ p ∈ b.temps, p.2.isTempDecl = true ∧ IsTemp t p.1) :
    ∀ p ∈ b.locals ++ b.temps, p.2.kind = .varDecl := by
  intro p hp
  rcases mem_append.mp hp with hp | hp
  · by_cases htemp : p.2.isTempDecl = true
    · exact kind_of_isTempDecl htemp
    · have hmem : p ∈ b.vars := mem_filter.mpr ⟨hp, by simpa using htemp⟩
      obtain ⟨id, -, v, ty, -, -, heq⟩ := exists_of_forall₂ (R := flip t.DeclaredAs) hvars.flip hmem
      rw [heq]
      rfl
  · exact kind_of_isTempDecl (htemps p hp).1

/-- **Statements and blocks are built once.** -/
theorem PieceBuiltFor.onceFor {frames : List Frame} {piece : Piece}
    (h : PieceBuiltFor t frames piece n) : OnceFor piece n := by
  induction h with
  | @define _ _ _ value _ _ _ e _ _ expr | @assign _ _ _ _ value _ _ _ e _ _ expr
  | @print _ value _ _ e _ expr | @ret _ value _ _ _ e _ expr =>
    exact .over [(value, e)] [] rfl rfl rfl (forall_mem_singleton.mpr expr) nofun
  | @assignElement _ _ _ i value _ _ m e _ place expr =>
    exact .over [(i, m), (value, e)] [] rfl rfl rfl
      (forall_mem_pair.mpr ⟨place, expr⟩) nofun
  | @ifThen _ cond b _ c yes test _ ih =>
    exact .over [(cond, c)] [(b, yes)] rfl rfl rfl (forall_mem_singleton.mpr test)
      (forall_mem_singleton.mpr ih)
  | @ifElse _ cond b b' _ c yes no test _ _ ihyes ihno =>
    exact .over [(cond, c)] [(b, yes), (b', no)] rfl rfl rfl (forall_mem_singleton.mpr test)
      (forall_mem_pair.mpr ⟨ihyes, ihno⟩)
  | @loop _ cond b _ c body test _ ih =>
    exact .over [(cond, c)] [(b, body)] rfl rfl rfl (forall_mem_singleton.mpr test)
      (forall_mem_singleton.mpr ih)
  | @call _ call _ e expr =>
    exact .over [(call, e)] [] rfl rfl rfl (forall_mem_singleton.mpr expr) nofun
  | printNothing =>
    exact .over (R := Frame.toLookup []) [] [] rfl rfl rfl nofun nofun
  | @blockStat _ b _ n _ ih =>
    exact .over (R := Frame.toLookup []) [] [(b, n)] rfl rfl rfl nofun
      (forall_mem_singleton.mpr ih)
  | block _ _ declares _ _ temps cleanup statements stats _ ih =>
    exact .block (CBlock.kind_of_vars declares temps) cleanup statements stats ih

theorem FunctionBuiltFor.once {f : Function}
    (h : FunctionBuiltFor t file f n) (hshape : n.IsBuiltFunc t)
    (hdeclared : n.All DeclaresBound) : FunctionOnce f n := by
  cases h with
  | intro symbol func name returnTy params built =>
    obtain ⟨head, ps, scope, vars, b, heq, hfunc⟩ := hshape
    cases heq
    have hbody := hdeclared.inside (.block b) (by simp [children])
    refine .intro name (fun a ha => ?_) built.onceFor
      (hfunc.body.uncounted.bindsOnce hfunc.temps hfunc.stats hbody)
    obtain ⟨p, -, rfl⟩ := mem_map.mp ha
    rfl

theorem functions_once {fs : List Function} (h : Forall₂ (FunctionBuiltFor t file) fs ns)
    (hns : ∀ n ∈ ns, n.IsBuiltFunc t ∧ n.All DeclaresBound) : Forall₂ FunctionOnce fs ns := by
  induction h with
  | nil => exact .nil
  | cons hf _ ih =>
    obtain ⟨⟨hshape, hdeclared⟩, hns⟩ := forall_mem_cons.mp hns
    exact .cons (hf.once hshape hdeclared) (ih hns)

/-- **The model of a script evaluates what the script does, once.** -/
theorem ScriptBuiltFor.once {script : Script} {model : Node}
    (h : ScriptBuiltFor t script model) (hshape : model.IsBuiltFile t)
    (hdeclared : model.All DeclaresBound) : ScriptOnce script model := by
  cases h with
  | @intro globals funcs b pairs declares functions noVars temps cleanup statements stats main =>
    obtain ⟨vars, _, _, heq, hfuncs, hmain⟩ := hshape
    cases heq
    have hinside := hdeclared.inside
    simp only [children, slots, Slot.toList, flatMap_cons, flatMap_nil,
      append_nil, mem_append, Option.toList_some, mem_singleton] at hinside
    have hbody := (hinside _ (.inr (.inr rfl))).inside (.block b) (.head _)
    have hnone : Forall₂ t.DeclaredAs b.vars [] := noVars ▸ .nil
    refine .intro (fun p hp => ?_) ?_ (fun span => ?_)
      (hmain.uncounted.bindsOnce hmain.temps hmain.stats hbody)
    · obtain ⟨q, -, rfl⟩ := mem_map.mp hp
      rfl
    · exact functions_once functions fun n hn => ⟨hfuncs n hn, hinside n (.inr (.inl hn))⟩
    · exact .block (CBlock.kind_of_vars hnone temps) cleanup statements stats fun p hp =>
        (main p hp).onceFor

/-- **Operands are built once.**  The model of a script without errors has the functions of the
script in order, and each block of a function, like the main function, has the statements of its
block in order.  In the expressions of a statement the calls, texts and vector literals are those of
the statement of the script, as often.  A bound name is declared in the block that binds it, is
bound in one place of its function, and is read in the body of that binding only. -/
theorem operands_built_once (source : String) (report : Report)
    (h : (ofSource source report).report.hasErrors = false) :
    ∃ model, Node.ofScript (ofSource source report).script
        (ofSource source report).table = .ok model ∧
      ScriptOnce (ofSource source report).script model := by
  obtain ⟨base, hacc⟩ := accepted h
  obtain ⟨model, hmodel, hshape, hbuilt, hdeclared⟩ := hacc.builtFor
  exact ⟨model, hmodel, hbuilt.once hshape hdeclared⟩

/-- A script that spreads numbers over vectors that are spread over themselves. -/
def nestedSpreads : String :=
  "func f(n : int) : [] \x7b\n  print(\"f\")\n  return [n, 2] * (1 + [3, 4] / n) - 1\n\x7d\n" ++
  "var x = [1] + 2\n" ++
  "while (len(f(len(\"ab\")) + 1) < 3) \x7b x = 1 - (f(2) * 2.5 + f(3) + 4) * 5 \x7d\n"

set_option maxRecDepth 20000 in
/-- The script with nested spreads is accepted, and its operands are built once. -/
theorem operands_built_once_nestedSpreads : (ofSource nestedSpreads {}).report.hasErrors = false ∧
      ∃ model, Node.ofScript (ofSource nestedSpreads {}).script
          (ofSource nestedSpreads {}).table = .ok model ∧
        ScriptOnce (ofSource nestedSpreads {}).script model :=
  have haccepted : (ofSource nestedSpreads {}).report.hasErrors = false := by decide +kernel
  ⟨haccepted, operands_built_once nestedSpreads {} haccepted⟩

end WichToC

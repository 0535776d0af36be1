import WichToC.Proofs.Blocks

/-!
# The shape of models

`BuiltFunc` and `BuiltMain` add to the shape of statements what is known of functions: parameters
and variables have different names, and the temporaries that a function reserves are different from
each other and from all variables.  `Accepted.scriptReady` says that the functions and statements of
a script without errors are ready to be built.
-/

namespace WichToC

open List Node Table Variable Script Build
open Prod (fst)

variable {t : Table}
variable {b : CBlock Node} {scope : ScopeId} {item : Item} {f : Function} {s : Stmt} {nest : Nest}

/-- The temporaries that a node reserves are different, and no names of the program. -/
structure ReservesTemps (t : Table) (n : Node) : Prop where
  nodup : n.reserved.Nodup
  isTemp : ∀ x ∈ n.reserved, IsTemp t x

theorem ReservesTemps.child {n c : Node} (h : ReservesTemps t n) (hc : c ∈ n.children) :
    ReservesTemps t c :=
  ⟨nodup_reserved_child h.nodup hc, fun x hx => h.isTemp x (mem_reserved_child hc hx)⟩

/-- The names of the variables with a heap type. -/
def heapNames (vars : List (String × Ty)) : List String :=
  (vars.filter fun p => p.2.isHeap).map fst

/-- A function before counting, with its parameters and the variables of its body. -/
structure BuiltFunc (t : Table) (head : FuncHead) (params : List (String × Ty)) (scope : ScopeId)
    (vars : List (String × Ty)) (b : CBlock Node) : Prop where
  injected : head.injected = false
  kind : t.kind? head.scope = some .function
  nodup : (params.map fst).Nodup
  varNames : ∀ p ∈ params, IsVarName t p.1
  heap : (t.heapParameters head.scope).map name = heapNames params
  body : BuiltBlock t true [(head.scope, params.map fst)] scope vars b
  stats : ∀ s ∈ b.stats,
    BuiltStat t true [(scope, vars.map fst), (head.scope, params.map fst)] s
  temps : ReservesTemps t (.block b)

/-- The main function before counting, with the global variables. -/
structure BuiltMain (t : Table) (vars : List (String × Ty)) (b : CBlock Node) : Prop where
  nodup : (vars.map fst).Nodup
  varNames : ∀ p ∈ vars, IsVarName t p.1
  kind : t.kind? global = some .global
  heap : (t.heapVariables global).map name = heapNames vars
  ownScope : b.scope = some global
  locals : b.locals = []
  bound : ∀ p ∈ b.temps, ∃ name ty, p.2 = .tempDecl name ty
  defs : b.stats.filterMap defined? = vars
  cleanup : b.cleanup = []
  body : b.isFunctionBody = true
  injected : b.injected = false
  stats : ∀ s ∈ b.stats, BuiltStat t false [(global, vars.map fst)] s
  temps : ReservesTemps t (.block b)

theorem BuiltMain.uncounted {vars : List (String × Ty)} (h : BuiltMain t vars b) : b.Uncounted :=
  ⟨h.locals ▸ forall_mem_nil _, h.bound, h.cleanup⟩

def argDefs (params : List (String × Ty)) : List Node :=
  params.map fun p => .argDef p.1 p.2

/-- A function node before counting. -/
def Node.IsBuiltFunc (t : Table) (n : Node) : Prop :=
  ∃ head params scope vars b, n = .func head (argDefs params) (some (.block b)) ∧
    BuiltFunc t head params scope vars b

/-- A file before counting. -/
def Node.IsBuiltFile (t : Table) (n : Node) : Prop :=
  ∃ vars funcs b, n = .file (vars.map declOf) funcs (some (.mainFunc (some (.block b)))) ∧
    (∀ f ∈ funcs, f.IsBuiltFunc t) ∧ BuiltMain t vars b

/-! ## Functions -/

/-- The variables among symbols with their types. -/
def Table.typedVars (t : Table) (ids : List SymbolId) : List (String × Ty) :=
  ids.filterMap fun id => (t.var? id).bind fun v => v.ty.map fun ty => (v.name, ty)

namespace Build

variable {t : Table} {names names' : Names} {ids : List SymbolId} {f : Function} {id : SymbolId}
  {sig : Signature}

theorem args_builds {function : String}
    (h : ∀ id ∈ ids, ∃ v ty, t.var? id = some v ∧ v.ty = some ty) :
    Builds (args t function ids) names fun nodes names' =>
      names = names' ∧ nodes = argDefs (t.typedVars ids) := by
  induction ids with
  | nil => exact .pure ⟨rfl, rfl⟩
  | cons id ids ih =>
    obtain ⟨v, ty, hv, hty⟩ := h id (.head _)
    have hfirst : t.typedVars (id :: ids) = (v.name, ty) :: t.typedVars ids :=
      filterMap_cons_some (by rw [hv, Option.bind_some, hty]; rfl)
    rw [args, mapM_cons, hv]
    dsimp only
    rw [hty]
    refine Builds.bind (P := fun n names' => names = names' ∧ n = .argDef v.name ty)
      (.pure ⟨rfl, rfl⟩) ?_
    rintro _ _ ⟨rfl, rfl⟩
    refine (ih fun i hi => h i (.tail id hi)).bind ?_
    rintro nodes _ ⟨rfl, rfl⟩
    exact .pure ⟨rfl, by rw [hfirst]; rfl⟩

theorem heapNames_typedVars : heapNames (t.typedVars ids) =
      ((ids.filterMap t.var?).filter isHeap).map name := by
  induction ids with
  | nil => rfl
  | cons id ids ih =>
    unfold heapNames typedVars at ih ⊢
    cases hv : t.var? id with
    | none => simpa [filterMap_cons, hv] using ih
    | some v =>
      cases hty : v.ty with
      | none => simpa [filterMap_cons, hv, hty, isHeap] using ih
      | some ty =>
        cases hheap : ty.isHeap <;>
          simpa [filterMap_cons, hv, hty, hheap, isHeap] using ih

theorem heapParameters_eq (h : ∀ v ∈ t.varsOf scope, v.isParameter = true) :
    (t.heapParameters scope).map name = heapNames (t.typedVars (t.symbolsOf scope)) := by
  rw [heapNames_typedVars, heapParameters]
  refine congrArg _ (filter_congr fun v hv => ?_)
  rw [h v hv, Bool.true_and]

theorem heapVariables_eq (h : ∀ v ∈ t.varsOf scope, v.isParameter = false) :
    (t.heapVariables scope).map name = heapNames (t.typedVars (t.symbolsOf scope)) := by
  rw [heapNames_typedVars, heapVariables, locals]
  refine congrArg (fun vs => (filter _ vs).map _) (filter_eq_self.mpr fun v hv => ?_)
  rw [h v hv, Bool.not_false]

theorem typedVars_nodup (h : ids.Pairwise fun a b =>
      (t.symbol? a).map Symbol.name ≠ (t.symbol? b).map Symbol.name) :
    ((t.typedVars ids).map fst).Nodup := by
  refine pairwise_map.mpr (List.Pairwise.filterMap _ (fun a b hne p hp q hq heq => hne ?_) h)
  obtain ⟨v, hv, hvp⟩ := Option.bind_eq_some_iff.mp hp
  obtain ⟨w, hw, hwq⟩ := Option.bind_eq_some_iff.mp hq
  obtain ⟨_, -, rfl⟩ := Option.map_eq_some_iff.mp hvp
  obtain ⟨_, -, rfl⟩ := Option.map_eq_some_iff.mp hwq
  rw [name?_of_var? hv, name?_of_var? hw]
  exact congrArg some heq

/-- A function whose body can be built. -/
structure FuncReady (t : Table) (names : Names) (f : Function) : Prop where
  placed : ∃ id sig, f.PlacedAs t id sig
  resolves : Typing.ItemResolves t (.function f)
  ready : ∀ n ∈ f.body.nodes, n.Ready t true
  nodup : (definedIds f.body.nodes).Nodup
  lookup : ∀ id ∈ definedIds f.body.nodes, names.renamed.lookup id = none

/-- The parameters of a function that is in its place. -/
theorem params_of_placedAs (h : f.PlacedAs t id sig) :
    ∀ i ∈ sig.params, ∃ v ty, t.var? i = some v ∧ v.ty = some ty ∧ v.isParameter = true := by
  intro i hi
  obtain ⟨p, -, v, hv, -, hty, hparam⟩ := exists_of_forall₂ h.typed hi
  exact ⟨v, _, hv, hty, hparam⟩

/-- The names of the parameters are those of the variables of the scope of the function. -/
theorem mem_params (h : f.PlacedAs t id sig)
    {x : String} (hx : x ∈ (t.typedVars sig.params).map fst) :
    ∃ i ∈ t.symbolsOf sig.scope, ∃ v, t.var? i = some v ∧ v.name = x := by
  obtain ⟨p, hp, rfl⟩ := mem_map.mp hx
  obtain ⟨i, hi, hip⟩ := mem_filterMap.mp hp
  obtain ⟨v, hv, hvp⟩ := Option.bind_eq_some_iff.mp hip
  obtain ⟨ty, -, rfl⟩ := Option.map_eq_some_iff.mp hvp
  exact ⟨i, h.own ▸ hi, v, hv, rfl⟩

theorem FuncReady.mono (h : FuncReady t names f)
    (hgrows : names.Grows names' ids) (hids : ∀ id ∈ definedIds f.body.nodes, id ∉ ids) :
    FuncReady t names' f :=
  { h with lookup := fun id hid => (hgrows.stable id (hids id hid)).trans (h.lookup id hid) }

/-- The body of a function can be built in the scope of its parameters. -/
theorem FuncReady.body (h : FuncReady t names f)
    (hplaced : f.PlacedAs t id sig) (hgood : names.Good t) :
    Site t [(sig.scope, (t.typedVars sig.params).map fst)] names ∧ ∃ inner,
      BlockReady t true [(sig.scope, (t.typedVars sig.params).map fst)] sig.scope inner names
        f.body := by
  refine ⟨⟨.bottom _, fun p hp x hx => ?_, hgood⟩, ?_⟩
  · obtain rfl := mem_singleton.mp hp
    obtain ⟨i, hi, v, hv, rfl⟩ := mem_params hplaced hx
    exact ⟨hgood.covers _ (mem_names_of_var? hv), fun _ => ⟨i, hi, v, hv, rfl⟩⟩
  · cases hplaced.body with
    | intro _ scopes inside =>
      have hin : f.body ∈ (StmtKind.block f.body).blocks := .head _
      obtain ⟨inner, hscope, hencloses, hids⟩ := scopes f.body hin
      exact ⟨inner, rfl, hscope, hencloses, hids, inside f.body hin inner hscope,
        h.resolves inner hscope, h.ready, h.nodup, h.lookup⟩

/-- The symbols that the bodies of functions define. -/
def bodyIds (fs : List Function) : List SymbolId :=
  fs.flatMap fun f => definedIds f.body.nodes

/-! ## Files -/

/-- A script that can be built. -/
structure ScriptReady (t : Table) (script : Script) : Prop where
  typed : t.Typed
  scope : script.scope = some global
  kind : t.kind? global = some .global
  own : t.symbolsOf global = script.items.filterMap Item.defined?
  placed : ∀ item ∈ script.items, item.Placed t
  resolves : ∀ item ∈ script.items, Typing.ItemResolves t item
  around : t.parent? global = some predefined
  outermost : t.parent? predefined = none
  predefined : ∀ id ∈ t.symbolsOf predefined, t.var? id = none ∧ t.func? id = none
  functions : ∀ f ∈ script.functions, ∀ n ∈ f.body.nodes, n.Ready t true
  statements : ∀ n ∈ script.statements.flatMap Located.nodes, n.Ready t false
  nodup : (definedIds script.nodes).Nodup

theorem declared_eq_typedVars
    (h : ∀ id ∈ ids, names.renamed.lookup id = none) : declared t names ids = t.typedVars ids := by
  refine filterMap_congr fun id hid => ?_
  simp only [Names.cName, h id hid, Option.getD_none]

end Build

/-- What an item defines is no parameter. -/
theorem Item.Placed.isParameter (h : item.Placed t) {id : SymbolId}
    {v : Variable} (hid : item.defined? = some id) (hv : t.var? id = some v) :
    v.isParameter = false := by
  cases item with
  | function f =>
    obtain ⟨id', sig, hf⟩ := h
    cases hid.symm.trans hf.symbol
    have hfunc := hf.func
    rw [func?_of_var? hv] at hfunc
    cases hfunc
  | statement s =>
    unfold Item.defined? Located.defined? at hid
    dsimp only at hid
    split at hid
    · rename_i name value symbol hk
      cases h with
      | intro define _ _ => grind
    · cases hid

namespace Script

variable {script : Script}

theorem mem_functions : f ∈ script.functions ↔ .function f ∈ script.items := by
  refine mem_filterMap.trans ⟨?_, fun h => ⟨_, h, rfl⟩⟩
  grind

theorem mem_statements : s ∈ script.statements ↔ .statement s ∈ script.items := by
  refine mem_filterMap.trans ⟨?_, fun h => ⟨_, h, rfl⟩⟩
  grind

/-- What a script defines is what its functions and its statements define. -/
theorem definedIds_perm (script : Script) : (definedIds script.nodes).Perm
    (bodyIds script.functions ++ allDefinedIds script.statements) := by
  rcases script with ⟨items, scope⟩
  induction items with
  | nil => exact .refl _
  | cons item items ih =>
    have hnodes : definedIds (nodes ⟨item :: items, scope⟩) =
        definedIds item.nodes ++ definedIds (nodes ⟨items, scope⟩) := by
      simp [nodes, definedIds, filterMap_append]
    rw [hnodes]
    refine (ih.append_left _).trans ?_
    cases item with
    | function f =>
      simp [functions, statements, bodyIds, Item.nodes]
    | statement s =>
      have hs : allDefinedIds [s] = definedIds s.nodes := by simp [allDefinedIds]
      simp only [functions, statements, filterMap_cons, Item.nodes]
      rw [Declare.allDefinedIds_cons, hs, ← append_assoc, ← append_assoc]
      exact perm_append_comm.append_right _

/-- The variables among the symbols of items are those that the statements define. -/
theorem declared_items {names : Names} (h : ∀ item ∈ script.items, item.Placed t) :
    declared t names (script.items.filterMap Item.defined?) =
      declared t names (definedIds script.statements) := by
  rcases script with ⟨items, scope⟩
  induction items with
  | nil => rfl
  | cons item items ih =>
    have ih := ih fun i hi => h i (.tail item hi)
    have hitem := h item (.head _)
    simp only [declared, definedIds, statements, filterMap_filterMap] at ih ⊢
    rw [filterMap_cons, filterMap_cons]
    cases item with
    | function f =>
      obtain ⟨id, sig, hf⟩ := hitem
      have hvar : t.var? id = none := by
        cases hv : t.var? id with
        | none => rfl
        | some v =>
          have := hf.func
          rw [func?_of_var? hv] at this
          cases this
      simpa [Item.defined?, hf.symbol, hvar] using ih
    | statement s =>
      simp only [Item.defined?, Option.bind_some] at ih ⊢
      rw [ih]

end Script

namespace Build

variable {t : Table} {script : Script}

namespace ScriptReady

variable {names : Names}

section

variable (h : ScriptReady t script)

include h

/-- The global scope holds no parameters. -/
theorem noParams : ∀ id ∈ t.symbolsOf global, ∀ v, t.var? id = some v → v.isParameter = false := by
  intro id hid v hv
  rw [h.own] at hid
  obtain ⟨item, hitem, hdefined⟩ := mem_filterMap.mp hid
  exact (h.placed item hitem).isParameter hdefined hv

/-- What functions define and what statements define are different. -/
theorem definedIds_nodup : (bodyIds script.functions ++ allDefinedIds script.statements).Nodup :=
  script.definedIds_perm.nodup_iff.mp h.nodup

/-- The global variables are declared under their own names. -/
theorem globals (hgood : names.Good t) (hrenamed : names.renamed = []) :
    Builds (localsOf t global) names fun globals names' =>
      globals = (declared t names' (t.symbolsOf global)).map declOf ∧
        ((declared t names' (t.symbolsOf global)).map fst).Nodup ∧
          Declared t global names (t.symbolsOf global) names' ∧
            ∀ id, names'.renamed.lookup id = none := by
  have hundeclared : Undeclared t names (t.symbolsOf global) := by
    refine ⟨h.typed.wellFormed.names _, fun id hid v hv => ?_, fun id _ => by rw [hrenamed]; rfl⟩
    exact ⟨h.noParams id hid v hv, mem_names_of_var? hv, h.typed.typed hv⟩
  have hhides : ∀ name, hides t global name = false := by
    intro name
    obtain ⟨s, hs, hkind⟩ := Option.map_eq_some_iff.mp h.kind
    rw [hides, hs]
    simp [hkind]
  refine (localsOf_builds hgood hundeclared).imp ?_
  rintro globals names₁ ⟨hglobals, hkeys, hdecl⟩
  rw [hglobals, map_map] at hkeys
  refine ⟨hglobals, hkeys, hdecl, fun id => ?_⟩
  rw [hdecl.unhidden hhides, hrenamed]
  rfl

theorem funcReady (hnone : ∀ id, names.renamed.lookup id = none) (hf : f ∈ script.functions) :
    FuncReady t names f :=
  ⟨h.placed _ (mem_functions.mp hf), h.resolves _ (mem_functions.mp hf),
    h.functions f hf,
    (nodup_flatMap.mp (nodup_append.mp h.definedIds_nodup).1).1 f hf, fun id _ => hnone id⟩

/-- The statements outside functions can be built in the global scope. -/
theorem main {names₁ names₃ : Names} (hgood : names.Good t)
    (hdecl : Declared t global names (t.symbolsOf global) names₁) {ids : List SymbolId}
    (hgood₃ : names₃.Good t) (hgrows : names₁.Grows names₃ ids)
    (hnone : ∀ id ∈ allDefinedIds script.statements, names₃.renamed.lookup id = none) :
    let nest : Nest :=
      [(global, (declared t names₁ (t.symbolsOf global)).map fst)]
    Site t nest names₃ ∧ StmtsReady t false nest global names₃ script.statements := by
  have hstatIds := allDefinedIds_perm script.statements
  have hnodup := (nodup_append.mp h.definedIds_nodup).2.1
  refine ⟨⟨.bottom _, ?_, hgood₃⟩, rfl, fun s hs => h.placed _ (mem_statements.mp hs),
    fun s hs => h.resolves _ (mem_statements.mp hs), fun id hid => ?_, h.statements,
    hstatIds.nodup_iff.mp hnodup, fun id hid => ?_⟩
  · have hnamed : Nest.Named t names₁
        [(global, (declared t names₁ (t.symbolsOf global)).map fst)] :=
      Nest.Named.push nofun hgood hdecl
    exact hnamed.mono hgrows.taken
  · obtain ⟨s, hs, hsid⟩ := mem_filterMap.mp hid
    rw [h.own]
    exact mem_filterMap.mpr ⟨_, mem_statements.mp hs, hsid⟩
  · grind

end

end ScriptReady

end Build

/-! ## The nodes of built models -/

/-- The statements and declarations of models before counting. -/
def Node.isFrame : Node → Bool
  | file .. | func .. | mainFunc _ | block _ | argDef .. | varDecl .. | varDef .. | assign ..
  | elementAssign .. | ifStat .. | whileStat .. | returnStat .. | printStat .. | callStat _
  | blockStat _ => true
  | _ => false

/-- The nodes of models before counting. -/
def Node.IsBuiltNode (t : Table) (n : Node) : Prop := n.IsExprNode t ∨ n.isFrame = true

section Nodes

variable {t : Table} {returns : Bool} {n : Node}

theorem Node.ClosedExpr.all_nodes (h : n.ClosedExpr t) : n.All (IsBuiltNode t) :=
  h.expr.imp fun _ => .inl

theorem CBlock.Uncounted.all_nodes (h : b.Uncounted)
    (hstats : ∀ n ∈ b.stats, n.All (IsBuiltNode t)) : (block b).All (IsBuiltNode t) :=
  .intro (.inr rfl) (h.forall_children (fun _ _ _ => .intro (.inr rfl) nofun) hstats)

/-- What statements take over from their expressions and blocks holds of built statements. -/
theorem BuiltStat.over {P : Node → Prop}
    (step : ∀ {n : Node} (cs : List Node), n.isFrame = true → n.children = cs →
      (∀ c ∈ cs, c.ClosedExpr t ∨ P c) → P n)
    (h : BuiltStat t returns nest n) : P n := by
  induction h with
  | varDef _ expr | assign _ expr | callStat expr | printStat expr | returnStat _ expr =>
    exact step _ rfl rfl (forall_mem_singleton.mpr (.inl expr))
  | elementAssign _ place expr =>
    exact step _ rfl rfl (forall_mem_pair.mpr ⟨.inl place, (.inl expr)⟩)
  | ifThen cond _ yes =>
    exact step _ rfl rfl (forall_mem_pair.mpr ⟨.inl cond, (.inr yes)⟩)
  | ifElse cond _ _ yes no =>
    exact step _ rfl rfl (forall_mem_cons.mpr
      ⟨.inl cond, forall_mem_pair.mpr ⟨.inr yes, (.inr no)⟩⟩)
  | whileStat cond _ body =>
    exact step _ rfl rfl (forall_mem_pair.mpr ⟨.inl cond, (.inr body)⟩)
  | printNothing => exact step [] rfl rfl nofun
  | blockStat _ ih => exact step _ rfl rfl (forall_mem_singleton.mpr (.inr ih))
  | block shape _ ih =>
    refine step _ rfl rfl
      (shape.uncounted.forall_children (fun _ _ _ => .inr ?_) fun s hs => .inr (ih s hs))
    exact step [] rfl rfl nofun

theorem BuiltStat.all_nodes (h : BuiltStat t returns nest n) : n.All (IsBuiltNode t) :=
  h.over fun _ hframe hcs hparts =>
    .of_children (.inr hframe) hcs fun c hc => (hparts c hc).elim (·.all_nodes) id

theorem Node.IsBuiltFunc.all_nodes (h : n.IsBuiltFunc t) : n.All (IsBuiltNode t) := by
  obtain ⟨head, params, scope, vars, b, rfl, h⟩ := h
  refine .intro (.inr rfl) fun c hc => ?_
  simp only [children, slots, Slot.toList, flatMap_cons, flatMap_nil,
    mem_append, append_nil, Option.toList_some, mem_singleton] at hc
  rcases hc with hc | rfl
  · obtain ⟨p, -, rfl⟩ := mem_map.mp hc
    exact .intro (.inr rfl) (forall_mem_nil _)
  · exact h.body.uncounted.all_nodes fun s hs => (h.stats s hs).all_nodes

theorem Node.IsBuiltFile.all_nodes (h : n.IsBuiltFile t) : n.All (IsBuiltNode t) := by
  obtain ⟨vars, funcs, b, rfl, hfuncs, h⟩ := h
  have hmain : (block b).All (IsBuiltNode t) :=
    h.uncounted.all_nodes fun s hs => (h.stats s hs).all_nodes
  refine .intro (.inr rfl) fun c hc => ?_
  simp only [children, slots, Slot.toList, flatMap_cons, flatMap_nil,
    mem_append, append_nil, Option.toList_some, mem_singleton] at hc
  rcases hc with hc | hc | rfl
  · obtain ⟨p, hp, rfl⟩ := mem_map.mp hc
    obtain ⟨q, -, rfl⟩ := mem_map.mp hp
    exact .intro (.inr rfl) (forall_mem_nil _)
  · exact (hfuncs c hc).all_nodes
  · exact .of_children (.inr rfl) rfl (forall_mem_singleton.mpr hmain)

end Nodes

/-! ## Accepted scripts -/

section Retypes

variable {t t' : Table}

theorem Located.Placed.retypes (h : s.Placed t scope)
    (hret : t.Retypes t') : s.Placed t' scope := by
  induction h with
  | @intro scope s define scopes inside ih =>
    refine .intro ?_ ?_ ih
    · intro name value symbol hk
      obtain ⟨id, v, hid, hv, hname, hparam⟩ := define hk
      obtain ⟨ty, hv', -⟩ := hret.var? hv
      exact ⟨id, _, hid, hv', hname, hparam⟩
    · intro b hb
      obtain ⟨inner, hscope, hencloses, hids⟩ := scopes b hb
      exact ⟨inner, hscope, hencloses.retypes hret, (hret.symbolsOf inner).trans hids⟩

theorem Item.Placed.retypes (h : item.Placed t) (hret : t.Retypes t') : item.Placed t' := by
  cases item with
  | statement s => exact Located.Placed.retypes h hret
  | function f =>
    obtain ⟨id, sig, h⟩ := h
    refine ⟨id, sig, { h with
      func := (hret.func? id).trans h.func
      kind := (hret.kind? _).trans h.kind
      parent := (hret.parent? _).trans h.parent
      attached := by rw [function?, hret.scope?]; exact h.attached
      own := (hret.symbolsOf _).trans h.own
      typed := h.typed.imp fun p i hp => ?_
      body := h.body.retypes hret }⟩
    obtain ⟨v, hv, hname, hty, hparam⟩ := hp
    obtain ⟨ty, hv', hsame, -⟩ := hret.var? hv
    exact ⟨_, hv', hname, (hsame hparam).trans hty, hparam⟩

end Retypes

/-- A block belongs to the function of the scope around it. -/
theorem Table.WellFormed.enclosingFunction_eq (ht : t.WellFormed) {outer inner : ScopeId}
    (h : t.Encloses outer inner) : t.enclosingFunction inner = t.enclosingFunction outer := by
  rw [enclosingFunction, ht.chain_eq h.parent, find?_cons_of_neg]
  · rfl
  · simp [h.kind]

/-- Outside functions nothing returns. -/
theorem Located.Returns.kind_ne (ht : t.WellFormed)
    (h : s.Returns t scope) (hplaced : s.Placed t scope)
    (houtside : t.enclosingFunction scope = none) :
    ∀ n ∈ s.nodes, ∀ value, n.kind ≠ .ret value := by
  induction h with
  | @intro scope s ret inside ih =>
    cases hplaced with
    | intro define scopes placed =>
      refine Located.forall_nodes.mpr ⟨fun value hk => ?_, fun b hb c hc => ?_⟩
      · grind
      · obtain ⟨inner, hscope, hencloses, -⟩ := scopes b hb
        refine ih b hb inner hscope c hc (placed b hb inner hscope c hc) ?_
        rw [ht.enclosingFunction_eq hencloses]
        exact houtside

theorem Table.exists_chain (t : Table) (s : ScopeId) : ∃ rest, t.chain s = s :: rest := by
  rw [chain, chainFrom]
  split
  · exact ⟨_, rfl⟩
  · exact ⟨_, rfl⟩

theorem Table.enclosingFunction_global (h : t.kind? global = some .global) :
    t.enclosingFunction global = none := by
  obtain ⟨s, hs, hkind⟩ := Option.map_eq_some_iff.mp h
  obtain ⟨rest, hchain⟩ := t.exists_chain global
  simp [enclosingFunction, hchain, h, hs, hkind]

namespace Accepted

variable {base table : Table} {script : Script}

section

variable (h : Accepted base script table)

include h

theorem ready_of_mem {returns : Bool} {n : Stmt}
    (hn : n ∈ script.nodes) (hret : ∀ value, n.kind = .ret value → returns = true) :
    n.Ready table returns := by
  refine ⟨h.steps.step_of_mem h.clean hn, ?_, fun {value} hk => hret value hk⟩
  intro name value symbol hk
  obtain ⟨id, v, ty, rfl, hv, hty, heff⟩ := h.steps.var?_of_define h.definedIds_nodup hn hk
  obtain ⟨t₁, t₂, hretypes, hstep⟩ := h.steps.step_of_mem h.clean hn
  rw [hk] at hstep
  cases hstep with
  | @define _ _ _ w _ var named notParam =>
    obtain ⟨ty', hv', -⟩ := hretypes.var? var
    grind

/-- All variables of an accepted script have types. -/
theorem typed : table.Typed where
  wellFormed := h.wellFormed.retypes h.retypes
  typed {id v} hv := by
    have hsome : ∃ ty, v.ty = some ty := by
      obtain ⟨w, hw, -, hsame, -⟩ := h.retypes.var?_back hv
      rcases h.var hw with ⟨hparam, ty, -, hty⟩ | ⟨-, -, hid⟩
      · exact ⟨ty, (hsame hparam).trans hty⟩
      · obtain ⟨d, hd, hdid⟩ := mem_filterMap.mp hid
        unfold Located.defined? at hdid
        split at hdid
        · rename_i name value symbol hk
          obtain ⟨id', u, ty, hid', hu, hty, -⟩ := h.steps.var?_of_define h.definedIds_nodup hd hk
          grind
        · cases hdid
    obtain ⟨ty, hty⟩ := hsome
    refine ⟨ty, hty, ?_⟩
    rintro rfl
    exact h.table_clean.ty hv hty

theorem scriptReady : ScriptReady table script where
  typed := h.typed
  scope := h.scope
  kind := (h.retypes.kind? _).trans h.global
  own := (h.retypes.symbolsOf _).trans h.globals
  placed item hitem := (h.placed item hitem).retypes h.retypes
  resolves := h.resolves
  around := h.around
  outermost := h.outermost
  predefined := h.predefined
  functions f hf n hn := h.ready_of_mem
    (mem_flatMap.mpr ⟨_, mem_functions.mp hf, hn⟩) fun _ _ => rfl
  statements n hn := by
    obtain ⟨s, hs, hn⟩ := mem_flatMap.mp hn
    have hitem := mem_statements.mp hs
    refine h.ready_of_mem (mem_flatMap.mpr ⟨_, hitem, hn⟩) fun value hk => ?_
    exact absurd hk ((h.returns s hitem).kind_ne h.wellFormed (h.placed _ hitem)
      (enclosingFunction_global h.global) n hn value)
  nodup := h.definedIds_nodup

end

end Accepted

end WichToC

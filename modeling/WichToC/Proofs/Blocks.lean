import Mathlib.Data.List.Flatten
import WichToC.Proofs.Nesting
import WichToC.Proofs.Origins

/-!
# What building statements yields

`BuiltStat` says of what shape the nodes of statements are and how their blocks are nested: the
variables that are visible together have different C names, a block defines its own variables and
each of them once, and only functions return.  `Build.StmtsReady` says of which statements such
nodes can be built, and where.
-/

namespace WichToC

open List Node

/-! ## Built statements -/

/-- The variable that a definition gives its value, with its type. -/
def Node.defined? : Node → Option (String × Ty)
  | varDef name ty _ => some (name, ty)
  | _ => none

/-- A block before counting, with its scope and the variables that it declares and defines. -/
structure BuiltBlock (t : Table) (isFunctionBody : Bool) (nest : Nest) (scope : ScopeId)
    (vars : List (String × Ty)) (b : CBlock Node) : Prop where
  ownScope : b.scope = some scope
  encloses : ∃ outer, nest.head?.map Prod.fst = some outer ∧ t.Encloses outer scope
  locals : b.locals = vars.map Build.declOf
  nodup : (vars.map Prod.fst).Nodup
  varNames : ∀ p ∈ vars, IsVarName t p.1
  apart : ∀ p ∈ vars, ∀ q ∈ nest, p.1 ∉ q.2
  defs : b.stats.filterMap defined? = vars
  temps : ∀ p ∈ b.temps, ∃ name ty, p.2 = .tempDecl name ty
  cleanup : b.cleanup = []
  body : b.isFunctionBody = isFunctionBody
  injected : b.injected = false

/-- A block that declares variables and temporaries and has nothing to clean up. -/
structure CBlock.Uncounted (b : CBlock Node) : Prop where
  locals : ∀ p ∈ b.locals, ∃ name ty isTemp, p.2 = .varDecl name ty isTemp
  temps : ∀ p ∈ b.temps, ∃ name ty, p.2 = .tempDecl name ty
  cleanup : b.cleanup = []

theorem BuiltBlock.uncounted {t : Table} {isFunctionBody : Bool} {nest : Nest} {scope : ScopeId}
    {vars : List (String × Ty)} {b : CBlock Node}
    (h : BuiltBlock t isFunctionBody nest scope vars b) :
    b.Uncounted where
  locals := by
    rw [h.locals]
    exact forall_mem_map.mpr fun q _ => ⟨_, _, _, rfl⟩
  temps := h.temps
  cleanup := h.cleanup

namespace CBlock.Uncounted

variable {b : CBlock Node}

theorem decls (h : b.Uncounted) :
    ∀ p ∈ b.locals ++ b.temps, ∃ name ty isTemp, p.2 = .varDecl name ty isTemp := by
  refine forall_mem_append.mpr ⟨h.locals, fun p hp => ?_⟩
  obtain ⟨name, ty, heq⟩ := h.temps p hp
  exact ⟨name, ty, true, heq⟩

theorem children_eq (h : b.Uncounted) :
    (block b).children = (b.locals ++ b.temps).map Prod.snd ++ b.stats := by
  simp [children, h.cleanup]

/-- What holds of declarations and of the statements holds of all parts of a block. -/
theorem forall_children (h : b.Uncounted) {P : Node → Prop}
    (hdecl : ∀ name ty isTemp, P (.varDecl name ty isTemp)) (hstats : ∀ s ∈ b.stats, P s) :
    ∀ c ∈ (block b).children, P c := by
  rw [h.children_eq]
  refine forall_mem_append.mpr ⟨forall_mem_map.mpr fun p hp => ?_, hstats⟩
  obtain ⟨name, ty, isTemp, heq⟩ := h.decls p hp
  exact heq ▸ hdecl name ty isTemp

/-- A block reserves what its statements reserve. -/
theorem reserved (h : b.Uncounted) : (block b).reserved = b.stats.flatMap reserved := by
  have hdecls : ((b.locals ++ b.temps).map Prod.snd).flatMap Node.reserved = [] := by
    refine flatMap_eq_nil_iff.mpr (forall_mem_map.mpr fun p hp => ?_)
    obtain ⟨name, ty, isTemp, heq⟩ := h.decls p hp
    rw [heq]
    rfl
  rw [reserved_eq, h.children_eq, flatMap_append, hdecls]
  exact append_nil _

end CBlock.Uncounted

/-- A statement before counting, in a nest of scopes; `returns` tells whether it may return. -/
inductive BuiltStat (t : Table) (returns : Bool) : Nest → Node → Prop
  | varDef {nest : Nest} {name : String} {ty : Ty} {e : Node} (varName : IsVarName t name)
      (expr : e.ClosedExpr t) (typed : e.ty? = some ty) :
      BuiltStat t returns nest (.varDef name ty (some e))
  | assign {nest : Nest} {name capture : String} {ty : Ty} {e : Node} (varName : IsVarName t name)
      (expr : e.ClosedExpr t) (typed : e.ty? = some ty) :
      BuiltStat t returns nest (.assign name ty capture (some e))
  | elementAssign {nest : Nest} {name : String} {i e : Node} (varName : IsVarName t name)
      (place : i.ClosedExpr t) (expr : e.ClosedExpr t) :
      BuiltStat t returns nest (.elementAssign name (some i) (some e))
  | ifThen {nest : Nest} {c : Node} {b : CBlock Node} (cond : c.ClosedExpr t)
      (yes : BuiltStat t returns nest (.block b)) :
      BuiltStat t returns nest (.ifStat (some c) (some (.block b)) none)
  | ifElse {nest : Nest} {c : Node} {b b' : CBlock Node} (cond : c.ClosedExpr t)
      (yes : BuiltStat t returns nest (.block b)) (no : BuiltStat t returns nest (.block b')) :
      BuiltStat t returns nest (.ifStat (some c) (some (.block b)) (some (.block b')))
  | whileStat {nest : Nest} {c : Node} {b : CBlock Node} (cond : c.ClosedExpr t)
      (body : BuiltStat t returns nest (.block b)) :
      BuiltStat t returns nest (.whileStat (some c) (some (.block b)))
  | callStat {nest : Nest} {e : Node} (expr : e.ClosedExpr t) (notVar : e.kind ≠ .varRef) :
      BuiltStat t returns nest (.callStat (some e))
  | printNothing {nest : Nest} : BuiltStat t returns nest (.printStat none none)
  | printStat {nest : Nest} {ty : Ty} {e : Node} (expr : e.ClosedExpr t) :
      BuiltStat t returns nest (.printStat (some ty) (some e))
  | returnStat {nest : Nest} {capture : String} {ty : Ty} {e : Node} (allowed : returns = true)
      (expr : e.ClosedExpr t) (typed : e.ty? = some ty) :
      BuiltStat t returns nest (.returnStat ty capture (some e))
  | blockStat {nest : Nest} {b : CBlock Node} (block : BuiltStat t returns nest (.block b)) :
      BuiltStat t returns nest (.blockStat (some (.block b)))
  | block {nest : Nest} {scope : ScopeId} {vars : List (String × Ty)} {b : CBlock Node}
      (shape : BuiltBlock t false nest scope vars b)
      (stats : ∀ s ∈ b.stats, BuiltStat t returns ((scope, vars.map Prod.fst) :: nest) s) :
      BuiltStat t returns nest (.block b)

/-! ## Statements that are ready to be built -/

/-- The symbols that the blocks of statements define. -/
def innerIds (ss : List Stmt) : List SymbolId :=
  ss.flatMap fun s => s.kind.blocks.flatMap fun b => definedIds b.nodes

theorem innerIds_cons {s : Stmt} {ss : List Stmt} :
    innerIds (s :: ss) = innerIds [s] ++ innerIds ss := by
  simp [innerIds]

/-- What statements define altogether are their own symbols and those of their blocks. -/
theorem allDefinedIds_perm (ss : List Stmt) :
    (allDefinedIds ss).Perm (definedIds ss ++ innerIds ss) := by
  induction ss with
  | nil => exact .refl _
  | cons s ss ih =>
    have hs : allDefinedIds [s] = definedIds [s] ++ innerIds [s] := by
      simp [allDefinedIds, innerIds, definedIds, Located.nodes_eq, filterMap_cons,
        filterMap_flatMap]
      cases s.defined? <;> rfl
    rw [Declare.allDefinedIds_cons, Declare.definedIds_cons, innerIds_cons, hs]
    grind

/-- A statement without its blocks is typed, in a table with other types of variables. -/
structure Located.Ready (t : Table) (returns : Bool) (s : Stmt) : Prop where
  step : ∃ t₁ t₂, t₁.Retypes t ∧ Typing.Step t₁ s.kind t₂
  define : ∀ {n value symbol}, s.kind = .define n value symbol → ∃ id v ty, symbol = some id ∧
    t.var? id = some v ∧ v.name = n ∧ v.isParameter = false ∧ v.ty = some ty ∧
      value.effectiveTy = some ty
  ret : ∀ {value}, s.kind = .ret value → returns = true

/-- A table in which all variables have types. -/
structure Table.Typed (t : Table) : Prop where
  wellFormed : t.WellFormed
  typed : ∀ {id v}, t.var? id = some v → ∃ ty, v.ty = some ty ∧ ty ≠ .error

namespace Build

variable {t : Table} {names names' : Names} {returns : Bool} {nest : Nest} {s : Stmt} {node : Node}

/-- Statements that can be built in a scope, the innermost one of a nest. -/
structure StmtsReady (t : Table) (returns : Bool) (nest : Nest) (scope : ScopeId) (names : Names)
    (ss : List Stmt) : Prop where
  innermost : nest.head?.map Prod.fst = some scope
  placed : ∀ s ∈ ss, s.Placed t scope
  resolves : ∀ s ∈ ss, s.Resolves t scope
  own : ∀ id ∈ definedIds ss, id ∈ t.symbolsOf scope
  ready : ∀ n ∈ ss.flatMap Located.nodes, n.Ready t returns
  nodup : (definedIds ss ++ innerIds ss).Nodup
  lookup : ∀ id ∈ innerIds ss, names.renamed.lookup id = none

/-- A block with its own scope that can be built in a scope, the innermost one of a nest. -/
structure BlockReady (t : Table) (returns : Bool) (nest : Nest) (scope inner : ScopeId)
    (names : Names) (b : Block) : Prop where
  innermost : nest.head?.map Prod.fst = some scope
  ownScope : b.scope = some inner
  encloses : t.Encloses scope inner
  symbols : t.symbolsOf inner = definedIds b.statements
  placed : ∀ s ∈ b.statements, s.Placed t inner
  resolves : ∀ s ∈ b.statements, s.Resolves t inner
  ready : ∀ n ∈ b.nodes, n.Ready t returns
  nodup : (definedIds b.nodes).Nodup
  lookup : ∀ id ∈ definedIds b.nodes, names.renamed.lookup id = none

/-- A place in a nest with the names handed out there. -/
structure Site (t : Table) (nest : Nest) (names : Names) : Prop where
  linked : nest.Linked t
  named : nest.Named t names
  good : names.Good t

theorem Site.mono {ids : List SymbolId} (h : Site t nest names) (hgrows : names.Grows names' ids)
    (hgood : names'.Good t) : Site t nest names' :=
  ⟨h.linked, h.named.mono hgrows.taken, hgood⟩

namespace StmtsReady

variable {s : Stmt} {ss : List Stmt} {scope : ScopeId}

theorem sublist {ss' : List Stmt} (h : StmtsReady t returns nest scope names ss) (hsub : ss' <+ ss)
    (hlookup : ∀ id ∈ innerIds ss', names'.renamed.lookup id = none) :
    StmtsReady t returns nest scope names' ss' where
  innermost := h.innermost
  placed s hs := h.placed s (hsub.subset hs)
  resolves s hs := h.resolves s (hsub.subset hs)
  own id hid := h.own id ((hsub.filterMap _).subset hid)
  ready n hn := h.ready n ((hsub.flatMap _).subset hn)
  nodup := h.nodup.sublist ((hsub.filterMap _).append (hsub.flatMap _))
  lookup := hlookup

theorem head (h : StmtsReady t returns nest scope names (s :: ss)) :
    StmtsReady t returns nest scope names [s] :=
  h.sublist (singleton_sublist.mpr (.head _)) fun id hid =>
    h.lookup id (innerIds_cons ▸ mem_append_left _ hid)

theorem tail (h : StmtsReady t returns nest scope names (s :: ss))
    (hgrows : names.Grows names' (innerIds [s])) : StmtsReady t returns nest scope names' ss := by
  refine h.sublist (sublist_cons_self s ss) fun id hid => ?_
  have hnodup := h.nodup
  rw [innerIds_cons] at hnodup
  rw [hgrows.stable id fun hmem => ?_]
  · exact h.lookup id (innerIds_cons ▸ mem_append_right _ hid)
  · grind

theorem advance (h : StmtsReady t returns nest scope names ss) (hadv : names.Advances names') :
    StmtsReady t returns nest scope names' ss :=
  { h with lookup := fun id hid => hadv.renamed ▸ h.lookup id hid }

/-- The blocks of a statement can be built one after the other. -/
theorem blocks (h : StmtsReady t returns nest scope names [s]) {b : Block} {before : List Block}
    {after : List Block} (hb : s.kind.blocks = before ++ b :: after)
    (hgrows : names.Grows names' (before.flatMap fun c => definedIds c.nodes)) :
    ∃ inner, BlockReady t returns nest scope inner names' b := by
  have hmem : b ∈ s.kind.blocks := by simp [hb, -StmtKind.blocks]
  have hinner : innerIds [s] = (before.flatMap fun c => definedIds c.nodes) ++
      (definedIds b.nodes ++ after.flatMap fun c => definedIds c.nodes) := by
    simp [innerIds, hb, -StmtKind.blocks]
  have hnodup := (nodup_append.mp h.nodup).2.1
  rw [hinner] at hnodup
  cases h.resolves s (.head _) with
  | intro _ _ _ resolves =>
  cases h.placed s (.head _) with
  | intro define scopes inside =>
    obtain ⟨inner, hscope, hencloses, hids⟩ := scopes b hmem
    refine ⟨inner, h.innermost, hscope, hencloses, hids, inside b hmem inner hscope,
      resolves b hmem inner hscope, ?_, ?_, ?_⟩
    · intro n hn
      refine h.ready n ?_
      rw [flatMap_singleton, Located.nodes_eq]
      grind
    · grind
    · intro id hid
      have hin : id ∈ definedIds b.nodes ++ after.flatMap fun c => definedIds c.nodes :=
        mem_append_left _ hid
      rw [hgrows.stable id fun hbefore => (nodup_append.mp hnodup).2.2 id hbefore id hin rfl]
      exact h.lookup id (hinner ▸ mem_append_right _ hin)

end StmtsReady

/-! ## Entering blocks -/

theorem tempDecls_isTempDecl (temps : List (String × Ty)) :
    ∀ p ∈ tempDecls temps, ∃ name ty, p.2 = .tempDecl name ty := by
  intro p hp
  rcases mem_insertEntries hp with hnone | hnew
  · cases hnone
  · grind

theorem isDecl_declOf (vars : List (String × Ty)) :
    ∀ p ∈ vars.map declOf, ∃ name ty isTemp, p.2 = .varDecl name ty isTemp := by
  intro p hp
  obtain ⟨q, -, rfl⟩ := mem_map.mp hp
  exact ⟨_, _, _, rfl⟩

theorem swapScratch_builds (scratch : List (String × Ty)) :
    Builds (swapScratch scratch) names fun old names' =>
      old = names.scratch ∧ names' = { names with scratch := scratch } :=
  ⟨_, _, rfl, rfl, rfl⟩

/-- Entering a block: its variables are declared, and its statements can be built after that. -/
structure Entered (t : Table) (returns : Bool) (nest : Nest) (names : Names) (scope : ScopeId)
    (ss : List Stmt) (locals : List (String × Node)) (names' : Names) : Prop where
  locals : locals = (declared t names' (t.symbolsOf scope)).map declOf
  nodup : ((declared t names' (t.symbolsOf scope)).map Prod.fst).Nodup
  decl : Declared t scope names (t.symbolsOf scope) names'
  site : Site t ((scope, (declared t names' (t.symbolsOf scope)).map Prod.fst) :: nest) names'
  ready : StmtsReady t returns
    ((scope, (declared t names' (t.symbolsOf scope)).map Prod.fst) :: nest) scope names' ss

namespace BlockReady

variable {b : Block} {scope inner : ScopeId}

theorem definedIds_perm (b : Block) :
    (definedIds b.nodes).Perm (definedIds b.statements ++ innerIds b.statements) := by
  rw [BlockOf.nodes_eq]
  exact allDefinedIds_perm b.statements

/-- A block declares variables only, and no parameters. -/
theorem vars (h : BlockReady t returns nest scope inner names b) :
    ∀ id ∈ t.symbolsOf inner, ∃ v, t.var? id = some v ∧ v.isParameter = false := by
  intro id hid
  rw [h.symbols] at hid
  obtain ⟨s, hs, hsid⟩ := mem_filterMap.mp hid
  unfold Located.defined? at hsid
  split at hsid
  · rename_i name value symbol hk
    cases h.placed s hs with
    | intro define _ _ => grind
  · cases hsid

theorem enter (ht : t.Typed) (hsite : Site t nest names)
    (h : BlockReady t returns nest scope inner names b) :
    Builds (localsOf t inner) names (Entered t returns nest names inner b.statements) := by
  have hvars := h.vars
  have hperm := definedIds_perm b
  have hnodup := hperm.nodup_iff.mp h.nodup
  have hundeclared : Undeclared t names (t.symbolsOf inner) := by
    refine ⟨ht.wellFormed.names inner, fun id hid v hv => ?_, fun id hid => ?_⟩
    · obtain ⟨w, hw, hparam⟩ := hvars id hid
      cases hv.symm.trans hw
      exact ⟨hparam, Table.mem_names_of_var? hv, ht.typed hv⟩
    · exact h.lookup id (hperm.mem_iff.mpr (mem_append_left _ (h.symbols ▸ hid)))
  refine (localsOf_builds hsite.good hundeclared).imp ?_
  rintro locals names₁ ⟨hlocals, hkeys, hdecl⟩
  rw [hlocals, map_map] at hkeys
  refine ⟨hlocals, hkeys, hdecl, ⟨?_, hsite.named.push hsite.good hdecl, hdecl.good⟩, ?_⟩
  · have houter := h.innermost
    cases hlinked : nest with
    | nil => rw [hlinked] at houter; cases houter
    | cons p rest =>
      obtain rfl : p.1 = scope := by grind
      refine .push h.encloses (fun id hid => ?_) (hlinked ▸ hsite.linked)
      grind
  · refine ⟨rfl, h.placed, h.resolves, fun id hid => h.symbols ▸ hid, fun n hn => h.ready n ?_,
      hnodup, fun id hid => ?_⟩
    · rw [BlockOf.nodes_eq]
      exact hn
    · rw [hdecl.grows.stable id fun hown => ?_]
      · exact h.lookup id (hperm.mem_iff.mpr (mem_append_right _ hid))
      · exact (nodup_append.mp hnodup).2.2 id (h.symbols ▸ hown) id hid rfl

end BlockReady

end Build

end WichToC

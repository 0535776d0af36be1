import WichToC.Proofs.BuiltModel

/-!
# What C names refer to

In C a name refers to the declaration of the innermost block that declares it.  `Frame.find?` is
that rule: the frames of the blocks around a place, innermost first, then the parameters, then the
variables and functions of the file.

`ScriptBuiltFor` relates a model to the script that it is built for, statement by statement, and
asks that every name refers to what the script means by it.  The invariant of building is `Visible`:
each variable that a name stands for in a scope is found under its C name, each function under its
own name, and the variables of a function that are visible together have different C names.
Entering a block keeps it (`Visible.enter`), because a new C name is either taken by nobody or is
the name of a variable that hides nothing in the script.
-/

namespace WichToC

open List Table
open Prod (fst snd)

variable {c : String} {p : String × Node} {α : Type} {id : SymbolId}

/-! ## Frames -/

/-- What a C name is declared as. -/
inductive Referent where
  | var (id : SymbolId)
  | func (id : SymbolId)
  | temp
deriving DecidableEq, Repr

/-- The names that a block, a list of parameters or the file declares. -/
abbrev Frame := List (String × Referent)

namespace Frame

variable (frames : List Frame)

/-- What a name refers to: the innermost frame that declares it decides. -/
def find? (name : String) : Option Referent :=
  frames.findSome? (lookup name)

/-- The lookup through frames. -/
def toLookup : Lookup where
  var id c := find? frames c = some (.var id)
  func id c := find? frames c = some (.func id)
  temp c := find? frames c = some .temp

/-- The names of the variables of a frame. -/
def vars (f : Frame) : List String :=
  f.filterMap fun p =>
    match p.2 with
    | .var _ => some p.1
    | _ => none

/-- The names of the variables of all frames but that of the file. -/
def ownVars : List String := frames.dropLast.flatMap vars

end Frame

def Node.isTempDecl : Node → Bool
  | varDecl _ _ isTemp => isTemp
  | _ => false

/-- The variables of a scope without its parameters. -/
def Table.localIds (t : Table) (scope : ScopeId) : List SymbolId :=
  (t.symbolsOf scope).filter fun id => (t.var? id).any fun v => !v.isParameter

namespace CBlock

/-- The declarations of the variables of a block. -/
def vars (b : CBlock Node) : List (String × Node) := b.locals.filter fun p => !p.2.isTempDecl

/-- The names that a block declares: the variables of its scope, in order, and temporaries. -/
def frame (t : Table) (b : CBlock Node) : Frame :=
  (b.vars.map fst).zip (((b.scope.map t.localIds).getD []).map .var) ++
    ((b.locals.filter fun p => p.2.isTempDecl) ++ b.temps).map fun p => (p.1, .temp)

end CBlock

/-- The name of a parameter. -/
def Node.argName? : Node → Option String
  | argDef name _ => some name
  | _ => none

/-- The names that the parameters of a function declare. -/
def Frame.ofArgs (args : List Node) (ids : List SymbolId) : Frame :=
  (args.filterMap Node.argName?).zip (ids.map .var)

/-- The names that the file declares: its variables, in order, and its functions. -/
def Frame.ofFile (t : Table) (script : Script) (globals : List (String × Node)) : Frame :=
  (globals.map fst).zip ((t.localIds global).map .var) ++
    script.functions.filterMap fun f => f.symbol.map fun id => (f.name, .func id)

/-! ## Models and their scripts -/

/-- The entry declares the variable. -/
def Table.DeclaredAs (t : Table) (p : String × Node) (id : SymbolId) : Prop :=
  ∃ v ty, t.var? id = some v ∧ v.ty = some ty ∧ p.2 = .varDecl p.1 ty false

/-- The node declares the parameter. -/
def Table.ParamAs (t : Table) (n : Node) (id : SymbolId) : Prop :=
  ∃ v ty, t.var? id = some v ∧ v.ty = some ty ∧ n = .argDef v.name ty

/-- A statement or a block. -/
inductive Piece where
  | stmt (s : Stmt)
  | block (b : Block)

/-- The node is built for the statement or the block, and inside the given frames all its names
refer to what the script means by them. -/
inductive PieceBuiltFor (t : Table) : List Frame → Piece → Node → Prop
  | define {frames : List Frame} {name c : String} {value : Expr} {id : SymbolId} {span : Span}
      {ty : Ty} {e : Node} (target : Frame.find? frames c = some (.var id))
      (typed : value.effectiveTy = some ty)
        (expr : BuiltFor (Frame.toLookup frames) .used value e) :
      PieceBuiltFor t frames (.stmt ⟨.define name value (some id), span⟩) (.varDef c ty (some e))
  | assign {frames : List Frame} {name c capture : String} {value : Expr} {id : SymbolId}
      {span : Span} {ty : Ty} {e : Node} (target : Frame.find? frames c = some (.var id))
      (typed : value.effectiveTy = some ty)
        (expr : BuiltFor (Frame.toLookup frames) .used value e) :
      PieceBuiltFor t frames (.stmt ⟨.assign name value (some id), span⟩)
        (.assign c ty capture (some e))
  | assignElement {frames : List Frame} {name c : String} {i value : Expr} {id : SymbolId}
      {span : Span} {m e : Node} (target : Frame.find? frames c = some (.var id))
      (place : BuiltFor (Frame.toLookup frames) .used i m)
      (expr : BuiltFor (Frame.toLookup frames) .used value e) :
      PieceBuiltFor t frames (.stmt ⟨.assignElement name i value (some id), span⟩)
        (.elementAssign c (some m) (some e))
  | ifThen {frames : List Frame} {cond : Expr} {b : Block} {span : Span} {c yes : Node}
      (test : BuiltFor (Frame.toLookup frames) .used cond c)
      (yesBlock : PieceBuiltFor t frames (.block b) yes) :
      PieceBuiltFor t frames (.stmt ⟨.ifElse cond b none, span⟩) (.ifStat (some c) (some yes) none)
  | ifElse {frames : List Frame} {cond : Expr} {b b' : Block} {span : Span} {c yes no : Node}
      (test : BuiltFor (Frame.toLookup frames) .used cond c)
      (yesBlock : PieceBuiltFor t frames (.block b) yes)
      (noBlock : PieceBuiltFor t frames (.block b') no) :
      PieceBuiltFor t frames (.stmt ⟨.ifElse cond b (some b'), span⟩)
        (.ifStat (some c) (some yes) (some no))
  | loop {frames : List Frame} {cond : Expr} {b : Block} {span : Span} {c body : Node}
      (test : BuiltFor (Frame.toLookup frames) .used cond c)
      (again : PieceBuiltFor t frames (.block b) body) :
      PieceBuiltFor t frames (.stmt ⟨.loop cond b, span⟩) (.whileStat (some c) (some body))
  | call {frames : List Frame} {call : Expr} {span : Span} {e : Node}
      (expr : BuiltFor (Frame.toLookup frames) .used call e) :
      PieceBuiltFor t frames (.stmt ⟨.call call, span⟩) (.callStat (some e))
  | printNothing {frames : List Frame} {span : Span} :
      PieceBuiltFor t frames (.stmt ⟨.print none, span⟩) (.printStat none none)
  | print {frames : List Frame} {value : Expr} {span : Span} {ty : Ty} {e : Node}
      (typed : value.effectiveTy = some ty)
        (expr : BuiltFor (Frame.toLookup frames) .used value e) :
      PieceBuiltFor t frames (.stmt ⟨.print (some value), span⟩) (.printStat (some ty) (some e))
  | ret {frames : List Frame} {value : Expr} {span : Span} {ty : Ty} {capture : String} {e : Node}
      (typed : value.effectiveTy = some ty)
        (expr : BuiltFor (Frame.toLookup frames) .used value e) :
      PieceBuiltFor t frames (.stmt ⟨.ret value, span⟩) (.returnStat ty capture (some e))
  | blockStat {frames : List Frame} {b : Block} {span : Span} {n : Node}
      (inner : PieceBuiltFor t frames (.block b) n) :
      PieceBuiltFor t frames (.stmt ⟨.block b, span⟩) (.blockStat (some n))
  | block {frames : List Frame} {b : Block} {inner : ScopeId} {c : CBlock Node}
      {pairs : List (Stmt × Node)} (scope : b.scope = some inner) (ownScope : c.scope = some inner)
      (declares : Forall₂ t.DeclaredAs c.vars (t.localIds inner))
      (distinct : (Frame.ownVars (c.frame t :: frames)).Nodup)
      (hidesNone : ∀ p ∈ c.frame t, ∀ id, Frame.find? frames p.1 ≠ some (.var id))
      (temps : ∀ p ∈ c.temps, p.2.isTempDecl = true ∧ IsTemp t p.1) (cleanup : c.cleanup = [])
      (statements : b.statements = pairs.map fst) (stats : c.stats = pairs.map snd)
      (inside : ∀ p ∈ pairs, PieceBuiltFor t (c.frame t :: frames) (.stmt p.1) p.2) :
      PieceBuiltFor t frames (.block b) (.block c)

inductive FunctionBuiltFor (t : Table) (file : Frame) (f : Function) : Node → Prop
  | intro {id : SymbolId} {sig : Signature} {head : FuncHead} {args : List Node} {body : Node}
      (symbol : f.symbol = some id) (func : t.func? id = some sig) (name : head.name = f.name)
      (returnTy : head.returnTy = sig.returnTy) (params : Forall₂ t.ParamAs args sig.params)
      (built : PieceBuiltFor t [Frame.ofArgs args sig.params, file] (.block f.body) body) :
      FunctionBuiltFor t file f (.func head args (some body))

inductive ScriptBuiltFor (t : Table) (script : Script) : Node → Prop
  | intro {globals : List (String × Node)} {funcs : List Node} {b : CBlock Node}
      {pairs : List (Stmt × Node)}
      (declares : Forall₂ t.DeclaredAs globals (t.localIds global))
      (functions : Forall₂ (FunctionBuiltFor t (Frame.ofFile t script globals))
        script.functions funcs)
      (noVars : b.vars = []) (temps : ∀ p ∈ b.temps, p.2.isTempDecl = true ∧ IsTemp t p.1)
      (cleanup : b.cleanup = []) (statements : script.statements = pairs.map fst)
      (stats : b.stats = pairs.map snd)
      (main : ∀ p ∈ pairs,
        PieceBuiltFor t [b.frame t, Frame.ofFile t script globals] (.stmt p.1) p.2) :
      ScriptBuiltFor t script (.file globals funcs (some (.mainFunc (some (.block b)))))

/-! ## The frames of built blocks -/

namespace Frame

variable {frames : List Frame} {f : Frame} {name : String} {r : Referent}

theorem find?_cons : find? (f :: frames) name = (lookup name f <|> find? frames name) := by
  rw [find?, findSome?_cons]
  cases lookup name f <;> rfl

theorem find?_of_none (h : lookup name f = none) :
    find? (f :: frames) name = find? frames name := by
  rw [find?_cons, h]
  rfl

theorem find?_of_some (h : lookup name f = some r) : find? (f :: frames) name = some r := by
  rw [find?_cons, h]
  rfl

theorem mem_of_lookup (h : lookup name f = some r) : (name, r) ∈ f := by
  obtain ⟨before, after, rfl, -⟩ := lookup_eq_some_iff.mp h
  simp

/-- A name that is declared in one way only refers to that. -/
theorem lookup_of_mem (hmem : (c, r) ∈ f)
    (hunique : ∀ p ∈ f, p.1 = c → p.2 = r) : lookup c f = some r := by
  cases hfound : lookup c f with
  | none => simpa using lookup_eq_none_iff.mp hfound _ hmem
  | some r' => exact congrArg some (hunique (c, r') (mem_of_lookup hfound) rfl)

theorem lookup_of_nodup (hnodup : (f.map fst).Nodup)
    (hmem : (c, r) ∈ f) : lookup c f = some r :=
  lookup_of_mem hmem fun _ hp heq =>
    congrArg snd (inj_on_of_nodup_map hnodup hp hmem heq)

theorem lookup_of_not_mem (h : name ∉ f.map fst) : lookup name f = none :=
  lookup_eq_none_iff.mpr fun _ hp => bne_iff_ne.mpr fun heq =>
    h (heq ▸ mem_map_of_mem hp)

end Frame

namespace Build

variable {t : Table} {names names' : Names} {ids : List SymbolId} {temps : List (String × Node)}
  {x : String}

/-- The variables among symbols under their C names. -/
def varFrame (t : Table) (names : Names) (ids : List SymbolId) : Frame :=
  ids.filterMap fun id => (t.var? id).map fun v => (names.cName id v.name, .var id)

/-- The declared variables in order, each with its symbol. -/
theorem zip_declared (ht : t.Typed)
    (hids : ∀ id ∈ ids, ∀ v, t.var? id = some v → v.isParameter = false) :
    ((declared t names ids).map fst).zip
      ((ids.filter fun id => (t.var? id).any fun v => !v.isParameter).map Referent.var) =
        varFrame t names ids ∧
      Forall₂ t.DeclaredAs ((declared t names ids).map declOf)
        (ids.filter fun id => (t.var? id).any fun v => !v.isParameter) := by
  induction ids with
  | nil => exact ⟨rfl, .nil⟩
  | cons id ids ih =>
    obtain ⟨hzip, hdecl⟩ := ih fun i hi => hids i (.tail id hi)
    cases hv : t.var? id with
    | none =>
      simp only [declared, varFrame, filterMap_cons, filter_cons, hv] at hzip hdecl ⊢
      exact ⟨hzip, hdecl⟩
    | some v =>
      obtain ⟨ty, hty, -⟩ := ht.typed hv
      have hparam := hids id (.head _) v hv
      simp only [declared, varFrame, filterMap_cons, filter_cons, hv, hparam,
        Option.bind_some, hty, Option.map_some, Option.any_some, Bool.not_false, if_true,
        map_cons, zip_cons_cons] at hzip hdecl ⊢
      exact ⟨congrArg _ hzip, .cons ⟨v, ty, hv, hty, rfl⟩ hdecl⟩

theorem keys_varFrame (ht : t.Typed) :
    (varFrame t names ids).map fst = (declared t names ids).map fst := by
  induction ids with
  | nil => rfl
  | cons id ids ih =>
    cases hv : t.var? id with
    | none => simpa [declared, varFrame, filterMap_cons, hv] using ih
    | some v =>
      obtain ⟨ty, hty, -⟩ := ht.typed hv
      simpa [declared, varFrame, filterMap_cons, hv, hty] using ih

theorem vars_varFrame : Frame.vars (varFrame t names ids) = (varFrame t names ids).map fst := by
  unfold Frame.vars varFrame
  induction ids with
  | nil => rfl
  | cons id ids ih => cases hv : t.var? id <;> simp [hv, ih]

def tempFrame (temps : List (String × Node)) : Frame := temps.map fun p => (p.1, .temp)

theorem frame_eq (ht : t.Typed) {scope : ScopeId} {b : CBlock Node}
    (hids : ∀ id ∈ t.symbolsOf scope, ∀ v, t.var? id = some v → v.isParameter = false)
    (hlocals : b.locals = (declared t names (t.symbolsOf scope)).map declOf)
    (hscope : b.scope = some scope) :
    b.frame t = varFrame t names (t.symbolsOf scope) ++ tempFrame b.temps ∧
      Forall₂ t.DeclaredAs b.vars (t.localIds scope) := by
  have hvariables : b.vars = (declared t names (t.symbolsOf scope)).map declOf := by
    rw [CBlock.vars, hlocals, filter_eq_self]
    intro p hp
    obtain ⟨q, -, rfl⟩ := mem_map.mp hp
    rfl
  have htemps : (b.locals.filter fun p => p.2.isTempDecl) = [] := by
    rw [hlocals, filter_eq_nil_iff]
    intro p hp
    obtain ⟨q, -, rfl⟩ := mem_map.mp hp
    exact Bool.false_ne_true
  obtain ⟨hzip, hdecl⟩ : _ ∧ Forall₂ t.DeclaredAs
      ((declared t names (t.symbolsOf scope)).map declOf) (t.localIds scope) := zip_declared ht hids
  refine ⟨?_, hvariables ▸ hdecl⟩
  rw [CBlock.frame, hvariables, htemps, hscope, map_map, nil_append, ← hzip]
  rfl

/-! ## Temporaries -/

theorem lookup_tempFrame (hp : p ∈ temps) : lookup p.1 (tempFrame temps) = some .temp := by
  induction temps with
  | nil => cases hp
  | cons q temps ih =>
    rw [tempFrame, map_cons, lookup_cons]
    rcases mem_cons.mp hp with rfl | hp
    · simp
    · split
      · rfl
      · exact ih hp

theorem keys_insertEntry {key : String} {value : α} {entries : List (String × α)} :
    x ∈ (insertEntry key value entries).map fst ↔ x = key ∨ x ∈ entries.map fst := by
  induction entries with
  | nil => simp [insertEntry]
  | cons entry entries ih =>
    rw [insertEntry]
    grind

theorem keys_insertEntries {entries new : List (String × α)} :
    x ∈ (insertEntries entries new).map fst ↔
      x ∈ entries.map fst ∨ x ∈ new.map fst := by
  induction new generalizing entries with
  | nil => simp [insertEntries]
  | cons e new ih =>
    show x ∈ (insertEntries (insertEntry e.1 e.2 entries) new).map fst ↔ _
    rw [ih, keys_insertEntry, map_cons, mem_cons]
    exact or_assoc.trans or_left_comm

/-- The declared temporaries are the bound ones. -/
theorem keys_tempDecls {scratch : List (String × Ty)} :
    x ∈ (tempDecls scratch).map fst ↔ x ∈ scratch.map fst := by
  rw [tempDecls, keys_insertEntries, map_map]
  simp

/-- The bound temporaries of the present block are temporaries. -/
def Names.Tidy (t : Table) (names : Names) : Prop := ∀ p ∈ names.scratch, IsTemp t p.1

theorem isTemp_tempDecls (h : names.Tidy t) : ∀ p ∈ tempDecls names.scratch, IsTemp t p.1 := by
  intro p hp
  obtain ⟨q, hq, heq⟩ := mem_map.mp (keys_tempDecls.mp (mem_map_of_mem hp))
  exact heq ▸ h q hq

theorem Names.Adds.tidy (h : names.Adds names') (hgood : names.Good t) (htidy : names.Tidy t) :
    names'.Tidy t := by
  intro p hp
  rcases h.fresh p hp with hp | ⟨n, hn, hnot⟩
  · exact htidy p hp
  · exact ⟨n, hn, fun hmem => hnot (hgood.covers _ hmem)⟩

/-! ## Visible names -/

/-- The C name of a variable is taken, and it is a name of the program only if it is the name of the
variable itself. -/
theorem Names.Good.cName (h : names.Good t) (hx : x ∈ t.names) (id : SymbolId) :
    IsVarName t (names.cName id x) ∧ names.cName id x ∈ names.taken ∧
      (names.cName id x ∈ t.names → names.cName id x = x) := by
  unfold Names.cName
  cases hlookup : names.renamed.lookup id with
  | none => exact ⟨.inl hx, h.covers x hx, fun _ => rfl⟩
  | some c =>
    obtain ⟨hvariant, htaken, hnot⟩ :=
      h.renamed (id, c) (lookup_eq_some_iff.mp hlookup |> fun ⟨_, _, heq, _⟩ => by simp [heq])
    exact ⟨.inr hvariant, htaken, fun hmem => absurd hmem hnot⟩

variable {nest : Nest} {scope outer inner : ScopeId} {frames : List Frame}

/-- In a scope, inside frames, the names stand for what they stand for in the script. -/
structure Visible (t : Table) (nest : Nest) (names : Names) (scope : ScopeId)
    (frames : List Frame) : Prop where
  var : ∀ {x id v}, t.resolve scope x = some id → t.var? id = some v →
    Frame.find? frames (names.cName id x) = some (.var id)
  func : ∀ {x id f}, t.resolve scope x = some id → t.func? id = some f →
    Frame.find? frames x = some (.func id)
  distinct : (Frame.ownVars frames).Nodup
  covered : ∀ x ∈ Frame.ownVars frames, ∃ q ∈ nest, x ∈ q.2
  /-- The C name of a variable is taken, and if it is a name of the program, then that name stands
  for a variable, too. -/
  shown : ∀ {c id}, Frame.find? frames c = some (.var id) → IsVarName t c ∧ c ∈ names.taken ∧
    (c ∈ t.names → ∃ id' v, t.resolve scope c = some id' ∧ t.var? id' = some v)
  nonempty : frames ≠ []

/-- The variables that names stand for in a scope are none of the given ones. -/
def Apart (t : Table) (scope : ScopeId) (ids : List SymbolId) : Prop :=
  ∀ {x id v}, t.resolve scope x = some id → t.var? id = some v → id ∉ ids

theorem Apart.mono {ids' : List SymbolId} (h : Apart t scope ids) (hsub : ids' ⊆ ids) :
    Apart t scope ids' :=
  fun hr hv hid => h hr hv (hsub hid)

theorem Visible.mono (h : Visible t nest names scope frames) (hgrows : names.Grows names' ids)
    (hapart : Apart t scope ids) : Visible t nest names' scope frames :=
  { h with
    var := fun {x id v} hr hv => by
      rw [Names.cName, hgrows.stable id (hapart hr hv)]
      exact h.var hr hv
    shown := fun {c id} hc => by
      obtain ⟨hvar, htaken, hresolve⟩ := h.shown hc
      exact ⟨hvar, hgrows.taken c htaken, hresolve⟩ }

/-- A name that is taken is not captured by the variables and temporaries of a scope that is
entered, unless it stands for a variable there. -/
theorem lookup_eq_none (ht : t.Typed) (hdecl : Declared t inner names (t.symbolsOf inner) names')
    (htemps : ∀ p ∈ temps, IsTemp t p.1) (hvar : IsVarName t c)
    (htaken : c ∈ names.taken) (hlocal : c ∈ t.names → t.resolveLocal inner c = none) :
    lookup c (varFrame t names' (t.symbolsOf inner) ++ tempFrame temps) = none := by
  refine Frame.lookup_of_not_mem fun hmem => ?_
  rw [map_append, mem_append, keys_varFrame ht] at hmem
  rcases hmem with hmem | hmem
  · obtain ⟨p, hp, rfl⟩ := mem_map.mp hmem
    rcases hdecl.fresh p hp with hfresh | ⟨id, hid, v, hv, hname, -⟩
    · exact hfresh htaken
    · have hnone := hlocal (hname ▸ mem_names_of_var? hv)
      rw [← hname, ht.wellFormed.resolveLocal_eq hid hv] at hnone
      cases hnone
  · obtain ⟨q, hq, heq⟩ := mem_map.mp hmem
    obtain ⟨p, hp, rfl⟩ := mem_map.mp hq
    exact (htemps p hp).ne hvar heq

/-- A name that stands for a symbol is a name of the program. -/
theorem mem_names_of_resolve (h : t.resolve scope x = some id) : x ∈ t.names := by
  obtain ⟨symbol, hs, rfl⟩ := Option.map_eq_some_iff.mp (name_of_resolve h)
  exact mem_map_of_mem (Array.mem_toList_iff.mpr (Array.mem_of_getElem? hs))

abbrev scopeFrame (t : Table) (names : Names) (scope : ScopeId) (temps : List (String × Node)) :
    Frame :=
  varFrame t names (t.symbolsOf scope) ++ tempFrame temps

theorem lookup_own (ht : t.Typed) (hnodup : ((declared t names (t.symbolsOf inner)).map fst).Nodup)
    (temps : List (String × Node)) {v : Variable} (hid : id ∈ t.symbolsOf inner)
    (hv : t.var? id = some v) :
    lookup (names.cName id v.name) (scopeFrame t names inner temps) = some (.var id) := by
  have hmem : (names.cName id v.name, Referent.var id) ∈ varFrame t names (t.symbolsOf inner) :=
    mem_filterMap.mpr ⟨id, hid, by rw [hv]; rfl⟩
  rw [lookup_append, Frame.lookup_of_nodup (keys_varFrame ht ▸ hnodup) hmem]
  rfl

theorem lookup_temp (ht : t.Typed) (hdecl : Declared t inner names (t.symbolsOf inner) names')
    (hp : p ∈ temps) (htemp : IsTemp t p.1) :
    lookup p.1 (scopeFrame t names' inner temps) = some .temp := by
  have hnone : lookup p.1 (varFrame t names' (t.symbolsOf inner)) = none := by
    refine Frame.lookup_of_not_mem fun hmem => ?_
    rw [keys_varFrame ht] at hmem
    obtain ⟨q, hq, heq⟩ := mem_map.mp hmem
    exact htemp.ne (hdecl.varName q hq) heq.symm
  rw [lookup_append, hnone, lookup_tempFrame hp]
  rfl

theorem vars_tempFrame : Frame.vars (tempFrame temps) = [] := by
  unfold Frame.vars tempFrame
  simp

theorem vars_scopeFrame (ht : t.Typed) (temps : List (String × Node)) :
    Frame.vars (scopeFrame t names scope temps) =
      (declared t names (t.symbolsOf scope)).map fst := by
  rw [Frame.vars, filterMap_append]
  show Frame.vars _ ++ Frame.vars _ = _
  rw [vars_varFrame, keys_varFrame ht, vars_tempFrame, append_nil]

theorem Frame.ownVars_cons {f : Frame} (h : frames ≠ []) :
    Frame.ownVars (f :: frames) = f.vars ++ Frame.ownVars frames := by
  rw [Frame.ownVars, dropLast_cons_of_ne_nil h, flatMap_cons]
  rfl

/-- No name of a scope that is entered is that of a variable outside. -/
theorem Visible.hidesNone (ht : t.Typed) (h : Visible t nest names outer frames)
    (hencloses : t.Encloses outer inner) (hdecl : Declared t inner names (t.symbolsOf inner) names')
    (htemps : ∀ p ∈ temps, IsTemp t p.1) :
    ∀ p ∈ scopeFrame t names' inner temps, ∀ id, Frame.find? frames p.1 ≠ some (.var id) := by
  intro p hp id hfound
  obtain ⟨hvar, htaken, hresolve⟩ := h.shown hfound
  rcases mem_append.mp hp with hp | hp
  · obtain ⟨q, hq, heq⟩ := mem_map.mp (keys_varFrame ht ▸ mem_map_of_mem hp)
    rcases hdecl.fresh q hq with hfresh | ⟨i, -, v, hv, hname, hhides⟩
    · exact hfresh (heq ▸ htaken)
    · obtain ⟨i', w, hr, hw⟩ := hresolve (heq ▸ hname ▸ mem_names_of_var? hv)
      rw [hname, heq, hides_of_resolve hencloses hr hw] at hhides
      cases hhides
  · obtain ⟨q, hq, rfl⟩ := mem_map.mp hp
    exact (htemps q hq).ne hvar rfl

/-- **Entering a block.**  The names of a block hide nothing that is still meant inside it. -/
theorem Visible.enter (ht : t.Typed) (h : Visible t nest names outer frames)
    (hsite : Site t nest names)
    (houter : nest.head?.map fst = some outer) (hencloses : t.Encloses outer inner)
    (hvars : ∀ id ∈ t.symbolsOf inner, ∃ v, t.var? id = some v)
    (hdecl : Declared t inner names (t.symbolsOf inner) names')
    (hnodup : ((declared t names' (t.symbolsOf inner)).map fst).Nodup)
    (hapart : Apart t outer (t.symbolsOf inner)) (htemps : ∀ p ∈ temps, IsTemp t p.1) :
    Visible t ((inner, (declared t names' (t.symbolsOf inner)).map fst) :: nest) names' inner
      (scopeFrame t names' inner temps :: frames) where
  var {x id v} hr hv := by
    rcases ht.wellFormed.resolve_cases hencloses.parent hr with hlocal | ⟨hlocal, hr⟩
    · obtain ⟨hid, hname⟩ := name_of_resolveLocal hlocal
      obtain rfl := name_of_var? hname hv
      exact Frame.find?_of_some (lookup_own ht hnodup temps hid hv)
    · have hsame : names'.cName id x = names.cName id x := by
        rw [Names.cName, hdecl.grows.stable id (hapart hr hv), Names.cName]
      obtain ⟨hvar, htaken, hself⟩ := hsite.good.cName (mem_names_of_resolve hr) id
      rw [hsame, Frame.find?_of_none]
      · exact h.var hr hv
      · refine lookup_eq_none ht hdecl htemps hvar htaken fun hmem => ?_
        rw [hself hmem]
        exact hlocal
  func {x id f} hr hf := by
    rcases ht.wellFormed.resolve_cases hencloses.parent hr with hlocal | ⟨hlocal, hr⟩
    · obtain ⟨v, hv⟩ := hvars id (name_of_resolveLocal hlocal).1
      rw [func?_of_var? hv] at hf
      cases hf
    · have hx := mem_names_of_resolve hr
      rw [Frame.find?_of_none]
      · exact h.func hr hf
      · exact lookup_eq_none ht hdecl htemps (.inl hx) (hsite.good.covers x hx) fun _ => hlocal
  distinct := by
    rw [Frame.ownVars_cons h.nonempty, vars_scopeFrame ht]
    refine nodup_append.mpr ⟨hnodup, h.distinct, fun a ha b hb heq => ?_⟩
    obtain ⟨p, hp, rfl⟩ := mem_map.mp ha
    obtain ⟨q, hq, hmem⟩ := h.covered b hb
    exact hsite.named.not_mem hsite.linked ht.wellFormed houter hencloses hdecl p hp q hq
      (heq ▸ hmem)
  covered x hx := by
    rw [Frame.ownVars_cons h.nonempty, vars_scopeFrame ht, mem_append] at hx
    rcases hx with hx | hx
    · exact ⟨_, .head _, hx⟩
    · obtain ⟨q, hq, hmem⟩ := h.covered x hx
      exact ⟨q, .tail _ hq, hmem⟩
  shown {c id} hc := by
    cases hlookup : lookup c (scopeFrame t names' inner temps) with
    | some r =>
      rw [Frame.find?_of_some hlookup] at hc
      cases hc
      rcases mem_append.mp (Frame.mem_of_lookup hlookup) with hmem | hmem
      · obtain ⟨p, hp, rfl⟩ := mem_map.mp (keys_varFrame ht ▸ mem_map_of_mem hmem)
        refine ⟨hdecl.varName p hp, hdecl.taken p hp, fun hname => ?_⟩
        rcases hdecl.fresh p hp with hfresh | ⟨i, hi, v, hv, hself, -⟩
        · exact absurd (hsite.good.covers _ hname) hfresh
        · exact ⟨i, v, hself ▸ ht.wellFormed.resolve_of_mem hi hv, hv⟩
      · obtain ⟨q, -, heq⟩ := mem_map.mp hmem
        cases heq
    | none =>
      rw [Frame.find?_of_none hlookup] at hc
      obtain ⟨hvar, htaken, hresolve⟩ := h.shown hc
      refine ⟨hvar, hdecl.grows.taken c htaken, fun hname => ?_⟩
      obtain ⟨id', v, hr, hv⟩ := hresolve hname
      rw [ht.wellFormed.resolve_eq hencloses.parent]
      cases hlocal : t.resolveLocal inner c with
      | none => exact ⟨id', v, hr, hv⟩
      | some i =>
        obtain ⟨w, hw⟩ := hvars i (name_of_resolveLocal hlocal).1
        exact ⟨i, w, rfl, hw⟩
  nonempty := cons_ne_nil _ _

/-- What stands outside a block is none of its variables, and what stands inside none of those of
the blocks in it. -/
theorem Apart.enter {b : Block} (ht : t.Typed) (hencloses : t.Encloses outer inner)
    (hids : t.symbolsOf inner = definedIds b.statements) (hnodup : (definedIds b.nodes).Nodup)
    (h : Apart t outer (definedIds b.nodes)) :
    Apart t outer (t.symbolsOf inner) ∧ Apart t inner (innerIds b.statements) := by
  have hperm := BlockReady.definedIds_perm b
  refine ⟨h.mono fun id hid => hperm.mem_iff.mpr (mem_append_left _ (hids ▸ hid)), ?_⟩
  intro x id v hr hv hinner
  rcases ht.wellFormed.resolve_cases hencloses.parent hr with hlocal | ⟨hlocal, hr⟩
  · have hid := (name_of_resolveLocal hlocal).1
    grind
  · exact h hr hv (hperm.mem_iff.mpr (mem_append_right _ hinner))

end Build

end WichToC

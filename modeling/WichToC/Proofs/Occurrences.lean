import WichToC.Proofs.Reserving
import WichToC.Proofs.Statements

/-!
# Every name refers to what the script means by it

The functions of a script without errors and the script itself can be built: `Accepted.builtFor` is
the main statement about building.  Building keeps `Visible`, so in the model each name refers to
the declaration of the variable or function that it stands for in the script (`occurrences_refer`).
-/

namespace WichToC

open List WichToC.Frame Table Analysis Node

variable {ids bodies : List SymbolId} {f : Function} {sig : Signature} {p : String × Referent}

namespace Build

variable {t : Table} {names names' : Names} {scope : ScopeId} {id : SymbolId}

/-! ## Functions -/

/-- The frame of the file shows the variables and functions of the global scope. -/
structure Global (t : Table) (file : Frame) : Prop where
  var : ∀ {x id v}, t.resolve global x = some id → t.var? id = some v →
    lookup x file = some (.var id)
  func : ∀ {x id f}, t.resolve global x = some id → t.func? id = some f →
    lookup x file = some (.func id)
  shown : ∀ {c id}, lookup c file = some (.var id) →
    ∃ v, t.resolve global c = some id ∧ t.var? id = some v

/-- Parameters in order, each with its symbol. -/
theorem ofArgs_eq (h : ∀ id ∈ ids, ∃ v ty, t.var? id = some v ∧ v.ty = some ty) :
    ofArgs (argDefs (t.typedVars ids)) ids = varFrame t { taken := [] } ids ∧
      List.Forall₂ t.ParamAs (argDefs (t.typedVars ids)) ids := by
  induction ids with
  | nil => exact ⟨rfl, .nil⟩
  | cons id ids ih =>
    obtain ⟨hframe, hparams⟩ := ih fun i hi => h i (.tail id hi)
    obtain ⟨v, ty, hv, hty⟩ := h id (.head _)
    have hfirst : t.typedVars (id :: ids) = (v.name, ty) :: t.typedVars ids :=
      filterMap_cons_some (by rw [hv, Option.bind_some, hty]; rfl)
    have hvar : varFrame t { taken := [] } (id :: ids) =
        (v.name, .var id) :: varFrame t { taken := [] } ids :=
      filterMap_cons_some (by rw [hv]; rfl)
    rw [hfirst, hvar, ← hframe]
    exact ⟨rfl, .cons ⟨v, ty, hv, hty, rfl⟩ hparams⟩

/-- A variable that the file declares has a name of the program. -/
theorem Global.find?_file {file : Frame} (h : Global t file) {c : String}
    (hc : Frame.find? [file] c = some (.var id)) :
    c ∈ t.names ∧ ∃ v, t.resolve global c = some id ∧ t.var? id = some v := by
  rw [Frame.find?, findSome?_singleton] at hc
  obtain ⟨v, hr, hv⟩ := h.shown hc
  exact ⟨mem_names_of_resolve hr, v, hr, hv⟩

/-- Inside a function its parameters are visible, and around them what the file declares. -/
theorem visible_params (ht : t.Typed) (hgood : names.Good t) {file : Frame}
    (hglobal : Global t file)
    (hparent : t.parent? scope = some global) (hown : t.symbolsOf scope = ids)
    (hids : ∀ id ∈ ids, ∃ v ty, t.var? id = some v ∧ v.ty = some ty)
    (hnone : ∀ {x id v}, t.resolve scope x = some id → t.var? id = some v →
      names.renamed.lookup id = none) :
    Visible t [(scope, (t.typedVars ids).map Prod.fst)] names scope
      [ofArgs (argDefs (t.typedVars ids)) ids, file] := by
  subst hown
  obtain ⟨hframe, -⟩ := ofArgs_eq hids
  have hkeys : (varFrame t { taken := [] } (t.symbolsOf scope)).map Prod.fst =
      (t.typedVars (t.symbolsOf scope)).map Prod.fst := by
    rw [keys_varFrame ht, declared_eq_typedVars fun _ _ => rfl]
  have hnodup : ((t.typedVars (t.symbolsOf scope)).map Prod.fst).Nodup :=
    typedVars_nodup (ht.wellFormed.names scope)
  -- A name that stands for something outside is not the name of a parameter.
  have houter : ∀ {x}, t.resolveLocal scope x = none →
      lookup x (varFrame t { taken := [] } (t.symbolsOf scope)) = none := by
    intro x hlocal
    refine lookup_of_not_mem fun hmem => ?_
    obtain ⟨p, hp, rfl⟩ := mem_map.mp hmem
    obtain ⟨id, hid, hpid⟩ := mem_filterMap.mp hp
    obtain ⟨v, hv, rfl⟩ := Option.map_eq_some_iff.mp hpid
    rw [show Names.cName { taken := [] } id v.name = v.name from rfl,
      ht.wellFormed.resolveLocal_eq hid hv] at hlocal
    cases hlocal
  have hvars : ownVars [varFrame t { taken := [] } (t.symbolsOf scope), file] =
      (t.typedVars (t.symbolsOf scope)).map Prod.fst := by
    rw [Frame.ownVars_cons (cons_ne_nil _ _), vars_varFrame, hkeys]
    exact append_nil _
  rw [hframe]
  refine ⟨fun {x id v} hr hv => ?_, fun {x id f} hr hf => ?_, hvars ▸ hnodup, ?_,
    fun {c id} hc => ?_, cons_ne_nil _ _⟩
  · rw [Names.cName, hnone hr hv, Option.getD_none]
    rcases ht.wellFormed.resolve_cases hparent hr with hlocal | ⟨hlocal, hr⟩
    · obtain ⟨hid, hname⟩ := name_of_resolveLocal hlocal
      obtain rfl := name_of_var? hname hv
      refine find?_of_some (lookup_of_nodup (hkeys ▸ hnodup) ?_)
      exact mem_filterMap.mpr ⟨id, hid, by rw [hv]; rfl⟩
    · rw [find?_of_none (houter hlocal)]
      exact find?_of_some (hglobal.var hr hv)
  · rcases ht.wellFormed.resolve_cases hparent hr with hlocal | ⟨hlocal, hr⟩
    · obtain ⟨v, ty, hv, -⟩ := hids id (name_of_resolveLocal hlocal).1
      rw [func?_of_var? hv] at hf
      cases hf
    · rw [find?_of_none (houter hlocal)]
      exact find?_of_some (hglobal.func hr hf)
  · intro x hx
    rw [hvars] at hx
    exact ⟨_, .head _, hx⟩
  · rw [ht.wellFormed.resolve_eq hparent]
    have hvar : c ∈ t.names ∧ ∃ id' v, (t.resolveLocal scope c <|> t.resolve global c) = some id' ∧
        t.var? id' = some v := by
      cases hlocal : t.resolveLocal scope c with
      | some id' =>
        obtain ⟨hid, hname⟩ := name_of_resolveLocal hlocal
        obtain ⟨v, ty, hv, -⟩ := hids id' hid
        exact ⟨name_of_var? hname hv ▸ mem_names_of_var? hv, id', v, rfl, hv⟩
      | none =>
        rw [find?_of_none (houter hlocal)] at hc
        obtain ⟨hmem, v, hr, hv⟩ := hglobal.find?_file hc
        exact ⟨hmem, id, v, hr, hv⟩
    exact ⟨.inl hvar.1, hgood.covers c hvar.1, fun _ => hvar.2⟩

/-- What is known of the variables that functions see: none of them belongs to a body, and the other
ones have no C names of their own yet. -/
structure Outside (t : Table) (names : Names) (bodies : List SymbolId) : Prop where
  param : ∀ {id v}, t.var? id = some v → v.isParameter = true → id ∉ bodies
  global : Apart t global bodies
  lookup : ∀ id ∉ bodies, names.renamed.lookup id = none

theorem Outside.apart (h : Outside t names bodies) (ht : t.Typed) (hplaced : f.PlacedAs t id sig) :
    Apart t sig.scope bodies := by
  intro x i v hr hv
  rcases ht.wellFormed.resolve_cases hplaced.parent hr with hlocal | ⟨hlocal, hr⟩
  · obtain ⟨w, ty, hw, -, hwparam⟩ :=
      params_of_placedAs hplaced i (hplaced.own ▸ (name_of_resolveLocal hlocal).1)
    exact h.param hw hwparam
  · exact h.global hr hv

theorem restart_builds : Builds restart names fun _ names' => names' = { names with next := 0 } :=
  ⟨_, _, rfl, rfl⟩

/-- A built function, and the names before and after building it. -/
structure BuildsFunc (t : Table) (file : Frame) (names : Names) (f : Function) (node : Node)
    (names' : Names) : Prop where
  shape : ReservesTemps t node → node.IsBuiltFunc t
  good : names'.Good t
  grows : names.Grows names' (definedIds f.body.nodes)
  scratch : names'.scratch = names.scratch
  built : FunctionBuiltFor t file f node
  binds : node.All DeclaresBound

theorem func_builds (ht : t.Typed) (hgood : names.Good t)
    {file : Frame} (hready : FuncReady t names f) (hglobal : Global t file)
    (hbody : definedIds f.body.nodes ⊆ bodies) (houtside : Outside t names bodies) :
    Builds (func t f) names fun node names' => BuildsFunc t file names f node names' := by
  obtain ⟨id, sig, hplaced⟩ := hready.placed
  have hparam := params_of_placedAs hplaced
  have hids : ∀ i ∈ sig.params, ∃ v ty, t.var? i = some v ∧ v.ty = some ty := by grind
  have hapart : Apart t sig.scope bodies := houtside.apart ht hplaced
  unfold func
  refine restart_builds.bind ?_
  rintro _ _ rfl
  have hrestart : names.Advances { names with next := 0 } := ⟨rfl, rfl⟩
  rw [hplaced.scope, hplaced.symbol, Option.bind_some, hplaced.func]
  refine (args_builds hids).bind ?_
  rintro nodes _ ⟨rfl, rfl⟩
  obtain ⟨hsite, inner, hblock⟩ := (hready.mono (hrestart.grows []) fun _ _ => not_mem_nil).body
    hplaced (hgood.advance hrestart)
  refine (block_builds_of (fun s _ => stmt_builds ht s) ht hsite hblock true).bind
    fun body names₂ hbody' => ?_
  obtain ⟨scope, vars, b, rfl, hshape, hstats⟩ := hbody'.shape
  refine .pure ⟨fun htemps => ⟨_, t.typedVars sig.params, scope, vars, b, rfl, ?_⟩, hbody'.good,
    (hrestart.grows []).trans hbody'.grows, hbody'.scratch, ?_, ?_⟩
  · exact {
      injected := rfl
      kind := hplaced.kind
      nodup := by
        rw [← hplaced.own]
        exact typedVars_nodup (ht.wellFormed.names sig.scope)
      varNames := by
        intro p hp
        obtain ⟨i, hi, v, hv, hname⟩ := mem_params hplaced (mem_map_of_mem hp)
        exact .inl (hname ▸ mem_names_of_var? hv)
      heap := by
        rw [← hplaced.own]
        refine heapParameters_eq fun v hv => ?_
        obtain ⟨i, hi, hiv⟩ := mem_filterMap.mp hv
        obtain ⟨w, ty, hw, -, hparam⟩ := hparam i (hplaced.own ▸ hi)
        cases hiv.symm.trans hw
        exact hparam
      body := hshape
      stats := hstats
      temps := htemps.child (by simp [children]) }
  · refine .intro hplaced.symbol hplaced.func rfl rfl (ofArgs_eq hids).2
      (hbody'.built _ ?_ (hapart.mono hbody))
    exact visible_params ht (hgood.advance hrestart) hglobal hplaced.parent hplaced.own hids
      fun hr hv => houtside.lookup _ (hapart hr hv)
  · refine .of_children trivial rfl
      (forall_mem_append.mpr ⟨?_, forall_mem_singleton.mpr hbody'.binds⟩)
    exact forall_mem_map.mpr fun p _ => .intro trivial (forall_mem_nil _)

/-! ## Files -/

section File

variable {script : Script} {id : SymbolId}

/-- What a name stands for in the global scope is a symbol of that scope. -/
theorem mem_global (h : ScriptReady t script) {x : String}
    (hr : t.resolve global x = some id) (hid : t.var? id ≠ none ∨ t.func? id ≠ none) :
    id ∈ t.symbolsOf global ∧ (t.symbol? id).map Symbol.name = some x := by
  have hname := name_of_resolve hr
  rcases h.typed.wellFormed.resolve_cases h.around hr with hlocal | ⟨hlocal, hr⟩
  · exact ⟨(name_of_resolveLocal hlocal).1, hname⟩
  · -- Around the global scope there is neither a variable nor a function.
    have hchain : t.chain predefined = [predefined] := by
      have hparent : (t.scope? predefined).bind Scope.parent = none := h.outermost
      rw [chain, chainFrom, hparent]
    rw [resolve, hchain, findSome?_singleton] at hr
    obtain ⟨hvar, hfunc⟩ := h.predefined id (name_of_resolveLocal hr).1
    grind

/-- A global variable is defined by a statement outside functions. -/
theorem mem_definedIds (h : ScriptReady t script) {v : Variable}
    (hid : id ∈ t.symbolsOf global) (hv : t.var? id = some v) :
    id ∈ definedIds script.statements := by
  rw [h.own] at hid
  obtain ⟨item, hitem, hdefined⟩ := mem_filterMap.mp hid
  cases item with
  | statement s => exact mem_filterMap.mpr ⟨s, Script.mem_statements.mpr hitem, hdefined⟩
  | function f =>
    obtain ⟨id', sig, hf⟩ := h.placed _ hitem
    cases hdefined.symm.trans hf.symbol
    have hfunc := hf.func
    rw [func?_of_var? hv] at hfunc
    cases hfunc

/-- A function of the global scope is one of the script. -/
theorem mem_functions (h : ScriptReady t script)
    (hid : id ∈ t.symbolsOf global) (hsig : t.func? id = some sig) :
    ∃ f ∈ script.functions, f.PlacedAs t id sig := by
  rw [h.own] at hid
  obtain ⟨item, hitem, hdefined⟩ := mem_filterMap.mp hid
  cases item with
  | function f =>
    obtain ⟨id', sig', hf⟩ := h.placed _ hitem
    cases hdefined.symm.trans hf.symbol
    cases hsig.symm.trans hf.func
    exact ⟨f, Script.mem_functions.mpr hitem, hf⟩
  | statement s =>
    have hplaced : s.Placed t global := h.placed _ hitem
    have hdefined : s.defined? = some id := hdefined
    unfold Located.defined? at hdefined
    split at hdefined
    · rename_i hk
      cases hplaced with
      | intro define _ _ =>
        obtain ⟨id', v, hid', hv, -⟩ := define hk
        cases hdefined.symm.trans hid'
        rw [func?_of_var? hv] at hsig
        cases hsig
    · cases hdefined

/-- The functions of a script with their symbols. -/
def funcFrame (script : Script) : Frame :=
  script.functions.filterMap fun f => f.symbol.map fun id => (f.name, .func id)

theorem ofFile_eq (h : ScriptReady t script) :
    ofFile t script ((declared t names (t.symbolsOf global)).map declOf) =
      varFrame t names (t.symbolsOf global) ++ funcFrame script := by
  rw [ofFile, map_map, ← (zip_declared h.typed h.noParams).1]
  rfl

/-- A variable of the file is declared under the name of its symbol. -/
theorem mem_globalVars (hnone : ∀ id, names.renamed.lookup id = none)
    (hp : p ∈ varFrame t names (t.symbolsOf global)) :
    ∃ id ∈ t.symbolsOf global, p.2 = .var id ∧ (∃ v, t.var? id = some v) ∧
      (t.symbol? id).map Symbol.name = some p.1 := by
  obtain ⟨id, hid, hpid⟩ := mem_filterMap.mp hp
  obtain ⟨v, hv, rfl⟩ := Option.map_eq_some_iff.mp hpid
  refine ⟨id, hid, rfl, ⟨v, hv⟩, ?_⟩
  rw [Names.cName, hnone]
  exact name?_of_var? hv

section

variable (h : ScriptReady t script)

include h

/-- A function of the file is declared under the name of its symbol. -/
theorem mem_funcFrame (hp : p ∈ funcFrame script) :
    ∃ id ∈ t.symbolsOf global, p.2 = .func id ∧ (t.symbol? id).map Symbol.name = some p.1 := by
  obtain ⟨f, hf, hpf⟩ := mem_filterMap.mp hp
  have hitem := Script.mem_functions.mp hf
  obtain ⟨id, sig, hplaced⟩ := h.placed _ hitem
  rw [hplaced.symbol] at hpf
  cases hpf
  refine ⟨id, ?_, rfl, ?_⟩
  · rw [h.own]
    exact mem_filterMap.mpr ⟨_, hitem, hplaced.symbol⟩
  · obtain ⟨symbol, hs, hsf⟩ := Option.bind_eq_some_iff.mp hplaced.func
    cases symbol <;> cases hsf
    rw [hs]
    exact congrArg some hplaced.name

/-- The file declares the variables and functions of the script under their names. -/
theorem global_ofFile (hnone : ∀ id, names.renamed.lookup id = none) :
    Global t (ofFile t script ((declared t names (t.symbolsOf global)).map declOf)) := by
  have ht := h.typed
  rw [ofFile_eq h]
  refine ⟨fun {x id v} hr hv => ?_, fun {x id sig} hr hsig => ?_, fun {c id} hc => ?_⟩
  · obtain ⟨hid, hname⟩ := mem_global h hr (.inl (by rw [hv]; exact Option.some_ne_none v))
    have hmem : (x, Referent.var id) ∈ varFrame t names (t.symbolsOf global) := by
      refine mem_filterMap.mpr ⟨id, hid, ?_⟩
      rw [hv, Option.map_some, Names.cName, hnone, Option.getD_none, name_of_var? hname hv]
    rw [lookup_append, lookup_of_mem hmem fun p hp hpx => ?_]
    · rfl
    · obtain ⟨id', hid', heq, -, hname'⟩ := mem_globalVars hnone hp
      rw [heq, ht.wellFormed.eq_of_name hid' hid hname' (hpx ▸ hname)]
  · obtain ⟨hid, hname⟩ :=
      mem_global h hr (.inr (by rw [hsig]; exact Option.some_ne_none sig))
    obtain ⟨f, hf, hplaced⟩ := mem_functions h hid hsig
    have hx : f.name = x := by
      obtain ⟨symbol, hs, hsf⟩ := Option.bind_eq_some_iff.mp hsig
      rw [hs] at hname
      cases symbol <;> cases hsf
      exact hplaced.name.symm.trans (Option.some.inj hname)
    have hmem : (x, Referent.func id) ∈ funcFrame script :=
      mem_filterMap.mpr ⟨f, hf, by rw [hplaced.symbol, Option.map_some, hx]⟩
    rw [lookup_append, lookup_of_not_mem, Option.none_or, lookup_of_mem hmem]
    · intro p hp hpx
      obtain ⟨id', hid', heq, hname'⟩ := mem_funcFrame h hp
      rw [heq, ht.wellFormed.eq_of_name hid' hid hname' (hpx ▸ hname)]
    · intro hkey
      obtain ⟨p, hp, hpx⟩ := mem_map.mp hkey
      obtain ⟨id', hid', -, ⟨v, hv⟩, hname'⟩ := mem_globalVars hnone hp
      obtain rfl := ht.wellFormed.eq_of_name hid' hid hname' (hpx ▸ hname)
      rw [func?_of_var? hv] at hsig
      cases hsig
  · rcases mem_append.mp (mem_of_lookup hc) with hmem | hmem
    · obtain ⟨_, hid, hself, ⟨v, hv⟩, hname⟩ := mem_globalVars hnone hmem
      cases hself
      obtain rfl : v.name = c := name_of_var? hname hv
      exact ⟨v, ht.wellFormed.resolve_of_mem hid hv, hv⟩
    · obtain ⟨_, -, hself, -⟩ := mem_funcFrame h hmem
      cases hself

theorem outside_of_ready (hnone : ∀ id ∉ bodyIds script.functions, names.renamed.lookup id = none) :
    Outside t names (bodyIds script.functions) where
  param {id v} hv hparam hid := by
    obtain ⟨f, hf, hid⟩ := mem_flatMap.mp hid
    obtain ⟨s, hs, hsid⟩ := mem_filterMap.mp hid
    unfold Located.defined? at hsid
    split at hsid
    · rename_i hk
      obtain ⟨id', w, ty, hid', hw, -, hnot, -⟩ := (h.functions f hf s hs).define hk
      grind
    · cases hsid
  global {x id v} hr hv hid := by
    have hmem := mem_definedIds h
      (mem_global h hr (.inl (by rw [hv]; exact Option.some_ne_none v))).1 hv
    have hall := (allDefinedIds_perm script.statements).mem_iff.mpr (mem_append_left _ hmem)
    exact (nodup_append.mp h.definedIds_nodup).2.2 id hid id hall rfl
  lookup := hnone

theorem funcs_builds {file : Frame} (hglobal : Global t file)
    (hgood : names.Good t) {fs : List Function} (hfs : fs ⊆ script.functions)
    (hready : ∀ f ∈ fs, FuncReady t names f) (hnodup : (bodyIds fs).Nodup)
    (hnone : ∀ id ∉ bodyIds script.functions, names.renamed.lookup id = none) :
    Builds (fs.mapM (func t)) names fun nodes names' =>
      names'.Good t ∧ names.Grows names' (bodyIds fs) ∧ names'.scratch = names.scratch ∧
        List.Forall₂ (FunctionBuiltFor t file) fs nodes ∧
          ∀ n ∈ nodes, (ReservesTemps t n → n.IsBuiltFunc t) ∧ n.All DeclaresBound := by
  induction fs generalizing names with
  | nil => exact .pure ⟨hgood, ⟨fun _ h => h, fun _ _ => rfl⟩, rfl, .nil, nofun⟩
  | cons f fs ih =>
    have hf := hfs (.head _)
    have hbody : definedIds f.body.nodes ⊆ bodyIds script.functions :=
      fun id hid => mem_flatMap.mpr ⟨f, hf, hid⟩
    rw [bodyIds, flatMap_cons, nodup_append] at hnodup
    rw [mapM_cons]
    refine (func_builds h.typed hgood (hready f (.head _)) hglobal hbody
      (outside_of_ready h hnone)).bind fun node names₁ hnode => ?_
    refine (ih hnode.good (fun g hg => hfs (.tail f hg)) (fun g hg => ?_)
      hnodup.2.1 fun id hid => ?_).bind ?_
    · refine (hready g (.tail f hg)).mono hnode.grows fun id hid hf => ?_
      grind
    · rw [hnode.grows.stable id fun hmem => hid (hbody hmem)]
      exact hnone id hid
    · rintro nodes names₂ ⟨hgood₂, hgrows, hscratch, hbuilt, hnodes⟩
      exact .pure ⟨hgood₂, hnode.grows.trans hgrows, hscratch.trans hnode.scratch,
        .cons hnode.built hbuilt, forall_mem_cons.mpr ⟨⟨hnode.shape, hnode.binds⟩, hnodes⟩⟩

end

/-- In the main function the variables and functions of the file are visible. -/
theorem visible_main (hgood : names.Good t) {file : Frame} (hglobal : Global t file)
    {q : ScopeId × List String}
    {temps : List (String × Node)} (htemps : ∀ p ∈ temps, IsTemp t p.1)
    (hnone : ∀ {x id v}, t.resolve global x = some id → t.var? id = some v →
      names.renamed.lookup id = none) :
    Visible t [q] names global [tempFrame temps, file] := by
  have houter : ∀ {x id}, t.resolve global x = some id →
      lookup x (tempFrame temps) = none := by
    intro x id hr
    refine lookup_of_not_mem fun hmem => ?_
    obtain ⟨p, hp, hpx⟩ := mem_map.mp hmem
    obtain ⟨temp, htemp, rfl⟩ := mem_map.mp hp
    exact (htemps temp htemp).ne (.inl (mem_names_of_resolve hr)) hpx
  have hvars : ownVars [tempFrame temps, file] = [] := by
    rw [Frame.ownVars_cons (cons_ne_nil _ _), vars_tempFrame]
    rfl
  refine ⟨fun {x id v} hr hv => ?_, fun {x id f} hr hf => ?_, hvars ▸ nodup_nil, ?_,
    fun {c id} hc => ?_, cons_ne_nil _ _⟩
  · rw [Names.cName, hnone hr hv, Option.getD_none, find?_of_none (houter hr)]
    exact find?_of_some (hglobal.var hr hv)
  · rw [find?_of_none (houter hr)]
    exact find?_of_some (hglobal.func hr hf)
  · rw [hvars]
    simp
  · cases hlookup : lookup c (tempFrame temps) with
    | some r =>
      rw [find?_of_some hlookup] at hc
      cases hc
      obtain ⟨q, -, heq⟩ := mem_map.mp (mem_of_lookup hlookup)
      cases heq
    | none =>
      rw [find?_of_none hlookup] at hc
      obtain ⟨hmem, v, hr, hv⟩ := hglobal.find?_file hc
      exact ⟨.inl hmem, hgood.covers c hmem, fun _ => ⟨id, v, hr, hv⟩⟩

theorem file_builds (h : ScriptReady t script) (hgood : names.Good t)
    (hrenamed : names.renamed = []) (hscratch : names.scratch = []) :
    Builds (file t script) names fun node _ =>
      (∀ {globals funcs main}, node = .file globals funcs (some main) →
        (∀ f ∈ main :: funcs, ReservesTemps t f) → node.IsBuiltFile t) ∧
      ScriptBuiltFor t script node ∧ node.All DeclaresBound := by
  have ht := h.typed
  have hnodup := h.definedIds_nodup
  have hstatIds := allDefinedIds_perm script.statements
  rw [file, h.scope]
  refine (h.globals hgood hrenamed).bind ?_
  rintro _ names₁ ⟨rfl, hkeys, hdecl, hnone₁⟩
  have hglobal := global_ofFile h hnone₁
  refine (funcs_builds h hglobal hdecl.good (fun _ hf => hf) (fun f hf => h.funcReady hnone₁ hf)
    (nodup_append.mp hnodup).1 fun id _ => hnone₁ id).bind ?_
  rintro funcs names₂ ⟨hgood₂, hgrows₂, hscratch₂, hfuncs, hbinds₂⟩
  refine restart_builds.bind ?_
  rintro _ _ rfl
  have hrestart : names₂.Advances { names₂ with next := 0 } := ⟨rfl, rfl⟩
  have hnone₂ : ∀ id ∉ bodyIds script.functions, names₂.renamed.lookup id = none := fun id hid =>
    (hgrows₂.stable id hid).trans (hnone₁ id)
  have hnone₃ : ∀ id ∈ allDefinedIds script.statements, names₂.renamed.lookup id = none :=
    fun id hid => hnone₂ id fun hbody => (nodup_append.mp hnodup).2.2 id hbody id hid rfl
  obtain ⟨hsite, hready⟩ := h.main hgood hdecl (hgood₂.advance hrestart)
    (hgrows₂.trans (hrestart.grows [])) hnone₃
  refine (stmts_builds_of (fun s _ => stmt_builds ht s) hsite hready).bind fun stats names₄
    hstats => ?_
  refine (swapScratch_builds []).bind ?_
  rintro _ _ ⟨rfl, rfl⟩
  let b : CBlock Node :=
    { temps := tempDecls names₄.scratch, stats := stats, scope := some global,
      isFunctionBody := true }
  have hbound := tempDecls_isTempDecl names₄.scratch
  have hempty : names₂.scratch = [] := (hscratch₂.trans hdecl.scratch).trans hscratch
  have htemps : ∀ p ∈ tempDecls names₄.scratch, IsTemp t p.1 :=
    isTemp_tempDecls (hstats.tidy (by unfold Names.Tidy; rw [hempty]; simp))
  refine .pure ⟨?_, ?_, ?_⟩
  · rintro _ _ _ ⟨⟩ hreserves
    obtain ⟨hmain, hreserved⟩ := forall_mem_cons.mp hreserves
    exact ⟨declared t names₁ (t.symbolsOf global), funcs, b, rfl,
      fun f hf => (hbinds₂ f hf).1 (hreserved f hf), {
      nodup := hkeys
      varNames := hdecl.varName
      kind := h.kind
      heap := by
        rw [declared_eq_typedVars fun id _ => hnone₁ id]
        refine heapVariables_eq fun v hv => ?_
        obtain ⟨id, hid, hiv⟩ := mem_filterMap.mp hv
        exact h.noParams id hid v hiv
      ownScope := rfl
      locals := rfl
      bound := hbound
      defs := by
        rw [h.own, Script.declared_items h.placed]
        refine hstats.defs.trans (declared_congr fun id hid => ?_)
        have hall := hstatIds.mem_iff.mpr (mem_append_left _ hid)
        rw [hstats.grows.stable id, hnone₃ id hall, hnone₁ id]
        grind
      cleanup := rfl
      body := rfl
      injected := rfl
      stats := hstats.stats
      temps := hmain.child (.head _) }⟩
  · have hinGlobal : ∀ {x id v}, t.resolve global x = some id → t.var? id = some v →
        id ∈ definedIds script.statements := fun {x id v} hr hv =>
      mem_definedIds h (mem_global h hr (.inl (by rw [hv]; exact Option.some_ne_none v))).1 hv
    obtain ⟨pairs, hstatements, hnodes, hbuilt⟩ := hstats.built
      [tempFrame (tempDecls names₄.scratch),
        ofFile t script ((declared t names₁ (t.symbolsOf global)).map declOf)]
      (visible_main (hgood₂.advance hrestart) hglobal htemps fun hr hv =>
        hnone₂ _ ((outside_of_ready h hnone₂).global hr hv))
      (fun {x id v} hr hv hinner =>
        (nodup_append.mp hready.nodup).2.2 id (hinGlobal hr hv) id hinner rfl)
      fun p hp => by
        obtain ⟨q, hq, heq⟩ := mem_map.mp (keys_tempDecls.mpr (mem_map_of_mem hp))
        exact heq ▸ find?_of_some (lookup_tempFrame hq)
    exact .intro (zip_declared ht h.noParams).2 hfuncs rfl
      (fun p hp => ⟨isTempDecl_tempDecls _ p hp, htemps p hp⟩) rfl hstatements hnodes hbuilt
  · have hglobals : ∀ p ∈ (declared t names₁ (t.symbolsOf global)).map declOf,
        p.2.All DeclaresBound := forall_mem_map.mpr fun _ _ => .intro trivial (forall_mem_nil _)
    refine .of_children trivial rfl (forall_mem_append.mpr ⟨forall_mem_map.mpr hglobals,
      forall_mem_append.mpr ⟨fun f hf => (hbinds₂ f hf).2,
        forall_mem_singleton.mpr (.over trivial rfl ?_)⟩⟩)
    exact declaresBound_block (by simp) rfl rfl hstats.binds

end File

end Build

namespace Accepted

variable {base table : Table} {script : Script}

/-- **Building scripts.**  The model of a script without errors can be built, and it is built for
the script. -/
theorem builtFor (h : Accepted base script table) : ∃ model, ofScript script table = .ok model ∧
    model.IsBuiltFile table ∧ ScriptBuiltFor table script model ∧ model.All Node.DeclaresBound := by
  have hnames : Build.Names.Accounted table { taken := table.names } := .initial table
  obtain ⟨model, names, hok, hshape, hfile⟩ := Build.file_builds h.scriptReady hnames.good rfl rfl
  obtain ⟨-, globals, funcs, main, hmodel, hreserves⟩ := Build.file_reserves hnames hok
  refine ⟨model, ?_, hshape hmodel hreserves, hfile⟩
  rw [Node.ofScript, StateT.run, hok]
  rfl

theorem ofScript (h : Accepted base script table) :
    ∃ model, ofScript script table = .ok model ∧ model.IsBuiltFile table := by
  obtain ⟨model, hok, hfile, -⟩ := h.builtFor
  exact ⟨model, hok, hfile⟩

end Accepted

/-- **Names refer to what the script means by them.**  In a script without errors every name has the
symbol that it stands for in its scope.  In the model, every variable that is read, defined or
assigned, every bound temporary and every called function is found by the C rules of scoping as the
declaration of its own symbol, and the parameters and variables of a function that are visible
together have different C names. -/
theorem occurrences_refer (source : String) (report : Report)
    (h : (ofSource source report).report.hasErrors = false) :
    (ofSource source report).script.Resolved (ofSource source report).table ∧
      ∃ model, ofScript (ofSource source report).script
          (ofSource source report).table = .ok model ∧
        ScriptBuiltFor (ofSource source report).table
          (ofSource source report).script model := by
  obtain ⟨base, hacc⟩ := accepted h
  obtain ⟨model, hmodel, -, hbuilt, -⟩ := hacc.builtFor
  exact ⟨resolved h, model, hmodel, hbuilt⟩

/-- A script whose local variables hide parameters, global variables and functions. -/
def hidingLocals : String :=
  "var x = 1\nfunc y(a : int) : int \x7b\n  var x = a\n" ++
  "  if (x < 2) \x7b var a = x var y = [1, 2] + a x = a \x7d\n  return x\n\x7d\n" ++
  "\x7b var z = y(x) \x7b var x = z x = x + y(x) \x7d \x7d\n"

set_option maxRecDepth 20000 in
/-- The script with hiding variables is accepted, and its names refer to what they mean. -/
theorem occurrences_refer_hidingLocals : (ofSource hidingLocals {}).report.hasErrors = false ∧
      (ofSource hidingLocals {}).script.Resolved (ofSource hidingLocals {}).table ∧
        ∃ model, ofScript (ofSource hidingLocals {}).script
            (ofSource hidingLocals {}).table = .ok model ∧
          ScriptBuiltFor (ofSource hidingLocals {}).table
            (ofSource hidingLocals {}).script model :=
  have haccepted : (ofSource hidingLocals {}).report.hasErrors = false := by decide +kernel
  ⟨haccepted, occurrences_refer hidingLocals {} haccepted⟩

end WichToC

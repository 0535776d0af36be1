import WichToC.Proofs.Building

/-!
# Names in nested scopes

A variable of a block gets a name of its own if its name stands for a variable outside.  So the C
names of all variables that are visible together in a function are different, apart from the names
of functions: `Build.localsOf_builds` says which names the variables of a scope get, and
`Nest.Named.not_mem` that these are not the names of the variables around it.
-/

namespace WichToC

open List Option Build Prod

variable {name key c : String} {v : Variable} {α : Type} {ids' ids : List SymbolId}

namespace Table

variable {t t' : Table} {s p : ScopeId} {id : SymbolId} {v : Variable}

theorem WellFormed.retypes (h : t.WellFormed) (hret : t.Retypes t') : t'.WellFormed where
  parent hp := h.parent (by rwa [hret.parent?] at hp)
  bound i id hid := by
    rw [hret.symbolsOf] at hid
    have hsome : (t.symbol? id).isSome := by simp [symbol?, h.bound i id hid]
    have hsome' : (t'.symbol? id).isSome := by
      have := congrArg isSome (hret.name? id)
      simpa [hsome] using this
    simpa [symbol?] using hsome'
  names i := by
    rw [hret.symbolsOf]
    simpa only [hret.name?] using h.names i

theorem Encloses.retypes {outer inner : ScopeId} (h : t.Encloses outer inner)
    (hret : t.Retypes t') : t'.Encloses outer inner :=
  ⟨(hret.kind? _).trans h.kind, (hret.parent? _).trans h.parent, h.lt⟩

/-! ## Scopes outwards -/

theorem WellFormed.resolve_eq (h : t.WellFormed) (hp : t.parent? s = some p) (name : String) :
    t.resolve s name = (t.resolveLocal s name <|> t.resolve p name) := by
  rw [resolve, h.chain_eq hp, findSome?_cons]
  cases t.resolveLocal s name <;> rfl

theorem WellFormed.resolve_cases (h : t.WellFormed) (hp : t.parent? s = some p)
    (hr : t.resolve s name = some id) :
    t.resolveLocal s name = some id ∨ t.resolveLocal s name = none ∧
      t.resolve p name = some id := by
  rw [h.resolve_eq hp] at hr
  cases hlocal : t.resolveLocal s name <;> rw [hlocal] at hr
  · exact .inr ⟨rfl, hr⟩
  · exact .inl hr

theorem mem_names_of_var? (hv : t.var? id = some v) : v.name ∈ t.names := by
  obtain ⟨symbol, hs, hname⟩ := map_eq_some_iff.mp (name?_of_var? hv)
  rw [← hname]
  exact mem_map_of_mem (Array.mem_toList_iff.mpr (Array.mem_of_getElem? hs))

theorem Retypes.mem_names (h : t.Retypes t') (hv : t.var? id = some v) : v.name ∈ t'.names := by
  obtain ⟨ty, hv', -⟩ := h.var? hv
  exact mem_names_of_var? (v := { v with ty := ty }) hv'

/-- The symbols of a scope have different names. -/
theorem WellFormed.eq_of_name (h : t.WellFormed) {a b : SymbolId}
    (ha : a ∈ t.symbolsOf s) (hb : b ∈ t.symbolsOf s)
    (hna : (t.symbol? a).map Symbol.name = some name)
    (hnb : (t.symbol? b).map Symbol.name = some name) : a = b := by
  have hnodup : ((t.symbolsOf s).map fun id => (t.symbol? id).map Symbol.name).Nodup :=
    pairwise_map.mpr (h.names s)
  exact inj_on_of_nodup_map hnodup ha hb (hna.trans hnb.symm)

section

variable (h : t.WellFormed) (hid : id ∈ t.symbolsOf s) (hv : t.var? id = some v)

include h hid hv

/-- A variable of a scope is what its name stands for there. -/
theorem WellFormed.resolveLocal_eq : t.resolveLocal s v.name = some id := by
  have hname := name?_of_var? hv
  cases hr : t.resolveLocal s v.name with
  | none =>
    have := find?_eq_none.mp hr id hid
    simp [hname] at this
  | some id' =>
    obtain ⟨hmem, hname'⟩ := name_of_resolveLocal hr
    exact congrArg some (h.eq_of_name hmem hid hname' hname)

theorem WellFormed.resolve_of_mem : t.resolve s v.name = some id := by
  rw [resolve, chain, chainFrom]
  split <;> simp [h.resolveLocal_eq hid hv]

end

end Table

/-! ## Nests of scopes -/

/-- The scopes around a statement in its function, the innermost first, each with the C names of its
variables.  The last one is the scope of the parameters, or the global scope for a statement outside
functions. -/
abbrev Nest := List (ScopeId × List String)

namespace Nest

/-- Each scope belongs to a block in the next one and holds variables only. -/
inductive Linked (t : Table) : Nest → Prop
  | bottom (p : ScopeId × List String) : Linked t [p]
  | push {inner outer : ScopeId × List String} {rest : Nest}
      (encloses : t.Encloses outer.1 inner.1)
      (vars : ∀ id ∈ t.symbolsOf inner.1, ∃ v, t.var? id = some v)
      (linked : Linked t (outer :: rest)) : Linked t (inner :: outer :: rest)

/-- The C names are taken, and one that is a name of the program belongs to a variable of that
name. -/
def Named (t : Table) (names : Names) (nest : Nest) : Prop :=
  ∀ p ∈ nest, ∀ x ∈ p.2, x ∈ names.taken ∧ (x ∈ t.names →
    ∃ id ∈ t.symbolsOf p.1, ∃ v, t.var? id = some v ∧ v.name = x)

variable {t : Table} {nest : Nest}

/-- The name of a variable of the nest stands for a variable in the innermost scope. -/
theorem Linked.resolve (h : Linked t nest) (ht : t.WellFormed) {p : ScopeId × List String}
    (hp : p ∈ nest) {id : SymbolId} (hid : id ∈ t.symbolsOf p.1)
    (hv : t.var? id = some v) :
    ∃ inner ∈ nest.head?, ∃ id' v', t.resolve inner.1 v.name = some id' ∧ t.var? id' = some v' := by
  induction h with
  | bottom q =>
    obtain rfl := mem_singleton.mp hp
    exact ⟨p, rfl, id, v, ht.resolve_of_mem hid hv, hv⟩
  | @push inner outer rest encloses vars linked ih =>
    refine ⟨inner, rfl, ?_⟩
    rw [ht.resolve_eq encloses.parent]
    cases hlocal : t.resolveLocal inner.1 v.name with
    | some id' =>
      obtain ⟨v', hv'⟩ := vars id' (Table.name_of_resolveLocal hlocal).1
      exact ⟨id', v', rfl, hv'⟩
    | none =>
      rcases mem_cons.mp hp with rfl | hp
      · rw [ht.resolveLocal_eq hid hv] at hlocal
        cases hlocal
      grind

theorem Named.mono {names names' : Names} (h : nest.Named t names)
    (htaken : names.taken ⊆ names'.taken) : nest.Named t names' :=
  fun p hp x hx => ⟨htaken (h p hp x hx).1, (h p hp x hx).2⟩

end Nest

/-! ## Declarations -/

theorem mem_insertEntry {value : α} {entries : List (String × α)}
    {p : String × α} (h : p ∈ insertEntry key value entries) : p = (key, value) ∨ p ∈ entries := by
  induction entries with
  | nil => exact .inl (mem_singleton.mp h)
  | cons entry entries ih =>
    rw [insertEntry] at h
    grind

theorem mem_insertEntries {entries new : List (String × α)} {p : String × α}
    (h : p ∈ insertEntries entries new) : p ∈ entries ∨ p ∈ new := by
  induction new generalizing entries with
  | nil => exact .inl h
  | cons q new ih =>
    rcases ih h with h | h
    · exact (mem_insertEntry h).elim (fun heq => .inr (heq ▸ .head _)) .inl
    · exact .inr (.tail q h)

theorem insertEntry_of_not_mem {value : α} {entries : List (String × α)}
    (h : key ∉ entries.map fst) : insertEntry key value entries = entries ++ [(key, value)] := by
  induction entries with
  | nil => rfl
  | cons entry entries ih =>
    rw [map_cons, mem_cons, not_or] at h
    rw [insertEntry, if_neg (Ne.symm h.1), ih h.2, cons_append]

namespace Build

variable {t : Table} {scope : ScopeId} {names names' : Names} {ids : List SymbolId} {v : Variable}
  {id : SymbolId}

/-- The C name of a variable among the names handed out. -/
def Names.cName (names : Names) (id : SymbolId) (name : String) : String :=
  (names.renamed.lookup id).getD name

/-- The variables among symbols, each with its C name and its type. -/
def declared (t : Table) (names : Names) (ids : List SymbolId) : List (String × Ty) :=
  ids.filterMap fun id =>
    (t.var? id).bind fun v => v.ty.map fun ty => (names.cName id v.name, ty)

/-- The entry that declares a variable. -/
def declOf (p : String × Ty) : String × Node := (p.1, .varDecl p.1 p.2 false)

/-- Names are added, and C names change only for the given symbols. -/
structure Names.Grows (names names' : Names) (ids : List SymbolId) : Prop where
  taken : ∀ x ∈ names.taken, x ∈ names'.taken
  stable : ∀ id ∉ ids, names'.renamed.lookup id = names.renamed.lookup id

theorem Names.Grows.trans {names'' : Names}
    (h : names.Grows names' ids) (h' : names'.Grows names'' ids') :
    names.Grows names'' (ids ++ ids') where
  taken x hx := h'.taken x (h.taken x hx)
  stable id hid := by
    rw [mem_append, not_or] at hid
    exact (h'.stable id hid.2).trans (h.stable id hid.1)

theorem Names.Grows.mono (h : names.Grows names' ids)
    (hsub : ids ⊆ ids') : names.Grows names' ids' :=
  ⟨h.taken, fun id hid => h.stable id fun hmem => hid (hsub hmem)⟩

theorem Names.Advances.grows (h : names.Advances names') (ids : List SymbolId) :
    names.Grows names' ids :=
  ⟨fun x hx => h.taken ▸ hx, fun id _ => by rw [h.renamed]⟩

/-- What declaring the variables of a scope does to the names. -/
structure Declared (t : Table) (scope : ScopeId) (names : Names) (ids : List SymbolId)
    (names' : Names) : Prop where
  good : names'.Good t
  scratch : names'.scratch = names.scratch
  grows : names.Grows names' ids
  taken : ∀ p ∈ declared t names' ids, p.1 ∈ names'.taken
  varName : ∀ p ∈ declared t names' ids, IsVarName t p.1
  /-- A C name is new, or it is the name of a variable that hides none. -/
  fresh : ∀ p ∈ declared t names' ids, p.1 ∉ names.taken ∨
    ∃ id ∈ ids, ∃ v, t.var? id = some v ∧ v.name = p.1 ∧ hides t scope v.name = false
  /-- In a scope where nothing is hidden the variables keep their names. -/
  unhidden : (∀ name, hides t scope name = false) → names'.renamed = names.renamed

/-- What giving a variable its C name does to the names. -/
structure NamesVar (t : Table) (scope : ScopeId) (id : SymbolId) (v : Variable) (names : Names)
    (c : String) (names' : Names) : Prop where
  good : names'.Good t
  scratch : names'.scratch = names.scratch
  grows : names.Grows names' [id]
  cName : names'.cName id v.name = c
  taken : c ∈ names'.taken
  varName : IsVarName t c
  fresh : c ∉ names.taken ∨ v.name = c ∧ hides t scope v.name = false
  unhidden : hides t scope v.name = false → names'.renamed = names.renamed

theorem rename_builds (hgood : names.Good t) (id : SymbolId)
    (hhides : hides t scope v.name = true) :
    Builds (rename id v.name) names (NamesVar t scope id v names) := by
  have hfresh : Fresh.variant v.name (Fresh.first names.taken (Fresh.variant v.name) 1) ∉
      names.taken := Fresh.candidate_first_not_mem Fresh.variant_injective 1
  refine ⟨_, _, rfl, ⟨?_, ?_⟩, rfl, ⟨?_, ?_⟩, ?_, ?_, ?_, .inl hfresh, fun h => ?_⟩
  · exact fun x hx => .tail _ (hgood.covers x hx)
  · intro p hp
    rcases mem_cons.mp hp with rfl | hp
    · exact ⟨⟨_, _, rfl⟩, .head _, fun hmem => hfresh (hgood.covers _ hmem)⟩
    · obtain ⟨hvariant, htaken, hnot⟩ := hgood.renamed p hp
      exact ⟨hvariant, .tail _ htaken, hnot⟩
  · exact fun x hx => .tail _ hx
  · grind
  · simp [Names.cName]
  · exact .head _
  · exact .inr ⟨_, _, rfl⟩
  · rw [hhides] at h
    cases h

/-- A variable that hides none keeps its name. -/
theorem namesVar_self (hgood : names.Good t)
    (hname : v.name ∈ t.names) (hnone : names.renamed.lookup id = none)
    (hhides : hides t scope v.name = false) : NamesVar t scope id v names v.name names where
  good := hgood
  scratch := rfl
  grows := ⟨fun _ h => h, fun _ _ => rfl⟩
  cName := by rw [Names.cName, hnone, getD_none]
  taken := hgood.covers _ hname
  varName := .inl hname
  fresh := .inr ⟨rfl, hhides⟩
  unhidden _ := rfl

theorem declared_congr (h : ∀ id ∈ ids, names'.renamed.lookup id = names.renamed.lookup id) :
    declared t names' ids = declared t names ids := by
  refine filterMap_congr fun id hid => ?_
  simp only [Names.cName, h id hid]

namespace Declared

variable {ids : List SymbolId} {id : SymbolId} {names₁ : Names} {ty : Ty}

theorem nil (hgood : names.Good t) : Declared t scope names [] names :=
  ⟨hgood, rfl, ⟨fun _ h => h, fun _ _ => rfl⟩, nofun, nofun, nofun, fun _ => rfl⟩

/-- A symbol that is no variable changes nothing. -/
theorem skip (h : Declared t scope names ids names') (hv : t.var? id = none) :
    Declared t scope names (id :: ids) names' := by
  have hsame : declared t names' (id :: ids) = declared t names' ids :=
    filterMap_cons_none (by rw [hv]; rfl)
  refine ⟨h.good, h.scratch, ⟨h.grows.taken, fun i hi => ?_⟩, hsame ▸ h.taken,
    hsame ▸ h.varName, ?_, h.unhidden⟩
  · exact h.grows.stable i fun hmem => hi (.tail id hmem)
  · intro p hp
    rw [hsame] at hp
    refine (h.fresh p hp).imp_right fun ⟨i, hi, hrest⟩ => ?_
    exact ⟨i, .tail id hi, hrest⟩

section

variable (h : Declared t scope names₁ ids names')
    (h₁ : NamesVar t scope id v names c names₁)
    (hv : t.var? id = some v)
    (hty : v.ty = some ty)
    (hid : id ∉ ids)

include h h₁ hv hty hid

theorem declared_cons : declared t names' (id :: ids) = (c, ty) :: declared t names' ids := by
  refine filterMap_cons_some ?_
  rw [hv, bind_some, hty, map_some, ← h₁.cName, Names.cName, h.grows.stable id hid,
    Names.cName]

theorem cons : Declared t scope names (id :: ids) names' := by
  have hsame := h.declared_cons h₁ hv hty hid
  refine ⟨h.good, h.scratch.trans h₁.scratch, h₁.grows.trans h.grows, ?_, ?_,
    ?_, fun hno => (h.unhidden hno).trans (h₁.unhidden (hno v.name))⟩ <;> rw [hsame]
  · exact forall_mem_cons.mpr ⟨h.grows.taken c h₁.taken, h.taken⟩
  · exact forall_mem_cons.mpr ⟨h₁.varName, h.varName⟩
  · intro p hp
    rcases mem_cons.mp hp with rfl | hp
    · exact h₁.fresh.imp_right fun hself => ⟨id, .head _, v, hv, hself⟩
    · rcases h.fresh p hp with hp | ⟨i, hi, hrest⟩
      · exact .inl fun hmem => hp (h₁.grows.taken _ hmem)
      · exact .inr ⟨i, .tail id hi, hrest⟩

end

end Declared

/-- Symbols of a scope that are ready to be declared: their names differ, the variables among them
have types, and none of them has a C name yet. -/
structure Undeclared (t : Table) (names : Names) (ids : List SymbolId) : Prop where
  distinct : ids.Pairwise fun a b =>
    (t.symbol? a).map Symbol.name ≠ (t.symbol? b).map Symbol.name
  typed : ∀ id ∈ ids, ∀ v, t.var? id = some v → v.isParameter = false ∧ v.name ∈ t.names ∧
    ∃ ty, v.ty = some ty ∧ ty ≠ .error
  lookup : ∀ id ∈ ids, names.renamed.lookup id = none

theorem Undeclared.tail (h : Undeclared t names (id :: ids))
    (hgrows : names.Grows names' [id]) : Undeclared t names' ids where
  distinct := (pairwise_cons.mp h.distinct).2
  typed i hi := h.typed i (.tail id hi)
  lookup i hi := by
    rw [hgrows.stable i fun hmem => ?_]
    · exact h.lookup i (.tail id hi)
    · obtain rfl := mem_singleton.mp hmem
      exact (pairwise_cons.mp h.distinct).1 i hi rfl

/-- A variable of a block hides a variable that its name stands for around the block. -/
theorem hides_of_resolve {outer : ScopeId} {x : String}
    (h : t.Encloses outer scope) (hr : t.resolve outer x = some id) (hv : t.var? id = some v) :
    hides t scope x = true := by
  obtain ⟨s, hs, hkind⟩ := map_eq_some_iff.mp h.kind
  have hparent : s.parent = some outer := by
    have := h.parent
    rwa [Table.parent?, hs, bind_some] at this
  rw [hides, hs]
  grind

/-- The declarations of variables that do not meet those that are there already. -/
theorem declarations_builds {locals : List (String × Node)}
    (hgood : names.Good t) (hids : Undeclared t names ids) (hlocals : (locals.map fst).Nodup)
    (hold : ∀ x ∈ locals.map fst, x ∈ names.taken ∧
      ∀ id ∈ ids, ∀ v, t.var? id = some v → v.name ≠ x) :
    Builds (declarations t scope locals ids) names fun r names' =>
      r = locals ++ (declared t names' ids).map declOf ∧ (r.map fst).Nodup ∧
        Declared t scope names ids names' := by
  induction ids generalizing locals names with
  | nil => exact .pure ⟨by simp [declared], hlocals, .nil hgood⟩
  | cons id ids ih =>
    have hfirst := (pairwise_cons.mp hids.distinct).1
    rw [declarations]
    cases hv : t.var? id with
    | none =>
      refine (ih hgood (hids.tail ⟨fun _ h => h, fun _ _ => rfl⟩) hlocals fun x hx =>
        ⟨(hold x hx).1, fun i hi => (hold x hx).2 i (.tail id hi)⟩).imp ?_
      rintro r names' ⟨hr, hnodup, h⟩
      refine ⟨?_, hnodup, h.skip hv⟩
      rw [hr, declared, declared, filterMap_cons_none (by rw [hv]; rfl)]
    | some v =>
      obtain ⟨hparam, hname, ty, hty, hne⟩ := hids.typed id (.head _) v hv
      have hidnot : id ∉ ids := fun hmem => hfirst id hmem rfl
      -- Whatever the name of this variable is, the others are declared after it.
      have hrest : ∀ c names₁, NamesVar t scope id v names c names₁ →
          Builds (declarations t scope (insertEntry c (.varDecl c ty false) locals) ids) names₁
            fun r names' => r = locals ++ (declared t names' (id :: ids)).map declOf ∧
              (r.map fst).Nodup ∧ Declared t scope names (id :: ids) names' := by
        intro c names₁ h₁
        have hnew : c ∉ locals.map fst := by
          intro hmem
          obtain ⟨htaken, hdiff⟩ := hold c hmem
          rcases h₁.fresh with hfresh | ⟨heq, -⟩
          · exact hfresh htaken
          · exact hdiff id (.head _) v hv heq
        rw [insertEntry_of_not_mem hnew]
        refine (ih h₁.good (hids.tail h₁.grows) ?_ ?_).imp ?_
        · grind
        · intro x hx
          rw [map_append, map_singleton, mem_append, mem_singleton] at hx
          rcases hx with hx | rfl
          · exact ⟨h₁.grows.taken x (hold x hx).1,
              fun i hi => (hold x hx).2 i (.tail id hi)⟩
          · refine ⟨h₁.taken, fun i hi w hw heq => ?_⟩
            have hwname := (hids.typed i (.tail id hi) w hw).2.1
            rcases h₁.fresh with hfresh | ⟨hself, -⟩
            · exact hfresh (hgood.covers _ (heq ▸ hwname))
            · refine hfirst i hi ?_
              rw [Table.name?_of_var? hv, Table.name?_of_var? hw, hself, heq]
        · rintro r names' ⟨rfl, hnodup, h⟩
          refine ⟨?_, hnodup, h.cons h₁ hv hty hidnot⟩
          rw [h.declared_cons h₁ hv hty hidnot]
          simp [declOf]
      dsimp only
      rw [hparam, hty, if_neg Bool.false_ne_true]
      have hself : Builds (do
          let c ← if hides t scope v.name then rename id v.name else pure v.name
          declarations t scope (insertEntry c (.varDecl c ty false) locals) ids) names
            fun r names' => r = locals ++ (declared t names' (id :: ids)).map declOf ∧
              (r.map fst).Nodup ∧ Declared t scope names (id :: ids) names' := by
        split
        · rename_i hhides
          exact (rename_builds hgood id hhides).bind hrest
        · rename_i hhides
          exact hrest v.name names (namesVar_self hgood hname
            (hids.lookup id (.head _)) (Bool.eq_false_iff.mpr hhides))
      grind

theorem localsOf_builds (hgood : names.Good t) (hids : Undeclared t names (t.symbolsOf scope)) :
    Builds (localsOf t scope) names fun r names' =>
      r = (declared t names' (t.symbolsOf scope)).map declOf ∧ (r.map fst).Nodup ∧
        Declared t scope names (t.symbolsOf scope) names' :=
  declarations_builds hgood hids .nil nofun

end Build

namespace Nest

variable {t : Table} {nest : Nest} {names names' : Names} {outer scope : ScopeId}

/-- The variables of a scope that is entered have other C names than those around it. -/
theorem Named.not_mem (h : nest.Named t names) (hlinked : nest.Linked t) (ht : t.WellFormed)
    (hhead : nest.head?.map fst = some outer) (hencloses : t.Encloses outer scope)
    (hd : Declared t scope names ids names') :
    ∀ p ∈ declared t names' ids, ∀ q ∈ nest, p.1 ∉ q.2 := by
  intro p hp q hq hmem
  obtain ⟨htaken, hvar⟩ := h q hq p.1 hmem
  rcases hd.fresh p hp with hfresh | ⟨id, -, v, hv, hname, hhides⟩
  · exact hfresh htaken
  · -- The name is that of a variable around, so the new variable would hide it.
    obtain ⟨id', hid', w, hw, hwname⟩ := hvar (hname ▸ Table.mem_names_of_var? hv)
    obtain ⟨inner, hinner, i, u, hresolve, hu⟩ := hlinked.resolve ht hq hid' hw
    rw [hinner] at hhead
    obtain rfl := some.inj hhead
    rw [hname, ← hwname, hides_of_resolve hencloses hresolve hu] at hhides
    cases hhides

/-- The nest with the scope that is entered. -/
theorem Named.push (h : nest.Named t names)
    (hgood : names.Good t) (hd : Declared t scope names (t.symbolsOf scope) names') :
    Named t names'
      ((scope, (declared t names' (t.symbolsOf scope)).map fst) :: nest) := by
  intro q hq x hx
  rcases mem_cons.mp hq with rfl | hq
  · obtain ⟨p, hp, rfl⟩ := mem_map.mp hx
    refine ⟨hd.taken p hp, fun hname => ?_⟩
    rcases hd.fresh p hp with hfresh | ⟨id, hid, v, hv, hvname, -⟩
    · exact absurd (hgood.covers _ hname) hfresh
    · exact ⟨id, hid, v, hv, hvname⟩
  · exact ⟨hd.grows.taken x (h q hq x hx).1, (h q hq x hx).2⟩

end Nest

end WichToC

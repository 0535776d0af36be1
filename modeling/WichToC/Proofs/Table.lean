import WichToC.Symbol.Table

/-!
# How symbol tables change

What each change of a table does to the scopes and symbols that can be read from it, and two ways in
which a table can come from another one.  `Table.Extends` is what declaring names does: scopes and
symbols are added, and those that were there stay as they are.  `Table.Retypes` is what typing does:
only the types of variables that are no parameters change.
-/

namespace WichToC.Table

open List Option Table Scope

variable {t t' t'' : Table} {scope : ScopeId} {id : SymbolId} {name : String} {v : Variable}
variable {β : Type} {symbol : Symbol} {i : SymbolId} {s parent : ScopeId} {v' : Variable}
    {change : Symbol → Symbol}

def parent? (t : Table) (id : ScopeId) : Option ScopeId := (t.scope? id).bind Scope.parent

/-- The scopes that a scope lists as those inside it. -/
def nestedOf (t : Table) (id : ScopeId) : List ScopeId := ((t.scope? id).map nested).getD []

/-- The function whose parameters a scope holds. -/
def function? (t : Table) (scope : ScopeId) : Option SymbolId := (t.scope? scope).bind function

theorem scope?_modifyScope {change : Scope → Scope} (p i : ScopeId) :
    (t.modifyScope p change).scope? i = if i = p then (t.scope? i).map change else t.scope? i := by
  rcases p with ⟨p⟩
  rcases i with ⟨i⟩
  simp only [scope?, modifyScope, Array.getElem?_modify, ScopeId.mk.injEq, eq_comm]

theorem symbol?_modifySymbol {f : SymbolId} : (t.modifySymbol f change).symbol? id =
      if id = f then (t.symbol? id).map change else t.symbol? id := by
  rcases f with ⟨f⟩
  rcases id with ⟨id⟩
  simp only [symbol?, modifySymbol, Array.getElem?_modify, SymbolId.mk.injEq, eq_comm]

/-- What a change of a scope leaves alone is read as before. -/
theorem read_modifyScope (read : Option Scope → β) {change : Scope → Scope}
    (h : ∀ s, read (some (change s)) = read (some s)) (p i : ScopeId) :
    read ((t.modifyScope p change).scope? i) = read (t.scope? i) := by
  rw [scope?_modifyScope]
  split
  · cases t.scope? i with
    | none => rfl
    | some s => exact h s
  · rfl

/-- What a change of a symbol leaves alone is read as before. -/
theorem read_modifySymbol (read : Option Symbol → β)
    (h : ∀ s, read (some (change s)) = read (some s)) (f id : SymbolId) :
    read ((t.modifySymbol f change).symbol? id) = read (t.symbol? id) := by
  rw [symbol?_modifySymbol]
  split
  · cases t.symbol? id with
    | none => rfl
    | some s => exact h s
  · rfl

/-! ## New scopes -/

section Push

variable (kind : ScopeKind) (name : String) (parent : Option ScopeId) (i : ScopeId)

/-- The new scope has the next number; the table is grown by it, and at most the list of inner
scopes of another scope changes. -/
theorem pushScope_cases : (t.pushScope kind name parent).1 = ⟨t.scopes.size⟩ ∧
      let grown : Table :=
        { t with scopes := t.scopes.push { kind := kind, name := name, parent := parent } }
      ((t.pushScope kind name parent).2 = grown ∨
        ∃ p, (t.pushScope kind name parent).2 =
          grown.modifyScope p fun s => { s with nested := s.nested ++ [⟨t.scopes.size⟩] }) := by
  unfold pushScope
  grind

@[simp] theorem pushScope_fst : (t.pushScope kind name parent).1 = ⟨t.scopes.size⟩ :=
  (pushScope_cases kind name parent).1

@[simp] theorem symbols_pushScope : (t.pushScope kind name parent).2.symbols = t.symbols := by
  rcases (pushScope_cases (t := t) kind name parent).2 with h | ⟨p, h⟩ <;> rw [h]
  rfl

@[simp] theorem size_scopes_pushScope :
    (t.pushScope kind name parent).2.scopes.size = t.scopes.size + 1 := by
  rcases (pushScope_cases (t := t) kind name parent).2 with h | ⟨p, h⟩ <;> rw [h] <;>
    simp [modifyScope]

/-- Apart from the lists of inner scopes, the new scope is added and the others stay. -/
theorem read_pushScope (read : Option Scope → β)
    (h : ∀ s nested, read (some { s with nested := nested }) = read (some s)) (i : ScopeId) :
    read ((t.pushScope kind name parent).2.scope? i) =
      if i.index = t.scopes.size then read (some { kind := kind, name := name, parent := parent })
      else read (t.scope? i) := by
  have hgrown : read (scope? { t with
      scopes := t.scopes.push { kind := kind, name := name, parent := parent } } i) = _ :=
    congrArg read Array.getElem?_push
  rw [← apply_ite read]
  rcases (pushScope_cases (t := t) kind name parent).2 with hpush | ⟨p, hpush⟩ <;> rw [hpush]
  · exact hgrown
  · exact (read_modifyScope read (fun s => h s _) p i).trans hgrown

theorem kind?_pushScope : (t.pushScope kind name parent).2.kind? i =
      if i.index = t.scopes.size then some kind else t.kind? i :=
  read_pushScope kind name parent (Option.map Scope.kind) (fun _ _ => rfl) i

theorem parent?_pushScope : (t.pushScope kind name parent).2.parent? i =
      if i.index = t.scopes.size then parent else t.parent? i :=
  read_pushScope kind name parent (bind · Scope.parent) (fun _ _ => rfl) i

theorem function?_pushScope : (t.pushScope kind name parent).2.function? i =
      if i.index = t.scopes.size then none else t.function? i :=
  read_pushScope kind name parent (bind · function) (fun _ _ => rfl) i

theorem symbolsOf_pushScope : (t.pushScope kind name parent).2.symbolsOf i =
      if i.index = t.scopes.size then [] else t.symbolsOf i :=
  read_pushScope kind name parent (fun s => (s.map Scope.symbols).getD []) (fun _ _ => rfl) i

theorem symbol?_pushScope (id : SymbolId) :
    (t.pushScope kind name parent).2.symbol? id = t.symbol? id := by
  simp [symbol?]

/-- A scope that is not of the predefined kind lists the new scope inside it last. -/
theorem nestedOf_pushScope {p : ScopeId} (hp : p.index < t.scopes.size)
    (hkind : t.kind? p ≠ some .predefined) (i : ScopeId) :
    (t.pushScope kind name (some p)).2.nestedOf i =
      if i = p then t.nestedOf i ++ [⟨t.scopes.size⟩] else t.nestedOf i := by
  let grown : Table :=
    { t with scopes := t.scopes.push { kind := kind, name := name, parent := some p } }
  have hgrown : ∀ i, grown.scope? i = if i.index = t.scopes.size then
      some { kind := kind, name := name, parent := some p } else t.scope? i := fun _ =>
        Array.getElem?_push
  have hpush : (t.pushScope kind name (some p)).2 =
      grown.modifyScope p fun s => { s with nested := s.nested ++ [⟨t.scopes.size⟩] } := by
    have hold : grown.kind? p = t.kind? p := by rw [kind?, hgrown, if_neg (Nat.ne_of_lt hp), kind?]
    rw [← hold] at hkind
    simp only [pushScope]
    rw [if_neg hkind]
  rw [hpush, nestedOf, scope?_modifyScope, hgrown, nestedOf]
  by_cases hi : i.index = t.scopes.size
  · have hne : i ≠ p := by rintro rfl; omega
    simp [hi, hne, scope?]
  · obtain ⟨scope, hscope⟩ : ∃ scope, t.scope? p = some scope := ⟨_, Array.getElem?_eq_getElem hp⟩
    grind

end Push

/-! ## New symbols -/

/-- What defining a symbol does: it gets the next number and goes to the end of its scope, which had
no symbol of that name. -/
structure Defines (t : Table) (scope : ScopeId) (symbol : Symbol) (id : SymbolId) (t' : Table) :
    Prop where
  id_eq : id = ⟨t.symbols.size⟩
  free : t.resolveLocal scope symbol.name = none
  size_scopes : t'.scopes.size = t.scopes.size
  size_symbols : t'.symbols.size = t.symbols.size + 1
  symbol? : ∀ i, t'.symbol? i = if i = id then some symbol else t.symbol? i
  kind? : ∀ i, t'.kind? i = t.kind? i
  parent? : ∀ i, t'.parent? i = t.parent? i
  function? : ∀ i, t'.function? i = t.function? i
  nestedOf : ∀ i, t'.nestedOf i = t.nestedOf i
  symbolsOf : ∀ i, t'.symbolsOf i =
    if i = scope ∧ i.index < t.scopes.size then t.symbolsOf i ++ [id] else t.symbolsOf i

theorem defines_of_define
    (h : t.define scope symbol = .ok (id, t')) : t.Defines scope symbol id t' := by
  unfold define at h
  split at h
  · cases h
  · rename_i hfree
    cases h
    constructor
    case id_eq => rfl
    case free => exact hfree
    case size_scopes => simp [modifyScope]
    case size_symbols => simp [modifyScope]
    case symbol? =>
      intro i
      rcases i with ⟨i⟩
      simp [symbol?, modifyScope, Array.getElem?_push]
    case kind? => exact read_modifyScope (Option.map kind) (fun _ => by rfl) scope
    case parent? => exact read_modifyScope (bind · Scope.parent) (fun _ => by rfl) scope
    case function? => exact read_modifyScope (bind · function) (fun _ => by rfl) scope
    case nestedOf =>
      exact read_modifyScope (fun s => (s.map nested).getD []) (fun _ => by rfl) scope
    case symbolsOf =>
      intro i
      rw [symbolsOf, scope?_modifyScope, symbolsOf]
      by_cases hi : i = scope
      · subst hi
        by_cases hlt : i.index < t.scopes.size <;> simp [scope?, hlt]
      · simp only [hi, false_and, if_false]
        rfl

/-! ## Functions and their parameters -/

theorem symbol?_attachFunction {f : SymbolId} :
    (t.attachFunction scope f).symbol? id = t.symbol? id := rfl

theorem kind?_attachFunction (scope : ScopeId) (f : SymbolId) (i : ScopeId) :
    (t.attachFunction scope f).kind? i = t.kind? i :=
  read_modifyScope (Option.map kind) (fun _ => by rfl) scope i

theorem parent?_attachFunction (scope : ScopeId) (f : SymbolId) (i : ScopeId) :
    (t.attachFunction scope f).parent? i = t.parent? i :=
  read_modifyScope (bind · Scope.parent) (fun _ => by rfl) scope i

theorem symbolsOf_attachFunction (scope : ScopeId) (f : SymbolId) (i : ScopeId) :
    (t.attachFunction scope f).symbolsOf i = t.symbolsOf i :=
  read_modifyScope (fun s => (s.map Scope.symbols).getD []) (fun _ => by rfl) scope i

theorem nestedOf_attachFunction (scope : ScopeId) (f : SymbolId) (i : ScopeId) :
    (t.attachFunction scope f).nestedOf i = t.nestedOf i :=
  read_modifyScope (fun s => (s.map nested).getD []) (fun _ => by rfl) scope i

theorem function?_attachFunction {f : SymbolId} (i : ScopeId) :
    (t.attachFunction scope f).function? i =
      if i = scope then (t.scope? i).map fun _ => f else t.function? i := by
  rw [function?, attachFunction, scope?_modifyScope, function?]
  split
  · cases t.scope? i <;> rfl
  · rfl

theorem var?_addParameter (f p id : SymbolId) : (t.addParameter f p).var? id = t.var? id :=
  read_modifySymbol (bind · Symbol.var?) (by rintro (_ | _ | _) <;> rfl) f id

theorem name?_addParameter (f p id : SymbolId) :
    ((t.addParameter f p).symbol? id).map Symbol.name = (t.symbol? id).map Symbol.name :=
  read_modifySymbol (Option.map Symbol.name) (by rintro (_ | _ | _) <;> rfl) f id

theorem func?_addParameter (f p id : SymbolId) : (t.addParameter f p).func? id =
      if id = f then (t.func? id).map fun s => { s with params := s.params ++ [p] }
      else t.func? id := by
  rw [func?, addParameter, symbol?_modifySymbol, func?]
  split
  · rcases t.symbol? id with _ | _ | _ | _ <;> rfl
  · rfl

theorem symbol?_addParameter {f : SymbolId} (p : SymbolId) (h : id ≠ f) :
    (t.addParameter f p).symbol? id = t.symbol? id := by
  rw [addParameter, symbol?_modifySymbol, if_neg h]

/-! ## Extension -/

/-- A later table: scopes and symbols were added, and those that were there are as before. -/
structure Extends (t t' : Table) : Prop where
  size_scopes : t.scopes.size ≤ t'.scopes.size
  size_symbols : t.symbols.size ≤ t'.symbols.size
  kind? : ∀ i, i.index < t.scopes.size → t'.kind? i = t.kind? i
  parent? : ∀ i, i.index < t.scopes.size → t'.parent? i = t.parent? i
  function? : ∀ i, i.index < t.scopes.size → t'.function? i = t.function? i
  symbol? : ∀ {id}, id.index < t.symbols.size → t'.symbol? id = t.symbol? id

namespace Extends

variable {id : SymbolId}

theorem refl (t : Table) : t.Extends t :=
  ⟨Nat.le_refl _, Nat.le_refl _, fun _ _ => rfl, fun _ _ => rfl, fun _ _ => rfl, fun _ => rfl⟩

theorem trans {a b c : Table} (h₁ : a.Extends b) (h₂ : b.Extends c) : a.Extends c where
  size_scopes := Nat.le_trans h₁.size_scopes h₂.size_scopes
  size_symbols := Nat.le_trans h₁.size_symbols h₂.size_symbols
  kind? i hi := (h₂.kind? i (Nat.lt_of_lt_of_le hi h₁.size_scopes)).trans (h₁.kind? i hi)
  parent? i hi := (h₂.parent? i (Nat.lt_of_lt_of_le hi h₁.size_scopes)).trans (h₁.parent? i hi)
  function? i hi :=
    (h₂.function? i (Nat.lt_of_lt_of_le hi h₁.size_scopes)).trans (h₁.function? i hi)
  symbol? hid := (h₂.symbol? (Nat.lt_of_lt_of_le hid h₁.size_symbols)).trans (h₁.symbol? hid)

theorem var? (h : t.Extends t') (hid : id.index < t.symbols.size) : t'.var? id = t.var? id := by
  rw [Table.var?, h.symbol? hid, Table.var?]

theorem func? (h : t.Extends t') (hid : id.index < t.symbols.size) : t'.func? id = t.func? id := by
  rw [Table.func?, h.symbol? hid, Table.func?]

theorem pushScope (kind : ScopeKind) (name : String) (parent : Option ScopeId) :
    t.Extends (t.pushScope kind name parent).2 where
  size_scopes := by simp
  size_symbols := by simp
  kind? i hi := by rw [kind?_pushScope, if_neg (Nat.ne_of_lt hi)]
  parent? i hi := by rw [parent?_pushScope, if_neg (Nat.ne_of_lt hi)]
  function? i hi := by rw [function?_pushScope, if_neg (Nat.ne_of_lt hi)]
  symbol? _ := symbol?_pushScope kind name parent _

theorem define (h : t.Defines scope symbol id t') : t.Extends t' where
  size_scopes := Nat.le_of_eq h.size_scopes.symm
  size_symbols := by rw [h.size_symbols]; exact Nat.le_succ _
  kind? i _ := h.kind? i
  parent? i _ := h.parent? i
  function? i _ := h.function? i
  symbol? {i} hi := by
    have hne : i ≠ id := by
      rintro rfl
      rw [h.id_eq] at hi
      exact Nat.lt_irrefl _ hi
    rw [h.symbol?, if_neg hne]

/-- A new scope gets a function. -/
theorem attachFunction (h : t.Extends t') (hnew : t.scopes.size ≤ scope.index) (f : SymbolId) :
    t.Extends (t'.attachFunction scope f) where
  size_scopes := by simpa [Table.attachFunction, modifyScope] using h.size_scopes
  size_symbols := h.size_symbols
  kind? i hi := (kind?_attachFunction scope f i).trans (h.kind? i hi)
  parent? i hi := (parent?_attachFunction scope f i).trans (h.parent? i hi)
  function? i hi := by
    have hne : i ≠ scope := by rintro rfl; exact Nat.not_lt_of_le hnew hi
    rw [function?_attachFunction, if_neg hne, h.function? i hi]
  symbol? := h.symbol?

end Extends

/-! ## Names -/

theorem name_of_resolveLocal (h : t.resolveLocal scope name = some id) :
    id ∈ t.symbolsOf scope ∧ (t.symbol? id).map Symbol.name = some name :=
  ⟨mem_of_find?_eq_some h, by simpa using find?_some h⟩

/-- A name stands for a symbol of that name. -/
theorem name_of_resolve
    (h : t.resolve scope name = some id) : (t.symbol? id).map Symbol.name = some name := by
  obtain ⟨s, _, hs⟩ := exists_of_findSome?_eq_some h
  exact (name_of_resolveLocal hs).2

theorem symbol?_of_var? (hv : t.var? id = some v) : t.symbol? id = some (.var v) := by
  obtain ⟨s, hs, hsv⟩ := bind_eq_some_iff.mp hv
  cases s with
  | var w => rw [hs, some.inj hsv]
  | type | func => cases hsv

theorem symbol?_of_func? {f : Signature} (hf : t.func? id = some f) :
    t.symbol? id = some (.func f) := by
  obtain ⟨s, hs, hsf⟩ := bind_eq_some_iff.mp hf
  cases s <;> cases hsf
  exact hs

theorem name?_of_var? (hv : t.var? id = some v) : (t.symbol? id).map Symbol.name = some v.name := by
  obtain ⟨symbol, hs, hsv⟩ := bind_eq_some_iff.mp hv
  cases symbol <;> cases hsv
  rw [hs]
  rfl

/-- A variable that a name stands for has that name. -/
theorem name_of_var?
    (hname : (t.symbol? id).map Symbol.name = some name) (hv : t.var? id = some v) :
    v.name = name := by
  obtain ⟨s, hs, rfl⟩ := map_eq_some_iff.mp hname
  obtain ⟨s', hs', hv'⟩ := bind_eq_some_iff.mp hv
  rw [hs] at hs'
  cases hs'
  cases s <;> cases hv'
  rfl

theorem lt_size_of_kind? {i : ScopeId} {k : ScopeKind} (h : t.kind? i = some k) :
    i.index < t.scopes.size := by
  obtain ⟨s, hs, -⟩ := map_eq_some_iff.mp h
  exact (Array.getElem?_eq_some_iff.mp hs).1

theorem lt_size_of_var? (h : t.var? id = some v) : id.index < t.symbols.size := by
  obtain ⟨s, hs, -⟩ := bind_eq_some_iff.mp h
  exact (Array.getElem?_eq_some_iff.mp hs).1

theorem lt_size_of_func? {f : Signature} (h : t.func? id = some f) : id.index < t.symbols.size := by
  obtain ⟨s, hs, -⟩ := bind_eq_some_iff.mp h
  exact (Array.getElem?_eq_some_iff.mp hs).1

/-- A variable is no function. -/
theorem func?_of_var? (h : t.var? id = some v) : t.func? id = none := by
  obtain ⟨s, hs, hsv⟩ := bind_eq_some_iff.mp h
  cases s <;> cases hsv
  simp [func?, hs, Symbol.func?]

theorem lt_size_of_parent? {p : ScopeId} (h : t.parent? s = some p) : s.index < t.scopes.size := by
  obtain ⟨scope, hscope, -⟩ := bind_eq_some_iff.mp h
  exact (Array.getElem?_eq_some_iff.mp hscope).1

/-- Every scope lies in one with a smaller number and lists symbols of the table, no two of one
name. -/
structure WellFormed (t : Table) : Prop where
  parent : ∀ {i p}, t.parent? i = some p → p.index < i.index
  bound : ∀ i, ∀ id ∈ t.symbolsOf i, id.index < t.symbols.size
  names : ∀ i, (t.symbolsOf i).Pairwise fun a b =>
    (t.symbol? a).map Symbol.name ≠ (t.symbol? b).map Symbol.name

namespace WellFormed

section

variable (h : t.WellFormed)

include h

/-- Nothing that matters changes. -/
theorem congr (hsize : t'.symbols.size = t.symbols.size)
    (hparent : ∀ {i p}, t'.parent? i = some p → p.index < i.index)
    (hscope : ∀ i, t'.symbolsOf i = t.symbolsOf i ∨ t'.symbolsOf i = [])
    (hname : ∀ id, (t'.symbol? id).map Symbol.name = (t.symbol? id).map Symbol.name) :
    t'.WellFormed where
  parent := hparent
  bound i id hid := by
    rcases hscope i with hi | hi <;> rw [hi] at hid
    · rw [hsize]; exact h.bound i id hid
    · cases hid
  names i := by
    rcases hscope i with hi | hi <;> rw [hi]
    · simpa only [hname] using h.names i
    · exact .nil

theorem pushScope (kind : ScopeKind) (name : String) (hparent : parent.index < t.scopes.size) :
    (t.pushScope kind name (some parent)).2.WellFormed := by
  refine h.congr (by simp) (fun {i p} hp => ?_) (fun i => ?_) fun id => by rw [symbol?_pushScope]
  · rw [parent?_pushScope] at hp
    split at hp
    · rename_i hi
      cases hp
      rwa [hi]
    · exact h.parent hp
  · rw [symbolsOf_pushScope]
    grind

theorem attachFunction (scope : ScopeId) (f : SymbolId) : (t.attachFunction scope f).WellFormed :=
  h.congr rfl (fun hp => h.parent (by rwa [parent?_attachFunction] at hp))
    (fun i => .inl (symbolsOf_attachFunction scope f i)) fun _ => rfl

theorem addParameter (f p : SymbolId) : (t.addParameter f p).WellFormed :=
  h.congr (by simp [Table.addParameter, modifySymbol]) h.parent (fun _ => .inl rfl)
    (name?_addParameter f p)

theorem define (hdef : t.Defines scope symbol id t') : t'.WellFormed := by
  have hold : ∀ {i}, ∀ a ∈ t.symbolsOf i, t'.symbol? a = t.symbol? a := by
    intro i a ha
    have hne : a ≠ id := by
      rintro rfl
      have hlt := h.bound i _ ha
      rw [hdef.id_eq] at hlt
      exact Nat.lt_irrefl _ hlt
    rw [hdef.symbol?, if_neg hne]
  constructor
  case parent =>
    intro i p hp
    rw [hdef.parent?] at hp
    exact h.parent hp
  case bound =>
    intro i a ha
    rw [hdef.symbolsOf] at ha
    rw [hdef.size_symbols]
    split at ha
    · rcases mem_append.mp ha with ha | ha
      · exact Nat.lt_succ_of_lt (h.bound i a ha)
      · rw [mem_singleton.mp ha, hdef.id_eq]
        exact Nat.lt_succ_self _
    · exact Nat.lt_succ_of_lt (h.bound i a ha)
  case names =>
    intro i
    have hpair : (t.symbolsOf i).Pairwise fun a b =>
        (t'.symbol? a).map Symbol.name ≠ (t'.symbol? b).map Symbol.name := by
      refine (h.names i).imp_of_mem fun {a b} ha hb hne => ?_
      rw [hold a ha, hold b hb]
      exact hne
    rw [hdef.symbolsOf]
    split
    · rename_i hi
      obtain ⟨rfl, -⟩ := hi
      rw [pairwise_append]
      refine ⟨hpair, pairwise_singleton _ _, fun a ha b hb heq => ?_⟩
      obtain rfl := mem_singleton.mp hb
      -- The scope had no symbol of the new name.
      rw [hold a ha, hdef.symbol?, if_pos rfl] at heq
      have hfree := hdef.free
      rw [resolveLocal, find?_eq_none] at hfree
      exact hfree a ha (by simpa using heq)
    · exact hpair

end

end WellFormed

/-! ## Scopes inwards -/

/-- The scopes of a table in order of creation. -/
def scopeIds (t : Table) : List ScopeId := (range t.scopes.size).map ScopeId.mk

/-- Apart from the predefined and the global scope, every scope lies in one that is not predefined,
and these list all scopes that lie in them, in order of creation. -/
structure Nested (t : Table) : Prop where
  kinds : ∀ {i : ScopeId}, t.kind? i = some .predefined → i.index = 0
  parents : ∀ i : ScopeId, 1 < i.index → i.index < t.scopes.size →
    ∃ p : ScopeId, 0 < p.index ∧ t.parent? i = some p
  listed : ∀ s : ScopeId, 0 < s.index → t.nestedOf s = t.scopeIds.filter fun i =>
    t.parent? i = some s

namespace Nested

theorem congr (h : t.Nested) (hsize : t'.scopes.size = t.scopes.size)
    (hkind : ∀ i, t'.kind? i = t.kind? i)
    (hparent : ∀ i, t'.parent? i = t.parent? i) (hnested : ∀ i, t'.nestedOf i = t.nestedOf i) :
    t'.Nested where
  kinds hi := h.kinds (hkind _ ▸ hi)
  parents i hi hlt := hparent i ▸ h.parents i hi (hsize ▸ hlt)
  listed s hs := by
    rw [hnested, h.listed s hs, scopeIds, scopeIds, hsize]
    simp only [hparent]

theorem pushScope (h : t.Nested) {kind : ScopeKind} (hkind : kind ≠ .predefined) (name : String)
    (hparent : parent.index < t.scopes.size) (hpos : 0 < parent.index) :
    (t.pushScope kind name (some parent)).2.Nested where
  kinds {i} hi := by
    rw [kind?_pushScope] at hi
    split at hi
    · exact absurd (some.inj hi) hkind
    · exact h.kinds hi
  parents i hi hlt := by
    rw [size_scopes_pushScope] at hlt
    rw [parent?_pushScope]
    split
    · exact ⟨parent, hpos, rfl⟩
    · exact h.parents i hi (by omega)
  listed s hs := by
    have hold : t.scopeIds.filter
      (fun i => (t.pushScope kind name (some parent)).2.parent? i = some s) =
        t.nestedOf s := by
      rw [h.listed s hs]
      refine filter_congr fun i hi => ?_
      obtain ⟨n, hn, rfl⟩ := mem_map.mp hi
      rw [parent?_pushScope, if_neg (Nat.ne_of_lt (mem_range.mp hn))]
    rw [nestedOf_pushScope _ _ hparent fun hk => Nat.ne_of_gt hpos (h.kinds hk), scopeIds,
      size_scopes_pushScope, range_succ, map_append, filter_append, ← scopeIds, hold, map_singleton]
    by_cases heq : s = parent
    · simp [parent?_pushScope, heq]
    · simp [parent?_pushScope, heq, Ne.symm heq]

end Nested

/-! ## Scopes outwards -/

/-- More steps than the number of a scope reach all scopes around it. -/
theorem WellFormed.chainFrom_eq (h : t.WellFormed) {fuel fuel' : Nat}
    (hfuel : s.index < fuel) (hfuel' : s.index < fuel') :
    t.chainFrom fuel s = t.chainFrom fuel' s := by
  induction fuel generalizing fuel' s with
  | zero => cases hfuel
  | succ fuel ih =>
    obtain ⟨fuel', rfl⟩ : ∃ n, fuel' = n + 1 := ⟨fuel' - 1, by omega⟩
    unfold chainFrom
    split
    · rename_i p hp
      have := h.parent hp
      grind
    · rfl

theorem WellFormed.chain_eq (h : t.WellFormed) {p : ScopeId} (hp : t.parent? s = some p) :
    t.chain s = s :: t.chain p := by
  have hlt := h.parent hp
  have hp' : (t.scope? s).bind Scope.parent = some p := hp
  rw [chain, chainFrom, hp']
  dsimp only
  rw [h.chainFrom_eq hlt (Nat.lt_succ_self p.index), chain]

/-! ## The table before declaring -/

theorem nested_initial : initial.Nested where
  kinds {i} hi := by
    rcases i with ⟨_ | _ | i⟩
    · rfl
    · cases hi
    · cases hi
  parents i hi hlt := absurd hlt (by exact Nat.not_lt_of_le hi)
  listed s hs := by
    rcases s with ⟨_ | _ | s⟩
    · cases hs
    · decide
    · rfl

theorem wellFormed_initial : initial.WellFormed where
  parent {i p} hp := by
    rcases i with ⟨_ | _ | i⟩
    · cases hp
    · cases hp
      decide
    · cases hp
  bound i id hid := by
    rcases i with ⟨_ | _ | i⟩
    · revert id
      decide
    · cases hid
    · cases hid
  names i := by
    rcases i with ⟨_ | _ | i⟩
    · decide
    · exact .nil
    · exact .nil

/-! ## Symbols of a scope -/

/-- The symbols that a later table adds. -/
def newSymbols (t t' : Table) : List SymbolId :=
  (range' t.symbols.size (t'.symbols.size - t.symbols.size)).map SymbolId.mk

theorem range'_trans {a b c : Nat} (hab : a ≤ b) (hbc : b ≤ c) :
    range' a (c - a) = range' a (b - a) ++ range' b (c - b) := by
  have happend := range'_append_1 (s := a) (m := b - a) (n := c - b)
  grind

theorem newSymbols_trans (h₁ : t.symbols.size ≤ t'.symbols.size)
    (h₂ : t'.symbols.size ≤ t''.symbols.size) :
    newSymbols t t'' = newSymbols t t' ++ newSymbols t' t'' := by
  rw [newSymbols, range'_trans h₁ h₂, map_append]
  rfl

theorem newSymbols_of_size (h : t'.symbols.size = t.symbols.size) : newSymbols t t' = [] := by
  rw [newSymbols, h, Nat.sub_self]
  rfl

theorem newSymbols_succ (h : t'.symbols.size = t.symbols.size + 1) :
    newSymbols t t' = [⟨t.symbols.size⟩] := by
  rw [newSymbols, h, Nat.add_sub_cancel_left]
  rfl

theorem mem_newSymbols :
    id ∈ newSymbols t t' ↔ t.symbols.size ≤ id.index ∧ id.index < t'.symbols.size := by
  rcases id with ⟨i⟩
  simp only [newSymbols, List.mem_map, mem_range'_1, SymbolId.mk.injEq, exists_eq_right]
  omega

/-- Symbols were defined in a scope, as parameters of its function if it has one. -/
structure Fills (scope : ScopeId) (f : Option SymbolId) (t t' : Table) : Prop where
  size_scopes : t'.scopes.size = t.scopes.size
  size_symbols : t.symbols.size ≤ t'.symbols.size
  kind? : ∀ i, t'.kind? i = t.kind? i
  parent? : ∀ i, t'.parent? i = t.parent? i
  function? : ∀ i, t'.function? i = t.function? i
  nestedOf : ∀ i, t'.nestedOf i = t.nestedOf i
  own : t'.symbolsOf scope = t.symbolsOf scope ++ t.newSymbols t'
  frame : ∀ i, i ≠ scope → t'.symbolsOf i = t.symbolsOf i
  name? : ∀ {id}, id.index < t.symbols.size →
    (t'.symbol? id).map Symbol.name = (t.symbol? id).map Symbol.name
  symbol? : ∀ {id}, f ≠ some id → id.index < t.symbols.size → t'.symbol? id = t.symbol? id
  func? : ∀ {id sig}, f = some id → t.func? id = some sig →
    t'.func? id = some { sig with params := sig.params ++ t.newSymbols t' }
  wellFormed : t.WellFormed → t'.WellFormed

/-- The table `u` differs from `t` at most in the function `f`, which has one more parameter. -/
structure Adds (f : Option SymbolId) (id : SymbolId) (t u : Table) : Prop where
  scopes : u.scopes = t.scopes
  size : u.symbols.size = t.symbols.size
  name? : ∀ i, (u.symbol? i).map Symbol.name = (t.symbol? i).map Symbol.name
  symbol? : ∀ i, f ≠ some i → u.symbol? i = t.symbol? i
  func? : ∀ i, f = some i →
    u.func? i = (t.func? i).map fun sig => { sig with params := sig.params ++ [id] }
  wellFormed : t.WellFormed → u.WellFormed

theorem adds_getD (f : Option SymbolId) (id : SymbolId) :
    Adds f id t ((f.map fun g => t.addParameter g id).getD t) := by
  cases f with
  | none => exact ⟨rfl, rfl, fun _ => rfl, fun _ _ => rfl, nofun, fun ht => ht⟩
  | some g =>
    refine ⟨rfl, by simp [addParameter, modifySymbol], name?_addParameter g id,
      fun i hi => symbol?_addParameter id ?_, fun i hi => ?_, fun ht => ht.addParameter g id⟩
    · exact fun he => hi (congrArg some he.symm)
    · cases hi
      exact (func?_addParameter g id g).trans (if_pos rfl)

namespace Fills

variable {f : Option SymbolId}

theorem refl (t : Table) : Fills scope f t t := by
  have hnone : t.newSymbols t = [] := newSymbols_of_size rfl
  constructor
  case own => rw [hnone, append_nil]
  case func? =>
    intro id sig _ hsig
    rw [hnone, append_nil, hsig]
  case size_symbols => exact Nat.le_refl _
  case wellFormed => exact id
  case size_scopes | kind? | parent? | function? | nestedOf | frame | name? | symbol? => intros; rfl

theorem trans (h : Fills scope f t t') (h' : Fills scope f t' t'') : Fills scope f t t'' := by
  have hnew := newSymbols_trans h.size_symbols h'.size_symbols
  constructor
  case size_scopes => rw [h'.size_scopes, h.size_scopes]
  case size_symbols => exact Nat.le_trans h.size_symbols h'.size_symbols
  case kind? => exact fun i => (h'.kind? i).trans (h.kind? i)
  case parent? => exact fun i => (h'.parent? i).trans (h.parent? i)
  case function? => exact fun i => (h'.function? i).trans (h.function? i)
  case nestedOf => exact fun i => (h'.nestedOf i).trans (h.nestedOf i)
  case own => rw [h'.own, h.own, hnew, append_assoc]
  case frame => exact fun i hne => (h'.frame i hne).trans (h.frame i hne)
  case name? =>
    exact fun hi => (h'.name? (Nat.lt_of_lt_of_le hi h.size_symbols)).trans (h.name? hi)
  case symbol? =>
    exact fun hne hi =>
      (h'.symbol? hne (Nat.lt_of_lt_of_le hi h.size_symbols)).trans (h.symbol? hne hi)
  case func? =>
    intro id sig hid hsig
    rw [h'.func? hid (h.func? hid hsig), hnew, append_assoc]
  case wellFormed => exact fun ht => h'.wellFormed (h.wellFormed ht)

/-- A symbol of the scope becomes a parameter of the function. -/
theorem define (hdef : t.Defines scope symbol id t')
    (hscope : scope.index < t.scopes.size) (hf : ∀ g ∈ f, g.index < t.symbols.size) :
    let u := (f.map fun g => t'.addParameter g id).getD t'
    Fills scope f t u ∧ t.newSymbols u = [id] ∧ u.symbol? id = some symbol := by
  have hadds := adds_getD (t := t') f id
  intro u
  have hscope? : ∀ i, u.scope? i = t'.scope? i := fun i => by rw [scope?, hadds.scopes, scope?]
  have hsymbolsOf : ∀ i, u.symbolsOf i = t'.symbolsOf i := fun i => by
    rw [symbolsOf, hscope?, symbolsOf]
  have hnew : t.newSymbols u = [id] := by
    rw [newSymbols_succ (by rw [hadds.size, hdef.size_symbols]), hdef.id_eq]
  have hold : ∀ i : SymbolId, i.index < t.symbols.size → i ≠ id := by
    rintro i hi rfl
    rw [hdef.id_eq] at hi
    exact Nat.lt_irrefl _ hi
  refine ⟨?_, hnew, ?_⟩
  · constructor
    case size_scopes => rw [hadds.scopes, hdef.size_scopes]
    case size_symbols => rw [hadds.size, hdef.size_symbols]; exact Nat.le_succ _
    case kind? => exact fun i => by rw [Table.kind?, hscope?, ← Table.kind?, hdef.kind?]
    case parent? => exact fun i => by rw [Table.parent?, hscope?, ← Table.parent?, hdef.parent?]
    case function? =>
      exact fun i => by rw [Table.function?, hscope?, ← Table.function?, hdef.function?]
    case nestedOf =>
      exact fun i => by rw [Table.nestedOf, hscope?, ← Table.nestedOf, hdef.nestedOf]
    case own => rw [hsymbolsOf, hdef.symbolsOf, if_pos ⟨rfl, hscope⟩, hnew]
    case frame => exact fun i hne => by rw [hsymbolsOf, hdef.symbolsOf, if_neg fun h => hne h.1]
    case name? => exact fun {i} hi => by rw [hadds.name?, hdef.symbol?, if_neg (hold i hi)]
    case symbol? =>
      exact fun {i} hne hi => by rw [hadds.symbol? i hne, hdef.symbol?, if_neg (hold i hi)]
    case func? =>
      intro i sig hi hsig
      have hfunc : t'.func? i = some sig := by
        rw [Table.func?, hdef.symbol?, if_neg (hold i (hf i hi)), ← Table.func?, hsig]
      rw [hadds.func? i hi, hfunc, hnew]
      rfl
    case wellFormed => exact fun ht => hadds.wellFormed (ht.define hdef)
  · rw [hadds.symbol? id fun he => hold id (hf id he) rfl, hdef.symbol?, if_pos rfl]

/-- A function that is new itself may get parameters. -/
theorem extends_of {base : Table} (h : Fills scope f t t') (hbase : base.Extends t)
    (hf : ∀ g ∈ f, base.symbols.size ≤ g.index) : base.Extends t' where
  size_scopes := h.size_scopes ▸ hbase.size_scopes
  size_symbols := Nat.le_trans hbase.size_symbols h.size_symbols
  kind? i hi := (h.kind? i).trans (hbase.kind? i hi)
  parent? i hi := (h.parent? i).trans (hbase.parent? i hi)
  function? i hi := (h.function? i).trans (hbase.function? i hi)
  symbol? {id} hid := by
    have hne : f ≠ some id := fun he => Nat.not_lt_of_le (hf id he) hid
    exact (h.symbol? hne (Nat.lt_of_lt_of_le hid hbase.size_symbols)).trans (hbase.symbol? hid)

end Fills

/-! ## Other types of variables -/

/-- The tables differ at most in the types of variables, which are in the given relation. -/
structure UpTo (R : Option Ty → Option Ty → Prop) (t t' : Table) : Prop where
  scopes : t'.scopes = t.scopes
  var? : ∀ {id v}, t.var? id = some v →
    ∃ ty, t'.var? id = some { v with ty := ty } ∧ R v.ty ty
  other : ∀ {id}, t.var? id = none → t'.symbol? id = t.symbol? id

namespace UpTo

variable {R : Option Ty → Option Ty → Prop}

theorem refl (hR : ∀ ty, R ty ty) (t : Table) : t.UpTo R t :=
  ⟨rfl, fun {_ v} hv => ⟨v.ty, hv, hR v.ty⟩, fun _ => rfl⟩

section

variable (h : t.UpTo R t') (i : ScopeId) (scope : ScopeId) (name : String)

include h

theorem scope? : t'.scope? i = t.scope? i := by
  rw [Table.scope?, h.scopes, Table.scope?]

theorem kind? : t'.kind? i = t.kind? i := by
  rw [Table.kind?, h.scope?, Table.kind?]

theorem symbolsOf : t'.symbolsOf i = t.symbolsOf i := by
  rw [Table.symbolsOf, h.scope?, Table.symbolsOf]

theorem parent? : t'.parent? i = t.parent? i := by
  rw [Table.parent?, h.scope?, Table.parent?]

theorem func? (id : SymbolId) : t'.func? id = t.func? id := by
  cases hv : t.var? id with
  | none => rw [Table.func?, h.other hv, Table.func?]
  | some v =>
    obtain ⟨ty, hv', -⟩ := h.var? hv
    rw [Table.func?, Table.func?, symbol?_of_var? hv, symbol?_of_var? hv']
    rfl

theorem name? (id : SymbolId) :
    (t'.symbol? id).map Symbol.name = (t.symbol? id).map Symbol.name := by
  cases hv : t.var? id with
  | none => rw [h.other hv]
  | some v =>
    obtain ⟨ty, hv', -⟩ := h.var? hv
    rw [symbol?_of_var? hv, symbol?_of_var? hv']
    rfl

theorem resolveLocal : t'.resolveLocal scope name = t.resolveLocal scope name := by
  simp only [Table.resolveLocal, h.symbolsOf, h.name?]

theorem chain : t'.chain scope = t.chain scope := by
  have hfrom : ∀ fuel i, t'.chainFrom fuel i = t.chainFrom fuel i := by
    intro fuel
    induction fuel with
    | zero => intro i; rfl
    | succ fuel ih =>
      intro i
      simp only [chainFrom, h.scope?, ih]
  exact hfrom _ _

theorem resolve : t'.resolve scope name = t.resolve scope name := by
  simp only [Table.resolve, h.chain, h.resolveLocal]

theorem enclosingFunction : t'.enclosingFunction scope = t.enclosingFunction scope := by
  simp only [Table.enclosingFunction, h.chain, h.kind?, h.scope?]

theorem var?_eq_none (hv : t.var? id = none) : t'.var? id = none := by
  rw [Table.var?, h.other hv]
  exact hv

/-- A variable of the second table is one of the first table, up to its type. -/
theorem var?_back (hv' : t'.var? id = some v') :
    ∃ v, t.var? id = some v ∧ v' = { v with ty := v'.ty } ∧ R v.ty v'.ty := by
  cases hv : t.var? id with
  | none => rw [h.var?_eq_none hv] at hv'; cases hv'
  | some v =>
    obtain ⟨ty, hw, hty⟩ := h.var? hv
    grind

end

end UpTo

/-- The table with other types of variables: everything is as before, except that a variable that is
no parameter may have got another type. -/
structure Retypes (t t' : Table) : Prop where
  scopes : t'.scopes = t.scopes
  var? : ∀ {id v}, t.var? id = some v →
    ∃ ty, t'.var? id = some { v with ty := ty } ∧ (v.isParameter → ty = v.ty) ∧
      (v.ty.isSome → ty.isSome)
  other : ∀ {id}, t.var? id = none → t'.symbol? id = t.symbol? id

namespace Retypes

theorem refl (t : Table) : t.Retypes t :=
  ⟨rfl, fun {_ v} h => ⟨v.ty, h, fun _ => rfl, id⟩, fun _ => rfl⟩

theorem trans {a b c : Table} (h₁ : a.Retypes b) (h₂ : b.Retypes c) : a.Retypes c where
  scopes := h₂.scopes.trans h₁.scopes
  var? {id v} hv := by
    obtain ⟨ty₁, hv₁, hparam₁, hsome₁⟩ := h₁.var? hv
    obtain ⟨ty₂, hv₂, hparam₂, hsome₂⟩ := h₂.var? hv₁
    exact ⟨ty₂, hv₂, fun hp => (hparam₂ hp).trans (hparam₁ hp), fun hs => hsome₂ (hsome₁ hs)⟩
  other {id} hv := by
    have hsame := h₁.other hv
    have hv₁ : b.var? id = none := by rw [Table.var?, hsame]; exact hv
    exact (h₂.other hv₁).trans hsame

section

variable (h : t.Retypes t') (i : ScopeId) (scope : ScopeId)

include h

theorem upTo : t.UpTo (fun _ _ => True) t' where
  scopes := h.scopes
  var? hv := (h.var? hv).imp fun _ h => ⟨h.1, trivial⟩
  other := h.other

theorem scope? : t'.scope? i = t.scope? i :=
  h.upTo.scope? i

theorem kind? : t'.kind? i = t.kind? i :=
  h.upTo.kind? i

theorem symbolsOf : t'.symbolsOf i = t.symbolsOf i :=
  h.upTo.symbolsOf i

theorem parent? : t'.parent? i = t.parent? i :=
  h.upTo.parent? i

theorem func? (id : SymbolId) : t'.func? id = t.func? id :=
  h.upTo.func? id

theorem name? (id : SymbolId) : (t'.symbol? id).map Symbol.name = (t.symbol? id).map Symbol.name :=
  h.upTo.name? id

theorem resolve (name : String) : t'.resolve scope name = t.resolve scope name :=
  h.upTo.resolve scope name

theorem enclosingFunction : t'.enclosingFunction scope = t.enclosingFunction scope :=
  h.upTo.enclosingFunction scope

theorem var?_eq_none (hv : t.var? id = none) : t'.var? id = none :=
  h.upTo.var?_eq_none hv

/-- A variable of the later table was one of the earlier table, up to its type. -/
theorem var?_back (hv' : t'.var? id = some v') :
    ∃ v, t.var? id = some v ∧ v' = { v with ty := v'.ty } ∧ (v.isParameter → v'.ty = v.ty) ∧
      (v.ty.isSome → v'.ty.isSome) := by
  obtain ⟨v, hv, heq, -⟩ := h.upTo.var?_back hv'
  obtain ⟨ty, hw, hparam, hsome⟩ := h.var? hv
  grind

end

end Retypes

/-- The variable with the given number gets the type and the others keep theirs. -/
theorem var?_setVariableTy {ty : Ty} : (t.setVariableTy id ty).var? i =
      if i = id then (t.var? i).map fun v => { v with ty := some ty } else t.var? i := by
  rw [var?, setVariableTy, symbol?_modifySymbol, var?]
  split
  · rcases t.symbol? i with _ | _ | _ | _ <;> rfl
  · rfl

/-- What is no variable stays as it is. -/
theorem symbol?_setVariableTy {ty : Ty} (hi : t.var? i = none) :
    (t.setVariableTy id ty).symbol? i = t.symbol? i := by
  rw [var?] at hi
  rw [setVariableTy, symbol?_modifySymbol]
  split
  · rcases h : t.symbol? i with _ | _ | _ | _ <;> first | rfl | (rw [h] at hi; cases hi)
  · rfl

theorem var?_eq_none_of_setVariableTy {ty : Ty}
    (h : (t.setVariableTy id ty).var? i = none) : t.var? i = none := by
  rw [var?_setVariableTy] at h
  split at h
  · exact map_eq_none_iff.mp h
  · exact h

theorem retypes_setVariableTy {ty : Ty} (hv : t.var? id = some v)
    (hparam : v.isParameter = false) : t.Retypes (t.setVariableTy id ty) where
  scopes := rfl
  var? {i w} hw := by
    rw [var?_setVariableTy]
    split
    · rename_i hi
      subst hi
      rw [hv] at hw
      cases hw
      refine ⟨some ty, by rw [hv]; rfl, ?_, fun _ => rfl⟩
      intro hp
      rw [hparam] at hp
      cases hp
    · exact ⟨w.ty, hw, fun _ => rfl, fun h => h⟩
  other := symbol?_setVariableTy

end WichToC.Table

import WichToC.Proofs.BuiltModel

/-!
# Generated names are fresh

Building hands out two kinds of names, temporaries and the C names of renamed variables.
`Build.Reserving` follows the temporaries through the steps of building: whatever the table and the
script, those that one function reserves are different from each other and from all other names.
-/

namespace WichToC.Build

open List Node Fresh Prod

/-- What is known of the names at any time: besides the names of the program, those of renamed
variables are taken, and these are different variants. -/
structure Names.Accounted (t : Table) (names : Names) : Prop where
  taken : names.taken = names.renamed.map snd ++ t.names
  nodup : (names.renamed.map snd).Nodup
  variant : ∀ x ∈ names.renamed.map snd, x ∉ t.names ∧ ∃ base n, x = variant base n

/-- A step that finds the temporaries `before` reserved leaves those reserved that `after` says of
its result, if it succeeds. -/
def Reserving {α : Type} (t : Table) (before : List String) (b : Builder α)
    (after : α → List String) :
    Prop :=
  ∀ lo names a names', names.Accounted t → Reserves t lo names.next before →
    b names = .ok (a, names') → names'.Accounted t ∧ Reserves t lo names'.next (after a)

variable {t : Table} {names : Names} {before : List String} {α β : Type} {n : Node} {cs : List Node}

namespace Names.Accounted

theorem initial (t : Table) : Names.Accounted t { taken := t.names } :=
  ⟨rfl, nodup_nil, forall_mem_nil _⟩

theorem good (h : names.Accounted t) : names.Good t where
  covers x hx := h.taken ▸ mem_append_right _ hx
  renamed p hp := by
    have hmem := mem_map_of_mem (f := snd) hp
    obtain ⟨hnot, hvariant⟩ := h.variant _ hmem
    exact ⟨hvariant, h.taken ▸ mem_append_left _ hmem, hnot⟩

theorem advance {names' : Names} (h : names.Accounted t) (hadv : names.Advances names') :
    names'.Accounted t := by
  constructor
  · rw [hadv.taken, hadv.renamed, h.taken]
  · rw [hadv.renamed]
    exact h.nodup
  · rw [hadv.renamed]
    exact h.variant

end Names.Accounted

/-- Steps that succeed one after the other. -/
theorem ok_of_bind {b : Builder α} {f : α → Builder β} {c : β} {names' : Names}
    (h : (b >>= f) names = .ok (c, names')) :
    ∃ a names₁, b names = .ok (a, names₁) ∧ f a names₁ = .ok (c, names') := by
  have h : (b names >>= fun r => f r.1 r.2) = .ok (c, names') := h
  cases hfirst : b names with
  | error e =>
    rw [hfirst] at h
    cases h
  | ok r =>
    rw [hfirst] at h
    exact ⟨r.1, r.2, rfl, h⟩

namespace Reserving

variable {b : Builder α} {after : α → List String} {found : List String}
    (scratch : List (String × Ty)) (cs : List Node)

theorem pure {a : α} (h : before.Perm (after a)) : Reserving t before (Pure.pure a) after := by
  intro lo names _ _ hnames hbefore hrun
  cases hrun
  exact ⟨hnames, hbefore.perm h⟩

theorem perm (h : found.Perm before) (hb : Reserving t before b after) :
    Reserving t found b after :=
  fun _ _ _ _ hnames hfound => hb _ _ _ _ hnames (hfound.perm h)

theorem fails (e : BuildError) : Reserving t before (throw e) after := by
  intro lo names _ _ _ _ hrun
  cases hrun

theorem bind {f : α → Builder β} {after' : β → List String} (hb : Reserving t before b after)
    (hf : ∀ a, Reserving t (after a) (f a) after') : Reserving t before (b >>= f) after' := by
  intro lo names c names' hnames hbefore hrun
  obtain ⟨a, names₁, hfirst, hrest⟩ := ok_of_bind hrun
  obtain ⟨hnames, hafter⟩ := hb _ _ _ _ hnames hbefore hfirst
  exact hf a _ _ _ _ hnames hafter hrest

/-- A step that hands out no names. -/
theorem idle (h : ∀ {names a names'}, b names = .ok (a, names') →
    names'.next = names.next ∧ names.Advances names') : Reserving t before b fun _ => before := by
  intro lo names a names' hnames hbefore hrun
  obtain ⟨hnext, hadv⟩ := h hrun
  exact ⟨hnames.advance hadv, hnext ▸ hbefore⟩

theorem newTemp : Reserving t before newTemp fun temp => before ++ [temp] := by
  intro lo names temp names' hnames hbefore hrun
  have hsearch : Search names.taken temporary names.next :=
    .of_injective temporary_injective _
  cases hrun
  refine ⟨hnames.advance ⟨rfl, rfl⟩,
    hbefore.append ⟨Nat.le_succ_of_le hsearch.le, nodup_singleton _,
    forall_mem_singleton.mpr ⟨_, hsearch.le, Nat.lt_succ_self _, rfl, fun hmem => hsearch.free ?_⟩⟩⟩
  exact hnames.good.covers _ hmem

theorem rename (id : SymbolId) (name : String) :
    Reserving t before (rename id name) fun _ => before := by
  intro lo names fresh names' hnames hbefore hrun
  have hnot : variant name (first names.taken (variant name) 1) ∉ names.taken :=
    candidate_first_not_mem variant_injective 1
  cases hrun
  rw [hnames.taken, mem_append, not_or, ← hnames.taken] at hnot
  refine ⟨⟨?_, ?_, ?_⟩, hbefore⟩
  · simp [hnames.taken]
  · exact nodup_cons.mpr ⟨hnot.1, hnames.nodup⟩
  · exact forall_mem_cons.mpr ⟨⟨hnot.2, _, _, rfl⟩, hnames.variant⟩

theorem exprTy (e : Expr) : Reserving t before (exprTy e) fun _ => before := by
  unfold Build.exprTy
  split
  · exact fails _
  · exact fails _
  · exact .pure (.refl _)

theorem effectiveTy (e : Expr) : Reserving t before (effectiveTy e) fun _ => before :=
  (exprTy e).bind fun _ => .pure (.refl _)

theorem cName (symbol : Option SymbolId) (name : String) :
    Reserving t before (cName symbol name) fun _ => before :=
  idle fun hrun => by cases hrun; exact ⟨rfl, rfl, rfl⟩

theorem swapScratch : Reserving t before (swapScratch scratch) fun _ => before :=
  idle fun hrun => by cases hrun; exact ⟨rfl, rfl, rfl⟩

/-- A node that reserves no temporary of its own. -/
theorem node (hchildren : n.children = cs) (hown : n.ownNames = [])
    (hfound : found.Perm (before ++ cs.flatMap reserved)) :
    Reserving t found (Pure.pure n) fun n => before ++ n.reserved := by
  refine .pure ?_
  rwa [reserved_eq, hchildren, hown, append_nil]

/-- A node that reserves one temporary of its own. -/
theorem withTemp (make : String → Node)
    (hmake : ∀ temp, (make temp).children = cs ∧ (make temp).ownNames = [temp])
    (hfound : found.Perm (before ++ cs.flatMap reserved)) :
    Reserving t found (Build.newTemp >>= fun temp => Pure.pure (make temp)) fun n =>
      before ++ n.reserved := by
  refine newTemp.bind fun temp => .pure ?_
  rw [reserved_eq, (hmake temp).1, (hmake temp).2, ← append_assoc]
  exact hfound.append_right _

/-! ## Expressions -/

/-- The names that a bound operand reserves. -/
def boundNames : Option (String × Node) → List String
  | some (name, value) => value.reserved ++ [name]
  | none => []

/-- A vector operand is read twice, and what is read then reserves nothing. -/
theorem bindVector (before : List String) (vector : Node) :
    Reserving t (before ++ vector.reserved) (bindVector vector) fun r =>
      before ++ boundNames r.2 ++ r.1.reserved ++ r.1.reserved := by
  unfold Build.bindVector
  split
  · have hread : vector.reserved = [] := by
      cases vector <;> first | rfl | contradiction
    exact .pure (by simp [boundNames, hread])
  · refine newTemp.bind fun name => Reserving.bind
      (idle fun hrun => by cases hrun; exact ⟨rfl, rfl, rfl⟩) fun _ => .pure ?_
    have hread : (Node.temp name .vector).reserved = [] := rfl
    simp [boundNames, hread]

theorem broadcast (before : List String) (scalar : Node) (scalarTy : Ty) (vector : Node) :
    Reserving t (before ++ vector.reserved ++ scalar.reserved) (broadcast scalar scalarTy vector)
      fun n => before ++ n.reserved := by
  unfold Build.broadcast
  refine newTemp.bind fun lenTemp => newTemp.bind fun temp => .pure ?_
  rw [reserved_eq (.widen ..)]
  simp [children, ownNames, temp?, reserved_eq (.length ..)]
  grind

theorem binary (op : Operator) (ty : Ty) (l : Node) (lty : Ty) (r : Node) (rty : Ty) :
    Reserving t (before ++ l.reserved ++ r.reserved) (binary op ty l lty r rty) fun n =>
      before ++ n.reserved := by
  unfold Build.binary
  extract_lets operandTy kind rest
  have hrest : ∀ l r bound, Reserving t (before ++ boundNames bound ++ l.reserved ++ r.reserved)
      (rest (l, r, bound)) fun n => before ++ n.reserved := by
    intro l r bound
    refine newTemp.bind fun temp => ?_
    extract_lets node
    have hnode : node.reserved = l.reserved ++ r.reserved ++ [temp] := by
      rw [reserved_eq]
      simp [node, children, ownNames, temp?]
    cases bound with
    | none => exact .pure (by simp [boundNames, hnode])
    | some p =>
      refine .pure ?_
      rw [reserved_eq (.bind ..)]
      simp only [children, slots, Slot.toList, boundNames, ownNames, Option.toList_some,
        flatMap_cons, flatMap_nil, append_nil, hnode, cons_append, nil_append]
      grind
  split
  · refine (perm ?_ (bindVector (before ++ r.reserved) l)).bind fun p =>
      (perm ?_ (broadcast _ r rty p.1)).bind fun s => hrest p.1 s p.2
    · grind
    · grind
  · split
    · refine (bindVector _ r).bind fun p =>
        (perm ?_ (broadcast (before ++ boundNames p.2 ++ p.1.reserved) l lty p.1)).bind fun s =>
          perm ?_ (hrest s p.1 p.2)
      · grind
      · grind
    · exact perm (by simp [boundNames]) (hrest l r none)

theorem widened (node : Node) (ty : Ty) (promoteTo : Option Ty) :
    Reserving t (before ++ node.reserved) (widened node ty promoteTo) fun n =>
      before ++ n.reserved := by
  unfold Build.widened
  split
  · exact .pure (.refl _)
  · split
    · exact .pure (.refl _)
    · split
      · exact withTemp [node] (fun temp => .widen .intToFloat .float temp (some node) none)
          (fun _ => ⟨rfl, rfl⟩) (by simp)
      · exact fails _

/-- What building an expression in its own type reserves. -/
def OfExpr (t : Table) (e : Expr) : Prop :=
  ∀ before ty, Reserving t before (base e ty) fun n => before ++ n.reserved

theorem OfExpr.value {e : Expr} (h : OfExpr t e) :
    Reserving t before (value e (base e)) fun n => before ++ n.reserved := by
  unfold Build.value
  refine (exprTy e).bind fun ty => ?_
  split
  · exact node [] rfl rfl (by simp)
  · exact (h _ _).bind fun n => widened n _ _

theorem OfExpr.operand {e : Expr} (h : OfExpr t e) :
    Reserving t before (operand e (base e)) fun r => before ++ r.1.reserved := by
  unfold Build.operand
  refine (exprTy e).bind fun ty => ?_
  split
  · exact (h _ _).bind fun n => .pure (.refl _)
  · exact h.value.bind fun n => .pure (.refl _)

theorem values {es : List Expr} (h : ∀ e ∈ es, OfExpr t e) :
    Reserving t before (values es) fun ns => before ++ ns.flatMap reserved := by
  induction es generalizing before with
  | nil => exact .pure (by simp)
  | cons e es ih =>
    obtain ⟨he, hes⟩ := forall_mem_cons.mp h
    rw [Build.values]
    exact he.value.bind fun n => (ih hes).bind fun ns => .pure (by simp)

theorem ofExpr (e : Expr) : OfExpr t e := by
  induction e using Expr.induction with
  | step e ih =>
    intro before ty
    rcases e with ⟨kind, span, ety, promoteTo⟩
    show Reserving t before (shape kind ty) _
    cases kind with
    | int | float | bool => exact node [] rfl rfl (by simp)
    | text value =>
      exact withTemp [] (fun temp => .literal .string value temp) (fun _ => ⟨rfl, rfl⟩) (by simp)
    | vector elements =>
      rw [shape]
      exact (values ih).bind fun ns =>
        withTemp ns (fun temp => .vectorLit temp ns) (fun _ => ⟨append_nil _, rfl⟩) (.refl _)
    | name name symbol =>
      rw [shape]
      exact (cName symbol name).bind fun c => node [] rfl rfl (by simp)
    | binary left op right =>
      rw [shape]
      exact (ih left (by simp)).operand.bind fun l => (ih right (by simp)).operand.bind fun r =>
        binary op ty l.1 l.2 r.1 r.2
    | negate inner =>
      rw [shape]
      exact (ih inner (by simp)).value.bind fun n =>
        withTemp [n] (fun temp => .unary .negate ty temp (some n)) (fun _ => ⟨rfl, rfl⟩) (by simp)
    | not inner =>
      rw [shape]
      exact (ih inner (by simp)).value.bind fun n =>
        withTemp [n] (fun temp => .unary .not ty temp (some n)) (fun _ => ⟨rfl, rfl⟩) (by simp)
    | index target i =>
      rw [shape]
      refine (exprTy target).bind fun targetTy => (ih target (by simp)).value.bind fun n =>
        (ih i (by simp)).value.bind fun place => ?_
      exact withTemp [n, place] (fun temp => .index
        (if targetTy = .string then .string else .vector) ty temp (some n) (some place))
        (fun _ => ⟨rfl, rfl⟩) (by simp)
    | len inner =>
      rw [shape]
      exact (exprTy inner).bind fun argTy => (ih inner (by simp)).value.bind fun n =>
        withTemp [n] (fun temp => .length argTy temp (some n)) (fun _ => ⟨rfl, rfl⟩) (by simp)
    | call name args symbol =>
      rw [shape]
      exact (values ih).bind fun ns =>
        withTemp ns (fun temp => .call name ty temp ns) (fun _ => ⟨append_nil _, rfl⟩) (.refl _)

theorem expr (e : Expr) : Reserving t before (expr e) fun n => before ++ n.reserved :=
  (ofExpr e).value

/-! ## Statements -/

theorem declarations {scope : ScopeId} {locals : List (String × Node)} (ids : List SymbolId)
    (hlocals : ∀ p ∈ locals, p.2.reserved = []) :
    Reserving t before (declarations t scope locals ids) fun decls =>
      before ++ (decls.map snd).flatMap reserved := by
  induction ids generalizing locals with
  | nil =>
    have hnone : (locals.map snd).flatMap reserved = [] :=
      flatMap_eq_nil_iff.mpr (forall_mem_map.mpr hlocals)
    exact .pure (by simp [hnone])
  | cons id ids ih =>
    rw [Build.declarations]
    split
    · exact ih hlocals
    · split
      · exact ih hlocals
      · split
        · exact fails _
        · exact fails _
        · extract_lets rest
          have hrest : ∀ name, Reserving t before (rest name) fun decls =>
              before ++ (decls.map snd).flatMap reserved := fun name => ih fun p hp => by
            rcases mem_insertEntry hp with rfl | hp
            · rfl
            · exact hlocals p hp
          split
          · exact (rename id _).bind hrest
          · exact hrest _

theorem localsOf (scope : ScopeId) : Reserving t before (localsOf t scope) fun decls =>
    before ++ (decls.map snd).flatMap reserved :=
  declarations _ (forall_mem_nil _)

theorem tempDecls_reserve : ((tempDecls scratch).map snd).flatMap reserved = [] := by
  refine flatMap_eq_nil_iff.mpr (forall_mem_map.mpr fun p hp => ?_)
  obtain ⟨name, ty, heq⟩ := tempDecls_isTempDecl scratch p hp
  rw [heq]
  rfl

theorem stmts {ss : List Stmt}
    (h : ∀ s ∈ ss, ∀ before, Reserving t before (stmt t s) fun n => before ++ n.reserved) :
    Reserving t before (stmts t ss) fun ns => before ++ ns.flatMap reserved := by
  induction ss generalizing before with
  | nil => exact .pure (by simp)
  | cons s ss ih =>
    obtain ⟨hs, hss⟩ := forall_mem_cons.mp h
    rw [Build.stmts]
    exact (hs before).bind fun n => (ih hss).bind fun ns => .pure (by simp)

theorem blockOf {b : Block} (isFunctionBody : Bool)
    (h : ∀ s ∈ b.statements, ∀ before, Reserving t before (stmt t s) fun n => before ++
    n.reserved) :
    Reserving t before (block t isFunctionBody b) fun n => before ++ n.reserved := by
  rcases b with ⟨statements, span, _ | scope⟩
  · exact fails _
  · rw [Build.block]
    refine (localsOf scope).bind fun locals => (swapScratch []).bind fun outer =>
      (stmts h).bind fun ns => (swapScratch outer).bind fun scratch => ?_
    refine node _ (children_block _) rfl ?_
    simp [tempDecls_reserve]

theorem blockOf? {o : Option Block} (h : ∀ b ∈ o.toList, ∀ s ∈ b.statements, ∀ before,
      Reserving t before (Build.stmt t s) fun n => before ++ n.reserved) :
    Reserving t before (block? t o) fun no => before ++ no.toList.flatMap reserved := by
  cases o with
  | none => exact .pure (by simp)
  | some b => exact (blockOf false (h b (.head _))).bind fun n => .pure (by simp)

theorem stmt (s : Stmt) (before : List String) :
    Reserving t before (stmt t s) fun n => before ++ n.reserved := by
  induction s using Stmt.induction generalizing before with
  | step s ih =>
    rcases s with ⟨kind, span⟩
    show Reserving t before (stmtKind t kind) _
    cases kind with
    | define name value symbol =>
      rw [stmtKind]
      exact (effectiveTy value).bind fun ty => (expr value).bind fun n =>
        (cName symbol name).bind fun c =>
        node [n] rfl rfl (by simp)
    | assign name value symbol =>
      rw [stmtKind]
      exact (effectiveTy value).bind fun ty => (expr value).bind fun n =>
        (cName symbol name).bind fun c =>
        withTemp [n] (fun temp => .assign c ty temp (some n)) (fun _ => ⟨rfl, rfl⟩) (by simp)
    | assignElement name i value symbol =>
      rw [stmtKind]
      exact (expr i).bind fun place => (expr value).bind fun n => (cName symbol name).bind fun c =>
        node [place, n] rfl rfl (by simp)
    | ifElse cond thenBlock elseBlock =>
      rw [stmtKind]
      refine (expr cond).bind fun test =>
        (blockOf false (ih thenBlock (by simp))).bind fun yes => ?_
      exact (blockOf? fun b hb => ih b (by simp [hb])).bind fun no =>
        node (test :: yes :: no.toList) (by simp [children]) rfl (by simp)
    | loop cond body =>
      rw [stmtKind]
      exact (expr cond).bind fun test => (blockOf false (ih body (by simp))).bind fun again =>
        node [test, again] rfl rfl (by simp)
    | call call =>
      rw [stmtKind]
      exact (expr call).bind fun n => node [n] rfl rfl (by simp)
    | print value =>
      cases value with
      | none => exact node [] rfl rfl (by simp)
      | some value =>
        rw [stmtKind]
        exact (effectiveTy value).bind fun ty => (expr value).bind fun n =>
          node [n] rfl rfl (by simp)
    | ret value =>
      rw [stmtKind]
      exact (effectiveTy value).bind fun ty => (expr value).bind fun n =>
        withTemp [n] (fun temp => .returnStat ty temp (some n)) (fun _ => ⟨rfl, rfl⟩) (by simp)
    | block inner =>
      rw [stmtKind]
      exact (blockOf false (ih inner (by simp))).bind fun n => node [n] rfl rfl (by simp)

end Reserving

/-! ## Functions -/

variable {names' : Names}

theorem args_reserve (function : String) (params : List SymbolId) :
    Reserving t before (args t function params) fun ns => before ++ ns.flatMap reserved := by
  induction params generalizing before with
  | nil => exact .pure (by simp)
  | cons id params ih =>
    have hfirst : ∀ n : Node, Reserving t (before ++ n.reserved)
      (args t function params >>= fun ns =>
        Pure.pure (n :: ns)) fun ns => before ++ ns.flatMap reserved := fun n =>
      ih.bind fun ns => .pure (by simp)
    rw [args, mapM_cons]
    refine Reserving.bind ?_ hfirst
    split
    · exact .fails _
    · split
      · exact .fails _
      · exact .node [] rfl rfl (by simp)

/-- A function begins with no temporaries. -/
theorem reserves_of_restart {b : Builder Node} (hb : Reserving t [] b reserved)
    (hnames : names.Accounted t) (h : (restart >>= fun _ => b) names = .ok (n, names')) :
    names'.Accounted t ∧ ReservesTemps t n := by
  have hstart : Names.Accounted t { names with next := 0 } := hnames.advance ⟨rfl, rfl⟩
  obtain ⟨hnames', hreserves⟩ := hb 0 _ _ _ hstart (.nil (Nat.le_refl 0)) h
  exact ⟨hnames', hreserves.nodup, hreserves.isTemp⟩

theorem func_reserves {f : Function} (hnames : names.Accounted t)
    (h : func t f names = .ok (n, names')) : names'.Accounted t ∧ ReservesTemps t n := by
  refine reserves_of_restart ?_ hnames h
  split
  · refine (args_reserve f.name _).bind fun params =>
      (Reserving.blockOf true fun s _ => .stmt s).bind fun body => .pure ?_
    rw [reserved_eq (.func ..)]
    simp [children, ownNames, temp?]
  · exact .fails _

theorem funcs_reserve {fs : List Function} {ns : List Node} (hnames : names.Accounted t)
    (h : fs.mapM (func t) names = .ok (ns, names')) :
    names'.Accounted t ∧ ∀ n ∈ ns, ReservesTemps t n := by
  induction fs generalizing names ns with
  | nil =>
    cases h
    exact ⟨hnames, nofun⟩
  | cons f fs ih =>
    rw [mapM_cons] at h
    obtain ⟨n, names₁, hfirst, h⟩ := ok_of_bind h
    obtain ⟨ns, names₂, hothers, h⟩ := ok_of_bind h
    cases h
    obtain ⟨hnames, hn⟩ := func_reserves hnames hfirst
    grind

theorem file_reserves {script : Script} (hnames : names.Accounted t)
    (h : file t script names = .ok (n, names')) :
    names'.Accounted t ∧ ∃ globals funcs main, n = .file globals funcs (some main) ∧
      ∀ f ∈ main :: funcs, ReservesTemps t f := by
  cases hscope : script.scope with
  | none =>
    rw [file, hscope] at h
    cases h
  | some global =>
    rw [file, hscope] at h
    obtain ⟨globals, names₁, hglobals, hrest⟩ := ok_of_bind h
    obtain ⟨hnames, -⟩ := Reserving.localsOf global _ _ _ _ hnames (.nil (Nat.le_refl _)) hglobals
    obtain ⟨funcs, names₂, hfuncs, hmain⟩ := ok_of_bind hrest
    obtain ⟨hnames, hfuncs⟩ := funcs_reserve hnames hfuncs
    -- The temporaries of the main function are numbered from zero again.
    obtain ⟨_, _, hrestart, hmain⟩ := ok_of_bind hmain
    cases hrestart
    have hstart : Names.Accounted t { names₂ with next := 0 } := hnames.advance ⟨rfl, rfl⟩
    obtain ⟨stats, names₃, hstats, hfile⟩ := ok_of_bind hmain
    obtain ⟨hnames, hreserves⟩ := Reserving.stmts (fun s _ => .stmt s) _ _ _ _ hstart
      (.nil (Nat.le_refl 0)) hstats
    cases hfile
    have hmain : ∀ n : Node, n.reserved = stats.flatMap reserved → ReservesTemps t n := fun n hn =>
      ⟨hn ▸ hreserves.nodup, hn ▸ hreserves.isTemp⟩
    refine ⟨hnames.advance ⟨rfl, rfl⟩, _, _, _, rfl, forall_mem_cons.mpr ⟨hmain _ ?_, hfuncs⟩⟩
    simp [reserved_eq (.mainFunc _), reserved_eq (.block _), children, ownNames, temp?,
      Reserving.tempDecls_reserve]

end WichToC.Build

namespace WichToC

open List Build

/-- **Generated names are fresh.**  In a built model the temporaries of a function differ from each
other, from all names of the table and from all renamed variables.  Renamed variables differ from
each other and from the names of the table.  Each search for a name takes the first candidate that
is free and passes over no more candidates than there are taken names. -/
theorem generated_names_fresh {t : Table} {script : Script} {model : Node} {names : Names}
    (h : file t script { taken := t.names } = .ok (model, names)) :
    (∃ globals funcs main, model = .file globals funcs (some main) ∧
      ∀ f ∈ main :: funcs, f.reserved.Nodup ∧
        ∀ x ∈ f.reserved, x ∉ t.names ∧ x ∉ names.renamed.map Prod.snd) ∧
    ((names.renamed.map Prod.snd).Nodup ∧ ∀ x ∈ names.renamed.map Prod.snd, x ∉ t.names) ∧
    ∀ taken start, Fresh.Search taken Fresh.temporary start ∧
      ∀ name, Fresh.Search taken (Fresh.variant name) start := by
  obtain ⟨hnames, globals, funcs, main, rfl, hfuncs⟩ := file_reserves (.initial t) h
  refine ⟨⟨globals, funcs, main, rfl, fun f hf => ⟨(hfuncs f hf).nodup, fun x hx => ?_⟩⟩,
    ⟨hnames.nodup, fun x hx => (hnames.variant x hx).1⟩,
    fun taken start => ⟨.of_injective Fresh.temporary_injective start,
      fun name => .of_injective Fresh.variant_injective start⟩⟩
  obtain ⟨n, rfl, hnot⟩ := (hfuncs f hf).isTemp x hx
  refine ⟨hnot, fun hrenamed => ?_⟩
  obtain ⟨-, base, m, heq⟩ := hnames.variant _ hrenamed
  exact Fresh.temporary_ne_variant heq

/-- A script with names like generated ones. -/
def lookalikes : Analysis :=
  .ofSource ("var t1 = 1\nvar x_1 = 2\nfunc f(x : int, t0 : string) : string \x7b\n" ++
    "  var y = [1, 2] * x\n  if (x < 2) \x7b var x = t0 + t0 return x \x7d\n" ++
    "  return \"a\" + \"b\"\n\x7d\n") {}

set_option maxRecDepth 20000 in
/-- A variable that hides a parameter gets a name that the script leaves free, and temporaries
differ from it and from the names of the script. -/
theorem generated_names_fresh_lookalikes : ∃ model names,
    file lookalikes.table lookalikes.script { taken := lookalikes.table.names } =
        .ok (model, names) ∧ names.renamed.map Prod.snd = ["x_2"] ∧
      ∃ globals funcs main, model = .file globals funcs (some main) ∧
        ∀ f ∈ main :: funcs, f.reserved.Nodup ∧
          ∀ x ∈ f.reserved, x ∉ lookalikes.table.names ∧ x ∉ ["x_2"] := by
  have hrenamed : ((file lookalikes.table lookalikes.script
      { taken := lookalikes.table.names }).toOption.map fun r => r.2.renamed.map Prod.snd) =
        some ["x_2"] := by
    decide +kernel
  cases hrun : file lookalikes.table lookalikes.script { taken := lookalikes.table.names } with
  | error e =>
    rw [hrun] at hrenamed
    cases hrenamed
  | ok r =>
    rw [hrun] at hrenamed
    have hnames := Option.some.inj hrenamed
    refine ⟨r.1, r.2, rfl, hnames, ?_⟩
    exact hnames ▸ (generated_names_fresh hrun).1

end WichToC

import WichToC.Proofs.Acceptance

/-!
# Everything is annotated

Analysis fills in all annotations of a tree and changes nothing else, also in scripts with faults.
Typing goes into every block, since declaring gave each of them a scope, and leaves no expression
without a type; and every variable that is no parameter is the symbol of a definition, which gives
it a type.  Where the type of a fault appears, the fault has been reported: a script without faults
has none of them.

`Analysis.ofSource_annotates` is the result for a text.
-/

namespace WichToC

open List Annotated Located StmtKind Declare Table

variable {d : Expr} {e : Typed} {a : Analysis} {es es' : List Expr}

/-! ## Expressions -/

/-- The expression `e'` is `e` with a type at every node. -/
structure Annotated.Annotates (e' e : Expr) : Prop where
  plain : e'.plain = e.plain
  typed : ∀ n ∈ e'.nodes, n.ty.isSome

namespace Annotated.Annotates

variable {e' e : Expr}

/-- The annotations of the root do not matter, as long as it has a type. -/
theorem congr (h : e'.Annotates e) (hkind : d.kind = e'.kind) (hspan : d.span = e'.span)
    (hty : d.ty.isSome) : d.Annotates e where
  plain := by
    rw [← h.plain, plain_eq, plain_eq e', hkind, hspan]
  typed := by
    have hinside := (forall_nodes.mp h.typed).2
    rw [← hkind] at hinside
    exact forall_nodes.mpr ⟨hty, hinside⟩

theorem promote (h : e'.Annotates e) (target : Ty) : (e'.promote target).Annotates e := by
  unfold Annotated.promote
  split
  · exact h
  · exact h.congr rfl rfl (forall_nodes.mp h.typed).1

/-- A new node over annotated operands. -/
theorem node {kind' kind : ExprKind} {span : Span} {ty : Ty} {promoteTo ety promoteTo' : Option Ty}
    (hplain : kind'.plain = kind.plain)
    (hoperands : ∀ c ∈ kind'.operands, ∃ e : Expr, c.Annotates e) :
    Annotates ⟨kind', span, some ty, promoteTo⟩ ⟨kind, span, ety, promoteTo'⟩ where
  plain := by rw [Annotated.plain, Annotated.plain, hplain]
  typed := by
    refine forall_nodes.mpr ⟨rfl, fun c hc => ?_⟩
    obtain ⟨e, he⟩ := hoperands c hc
    exact he.typed

end Annotated.Annotates

theorem plainExprs_of_annotates
    (h : Forall₂ Annotates es' es) : plainExprs es' = plainExprs es := by
  induction h with
  | nil => rfl
  | cons hfirst _ ih => rw [plainExprs, plainExprs, hfirst.plain, ih]

theorem exists_annotates (h : Forall₂ Annotates es' es) : ∀ c ∈ es', ∃ e : Expr, c.Annotates e := by
  intro c hc
  obtain ⟨e, -, he⟩ := exists_of_forall₂ h.flip hc
  exact ⟨e, he⟩

namespace Typing

variable {t : Table} {scope : ScopeId}

theorem Typed.annotates_asValue (h : e.expr.Annotates d) : e.asValue.expr.Annotates d := by
  unfold Typed.asValue
  split
  · exact h.congr rfl rfl rfl
  · exact h

theorem Typed.annotates_asElement (h : e.expr.Annotates d) : e.asElement.1.Annotates d := by
  unfold Typed.asElement
  split
  · exact h.promote _
  · exact h.promote _
  · exact h
  · exact h

theorem arguments_annotates {function : String} {position : Nat} {args : List Typed}
    {formals : List (Option Ty)}
    (h : Forall₂ Annotates (args.map Typed.expr) es) :
    Forall₂ Annotates (arguments function position args formals).1 es := by
  induction args generalizing position formals es with
  | nil => simpa [arguments] using h
  | cons a args ih =>
    cases formals with
    | nil => exact h
    | cons formal formals =>
      rw [map_cons] at h
      cases h with
      | cons hfirst hrest =>
        refine .cons ?_ (ih hrest)
        cases formal with
        | none => exact hfirst
        | some expected =>
          dsimp only
          split
          · exact hfirst
          · split
            · exact hfirst.promote _
            · exact hfirst

/-- Typing a shape with annotated operands. -/
theorem shape_annotates {span : Span} {kind : ExprKind}
    (h : ∀ c ∈ kind.operands, (value t scope c).expr.Annotates c) :
    (shape t scope span kind).kind.plain = kind.plain ∧
      ∀ c ∈ (shape t scope span kind).kind.operands, ∃ e : Expr, c.Annotates e := by
  have hdef : ∀ c, (expr t scope c).asValue = value t scope c := fun _ => rfl
  cases kind with
  | int | float | text | bool | name => exact ⟨rfl, nofun⟩
  | vector elements =>
    have hall : Forall₂ Annotates
        ((elements.map (value t scope)).map fun e => e.asElement.1) elements := by
      rw [map_map, forall₂_map_left_iff, forall₂_same]
      exact fun e he => Typed.annotates_asElement (h e he)
    simp only [shape, exprs_eq_map]
    exact ⟨by rw [ExprKind.plain, ExprKind.plain, plainExprs_of_annotates hall],
      exists_annotates hall⟩
  | call function args symbol =>
    have hall : Forall₂ Annotates ((args.map (value t scope)).map Typed.expr) args := by
      rw [map_map, forall₂_map_left_iff, forall₂_same]
      exact h
    have hresult : ∀ {es : List Expr} {found : Option SymbolId},
        Forall₂ Annotates es args →
        (ExprKind.call function es found).plain = (ExprKind.call function args symbol).plain ∧
          ∀ c ∈ (ExprKind.call function es found).operands, ∃ e : Expr, c.Annotates e := by
      intro es found hes
      exact ⟨by rw [ExprKind.plain, ExprKind.plain, plainExprs_of_annotates hes],
        exists_annotates hes⟩
    simp only [shape, exprs_eq_map]
    unfold call
    dsimp only
    split
    · exact hresult hall
    · split
      · exact hresult hall
      · split
        · exact hresult hall
        · exact hresult (arguments_annotates hall)
  | binary left op right =>
    have hl := h left (by simp)
    have hr := h right (by simp)
    have hresult : ∀ {l r : Expr}, l.Annotates left → r.Annotates right →
        (ExprKind.binary l op r).plain = (ExprKind.binary left op right).plain ∧
          ∀ c ∈ (ExprKind.binary l op r).operands, ∃ e : Expr, c.Annotates e := by
      intro l r hl hr
      refine ⟨by rw [ExprKind.plain, ExprKind.plain, hl.plain, hr.plain], ?_⟩
      simpa using ⟨⟨left, hl⟩, ⟨right, hr⟩⟩
    simp only [shape, hdef]
    unfold binary
    dsimp only
    split
    · exact hresult hl hr
    · split
      · exact hresult hl hr
      · exact hresult (hl.promote _) (hr.promote _)
      · exact hresult hl hr
      · exact hresult hl hr
  | index target i =>
    have ht := h target (by simp)
    have hi := h i (by simp)
    simp only [shape, hdef]
    split
    all_goals
      refine ⟨by rw [ExprKind.plain, ExprKind.plain, ht.plain, hi.plain], ?_⟩
      simpa using ⟨⟨target, ht⟩, ⟨i, hi⟩⟩
  | negate operand | not operand | len operand =>
    have ho := h operand (by simp)
    simp only [shape, hdef]
    split
    all_goals
      refine ⟨by rw [ExprKind.plain, ExprKind.plain, ho.plain], ?_⟩
      simpa using ⟨operand, ho⟩

/-- **Expressions.**  Typing gives every node of an expression a type. -/
theorem expr_annotates (t : Table) (scope : ScopeId) (e : Expr) :
    (expr t scope e).expr.Annotates e := by
  induction e using Expr.induction with
  | step e ih =>
    rcases e with ⟨kind, span, ty, promoteTo⟩
    obtain ⟨hplain, hoperands⟩ := shape_annotates
      fun c hc => Typed.annotates_asValue (ih c hc)
    exact .node hplain hoperands

theorem value_annotates (t : Table) (scope : ScopeId) (e : Expr) :
    (value t scope e).expr.Annotates e :=
  Typed.annotates_asValue (expr_annotates t scope e)

end Typing

/-! ## Statements -/

/-- All blocks of a statement have scopes and all its expressions have types, also in the statements
inside it. -/
def Located.Complete (s : Stmt) : Prop :=
  ∀ c ∈ s.nodes, (∀ b ∈ c.kind.blocks, b.scope.isSome) ∧ ∀ e ∈ c.exprNodes, e.ty.isSome

/-- A block has a scope, and its statements are complete. -/
structure BlockOf.Complete (b : Block) : Prop where
  scope : b.scope.isSome
  inside : ∀ s ∈ b.statements, s.Complete

theorem Located.complete_iff {s : Stmt} :
    s.Complete ↔ (∀ e ∈ s.exprNodes, e.ty.isSome) ∧ ∀ b ∈ s.kind.blocks, b.Complete := by
  refine forall_nodes.trans ⟨fun ⟨h, h'⟩ => ⟨h.2, fun b hb => ⟨h.1 b hb, h' b hb⟩⟩, fun h => ?_⟩
  exact ⟨⟨fun b hb => (h.2 b hb).scope, h.1⟩, fun b hb => (h.2 b hb).inside⟩

namespace Typing

variable {ids : List SymbolId} {span : Span} {t : Table} {kind : StmtKind} {its : List Item}

/-- Tables in which statements can be typed: parameters have types, and the definitions have the
symbols of variables. -/
structure Ready (t : Table) (ids : List SymbolId) : Prop where
  params : ∀ {id v}, t.var? id = some v → v.isParameter = true → v.ty.isSome
  defined : ∀ id ∈ ids, ∃ v, t.var? id = some v ∧ v.isParameter = false

/-- What typing statements does, with or without faults. -/
structure Completes (t t' : Table) (ss tree : List Stmt) : Prop where
  plain : tree.map Located.plain = ss.map Located.plain
  complete : ∀ s ∈ tree, s.Complete
  retypes : t.Retypes t'
  typed : ∀ id ∈ allDefinedIds ss, ∃ v, t'.var? id = some v ∧ v.ty.isSome

/-- What typing a block does. -/
structure CompletesBlock (t t' : Table) (b tree : Block) : Prop where
  plain : tree.plain = b.plain
  complete : tree.Complete
  retypes : t.Retypes t'
  typed : ∀ id ∈ definedIds b.nodes, ∃ v, t'.var? id = some v ∧ v.ty.isSome

/-- What typing blocks one after the other does. -/
inductive CompletesBlocks : Table → List Block → List Block → Table → Prop
  | nil {t : Table} : CompletesBlocks t [] [] t
  | cons {t t₁ t₂ : Table} {b b' : Block} {bs bs' : List Block} (first : CompletesBlock t t₁ b b')
      (rest : CompletesBlocks t₁ bs bs' t₂) : CompletesBlocks t (b :: bs) (b' :: bs') t₂

variable {t t' t'' : Table} {scope : ScopeId}

theorem Ready.retypes (h : Ready t ids) (hret : t.Retypes t') : Ready t' ids where
  params {id v'} hv' hparam := by
    obtain ⟨v, hv, heq, hsame, hsome⟩ := hret.var?_back hv'
    rw [heq] at hparam
    exact hsome (h.params hv hparam)
  defined id hid := by
    obtain ⟨v, hv, hparam⟩ := h.defined id hid
    obtain ⟨ty, hv', -⟩ := hret.var? hv
    exact ⟨_, hv', hparam⟩

theorem Ready.mono {ids' : List SymbolId} (h : Ready t ids) (hsub : ids' ⊆ ids) :
    Ready t ids' :=
  ⟨h.params, fun id hid => h.defined id (hsub hid)⟩

/-- Types that were given stay given. -/
theorem typed_mono (hret : t.Retypes t') (h : ∀ id ∈ ids, ∃ v, t.var? id = some v ∧ v.ty.isSome) :
    ∀ id ∈ ids, ∃ v, t'.var? id = some v ∧ v.ty.isSome := by
  intro id hid
  obtain ⟨v, hv, hty⟩ := h id hid
  obtain ⟨ty, hv', -, hsome⟩ := hret.var? hv
  exact ⟨_, hv', hsome hty⟩

namespace Completes

theorem nil : Completes t t [] [] :=
  ⟨rfl, nofun, .refl t, nofun⟩

theorem cons {s s' : Stmt} {ss ss' : List Stmt} (h₁ : Completes t t' [s] [s'])
    (h₂ : Completes t' t'' ss ss') : Completes t t'' (s :: ss) (s' :: ss') where
  plain := by
    have hfirst : s'.plain = s.plain := singleton_inj.mp h₁.plain
    rw [map_cons, map_cons, hfirst, h₂.plain]
  complete := forall_mem_cons.mpr ⟨h₁.complete s' (.head _), h₂.complete⟩
  retypes := h₁.retypes.trans h₂.retypes
  typed := by
    rw [allDefinedIds_cons]
    exact forall_mem_append.mpr ⟨typed_mono h₂.retypes h₁.typed, h₂.typed⟩

end Completes

namespace CompletesBlocks

variable {bs bs' : List Block}

section

variable (h : CompletesBlocks t bs bs' t')

include h

theorem retypes : t.Retypes t' := by
  induction h with
  | nil => exact .refl _
  | cons first _ ih => exact first.retypes.trans ih

theorem complete : ∀ b ∈ bs', b.Complete := by
  induction h with
  | nil => nofun
  | cons first _ ih => exact forall_mem_cons.mpr ⟨first.complete, ih⟩

theorem typed :
    ∀ id ∈ definedIds (bs.flatMap BlockOf.nodes), ∃ v, t'.var? id = some v ∧ v.ty.isSome := by
  induction h with
  | nil => nofun
  | @cons t t₁ t₂ b b' bs bs' first rest ih =>
    have hids : definedIds ((b :: bs).flatMap BlockOf.nodes) =
        definedIds b.nodes ++ definedIds (bs.flatMap BlockOf.nodes) := by
      simp [definedIds]
    rw [hids]
    exact forall_mem_append.mpr ⟨typed_mono rest.retypes first.typed, ih⟩

end

end CompletesBlocks

/-- A statement gives types to its expressions and to what it defines; then its blocks are typed. -/
theorem Completes.of_blocks {kind' : StmtKind} (hplain : kind'.plain = kind.plain)
    (hexprs : ∀ e ∈ kind'.exprs, ∃ d : Expr, e.Annotates d) (hstep : t.Retypes t')
    (hdefined : ∀ id ∈ defined? ⟨kind, span⟩, ∃ v, t'.var? id = some v ∧ v.ty.isSome)
    (hblocks : CompletesBlocks t' kind.blocks kind'.blocks t'') :
    Completes t t'' [⟨kind, span⟩] [⟨kind', span⟩] where
  plain := by simp [Located.plain, hplain]
  complete s hs := by
    obtain rfl := mem_singleton.mp hs
    refine complete_iff.mpr ⟨fun e he => ?_, hblocks.complete⟩
    obtain ⟨d, hd, he⟩ := mem_flatMap.mp he
    obtain ⟨d', hd'⟩ := hexprs d hd
    exact hd'.typed e he
  retypes := hstep.trans hblocks.retypes
  typed := by
    have hids : allDefinedIds [⟨kind, span⟩] = (defined? ⟨kind, span⟩).toList ++
        definedIds (kind.blocks.flatMap BlockOf.nodes) := by
      simp only [allDefinedIds, flatMap_cons, flatMap_nil, append_nil, definedIds,
        nodes_eq ⟨kind, span⟩, filterMap_cons]
      cases defined? ⟨kind, span⟩ <;> rfl
    rw [hids]
    refine forall_mem_append.mpr ⟨typed_mono hblocks.retypes fun id hid => ?_, hblocks.typed⟩
    exact hdefined id (Option.mem_toList.mp hid)

theorem condition_annotates (t : Table) (scope : ScopeId) (cond : Expr) :
    (condition t scope cond).1.Annotates cond := by
  unfold condition
  dsimp only
  split
  · exact value_annotates t scope cond
  · exact value_annotates t scope cond

/-- An assignment gives a type only to a variable without one, which is no parameter. -/
theorem assignment_completes (hready : Ready t ids) (scope : ScopeId) (span : Span)
    (name : String) (he : e.expr.Annotates d) (symbol : Option SymbolId) :
    Completes t (assignment t scope span name e symbol).table [⟨.assign name d symbol, span⟩]
      [⟨(assignment t scope span name e symbol).tree, span⟩] := by
  have hresult : ∀ {value : Expr} {found : Option SymbolId} {t' : Table}, value.Annotates d →
      t.Retypes t' →
      Completes t t' [⟨.assign name d symbol, span⟩] [⟨.assign name value found, span⟩] := by
    intro value found t' hvalue hret
    refine .of_blocks (by rw [StmtKind.plain, StmtKind.plain, hvalue.plain]) ?_ hret nofun .nil
    simpa using ⟨d, hvalue⟩
  unfold assignment
  split
  · exact hresult he (.refl t)
  · rename_i id v htarget
    obtain ⟨hvar, -, -⟩ := target_ok htarget
    dsimp only
    split
    · rename_i huntyped
      have hparam : v.isParameter = false := by
        cases hparam : v.isParameter with
        | false => rfl
        | true =>
          have hsome := hready.params hvar hparam
          rw [huntyped] at hsome
          cases hsome
      exact hresult he (retypes_setVariableTy hvar hparam)
    · split
      · exact hresult he (.refl t)
      · split
        · exact hresult (he.promote _) (.refl t)
        · exact hresult he (.refl t)

theorem returning_annotates (t : Table) (scope : ScopeId) (span : Span) (he : e.expr.Annotates d) :
    ∃ value : Expr, (returning t scope span e).1 = .ret value ∧ value.Annotates d := by
  unfold returning
  split
  · exact ⟨_, rfl, he⟩
  · split
    · exact ⟨_, rfl, he⟩
    · split
      · exact ⟨_, rfl, he⟩
      · split
        · exact ⟨_, rfl, he⟩
        · split
          · exact ⟨_, rfl, he.promote _⟩
          · exact ⟨_, rfl, he⟩

/-- Typing a statement does what `Completes` says, in any scope of any table. -/
def StmtCompletes (s : Stmt) : Prop :=
  s.Scoped → ∀ (scope : ScopeId) (t : Table), Ready t (allDefinedIds [s]) →
    Completes t (stmt scope t s).table [s] [(stmt scope t s).tree]

theorem stmts_complete_of {ss : List Stmt} (hss : ∀ s ∈ ss, StmtCompletes s)
    (hscoped : ∀ s ∈ ss, s.Scoped) (scope : ScopeId) (hready : Ready t (allDefinedIds ss)) :
    Completes t (stmts scope t ss).table ss (stmts scope t ss).tree := by
  induction ss generalizing t with
  | nil => exact .nil
  | cons s ss ih =>
    rw [allDefinedIds_cons] at hready
    have hfirst := hss s (.head _) (hscoped s (.head _)) scope t
      (hready.mono fun id hid => mem_append_left _ hid)
    refine hfirst.cons (ih (fun c hc => hss c (.tail s hc))
      (fun c hc => hscoped c (.tail s hc)) ?_)
    exact (hready.retypes hfirst.retypes).mono fun id hid => mem_append_right _ hid

theorem block_completes_of {b : Block} (hb : ∀ s ∈ b.statements, StmtCompletes s)
    (hscoped : b.Scoped) (hready : Ready t (definedIds b.nodes)) :
    CompletesBlock t (block t b).table b (block t b).tree := by
  rw [BlockOf.nodes_eq] at hready
  rcases b with ⟨statements, span, none | scope⟩
  · cases hscoped.scope
  · have hinner := stmts_complete_of hb hscoped.inside scope hready
    simp only [block]
    generalize stmts scope t statements = inner at hinner ⊢
    refine ⟨?_, ⟨rfl, hinner.complete⟩, hinner.retypes, ?_⟩
    · rw [BlockOf.plain_eq, BlockOf.plain_eq, hinner.plain]
    · rw [BlockOf.nodes_eq]
      exact hinner.typed

/-- Blocks of a statement, typed one after the other. -/
theorem blocks_ready {b : Block} (hb : b ∈ kind.blocks)
    (hready : Ready t (allDefinedIds [⟨kind, span⟩])) : Ready t (definedIds b.nodes) := by
  refine hready.mono fun id hid => ?_
  obtain ⟨s, hs, hid⟩ := mem_filterMap.mp hid
  refine mem_filterMap.mpr ⟨s, ?_, hid⟩
  rw [flatMap_cons, flatMap_nil, append_nil, Located.nodes_eq]
  exact .tail _ (mem_flatMap.mpr ⟨b, hb, hs⟩)

/-- A definition gives its variable a type. -/
theorem define_completes {name : String} {init : Expr} {symbol : Option SymbolId}
    (hready : Ready t (allDefinedIds [⟨.define name init symbol, span⟩])) :
    Completes t (stmt scope t ⟨.define name init symbol, span⟩).table
      [⟨.define name init symbol, span⟩]
      [(stmt scope t ⟨.define name init symbol, span⟩).tree] := by
  have hvalue := value_annotates t scope init
  simp only [stmt, stmtKind, Passed.map]
  have hexprs : ∀ e ∈ (define name (value t scope init).expr symbol).exprs,
      ∃ d : Expr, e.Annotates d := by
    simpa using ⟨init, hvalue⟩
  have hplain : (define name (value t scope init).expr symbol).plain =
      (define name init symbol).plain := by
    rw [StmtKind.plain, StmtKind.plain, hvalue.plain]
  cases symbol with
  | none => exact .of_blocks hplain hexprs (.refl t) (by rintro _ ⟨⟩) .nil
  | some id =>
    obtain ⟨v, hv, hparam⟩ := hready.defined id (by
      simp [allDefinedIds, Located.nodes_eq, definedIds, Located.defined?])
    refine .of_blocks hplain hexprs (retypes_setVariableTy hv hparam) ?_ .nil
    rintro _ ⟨⟩
    exact ⟨_, by rw [var?_setVariableTy, if_pos rfl, hv]; rfl, rfl⟩

/-- **Statements.**  Typing goes into all blocks and types all expressions. -/
theorem stmt_completes (s : Stmt) : StmtCompletes s := by
  induction s using Stmt.induction with
  | step s ih =>
    intro hscoped scope t hready
    rcases s with ⟨kind, span⟩
    have hblock : ∀ b ∈ kind.blocks, ∀ {t' : Table}, t.Retypes t' →
        CompletesBlock t' (block t' b).table b (block t' b).tree := by
      intro b hb t' hret
      exact block_completes_of (ih b hb) (scoped_iff.mp hscoped b hb)
        ((blocks_ready hb hready).retypes hret)
    cases kind with
    | define name init symbol => exact define_completes hready
    | assign name init symbol =>
      exact assignment_completes hready scope span name (value_annotates t scope init) symbol
    | assignElement name index init symbol =>
      have hi := expr_annotates t scope index
      have hv := Typed.annotates_asElement (value_annotates t scope init)
      simp only [stmt, stmtKind, Passed.map]
      refine .of_blocks (by rw [StmtKind.plain, StmtKind.plain, hi.plain, hv.plain]) ?_ (.refl t)
        (by rintro _ ⟨⟩) .nil
      simpa using ⟨⟨index, hi⟩, ⟨init, hv⟩⟩
    | call c =>
      have hc := expr_annotates t scope c
      simp only [stmt, stmtKind, Passed.map]
      refine .of_blocks (by rw [StmtKind.plain, StmtKind.plain, hc.plain]) ?_ (.refl t)
        (by rintro _ ⟨⟩) .nil
      simpa using ⟨c, hc⟩
    | print shown =>
      cases shown with
      | none => exact .of_blocks rfl (forall_mem_nil _) (.refl t) (by rintro _ ⟨⟩) .nil
      | some shown =>
        have hv := value_annotates t scope shown
        simp only [stmt, stmtKind, Passed.map]
        refine .of_blocks (by simp [StmtKind.plain, hv.plain]) ?_ (.refl t) (by rintro _ ⟨⟩) .nil
        simpa using ⟨shown, hv⟩
    | ret given =>
      obtain ⟨v, hret, hv⟩ := returning_annotates t scope span (value_annotates t scope given)
      simp only [stmt, stmtKind, Passed.map, hret]
      refine .of_blocks (by rw [StmtKind.plain, StmtKind.plain, hv.plain]) ?_ (.refl t)
        (by rintro _ ⟨⟩) .nil
      simpa using ⟨given, hv⟩
    | block body =>
      have hbody := hblock body (.head _) (.refl t)
      simp only [stmt, stmtKind, Passed.map]
      exact .of_blocks (by rw [StmtKind.plain, StmtKind.plain, hbody.plain]) (by simp)
        (.refl t) (by rintro _ ⟨⟩) (.cons hbody .nil)
    | loop cond body =>
      have hcond := condition_annotates t scope cond
      have hbody := hblock body (.head _) (.refl t)
      simp only [stmt, stmtKind, Passed.map]
      refine .of_blocks (by rw [StmtKind.plain, StmtKind.plain, hcond.plain, hbody.plain]) ?_
        (.refl t) (by rintro _ ⟨⟩) (.cons hbody .nil)
      simpa using ⟨cond, hcond⟩
    | ifElse cond thenBlock elseBlock =>
      have hcond := condition_annotates t scope cond
      have hthen := hblock thenBlock (.head _) (.refl t)
      cases elseBlock with
      | none =>
        simp only [stmt, stmtKind, Passed.map]
        refine .of_blocks (by rw [StmtKind.plain, StmtKind.plain, hcond.plain, hthen.plain]) ?_
          (.refl t) (by rintro _ ⟨⟩) (.cons hthen .nil)
        simpa using ⟨cond, hcond⟩
      | some elseBlock =>
        have helse := hblock elseBlock (.tail _ (.head _))
          hthen.retypes
        simp only [stmt, stmtKind, Passed.map]
        refine .of_blocks
          (by rw [StmtKind.plain, StmtKind.plain, hcond.plain, hthen.plain, helse.plain]) ?_
          (.refl t) (by rintro _ ⟨⟩) (.cons hthen (.cons helse .nil))
        simpa using ⟨cond, hcond⟩

/-! ## Scripts -/

/-- A function or a statement with all annotations. -/
def Item.Complete : Item → Prop
  | .function f => f.scope.isSome ∧ f.body.Complete
  | .statement s => s.Complete

/-- What typing items does, with or without faults. -/
structure CompletesItems (t t' : Table) (items tree : List Item) : Prop where
  plain : tree.map Item.plain = items.map Item.plain
  complete : ∀ item ∈ tree, Item.Complete item
  retypes : t.Retypes t'
  typed : ∀ id ∈ definedIds (items.flatMap Item.nodes), ∃ v, t'.var? id = some v ∧ v.ty.isSome

theorem CompletesItems.cons {item item' : Item} {its' : List Item}
    (hplain : item'.plain = item.plain) (hcomplete : Item.Complete item') (hret : t.Retypes t')
    (htyped : ∀ id ∈ definedIds item.nodes, ∃ v, t'.var? id = some v ∧ v.ty.isSome)
    (hrest : CompletesItems t' t'' its its') :
    CompletesItems t t'' (item :: its) (item' :: its') where
  plain := by rw [map_cons, map_cons, hplain, hrest.plain]
  complete := forall_mem_cons.mpr ⟨hcomplete, hrest.complete⟩
  retypes := hret.trans hrest.retypes
  typed := by
    have hids : definedIds ((item :: its).flatMap Item.nodes) =
        definedIds item.nodes ++ definedIds (its.flatMap Item.nodes) := by
      simp [definedIds]
    rw [hids]
    exact forall_mem_append.mpr ⟨typed_mono hrest.retypes htyped, hrest.typed⟩

theorem items_complete (scope : ScopeId) (hscoped : ∀ item ∈ its, Item.Scoped item)
    (hready : Ready t (definedIds (its.flatMap Item.nodes))) :
    CompletesItems t (items scope t its).table its (items scope t its).tree := by
  induction its generalizing t with
  | nil => exact ⟨rfl, nofun, .refl t, nofun⟩
  | cons item its ih =>
    obtain ⟨hfirst, hothers⟩ := forall_mem_cons.mp hscoped
    have hids : definedIds ((item :: its).flatMap Item.nodes) =
        definedIds item.nodes ++ definedIds (its.flatMap Item.nodes) := by
      simp [definedIds]
    rw [hids] at hready
    have hitem : Ready t (definedIds item.nodes) :=
      hready.mono fun id hid => mem_append_left _ hid
    have hrest : ∀ {t' : Table}, t.Retypes t' →
        CompletesItems t' (items scope t' its).table its (items scope t' its).tree := fun hret =>
      ih hothers ((hready.retypes hret).mono fun id hid => mem_append_right _ hid)
    cases item with
    | function f =>
      have hbody := block_completes_of (fun s _ => stmt_completes s) hfirst.2 hitem
      refine .cons ?_ ⟨hfirst.1, hbody.complete⟩ hbody.retypes hbody.typed (hrest hbody.retypes)
      simp only [Item.plain, Function.plain, hbody.plain]
    | statement s =>
      have hs := stmt_completes s hfirst scope t (by simpa [allDefinedIds, Item.nodes] using hitem)
      refine .cons ?_ (hs.complete _ (.head _)) hs.retypes ?_ (hrest hs.retypes)
      · rw [Item.plain, Item.plain, singleton_inj.mp hs.plain]
      · simpa [allDefinedIds, Item.nodes] using hs.typed

end Typing

namespace Analysis

/-- The script, its functions and blocks have scopes, and its expressions and variables types. -/
structure Complete (a : Analysis) : Prop where
  scope : a.script.scope.isSome
  functions : ∀ f, .function f ∈ a.script.items → f.scope.isSome ∧ f.body.scope.isSome
  blocks : ∀ s ∈ a.script.nodes, ∀ b ∈ s.kind.blocks, b.scope.isSome
  exprs : ∀ s ∈ a.script.nodes, ∀ e ∈ s.exprNodes, e.ty.isSome
  vars : ∀ id v, a.table.var? id = some v → v.ty.isSome

/-- The type of a fault appears at an expression or a variable. -/
def HasErrorTy (a : Analysis) : Prop :=
  (∃ s ∈ a.script.nodes, ∃ e ∈ s.exprNodes, e.ty = some .error) ∨
    ∃ id v, a.table.var? id = some v ∧ v.ty = some .error

theorem complete_of_items (hscope : a.script.scope.isSome)
    (hitems : ∀ item ∈ a.script.items, Typing.Item.Complete item)
    (hvars : ∀ id v, a.table.var? id = some v → v.ty.isSome) : a.Complete := by
  have hnodes : ∀ s ∈ a.script.nodes,
      (∀ b ∈ s.kind.blocks, b.scope.isSome) ∧ ∀ e ∈ s.exprNodes, e.ty.isSome := by
    intro s hs
    obtain ⟨item, hitem, hs⟩ := mem_flatMap.mp hs
    cases item with
    | function f =>
      rw [Item.nodes, BlockOf.nodes_eq] at hs
      obtain ⟨c, hc, hs⟩ := mem_flatMap.mp hs
      exact (hitems _ hitem).2.inside c hc s hs
    | statement c => exact hitems _ hitem s hs
  exact {
    scope := hscope
    functions := fun f hf => ⟨(hitems _ hf).1, (hitems _ hf).2.scope⟩
    blocks := fun s hs => (hnodes s hs).1
    exprs := fun s hs => (hnodes s hs).2
    vars := hvars }

/-- In an accepted script, the type of a fault appears nowhere. -/
theorem not_hasErrorTy {base : Table} (h : Accepted base a.script a.table) : ¬ a.HasErrorTy := by
  rintro (⟨s, hs, e, he, herr⟩ | ⟨id, v, hv, herr⟩)
  · obtain ⟨t, t', -, hstep⟩ := h.steps.step_of_mem h.clean hs
    obtain ⟨root, hroot, he⟩ := mem_flatMap.mp he
    obtain ⟨ty, hty, hne, -⟩ := (hstep.ruled root hroot e he).gives
    rw [herr] at hty
    cases hty
    exact hne rfl
  · exact h.table_clean.ty hv herr

/-- **Everything is annotated.**  Analysis of any text leaves no annotation open; the type of a
fault appears only where an error was reported; without its annotations, the tree is the one that
was read; and typing changes nothing in the table but the types of variables that are no
parameters. -/
theorem ofSource_annotates (source : String) (report : Report) :
    let read := (Script.read source report).1
    let a := ofSource source report
    a.Complete ∧ (a.HasErrorTy → report.errorCount < a.report.errorCount) ∧ a.script.plain = read ∧
      (Declare.script initial read).table.Retypes a.table := by
  intro read a
  obtain ⟨ts, hread⟩ := Script.read_derived source report
  have hdeclares := script_declares hread
  have hdeclared := script_declared hread
  have hready : Typing.Ready (Declare.script initial read).table
      (definedIds (Declare.script initial read).tree.nodes) := by
    refine ⟨fun hv hparam => ?_, fun _ => hdeclares.mem_iff.mp⟩
    obtain ⟨ty, hty⟩ := hdeclared.clean.param hv hparam
    rw [hty]
    rfl
  have hcompletes := Typing.items_complete global (items_scoped hread.pristine) hready
  refine ⟨complete_of_items rfl hcompletes.complete fun id v' hv' => ?_, fun herr => ?_, ?_,
    hcompletes.retypes⟩
  · -- A parameter had its type before; any other variable is the symbol of a definition.
    obtain ⟨v, hv, -, -, hkeep⟩ := hcompletes.retypes.var?_back hv'
    obtain ⟨-, ty, -, hty⟩ | ⟨hparam, -⟩ := hdeclared.var hv
    · exact hkeep (by rw [hty]; rfl)
    · obtain ⟨w, hw, hsome⟩ := hcompletes.typed id (hdeclares.mem_iff.mpr ⟨v, hv, hparam⟩)
      rw [show a.table.var? id = some w from hw] at hv'
      cases hv'
      exact hsome
  · obtain ⟨faults, hreport, herrors, hfaultless⟩ := ofSource_spec source report
    have hne : faults ≠ [] := fun hnil => by
      obtain ⟨base, hbase⟩ := (hfaultless hnil).accepted
      exact not_hasErrorTy hbase herr
    rw [show a.report = _ from hreport, Report.errorCount_addAll, filter_eq_self.mpr herrors]
    exact Nat.lt_add_of_pos_right (length_pos_iff.mpr hne)
  · calc a.script.plain = Script.plain (Declare.script initial read).tree :=
          congrArg (Script.mk · none) hcompletes.plain
      _ = read.plain := congrArg (Script.mk · none) items_plain
      _ = read := hread.plain_eq

end Analysis

end WichToC

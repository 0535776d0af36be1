import Mathlib.Data.List.Pairwise
import WichToC.Proofs.Paths
import WichToC.Proofs.Sweeps

/-!
# Right operands

The right operand of `&&` and `||` is evaluated only where the left one leaves the result open.
Counting moves calls and heap values of right operands ahead of the statements that they stand in;
`right_operand_guarded` says that they are still done only where the left operand was evaluated
before and left the result open.  The one exception are operators that stand alone as statements:
the operands of a call statement are moved ahead whatever the operator is.

An act is traced back to the expression that it comes from by the temporary that is reserved for
this expression; `Additive` properties of paths can be checked act by act.
-/

namespace WichToC

open List Counting Node Analysis

variable {acts : List Act}
variable {temp op name : String} {a : Act} {truth returns : Bool} {G : List Act → Prop}
    {ns' code : List Node} {sweep outer slots : List String} {start : Setup} {b : CBlock Node}
    {nest : Nest} {vars : List (String × Ty)} {o : Logical}

/-! ## Operators -/

/-- The nodes inside a node, and the node itself. -/
def Node.parts (n : Node) : List Node := n.collect fun n => [n]

theorem Node.mem_parts {n m : Node} : m ∈ n.parts ↔ (∃ c ∈ n.children, m ∈ c.parts) ∨ m = n := by
  rw [parts, collect_eq, mem_append, mem_flatMap, mem_singleton]
  rfl

/-- An `&&` or an `||` with its operands. -/
structure Logical where
  op : String
  temp : String
  ty : Ty
  operandTy : Ty
  left : Node
  right : Node
  isLogical : isShortCircuit op = true

/-- The node of an operator. -/
def Logical.node (o : Logical) : Node :=
  .binary .int o.op o.ty o.operandTy o.temp (some o.left) (some o.right)

/-- Whether a node is an `&&` or an `||`. -/
def Node.isLogical : Node → Bool
  | binary _ op .. => isShortCircuit op
  | _ => false

/-! ## Guarded paths -/

namespace Act

/-- The temporary reserved for the expression that an act comes from: a value that is moved to its
temporary, a call, or an operator whose left operand was evaluated. -/
def site? : Act → Option String
  | store .temp name _ _ _ => some name
  | operate (.call _ _ temp _) => some temp
  | left temp _ => some temp
  | _ => none

/-- The truth of the left operand of the operator with the given temporary, if an act evaluates it
in place or moves it to that temporary. -/
def leftOf (temp : String) : Act → Option Bool
  | left name truth => if name = temp then some truth else none
  | store .temp name _ _ truth => if name = temp then some truth else none
  | _ => none

theorem site?_of_leftOf (h : a.leftOf temp = some truth) : a.site? = some temp := by
  unfold leftOf at h
  split at h
  · split at h <;> cases h
    rename_i hname
    rw [site?, hname]
  · split at h <;> cases h
    rename_i hname
    rw [site?, hname]
  · cases h

end Act

/-- The left operand of an operator when it was last evaluated. -/
def lastLeft (temp : String) (acts : List Act) : Option Bool :=
  (acts.filterMap (Act.leftOf temp)).getLast?

/-- Nothing is done that comes from the right operand unless the left operand, when it was last
evaluated, left the result open. -/
def Logical.Guards (o : Logical) (acts : List Act) : Prop :=
  ∀ before a after, acts = before ++ a :: after → (∃ x ∈ o.right.reserved, a.site? = some x) →
    ∃ truth, lastLeft o.temp before = some truth ∧ decides o.op truth = false

/-- A temporary that is read right after it was given a value has this value. -/
def Faithful (acts : List Act) : Prop :=
  ∀ before name ty fromCall truth ty' truth' after,
    acts = before ++ .store .temp name ty fromCall truth :: .read name ty' truth' :: after →
      truth' = truth

theorem Faithful.append {acts' : List Act} (h : Faithful (acts ++ acts')) :
    Faithful acts ∧ Faithful acts' := by
  constructor
  · rintro before name ty fromCall truth ty' truth' after rfl
    exact h before name ty fromCall truth ty' truth' (after ++ acts') (by simp)
  · rintro before name ty fromCall truth ty' truth' after rfl
    exact h (acts ++ before) name ty fromCall truth ty' truth' after (by simp)

namespace Logical

variable {o : Logical} {acts acts' : List Act}

theorem Guards.append (h : o.Guards acts) (h' : o.Guards acts') : o.Guards (acts ++ acts') := by
  intro before a after heq hsite
  rcases append_eq_append_iff.mp heq with ⟨rest, hbefore, hrest⟩ | ⟨rest, hacts, hrest⟩
  · obtain ⟨truth, hlast, hopen⟩ := h' rest a after hrest hsite
    refine ⟨truth, ?_, hopen⟩
    rw [lastLeft] at hlast ⊢
    grind
  · cases rest with
    | nil =>
      obtain ⟨truth, hlast, -⟩ := h' [] a after hrest.symm hsite
      cases hlast
    | cons b rest =>
      rw [cons_append, cons.injEq] at hrest
      obtain ⟨rfl, -⟩ := hrest
      exact h before a rest hacts hsite

theorem guards_of_site (h : ∀ x, a.site? = some x → x ∉ o.right.reserved) : o.Guards [a] := by
  rintro before b after heq ⟨x, hx, hsite⟩
  have hb : b ∈ [a] := heq ▸ mem_append_right _ (.head _)
  grind

/-- After the left operand left the result open, anything may be done until it is evaluated
again. -/
theorem guards_after_left (hleft : a.leftOf o.temp = some truth)
    (hopen : decides o.op truth = false) (hown : o.temp ∉ o.right.reserved)
    (hacts : ∀ b ∈ acts, b.leftOf o.temp = none) : o.Guards (a :: acts) := by
  rintro before b after heq ⟨x, hx, hsite⟩
  cases before with
  | nil =>
    obtain ⟨rfl, -⟩ := cons.inj heq
    rw [Act.site?_of_leftOf hleft] at hsite
    cases hsite
    exact absurd hx hown
  | cons c before =>
    obtain ⟨rfl, rfl⟩ := cons.inj heq
    refine ⟨truth, ?_, hopen⟩
    have hnone : before.filterMap (Act.leftOf o.temp) = [] :=
      filterMap_eq_nil_iff.mpr fun b hb => hacts b (mem_append_left _ hb)
    rw [lastLeft, filterMap_cons_some hleft, hnone]
    rfl

end Logical

/-! ## Properties of paths -/

/-- A property of paths that holds of a path if it holds of its parts, and always of acts that come
from no expression. -/
structure Additive (G : List Act → Prop) : Prop where
  nil : G []
  append : ∀ {acts acts'}, G acts → G acts' → G (acts ++ acts')
  quiet : ∀ {a : Act}, a.site? = none → G [a]

theorem Additive.snoc (hG : Additive G) (h : G acts) (ha : a.site? = none) : G (acts ++ [a]) :=
  hG.append h (hG.quiet ha)

theorem Additive.cons (hG : Additive G) (ha : a.site? = none) (h : G acts) : G (a :: acts) :=
  hG.append (hG.quiet ha) h

namespace Counting

variable {n e m c l : Node} {s : Setup} (names : List String) {f : Node → Node}

/-- All paths through code have a property. -/
def Traces (G : List Act → Prop) (code : Code) : Prop :=
  ∀ acts exit, Runs code acts exit → G acts

/-- All evaluations of expressions have a property. -/
def EvalTraces (G : List Act → Prop) (ns : List Node) : Prop :=
  ∀ acts truths, Evals ns acts truths → G acts

section Rules

variable {G : List Act → Prop} (hG : Additive G) {ns : List Node} {n r e : Node} {temp : String}
  {ty : Ty} {b : CBlock Node} (kind : CountKind)

include hG

theorem evalTraces_all (h : ∀ n ∈ ns, EvalTraces G [n]) : EvalTraces G ns := by
  induction ns with
  | nil =>
    intro acts truths hacts
    cases hacts
    exact hG.nil
  | cons n ns ih =>
    intro acts truths hacts
    obtain ⟨acts₁, acts₂, truth, truths', rfl, -, hfirst, hrest⟩ := evals_cons hacts
    refine hG.append (h n (.head _) _ _ hfirst) ?_
    exact ih (fun c hc => h c (.tail n hc)) _ _ hrest

theorem evalTraces_var (name : String) (ty : Ty) (isTemp : Bool) :
    EvalTraces G [.varRef name ty isTemp] := by
  intro acts truths h
  cases h with
  | read rest =>
    cases rest
    exact hG.quiet rfl
  | operate _ varRef => exact absurd rfl varRef

theorem evalTraces_operation (hop : n.isOperation = true) (hvar : n.kind ≠ .varRef)
    (hstrict : mayShortCircuit n = false) (hchildren : EvalTraces G n.children)
    (hown : G [.operate n]) : EvalTraces G [n] := by
  intro acts truths h
  cases h with
  | read => exact absurd rfl hvar
  | operate _ _ _ children _ rest =>
    cases rest
    exact hG.append (hchildren _ _ children) hown
  | decided logical | undecided logical => exact absurd (hstrict.symm.trans logical) (by simp)

theorem evalTraces_logical {operandTy : Ty}
    (hlogical : isShortCircuit op = true) (hl : EvalTraces G [l]) (hr : EvalTraces G [r])
    (hown : ∀ truth, G [.left temp truth]) :
    EvalTraces G [.binary .int op ty operandTy temp (some l) (some r)] := by
  intro acts truths h
  cases h with
  | operate _ _ strict => exact absurd (strict.symm.trans hlogical) (by simp)
  | decided _ left _ rest =>
    cases rest
    exact hG.append (hl _ _ left) (hown _)
  | undecided _ left _ right rest =>
    cases rest
    rw [append_nil]
    exact hG.append (hl _ _ left) (hG.append (hown _) (hG.cons rfl (hr _ _ right)))

theorem traces_append (h : Traces G (.stats ns)) (h' : Traces G (.stats ns')) :
    Traces G (.stats (ns ++ ns')) := by
  intro acts exit hrun
  rcases runs_append hrun with ⟨acts₁, acts₂, rfl, hfirst, hrest⟩ | ⟨hfirst, -⟩
  · exact hG.append (h _ _ hfirst) (h' _ _ hrest)
  · exact h _ _ hfirst

theorem traces_nil : Traces G (.stats []) := by
  intro acts exit hrun
  rw [(runs_nil hrun).1]
  exact hG.nil

theorem traces_stat (h : Traces G (.stat n)) : Traces G (.stats [n]) := by
  intro acts exit hrun
  rcases runs_singleton hrun with hrun | ⟨rfl, -⟩
  · exact h _ _ hrun
  · exact hG.nil

theorem traces_cons (h : Traces G (.stat n))
    (h' : Traces G (.stats ns)) : Traces G (.stats (n :: ns)) :=
  traces_append hG (traces_stat hG h) h'

theorem traces_flatMap {α : Type} {f : α → List Node} {xs : List α}
    (h : ∀ x ∈ xs, Traces G (.stats (f x))) : Traces G (.stats (xs.flatMap f)) := by
  induction xs with
  | nil => exact traces_nil hG
  | cons x xs ih =>
    rw [flatMap_cons]
    exact traces_append hG (h x (.head _))
      (ih fun y hy => h y (.tail x hy))

theorem traces_count (slot : String) : Traces G (.stat (.count kind slot)) := by
  intro acts exit hrun
  cases hrun
  exact hG.quiet rfl

theorem traces_counts (slots : List String) : Traces G (.stats (slots.map (.count kind))) := by
  induction slots with
  | nil => exact traces_nil hG
  | cons slot slots ih =>
    exact traces_cons hG (traces_count hG kind slot) ih

theorem traces_block (h : Traces G (.stats (b.stats ++ b.cleanup))) : Traces G (.block b) := by
  intro acts exit hrun
  obtain ⟨acts', rfl, hstats⟩ := runs_block hrun
  refine hG.cons rfl (hG.append (h _ _ hstats) ?_)
  cases exit with
  | cut => exact hG.nil
  | _ => exact hG.quiet rfl

theorem traces_ifStat {other : Option (CBlock Node)}
    (hc : EvalTraces G [c]) (hb : Traces G (.block b))
    (hother : ∀ b' ∈ other, Traces G (.block b')) :
    Traces G (.stat (.ifStat (some c) (some (.block b)) (other.map block))) := by
  intro acts exit hrun
  cases other with
  | none =>
    cases hrun with
    | ifYes cond branch => exact hG.append (hc _ _ cond) (hG.cons rfl (hb _ _ branch))
    | ifSkip cond => exact hG.snoc (hc _ _ cond) rfl
  | some b' =>
    cases hrun with
    | ifYes cond branch => exact hG.append (hc _ _ cond) (hG.cons rfl (hb _ _ branch))
    | ifNo cond branch => exact hG.append (hc _ _ cond) (hG.cons rfl (hother b' rfl _ _ branch))

theorem traces_whileStat (hc : EvalTraces G [c])
    (hb : Traces G (.block b)) : Traces G (.stat (.whileStat (some c) (some (.block b)))) := by
  intro acts exit hrun
  generalize hcode : Code.stat (.whileStat (some c) (some (.block b))) = code at hrun
  induction hrun with
  | whileDone cond =>
    cases hcode
    exact hG.snoc (hc _ _ cond) rfl
  | whileAgain cond body _ _ ih =>
    cases hcode
    exact hG.append (hc _ _ cond) (hG.cons rfl (hG.append (hb _ _ body) (ih rfl)))
  | whileBroke cond body | whileStop cond body =>
    cases hcode
    exact hG.append (hc _ _ cond) (hG.cons rfl (hb _ _ body))
  | _ => cases hcode

theorem traces_tempDef {refInserted : Bool}
    (he : EvalTraces G [e]) (hown : ∀ fromCall truth, G [.store .temp name ty fromCall truth]) :
    Traces G (.stat (.tempDef name ty refInserted (some e))) := by
  intro acts exit hrun
  cases hrun with
  | tempDef value => exact hG.append (he _ _ value) (hown _ _)

theorem traces_define (adopts : Bool) (he : EvalTraces G [e])
    (hown : ∀ fromCall truth, G [.store .temp name ty fromCall truth]) :
    Traces G (.stats (Setup.define name ty e adopts).stats) := by
  refine traces_cons hG (traces_tempDef hG he hown) ?_
  split
  · exact traces_stat hG (traces_count hG _ _)
  · exact traces_nil hG

theorem traces_releases (s : Setup) : Traces G (.stats s.releases) := by
  have h := traces_counts hG .deref
    (((s.temps.filter fun p => p.2.isHeap).reverse).map Prod.fst)
  rwa [map_map] at h

theorem evalTraces_not (he : EvalTraces G [e]) : EvalTraces G [.unary .not .boolean "" (some e)] :=
  evalTraces_operation hG rfl (by simp [kind]) rfl he (hG.quiet rfl)

theorem evalTraces_guard (op temp : String) : EvalTraces G [guard op temp] := by
  unfold guard
  split
  · exact evalTraces_var hG _ _ _
  · exact evalTraces_not hG (evalTraces_var hG _ _ _)

theorem traces_guardBlock (hs : Traces G (.stats s.stats))
    (hr : EvalTraces G [r]) : Traces G (.block (guardBlock temp s r)) := by
  refine traces_block hG (traces_append hG (traces_append hG hs (traces_stat hG ?_))
    (traces_releases hG s))
  intro acts exit hrun
  cases hrun with
  | assign value => exact hG.snoc (hr _ _ value) rfl

theorem traces_rightOperand (hs : Traces G (.stats s.stats)) (hr : EvalTraces G [r]) :
    Traces G (.stats [rightOperand op temp s (some r)]) := by
  have hif : Traces G (.stat (.ifStat (some (guard op temp))
      (some (.block (guardBlock temp s r))) (Option.map block none))) :=
    traces_ifStat hG (evalTraces_guard hG op temp) (traces_guardBlock hG hs hr) (by simp)
  exact traces_stat hG hif

/-- A statement over expressions. -/
theorem traces_restated {s : Node} (hsame : Restates s n) (h : EvalTraces G n.children) :
    Traces G (.stats [n]) := by
  refine traces_stat hG fun acts exit hrun => ?_
  cases hsame <;> cases hrun
  case elementAssign.elementAssign values => exact hG.cons rfl (hG.snoc (h _ _ values) rfl)
  case printStat.printNothing => exact hG.nil
  case returnStat.returnStat value => exact h _ _ value
  all_goals exact hG.snoc (h _ _ ‹_›) rfl

end Rules

/-! ## Moved expressions -/

/-- A node on whose paths a property can be checked node by node, but for the operator `o`, which is
checked as a whole. -/
inductive Passable (G : List Act → Prop) (o : Logical) : Node → Prop
  | node {n : Node} (own : ∀ a x, Act.site? a = some x → x ∈ n.ownNames → G [a])
      (inside : ∀ c ∈ n.children, Passable G o c) : Passable G o n
  | whole (moved : ∀ s m, Moved o.node s m → Traces G (.stats s.stats) ∧ EvalTraces G [m]) :
      Passable G o (.binary .int o.op o.ty o.operandTy o.temp (some o.left) (some o.right))

variable {G : List Act → Prop} {o : Logical}

/-- Where every act of an expression has the property, its nodes can be checked. -/
theorem passable_of_reserved
    (h : ∀ a x, Act.site? a = some x → x ∈ n.reserved → G [a]) : Passable G o n := by
  induction n using induction with
  | step n ih =>
    rw [reserved_eq] at h
    refine .node (fun a x ha hx => h a x ha (mem_append_right _ hx)) fun c hc => ?_
    grind

theorem mayShortCircuit_mapChildren : mayShortCircuit (n.mapChildren f) = mayShortCircuit n := by
  cases n with
  | binary kind => cases kind <;> rfl
  | _ => rfl

theorem operate_of_own (hG : Additive G) (hop : n.isOperation = true)
    (hown : ∀ a x, Act.site? a = some x → x ∈ n.ownNames → G [a]) :
    G [.operate (n.mapChildren f)] := by
  cases n <;> first | (cases hop; done) | exact hG.quiet rfl | skip
  case call name ty temp args => exact hown _ temp rfl (.head _)

/-- **Moved expressions.**  What can be checked of an expression node by node holds of the paths
through the statements that it is moved to, and of the evaluation of what is left of it. -/
theorem Moved.passes (hG : Additive G) (h : Moved e s m)
    (hp : Passable G o e) : Traces G (.stats s.stats) ∧ EvalTraces G [m] := by
  induction h with
  | var => exact ⟨traces_nil hG, evalTraces_var hG _ _ _⟩
  | @operation n operation notVar strict children ih =>
    cases hp with
    | whole moved => exact moved _ _ (.operation operation notVar strict children)
    | node own inside =>
      constructor
      · show Traces G (.stats ((n.children.map fun c => (hoist c).1).flatMap Setup.stats))
        rw [flatMap_map]
        exact traces_flatMap hG fun c hc => (ih c hc (inside c hc)).1
      · refine evalTraces_operation hG ?_ ?_ ?_ ?_ (operate_of_own hG operation own)
        · rwa [isOperation_mapChildren]
        · rwa [kind_mapChildren]
        · rwa [mayShortCircuit_mapChildren]
        · rw [children_mapChildren]
          refine evalTraces_all hG fun c hc => ?_
          grind
  | @fresh n name ty operation notVar strict temp type heap operands ih =>
    obtain ⟨hstats, hvalue⟩ := ih hp
    cases hp with
    | whole moved => exact moved _ _ (.fresh operation notVar strict temp type heap operands)
    | node own inside =>
      refine ⟨traces_append hG hstats (traces_define hG _ hvalue fun _ _ => ?_),
        evalTraces_var hG _ _ _⟩
      exact own _ name rfl (mem_ownNames_of_temp? temp)
  | @inPlace op temp ty operandTy l r logical left right still ihl ihr =>
    cases hp with
    | whole moved => exact moved _ _ (.inPlace logical left right still)
    | node own inside =>
      obtain ⟨hlstats, hl⟩ := ihl (inside l (by simp [children]))
      obtain ⟨-, hr⟩ := ihr (inside r (by simp [children]))
      refine ⟨hlstats, evalTraces_logical hG logical hl hr fun _ => ?_⟩
      exact own _ temp rfl (.head _)
  | @guarded op temp ty operandTy l r logical left right stirred ihl ihr =>
    cases hp with
    | whole moved => exact moved _ _ (.guarded logical left right stirred)
    | node own inside =>
      obtain ⟨hlstats, hl⟩ := ihl (inside l (by simp [children]))
      obtain ⟨hrstats, hr⟩ := ihr (inside r (by simp [children]))
      refine ⟨traces_append hG (traces_append hG hlstats (traces_define hG _ hl fun _ _ => ?_))
        (traces_rightOperand hG hrstats hr), evalTraces_var hG _ _ _⟩
      exact own _ temp rfl (.head _)
  | @bind name v b m s value body ihv ihb =>
    cases hp with
    | node own inside =>
      obtain ⟨hvstats, hv⟩ := ihv (inside v (by simp [children]))
      obtain ⟨hbstats, hm⟩ := ihb (inside b (by simp [children]))
      refine ⟨traces_append hG (traces_append hG hvstats (traces_define hG _ hv fun _ _ => ?_))
        hbstats, hm⟩
      exact own _ name rfl (.head _)

/-! ## The operator itself -/

/-- Acts that come from the given temporaries only. -/
def Within (acts : List Act) : Prop :=
  ∀ a ∈ acts, ∀ x, Act.site? a = some x → x ∈ names

theorem additive_within : Additive (Within names) where
  nil a ha := absurd ha not_mem_nil
  append h h' a ha := (mem_append.mp ha).elim (h a) (h' a)
  quiet hsite a ha x hx := by grind

/-- The acts of a moved expression come from the expression. -/
theorem Moved.within (o : Logical) (h : Moved e s m) :
    Traces (Within e.reserved) (.stats s.stats) ∧ EvalTraces (Within e.reserved) [m] := by
  refine h.passes (o := o) (additive_within _) (passable_of_reserved fun a x ha hx b hb y hy => ?_)
  grind

/-- The property of faithful paths that the operator guards its right operand. -/
def Watched (o : Logical) (acts : List Act) : Prop := Faithful acts → o.Guards acts

theorem watched_of_site (h : ∀ x, a.site? = some x → x ∉ o.right.reserved) : Watched o [a] :=
  fun _ => Logical.guards_of_site h

theorem additive_watched (o : Logical) : Additive (Watched o) where
  nil := by
    rintro - before a after heq
    exact absurd heq.symm (by simp)
  append h h' hfaithful := (h hfaithful.append.1).append (h' hfaithful.append.2)
  quiet hsite := by
    refine watched_of_site fun x hx => ?_
    rw [hsite] at hx
    cases hx

/-- The guard reads the temporary of the left operand first, and holds if this leaves the result
open. -/
theorem evals_guard (hlogical : isShortCircuit op = true)
    (h : Evals [guard op temp] acts [truth]) : ∃ value rest,
      acts = .read temp .boolean value :: rest ∧ (∀ a ∈ rest, Act.site? a = none) ∧
        (truth = true → decides op value = false) := by
  unfold guard at h
  split at h
  · rename_i hop
    cases h with
    | read rest =>
      cases rest
      exact ⟨truth, [], rfl, by simp, by rintro rfl; rw [hop]; rfl⟩
    | operate _ varRef => exact absurd rfl varRef
  · rename_i hop
    have hor : op = "||" := by simpa [isShortCircuit, hop] using hlogical
    cases h with
    | operate _ _ _ children gives rest =>
      cases rest
      cases children with
      | @read _ _ _ _ _ value _ rest =>
        cases rest
        refine ⟨value, _, rfl, by simp [Act.site?], ?_⟩
        rintro rfl
        have hvalue : [value] = [!true] := gives
        rw [hor, cons.inj hvalue |>.1]
        rfl
      | operate _ varRef => exact absurd rfl varRef

/-- The right operand of an operator has other temporaries than the left one and the operator. -/
structure Apart (o : Logical) : Prop where
  left : ∀ x ∈ o.left.reserved, x ∉ o.right.reserved
  own : o.temp ∉ o.right.reserved

theorem apart_of_nodup (h : o.node.reserved.Nodup) : Apart o := by
  rw [Logical.node, reserved_binary] at h
  obtain ⟨hboth, -, hown⟩ := nodup_append.mp h
  obtain ⟨-, -, hapart⟩ := nodup_append.mp hboth
  exact ⟨fun x hx hx' => hapart x hx x hx' rfl,
    fun hmem => hown o.temp (mem_append_right _ hmem) o.temp (.head _) rfl⟩

theorem Apart.leftOf_eq_none (h : Apart o)
    (hacts : Within o.right.reserved acts) : ∀ a ∈ acts, a.leftOf o.temp = none := by
  intro a ha
  cases hleft : a.leftOf o.temp with
  | none => rfl
  | some truth => exact absurd (hacts a ha _ (Act.site?_of_leftOf hleft)) h.own

/-- The left operand is moved without anything of the right one. -/
theorem Apart.left_watched (h : Apart o) (hmoved : Moved o.left s m) :
    Traces (Watched o) (.stats s.stats) ∧ EvalTraces (Watched o) [m] := by
  refine hmoved.passes (o := o) (additive_watched o) (passable_of_reserved fun a x ha hx => ?_)
  refine watched_of_site fun y hy => ?_
  cases ha.symm.trans hy
  exact h.left x hx

theorem Apart.inPlace_watched (h : Apart o) {r : Node}
    (hl : EvalTraces (Watched o) [l]) (hr : EvalTraces (Within o.right.reserved) [r]) :
    EvalTraces (Watched o) [.binary .int o.op o.ty o.operandTy o.temp (some l) (some r)] := by
  have hG := additive_watched o
  intro acts truths hacts
  cases hacts with
  | operate _ _ strict => exact absurd (strict.symm.trans o.isLogical) (by simp)
  | decided _ left _ rest =>
    cases rest
    refine hG.append (hl _ _ left) (watched_of_site fun x hx => ?_)
    cases hx
    exact h.own
  | @undecided _ _ _ _ _ _ _ _ acts' _ truth _ _ _ left hopen right rest =>
    cases rest
    refine hG.append (hl _ _ left) fun _ => ?_
    refine Logical.guards_after_left (if_pos rfl) hopen h.own fun a ha => ?_
    rcases mem_cons.mp ha with rfl | ha
    · rfl
    · rw [append_nil] at ha
      exact h.leftOf_eq_none (hr _ _ right) a ha

/-- The conditional statement that evaluates the right operand, after the left operand was moved to
the temporary. -/
theorem Apart.guarded_watched (h : Apart o) {r : Node}
    (hl : EvalTraces (Watched o) [l]) (hs : Traces (Within o.right.reserved) (.stats s.stats))
    (hr : EvalTraces (Within o.right.reserved) [r]) :
    Traces (Watched o) (.stats [.tempDef o.temp .boolean true (some l),
      rightOperand o.op o.temp s (some r)]) := by
  have hG := additive_watched o
  have hstore : ∀ fromCall truth, Watched o [.store .temp o.temp .boolean fromCall truth] := by
    intro fromCall truth
    refine watched_of_site fun x hx => ?_
    cases hx
    exact h.own
  have hblock : Traces (Within o.right.reserved) (.block (guardBlock o.temp s r)) :=
    traces_guardBlock (additive_within _) hs hr
  intro acts exit hrun
  cases hrun with
  | cut => exact hG.nil
  | stop first => exact traces_tempDef hG hl hstore _ _ first
  | cons first rest =>
    cases first with
    | @tempDef _ _ _ _ acts truth value =>
      rcases runs_singleton rest with hrest | ⟨rfl, -⟩
      · rw [append_assoc]
        refine hG.append (hl _ _ value) fun hfaithful => ?_
        rw [rightOperand_eq] at hrest
        cases hrest with
        | @ifYes _ _ _ _ acts' _ cond branch =>
          obtain ⟨value', after, rfl, hquiet, hopen⟩ := evals_guard o.isLogical cond
          have hsame : value' = truth := hfaithful [] _ _ _ _ _ _ _ rfl
          refine Logical.guards_after_left (if_pos rfl) (hsame ▸ hopen rfl) h.own fun a ha => ?_
          have hwithin : Within o.right.reserved
              (.read o.temp .boolean value' :: (after ++ .use 1 :: acts')) := by
            refine (additive_within _).cons rfl ((additive_within _).append ?_
              ((additive_within _).cons rfl (hblock _ _ branch)))
            intro b hb x hx
            rw [hquiet b hb] at hx
            cases hx
          exact h.leftOf_eq_none hwithin a ha
        | ifSkip cond =>
          have hcond := evalTraces_guard hG o.op o.temp _ _ cond
          exact hG.append (hstore _ _) (hG.snoc hcond rfl) hfaithful
      · rw [append_nil]
        exact hG.append (hl _ _ value) (hstore _ _)

/-- **Operators.**  An `&&` or `||` that is moved guards its right operand. -/
theorem Apart.moved_watched (h : Apart o) (hmoved : Moved o.node s m) :
    Traces (Watched o) (.stats s.stats) ∧ EvalTraces (Watched o) [m] := by
  have hG := additive_watched o
  cases hmoved with
  | operation _ _ strict
  | fresh _ _ strict => exact absurd (strict.symm.trans o.isLogical) (by simp)
  | inPlace _ left right still =>
    obtain ⟨hlstats, hl⟩ := h.left_watched left
    exact ⟨hlstats, h.inPlace_watched hl (right.within o).2⟩
  | guarded _ left right stirred =>
    obtain ⟨hlstats, hl⟩ := h.left_watched left
    obtain ⟨hrstats, hr⟩ := right.within o
    refine ⟨?_, evalTraces_var hG _ _ _⟩
    rw [Setup.stats_append, Setup.stats_append, append_assoc]
    exact traces_append hG hlstats (h.guarded_watched hl hrstats hr)

/-! ## Operators inside nodes -/

theorem reserved_of_mem_parts (h : m ∈ n.parts) : m.reserved ⊆ n.reserved := by
  induction n using induction with
  | step n ih =>
    rcases mem_parts.mp h with ⟨c, hc, hm⟩ | rfl
    · exact fun x hx => mem_reserved_child hc (ih c hc hm hx)
    · exact fun _ hx => hx

theorem reserved_right : o.right.reserved ⊆ o.node.reserved := by
  intro x hx
  rw [Logical.node, reserved_binary]
  exact mem_append_left _ (mem_append_right _ hx)

/-- The nodes around an operator have other temporaries than its right operand. -/
theorem passable_of_mem (hnodup : n.reserved.Nodup) (hmem : o.node ∈ n.parts) :
    Passable (Watched o) o n := by
  induction n using induction with
  | step n ih =>
    rcases mem_parts.mp hmem with ⟨d, hd, hod⟩ | rfl
    · have hright : o.right.reserved ⊆ d.reserved := fun x hx =>
        reserved_of_mem_parts hod (reserved_right hx)
      have hreserved := hnodup
      rw [reserved_eq] at hreserved
      obtain ⟨hinside, -, hown⟩ := nodup_append.mp hreserved
      refine .node (fun a x ha hx => watched_of_site fun y hy hmem => ?_) fun c hc => ?_
      · grind
      · by_cases hoc : o.node ∈ c.parts
        · grind
        · refine passable_of_reserved fun a x ha hx => watched_of_site fun y hy hmem => ?_
          cases ha.symm.trans hy
          have hne : c ≠ d := fun heq => hoc (heq ▸ hod)
          have hsymm : Std.Symm fun a b : Node => List.Disjoint a.reserved b.reserved :=
            ⟨fun _ _ h x hx hx' => h hx' hx⟩
          exact (nodup_flatMap.mp hinside).2.forall hc hd hne hx (hright hmem)
    · exact .whole fun s m hmoved => (apart_of_nodup hnodup).moved_watched hmoved

/-! ## Statements -/

/-- Statements without blocks.  An operator that is checked as a whole must not stand alone, unless
its right operand stays in place. -/
theorem StatForm.passes (hG : Additive G) {s : Node}
    (h : StatForm sweep s code) (hp : Passable G o s)
    (hcall : s = .callStat (some o.node) → (hoist o.right).1.stats = []) :
    Traces G (.stats code) := by
  rcases hp with ⟨own, inside⟩ | _
  case whole => cases h
  refine h.of_parts (P := fun ns => Traces G (.stats ns)) (Q := fun m => EvalTraces G [m])
    (traces_nil hG) (traces_append hG) (fun he hmoved _ => hmoved.passes hG (inside _ he))
    (fun hname hm _ =>
    ⟨traces_define hG _ hm fun _ _ => own _ _ rfl hname, evalTraces_var hG _ _ _⟩)
    (fun hsame hcs => traces_restated hG hsame (evalTraces_all hG hcs))
    (fun kind x _ => traces_stat hG (traces_count hG kind x))
    (fun _ => traces_stat hG (traces_count hG _ _)) (traces_counts hG .deref sweep) ?_
  rintro op temp ty operandTy l r logical rfl left right rfl
  have hstat : ∀ {m}, EvalTraces G [m] → Traces G (.stats [.callStat (some m)]) :=
    fun {m} hm => traces_restated (n := .callStat (some m)) hG (.callStat (e := none)) hm
  cases inside _ (.head _) with
  | whole moved =>
    have hstill := hcall rfl
    obtain ⟨hstats, hm⟩ := moved _ _ (.inPlace logical left right hstill)
    rw [hstill, append_nil]
    exact traces_append hG hstats (hstat hm)
  | node own' inside' =>
    obtain ⟨hlstats, hl⟩ := left.passes hG (inside' l (by simp [children]))
    obtain ⟨hrstats, hr⟩ := right.passes hG (inside' r (by simp [children]))
    refine traces_append hG (traces_append hG hlstats hrstats) (hstat ?_)
    exact evalTraces_logical hG logical hl hr fun _ => own' _ temp rfl (.head _)

theorem Passable.child (h : Passable G o n) (hn : n.isFrame = true)
    (hc : c ∈ n.children) : Passable G o c := by
  rcases h with ⟨-, inside⟩ | _
  · exact inside c hc
  · cases hn

theorem mem_parts_child (hc : c ∈ n.children) (hm : m ∈ c.parts) : m ∈ n.parts :=
  mem_parts.mpr (.inl ⟨c, hc, hm⟩)

/-- What the body of a loop starts with, and the condition of the loop. -/
theorem loop_passes (hG : Additive G) (hc : Moved c (hoist c).1 (hoist c).2)
    (hp : Passable G o c) : Traces G (.stats (loopStart c).stats) ∧ EvalTraces G [loopCond c] := by
  obtain ⟨hstats, hm⟩ := hc.passes hG hp
  unfold loopStart loopCond
  split
  · exact ⟨traces_nil hG, hm⟩
  · have hleave : Traces G
        (.block { stats := (hoist c).1.releases ++ [.breakStat], injected := true }) := by
      refine traces_block hG ?_
      rw [append_nil]
      refine traces_append hG (traces_releases hG _) (traces_stat hG fun acts exit hrun => ?_)
      cases hrun
      exact hG.nil
    have hexit : Traces G (.stat (.ifStat (some (.unary .not .boolean "" (some (hoist c).2)))
        (some (.block { stats := (hoist c).1.releases ++ [.breakStat], injected := true }))
        (Option.map block none))) :=
      traces_ifStat hG (evalTraces_not hG hm) hleave (by simp)
    refine ⟨traces_append hG hstats (traces_stat hG hexit), ?_⟩
    exact evalTraces_operation hG rfl (by simp [kind]) rfl (evalTraces_all hG (by simp [children]))
      (hG.quiet rfl)

theorem countBlock_passes (hG : Additive G) (hstart : Traces G (.stats start.stats))
    (hstats : ∀ s ∈ b.stats, ∀ sweep, Traces G (.stats (codeOf sweep s))) :
    Traces G (.block (countBlock start outer b)) := by
  refine traces_block hG (traces_append hG ?_ ?_)
  · rw [stats_countBlock, codesOf_eq_flatMap]
    exact traces_append hG hstart (traces_flatMap hG fun s hs => hstats s hs _)
  · rw [cleanup_countBlock]
    split
    · exact traces_nil hG
    · exact traces_counts hG .deref _

/-- A node that passes, in which the right operand of the operator stays if it stands alone. -/
structure Passes (G : List Act → Prop) (o : Logical) (n : Node) : Prop where
  passable : Passable G o n
  alone : .callStat (some o.node) ∈ n.parts → (hoist o.right).1.stats = []

theorem Passes.child (h : Passes G o n) (hn : n.isFrame = true) (hc : c ∈ n.children) :
    Passes G o c :=
  ⟨h.passable.child hn hc, fun hmem => h.alone (mem_parts_child hc hmem)⟩

/-- **Statements.**  What can be checked of a built statement node by node holds of the paths
through its code. -/
theorem BuiltStat.passes {t : Table} (hG : Additive G) {s : Node}
    (h : BuiltStat t returns nest s) (hreserves : ReservesTemps t s) (hp : Passes G o s)
    (sweep : List String) : Traces G (.stats (codeOf sweep s)) := by
  refine BuiltStat.lowering
    (S := fun _ s => Passes G o s → ∀ sweep, Traces G (.stats (codeOf sweep s)))
    (B := fun _ b => Passes G o (.block b) → ∀ start outer,
      Traces G (.stats start.stats) → Traces G (.block (countBlock start outer b)))
    ?leaf ?ifStat ?whileStat ?blockStat ?inner ?block h hreserves hp sweep
  case leaf =>
    intro nest s setup rest hleaf _ _ hp sweep
    rw [hleaf.codeOf_eq]
    refine (hleaf.form sweep).passes hG hp.passable fun heq => hp.alone ?_
    exact mem_parts.mpr (.inr heq.symm)
  case ifStat =>
    intro nest c b other hc _ _ hb hother hp sweep
    have hcond := hp.child rfl (c := c) (by simp [children])
    rw [codeOf_ifStat, branchOf_block, branchOf_map]
    obtain ⟨hstats, hm⟩ := (hoist_moved hc.expr).passes hG hcond.passable
    refine traces_append hG hstats (traces_stat hG (traces_ifStat hG hm ?_ fun d hd => ?_))
    · exact hb (hp.child rfl (mem_yes_ifStat ..)) {} sweep (traces_nil hG)
    · obtain ⟨b', rfl, rfl⟩ := Option.map_eq_some_iff.mp hd
      exact hother b' rfl (hp.child rfl (mem_no_ifStat rfl)) {} sweep (traces_nil hG)
  case whileStat =>
    intro nest c b hc _ _ hb hp sweep
    have hcond := hp.child rfl (c := c) (by simp [children])
    rw [codeOf_whileStat, branchOf_block]
    obtain ⟨hstart, hm⟩ := loop_passes hG (hoist_moved hc.expr) hcond.passable
    refine traces_stat hG (traces_whileStat hG hm ?_)
    exact hb (hp.child rfl (mem_body_whileStat ..)) _ sweep hstart
  case blockStat =>
    intro nest b hb hp sweep
    rw [codeOf_blockStat, branchOf_block]
    refine traces_stat hG fun acts exit hrun => ?_
    cases hrun with
    | blockStat inner =>
      exact hb (hp.child rfl (.head _)) {} sweep (traces_nil hG) _ _ inner
  case inner =>
    intro nest b hb hp sweep
    rw [codeOf_block]
    refine traces_stat hG fun acts exit hrun => ?_
    cases hrun with
    | inner inner => exact hb hp {} sweep (traces_nil hG) _ _ inner
  case block =>
    intro nest scope vars b _ _ ih hp start outer hstart
    exact countBlock_passes hG hstart fun s hs => ih s hs (hp.child rfl (mem_child_of_stat hs))

end Counting

/-! ## Functions -/

/-- The right operands of `&&` and `||` in a function `f` are guarded on the paths of `g`, unless
the operator stands alone as a statement and its right operand is moved ahead of it. -/
def Node.GuardsRight (f g : Node) : Prop :=
  ∀ n ∈ f.parts, n.isLogical = true → ∃ o : Logical, n = o.node ∧
    ((.callStat (some n) ∈ f.parts → (hoist o.right).1.stats = []) →
      ∀ globals acts, g.HasPath globals acts → Faithful acts → o.Guards acts)

section Functions

variable {t : Table} {n : Node}

theorem Node.All.mem_parts {P : Node → Prop} {m : Node} (h : n.All P) (hm : m ∈ n.parts) : P m := by
  induction h with
  | intro here _ ih =>
    rcases Node.mem_parts.mp hm with ⟨c, hc, hm⟩ | rfl
    · exact ih c hc hm
    · exact here

/-- An `&&` or `||` of a built model has two operands. -/
theorem Node.IsBuiltNode.logical (h : n.IsBuiltNode t) (hn : n.isLogical = true) :
    ∃ o : Logical, n = o.node := by
  cases n <;> try cases hn
  case binary kind op ty operandTy temp left right =>
    rcases h with h | h
    · obtain ⟨hl, hr, -, hlogical⟩ := h
      obtain ⟨l, rfl⟩ := Option.isSome_iff_exists.mp hl
      obtain ⟨r, rfl⟩ := Option.isSome_iff_exists.mp hr
      have hop : op = "&&" ∨ op = "||" := by
        simpa [isLogical, isShortCircuit] using hn
      obtain ⟨rfl, -, -⟩ := hlogical hop
      exact ⟨⟨op, temp, ty, operandTy, l, r, hn⟩, rfl⟩
    · cases h

/-- The paths of a function whose body starts with `start`. -/
theorem body_guards
    (hstart : Traces (Watched o) (.stats start.stats)) (hscoped : Scoped t returns nest vars b)
    (hmem : o.node ∈ (block b).parts)
    (hcall : .callStat (some o.node) ∈ (block b).parts → (hoist o.right).1.stats = []) :
    Traces (Watched o) (.block (countBlock start outer b)) := by
  have hp : Passes (Watched o) o (.block b) := ⟨passable_of_mem hscoped.reserves.nodup hmem, hcall⟩
  refine countBlock_passes (additive_watched o) hstart fun s hs => ?_
  exact BuiltStat.passes (additive_watched o) (hscoped.stats s hs) (hscoped.child hs)
    (hp.child rfl (mem_child_of_stat hs))

theorem Logical.Guards.path {exit : Exit}
    (h : Watched o acts) : Watched o (.enter slots :: (acts ++ leaving slots exit)) := by
  refine (additive_watched o).cons rfl ((additive_watched o).append h ?_)
  cases exit with
  | cut => exact (additive_watched o).nil
  | _ => exact (additive_watched o).quiet rfl

theorem Node.IsBuiltFunc.guardsRight {f : Node} (h : f.IsBuiltFunc t) :
    f.GuardsRight (countFunc f) := by
  intro n hn hlogical
  obtain ⟨o, rfl⟩ := (h.all_nodes.mem_parts hn).logical hlogical
  refine ⟨o, rfl, fun hcall globals acts hpath => ?_⟩
  obtain ⟨head, params, scope, vars, b, rfl, hfunc⟩ := h
  have hbody : block b ∈ (func head (argDefs params) (some (.block b))).children := by
    simp [children]
  have hmem : o.node ∈ (block b).parts := by
    rcases mem_parts.mp hn with ⟨c, hc, hm⟩ | heq
    · simp only [children, slots, Slot.toList, flatMap_cons, flatMap_nil,
        append_nil, mem_append, Option.toList_some, mem_singleton] at hc
      rcases hc with hc | rfl
      · obtain ⟨p, -, rfl⟩ := mem_map.mp hc
        rcases mem_parts.mp hm with ⟨d, hd, -⟩ | heq
        · cases hd
        · cases heq
      · exact hm
    · cases heq
  rw [countFunc] at hpath
  cases hpath with
  | func body =>
    have hstart : Traces (Watched o) (.stats ((heapArgs (argDefs params)).map refer)) :=
      traces_counts (additive_watched o) .ref _
    exact Logical.Guards.path (body_guards hstart (.ofFunc hfunc) hmem
      (fun h => hcall (mem_parts_child hbody h)) _ _ body)

theorem BuiltMain.guardsRight (h : BuiltMain t vars b) :
    (mainFunc (some (.block b))).GuardsRight (countMain slots (.mainFunc (some (.block b)))) := by
  have hall : (block b).All (IsBuiltNode t) :=
    h.uncounted.all_nodes fun s hs => (h.stats s hs).all_nodes
  have hbody : block b ∈ (mainFunc (some (.block b))).children :=
    .head _
  intro n hn hlogical
  have hmem : n ∈ (block b).parts := by
    rcases mem_parts.mp hn with ⟨c, hc, hm⟩ | rfl
    · obtain rfl := mem_singleton.mp hc
      exact hm
    · cases hlogical
  obtain ⟨o, rfl⟩ := (hall.mem_parts hmem).logical hlogical
  refine ⟨o, rfl, fun hcall globals acts hpath => ?_⟩
  rw [countMain] at hpath
  cases hpath with
  | main body =>
    exact Logical.Guards.path (body_guards (traces_nil (additive_watched o)) (.ofMain h) hmem
      (fun h => hcall (mem_parts_child hbody h)) _ _ body)

theorem Node.IsBuiltFile.guardsRight (h : n.IsBuiltFile t) :
    List.Forall₂ GuardsRight n.functions n.counted.functions := by
  obtain ⟨vars, funcs, b, rfl, hfuncs, hmain⟩ := h
  refine rel_append ?_ (.cons hmain.guardsRight .nil)
  rw [forall₂_map_right_iff, forall₂_same]
  exact fun f hf => (hfuncs f hf).guardsRight

end Functions

/-- **Guarded operands.**  On every path of a function with counts of a script without errors,
nothing that comes from the right operand of an `&&` or `||` is done unless the left operand was
evaluated before and left the result open.  Operators that stand alone as statements are left out if
their right operands are moved ahead. -/
theorem right_operand_guarded (source : String) (report : Report)
    (h : (ofSource source report).report.hasErrors = false) :
    ∃ model, ofScript (ofSource source report).script
        (ofSource source report).table = .ok model ∧
      List.Forall₂ GuardsRight model.functions
        (model.inject (ofSource source report).table).functions := by
  obtain ⟨base, hacc⟩ := accepted h
  obtain ⟨model, hmodel, hshape⟩ := hacc.ofScript
  refine ⟨model, hmodel, ?_⟩
  rw [inject_eq_counted hacc.typed.wellFormed hshape]
  exact hshape.guardsRight

/-- A script with calls and strings in the right operands of operators in many places. -/
def lazyOperands : String :=
  "func p() : boolean \x7b return false \x7d\nfunc q() : string \x7b return \"x\" \x7d\n" ++
  "func f(b : boolean) : boolean \x7b return b && (p() || q() + \"y\" == \"xy\") \x7d\n" ++
  "var b = f(p() || q() == \"x\")\n" ++
  "while (b && q() != \"y\") \x7b if (p() || f(q() == \"z\")) \x7b b = false \x7d \x7d\n"

set_option maxRecDepth 20000 in
/-- The script with the operators is accepted, and its right operands are guarded. -/
theorem right_operand_guarded_lazyOperands : (ofSource lazyOperands {}).report.hasErrors = false ∧
      ∃ model, ofScript (ofSource lazyOperands {}).script
          (ofSource lazyOperands {}).table = .ok model ∧
        List.Forall₂ GuardsRight model.functions
          (model.inject (ofSource lazyOperands {}).table).functions :=
  have haccepted : (ofSource lazyOperands {}).report.hasErrors = false := by decide +kernel
  ⟨haccepted, right_operand_guarded lazyOperands {} haccepted⟩

/-! ## An operator on its own -/

/-- The operator that a call statement consists of. -/
def Node.loneOperator? : Node → Option Logical
  | callStat (some (binary .int op ty operandTy temp (some l) (some r))) =>
    if h : isShortCircuit op = true then some ⟨op, temp, ty, operandTy, l, r, h⟩ else none
  | _ => none

theorem Node.loneOperator?_eq {n : Node} (h : n.loneOperator? = some o) :
    n = .callStat (some o.node) := by
  unfold loneOperator? at h
  split at h
  · split at h <;> cases h
    rfl
  · cases h

/-- Whether an act comes from the right operand of an operator. -/
def Logical.makes (o : Logical) (a : Act) : Bool := a.site?.any fun x => o.right.reserved.contains x

/-- Whether something of the right operand is done before the left operand is evaluated at all. -/
def Logical.breaks (o : Logical) (acts : List Act) : Bool :=
  acts.any o.makes && (lastLeft o.temp (acts.takeWhile fun a => !o.makes a)).isNone

theorem Logical.not_guards_of_breaks (h : o.breaks acts = true) : ¬o.Guards acts := by
  intro hguards
  obtain ⟨hany, hnone⟩ := Bool.and_eq_true_iff.mp h
  have hsplit := takeWhile_append_dropWhile (p := fun a => !o.makes a) (l := acts)
  cases hdrop : acts.dropWhile fun a => !o.makes a with
  | nil =>
    obtain ⟨a, ha, hmakes⟩ := any_eq_true.mp hany
    have hall : (acts.takeWhile fun a => !o.makes a).all (fun a => !o.makes a) = true :=
      all_takeWhile
    grind
  | cons a after =>
    have hmakes : o.makes a = true := by
      have := head?_dropWhile_not (fun a => !o.makes a) acts
      rw [hdrop] at this
      simpa using this
    obtain ⟨x, hx, hmem⟩ : ∃ x, a.site? = some x ∧ x ∈ o.right.reserved := by
      cases hsite : a.site? with
      | none => simp [makes, hsite] at hmakes
      | some x => exact ⟨x, rfl, by simpa [makes, hsite] using hmakes⟩
    rw [hdrop] at hsplit
    obtain ⟨truth, hlast, -⟩ := hguards _ a after hsplit.symm ⟨x, hmem, hx⟩
    rw [hlast] at hnone
    cases hnone

/-- Whether nothing is read on a path. -/
def readsNothing (acts : List Act) : Bool :=
  acts.all fun
    | .read .. => false
    | _ => true

theorem faithful_of_readsNothing (h : readsNothing acts = true) : Faithful acts := by
  rintro before name ty fromCall truth ty' truth' after rfl
  have := all_eq_true.mp h (.read name ty' truth') (by simp)
  cases this

/-- A script with an operator as a statement. -/
def loneOperator : String :=
  "func p() : boolean \x7b return false \x7d\nfunc q() : string \x7b return \"x\" \x7d\n" ++
  "p() && q() == \"x\"\n"

set_option maxRecDepth 20000 in
/-- In an accepted script the right operand of an operator that stands alone is evaluated first. -/
theorem loneOperator_breaks : (ofSource loneOperator {}).report.hasErrors = false ∧
      ∃ model, ofScript (ofSource loneOperator {}).script
          (ofSource loneOperator {}).table = .ok model ∧
        ∃ f ∈ model.functions, ∃ g ∈ (model.inject (ofSource loneOperator {}).table).functions,
          ∃ o : Logical, .callStat (some o.node) ∈ f.parts ∧
            ∃ acts, g.HasPath [] acts ∧ Faithful acts ∧ ¬o.Guards acts := by
  refine ⟨by decide +kernel, ?_⟩
  set analysis := ofSource loneOperator {} with hanalysis
  have hrun : ((ofScript analysis.script analysis.table).toOption.bind fun model =>
      model.functions.getLast?.bind fun f => (f.parts.findSome? loneOperator?).bind fun o =>
        (model.inject analysis.table).functions.getLast?.bind fun g =>
          (g.straightPath []).map fun acts => readsNothing acts && o.breaks acts) = some true := by
    rw [hanalysis]
    decide +kernel
  obtain ⟨model, hmodel, hrun⟩ := Option.bind_eq_some_iff.mp hrun
  obtain ⟨f, hf, hrun⟩ := Option.bind_eq_some_iff.mp hrun
  obtain ⟨o, ho, hrun⟩ := Option.bind_eq_some_iff.mp hrun
  obtain ⟨g, hg, hrun⟩ := Option.bind_eq_some_iff.mp hrun
  obtain ⟨acts, hacts, hcheck⟩ := Option.map_eq_some_iff.mp hrun
  obtain ⟨hreads, hbreaks⟩ := Bool.and_eq_true_iff.mp hcheck
  obtain ⟨n, hn, hno⟩ := exists_of_findSome?_eq_some ho
  refine ⟨model, ofScript_of_toOption hmodel, f, mem_of_getLast? hf, g, mem_of_getLast? hg, o,
    loneOperator?_eq hno ▸ hn, acts, hasPath_straight hacts, faithful_of_readsNothing hreads,
    Logical.not_guards_of_breaks hbreaks⟩

end WichToC

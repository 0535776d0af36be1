import WichToC.Proofs.Derivations

/-!
# What reading a script yields

Reading leaves the annotations of a tree empty: no expression is widened yet, and the types in the
headers of functions are types that a program can write.  A statement that begins with a call is
more than a name.  All this is read off the derivation of a script; there is one also for what is
made of a text with faults.  Everything that reading reports is an error.
-/

namespace WichToC

open Annotated

variable {e : Expr} {ts : List Token} (script : Script) (source : String) (report : Report)
    {k : StmtKind}

/-- No part of the expression is widened. -/
def Annotated.Unwidened (e : Expr) : Prop :=
  ∀ n ∈ e.nodes, n.promoteTo = none

def ExprKind.isName : ExprKind → Bool
  | .name .. => true
  | _ => false

/-- The expressions of a statement, apart from those in its blocks, as reading leaves them. -/
structure StmtKind.AsRead (k : StmtKind) : Prop where
  exprs : ∀ e ∈ k.exprs, e.Unwidened
  calls : ∀ e ∈ k.calls, e.kind.isName = false

/-- A statement and the statements inside it as reading leaves them. -/
def Located.AsRead (s : Stmt) : Prop :=
  ∀ c ∈ s.nodes, c.kind.AsRead

/-- The statements of a block as reading leaves them. -/
def BlockOf.AsRead (b : Block) : Prop :=
  ∀ s ∈ b.statements, s.AsRead

/-- The types in the header of a function are types that a program can write. -/
structure Function.HasWrittenTypes (f : Function) : Prop where
  params : ∀ p ∈ f.params, p.mark.ty ∈ Ty.builtins
  result : ∀ mark ∈ f.returnMark, mark.ty ∈ Ty.builtins

/-- A function before it is declared: its header has types that a program can write, and it has no
symbol. -/
structure Function.Pristine (f : Function) : Prop extends f.HasWrittenTypes where
  symbol : f.symbol = none

def Item.Pristine : Item → Prop
  | .function f => f.Pristine
  | .statement _ => True

/-- The functions of a script are as they are before they are declared. -/
def Script.Pristine : Prop :=
  ∀ item ∈ script.items, item.Pristine

/-- A function or a statement as reading leaves it. -/
def Item.AsRead : Item → Prop
  | .function f => f.body.AsRead ∧ f.HasWrittenTypes
  | .statement s => s.AsRead

/-- A script as reading leaves it. -/
def Script.AsRead : Prop :=
  ∀ item ∈ script.items, item.AsRead

theorem Annotated.unwidened_iff :
    e.Unwidened ↔ e.promoteTo = none ∧ ∀ c ∈ e.kind.operands, c.Unwidened :=
  forall_nodes

theorem Located.asRead_iff {s : Stmt} : s.AsRead ↔ s.kind.AsRead ∧ ∀ b ∈ s.kind.blocks, b.AsRead :=
  Located.forall_nodes

/-- A statement that is no call is as reading leaves it if its expressions are. -/
theorem StmtKind.AsRead.of_exprs (hcalls : k.calls = [])
    (h : ∀ e ∈ k.exprs, e.Unwidened) : k.AsRead :=
  ⟨h, by simp [hcalls]⟩

/-! ## What is derived is as read -/

/-- Expressions are read without any widening. -/
theorem Annotated.Spelled.unwidened {level : Nat} (h : e.Spelled level ts) : e.Unwidened := by
  have hparts : ∀ {parts : List (Expr × List Token)}, (∀ p ∈ parts, p.1.Unwidened) →
      ∀ c ∈ parts.map Prod.fst, c.Unwidened := by simp
  induction h with
  | parens _ ih => exact ih
  | atom token =>
    refine unwidened_iff.mpr ⟨rfl, fun c hc => ?_⟩
    unfold ExprKind.token? at token
    split at token <;> cases token <;> cases hc
  | call _ ih | vector _ ih => exact unwidened_iff.mpr ⟨rfl, hparts ih⟩
  | len _ ih | negate _ _ ih | not _ _ ih =>
    exact unwidened_iff.mpr ⟨rfl, by simpa using ih⟩
  | index _ _ ih ih' | binary _ _ _ ih ih' =>
    exact unwidened_iff.mpr ⟨rfl, by simpa using ⟨ih, ih'⟩⟩

/-- **Call statements.**  What begins with a call is more than a name. -/
theorem BeginsWithCall.isName (h : BeginsWithCall e ts) : e.kind.isName = false := by
  obtain ⟨spelled⟩ := h
  rename_i n ts
  generalize hts : Token.identifier n :: .mark .leftParen :: ts = tokens at spelled
  cases spelled with
  | parens | atom => cases hts
  | call | vector | len | index | negate | not | binary => rfl

theorem StmtKind.Written.asRead (h : k.Written BeginsWithCall) : k.AsRead where
  exprs e he := by
    rcases h.exprs e he with ⟨ts, hcall⟩ | ⟨ts, hspelled⟩
    · exact hcall.spelled.unwidened
    · exact hspelled.unwidened
  calls e he := by
    obtain ⟨ts, hcall⟩ := h.calls e he
    exact hcall.isName

theorem Located.Derived.asRead {s : Stmt} (h : s.Derived BeginsWithCall ts) : s.AsRead :=
  fun c hc => (h.written c hc).asRead

theorem TypeMark.Spelled.isBuiltin {mark : TypeMark} (h : mark.Spelled ts) :
    mark.ty ∈ Ty.builtins := by
  unfold TypeMark.Spelled Ty.tokens? at h
  split at h <;> rename_i hty <;> simp_all [Ty.builtins]

theorem Item.Derived.asRead {item : Item} (h : item.Derived BeginsWithCall ts) : item.AsRead := by
  cases h with
  | statement derived => exact derived.asRead
  | @function name params mark resultTokens body inner span header result statements =>
    refine ⟨fun s hs => ?_, fun p hp => ?_, fun m hm => ?_⟩
    · obtain ⟨p, hp, rfl⟩ := List.mem_map.mp hs
      exact (statements p hp).asRead
    · obtain ⟨q, hq, rfl⟩ := List.mem_map.mp hp
      obtain ⟨tokens, hmark, -⟩ := header q hq
      exact hmark.isBuiltin
    · cases hm
      obtain ⟨tokens, hmark, -⟩ := result
      exact hmark.isBuiltin

theorem Item.Derived.pristine {item : Item} (h : item.Derived BeginsWithCall ts) :
    item.Pristine := by
  have hread := h.asRead
  cases h with
  | statement => exact trivial
  | function => exact ⟨hread.2, rfl⟩

theorem Script.Derived.asRead {script : Script}
    (h : script.Derived BeginsWithCall ts) : script.AsRead := by
  obtain ⟨each⟩ := h
  intro item hitem
  obtain ⟨p, hp, rfl⟩ := List.mem_map.mp hitem
  exact (each p hp).asRead

theorem Script.Derived.pristine {script : Script}
    (h : script.Derived BeginsWithCall ts) : script.Pristine := by
  obtain ⟨each⟩ := h
  intro item hitem
  obtain ⟨p, hp, rfl⟩ := List.mem_map.mp hitem
  exact (each p hp).pristine

/-! ## Texts -/

/-- What is read of a text, with or without faults, is a script of some tokens. -/
theorem Script.read_derived : ∃ ts, (Script.read source report).1.Derived BeginsWithCall ts := by
  show ∃ ts, ((ofLexemes (lex source) report.endPosition).node.getD {}).Derived BeginsWithCall ts
  cases hnode : (ofLexemes (lex source) report.endPosition).node with
  | none =>
    have hnone : ∀ p ∈ ([] : List (Item × List Token)), p.1.Derived BeginsWithCall p.2 := by simp
    exact ⟨_, .intro hnone⟩
  | some script => exact (ofLexemes_takes (lex source) report.endPosition).made hnode

/-- **What reading a text yields.**  The script has a derivation, and the report grows by errors
only. -/
theorem Script.read_spec : (∃ ts, (Script.read source report).1.Derived BeginsWithCall ts) ∧
      ∃ faults, (Script.read source report).2 = report.addAll faults ∧
        ∀ d ∈ faults, d.isError := by
  exact ⟨Script.read_derived source report, _, rfl,
    (ofLexemes_takes (lex source) report.endPosition).errors⟩

end WichToC

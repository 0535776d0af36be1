import WichToC.Diagnostic
import WichToC.Model.Node

/-!
# Templates

A group of templates says how nodes become text.  The template for a kind lists the slots whose
children are rendered first, and is then given their texts under the names of the slots; a single
slot without a child gives no text at all.

A kind without a template, or with a template that asks for a slot that the kind does not have, does
not fit the group.  That is reported once for each such kind, and rendering goes on.
-/

namespace WichToC

variable (group : TemplateGroup) (n : Node)

/-- The rendered children of a node, by the names of their slots. -/
abbrev Args := List (String × Slot String)

namespace Args

variable (args : Args) (name : String)

/-- The text of the child in a single slot, if there is one. -/
def single? : Option String :=
  (args.lookup name).bind Slot.getSingle

/-- The text of the child in a single slot, empty without a child. -/
def single : String :=
  (args.single? name).getD ""

/-- The texts of the children in a sequence. -/
def sequence : List String :=
  ((args.lookup name).map Slot.getSequence).getD []

/-- The texts of the children in a map, in order. -/
def entries : List String :=
  ((args.lookup name).map Slot.getMap).getD [] |>.map Prod.snd

end Args

/-- How nodes of a kind become text. -/
structure Template where
  /-- The slots whose children are rendered first. -/
  params : List String
  render : Node → Args → String

structure TemplateGroup where
  name : String
  template? : Kind → Option Template

/-- Why a kind does not fit a group. -/
inductive MismatchCause where
  | noTemplate
  | noSlot (param : String)
deriving DecidableEq, Repr

/-- A kind that does not fit a group. -/
structure Mismatch where
  kind : Kind
  cause : MismatchCause
deriving DecidableEq, Repr

namespace Mismatch

variable (group : String) (m : Mismatch)

/-- The message for a kind that does not fit the group with the given name. -/
def message : String :=
  match m.cause with
  | .noTemplate => "no template for " ++ m.kind.name ++ " in group " ++ group
  | .noSlot param =>
    "template " ++ group ++ "." ++ m.kind.name ++ " has parameter " ++ param ++ " but " ++
      m.kind.name ++ " has no such model child"

/-- The warning about a mismatch. -/
def diagnostic : Diagnostic :=
  { kind := .modelMismatch, message := m.message group, span := none, severity := .warning }

/-- Adds a mismatch unless its kind was met before. -/
def note (seen : List Mismatch) : List Mismatch :=
  if seen.any fun other => other.kind = m.kind then seen else seen ++ [m]

end Mismatch

namespace Render

/-- The text of a node, waiting for the mismatches met so far. -/
abbrev Pending := List Mismatch → String × List Mismatch

/-- The texts of the children in the slots that are asked for, in the order of the slots. -/
def args (params : List String) : List (String × Slot Pending) → List Mismatch →
    Args × List Mismatch
  | [], seen => ([], seen)
  | (name, s) :: slots, seen =>
    if name ∈ params then
      let (texts, seen) := s.thread seen
      let (others, seen) := args params slots seen
      ((name, texts) :: others, seen)
    else args params slots seen

/-- The first slot that a template asks for and nodes of the kind do not have. -/
def missing? (kind : Kind) (template : Template) : Option String :=
  template.params.find? fun param => !(kind.slots.map Prod.fst).contains param

/-- The text of one node. -/
def step (pending : List (Slot Pending)) : Pending := fun seen =>
  match group.template? n.kind with
  | none => ("[" ++ n.kind.name ++ " invalid]", Mismatch.note ⟨n.kind, .noTemplate⟩ seen)
  | some template =>
    let seen :=
      match missing? n.kind template with
      | none => seen
      | some param => Mismatch.note ⟨n.kind, .noSlot param⟩ seen
    let (texts, seen) := args template.params ((n.kind.slots.map Prod.fst).zip pending) seen
    (template.render n texts, seen)

end Render

/-- The text of a model, and the kinds met in it that do not fit the group. -/
def Node.render : String × List Mismatch :=
  n.fold (Render.step group) []

end WichToC

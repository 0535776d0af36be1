import WichToC.Model.Walk

/-!
# Walking by rules

A listener given by two lists of rules.  At each node the first rule that matches says what to do;
a node that no rule matches is kept.  The listener records every node that it visits.
-/

namespace WichToC

/-- What a rule does at a node. -/
inductive RuleAction where
  | keep
  | delete
  | replace (new : Node)
  /-- Empties the first slot. -/
  | prune
deriving Repr

/-- A rule: it matches the nodes of a kind and with a name, where these are given. -/
structure Rule where
  kind : Option String := none
  name : Option String := none
  action : RuleAction
deriving Repr

namespace Rule

/-- Whether a rule matches a node.  A node without a name matches no rule that asks for one. -/
def admits (rule : Rule) (n : Node) : Bool :=
  (rule.kind.all fun kind => kind = n.kind.name) && (rule.name.all fun name => n.name? = some name)

def answer : RuleAction → Answer
  | .keep => {}
  | .delete => { verdict := .delete }
  | .replace new => { verdict := .replace new }
  | .prune => { clear := some 0 }

def answerOf (rules : List Rule) (n : Node) : Answer :=
  ((rules.find? fun rule => rule.admits n).map fun rule => answer rule.action).getD {}

/-- How a visit is recorded: the kind of the node and its name, if it has one. -/
def label (n : Node) : String :=
  n.kind.name ++ (n.name?.map fun name => ":" ++ name).getD ""

/-- The listener for two lists of rules; its state holds the visits, in order. -/
def listener (visit every : List Rule) : Listener (List String) where
  visit n log := (answerOf visit n, log ++ [label n])
  visitEvery n log := (answerOf every n, log)

end Rule

end WichToC

import WichToC.Script.SyntaxFault

/-!
# Cursors

A cursor is a place in a sequence of lexemes: what is still to be read, where the last lexeme that
was read ends, and the position that faults at the end of the input refer to.

`Reading α` is a step of reading.  It either yields a value or fails, and in both cases it tells how
far it came: reading goes on from there after a fault.
-/

namespace WichToC

variable (m : Mark) (f : SyntaxFault) (w : Keyword) (what : String) (start : Nat) {α : Type}

/-- A place in a sequence of lexemes. -/
structure Cursor where
  rest : List Lexeme
  /-- The end of the last lexeme read, none before the first. -/
  lastStop : Option Nat := none
  /-- The position of the end of the input. -/
  endPosition : Nat
deriving DecidableEq, Repr

namespace Cursor

variable (c : Cursor)

/-- The present token. -/
def token? : Option Token :=
  c.rest.head?.map Lexeme.token

/-- The token after the present one. -/
def nextToken? : Option Token :=
  c.rest[1]?.map Lexeme.token

/-- Whether the present token is the given mark. -/
def isAtMark : Bool :=
  c.token? = some (.mark m)

/-- Whether the present token is the given reserved word. -/
def isAtWord : Bool :=
  c.token? = some (.keyword w)

/-- The span of the present token, empty at the end of the input. -/
def here : Span :=
  match c.rest with
  | lexeme :: _ => lexeme.span
  | [] => ⟨c.endPosition, c.endPosition⟩

/-- The place after the present token. -/
def advance : Cursor :=
  match c.rest with
  | lexeme :: rest => { c with rest := rest, lastStop := some lexeme.span.stop }
  | [] => c

/-- The span from `start` to the end of the last lexeme read. -/
def spanFrom : Span :=
  ⟨start, max (c.lastStop.getD start) start⟩

/-- A fault at the present place. -/
def fault : Diagnostic :=
  f.diagnostic c.here

/-- The first place from here on at which a statement can begin or a block can end. -/
def skipToStatement : Cursor :=
  let skipped := c.rest.takeWhile fun l => !l.token.startsStatement
  { c with
    rest := c.rest.drop skipped.length
    lastStop := (skipped.getLast?.map (·.span.stop)) <|> c.lastStop }

/-- Where reading goes on after a statement that began at `start` failed here: at the next place
where a statement can begin, but never at `start` itself. -/
def recover (start : Cursor) : Cursor :=
  if c.rest.length = start.rest.length then c.advance.skipToStatement else c.skipToStatement

end Cursor

/-- The result of a step of reading. -/
inductive Step (α : Type) where
  | ok (value : α) (cursor : Cursor)
  | fail (fault : Diagnostic) (cursor : Cursor)

def Reading (α : Type) : Type := Cursor → Step α

namespace Reading

/-- Yields a value and reads nothing. -/
protected def pure (a : α) : Reading α := fun c => .ok a c

/-- Reads one thing and then, if that went well, another. -/
protected def bind {β : Type} (p : Reading α) (f : α → Reading β) : Reading β := fun c =>
  match p c with
  | .ok a next => f a next
  | .fail fault next => .fail fault next

instance : Monad Reading where
  pure := Reading.pure
  bind := Reading.bind

/-- The present place. -/
def cursor : Reading Cursor := fun c => .ok c c

/-- Goes on to the next token. -/
def advance : Reading Unit := fun c => .ok () c.advance

/-- Fails at the present place. -/
def fail : Reading α := fun c => .fail (c.fault f) c

/-- The span from `start` to what was read last. -/
def spanFrom : Reading Span := fun c => .ok (c.spanFrom start) c

/-- Reads the given mark, which messages call `what`. -/
def expectMark : Reading Unit := fun c =>
  if c.isAtMark m then .ok () c.advance
  else .fail (c.fault (.expected what c.token?)) c

/-- Reads the given reserved word, which messages call `what`. -/
def expectWord : Reading Unit := fun c =>
  if c.isAtWord w then .ok () c.advance
  else .fail (c.fault (.expected what c.token?)) c

/-- Reads the given mark if it is present, and tells whether it was. -/
def matchMark : Reading Bool := fun c =>
  if c.isAtMark m then .ok true c.advance else .ok false c

/-- Reads a name. -/
def identifier : Reading String := fun c =>
  match c.token? with
  | some (.identifier name) => .ok name c.advance
  | found => .fail (c.fault (.expectedIdentifier found)) c

end Reading

end WichToC

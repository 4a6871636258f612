import TreeScript.Machine.Snapshot
import TreeScript.Main
import TreeScript.Proofs.Program.Termination
import TreeScript.Proofs.Program.Dependencies
import TreeScript.Proofs.Program.Locals
import TreeScript.Proofs.Program.Traps
import TreeScript.Proofs.Code.Reading
import TreeScript.Proofs.Code.Resolution
import TreeScript.Proofs.Lowering.Requests
import TreeScript.Proofs.Evaluation.Calls
import TreeScript.Proofs.Evaluation.Labels
import TreeScript.Proofs.Evaluation.Lists
import TreeScript.Proofs.Evaluation.Declaring
import TreeScript.Proofs.Program.Names
import TreeScript.Proofs.Program.Enumeration
import TreeScript.Proofs.Number.Numerals
import TreeScript.Proofs.Number.RoundTrip
import TreeScript.Proofs.Text.Order
import TreeScript.Proofs.Realm.Objects
import TreeScript.Proofs.Realm.Equality

import Bytescript.Code.Json
import Bytescript.Json.Writer
import Bytescript.Main
import Bytescript.Proofs.Environments
import Bytescript.Proofs.LineTable
import Bytescript.Proofs.Machine.Assignments
import Bytescript.Proofs.Machine.Endings
import Bytescript.Proofs.Machine.HostCalls
import Bytescript.Proofs.Machine.Independence
import Bytescript.Proofs.Machine.Limits
import Bytescript.Proofs.Machine.Variables
import Bytescript.Proofs.Overloads
import Bytescript.Proofs.Relations
import Bytescript.Proofs.Relaxation
import Bytescript.Proofs.Scalar.Script
import Bytescript.Proofs.SlotNumbers
import Bytescript.Tree.Form

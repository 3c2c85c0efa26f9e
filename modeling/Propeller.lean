import Propeller.FileTree
import Propeller.Main
import Propeller.Proofs.Assembly.Data
import Propeller.Proofs.Assembly.Memories
import Propeller.Proofs.Case.Image
import Propeller.Proofs.Clock
import Propeller.Proofs.Compile.AssemblyNames
import Propeller.Proofs.Compile.Constants
import Propeller.Proofs.Compile.Enumeration
import Propeller.Proofs.Compile.Exits
import Propeller.Proofs.Compile.Limit
import Propeller.Proofs.Compile.Renaming
import Propeller.Proofs.Compile.Variables
import Propeller.Proofs.Compile.WrittenCalls
import Propeller.Proofs.Number.Congruence
import Propeller.Proofs.Number.Literal
import Propeller.Proofs.Semantics.ControlFlow
import Propeller.Proofs.Semantics.DebugStatements
import Propeller.Proofs.Semantics.Expression

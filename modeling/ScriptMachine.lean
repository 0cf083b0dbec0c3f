import ScriptMachine.Host.Catalogue
import ScriptMachine.Program.Reader
import ScriptMachine.Session
import ScriptMachine.Proofs.Permanence
import ScriptMachine.Proofs.StackRequests
import ScriptMachine.Proofs.TextForms
import ScriptMachine.Proofs.Transparency
import ScriptMachine.Proofs.Memory.Holders
import ScriptMachine.Proofs.GlobalNames
import ScriptMachine.Proofs.Bindings.Cells
import ScriptMachine.Proofs.Bindings.Constants
import ScriptMachine.Proofs.ScopeChains
import ScriptMachine.Proofs.Traces
import ScriptMachine.Proofs.Evaluations
import ScriptMachine.Proofs.Products
import ScriptMachine.Proofs.VariadicCalls
import ScriptMachine.Proofs.GlobalDeletion
import ScriptMachine.Proofs.PropertyCopies
import ScriptMachine.Proofs.NumericTexts
import ScriptMachine.Proofs.JumpTargets

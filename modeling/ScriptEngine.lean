import ScriptEngine.Options.Reader
import ScriptEngine.Json.Printer
import ScriptEngine.Json.Reader
import ScriptEngine.Json.Value
import ScriptEngine.Tree.Reader
import ScriptEngine.View
import ScriptEngine.Proofs.Limits.Transparency
import ScriptEngine.Proofs.Integrity.Session
import ScriptEngine.Proofs.Limits.Depth
import ScriptEngine.Proofs.Pledges.Namespaces
import ScriptEngine.Proofs.Labels.Suspended
import ScriptEngine.Proofs.Shortcuts
import ScriptEngine.Proofs.Constructors
import ScriptEngine.Proofs.Finalizers
import ScriptEngine.Proofs.BoundFunctions
import ScriptEngine.Proofs.GlobalEntry
import ScriptEngine.Proofs.Iterations
import ScriptEngine.Proofs.Sequences
import ScriptEngine.Proofs.Properties
import ScriptEngine.Proofs.Generator.Refusals
import ScriptEngine.Proofs.Throws
import ScriptEngine.Proofs.Boxing
import ScriptEngine.Proofs.ArgumentLists
import ScriptEngine.Proofs.PropertyOrder
import ScriptEngine.Proofs.JsonData

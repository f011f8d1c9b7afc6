import ScriptEngine.Number.Text
import ScriptEngine.Code.Word
import ScriptEngine.Compile.Script
import ScriptEngine.Stored.Write
import ScriptEngine.Stored.Read
import ScriptEngine.Value.Text
import ScriptEngine.Value.Contract
import ScriptEngine.Engine.Basic
import ScriptEngine.Main
import ScriptEngine.Proofs.Meanings
import ScriptEngine.Proofs.Loading
import ScriptEngine.Proofs.Resting
import ScriptEngine.Proofs.Restricting
import ScriptEngine.Proofs.Operands
import ScriptEngine.Proofs.Expressing
import ScriptEngine.Proofs.Quoting
import ScriptEngine.Proofs.Respacing
import ScriptEngine.Proofs.Accepting
import ScriptEngine.Proofs.Confining
import ScriptEngine.Proofs.Truncating
import ScriptEngine.Proofs.Meeting
import ScriptEngine.Proofs.Building
import ScriptEngine.Proofs.Knowing
import ScriptEngine.Proofs.Signing
import ScriptEngine.Proofs.Dispatching
import ScriptEngine.Proofs.Iterating
import ScriptEngine.Proofs.Compounding
import ScriptEngine.Proofs.Numbering
import ScriptEngine.Proofs.Converting
import ScriptEngine.Proofs.Mapping
import ScriptEngine.Proofs.Combining
import ScriptEngine.Proofs.Reporting
import ScriptEngine.Proofs.Recording
import ScriptEngine.Proofs.Delivering
import ScriptEngine.Proofs.Outlasting

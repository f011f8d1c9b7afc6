import ScriptEngine.Assembler.Execute
import ScriptEngine.Digest.Sha256
import ScriptEngine.Grammar.Program
import ScriptEngine.Text.Hex

/-!
# Scripts from sources

A source is cut into tokens, these give a program of directives, and assembling
it gives the script. The hash of a script is taken over its source, or over the
lexemes when it is made from tokens alone.
-/
namespace ScriptEngine

def Program.script (p : Program) (scriptName hash : String) : Except CompileError Script := do
  let a ← Assembler.assemble scriptName p.steps.toList
  match p.fault with
  | some e => throw ⟨e.fault, e.mark, a.body.chunk.chain⟩
  | none =>
    return { hash, chunks := a.chunks, top := .listed (a.chunks.size - 1),
             diagnostics := a.diagnostics }

namespace Script

def hashOf (bytes : List UInt8) : String := Text.Hex.encode (Sha256.digest bytes)

def ofTokens (tokens : List Token) (scriptName : String) : Except CompileError Script :=
  let bytes := tokens.flatMap fun t => t.lexeme.toUTF8.toList ++ [0]
  (Program.ofTokens tokens).script scriptName (hashOf bytes)

def ofSource (source scriptName : String) : Except CompileError Script := do
  match tokenize source with
  | .ok tokens => (Program.ofTokens tokens).script scriptName (hashOf source.toUTF8.toList)
  | .error e => throw ⟨.lexical e.fault, ⟨"", e.line, e.column⟩, scriptName⟩

end Script

end ScriptEngine

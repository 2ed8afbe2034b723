import Descent.Json.Value.OfTree

/-!
# Parsing JSON

From a source to a tree with diagnostics, and from there to a value. A failed parse is an answer
like any other: its tree is `failed` and the diagnostics say why. Only a source that cannot be
scanned has no tree.
-/

namespace Descent.Json

/-- Why a source has no tree. -/
inductive ParseError where
  | unscannable (file : String) (error : ScanError)
  /-- The parser did not finish within its bound. -/
  | unfinished (file : String)
deriving DecidableEq, Repr

def ParseError.message : ParseError → String
  | .unscannable file error => "failed to tokenize " ++ file ++ ": " ++ error.message
  | .unfinished file => "the parse of " ++ file ++ " did not finish"

/-- The outcome of parsing one source. -/
structure Parsed where
  tree : Tree
  diagnostics : List Diagnostic

namespace Parsed

/-- Whether there is a tree and nothing to report. -/
def isClean (parsed : Parsed) : Bool := !parsed.tree.isFailed && parsed.diagnostics.isEmpty

def value (parsed : Parsed) : Except BuildError Value := Value.ofTree parsed.tree

end Parsed

/-- The tokens of a source, or why there are none. -/
def tokensOf (source file : String) : Except ParseError TokenStream :=
  (tokenize source file).mapError (.unscannable file)

/-- Parses one value from the start of a source. Tokens behind it are not looked at. -/
def parse (source file : String) : Except ParseError Parsed := do
  let stream ← tokensOf source file
  match grammar.parse Rule.value.id stream with
  | some result => return ⟨result.tree, result.state.log.toList⟩
  | none => throw (.unfinished file)

end Descent.Json

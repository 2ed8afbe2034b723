import Descent.Token

/-!
# Diagnostics

A diagnostic joins a problem with the token at which it was noticed. Problems are causes; their
wording lives in `Problem.message` alone.
-/

namespace Descent

/-- What went wrong at a token. Tokens that were found instead are kept as they are shown to the
reader. -/
inductive Problem where
  /-- One kind of token was wanted. -/
  | expected (kind : TokenKind) (found : String)
  /-- Every alternative of a choice failed without consuming anything. -/
  | noAlternative (expected : List String) (found : String)
  /-- A rule was run before it had a body. -/
  | unboundRule (name : String)
  /-- The children of a production cannot be put into one level. -/
  | malformedTree (production reason : String)
  /-- A problem in the words of the grammar's author. -/
  | custom (text : String)
deriving DecidableEq, Repr

namespace Problem

/-- The problem of finding `token` where `kind` was wanted. -/
def mismatch (kind : TokenKind) (token : Token) : Problem := .expected kind token.render

def message : Problem → String
  | .expected kind found => "expected '" ++ kind.render ++ "' got " ++ found
  | .noAlternative wanted found =>
    "no alternative matched " ++ found ++ ", expected one of: " ++ String.intercalate ", " wanted
  | .unboundRule name => "rule '" ++ name ++ "' was used before being bound"
  | .malformedTree production reason =>
    "malformed children in production '" ++ production ++ "': " ++ reason
  | .custom text => text

/-- The kinds that would have been accepted, as far as the problem tells. -/
def expectations : Problem → List String
  | .expected kind _ => [kind.render]
  | .noAlternative wanted _ => wanted
  | _ => []

end Problem

/-- A problem and the token at which it was noticed. -/
structure Diagnostic where
  token : Token
  problem : Problem
deriving DecidableEq, Repr

namespace Diagnostic

def message (diagnostic : Diagnostic) : String := diagnostic.problem.message

/-- The line shown to a user: `file:line:column: message`. -/
def render (diagnostic : Diagnostic) : String :=
  diagnostic.token.file ++ ":" ++ Nat.repr diagnostic.token.line ++ ":"
    ++ Nat.repr diagnostic.token.column ++ ": " ++ diagnostic.message

end Diagnostic

end Descent

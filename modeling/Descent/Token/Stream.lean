import Descent.Token

/-!
# Token streams

A stream holds all tokens of an input and answers for every position, also for those past the
last token. There it serves a token of the end, located right after the last token unless the
maker of the stream knows better.
-/

namespace Descent

/-- The tokens of one input, each numbered by its place. -/
structure TokenStream where
  tokens : Array Token
  /-- Served past the last token, if given. -/
  endToken : Option Token
  index_eq : ∀ (i : Nat) (h : i < tokens.size), tokens[i].index = i

namespace TokenStream

/-- The same tokens with their places as indices. -/
def number (tokens : List Token) : List Token :=
  tokens.mapIdx fun i token => { token with index := i }

/-- A stream of the given tokens, with a token of the end if one is given. -/
def ofList (tokens : List Token) (endToken : Option Token) : TokenStream where
  tokens := (number tokens).toArray
  endToken := endToken
  index_eq := by simp [number]

def toList (stream : TokenStream) : List Token := stream.tokens.toList

def size (stream : TokenStream) : Nat := stream.tokens.size

def isEmpty (stream : TokenStream) : Bool := stream.tokens.isEmpty

/-- The token of the end when none was given: just past the last token, or nowhere in an empty
stream. -/
def endAfterLast (stream : TokenStream) : Token :=
  match stream.tokens.back? with
  | none => .endOfInput
  | some last =>
    { Token.endOfInput with
      offset := last.endOffset
      line := last.line
      column := last.column + last.text.length
      file := last.file }

/-- The token of the end, numbered by the position it is asked for. -/
def endAt (stream : TokenStream) (position : Nat) : Token :=
  { stream.endToken.getD stream.endAfterLast with index := position }

/-- The token at any position. -/
def tokenAt (stream : TokenStream) (position : Nat) : Token :=
  if h : position < stream.tokens.size then stream.tokens[position] else stream.endAt position

@[simp] theorem number_length (tokens : List Token) : (number tokens).length = tokens.length := by
  simp [number]

@[simp] theorem toList_ofList (tokens : List Token) (endToken : Option Token) :
    (ofList tokens endToken).toList = number tokens := by
  simp [toList, ofList]

@[simp] theorem size_ofList (tokens : List Token) (endToken : Option Token) :
    (ofList tokens endToken).size = tokens.length := by
  simp [size, ofList]

theorem tokenAt_of_lt {stream : TokenStream} {position : Nat} (h : position < stream.size) :
    stream.tokenAt position = stream.tokens[position] :=
  dif_pos h

theorem tokenAt_of_size_le {stream : TokenStream} {position : Nat} (h : stream.size ≤ position) :
    stream.tokenAt position = stream.endAt position :=
  dif_neg (Nat.not_lt.mpr h)

/-- Every token that a stream serves carries the position it was asked for. -/
@[simp] theorem tokenAt_index (stream : TokenStream) (position : Nat) :
    (stream.tokenAt position).index = position := by
  unfold tokenAt
  split
  · exact stream.index_eq position ‹_›
  · rfl

end TokenStream

end Descent

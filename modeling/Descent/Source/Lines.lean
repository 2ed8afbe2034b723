/-!
# Lines of a source

Scanners count lines and the bytes since the start of a line; readers of a diagnostic want byte
offsets and columns in characters, both lines and columns from one. `Lines.locate` goes from the
first to the second.
-/

namespace Descent

/-- A place in a source text. Lines and columns count from one, offsets count bytes from zero. -/
structure Location where
  offset : Nat
  line : Nat
  column : Nat
deriving DecidableEq, Repr

/-- Where a line starts, and the source from there to its end. -/
structure Line where
  start : Nat
  text : List Char
deriving DecidableEq, Repr

/-- The lines of a source of `size` bytes. -/
structure Lines where
  all : Array Line
  size : Nat

namespace Lines

/-- The number of bytes that characters take. -/
def byteSize (text : List Char) : Nat := text.foldr (fun c size => c.utf8Size + size) 0

/-- The lines that start inside `text`, which itself starts at `offset`. -/
def startingIn (offset : Nat) : List Char → List Line
  | [] => []
  | c :: rest =>
    let next := offset + c.utf8Size
    if c = '\n' then ⟨next, rest⟩ :: startingIn next rest else startingIn next rest

/-- The first line and every line behind a newline. -/
def ofSource (text : List Char) : Lines :=
  ⟨(⟨0, text⟩ :: startingIn 0 text).toArray, byteSize text⟩

/-- How many characters make up the first `bytes` bytes, on top of `count`. There is no answer
inside a character or past the end. -/
def charsIn? (count : Nat) : List Char → (bytes : Nat) → Option Nat
  | _, 0 => some count
  | [], _ + 1 => none
  | c :: rest, bytes =>
    if bytes < c.utf8Size then none else charsIn? (count + 1) rest (bytes - c.utf8Size)

/-- The place of a byte of a line, both counted from zero. A column that cannot be told is the
first. -/
def locate (lines : Lines) (line byteColumn : Nat) : Location :=
  let found := lines.all.getD line ⟨lines.size, []⟩
  let offset := min (found.start + byteColumn) lines.size
  ⟨offset, line + 1, (charsIn? 0 found.text (offset - found.start)).getD 0 + 1⟩

/-- The end of the source. -/
def stop (lines : Lines) : Location :=
  lines.locate (lines.all.size - 1) lines.size

end Lines

end Descent

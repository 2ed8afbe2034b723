import Descent.Json.Document

/-!
# Reading documents

The reader accepts JSON and nothing else: blanks are the four of the format, numbers have no
leading zeros, lists have no comma at their end, and nothing but blanks follows the document.

A read part comes with the text behind it. The functions call each other at most twice per
character, which bounds their depth.
-/

namespace Descent.Json.Document

/-- Space, tab, newline and carriage return. -/
def isBlank (c : Char) : Bool := c = ' ' || c = '\t' || c = '\n' || c = '\r'

def skipBlanks (text : List Char) : List Char := text.dropWhile isBlank

/-- At least one digit. -/
def readDigits (text : List Char) : Option (List Char × List Char) :=
  let digits := text.takeWhile Char.isDigit
  if digits.isEmpty then none else some (digits, text.dropWhile Char.isDigit)

/-- Digits without a leading zero, or zero. -/
def readNatural : List Char → Option (List Char × List Char)
  | '0' :: rest => some (['0'], rest)
  | text => readDigits text

/-- A point and digits, or nothing. -/
def readFraction : List Char → Option (List Char × List Char)
  | '.' :: rest => do
    let (digits, rest) ← readDigits rest
    return ('.' :: digits, rest)
  | text => some ([], text)

/-- A power of ten, or nothing. -/
def readExponent : List Char → Option (List Char × List Char)
  | mark :: rest =>
    if mark = 'e' || mark = 'E' then
      match rest with
      | [] => none
      | sign :: behind =>
        if sign = '+' || sign = '-' then do
          let (digits, rest) ← readDigits behind
          return (mark :: sign :: digits, rest)
        else do
          let (digits, rest) ← readDigits rest
          return (mark :: digits, rest)
    else some ([], mark :: rest)
  | [] => some ([], [])

/-- A number with its spelling. -/
def readNumber (text : List Char) : Option (Document × List Char) := do
  let (sign, text) := match text with
    | '-' :: rest => (['-'], rest)
    | _ => ([], text)
  let (whole, text) ← readNatural text
  let (fraction, text) ← readFraction text
  let (exponent, text) ← readExponent text
  return (.number (String.ofList (sign ++ whole ++ fraction ++ exponent)), text)

mutual

/-- One document, after blanks. -/
def readValue : (depth : Nat) → List Char → Option (Document × List Char)
  | 0, _ => none
  | depth + 1, text =>
    match skipBlanks text with
    | 'n' :: 'u' :: 'l' :: 'l' :: rest => some (.null, rest)
    | 't' :: 'r' :: 'u' :: 'e' :: rest => some (.boolean true, rest)
    | 'f' :: 'a' :: 'l' :: 's' :: 'e' :: rest => some (.boolean false, rest)
    | '"' :: rest => do
      let (raw, rest) ← Quoted.cut? rest
      return (.string (String.ofList raw), rest)
    | '[' :: rest =>
      match skipBlanks rest with
      | ']' :: rest => some (.array [], rest)
      | rest => do
        let (elements, rest) ← readElements depth rest
        return (.array elements, rest)
    | '{' :: rest =>
      match skipBlanks rest with
      | '}' :: rest => some (.object [], rest)
      | rest => do
        let (members, rest) ← readMembers depth rest
        return (.object members, rest)
    | rest => readNumber rest

/-- Elements up to the closing bracket, the next one first. -/
def readElements : (depth : Nat) → List Char → Option (List Document × List Char)
  | 0, _ => none
  | depth + 1, text => do
    let (element, rest) ← readValue depth text
    match skipBlanks rest with
    | ',' :: rest =>
      let (elements, rest) ← readElements depth rest
      return (element :: elements, rest)
    | ']' :: rest => return ([element], rest)
    | _ => none

/-- Members up to the closing brace, the next one first. -/
def readMembers : (depth : Nat) → List Char → Option (List (String × Document) × List Char)
  | 0, _ => none
  | depth + 1, text => do
    match skipBlanks text with
    | '"' :: rest =>
      let (key, rest) ← Quoted.cut? rest
      match skipBlanks rest with
      | ':' :: rest =>
        let (value, rest) ← readValue depth rest
        let member := (String.ofList key, value)
        match skipBlanks rest with
        | ',' :: rest =>
          let (members, rest) ← readMembers depth rest
          return (member :: members, rest)
        | '}' :: rest => return ([member], rest)
        | _ => none
      | _ => none
    | _ => none

end

/-- Reads a text that is one document. -/
def parse? (text : String) : Option Document := do
  let chars := text.toList
  let (document, rest) ← readValue (2 * chars.length + 2) chars
  guard (skipBlanks rest).isEmpty
  return document

end Descent.Json.Document

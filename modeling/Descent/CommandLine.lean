import Descent.Json.Parse
import Descent.Registry.Text

/-!
# Command line

The program parses the JSON document in a file and prints its value. Diagnostics go to the error
stream, and any error makes the exit code one; wrong usage makes it two.

Arguments are read from left to right, and the first that decides the outcome ends the reading.
`plan` says what the arguments ask for, `respond` what is answered once the file has been read.
-/

namespace Descent.CommandLine

/-- What a run of the program leaves behind. -/
structure Outcome where
  code : Nat
  output : String
  errors : String
deriving DecidableEq, Repr

/-- Why a file has no text. -/
inductive ReadError where
  | notFound
  | isDirectory
  | notText
  /-- Anything else, in the words of the system. -/
  | other (text : String)
deriving DecidableEq, Repr

def ReadError.message : ReadError → String
  | .notFound => "No such file or directory (os error 2)"
  | .isDirectory => "Is a directory (os error 21)"
  | .notText => "stream did not contain valid UTF-8"
  | .other text => text

/-! ## Arguments -/

inductive Flag where
  | registry
  | tree
  | verbose
  | quiet
  | help
  | version
deriving DecidableEq, Repr

/-- The flag of a long name. No flag takes a value. -/
def Flag.ofName? : String → Option Flag
  | "registry" => some registry
  | "tree" => some tree
  | "verbose" => some verbose
  | "quiet" => some quiet
  | "help" => some help
  | "version" => some version
  | _ => none

/-- The flag of a letter. -/
def Flag.ofLetter? : Char → Option Flag
  | 'v' => some verbose
  | 'q' => some quiet
  | 'h' => some help
  | 'V' => some version
  | _ => none

structure Options where
  path : Option String := none
  /-- Print the registry of the grammar and nothing else. -/
  registry : Bool := false
  /-- Print the parse tree too. -/
  tree : Bool := false
  /-- How much to log. The answers do not depend on it. -/
  verbosity : Nat := 0
  /-- Log errors only. -/
  quiet : Bool := false
deriving DecidableEq, Repr

/-- Why arguments cannot be used. -/
inductive UsageError where
  | unexpected (argument : String)
  | repeated (flag : String)
  | emptyPath
deriving DecidableEq, Repr

def UsageError.message : UsageError → String
  | .unexpected argument => "unexpected argument '" ++ argument ++ "' found"
  | .repeated flag => "the argument '" ++ flag ++ "' cannot be used multiple times"
  | .emptyPath => "a value is required for '[PATH]' but none was supplied"

/-- What ends the reading of arguments early. -/
inductive Halt where
  | help
  | version
  | misused (error : UsageError)
deriving DecidableEq, Repr

namespace Options

/-- Sets a flag that may be given once. -/
def setOnce (name : String) (given : Bool) (options : Options) : Except Halt Options :=
  if given then .error (.misused (.repeated name)) else .ok options

def setFlag (options : Options) : Flag → Except Halt Options
  | .registry => setOnce "--registry" options.registry { options with registry := true }
  | .tree => setOnce "--tree" options.tree { options with tree := true }
  | .verbose => .ok { options with verbosity := options.verbosity + 1 }
  | .quiet => setOnce "--quiet" options.quiet { options with quiet := true }
  | .help => .error .help
  | .version => .error .version

/-- Takes the path, of which there is one. -/
def setPath (options : Options) (path : String) : Except Halt Options :=
  if path = "" then .error (.misused .emptyPath)
  else if options.path.isSome then .error (.misused (.unexpected path))
  else .ok { options with path := some path }

/-- Flags written as letters behind one dash. -/
def setLetters (options : Options) : List Char → Except Halt Options
  | [] => .ok options
  | letter :: rest =>
    match Flag.ofLetter? letter with
    | none => .error (.misused (.unexpected ("-" ++ letter.toString)))
    | some flag => do setLetters (← options.setFlag flag) rest

/-- Reads arguments. Two dashes alone end the flags; one dash alone is a path. -/
def read (options : Options) : List String → Except Halt Options
  | [] => .ok options
  | argument :: rest =>
    match argument.toList with
    | ['-', '-'] => rest.foldlM setPath options
    | '-' :: '-' :: name =>
      match Flag.ofName? (String.ofList name) with
      | none => .error (.misused (.unexpected argument))
      | some flag => do read (← options.setFlag flag) rest
    | '-' :: letter :: letters => do read (← options.setLetters (letter :: letters)) rest
    | _ => do read (← options.setPath argument) rest

end Options

/-! ## Answers -/

namespace Outcome

/-- Success with something printed. -/
def success (output : String) : Outcome := ⟨0, output, ""⟩

/-- Adds to what was printed. -/
def print (outcome : Outcome) (text : String) : Outcome :=
  { outcome with output := outcome.output ++ text ++ "\n" }

/-- Adds a line to the error stream. -/
def complain (outcome : Outcome) (text : String) : Outcome :=
  { outcome with errors := outcome.errors ++ text ++ "\n" }

/-- Ends with an error. -/
def fail (outcome : Outcome) (text : String) : Outcome :=
  { outcome.complain ("Error: " ++ text) with code := 1 }

end Outcome

def usageText : String := "Usage: parsnip [OPTIONS] [PATH]\n"

def helpText : String :=
  "Parse a JSON document with the parsnip reference grammar\n\n" ++ usageText ++ "\n"
    ++ "Arguments:\n"
    ++ "  [PATH]  File to parse\n\n"
    ++ "Options:\n"
    ++ "      --registry    Print the grammar's production registry as JSON and exit\n"
    ++ "      --tree        Print the raw parse tree\n"
    ++ "  -v, --verbose...  Increase log verbosity (-v debug, -vv trace)\n"
    ++ "  -q, --quiet       Only log errors\n"
    ++ "  -h, --help        Print help\n"
    ++ "  -V, --version     Print version\n"

/-- The answer to arguments whose reading ended early. -/
def Halt.outcome : Halt → Outcome
  | .help => .success helpText
  | .version => .success "parsnip 0.1.0\n"
  | .misused error => ⟨2, "", "error: " ++ error.message ++ "\n\n" ++ usageText⟩

/-- What the arguments ask for: an answer at once, or the file to read for it. -/
inductive Plan where
  | answer (outcome : Outcome)
  | parse (options : Options) (path : String)

def plan (arguments : List String) : Plan :=
  match Options.read {} arguments with
  | .error halt => .answer halt.outcome
  | .ok options =>
    if options.registry then .answer ((Outcome.success "").print Json.grammar.registry.render)
    else
      match options.path with
      | none => .answer ((Outcome.success "").fail "no input file given")
      | some path => .parse options path

/-- The answer for a document that has been parsed. -/
def report (options : Options) (path : String) (parsed : Json.Parsed) : Outcome :=
  let noted := (parsed.diagnostics.map Diagnostic.render).foldl Outcome.complain (.success "")
  let shown := if options.tree then noted.print parsed.tree.render else noted
  if parsed.tree.isFailed then shown.fail (path ++ " could not be parsed")
  else
    match parsed.value with
    | .error error => shown.fail error.message
    | .ok value =>
      let printed := shown.print (value.render .pretty)
      if parsed.diagnostics.isEmpty then printed
      else printed.fail
        (path ++ " parsed with " ++ Nat.repr parsed.diagnostics.length ++ " error(s)")

/-- The answer once the file has been read. -/
def respond (options : Options) (path : String) : Except ReadError String → Outcome
  | .error error =>
    (Outcome.success "").fail
      ("failed to read " ++ path ++ "\n\nCaused by:\n    " ++ error.message)
  | .ok source =>
    match Json.parse source path with
    | .error error => (Outcome.success "").fail error.message
    | .ok parsed => report options path parsed

/-- The text of a file with the given bytes. -/
def decode (bytes : ByteArray) : Except ReadError String :=
  match String.fromUTF8? bytes with
  | some text => .ok text
  | none => .error .notText

/-- The answer to the arguments, where `file` gives the bytes behind a path. -/
def run (arguments : List String) (file : String → Except ReadError ByteArray) : Outcome :=
  match plan arguments with
  | .answer outcome => outcome
  | .parse options path => respond options path (file path >>= decode)

end Descent.CommandLine

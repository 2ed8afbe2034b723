import Descent.Proofs.CommandLine.Arguments
import Descent.Proofs.Json.Meaning
import Descent.Proofs.Tree.Tokens

/-!
# Answers to arguments

The exit code of the program tells whether it prints a value. A parse that gives a tree has nothing to
report, and building the value of that tree fails only on an integer that has no place in 64 bits. So
a value is printed only in a success, and the code is one whenever the content of the file is no text,
has no tokens or no tree, or has such an integer in its tree.
-/

namespace Descent

namespace Json

variable {source file : String} {parsed : Parsed} {token : Token}

/-! ## Documents without errors -/

/-- The tree of a word has the integers of the word. It lacks the tokens between elements only, and
those that close brackets. -/
theorem Derives.mem_tokens {phrase : Phrase} {word : List Token} {trees : List Tree}
    (h : Derives phrase word trees) (integer : token.kind = integerKind) :
    token ∈ Tree.tokensEach trees ↔ token ∈ word := by
  have other : ∀ {mark : Token} {c}, mark.kind = .ofChar c → token ≠ mark := by
    rintro mark c found rfl
    exact ofChar_ne_integerKind c (found.symm.trans integer)
  induction h with
  | atom shape found => simp [Tree.tokensEach, Tree.tokens]
  | brackets shape opens content closes ih =>
    simpa [Tree.tokensEach, Tree.tokens, other opens, other closes] using ih
  | field name between content key value =>
    simp only [Tree.tokensEach, List.append_nil] at key value
    simp [Tree.tokensEach, Tree.tokens, key, value]
  | value mem content ih => simpa [Tree.tokensEach, Tree.tokens] using ih
  | none | last => simp [Tree.tokensEach]
  | some first rest ih ih' =>
    simp only [Tree.tokensEach, List.append_nil] at ih ⊢
    simp [ih, ih']
  | trailing between => simp [Tree.tokensEach, other between]
  | next between first rest ih ih' =>
    simp only [Tree.tokensEach, List.append_nil] at ih ⊢
    simp [ih, ih', other between]

/-- The integers of a word are in range if those of its tree are. -/
theorem Derives.inRange_iff {phrase : Phrase} {word : List Token} {trees : List Tree}
    (h : Derives phrase word trees) :
    (∀ token ∈ Tree.tokensEach trees, ¬ OutOfRange token) ↔ ∀ token ∈ word, ¬ OutOfRange token := by
  constructor
  · intro within token mem outside
    exact within token ((h.mem_tokens outside.1).mpr mem) outside
  · intro within token mem outside
    exact within token ((h.mem_tokens outside.1).mp mem) outside

/-- A parse that gives a tree has nothing to report, and the tree has a value if and only if none of
its integers is out of range. -/
theorem value_of_success (parses : parse source file = .ok parsed)
    (success : parsed.tree ≠ .failed) :
    parsed.diagnostics = [] ∧
      ((∃ value, parsed.value = .ok value) ↔ ∀ token ∈ parsed.tree.tokens, ¬ OutOfRange token) := by
  obtain ⟨stream, result, tokens, answer, rfl⟩ := parse_eq_ok.mp parses
  obtain ⟨scans, ended⟩ := scans_of_tokenize (tokensOf_eq_ok.mp tokens)
  obtain ⟨word, begins, derived⟩ := word_of_parse ended answer success
  have silent : result.state.log = .empty := by
    have same := Option.some.inj (answer.symm.trans (parse_word ended derived begins))
    rw [congrArg Result.state same]
    rfl
  have lexical : ∀ token ∈ word, IsLexical token.spelling := by
    intro token mem
    exact scans.isLexical _ (List.mem_map_of_mem (begins.subset mem))
  have outcome : Outcome word (Means result.tree) (Value.ofTree result.tree) :=
    derived.buildsWell lexical _ List.mem_cons_self
  have range := derived.inRange_iff
  rw [Tree.tokensEach, Tree.tokensEach, List.append_nil] at range
  refine ⟨by rw [silent]; rfl, ?_⟩
  rw [range, Parsed.value]
  obtain ⟨value, built, -, within⟩ | ⟨token, mem, outside, -, built⟩ := outcome.cases
  · exact ⟨fun _ => within, fun _ => ⟨value, built⟩⟩
  · refine ⟨fun ⟨value, built'⟩ => ?_, fun within => absurd outside (within token mem)⟩
    cases built.symm.trans built'

/-- A source that has tokens is parsed. -/
theorem exists_parse {stream : TokenStream} (tokens : tokenize source file = .ok stream) :
    ∃ parsed, parse source file = .ok parsed := by
  obtain ⟨-, ended⟩ := scans_of_tokenize tokens
  obtain ⟨result, answer, -⟩ := exists_parseFrom ended .value (.start stream.tokenAt) rfl
  exact ⟨_, parse_eq_ok.mpr ⟨stream, result, tokensOf_eq_ok.mpr tokens, answer, rfl⟩⟩

end Json

namespace CommandLine

open Json (Parsed tokenize OutOfRange)

variable {options : Options} {path : String} {parsed : Parsed} {bytes : ByteArray}

/-! ## Reports -/

namespace Outcome

@[simp] theorem success_code (output : String) : (success output).code = 0 := rfl

@[simp] theorem success_output (output : String) : (success output).output = output := rfl

@[simp] theorem print_code (outcome : Outcome) (text : String) :
    (outcome.print text).code = outcome.code := rfl

@[simp] theorem print_output (outcome : Outcome) (text : String) :
    (outcome.print text).output = outcome.output ++ text ++ "\n" := rfl

@[simp] theorem complain_output (outcome : Outcome) (text : String) :
    (outcome.complain text).output = outcome.output := rfl

@[simp] theorem fail_code (outcome : Outcome) (text : String) : (outcome.fail text).code = 1 := rfl

@[simp] theorem fail_output (outcome : Outcome) (text : String) :
    (outcome.fail text).output = outcome.output := rfl

/-- Complaints go to the error stream only. -/
@[simp] theorem foldl_complain_output (lines : List String) (outcome : Outcome) :
    (lines.foldl complain outcome).output = outcome.output := by
  induction lines generalizing outcome with
  | nil => rfl
  | cons line lines ih => rw [List.foldl_cons, ih, complain_output]

end Outcome

/-- What is printed of a tree. -/
def shown (tree : Bool) (parsed : Parsed) : String :=
  if tree then parsed.tree.render ++ "\n" else ""

theorem report_failed (options : Options) (path : String) (failed : parsed.tree = .failed) :
    (report options path parsed).code = 1 ∧
      (report options path parsed).output = shown options.tree parsed := by
  cases tree : options.tree <;> simp [report, shown, failed, tree, Tree.isFailed]

theorem report_unbuilt {error : Json.BuildError} (options : Options) (path : String)
    (success : parsed.tree ≠ .failed) (unbuilt : parsed.value = .error error) :
    (report options path parsed).code = 1 ∧
      (report options path parsed).output = shown options.tree parsed := by
  cases tree : options.tree <;> simp [report, shown, success, tree, unbuilt]

theorem report_value {value : Json.Value} (options : Options) (path : String)
    (success : parsed.tree ≠ .failed) (built : parsed.value = .ok value)
    (silent : parsed.diagnostics = []) :
    (report options path parsed).code = 0 ∧
      (report options path parsed).output =
        shown options.tree parsed ++ value.render .pretty ++ "\n" := by
  cases tree : options.tree <;> simp [report, shown, success, tree, built, silent]

/-! ## Files -/

/-- A file has a text if its bytes encode one. -/
theorem decode_eq_ok {source : String} :
    decode bytes = .ok source ↔ source.toByteArray = bytes := by
  constructor
  · intro decoded
    by_cases valid : bytes.IsValidUTF8
    · rw [decode, String.fromUTF8?, dif_pos valid] at decoded
      rw [← Except.ok.inj decoded]
      rfl
    · rw [decode, String.fromUTF8?, dif_neg valid] at decoded
      cases decoded
  · rintro rfl
    rw [decode, String.fromUTF8?, dif_pos source.isValidUTF8]
    rfl

/-- The bytes encode a document in which every integer of the tree has a place in 64 bits. -/
structure Document (path : String) (bytes : ByteArray) (source : String) (parsed : Parsed) :
    Prop where
  encoded : source.toByteArray = bytes
  tokens : ∃ stream, tokenize source path = .ok stream
  parses : Json.parse source path = .ok parsed
  success : parsed.tree ≠ .failed
  inRange : ∀ token ∈ parsed.tree.tokens, ¬ OutOfRange token

/-- The outcome for the content of a file, with or without its tree. -/
structure Exits (tree : Bool) (path : String) (bytes : ByteArray) (outcome : Outcome) : Prop where
  succeeds : outcome.code = 0 ↔ ∃ source parsed, Document path bytes source parsed
  fails : outcome.code ≠ 0 → outcome.code = 1
  /-- In a success the value is printed. -/
  prints : ∀ source parsed, Document path bytes source parsed →
    ∃ value, parsed.value = .ok value ∧
      outcome.output = shown tree parsed ++ value.render .pretty ++ "\n"
  /-- Else nothing but the tree is printed, if there are tokens. -/
  withholds : outcome.code ≠ 0 → ∀ source stream, source.toByteArray = bytes →
    tokenize source path = .ok stream →
      ∃ parsed, Json.parse source path = .ok parsed ∧ outcome.output = shown tree parsed
  /-- Without tokens nothing is printed. -/
  silent : (¬ ∃ source stream, source.toByteArray = bytes ∧ tokenize source path = .ok stream) →
    outcome.output = ""

section Exits

variable {source : String} {tree : Bool} {outcome : Outcome}

theorem Document.exists_tokens (document : Document path bytes source parsed) :
    ∃ source stream, source.toByteArray = bytes ∧ tokenize source path = .ok stream := by
  obtain ⟨stream, tokens⟩ := document.tokens
  exact ⟨source, stream, document.encoded, tokens⟩

/-- A run fails and prints nothing if the file has no tokens. -/
theorem exits_of_no_tokens
    (none : ¬ ∃ source stream, source.toByteArray = bytes ∧ tokenize source path = .ok stream)
    (code : outcome.code = 1) (output : outcome.output = "") : Exits tree path bytes outcome where
  succeeds := by
    constructor
    · intro succeeded
      omega
    · rintro ⟨source, parsed, document⟩
      exact absurd document.exists_tokens none
  fails := fun _ => code
  prints := fun _ _ document => absurd document.exists_tokens none
  withholds := fun _ source stream encoded tokens =>
    absurd ⟨source, stream, encoded, tokens⟩ none
  silent := fun _ => output

/-- There is one text for the bytes of a file. -/
theorem source_unique {source' : String} (encoded : source.toByteArray = bytes)
    (encoded' : source'.toByteArray = bytes) : source' = source :=
  String.toByteArray_inj.mp (encoded'.trans encoded.symm)

theorem Document.unique {source' : String} {parsed' : Parsed}
    (encoded : source.toByteArray = bytes) (parses : Json.parse source path = .ok parsed)
    (document : Document path bytes source' parsed') : parsed' = parsed := by
  obtain rfl := source_unique encoded document.encoded
  exact Except.ok.inj (document.parses.symm.trans parses)

/-- A run fails and prints at most the tree if the file is parsed, but is no document. -/
theorem exits_of_no_document (encoded : source.toByteArray = bytes)
    (parses : Json.parse source path = .ok parsed)
    (none : ¬ ∃ source parsed, Document path bytes source parsed)
    (code : outcome.code = 1) (output : outcome.output = shown tree parsed) :
    Exits tree path bytes outcome where
  succeeds := by
    constructor
    · intro succeeded
      omega
    · intro document
      exact absurd document none
  fails := fun _ => code
  prints := fun source parsed document => absurd ⟨source, parsed, document⟩ none
  withholds := by
    intro _ source' stream encoded' _
    obtain rfl := source_unique encoded encoded'
    exact ⟨parsed, parses, output⟩
  silent := by
    intro noTokens
    obtain ⟨stream, -, tokens, -⟩ := Json.parse_eq_ok.mp parses
    exact absurd ⟨source, stream, encoded, Json.tokensOf_eq_ok.mp tokens⟩ noTokens

/-- The report on a parse is the outcome for the bytes of its source. -/
theorem report_exits (encoded : source.toByteArray = bytes)
    (parses : Json.parse source path = .ok parsed) :
    Exits options.tree path bytes (report options path parsed) := by
  have unique : ∀ {source' parsed'}, Document path bytes source' parsed' → parsed' = parsed :=
    fun document => document.unique encoded parses
  by_cases failed : parsed.tree = .failed
  · obtain ⟨code, output⟩ := report_failed options path failed
    refine exits_of_no_document encoded parses ?_ code output
    rintro ⟨source', parsed', document⟩
    exact document.success (unique document ▸ failed)
  · obtain ⟨clean, built⟩ := Json.value_of_success parses failed
    cases value : parsed.value with
    | error error =>
      obtain ⟨code, output⟩ := report_unbuilt options path failed value
      refine exits_of_no_document encoded parses ?_ code output
      rintro ⟨source', parsed', document⟩
      have within := document.inRange
      rw [unique document] at within
      obtain ⟨value', same⟩ := built.mpr within
      cases value.symm.trans same
    | ok value' =>
      obtain ⟨code, output⟩ := report_value options path failed value clean
      obtain ⟨stream, -, tokens, -⟩ := Json.parse_eq_ok.mp parses
      have tokens' := Json.tokensOf_eq_ok.mp tokens
      refine ⟨⟨fun _ => ?_, fun _ => code⟩, fun other => absurd code other, ?_, ?_, ?_⟩
      · exact ⟨source, parsed, encoded, ⟨stream, tokens'⟩, parses, failed, built.mp ⟨value', value⟩⟩
      · intro source' parsed' document
        rw [unique document]
        exact ⟨value', value, output⟩
      · exact fun other => absurd code other
      · exact fun noTokens => absurd ⟨source, stream, encoded, tokens'⟩ noTokens

/-- What is answered once the file has been read. -/
theorem respond_exits : Exits options.tree path bytes (respond options path (decode bytes)) := by
  cases decoded : decode bytes with
  | error error =>
    refine exits_of_no_tokens ?_ rfl rfl
    rintro ⟨source, stream, encoded, -⟩
    cases decoded.symm.trans (decode_eq_ok.mpr encoded)
  | ok source =>
    have encoded := decode_eq_ok.mp decoded
    cases parses : Json.parse source path with
    | error error =>
      rw [respond, parses]
      refine exits_of_no_tokens ?_ rfl rfl
      rintro ⟨source', stream, encoded', tokens⟩
      obtain rfl := source_unique encoded encoded'
      obtain ⟨parsed, parses'⟩ := Json.exists_parse tokens
      cases parses.symm.trans parses'
    | ok parsed =>
      rw [respond, parses]
      exact report_exits encoded parses

/-- The answer depends on the options only in whether the tree is shown. -/
theorem respond_congr {options' : Options} (same : options'.tree = options.tree) (path : String)
    (source : Except ReadError String) :
    respond options' path source = respond options path source := by
  simp only [respond, report, same]

theorem run_of_plan {arguments : List String} {file : String → Except ReadError ByteArray}
    (planned : plan arguments = .parse options path) (found : file path = .ok bytes) :
    run arguments file = respond options path (decode bytes) := by
  rw [run, planned]
  simp only [found]
  rfl

end Exits

/-- The program succeeds if and only if the file is a document whose integers have a place in 64 bits,
and then, and only then, it prints a value. A parse that gives a tree has nothing to report, so no
value is printed in front of a failure. Flags for logging change neither the code nor the output. -/
theorem run_exits {parts : List Part} {arguments : List String} {path : String} {tree : Bool}
    {bytes : ByteArray} {file : String → Except ReadError ByteArray} (asks : Asks parts path tree)
    (written : Written parts arguments) (found : file path = .ok bytes) :
    Exits tree path bytes (run arguments file) ∧
    (∀ source parsed, source.toByteArray = bytes → Json.parse source path = .ok parsed →
      parsed.tree ≠ .failed → parsed.diagnostics = []) ∧
    ∀ parts' arguments', Asks parts' path tree → Written parts' arguments' →
      (run arguments' file).code = (run arguments file).code ∧
        (run arguments' file).output = (run arguments file).output := by
  obtain ⟨options, planned, shows⟩ := plan_of_asks asks written
  refine ⟨?_, fun source parsed _ parses success => ?_, fun parts' arguments' asks' written' => ?_⟩
  · rw [run_of_plan planned found, ← shows]
    exact respond_exits
  · exact (Json.value_of_success parses success).1
  · obtain ⟨options', planned', shows'⟩ := plan_of_asks asks' written'
    rw [run_of_plan planned found, run_of_plan planned' found,
      respond_congr (shows'.trans shows.symm)]
    exact ⟨rfl, rfl⟩

/-- A document behind which stands an integer that is too large. -/
def trailing : String := "[1] 99999999999999999999"

def trailingFile (_ : String) : Except ReadError ByteArray := .ok trailing.toByteArray

theorem run_exits_trailing :
    ∃ parts, (Asks parts "doc.json" true ∧ Written parts ["-vq", "--tree", "doc.json"] ∧
      trailingFile "doc.json" = .ok trailing.toByteArray) ∧
      Exits true "doc.json" trailing.toByteArray
        (run ["-vq", "--tree", "doc.json"] trailingFile) ∧
      (run ["-vq", "--tree", "doc.json"] trailingFile).code = 0 := by
  let parts : List Part := [.flag .verbose, .flag .quiet, .flag .tree, .path "doc.json"]
  have written : Written parts ["-vq", "--tree", "doc.json"] := by
    have plain : Written [.path "doc.json"] ["doc.json"] := .path (by decide) .nil
    have shows : Written [.flag .tree, .path "doc.json"] ["--tree", "doc.json"] :=
      @Written.name "tree" _ _ _ rfl plain
    exact @Written.letters ['v', 'q'] [.verbose, .quiet] _ _ (by simp) rfl shows
  have asks : Asks parts "doc.json" true := by
    refine ⟨by decide, by decide, fun flag mem => ?_, by decide, by decide⟩
    simpa [parts, or_comm, or_assoc, or_left_comm] using mem
  have found : trailingFile "doc.json" = .ok trailing.toByteArray := rfl
  have checked : (Json.parse trailing "doc.json").toOption.any (fun parsed =>
      !parsed.tree.isFailed && parsed.tree.tokens.all fun token => ¬ OutOfRange token) = true := by
    decide +kernel
  obtain ⟨exits, -, -⟩ := run_exits asks written found
  refine ⟨parts, ⟨asks, written, found⟩, exits, exits.succeeds.mpr ?_⟩
  cases parses : Json.parse trailing "doc.json" with
  | error => simp [parses, Except.toOption] at checked
  | ok parsed =>
    obtain ⟨stream, -, tokens, -⟩ := Json.parse_eq_ok.mp parses
    obtain ⟨isTree, within⟩ : parsed.tree.isFailed = false ∧
        ∀ token ∈ parsed.tree.tokens, ¬ OutOfRange token := by
      rw [parses] at checked
      simpa [Except.toOption] using checked
    have success : parsed.tree ≠ .failed := by
      intro failed
      rw [failed] at isTree
      cases isTree
    exact ⟨trailing, parsed, rfl, ⟨stream, Json.tokensOf_eq_ok.mp tokens⟩, parses, success, within⟩

end CommandLine

end Descent

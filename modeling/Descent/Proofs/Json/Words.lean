import Descent.Json.Parse
import Descent.Proofs.Json.Acceptance
import Descent.Proofs.Json.Termination

/-!
# Words at the front of a stream

A parse answers with a tree other than a failure exactly if the stream begins with a word of the
language. The tree is that of the word, whatever follows.
-/

namespace Descent.Json

variable {stream : TokenStream} {tree : Tree} {word : List Token} {result : Result}

theorem Atom.ne_endOfInput {rule : Rule} {kind : TokenKind} (shape : Atom rule kind) :
    kind ≠ .endOfInput := by
  cases shape <;> decide

/-- Words have no token of the end. -/
theorem Derives.inside {phrase : Phrase} {trees : List Tree} (h : Derives phrase word trees) :
    ∀ token ∈ word, token.kind ≠ .endOfInput := by
  induction h with
  | atom shape found => exact List.forall_mem_singleton.mpr (found.trans_ne shape.ne_endOfInput)
  | brackets _ opens _ closes items =>
    have front := opens.trans_ne (ofChar_ne_endOfInput _)
    have back := closes.trans_ne (ofChar_ne_endOfInput _)
    exact List.forall_mem_cons.mpr ⟨front,
      List.forall_mem_append.mpr ⟨items, List.forall_mem_singleton.mpr back⟩⟩
  | field _ between _ name value =>
    have colon := between.trans_ne (ofChar_ne_endOfInput _)
    exact List.forall_mem_append.mpr ⟨name, List.forall_mem_cons.mpr ⟨colon, value⟩⟩
  | value _ _ content => exact content
  | none | last => exact fun _ mem => absurd mem List.not_mem_nil
  | some _ _ first rest => exact List.forall_mem_append.mpr ⟨first, rest⟩
  | trailing between =>
    exact List.forall_mem_singleton.mpr (between.trans_ne (ofChar_ne_endOfInput _))
  | next between _ _ first rest =>
    have comma := between.trans_ne (ofChar_ne_endOfInput _)
    exact List.forall_mem_cons.mpr ⟨comma, List.forall_mem_append.mpr ⟨first, rest⟩⟩

/-- A stream that begins with a word of the language is parsed up to the end of the word, and
nothing is reported. -/
theorem parse_word (ended : stream.Ended) (derived : Derives (.rule .value) word [tree])
    (begins : word <+: stream.toList) :
    grammar.parse Rule.value.id stream =
      some ⟨tree, (State.start stream.tokenAt).skip word.length⟩ := by
  have answer := derived.answers (TokenStream.reads_of_prefix begins)
  have top : Answers (Parser.root Rule.value.parser) (.start stream.tokenAt)
      ⟨tree, (State.start stream.tokenAt).skip word.length⟩ :=
    .recoverPassed answer derived.head_isProduction.success
  exact (parse_eq_some_iff ended).mpr top.runs

/-- The tree of a parse is that of a word at the front of the stream. -/
theorem word_of_parse (ended : stream.Ended)
    (answer : grammar.parse Rule.value.id stream = some result) (success : result.tree ≠ .failed) :
    ∃ word, word <+: stream.toList ∧ Derives (.rule .value) word [result.tree] := by
  cases rule_decided ended .value (.start stream.tokenAt) rfl with
  | @found word tree derived reads =>
    have begins : word <+: stream.toList := ended.prefix_of_reads derived.inside rfl reads
    obtain rfl := Option.some.inj (answer.symm.trans (parse_word ended derived begins))
    exact ⟨word, begins, derived⟩
  | @failed stop missing =>
    have top : Answers (Parser.root Rule.value.parser) (.start stream.tokenAt) ⟨.failed, stop⟩ :=
      .rootFailed missing
    obtain rfl := ((parse_eq_some_iff ended).mp answer).unique top.runs
    exact absurd rfl success

/-! ## Sources -/

theorem tokensOf_eq_ok {source file : String} :
    tokensOf source file = .ok stream ↔ tokenize source file = .ok stream := by
  rw [tokensOf]
  cases tokenize source file <;> simp [Except.mapError]

/-- A source has a tree if it has tokens and their parse ends. -/
theorem parse_eq_ok {source file : String} {parsed : Parsed} :
    parse source file = .ok parsed ↔
      ∃ stream result, tokensOf source file = .ok stream ∧
        grammar.parse Rule.value.id stream = some result ∧
        parsed = ⟨result.tree, result.state.log.toList⟩ := by
  constructor
  · intro parses
    cases tokens : tokensOf source file with
    | error => simp [parse, tokens, bind, Except.bind] at parses
    | ok stream =>
      cases answer : grammar.parse Rule.value.id stream with
      | none => simp [parse, tokens, answer, bind, Except.bind] at parses
      | some result =>
        simp only [parse, tokens, answer, bind, Except.bind, pure, Except.pure] at parses
        exact ⟨stream, result, rfl, answer, (Except.ok.inj parses).symm⟩
  · rintro ⟨stream, result, tokens, answer, rfl⟩
    simp only [parse, tokens, answer, bind, Except.bind]
    rfl

end Descent.Json

import Descent.Proofs.Json.Rules

/-!
# Acceptance of JSON

The rules of the grammar accept exactly its words. That a word is accepted whatever follows it is
proved along its derivation; a part between brackets is accepted in front of a closing bracket,
which no rule and no comma begins. That nothing else is accepted, and that every run ends, is proved
together by induction on the tokens left in the stream: at every position a rule either stands in
front of one of its words or fails.
-/

namespace Descent.Json

variable {stream : TokenStream} {rule element : Rule} {opening closing : Char} {state : State}

/-! ## Words are accepted -/

/-- The state stands in front of a closing bracket. -/
def AtClosing (state : State) : Prop :=
  state.peek.kind = .ofChar ']' ∨ state.peek.kind = .ofChar '}'

theorem AtClosing.of_brackets (shape : Brackets rule opening element closing)
    (closes : state.peek.kind = .ofChar closing) : AtClosing state := by
  cases shape with
  | list => exact .inl closes
  | dict => exact .inr closes

theorem AtClosing.not_comma (h : AtClosing state) : state.peek.kind ≠ .ofChar ',' := by
  rcases h with h | h <;> rw [h] <;> decide

theorem AtClosing.refused (h : AtClosing state) (rule : Rule) :
    ∃ stop, Answers rule.parser state ⟨.failed, stop⟩ := by
  apply rule.refuses
  rcases h with h | h <;> rw [h] <;> cases rule <;> decide

/-- The parsers accept a word of a part, with the trees it stands for. -/
def Accepted : Phrase → List Token → List Tree → Prop
  | .rule rule, word, trees => ∀ state, state.Reads word → ∀ tree ∈ trees,
      Answers rule.parser state ⟨tree, state.skip word.length⟩
  | .items element, word, trees => ∀ state, state.Reads word →
      AtClosing (state.skip word.length) →
        Answers (itemsParser element) state ⟨.sequence trees, state.skip word.length⟩
  | .more element, word, trees => ∀ state, state.Reads word →
      AtClosing (state.skip word.length) →
        Continues element state trees (state.skip word.length)

/-- Words of a rule are not empty. -/
theorem Derives.length_pos {word : List Token} {trees : List Tree}
    (h : Derives (.rule rule) word trees) : 0 < word.length := by
  obtain ⟨_, _, rfl, _⟩ := h.starts
  exact Nat.succ_pos _

theorem Derives.starts_at {word : List Token} {trees : List Tree}
    (h : Derives (.rule rule) word trees) (reads : state.Reads word) :
    state.peek.kind ∈ rule.starters := by
  obtain ⟨first, _, rfl, starts⟩ := h.starts
  rw [reads.1]
  exact starts

/-- Whatever is derived is accepted. -/
theorem Derives.accepted {phrase : Phrase} {word : List Token} {trees : List Tree}
    (h : Derives phrase word trees) : Accepted phrase word trees := by
  induction h with
  | atom shape found =>
    rintro state ⟨rfl, -⟩ tree mem
    obtain rfl := List.mem_singleton.mp mem
    exact shape.accepts found
  | brackets shape opens content closes items =>
    rintro state ⟨rfl, rest⟩ tree mem
    obtain rfl := List.mem_singleton.mp mem
    obtain ⟨inner, rfl, -⟩ := State.reads_append.mp rest
    -- The closing bracket of the word is what stops the list between the brackets.
    have between := items _ inner (.of_brackets shape closes)
    rw [State.skip_length_cons, State.skip_length_append]
    exact shape.accepts opens between content.isProduction closes
  | field name between content named valued =>
    intro state reads tree mem
    obtain rfl := List.mem_singleton.mp mem
    obtain ⟨front, rfl, back⟩ := State.reads_append.mp reads
    have key := named state front _ List.mem_cons_self
    have value := valued _ back _ List.mem_cons_self
    rw [State.skip_length_append, State.skip_length_cons]
    exact field_accepts key name.head_isProduction between value content.head_isProduction
  | value mem content taken =>
    intro state reads tree found
    obtain rfl := List.mem_singleton.mp found
    have inner := taken state reads _ List.mem_cons_self
    exact value_accepts mem (content.starts_at reads) inner content.head_isProduction
  | none =>
    intro state _ atClosing
    obtain ⟨stop, missing⟩ := atClosing.refused _
    exact .separatedNil missing
  | some word _ first rest =>
    intro state reads atClosing
    obtain ⟨front, back⟩ := State.reads_append.mp reads
    have head := first state front _ List.mem_cons_self
    have moved := word.length_pos
    rw [State.skip_length_append] at atClosing ⊢
    -- The list takes its first element itself and leaves the others to `Continues`.
    exact rest _ back atClosing false state _ head word.head_isProduction.success (by simp [moved])
  | last =>
    intro state _ atClosing
    exact .last atClosing.not_comma
  | trailing between =>
    rintro state ⟨rfl, -⟩ atClosing
    obtain ⟨stop, missing⟩ := atClosing.refused _
    exact .comma between (.separatedNil missing)
  | next between derived _ element rest =>
    rintro state ⟨rfl, inner⟩ atClosing
    obtain ⟨front, back⟩ := State.reads_append.mp inner
    rw [State.skip_length_cons, State.skip_length_append] at atClosing ⊢
    have head := element _ front _ List.mem_cons_self
    have moved := derived.length_pos
    exact .next between head derived.head_isProduction.success (by simp [moved])
      (rest _ back atClosing)

/-- A rule answers with the tree of a word that it stands in front of. -/
theorem Derives.answers {word : List Token} {tree : Tree} (h : Derives (.rule rule) word [tree])
    (reads : state.Reads word) : Answers rule.parser state ⟨tree, state.skip word.length⟩ :=
  h.accepted state reads tree List.mem_cons_self

/-! ## Every run ends -/

/-- A rule stands in front of one of its words or fails. -/
inductive Decided (rule : Rule) (state : State) : Prop where
  | found {word tree} (derived : Derives (.rule rule) word [tree]) (reads : state.Reads word)
  | failed {stop} (answer : Answers rule.parser state ⟨.failed, stop⟩)

theorem atom_decided {kind : TokenKind} (shape : Atom rule kind) : Decided rule state := by
  by_cases found : state.peek.kind = kind
  · exact .found (.atom shape found) ⟨rfl, trivial⟩
  · exact .failed (shape.refuses found)

theorem field_decided (input : state.input = stream.tokenAt)
    (decided : ∀ later : State, later.input = stream.tokenAt → state.position < later.position →
      Decided .value later) : Decided .field state := by
  by_cases named : state.peek.kind = stringKind
  · have key := Atom.string.accepts named
    have name : Derives (.rule .string) [state.peek] _ := .atom .string named
    by_cases between : (state.skip 1).peek.kind = .ofChar ':'
    · cases decided ((state.skip 1).skip 1) input (by simp) with
      | found derived reads => exact .found (.field name between derived) ⟨rfl, rfl, reads⟩
      | failed missing => exact .failed (field_unvalued key name.head_isProduction between missing)
    · exact .failed (field_undivided key name.head_isProduction between)
  · exact .failed (field_unnamed (Atom.string.refuses named))

/-- A value is decided where all its alternatives are. -/
theorem value_decided (decided : ∀ alternative ∈ Rule.alternatives, Decided alternative state) :
    Decided .value state := by
  by_cases standing : ∃ alternative ∈ Rule.alternatives, ∃ word tree,
      Derives (.rule alternative) word [tree] ∧ state.Reads word
  · obtain ⟨alternative, mem, word, tree, derived, reads⟩ := standing
    exact .found (.value mem derived) reads
  · have refused : ∀ alternative ∈ Rule.alternatives,
        ∃ stop, Answers alternative.parser state ⟨.failed, stop⟩ := by
      intro alternative mem
      cases decided alternative mem with
      | found derived reads => exact absurd ⟨alternative, mem, _, _, derived, reads⟩ standing
      | failed answer => exact ⟨_, answer⟩
    obtain ⟨stop, answer⟩ := value_refuses refused
    exact .failed answer

section Streams

variable (ended : stream.Ended)

include ended

theorem lt_size_of_kind {kind : TokenKind} (input : state.input = stream.tokenAt)
    (found : state.peek.kind = kind) (other : kind ≠ .endOfInput) :
    state.position < stream.size := by
  apply ended.lt_size
  rw [← input]
  exact found.symm ▸ other

/-- Behind an element the rest of the list is found, if every later element is decided. -/
theorem more_decided {low : Nat}
    (decided : ∀ state : State, state.input = stream.tokenAt → low < state.position →
      Decided element state)
    (state : State) (input : state.input = stream.tokenAt) (after : low ≤ state.position) :
    ∃ word trees, Derives (.more element) word trees ∧ state.Reads word ∧
      Continues element state trees (state.skip word.length) := by
  induction left : stream.size - state.position using Nat.strongRecOn
    generalizing state with
  | _ count ih =>
    by_cases comma : state.peek.kind = .ofChar ','
    · have within := lt_size_of_kind ended input comma (by decide)
      have further : low < (state.skip 1).position := Nat.lt_succ_of_le after
      cases decided (state.skip 1) input further with
      | @found word tree derived reads =>
        have moved := derived.length_pos
        obtain ⟨word', trees, rest, reads', continues⟩ :=
          ih _ (by simp; omega) ((state.skip 1).skip word.length) input (by simp; omega) rfl
        have head := derived.answers reads
        refine ⟨state.peek :: (word ++ word'), tree :: trees, .next comma derived rest, ?_, ?_⟩
        · exact ⟨rfl, State.reads_append.mpr ⟨reads, reads'⟩⟩
        · rw [State.skip_length_cons, State.skip_length_append]
          exact .next comma head derived.head_isProduction.success (by simp [moved]) continues
      | failed missing =>
        exact ⟨[state.peek], [], .trailing comma, by simp, .comma comma (.separatedNil missing)⟩
    · exact ⟨[], [], .last, trivial, .last comma⟩

/-- The part between two brackets is found, if every element in it is decided. -/
theorem items_decided {low : Nat}
    (decided : ∀ state : State, state.input = stream.tokenAt → low < state.position →
      Decided element state)
    (state : State) (input : state.input = stream.tokenAt) (after : low < state.position) :
    ∃ word trees, Derives (.items element) word trees ∧ state.Reads word ∧
      Answers (itemsParser element) state ⟨.sequence trees, state.skip word.length⟩ := by
  cases decided state input after with
  | @found word tree derived reads =>
    have moved := derived.length_pos
    obtain ⟨word', trees, rest, reads', continues⟩ :=
      more_decided ended decided (state.skip word.length) input (by simp; omega)
    have head := derived.answers reads
    refine ⟨word ++ word', tree :: trees, .some derived rest, ?_, ?_⟩
    · exact State.reads_append.mpr ⟨reads, reads'⟩
    · rw [State.skip_length_append]
      exact continues false _ _ head derived.head_isProduction.success (by simp [moved])
  | failed missing => exact ⟨[], [], .none, trivial, .separatedNil missing⟩

theorem brackets_decided (shape : Brackets rule opening element closing)
    (input : state.input = stream.tokenAt)
    (decided : ∀ later : State, later.input = stream.tokenAt → state.position < later.position →
      Decided element later) : Decided rule state := by
  by_cases opens : state.peek.kind = .ofChar opening
  · obtain ⟨word, trees, items, reads, content⟩ :=
      items_decided ended decided (state.skip 1) input (by simp)
    by_cases closes : ((state.skip 1).skip word.length).peek.kind = .ofChar closing
    · apply Decided.found (.brackets shape opens items closes)
      exact ⟨rfl, State.reads_append.mpr ⟨reads, rfl, trivial⟩⟩
    · exact .failed (shape.unclosed opens content closes)
  · exact .failed (shape.refuses opens)

/-- On a stream with an end every rule is decided everywhere. -/
theorem rule_decided (rule : Rule) (state : State) (input : state.input = stream.tokenAt) :
    Decided rule state := by
  -- On the tokens left. A rule uses other rules behind a token that it has consumed, except that a
  -- value uses its alternatives where it stands, so these come first.
  induction left : stream.size - state.position using Nat.strongRecOn generalizing rule state with
  | _ count ih =>
    by_cases inside : state.position < stream.size
    · have later : ∀ rule (later : State), later.input = stream.tokenAt →
          state.position < later.position → Decided rule later := by
        intro rule later same further
        exact ih _ (by omega) rule later same rfl
      have list := brackets_decided ended .list input (later .value)
      have dict := brackets_decided ended .dict input (later .field)
      cases rule with
      | integer => exact atom_decided .integer
      | string => exact atom_decided .string
      | boolean => exact atom_decided .boolean
      | list => exact list
      | dict => exact dict
      | field => exact field_decided input (later .value)
      | value =>
        apply value_decided
        intro alternative mem
        simp only [Rule.alternatives, List.mem_cons, List.not_mem_nil, or_false] at mem
        rcases mem with rfl | rfl | rfl | rfl | rfl
        · exact atom_decided .integer
        · exact atom_decided .string
        · exact atom_decided .boolean
        · exact list
        · exact dict
    · have other : state.peek.kind ∉ rule.starters := by
        rw [State.peek, input, ended.kind_of_size_le (Nat.not_lt.mp inside)]
        exact rule.end_not_starter
      obtain ⟨stop, answer⟩ := rule.refuses other
      exact .failed answer

end Streams

/-! ## The language -/

/-- The rule for values accepts exactly the words of the language. A run on a stream with an end
comes to an end itself. It answers with a tree other than a failure exactly if a word stands there;
then the tree is that of the word, the run stops right behind the word, whatever follows, and it
reports nothing. No other word stands there. -/
theorem value_accepts_language (ended : stream.Ended) (input : state.input = stream.tokenAt) :
    (∃ result, Rule.value.parser.Runs grammar.rules state result) ∧
    ((∃ result, Rule.value.parser.Runs grammar.rules state result ∧ result.tree ≠ .failed) ↔
      ∃ word tree, Derives (.rule .value) word [tree] ∧ state.Reads word) ∧
    ∀ word tree, Derives (.rule .value) word [tree] → state.Reads word →
      (∀ result, Rule.value.parser.Runs grammar.rules state result ↔
        result = ⟨tree, state.skip word.length⟩) ∧
      ∀ word' tree', Derives (.rule .value) word' [tree'] → state.Reads word' →
        word' = word ∧ tree' = tree := by
  have accepted : ∀ {word tree}, Derives (.rule .value) word [tree] → state.Reads word →
      Rule.value.parser.Runs grammar.rules state ⟨tree, state.skip word.length⟩ := by
    intro word tree derived reads
    exact (derived.answers reads).runs
  have decided := rule_decided ended .value state input
  refine ⟨?_, ⟨?_, ?_⟩, ?_⟩
  · cases decided with
    | found derived reads => exact ⟨_, accepted derived reads⟩
    | failed answer => exact ⟨_, answer.runs⟩
  · rintro ⟨result, runs, success⟩
    cases decided with
    | found derived reads => exact ⟨_, _, derived, reads⟩
    | failed answer =>
      obtain rfl := runs.unique answer.runs
      exact absurd rfl success
  · rintro ⟨word, tree, derived, reads⟩
    exact ⟨_, accepted derived reads, derived.head_isProduction.success⟩
  · intro word tree derived reads
    have runs := accepted derived reads
    refine ⟨fun result => ⟨fun other => other.unique runs, ?_⟩, ?_⟩
    · rintro rfl
      exact runs
    · intro word' tree' derived' reads'
      have same := (accepted derived' reads').unique runs
      simp only [Result.mk.injEq] at same
      obtain ⟨trees, stops⟩ := same
      have lengths : word'.length = word.length := by
        have positions := congrArg State.position stops
        simpa using positions
      exact ⟨reads'.unique reads lengths, trees⟩

/-- A list with a comma behind its element, and a bracket too many. -/
def numbers : TokenStream :=
  .ofList ([.ofChar '[', integerKind, .ofChar ',', .ofChar ']', .ofChar ']'].map fun kind =>
    { kind := kind, text := kind.tag }) none

def numbersTree : Tree :=
  .production "Value" [.production "List" [.token (numbers.tokenAt 0),
    .production "Value" [.production "IntLiteral" [.token (numbers.tokenAt 1)]]]]

theorem value_accepts_language_numbers :
    (numbers.Ended ∧ Derives (.rule .value) ([0, 1, 2, 3].map numbers.tokenAt) [numbersTree] ∧
      (State.start numbers.tokenAt).Reads ([0, 1, 2, 3].map numbers.tokenAt)) ∧
    (∃ result, Rule.value.parser.Runs grammar.rules (.start numbers.tokenAt) result ∧
      result.tree ≠ .failed) ∧
    ∀ result, Rule.value.parser.Runs grammar.rules (.start numbers.tokenAt) result ↔
      result = ⟨numbersTree, (State.start numbers.tokenAt).skip 4⟩ := by
  have ended : numbers.Ended := fun _ given => nomatch given
  have element : Derives (.rule .value) [numbers.tokenAt 1] _ :=
    .value (by decide) (.atom .integer rfl)
  have items : Derives (.items .value) ([numbers.tokenAt 1] ++ [numbers.tokenAt 2]) _ :=
    .some element (.trailing rfl)
  have derived : Derives (.rule .value) ([0, 1, 2, 3].map numbers.tokenAt) [numbersTree] :=
    .value (by decide) (.brackets .list rfl items rfl)
  have reads : (State.start numbers.tokenAt).Reads ([0, 1, 2, 3].map numbers.tokenAt) :=
    ⟨rfl, rfl, rfl, rfl, trivial⟩
  have input : (State.start numbers.tokenAt).input = numbers.tokenAt := rfl
  obtain ⟨-, accepts, answers⟩ := value_accepts_language ended input
  exact ⟨⟨ended, derived, reads⟩, accepts.mpr ⟨_, _, derived, reads⟩,
    (answers _ _ derived reads).1⟩

end Descent.Json

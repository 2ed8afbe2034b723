import Descent.Proofs.Separation
import Descent.Proofs.Reading
import Mathlib.Computability.Language
import Mathlib.Data.List.Induction
import Mathlib.Tactic.Abel

/-!
# Lists of tokens

With a token for each of its parts a separated list is a regular language: nothing, or elements with
delimiters between them and perhaps one more at the end. A list up to a terminator accepts the words
of this language with a closing token behind them, and otherwise it fails behind the longest word
that is there.

`ListAt` finds this longest word as the loop does, an element and a delimiter at a time.
-/

namespace Descent

open scoped Computability

variable {a b c : TokenKind} {state : State} {word rest : List Token}

/-! ## Words -/

/-- The words of a list: nothing, or an element, rounds of a delimiter and an element, and perhaps a
last delimiter. -/
def listWords (element delimiter : TokenKind) : Language TokenKind :=
  1 + {[element]} * ({[delimiter]} * {[element]})∗ * (1 + {[delimiter]})

/-- The same from the front: nothing, an element, or an element and a delimiter before a list. -/
theorem listWords_eq (a b : TokenKind) :
    listWords a b = 1 + {[a]} + {[a]} * {[b]} * listWords a b := by
  have rounds : ({[b]} * {[a]} : Language TokenKind)∗ =
      1 + {[b]} * {[a]} * ({[b]} * {[a]})∗ :=
    (Language.one_add_self_mul_kstar_eq_kstar _).symm
  calc
    listWords a b = 1 + {[a]} * (1 + {[b]} * {[a]} * ({[b]} * {[a]})∗) * (1 + {[b]}) := by
      rw [← rounds, listWords]
    _ = 1 + {[a]} + {[a]} * {[b]} * listWords a b := by
      simp only [listWords, mul_add, add_mul, mul_one, mul_assoc]
      abel

theorem mem_listWords {kinds : List TokenKind} :
    kinds ∈ listWords a b ↔
      kinds = [] ∨ kinds = [a] ∨ ∃ rest ∈ listWords a b, kinds = a :: b :: rest := by
  have single (kind : TokenKind) {kinds : List TokenKind} :
      kinds ∈ ({[kind]} : Language TokenKind) ↔ kinds = [kind] := Iff.rfl
  conv_lhs => rw [listWords_eq]
  simp only [Language.mem_add, Language.mem_mul, Language.mem_one, single, or_assoc]
  simp [eq_comm]

/-- Tokens whose kinds are a word of a list. -/
def IsList (element delimiter : TokenKind) (word : List Token) : Prop :=
  word.map Token.kind ∈ listWords element delimiter

@[simp] theorem isList_nil : IsList a b [] := mem_listWords.mpr (.inl rfl)

@[simp] theorem isList_single {x : Token} : IsList a b [x] ↔ x.kind = a := by
  rw [IsList, mem_listWords]
  simp

@[simp] theorem isList_cons_cons {x y : Token} :
    IsList a b (x :: y :: rest) ↔ x.kind = a ∧ y.kind = b ∧ IsList a b rest := by
  rw [IsList, mem_listWords, IsList]
  simp [and_comm, and_left_comm]

theorem IsList.first {x : Token} (list : IsList a b (x :: rest)) : x.kind = a := by
  cases rest with
  | nil => exact isList_single.mp list
  | cons y rest => exact (isList_cons_cons.mp list).1

/-- The word is the longest of a list that stands at the state. -/
structure LongestList (element delimiter : TokenKind) (state : State) (word : List Token) :
    Prop where
  isList : IsList element delimiter word
  reads : state.Reads word
  longest : ∀ other, IsList element delimiter other → state.Reads other →
    other.length ≤ word.length

theorem LongestList.unique {other : List Token} (list : LongestList a b state word)
    (list' : LongestList a b state other) : word = other := by
  have shorter := list.longest other list'.isList list'.reads
  have longer := list'.longest word list.isList list.reads
  exact list.reads.unique list'.reads (Nat.le_antisymm longer shorter)

/-- The word of a list stands at the state, with a closing token behind it. -/
def ClosedList (element delimiter closing : TokenKind) (state : State) (word : List Token) : Prop :=
  IsList element delimiter word ∧ ∃ last : Token, last.kind = closing ∧ state.Reads (word ++ [last])

/-- The trees of the elements of a list, in their order. -/
def elementTrees (element : TokenKind) (word : List Token) : List Tree :=
  (word.filter (·.kind = element)).map Tree.token

theorem elementTrees_cons {x : Token} :
    elementTrees a (x :: rest) =
      if x.kind = a then .token x :: elementTrees a rest else elementTrees a rest := by
  by_cases element : x.kind = a <;> simp [elementTrees, element]

/-! ## The list at a state -/

/-- The list at a state, found as a loop finds it: an element and a delimiter at a time, as long as
they are there. -/
inductive ListAt (a b : TokenKind) : State → List Token → Prop where
  | none {state : State} (missing : state.peek.kind ≠ a) : ListAt a b state []
  | last {state : State} (found : state.peek.kind = a) (missing : (state.skip 1).peek.kind ≠ b) :
      ListAt a b state [state.peek]
  | next {state : State} {rest : List Token} (found : state.peek.kind = a)
      (marked : (state.skip 1).peek.kind = b) (more : ListAt a b (state.skip 2) rest) :
      ListAt a b state (state.peek :: (state.skip 1).peek :: rest)

/-- The list that is found is the longest one. -/
theorem ListAt.longestList (list : ListAt a b state word) : LongestList a b state word := by
  induction list with
  | none missing =>
    refine ⟨isList_nil, trivial, fun other isList reads => ?_⟩
    cases other with
    | nil => exact Nat.le_refl _
    | cons x other => exact absurd (reads.1 ▸ isList.first) missing
  | last found missing =>
    refine ⟨isList_single.mpr found, ⟨rfl, trivial⟩, fun other isList reads => ?_⟩
    match other, isList, reads with
    | [], _, _ => exact Nat.zero_le _
    | [_], _, _ => exact Nat.le_refl _
    | x :: y :: other, isList, reads =>
      exact absurd (reads.2.1 ▸ (isList_cons_cons.mp isList).2.1) missing
  | next found marked _ ih =>
    refine ⟨isList_cons_cons.mpr ⟨found, marked, ih.isList⟩, ⟨rfl, rfl, ih.reads⟩,
      fun other isList reads => ?_⟩
    match other, isList, reads with
    | [], _, _ => exact Nat.zero_le _
    | [_], _, _ => exact Nat.succ_le_succ (Nat.zero_le _)
    | x :: y :: other, isList, reads =>
      have shorter := ih.longest other (isList_cons_cons.mp isList).2.2 reads.2.2
      exact Nat.succ_le_succ (Nat.succ_le_succ shorter)

/-- The longest list is the one that is found. -/
theorem LongestList.listAt (list : LongestList a b state word) : ListAt a b state word := by
  obtain ⟨isList, reads, longest⟩ := list
  induction word using List.twoStepInduction generalizing state with
  | nil =>
    refine .none fun found => ?_
    have longer := longest [state.peek] (isList_single.mpr found) ⟨rfl, trivial⟩
    exact absurd longer (by simp)
  | singleton x =>
    obtain ⟨rfl, -⟩ := reads
    have found := isList_single.mp isList
    refine .last found fun marked => ?_
    have longer := longest [state.peek, (state.skip 1).peek]
      (isList_cons_cons.mpr ⟨found, marked, isList_nil⟩) ⟨rfl, rfl, trivial⟩
    exact absurd longer (by simp)
  | cons_cons x y rest ih =>
    obtain ⟨rfl, rfl, reads⟩ := reads
    obtain ⟨found, marked, isRest⟩ := isList_cons_cons.mp isList
    refine .next found marked (ih isRest reads fun other isOther reads' => ?_)
    have longer := longest (state.peek :: (state.skip 1).peek :: other)
      (isList_cons_cons.mpr ⟨found, marked, isOther⟩) ⟨rfl, rfl, reads'⟩
    exact Nat.le_of_succ_le_succ (Nat.le_of_succ_le_succ longer)

/-- A list with a closing token behind it is the one that is found, since the token is neither an
element nor a delimiter. -/
theorem ClosedList.listAt (ac : a ≠ c) (bc : b ≠ c) (closed : ClosedList a b c state word) :
    ListAt a b state word := by
  obtain ⟨isList, last, closing, reads⟩ := closed
  induction word using List.twoStepInduction generalizing state with
  | nil =>
    refine .none fun found => ac ?_
    rw [← found, reads.1, closing]
  | singleton x =>
    obtain ⟨rfl, next, -⟩ := reads
    refine .last (isList_single.mp isList) fun marked => bc ?_
    rw [← marked, next, closing]
  | cons_cons x y rest ih =>
    obtain ⟨rfl, rfl, reads⟩ := reads
    obtain ⟨found, marked, isRest⟩ := isList_cons_cons.mp isList
    exact .next found marked (ih isRest reads)

theorem ListAt.closedList_iff (list : ListAt a b state word) :
    ClosedList a b c state word ↔ (state.skip word.length).peek.kind = c := by
  have longest := list.longestList
  constructor
  · rintro ⟨_, last, closing, reads⟩
    have head := (State.reads_append.mp reads).2.1
    rw [head, closing]
  · intro closing
    exact ⟨longest.isList, _, closing, State.reads_append.mpr ⟨longest.reads, rfl, trivial⟩⟩

/-- All tokens behind the end of a stream are of one kind. -/
theorem TokenStream.kind_eq_of_size_le {stream : TokenStream} {i j : Nat} (past : stream.size ≤ i)
    (past' : stream.size ≤ j) : (stream.tokenAt i).kind = (stream.tokenAt j).kind := by
  rw [tokenAt_of_size_le past, tokenAt_of_size_le past']
  rfl

/-- In a stream there is a list at every state: elements and delimiters cannot take turns behind its
end. -/
theorem exists_listAt {stream : TokenStream} {state : State} (ab : a ≠ b)
    (input : state.input = stream.tokenAt) : ∃ word, ListAt a b state word := by
  by_cases found : state.peek.kind = a
  · by_cases marked : (state.skip 1).peek.kind = b
    · -- behind the end there are no two tokens of different kinds
      have inside : state.position < stream.size := by
        by_contra past
        rw [Nat.not_lt] at past
        rw [State.peek, input] at found
        rw [State.peek, State.skip_input, input] at marked
        apply ab
        rw [← found, ← marked]
        exact TokenStream.kind_eq_of_size_le past (Nat.le_succ_of_le past)
      have input' : (state.skip 2).input = stream.tokenAt := input
      obtain ⟨rest, more⟩ := exists_listAt ab input'
      exact ⟨_, .next found marked more⟩
    · exact ⟨_, .last found marked⟩
  · exact ⟨_, .none found⟩
termination_by stream.size - state.position
decreasing_by simp only [State.skip_position]; omega

/-! ## Runs -/

section Runs

open Descent.Parser

variable {table : RuleTable} {kind : TokenKind} {tree : Tree} {stop : State} {result : Result}

theorem Parser.Runs.token_failed (run : (token kind).Runs table state ⟨.failed, stop⟩) :
    state.peek.kind ≠ kind := by
  intro found
  cases (runs_token_of_found found).mp run

theorem Parser.Runs.token_found (run : (token kind).Runs table state ⟨tree, stop⟩)
    (success : tree ≠ .failed) : state.peek.kind = kind ∧ stop = state.skip 1 := by
  by_cases found : state.peek.kind = kind
  · cases (runs_token_of_found found).mp run
    exact ⟨found, rfl⟩
  · cases (runs_token_of_other found).mp run
    exact absurd rfl success

/-- The loop consumes the list that it finds and keeps the elements. -/
theorem ListAt.runs (ab : a ≠ b) (list : ListAt a b state word) :
    (separatedBy (token a) (token b)).Runs table state
      ⟨.sequence (elementTrees a word), state.skip word.length⟩ := by
  induction list with
  | none missing =>
    exact runs_separated.mpr (.inl ⟨_, (runs_token_of_other missing).mpr rfl, rfl⟩)
  | @last state found missing =>
    refine runs_separated.mpr (.inr ⟨_, _, (runs_token_of_found found).mpr rfl, by simp,
      .inl ⟨_, (runs_token_of_other missing).mpr rfl, ?_⟩⟩)
    rw [elementTrees_cons, if_pos found]
    rfl
  | @next state rest found marked _ ih =>
    refine runs_separated.mpr (.inr ⟨_, _, (runs_token_of_found found).mpr rfl, by simp,
      .inr ⟨_, _, (runs_token_of_found marked).mpr rfl, by simp, .inr ⟨?_, _, _, ih, ?_⟩⟩⟩)
    · simp only [State.advance_position, State.skip_position]
      omega
    · have other : (state.skip 1).peek.kind ≠ a := fun element => ab (element.symm.trans marked)
      rw [elementTrees_cons, if_pos found, elementTrees_cons, if_neg other, State.skip_skip,
        List.length_cons, List.length_cons, Nat.add_assoc, Nat.add_comm 2]

/-- Where the loop comes to an end there is a list. -/
theorem Parser.Runs.listAt {trees : List Tree}
    (loop : (separatedBy (token a) (token b)).Runs table state ⟨.sequence trees, stop⟩) :
    ∃ word, ListAt a b state word := by
  induction trees generalizing state with
  | nil =>
    obtain ⟨_, missing, _⟩ | ⟨_, _, _, _, ⟨_, _, same⟩ |
      ⟨_, _, _, _, ⟨_, same⟩ | ⟨_, _, _, _, same⟩⟩⟩ := runs_separated.mp loop
    · exact ⟨_, .none missing.token_failed⟩
    all_goals cases same
  | cons tree trees ih =>
    obtain ⟨_, missing, _⟩ | ⟨_, _, first, success, rounds⟩ := runs_separated.mp loop
    · exact ⟨_, .none missing.token_failed⟩
    obtain ⟨found, rfl⟩ := first.token_found success
    obtain ⟨_, missing, _⟩ | ⟨_, _, between, mark, ends⟩ := rounds
    · exact ⟨_, .last found missing.token_failed⟩
    obtain ⟨marked, rfl⟩ := between.token_found mark
    obtain ⟨stayed, _⟩ | ⟨_, _, _, later, same⟩ := ends
    · simp at stayed
    · cases same
      obtain ⟨rest, more⟩ := ih later
      exact ⟨_, .next found marked more⟩

/-- There is an answer only where there is a list. -/
theorem Parser.Runs.listAt_of_closed
    (run : (separatedByUntil (token a) (token b) (token c)).Runs table state result) :
    ∃ word, ListAt a b state word := by
  have loop : ∃ result, (separatedBy (token a) (token b)).Runs table state result := by
    obtain ⟨_, refused, _⟩ | ⟨_, _, body, _⟩ := runs_terminated.mp run
    exacts [⟨_, refused⟩, ⟨_, body⟩]
  obtain ⟨result, loop⟩ := loop
  obtain ⟨trees, stop, rfl⟩ := (runs_iff_evaluates.mp loop).separated_cases
  exact loop.listAt

theorem ListAt.closed (ab : a ≠ b) (list : ListAt a b state word)
    (closing : (state.skip word.length).peek.kind = c) :
    (separatedByUntil (token a) (token b) (token c)).Runs table state
      ⟨.sequence (elementTrees a word), state.skip (word.length + 1)⟩ :=
  runs_terminated.mpr (.inr ⟨_, _, list.runs ab, by simp, .inr ⟨_, _,
    (runs_token_of_found closing).mpr rfl, by simp, rfl⟩⟩)

theorem ListAt.unclosed (ab : a ≠ b) (list : ListAt a b state word)
    (other : (state.skip word.length).peek.kind ≠ c) :
    (separatedByUntil (token a) (token b) (token c)).Runs table state
      ((state.skip word.length).reject (.mismatch c (state.skip word.length).peek)) :=
  runs_terminated.mpr (.inr ⟨_, _, list.runs ab, by simp, .inl ⟨_,
    (runs_token_of_other other).mpr rfl, rfl⟩⟩)

/-- A list of tokens up to a terminator is accepted exactly if a word of the list stands at the
state with a closing token behind it. The answer consists of the elements of the word, the state
stands behind the closing token, and nothing is reported. Otherwise the list is refused behind the
longest word that stands there, with one report: the closing token was expected and another one was
found. There is an answer wherever there is a longest word, and in a stream there always is one. -/
theorem separatedByUntil_tokens (ab : a ≠ b) (bc : b ≠ c) (ac : a ≠ c) (table : RuleTable)
    (state : State) :
    ((∃ result, (separatedByUntil (token a) (token b) (token c)).Runs table state result ∧
        result.tree ≠ .failed) ↔ ∃ word, ClosedList a b c state word) ∧
    (∀ word, ClosedList a b c state word → ∀ result,
      (separatedByUntil (token a) (token b) (token c)).Runs table state result ↔
        result = ⟨.sequence (elementTrees a word), state.skip (word.length + 1)⟩) ∧
    ((¬ ∃ word, ClosedList a b c state word) → ∀ word, LongestList a b state word → ∀ result,
      (separatedByUntil (token a) (token b) (token c)).Runs table state result ↔
        result =
          (state.skip word.length).reject (.mismatch c (state.skip word.length).peek)) ∧
    ((∃ result, (separatedByUntil (token a) (token b) (token c)).Runs table state result) ↔
      ∃ word, LongestList a b state word) ∧
    ∀ stream : TokenStream, state.input = stream.tokenAt → ∃ word, LongestList a b state word := by
  have accepted : ∀ word, ClosedList a b c state word →
      (separatedByUntil (token a) (token b) (token c)).Runs table state
        ⟨.sequence (elementTrees a word), state.skip (word.length + 1)⟩ := by
    intro word closed
    have list := closed.listAt ac bc
    exact list.closed ab (list.closedList_iff.mp closed)
  have refused : (¬ ∃ word, ClosedList a b c state word) → ∀ word, ListAt a b state word →
      (separatedByUntil (token a) (token b) (token c)).Runs table state
        ((state.skip word.length).reject (.mismatch c (state.skip word.length).peek)) := by
    intro unclosed word list
    exact list.unclosed ab fun closing => unclosed ⟨word, list.closedList_iff.mpr closing⟩
  refine ⟨⟨?_, ?_⟩, fun word closed _ => (accepted word closed).iff_eq,
    fun unclosed word longest _ => (refused unclosed word longest.listAt).iff_eq, ⟨?_, ?_⟩, ?_⟩
  · rintro ⟨result, run, success⟩
    obtain ⟨word, list⟩ := run.listAt_of_closed
    by_contra unclosed
    cases run.unique (refused unclosed word list)
    exact success rfl
  · rintro ⟨word, closed⟩
    exact ⟨_, accepted word closed, by simp⟩
  · rintro ⟨result, run⟩
    obtain ⟨word, list⟩ := run.listAt_of_closed
    exact ⟨word, list.longestList⟩
  · rintro ⟨word, longest⟩
    by_cases closed : ∃ word, ClosedList a b c state word
    · obtain ⟨word, closed⟩ := closed
      exact ⟨_, accepted word closed⟩
    · exact ⟨_, refused closed word longest.listAt⟩
  · intro stream input
    obtain ⟨word, list⟩ := exists_listAt ab input
    exact ⟨word, list.longestList⟩

/-- Behind the first two crosses a comma is missing. From the third one on the list is closed. -/
theorem separatedByUntil_tokens_crosses :
    (separatedByUntil (char 'x') (char ',') (char ']')).Runs .empty (.start crossesTokens.tokenAt)
      (((State.start crossesTokens.tokenAt).skip 3).reject
        (.mismatch (.ofChar ']') (crossesTokens.tokenAt 3))) ∧
    (separatedByUntil (char 'x') (char ',') (char ']')).Runs .empty
      ((State.start crossesTokens.tokenAt).skip 3)
      ⟨.sequence [.token (crossesTokens.tokenAt 3)],
        (State.start crossesTokens.tokenAt).skip 6⟩ := by
  have cross_comma : TokenKind.ofChar 'x' ≠ .ofChar ',' := by decide
  have comma_bracket : TokenKind.ofChar ',' ≠ .ofChar ']' := by decide
  have cross_bracket : TokenKind.ofChar 'x' ≠ .ofChar ']' := by decide
  have laws := separatedByUntil_tokens cross_comma comma_bracket cross_bracket .empty
  have front : ListAt (.ofChar 'x') (.ofChar ',') (.start crossesTokens.tokenAt)
      ([0, 1, 2].map crossesTokens.tokenAt) := .next rfl rfl (.last rfl (by decide))
  have unclosed : ¬ ∃ word, ClosedList (.ofChar 'x') (.ofChar ',') (.ofChar ']')
      (.start crossesTokens.tokenAt) word := by
    rintro ⟨word, closed⟩
    have list := closed.listAt cross_bracket comma_bracket
    obtain rfl := list.longestList.unique front.longestList
    exact absurd (list.closedList_iff.mp closed) (by decide)
  have back : ListAt (.ofChar 'x') (.ofChar ',') ((State.start crossesTokens.tokenAt).skip 3)
      ([3, 4].map crossesTokens.tokenAt) := .next rfl rfl (.none (by decide))
  obtain ⟨-, -, refused, -, -⟩ := laws (.start crossesTokens.tokenAt)
  obtain ⟨-, accepted, -, -, -⟩ := laws ((State.start crossesTokens.tokenAt).skip 3)
  exact ⟨(refused unclosed _ front.longestList _).mpr rfl,
    (accepted _ (back.closedList_iff.mpr rfl) _).mpr rfl⟩

end Runs

end Descent

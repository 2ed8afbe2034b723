import Descent.Proofs.Json.Words

/-!
# Viable runs

A run of tokens is viable if a word begins with it, so that it can still be completed.

No word of a rule is the front of a longer word of that rule: the parser of the rule stops behind
each word that it stands in front of, and it has one answer. So the elements between two brackets are
told apart by their tokens alone. A run that is viable there is a number of rows, each of them an
element with its comma, and behind them the front of one more element. Where that element is not
complete, the longest list of complete elements ends in front of it.
-/

namespace Descent.Json

variable {phrase : Phrase} {rule element : Rule} {opening closing : Char} {first : Token}
variable {word other run text before before' last part behind : List Token}

/-- The words of a part of a document. -/
def IsWord (phrase : Phrase) (word : List Token) : Prop := ∃ trees, Derives phrase word trees

/-- A word of the part begins with the run. -/
def Viable (phrase : Phrase) (run : List Token) : Prop := ∃ word, IsWord phrase word ∧ run <+: word

theorem IsWord.viable (h : IsWord phrase word) : Viable phrase word := ⟨word, h, List.prefix_rfl⟩

theorem Viable.front (viable : Viable phrase run) (begins : other <+: run) :
    Viable phrase other := by
  obtain ⟨word, derived, reaches⟩ := viable
  exact ⟨word, derived, begins.trans reaches⟩

/-- Nothing goes on behind the end of the input. -/
theorem Viable.inside (viable : Viable phrase run) : ∀ token ∈ run, token.kind ≠ .endOfInput := by
  obtain ⟨word, ⟨trees, derived⟩, reaches⟩ := viable
  exact fun token mem => derived.inside token (reaches.subset mem)

/-! ## Words of one rule -/

theorem Derives.single {rule : Rule} {word : List Token} {trees : List Tree} :
    Derives (.rule rule) word trees → ∃ tree, trees = [tree]
  | .atom _ _ | .brackets _ _ _ _ | .field _ _ _ | .value _ _ => ⟨_, rfl⟩

theorem IsWord.tree (h : IsWord (.rule rule) word) :
    ∃ tree, Derives (.rule rule) word [tree] := by
  obtain ⟨_, derived⟩ := h
  obtain ⟨tree, rfl⟩ := derived.single
  exact ⟨tree, derived⟩

/-- At the front of a text stands at most one word of a rule. -/
theorem IsWord.eq_of_prefixes (derived : IsWord (.rule rule) word)
    (derived' : IsWord (.rule rule) other) (begins : word <+: text) (begins' : other <+: text) :
    word = other := by
  obtain ⟨tree, derived⟩ := derived.tree
  obtain ⟨tree', derived'⟩ := derived'.tree
  obtain ⟨state, reads⟩ := State.exists_reads text
  have here := reads.front begins
  have here' := reads.front begins'
  have same := (derived.answers here).runs.unique (derived'.answers here').runs
  have lengths : word.length = other.length := by
    simpa using congrArg (·.state.position) same
  exact here.unique here' lengths

/-- Something of a word of the rule stands there, and not all of it. -/
structure Begun (rule : Rule) (part : List Token) : Prop where
  viable : Viable (.rule rule) part
  nonempty : part ≠ []
  incomplete : ¬ IsWord (.rule rule) part

theorem Begun.no_word (begun : Begun rule part) (derived : IsWord (.rule rule) word) :
    ¬ word <+: part := by
  intro begins
  obtain ⟨whole, derived', reaches⟩ := begun.viable
  have same : word = whole := derived.eq_of_prefixes derived' (begins.trans reaches) List.prefix_rfl
  have filled : part = whole := reaches.eq_of_length_le (same ▸ begins.length_le)
  exact begun.incomplete (filled ▸ derived')

/-! ## Rows of elements -/

/-- Elements with a comma behind each. -/
inductive Rows (element : Rule) : List Token → Prop where
  | nil : Rows element []
  | cons {comma word rest} (first : IsWord (.rule element) word)
      (between : comma.kind = .ofChar ',') (others : Rows element rest) :
      Rows element (word ++ comma :: rest)

/-- What stands behind the last comma between two brackets. -/
def IsLast (element : Rule) (last : List Token) : Prop := last = [] ∨ IsWord (.rule element) last

/-- Behind an element stands the rest of its row, and more rows. -/
theorem Derives.rows_of_more {element : Rule} {front word : List Token} {trees : List Tree} :
    Derives (.more element) word trees → IsWord (.rule element) front →
      ∃ before last, front ++ word = before ++ last ∧ Rows element before ∧ IsLast element last
  | .last, first => ⟨[], front, List.append_nil front, .nil, .inr first⟩
  | .trailing between, first =>
    ⟨_, [], (List.append_nil _).symm, .cons first between .nil, .inl rfl⟩
  | .next between second rest, first => by
    obtain ⟨before, last, same, rows, ends⟩ := rest.rows_of_more ⟨_, second⟩
    refine ⟨_, last, ?_, .cons first between rows, ends⟩
    rw [same, List.append_assoc, List.cons_append]

/-- What stands between two brackets is rows of elements, and at most one element behind them. -/
theorem isWord_items_iff : IsWord (.items element) word ↔
    ∃ before last, word = before ++ last ∧ Rows element before ∧ IsLast element last := by
  constructor
  · rintro ⟨_, derived⟩
    cases derived with
    | none => exact ⟨[], [], rfl, .nil, .inl rfl⟩
    | some first rest => exact rest.rows_of_more ⟨_, first⟩
  · rintro ⟨before, last, rfl, rows, ends⟩
    induction rows with
    | nil =>
      rcases ends with rfl | derived
      · exact ⟨[], .none⟩
      · obtain ⟨tree, derived⟩ := derived.tree
        have items : Derives (.items element) (last ++ []) [tree] := .some derived .last
        rw [List.append_nil] at items
        exact ⟨[tree], items⟩
    | cons first between _ rest =>
      obtain ⟨tree, first⟩ := first.tree
      obtain ⟨trees, items⟩ := rest
      rw [List.append_assoc, List.cons_append]
      exact ⟨tree :: trees, .some first (items.more_of_items between)⟩

/-- The front of rows is rows and the front of an element. -/
theorem Rows.front (rows : Rows element before) (ends : IsLast element last)
    (begins : run <+: before ++ last) :
    ∃ whole part, run = whole ++ part ∧ Rows element whole ∧
      (part = [] ∨ Viable (.rule element) part) := by
  induction rows generalizing run with
  | nil =>
    refine ⟨[], run, rfl, .nil, ?_⟩
    rcases ends with rfl | derived
    · exact .inl (List.prefix_nil.mp begins)
    · exact .inr ⟨last, derived, begins⟩
  | @cons comma word rest first between others ih =>
    rw [List.append_assoc, List.cons_append] at begins
    rcases List.prefix_or_prefix_of_prefix begins (List.prefix_append word _) with
      short | ⟨behind, rfl⟩
    · exact ⟨[], run, rfl, .nil, .inr ⟨word, first, short⟩⟩
    · rw [List.prefix_append_right_inj, List.prefix_cons_iff] at begins
      rcases begins with rfl | ⟨behind, rfl, begins⟩
      · exact ⟨[], word, List.append_nil word, .nil, .inr first.viable⟩
      · obtain ⟨whole, part, rfl, rows, viable⟩ := ih begins
        refine ⟨_, part, ?_, .cons first between rows, viable⟩
        rw [List.append_assoc, List.cons_append]

theorem Viable.rows (viable : Viable (.items element) run) :
    ∃ before part, run = before ++ part ∧ Rows element before ∧
      (part = [] ∨ Viable (.rule element) part) := by
  obtain ⟨word, items, begins⟩ := viable
  obtain ⟨before, last, rfl, rows, ends⟩ := isWord_items_iff.mp items
  exact rows.front ends begins

/-- Complete elements do not reach into one that is not complete. -/
theorem Begun.prefix_rows (begun : Begun element part) (rows : Rows element before)
    (rows' : Rows element before') (ends : IsLast element last)
    (begins : before' ++ last <+: before ++ part) : before' ++ last <+: before := by
  induction rows generalizing before' with
  | nil =>
    cases rows' with
    | nil =>
      rcases ends with rfl | derived
      · exact List.prefix_rfl
      · exact absurd begins (begun.no_word derived)
    | cons first =>
      rw [List.append_assoc] at begins
      exact absurd ((List.prefix_append _ _).trans begins) (begun.no_word first)
  | @cons comma word rest first between others ih =>
    have front : word <+: word ++ comma :: rest ++ part := by
      rw [List.append_assoc]
      exact List.prefix_append _ _
    cases rows' with
    | nil =>
      rcases ends with rfl | derived
      · exact List.nil_prefix
      · rw [List.nil_append] at begins ⊢
        rw [derived.eq_of_prefixes first begins front]
        exact List.prefix_append _ _
    | @cons comma' word' rest' first' between' others' =>
      have same : word' = word := by
        rw [List.append_assoc] at begins
        exact first'.eq_of_prefixes first ((List.prefix_append _ _).trans begins) front
      subst same
      simp only [List.append_assoc, List.cons_append, List.prefix_append_right_inj,
        List.cons_prefix_cons] at begins ⊢
      exact ⟨begins.1, ih others' begins.2⟩

/-! ## Values that begin with a bracket -/

theorem Derives.alternative {word : List Token} {trees : List Tree} :
    Derives (.rule .value) word trees →
      ∃ rule ∈ Rule.alternatives, ∃ tree, Derives (.rule rule) word [tree]
  | .atom shape _ => nomatch shape
  | .brackets shape _ _ _ => nomatch shape
  | .value mem content => ⟨_, mem, _, content⟩

theorem Derives.bracketed {rule element : Rule} {opening closing : Char} {word : List Token}
    {trees : List Tree} (shape : Brackets rule opening element closing) :
    Derives (.rule rule) word trees → ∃ first inner last, word = first :: (inner ++ [last]) ∧
      IsWord (.items element) inner ∧ last.kind = .ofChar closing
  | .atom shape' _ => by cases shape <;> cases shape'
  | .brackets shape' _ items closes => by
    cases shape <;> cases shape' <;> exact ⟨_, _, _, rfl, ⟨_, items⟩, closes⟩
  | .field _ _ _ | .value _ _ => nomatch shape

/-- Behind the opening bracket of a value stand its elements and the closing bracket. -/
theorem Brackets.behind_opening (shape : Brackets rule opening element closing)
    (opens : first.kind = .ofChar opening) (value : IsWord (.rule .value) (first :: behind)) :
    ∃ word last, behind = word ++ [last] ∧ IsWord (.items element) word ∧
      last.kind = .ofChar closing := by
  obtain ⟨_, derived⟩ := value
  obtain ⟨alternative, mem, tree, content⟩ := derived.alternative
  have own : alternative = rule := by
    by_contra different
    obtain ⟨_, _, same, starts⟩ := content.starts
    obtain ⟨rfl, rfl⟩ := List.cons.inj same
    exact shape.begins_only alternative mem different (opens ▸ starts)
  subst own
  obtain ⟨_, word, last, same, items, closes⟩ := content.bracketed shape
  exact ⟨word, last, (List.cons.inj same).2, items, closes⟩

theorem Brackets.viable_of_items (shape : Brackets rule opening element closing)
    (opens : first.kind = .ofChar opening) (items : IsWord (.items element) word) :
    Viable (.rule .value) (first :: word) := by
  obtain ⟨trees, items⟩ := items
  let last : Token := { kind := .ofChar closing, text := String.singleton closing }
  have derived : Derives (.rule .value) (first :: (word ++ [last])) _ :=
    .value shape.mem_alternatives (.brackets shape opens items rfl)
  exact ⟨_, ⟨_, derived⟩, List.cons_prefix_cons.mpr ⟨rfl, List.prefix_append _ _⟩⟩

/-- A viable run behind an opening bracket is a whole value, or its elements can go on. -/
theorem Brackets.isWord_or_viable (shape : Brackets rule opening element closing)
    (opens : first.kind = .ofChar opening) (viable : Viable (.rule .value) (first :: run)) :
    IsWord (.rule .value) (first :: run) ∨ Viable (.items element) run := by
  obtain ⟨_, value, rest, rfl⟩ := viable
  obtain ⟨word, last, same, items, -⟩ := shape.behind_opening opens value
  have begins : run <+: word ++ [last] := ⟨rest, same⟩
  rcases List.prefix_concat_iff.mp begins with filled | short
  · rw [← filled] at same
    obtain rfl : rest = [] := by simpa using same
    exact .inl (by simpa using value)
  · exact .inr ⟨word, items, short⟩

end Descent.Json

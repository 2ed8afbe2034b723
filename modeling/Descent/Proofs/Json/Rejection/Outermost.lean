import Descent.Proofs.Json.Rejection
import Descent.Proofs.Json.Viability

/-!
# Where a rejected stream is reported

In a stream that is rejected there is a first token that no value goes on with. It may stand deep
inside of brackets. The parse reports it only if it is the outermost bracket that cannot go on there.
If an element of that bracket has begun and is not complete, then the list gives the element up with
all that was reported inside of it, and the report stands where the element begins.
-/

namespace Descent.Json

variable {stream : TokenStream} {rule element : Rule} {opening closing : Char}
variable {word : List Token} {start stop limit count : Nat} {problem : Problem}

/-! ## The first token that does not fit -/

/-- The token at a position is the first with which the stream so far is not the front of a value. -/
structure Breaks (stream : TokenStream) (limit : Nat) : Prop where
  stuck : ¬ Viable (.rule .value) (stream.slice 0 (limit + 1))
  first : ∀ earlier < limit, Viable (.rule .value) (stream.slice 0 (earlier + 1))

theorem Breaks.le_of_viable (breaks : Breaks stream limit)
    (viable : Viable (.rule .value) (stream.slice 0 count)) : count ≤ limit := by
  by_contra beyond
  exact breaks.stuck (viable.front (TokenStream.slice_mono (Nat.not_le.mp beyond)))

theorem Breaks.unique (breaks : Breaks stream limit) (breaks' : Breaks stream stop) :
    limit = stop := by
  rcases Nat.lt_trichotomy limit stop with earlier | same | later
  · exact absurd (breaks'.first limit earlier) breaks.stuck
  · exact same
  · exact absurd (breaks.first stop later) breaks'.stuck

/-- No value goes on behind the end of the input, so every stream breaks somewhere. -/
theorem existsUnique_breaks (ended : stream.Ended) : ∃! limit, Breaks stream limit := by
  classical
  have stuck : ∃ limit, ¬ Viable (.rule .value) (stream.slice 0 (limit + 1)) := by
    refine ⟨stream.size, fun viable => ?_⟩
    have mem : stream.tokenAt stream.size ∈ stream.slice 0 (stream.size + 1) :=
      TokenStream.tokenAt_mem_slice (Nat.zero_le _) (by omega)
    exact viable.inside _ mem (ended.kind_of_size_le (Nat.le_refl _))
  have breaks : Breaks stream (Nat.find stuck) :=
    ⟨Nat.find_spec stuck, fun _ earlier => not_not.mp (Nat.find_min stuck earlier)⟩
  exact ⟨_, breaks, fun _ other => other.unique breaks⟩

/-! ## Elements that are open -/

/-- In the bracket that the stream begins with, an element begins at one position and is not yet
complete at the other. -/
inductive OpenElement (stream : TokenStream) : (start stop : Nat) → Prop where
  | intro {rule element : Rule} {opening closing : Char} {before part : Nat}
      (shape : Brackets rule opening element closing)
      (opens : (stream.tokenAt 0).kind = .ofChar opening)
      (rows : Rows element (stream.slice 1 before))
      (begun : Begun element (stream.slice (1 + before) part)) :
      OpenElement stream (1 + before) (1 + before + part)

/-- Elements that can go on are complete if none of them is open. -/
theorem complete_of_not_open (shape : Brackets rule opening element closing)
    (opens : (stream.tokenAt 0).kind = .ofChar opening)
    (closed : ∀ start, ¬ OpenElement stream start (1 + count))
    (viable : Viable (.items element) (stream.slice 1 count)) :
    IsWord (.items element) (stream.slice 1 count) := by
  obtain ⟨before, part, same, rows, goesOn⟩ := viable.rows
  have lengths : count = before.length + part.length := by
    simpa using congrArg List.length same
  obtain ⟨front, back⟩ := TokenStream.slices_of_append same
  refine isWord_items_iff.mpr ⟨before, part, same, rows, ?_⟩
  by_contra incomplete
  obtain ⟨nonempty, incomplete⟩ := not_or.mp incomplete
  have begun : Begun element part := ⟨goesOn.resolve_left nonempty, nonempty, incomplete⟩
  rw [← front] at rows
  rw [← back] at begun
  rw [lengths, ← Nat.add_assoc] at closed
  exact closed _ (.intro shape opens rows begun)

theorem Brackets.opening_mem (shape : Brackets rule opening element closing) :
    .ofChar opening ∈ Rule.value.starters := by
  cases shape <;> decide

theorem Brackets.unique {rule' element' : Rule} {opening' closing' : Char}
    (shape : Brackets rule opening element closing)
    (shape' : Brackets rule' opening' element' closing')
    (same : TokenKind.ofChar opening = .ofChar opening') : element = element' := by
  cases shape <;> cases shape' <;> first | rfl | exact absurd same (by decide)

/-! ## The place of the report -/

/-- Where the report belongs if a token is the first that does not fit: to that token, or to the
first token of the element that is open there. -/
structure Blames (stream : TokenStream) (limit place : Nat) : Prop where
  closed : (∀ start, ¬ OpenElement stream start limit) → place = limit
  opened : ∀ start, OpenElement stream start limit → place = start

/-- If no value begins with the first token, then that is the one. -/
theorem Breaks.blames_start (breaks : Breaks stream limit)
    (other : (stream.tokenAt 0).kind ∉ Rule.value.starters) : Blames stream limit 0 where
  closed _ := by
    by_contra later
    obtain ⟨word, ⟨_, derived⟩, begins⟩ := breaks.first 0 (Nat.pos_of_ne_zero (Ne.symm later))
    obtain ⟨head, rest, rfl, starts⟩ := derived.starts
    obtain ⟨rfl, -⟩ := List.cons_prefix_cons.mp begins
    exact other starts
  opened := by
    rintro _ ⟨shape, opens, -, -⟩
    exact absurd (opens ▸ shape.opening_mem) other

section Streams

variable (ended : stream.Ended)

include ended

theorem IsWord.held {phrase : Phrase} (derived : IsWord phrase (stream.slice start count)) :
    stream.slice start count <+: stream.toList.drop start := by
  obtain ⟨_, derived⟩ := derived
  exact ended.prefix_of_slice derived.inside List.prefix_rfl

theorem Longest.le_length (content : Longest (.items element) (stream.toList.drop start) word)
    (items : IsWord (.items element) (stream.slice start count)) : count ≤ word.length := by
  have begins := items.held ended
  obtain ⟨trees, derived⟩ := items
  simpa using content.longest _ trees derived begins

/-- In front of the limit the elements of the outermost bracket can go on, unless the bracket is
already closed. -/
theorem Breaks.items_viable (breaks : Breaks stream (1 + count))
    (shape : Brackets rule opening element closing)
    (opens : (stream.tokenAt 0).kind = .ofChar opening)
    (rejected : ∀ whole, IsWord (.rule .value) whole → ¬ whole <+: stream.toList) :
    Viable (.items element) (stream.slice 1 count) := by
  have viable := breaks.first count (by omega)
  have open' : ¬ IsWord (.rule .value) (stream.slice 0 (count + 1)) := fun value =>
    rejected _ value (value.held ended)
  rw [TokenStream.slice_succ] at viable open'
  exact (shape.isWord_or_viable opens viable).resolve_left open'

/-- The longest list of elements ends where an element is open. -/
theorem Longest.ends_at_open (content : Longest (.items element) (stream.toList.drop 1) word)
    (shape : Brackets rule opening element closing)
    (opens : (stream.tokenAt 0).kind = .ofChar opening)
    (reached : 1 + word.length ≤ limit) (opened : OpenElement stream start limit) :
    1 + word.length = start := by
  obtain @⟨_, element', _, _, before, part, shape', opens', rows, begun⟩ := opened
  obtain rfl : element = element' := shape.unique shape' (opens.symm.trans opens')
  have filled : IsWord (.items element) (stream.slice 1 before) :=
    isWord_items_iff.mpr ⟨_, [], (List.append_nil _).symm, rows, .inl rfl⟩
  have atLeast : before ≤ word.length := content.le_length ended filled
  have begins : word <+: stream.slice 1 before ++ stream.slice (1 + before) part := by
    rw [← TokenStream.slice_add, TokenStream.eq_slice_of_begins content.begins]
    exact TokenStream.slice_mono (by omega)
  obtain ⟨before', last, rfl, rows', ends⟩ := isWord_items_iff.mp content.derived
  have atMost := (begun.prefix_rows rows rows' ends begins).length_le
  rw [TokenStream.length_slice] at atMost
  rw [Nat.le_antisymm atMost atLeast]

/-- If the bracket is not closed behind the longest list of elements, then that is the place. -/
theorem Breaks.blames_unclosed (breaks : Breaks stream limit)
    (shape : Brackets rule opening element closing)
    (opens : (stream.tokenAt 0).kind = .ofChar opening)
    (content : Longest (.items element) (stream.toList.drop 1) word)
    (rejected : ∀ whole, IsWord (.rule .value) whole → ¬ whole <+: stream.toList) :
    Blames stream limit (1 + word.length) := by
  have held : stream.slice 1 word.length = word :=
    (TokenStream.eq_slice_of_begins content.begins).symm
  have reached : 1 + word.length ≤ limit := by
    apply breaks.le_of_viable
    rw [Nat.add_comm, TokenStream.slice_succ, Nat.zero_add, held]
    exact shape.viable_of_items opens content.derived
  obtain ⟨inner, rfl⟩ : ∃ inner, limit = 1 + inner := Nat.exists_eq_add_of_le (by omega)
  refine ⟨fun closed => ?_, fun start opened => ?_⟩
  · have goesOn := breaks.items_viable ended shape opens rejected
    have filled := complete_of_not_open shape opens closed goesOn
    exact Nat.le_antisymm reached (Nat.add_le_add_left (content.le_length ended filled) 1)
  · exact content.ends_at_open ended shape opens reached opened

end Streams

/-! ## Rejected streams -/

/-- The last report of a parse that fails is for the first token that no value goes on with, unless
an element of the outermost bracket is open there: then it is for the token with which this element
begins. -/
theorem last_report_outermost (ended : stream.Ended) :
    ∃ result, grammar.parse Rule.value.id stream = some result ∧ (result.tree = .failed →
      ∃ limit place last, Breaks stream limit ∧ Blames stream limit place ∧
        result.state.log.last? = some last ∧ last.token = stream.tokenAt place) := by
  obtain ⟨limit, breaks, -⟩ := existsUnique_breaks ended
  rcases parse_settled ended with ⟨word, tree, derived, begins⟩ | ⟨stop, problem, rejection, answer⟩
  · refine ⟨_, parse_word ended derived begins, fun failed => ?_⟩
    exact absurd failed derived.head_isProduction.success
  · refine ⟨_, answer, fun _ => ⟨limit, stop, _, breaks, ?_, rfl, rfl⟩⟩
    have rejected : ∀ whole, IsWord (.rule .value) whole → ¬ whole <+: stream.toList := by
      intro whole value begins
      obtain ⟨tree, derived⟩ := value.tree
      have other := answer.symm.trans (parse_word ended derived begins)
      have failed : Tree.failed = tree := congrArg Result.tree (Option.some.inj other)
      exact derived.head_isProduction.success failed.symm
    cases rejection with
    | refused other => exact breaks.blames_start other
    | unclosed shape opens content =>
      rw [Nat.zero_add] at content ⊢
      exact breaks.blames_unclosed ended shape opens content rejected

/-- In `undivided` the inner list is reported. -/
theorem parse_undivided :
    ∃ result last, grammar.parse Rule.value.id undivided = some result ∧ result.tree = .failed ∧
      result.state.log.last? = some last ∧ last.token.index = 3 := by
  have checked : (grammar.parse Rule.value.id undivided).map
      (fun result => (result.tree.isFailed, result.state.log.last?.map (·.token.index))) =
        some (true, some 3) := by
    decide +kernel
  obtain ⟨result, answer, shown⟩ := Option.map_eq_some_iff.mp checked
  obtain ⟨failed, reported⟩ := Prod.mk.inj shown
  obtain ⟨last, found, index⟩ := Option.map_eq_some_iff.mp reported
  exact ⟨result, last, answer, Tree.isFailed_iff.mp failed, found, index⟩

/-- The inner list can still be completed behind its bracket. -/
theorem undivided_viable : Viable (.rule .value) (undivided.slice 0 4) := by
  let closing : Token := { kind := .ofChar ']', text := "]" }
  have inner : IsWord (.rule .value) [undivided.tokenAt 3, closing] :=
    ⟨_, .value Brackets.list.mem_alternatives (.brackets .list (by decide) .none rfl)⟩
  obtain ⟨tree, inner⟩ := inner.tree
  have items : IsWord (.items .value)
      ([undivided.tokenAt 1] ++ undivided.tokenAt 2 :: ([undivided.tokenAt 3, closing] ++ [])) :=
    ⟨_, .some (.value (by decide) (.atom .integer (by decide))) (.next (by decide) inner .last)⟩
  obtain ⟨trees, items⟩ := items
  have whole : Derives (.rule .value) (undivided.tokenAt 0 :: (_ ++ [closing])) _ :=
    .value Brackets.list.mem_alternatives (.brackets .list (by decide) items rfl)
  exact ⟨_, ⟨_, whole⟩, [closing, closing], rfl⟩

theorem last_report_outermost_undivided :
    undivided.Ended ∧ ∃ result, grammar.parse Rule.value.id undivided = some result ∧
      result.tree = .failed ∧
      ∃ limit last, Breaks undivided limit ∧ Blames undivided limit 3 ∧
        OpenElement undivided 3 limit ∧
        result.state.log.last? = some last ∧ last.token = undivided.tokenAt 3 := by
  obtain ⟨result, answer, reported⟩ := last_report_outermost undivided_ended
  obtain ⟨result', last', answer', failed, found', index⟩ := parse_undivided
  obtain rfl : result = result' := Option.some.inj (answer.symm.trans answer')
  obtain ⟨limit, place, last, breaks, blames, found, same⟩ := reported failed
  obtain rfl : last = last' := Option.some.inj (found.symm.trans found')
  obtain rfl : place = 3 := by
    rw [same, TokenStream.tokenAt_index] at index
    exact index
  -- The token that is reported still fits, so an element is open where one does not.
  have beyond : limit ≠ 3 := by
    rintro rfl
    exact breaks.stuck undivided_viable
  have opened : ∃ start, OpenElement undivided start limit := by
    by_contra closed
    exact beyond (blames.closed (not_exists.mp closed)).symm
  obtain ⟨start, opened⟩ := opened
  obtain rfl := blames.opened start opened
  exact ⟨undivided_ended, result, answer, failed, limit, last, breaks, blames, opened, found, same⟩

/-- The last report is not always for the first token that no value goes on with. -/
theorem last_report_not_deepest :
    ¬ ∀ stream : TokenStream, stream.Ended → ∀ result,
      grammar.parse Rule.value.id stream = some result → result.tree = .failed →
        ∃ limit last, Breaks stream limit ∧ result.state.log.last? = some last ∧
          last.token = stream.tokenAt limit := by
  intro deepest
  obtain ⟨result, last', answer, failed, found', index⟩ := parse_undivided
  obtain ⟨limit, last, breaks, found, same⟩ :=
    deepest undivided undivided_ended result answer failed
  obtain rfl : last = last' := Option.some.inj (found.symm.trans found')
  obtain rfl : limit = 3 := by
    rw [same, TokenStream.tokenAt_index] at index
    exact index
  exact breaks.stuck undivided_viable

end Descent.Json

import Descent.Proofs.Locality

/-!
# Reading words

A state reads a word if the word stands in the input from the position of the state on. Skipping
the length of a word that is read leads to the state behind it, with the log unchanged.
-/

namespace Descent

namespace State

/-- The state a number of tokens further on. -/
def skip (state : State) (count : Nat) : State := { state with position := state.position + count }

@[simp] theorem skip_input (state : State) (count : Nat) :
    (state.skip count).input = state.input := rfl

@[simp] theorem skip_position (state : State) (count : Nat) :
    (state.skip count).position = state.position + count := rfl

@[simp] theorem skip_log (state : State) (count : Nat) : (state.skip count).log = state.log := rfl

@[simp] theorem skip_zero (state : State) : state.skip 0 = state := rfl

@[simp] theorem skip_skip (state : State) (m n : Nat) :
    (state.skip m).skip n = state.skip (m + n) := by
  simp [skip, Nat.add_assoc]

theorem skip_length_cons (state : State) (token : Token) (rest : List Token) :
    state.skip (token :: rest).length = (state.skip 1).skip rest.length := by
  rw [skip_skip, List.length_cons, Nat.add_comm]

theorem skip_length_append (state : State) (front back : List Token) :
    state.skip (front ++ back).length = (state.skip front.length).skip back.length := by
  rw [skip_skip, List.length_append]

/-- The word stands in the input at the position of the state. -/
def Reads : State → List Token → Prop
  | _, [] => True
  | state, token :: rest => state.peek = token ∧ (state.skip 1).Reads rest

@[simp] theorem reads_nil (state : State) : state.Reads [] := trivial

@[simp] theorem reads_cons {state : State} {token : Token} {rest : List Token} :
    state.Reads (token :: rest) ↔ state.peek = token ∧ (state.skip 1).Reads rest := Iff.rfl

@[simp] theorem reads_append {state : State} {front back : List Token} :
    state.Reads (front ++ back) ↔
      state.Reads front ∧ (state.skip front.length).Reads back := by
  induction front generalizing state with
  | nil => simp
  | cons token front ih => simp [ih, and_assoc, Nat.add_comm]

theorem Reads.front {state : State} {front text : List Token} (reads : state.Reads text)
    (begins : front <+: text) : state.Reads front := by
  obtain ⟨rest, rfl⟩ := begins
  exact (reads_append.mp reads).1

/-- A state reads one word of each length. -/
theorem Reads.unique {state : State} {a b : List Token} (ha : state.Reads a) (hb : state.Reads b)
    (same : a.length = b.length) : a = b := by
  induction a generalizing state b with
  | nil => exact (List.length_eq_zero_iff.mp same.symm).symm
  | cons token a ih =>
    cases b with
    | nil => cases same
    | cons other b =>
      obtain ⟨head, tail⟩ := ha
      obtain ⟨head', tail'⟩ := hb
      have rest := ih tail tail' (Nat.succ.inj same)
      rw [← head, ← head', rest]

/-- Every word stands in some input. -/
theorem exists_reads (word : List Token) : ∃ state : State, state.Reads word := by
  let whole : State := .start fun position => word.getD position .endOfInput
  suffices behind : ∀ front rest, front ++ rest = word → (whole.skip front.length).Reads rest from
    ⟨whole, behind [] word rfl⟩
  intro front rest split
  induction rest generalizing front with
  | nil => exact reads_nil _
  | cons token rest ih =>
    have next := ih (front ++ [token]) (by rw [List.append_assoc, List.singleton_append, split])
    rw [skip_length_append] at next
    refine ⟨?_, next⟩
    simp [whole, peek, start, ← split]

end State

namespace TokenStream

/-- The stream is followed by the end of the input. -/
def Ended (stream : TokenStream) : Prop := ∀ token ∈ stream.endToken, token.kind = .endOfInput

theorem Ended.kind_of_size_le {stream : TokenStream} (ended : stream.Ended) {position : Nat}
    (outside : stream.size ≤ position) : (stream.tokenAt position).kind = .endOfInput := by
  rw [tokenAt_of_size_le outside, endAt]
  cases given : stream.endToken with
  | none =>
    simp only [Option.getD_none, endAfterLast]
    split <;> rfl
  | some token => exact ended token given

/-- A token that is not of the end is one of those that the stream holds. -/
theorem Ended.lt_size {stream : TokenStream} (ended : stream.Ended) {position : Nat}
    (other : (stream.tokenAt position).kind ≠ .endOfInput) : position < stream.size := by
  by_contra outside
  exact other (ended.kind_of_size_le (Nat.not_lt.mp outside))

/-- At every position the rest of the stream is read. -/
theorem reads_rest (stream : TokenStream) (state : State) (input : state.input = stream.tokenAt) :
    state.Reads (stream.toList.drop state.position) := by
  generalize same : stream.toList.drop state.position = word
  induction word generalizing state with
  | nil => exact state.reads_nil
  | cons token rest ih =>
    have inside : state.position < stream.toList.length := by
      have count := congrArg List.length same
      simp only [List.length_drop, List.length_cons] at count
      omega
    rw [List.drop_eq_getElem_cons inside] at same
    obtain ⟨head, tail⟩ := List.cons.inj same
    refine ⟨?_, ih (state.skip 1) input tail⟩
    rw [State.peek, input, tokenAt_of_lt inside]
    exact head

/-- What stands at the front of a stream is read at its start. -/
theorem reads_of_prefix {stream : TokenStream} {word : List Token} (begins : word <+: stream.toList) :
    (State.start stream.tokenAt).Reads word := by
  have all : (State.start stream.tokenAt).Reads stream.toList := stream.reads_rest _ rfl
  exact all.front begins

/-- A word without a token of the end stands inside the stream where it is read. -/
theorem Ended.prefix_of_reads {stream : TokenStream} (ended : stream.Ended) {word : List Token}
    (inside : ∀ token ∈ word, token.kind ≠ .endOfInput) {state : State}
    (input : state.input = stream.tokenAt) (reads : state.Reads word) :
    word <+: stream.toList.drop state.position := by
  induction word generalizing state with
  | nil => exact List.nil_prefix
  | cons token rest ih =>
    obtain ⟨head, tail⟩ := reads
    obtain ⟨other, others⟩ := List.forall_mem_cons.mp inside
    rw [State.peek, input] at head
    have within : state.position < stream.toList.length := ended.lt_size (head ▸ other)
    have same : stream.toList[state.position] = token := by
      rw [← head, tokenAt_of_lt within]
      rfl
    have behind : rest <+: stream.toList.drop (state.skip 1).position := ih others input tail
    rw [List.drop_eq_getElem_cons within, same]
    exact List.cons_prefix_cons.mpr ⟨rfl, behind⟩

/-! ## Slices -/

/-- A number of tokens from a position on, as they are served. -/
def slice (stream : TokenStream) (start count : Nat) : List Token :=
  (List.range' start count).map stream.tokenAt

variable {stream : TokenStream} {start : Nat} {word : List Token}

@[simp] theorem length_slice (stream : TokenStream) (start count : Nat) :
    (stream.slice start count).length = count := by
  simp [slice]

theorem slice_succ (stream : TokenStream) (start count : Nat) :
    stream.slice start (count + 1) = stream.tokenAt start :: stream.slice (start + 1) count := rfl

theorem slice_add (stream : TokenStream) (start m n : Nat) :
    stream.slice start (m + n) = stream.slice start m ++ stream.slice (start + m) n := by
  rw [slice, slice, slice, ← List.map_append, List.range'_append_1]

theorem slice_mono {m n : Nat} (h : m ≤ n) : stream.slice start m <+: stream.slice start n := by
  obtain ⟨more, rfl⟩ := Nat.exists_eq_add_of_le h
  rw [slice_add]
  exact List.prefix_append _ _

theorem tokenAt_mem_slice {position count : Nat} (behind : start ≤ position)
    (within : position < start + count) :
    stream.tokenAt position ∈ stream.slice start count := by
  refine List.mem_map.mpr ⟨position, ?_, rfl⟩
  exact List.mem_range'_1.mpr ⟨behind, within⟩

/-- The parts of a slice are slices. -/
theorem slices_of_append {count : Nat} {front back : List Token}
    (same : stream.slice start count = front ++ back) :
    stream.slice start front.length = front ∧
      stream.slice (start + front.length) back.length = back := by
  have split : count = front.length + back.length := by
    simpa using congrArg List.length same
  rw [split, slice_add] at same
  exact List.append_inj same (length_slice stream start front.length)

theorem reads_slice (stream : TokenStream) (state : State) (input : state.input = stream.tokenAt)
    (count : Nat) : state.Reads (stream.slice state.position count) := by
  induction count generalizing state with
  | zero => exact state.reads_nil
  | succ count ih =>
    rw [slice_succ, ← input]
    exact ⟨rfl, ih (state.skip 1) input⟩

/-- A word that the stream holds is what it serves there. -/
theorem eq_slice_of_begins (begins : word <+: stream.toList.drop start) :
    word = stream.slice start word.length := by
  let state : State := (State.start stream.tokenAt).skip start
  have here : state.position = start := Nat.zero_add start
  have held := stream.reads_rest state rfl
  have served := stream.reads_slice state rfl word.length
  rw [here] at held served
  exact (held.front begins).unique served (length_slice stream start word.length).symm

/-- A word without a token of the end that the stream serves is a word that it holds. -/
theorem Ended.prefix_of_slice (ended : stream.Ended)
    (inside : ∀ token ∈ word, token.kind ≠ .endOfInput) {count : Nat}
    (begins : word <+: stream.slice start count) : word <+: stream.toList.drop start := by
  let state : State := (State.start stream.tokenAt).skip start
  have here : state.position = start := Nat.zero_add start
  have served := stream.reads_slice state rfl count
  rw [here] at served
  have held := ended.prefix_of_reads inside rfl (served.front begins)
  rw [here] at held
  exact held

end TokenStream

end Descent

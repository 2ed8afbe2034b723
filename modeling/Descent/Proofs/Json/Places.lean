import Descent.Proofs.Json.Lexemes
import Descent.Proofs.Lines

/-!
# Places of tokens

The scanner counts the newlines that it skips as blanks. As long as no newline stands inside a
lexeme these are all newlines of the source, so every token is found at its place: the tokens follow
each other without overlap, each covers the bytes of its own text, and only blanks are left between
them. A newline inside a string goes uncounted, and then the next token is misplaced. The end is
located without the scanner's count, and always right.
-/

namespace Descent

/-- Where a token claims to be. -/
def Token.location (token : Token) : Location := ⟨token.offset, token.line, token.column⟩

/-- Where a token claims to be, and what stands there. -/
def Token.place (token : Token) : Location × String := (token.location, token.text)

/-- Numbering tokens does not move them. -/
theorem TokenStream.map_place_number (tokens : List Token) :
    (number tokens).map Token.place = tokens.map Token.place := by
  apply List.ext_getElem
  · simp
  · intro i _ _
    simp [number, Token.place, Token.location]

namespace Json

open Lexeme (isBlank Scans)
open Lines (bytes byteSize lastLine)

variable {c : Char} {before text word : List Char} {spellings : List Spelling}
variable {token : Token} {tokens : List Token}

/-! ## Marks -/

/-- The mark behind a text in which every newline was counted. -/
def Mark.behind (text : List Char) : Mark := ⟨text.count '\n', byteSize (lastLine text)⟩

theorem utf8Size_blank (blank : isBlank c = true) : c.utf8Size = 1 := by
  simp only [isBlank, Bool.or_eq_true, decide_eq_true_eq] at blank
  rcases blank with (((rfl | rfl) | rfl) | rfl) | rfl <;> rfl

theorem Mark.afterBlank_line (mark : Mark) (c : Char) :
    (mark.afterBlank c).line = mark.line + [c].count '\n' := by
  by_cases newline : c = '\n'
  · subst newline
    rfl
  · rw [List.count_eq_zero_of_not_mem (by simpa using Ne.symm newline), afterBlank, if_neg newline]
    rfl

theorem Mark.behind_blank (blank : isBlank c = true) :
    (behind before).afterBlank c = behind (before ++ [c]) := by
  by_cases newline : c = '\n'
  · subst newline
    simp [afterBlank, behind]
  · simp [afterBlank, behind, newline, Lines.lastLine_concat newline, utf8Size_blank blank]

theorem Mark.behind_append (counted : '\n' ∉ word) :
    behind (before ++ word) =
      ⟨(behind before).line, (behind before).column + byteSize word⟩ := by
  simp [behind, Lines.lastLine_append counted, List.count_eq_zero_of_not_mem counted]

/-! ## Tokens in a text -/

/-- Behind the text `before` the tokens stand in a text from left to right. Each is located where it
stands, and blanks are all that is left over. -/
inductive Stand : (before text : List Char) → List Token → Prop where
  | nil {before : List Char} : Stand before [] []
  | blank {before text : List Char} {c : Char} {tokens : List Token} (blank : isBlank c = true)
      (behind : Stand (before ++ [c]) text tokens) : Stand before (c :: text) tokens
  | token {before text : List Char} {token : Token} {tokens : List Token}
      (place : token.location = .behind before)
      (behind : Stand (before ++ token.text.toList) text tokens) :
      Stand before (token.text.toList ++ text) (token :: tokens)

namespace Stand

theorem of_blanks (before : List Char) (scans : Scans text []) : Stand before text [] := by
  generalize none : ([] : List Spelling) = spellings at scans
  induction scans generalizing before with
  | nil => exact .nil
  | blank blank _ ih => exact .blank blank (ih _ none)
  | lexeme => cases none

theorem size_le_offset (h : Stand before text tokens) :
    ∀ token ∈ tokens, byteSize before ≤ token.offset := by
  induction h with
  | nil => exact fun _ mem => absurd mem List.not_mem_nil
  | blank _ _ ih =>
    intro token mem
    have later := ih token mem
    rw [Lines.byteSize_append] at later
    omega
  | token place _ ih =>
    refine List.forall_mem_cons.mpr ⟨(congrArg Location.offset place).ge, fun other mem => ?_⟩
    have later := ih other mem
    rw [Lines.byteSize_append] at later
    omega

theorem endOffset_eq (place : token.location = .behind before) :
    token.endOffset = byteSize (before ++ token.text.toList) := by
  have offset : token.offset = byteSize before := congrArg Location.offset place
  rw [Token.endOffset, offset, Lines.byteSize_append, Lines.byteSize_toList]

theorem ordered (h : Stand before text tokens) :
    tokens.Pairwise fun first second => first.endOffset ≤ second.offset := by
  induction h with
  | nil => exact .nil
  | blank _ _ ih => exact ih
  | token place behind ih =>
    refine .cons (fun other mem => ?_) ih
    rw [endOffset_eq place]
    exact behind.size_le_offset other mem

/-- Each token covers its own text. -/
theorem covers (h : Stand before text tokens) : ∀ token ∈ tokens, ∃ front back,
    before ++ text = front ++ token.text.toList ++ back ∧ token.location = .behind front := by
  induction h with
  | nil => exact fun _ mem => absurd mem List.not_mem_nil
  | blank _ _ ih =>
    intro token mem
    obtain ⟨front, back, split, place⟩ := ih token mem
    exact ⟨front, back, by rw [← split, List.append_assoc, List.singleton_append], place⟩
  | @token before text token tokens place _ ih =>
    refine List.forall_mem_cons.mpr ⟨⟨before, text, (List.append_assoc ..).symm, place⟩, ?_⟩
    intro other mem
    obtain ⟨front, back, split, place⟩ := ih other mem
    exact ⟨front, back, by rw [← split, List.append_assoc], place⟩

/-- A byte that no token covers is a blank. -/
theorem blank_outside (h : Stand before text tokens) {k : Nat} {byte : UInt8}
    (inside : (bytes (before ++ text))[k]? = some byte) (after : byteSize before ≤ k)
    (outside : ∀ token ∈ tokens, ¬ (token.offset ≤ k ∧ k < token.endOffset)) :
    ∃ c, isBlank c = true ∧ bytes [c] = [byte] := by
  induction h with
  | @nil before =>
    have past : k < (bytes (before ++ [])).length := (List.getElem?_eq_some_iff.mp inside).1
    rw [Lines.length_bytes, List.append_nil] at past
    omega
  | @blank before text c tokens blank _ ih =>
    have one : (bytes [c]).length = 1 := by
      rw [Lines.length_bytes, Lines.byteSize_cons, utf8Size_blank blank]
      rfl
    rw [← List.singleton_append, ← List.append_assoc] at inside
    by_cases here : k = byteSize before
    · obtain ⟨found, same⟩ := List.length_eq_one_iff.mp one
      refine ⟨c, blank, ?_⟩
      rw [List.append_assoc, Lines.bytes_append, List.getElem?_append_right (by simp [here]),
        Lines.length_bytes, here, Nat.sub_self, Lines.bytes_append, same] at inside
      rw [same, Option.some.inj inside]
    · apply ih inside _ outside
      rw [Lines.byteSize_append, ← Lines.length_bytes [c], one]
      omega
  | @token before text token tokens place _ ih =>
    obtain ⟨here, others⟩ := List.forall_mem_cons.mp outside
    have offset : token.offset = byteSize before := congrArg Location.offset place
    rw [← List.append_assoc] at inside
    apply ih inside _ others
    rw [← endOffset_eq place]
    omega

end Stand

/-! ## Scanning -/

/-- The token of a lexeme. -/
def tokenOf (lines : Lines) (file : String) (lexeme : Lexeme) : Token :=
  tokenAt lexeme.lexemeClass.kind lexeme.text
    (lines.locate lexeme.start.line lexeme.start.column) file

/-- The lexeme that is cut at a mark. -/
def Lexeme.cut (lexemeClass : LexemeClass) (mark : Mark) (word : List Char) : Lexeme :=
  ⟨lexemeClass, String.ofList word, mark, ⟨mark.line, mark.column + byteSize word⟩⟩

/-- The scanner cuts a lexeme and goes on behind it. -/
theorem Lexeme.scanFrom_cut {tail rest : List Char} {lexemeClass : LexemeClass}
    (visible : isBlank c = false)
    (starts : Lexeme.starting? c (tail ++ rest) = some (lexemeClass, tail.length))
    (done : List Lexeme) (offset : Nat) (mark : Mark) :
    Lexeme.scanFrom done offset mark (c :: (tail ++ rest)) =
      Lexeme.scanFrom (.cut lexemeClass mark (c :: tail) :: done) (offset + byteSize (c :: tail))
        (Lexeme.cut lexemeClass mark (c :: tail)).stop rest := by
  have size : (String.ofList (c :: tail)).utf8ByteSize = byteSize (c :: tail) := by
    rw [← Lines.byteSize_toList, String.toList_ofList]
  rw [Lexeme.scanFrom, if_neg (by simp [visible]), starts]
  simp only [List.take_left, List.drop_left, size]
  rfl

/-- The token of a lexeme that is cut at the mark behind a text is located there. -/
theorem location_cut (before word rest : List Char) (lexemeClass : LexemeClass) (file : String) :
    (tokenOf (.ofSource (before ++ (word ++ rest))) file
      (.cut lexemeClass (.behind before) word)).location = .behind before :=
  Lines.locate_behind before _

theorem Stand.cut {rest : List Char} (word : List Char) (lexemeClass : LexemeClass) (file : String)
    (stand : Stand (before ++ word) rest tokens) :
    Stand before (word ++ rest) (tokenOf (.ofSource (before ++ (word ++ rest))) file
      (.cut lexemeClass (.behind before) word) :: tokens) := by
  have place := location_cut before word rest lexemeClass file
  have spelled : (tokenOf (.ofSource (before ++ (word ++ rest))) file
      (.cut lexemeClass (.behind before) word)).text.toList = word := String.toList_ofList
  have whole := Stand.token place (spelled.symm ▸ stand)
  rwa [spelled] at whole

/-- If no lexeme but the last one contains a newline, the tokens of the lexemes stand in the text. -/
theorem Lexeme.Scans.stand (scans : Scans text spellings) (file : String) (before : List Char)
    (done : List Lexeme) (offset : Nat)
    (counted : ∀ spelling ∈ spellings.dropLast, '\n' ∉ spelling.text.toList) :
    ∃ lexemes,
      Lexeme.scanFrom done offset (.behind before) text = .ok (done.reverse ++ lexemes) ∧
      Stand before text (lexemes.map (tokenOf (.ofSource (before ++ text)) file)) := by
  induction scans generalizing before done offset with
  | nil => exact ⟨[], by simp [Lexeme.scanFrom], .nil⟩
  | blank blank _ ih =>
    obtain ⟨lexemes, scanned, stand⟩ := ih (before ++ [_]) done (offset + 1) counted
    rw [List.append_assoc, List.singleton_append] at stand
    refine ⟨lexemes, ?_, .blank blank stand⟩
    rw [Lexeme.scanFrom, if_pos blank, Mark.behind_blank blank]
    exact scanned
  | @lexeme c tail rest lexemeClass later visible starts behind ih =>
    rw [Lexeme.scanFrom_cut visible starts]
    cases later with
    | nil =>
      -- Only blanks follow, so it does not matter what the scanner counted in the last lexeme.
      obtain ⟨lexemes, scanned, none⟩ := behind.scanFrom
        (.cut lexemeClass (.behind before) (c :: tail) :: done) (offset + byteSize (c :: tail))
        (Lexeme.cut lexemeClass (.behind before) (c :: tail)).stop
      obtain rfl := List.map_eq_nil_iff.mp none
      refine ⟨[.cut lexemeClass (.behind before) (c :: tail)], ?_,
        .cut (c :: tail) lexemeClass file (.of_blanks _ behind)⟩
      rw [scanned, List.reverse_cons, List.append_nil]
    | cons next later =>
      obtain ⟨first, others⟩ := List.forall_mem_cons.mp counted
      rw [String.toList_ofList] at first
      have stop : (Lexeme.cut lexemeClass (.behind before) (c :: tail)).stop =
          .behind (before ++ (c :: tail)) := (Mark.behind_append first).symm
      obtain ⟨lexemes, scanned, stand⟩ := ih (before ++ (c :: tail))
        (.cut lexemeClass (.behind before) (c :: tail) :: done) (offset + byteSize (c :: tail))
        others
      rw [List.append_assoc] at stand
      refine ⟨.cut lexemeClass (.behind before) (c :: tail) :: lexemes, ?_,
        .cut (c :: tail) lexemeClass file stand⟩
      rw [stop, scanned, List.reverse_cons, List.append_assoc, List.singleton_append]

/-! ## Newlines that are not counted -/

/-- Blanks end where something visible stands. -/
theorem blanks_prefix {blanks front rest back : List Char} (blank : ∀ c ∈ blanks, isBlank c = true)
    (visible : ∃ c tail, word = c :: tail ∧ isBlank c = false)
    (same : blanks ++ (word ++ rest) = front ++ (word ++ back)) : blanks <+: front := by
  obtain ⟨c, tail, rfl, other⟩ := visible
  rcases List.append_eq_append_iff.mp same with ⟨between, rfl, -⟩ | ⟨between, rfl, split⟩
  · exact List.prefix_append _ _
  · cases between with
    | nil => simp
    | cons first between =>
      obtain rfl : c = first := (List.cons.inj split).1
      have mem : c ∈ front ++ c :: between := by simp
      rw [blank c mem] at other
      cases other

/-- The first lexeme of a text stands behind blanks, and the scanner counts their newlines. -/
theorem Lexeme.Scans.first {spelling : Spelling} {later : List Spelling}
    (scans : Scans text (spelling :: later)) (done : List Lexeme) (offset : Nat) (mark : Mark) :
    ∃ blanks rest lexeme lexemes, text = blanks ++ (spelling.text.toList ++ rest) ∧
      (∀ c ∈ blanks, isBlank c = true) ∧
      (∃ c tail, spelling.text.toList = c :: tail ∧ isBlank c = false) ∧
      lexeme.text = spelling.text ∧ lexeme.start.line = mark.line + blanks.count '\n' ∧
      Lexeme.scanFrom done offset mark text = .ok (done.reverse ++ lexeme :: lexemes) := by
  generalize same : spelling :: later = spellings at scans
  induction scans generalizing done offset mark with
  | nil => cases same
  | @blank c text spellings blank _ ih =>
    obtain ⟨blanks, rest, lexeme, lexemes, split, blank', visible, text', line, scanned⟩ :=
      ih done (offset + 1) (mark.afterBlank c) same
    refine ⟨c :: blanks, rest, lexeme, lexemes, by rw [split]; rfl,
      List.forall_mem_cons.mpr ⟨blank, blank'⟩, visible, text', ?_, ?_⟩
    · rw [line, Mark.afterBlank_line, Nat.add_assoc, ← List.count_append, List.singleton_append]
    · rw [Lexeme.scanFrom, if_pos blank]
      exact scanned
  | @lexeme c tail rest lexemeClass later visible starts behind _ =>
    cases same
    obtain ⟨lexemes, scanned, -⟩ := behind.scanFrom (.cut lexemeClass mark (c :: tail) :: done)
      (offset + byteSize (c :: tail)) (Lexeme.cut lexemeClass mark (c :: tail)).stop
    refine ⟨[], rest, .cut lexemeClass mark (c :: tail), lexemes, ?_, ?_, ?_, rfl, rfl, ?_⟩
    · rw [String.toList_ofList]
      rfl
    · exact fun _ mem => absurd mem List.not_mem_nil
    · exact ⟨c, tail, String.toList_ofList, visible⟩
    · rw [Lexeme.scanFrom_cut visible starts, scanned, List.reverse_cons, List.append_assoc]
      rfl

/-- Behind a lexeme with a newline the next one is not where the scanner has it. -/
theorem Lexeme.Scans.misplaced {spelling : Spelling} {later : List Spelling} {mark : Mark}
    {rest : List Char} (scans : Scans rest (spelling :: later)) (newline : '\n' ∈ word)
    (line : mark.line = before.count '\n') (done : List Lexeme) (offset : Nat) :
    ∃ lexeme lexemes,
      Lexeme.scanFrom done offset mark rest = .ok (done.reverse ++ lexeme :: lexemes) ∧
      ∀ (lines : Lines) (file : String) (front back : List Char),
        before ++ (word ++ rest) = front ++ lexeme.text.toList ++ back →
        byteSize (before ++ word) ≤ byteSize front →
        (tokenOf lines file lexeme).location ≠ .behind front := by
  obtain ⟨blanks, behind, lexeme, lexemes, split, blank, visible, text, start, scanned⟩ :=
    scans.first done offset mark
  refine ⟨lexeme, lexemes, scanned, fun lines file front back same after place => ?_⟩
  rw [← text] at split visible
  rw [← List.append_assoc, List.append_assoc front] at same
  -- The lexeme is found behind the newline and behind the blanks, so in a line further down.
  obtain ⟨between, rfl, rest_eq⟩ := Lines.split_of_byteSize_le same after
  obtain ⟨others, rfl⟩ := blanks_prefix blank visible (split.symm.trans rest_eq)
  have lines_eq : lexeme.start.line + 1 =
      (before ++ word ++ (blanks ++ others)).count '\n' + 1 := congrArg Location.line place
  have positive : 0 < word.count '\n' := List.count_pos_iff.mpr newline
  simp only [List.count_append] at lines_eq
  omega

/-- What is found behind a lexeme is added to it. -/
theorem Lexeme.scanFrom_done {lexeme : Lexeme} {done lexemes : List Lexeme} {offset : Nat}
    {mark : Mark}
    (scanned : Lexeme.scanFrom (lexeme :: done) offset mark text = .ok (done.reverse ++ lexemes)) :
    ∃ others, lexemes = lexeme :: others ∧
      Lexeme.scanFrom (lexeme :: done) offset mark text =
        .ok ((lexeme :: done).reverse ++ others) := by
  obtain ⟨others, same, -⟩ := scans_of_scanFrom scanned
  refine ⟨others, ?_, by rw [scanned, same]⟩
  rwa [List.reverse_cons, List.append_assoc, List.append_right_inj] at same

/-- If the tokens of the lexemes are where the text has them, no lexeme but the last one contains a
newline. -/
theorem Lexeme.Scans.counted (scans : Scans text spellings) (file : String) (before : List Char)
    (done : List Lexeme) (offset : Nat) {lexemes : List Lexeme}
    (scanned : Lexeme.scanFrom done offset (.behind before) text = .ok (done.reverse ++ lexemes))
    (located : ∀ lexeme ∈ lexemes, ∃ front back,
      before ++ text = front ++ lexeme.text.toList ++ back ∧
      (tokenOf (.ofSource (before ++ text)) file lexeme).location = .behind front)
    (ordered : (lexemes.map (tokenOf (.ofSource (before ++ text)) file)).Pairwise
      fun first second => first.endOffset ≤ second.offset) :
    ∀ spelling ∈ spellings.dropLast, '\n' ∉ spelling.text.toList := by
  induction scans generalizing before done offset lexemes with
  | nil => exact fun _ mem => absurd mem List.not_mem_nil
  | @blank c rest later blank _ ih =>
    rw [Lexeme.scanFrom, if_pos blank, Mark.behind_blank blank] at scanned
    rw [← List.singleton_append, ← List.append_assoc] at located ordered
    exact ih (before ++ [c]) done (offset + 1) scanned located ordered
  | @lexeme c tail rest lexemeClass later visible starts behind ih =>
    rw [Lexeme.scanFrom_cut visible starts] at scanned
    obtain ⟨others, rfl, found⟩ := Lexeme.scanFrom_done scanned
    obtain ⟨-, located⟩ := List.forall_mem_cons.mp located
    obtain ⟨first, ordered⟩ := List.pairwise_cons.mp ordered
    cases later with
    | nil => exact fun _ mem => absurd mem List.not_mem_nil
    | cons next later =>
      by_cases newline : '\n' ∈ c :: tail
      · obtain ⟨lexeme, others', scanned', misplaced⟩ := behind.misplaced newline
          (show (Lexeme.cut lexemeClass (.behind before) (c :: tail)).stop.line = _ from rfl)
          (.cut lexemeClass (.behind before) (c :: tail) :: done) (offset + byteSize (c :: tail))
        obtain rfl : others = lexeme :: others' := by
          rw [scanned', Except.ok.injEq, List.append_right_inj] at found
          exact found.symm
        obtain ⟨front, back, split, place⟩ := located lexeme List.mem_cons_self
        have stop := Stand.endOffset_eq (location_cut before (c :: tail) rest lexemeClass file)
        have after := first _ (List.mem_map_of_mem List.mem_cons_self)
        have start : _ = byteSize front := congrArg Location.offset place
        refine absurd place (misplaced _ file front back split ?_)
        rw [← start, ← @String.toList_ofList (c :: tail)]
        exact stop.symm.trans_le after
      · have whole : before ++ c :: (tail ++ rest) = before ++ (c :: tail) ++ rest := by
          rw [List.append_assoc, List.cons_append]
        have stop : (Lexeme.cut lexemeClass (.behind before) (c :: tail)).stop =
            .behind (before ++ (c :: tail)) := (Mark.behind_append newline).symm
        rw [stop] at found
        rw [whole] at located ordered
        refine List.forall_mem_cons.mpr ⟨by rwa [String.toList_ofList], ?_⟩
        exact ih (before ++ (c :: tail)) _ _ found located ordered

/-! ## Sources -/

/-- The tokens are where a source has them. -/
structure AtPlaces (source : List Char) (tokens : List Token) : Prop where
  ordered : tokens.Pairwise fun first second => first.endOffset ≤ second.offset
  covers : ∀ token ∈ tokens,
    (bytes source).extract token.offset token.endOffset = bytes token.text.toList
  located : ∀ token ∈ tokens, ∃ before after,
    source = before ++ token.text.toList ++ after ∧ token.location = .behind before
  blank : ∀ (k : Nat) (byte : UInt8), (bytes source)[k]? = some byte →
    (∀ token ∈ tokens, ¬ (token.offset ≤ k ∧ k < token.endOffset)) →
    ∃ c, isBlank c = true ∧ bytes [c] = [byte]

/-- Whether tokens are where a source has them depends on their places only. -/
theorem AtPlaces.congr {source : List Char} {others : List Token} (h : AtPlaces source tokens)
    (same : others.map Token.place = tokens.map Token.place) : AtPlaces source others where
  ordered := by
    have places : (tokens.map Token.place).Pairwise fun first second =>
        first.1.offset + first.2.utf8ByteSize ≤ second.1.offset := List.pairwise_map.mpr h.ordered
    rw [← same] at places
    exact List.pairwise_map.mp places
  covers := by
    have places : ∀ place ∈ tokens.map Token.place,
        (bytes source).extract place.1.offset (place.1.offset + place.2.utf8ByteSize) =
          bytes place.2.toList := List.forall_mem_map.mpr h.covers
    rw [← same] at places
    exact List.forall_mem_map.mp places
  located := by
    have places : ∀ place ∈ tokens.map Token.place, ∃ before after,
        source = before ++ place.2.toList ++ after ∧ place.1 = .behind before :=
      List.forall_mem_map.mpr h.located
    rw [← same] at places
    exact fun token mem => places token.place (List.mem_map_of_mem mem)
  blank := by
    intro k byte inside outside
    have places : ∀ place ∈ others.map Token.place,
        ¬ (place.1.offset ≤ k ∧ k < place.1.offset + place.2.utf8ByteSize) :=
      List.forall_mem_map.mpr outside
    rw [same] at places
    exact h.blank k byte inside fun token mem => places token.place (List.mem_map_of_mem mem)

theorem Stand.atPlaces {source : List Char} (h : Stand [] source tokens) :
    AtPlaces source tokens where
  ordered := h.ordered
  covers := by
    intro token mem
    obtain ⟨front, back, split, place⟩ := h.covers token mem
    have offset : token.offset = (bytes front).length := by
      rw [Lines.length_bytes]
      exact congrArg Location.offset place
    have stop : token.endOffset = (bytes front).length + (bytes token.text.toList).length := by
      rw [Token.endOffset, offset, Lines.length_bytes token.text.toList, Lines.byteSize_toList]
    rw [List.nil_append] at split
    rw [split, offset, stop, List.extract_eq_take_drop, Lines.bytes_append, Lines.bytes_append,
      List.append_assoc, List.drop_left, Nat.add_sub_cancel_left, List.take_left]
  located := h.covers
  blank := fun _ _ inside outside => h.blank_outside inside (Nat.zero_le _) outside

/-- The tokens of a source are those of its lexemes. -/
theorem lexemes_of_tokenize {source file : String} {stream : TokenStream}
    (tokens : tokenize source file = .ok stream) :
    ∃ lexemes, Lexeme.scanFrom [] 0 ⟨0, 0⟩ source.toList = .ok lexemes ∧
      stream = .ofList (lexemes.map (tokenOf (.ofSource source.toList) file))
        (some (tokenAt .endOfInput "EOF" (Lines.ofSource source.toList).stop file)) := by
  rw [tokenize, Lexeme.scan] at tokens
  cases scanned : Lexeme.scanFrom [] 0 ⟨0, 0⟩ source.toList with
  | error =>
    rw [scanned] at tokens
    cases tokens
  | ok lexemes =>
    rw [scanned] at tokens
    exact ⟨lexemes, rfl, (Except.ok.inj tokens).symm⟩

theorem map_spelling_counted (tokens : List Token) :
    (∀ spelling ∈ (tokens.map Token.spelling).dropLast, '\n' ∉ spelling.text.toList) ↔
      ∀ token ∈ tokens.dropLast, '\n' ∉ token.text.toList := by
  rw [← List.map_dropLast]
  exact List.forall_mem_map

/-- The tokens of a source are where it has them if and only if none but the last contains a newline.
The end is always where it should be. -/
theorem tokens_at_places {source file : String} {stream : TokenStream}
    (tokens : tokenize source file = .ok stream) :
    (AtPlaces source.toList stream.toList ↔
      ∀ token ∈ stream.toList.dropLast, '\n' ∉ token.text.toList) ∧
    ∀ position, stream.size ≤ position →
      (stream.tokenAt position).location = .behind source.toList := by
  obtain ⟨scans, -⟩ := scans_of_tokenize tokens
  obtain ⟨lexemes, scanned, rfl⟩ := lexemes_of_tokenize tokens
  rw [TokenStream.toList_ofList] at scans ⊢
  have numbered := TokenStream.map_place_number
    (lexemes.map (tokenOf (.ofSource source.toList) file))
  refine ⟨⟨fun places => ?_, fun counted => ?_⟩, fun position past => ?_⟩
  · have places' := places.congr numbered.symm
    have located := List.forall_mem_map.mp places'.located
    have counted := scans.counted file [] [] 0 scanned located places'.ordered
    exact (map_spelling_counted _).mp counted
  · have counted' := (map_spelling_counted _).mpr counted
    obtain ⟨later, scanned', stand⟩ := scans.stand file [] [] 0 counted'
    have same : lexemes = later := Except.ok.inj (scanned.symm.trans scanned')
    exact (same ▸ stand).atPlaces.congr numbered
  · rw [TokenStream.tokenAt_of_size_le past, ← Lines.stop_ofSource]
    rfl

/-- Characters of several bytes, two lines, and blanks in front of, between and behind the tokens. -/
def poem : String := "\t[\"né\\u0065 ∀\",\r\n  1\x0c]\n"

theorem tokens_at_places_poem :
    ∃ stream, tokenize poem "poem.json" = .ok stream ∧
      (∀ token ∈ stream.toList.dropLast, '\n' ∉ token.text.toList) ∧
      AtPlaces poem.toList stream.toList ∧
      ∀ position, stream.size ≤ position →
        (stream.tokenAt position).location = .behind poem.toList := by
  have checked : (tokenize poem "poem.json").toOption.any (fun stream =>
      stream.toList.dropLast.all fun token => '\n' ∉ token.text.toList) = true := by
    decide +kernel
  cases tokens : tokenize poem "poem.json" with
  | error => simp [tokens, Except.toOption] at checked
  | ok stream =>
    have counted : ∀ token ∈ stream.toList.dropLast, '\n' ∉ token.text.toList := by
      simpa [tokens, Except.toOption] using checked
    obtain ⟨places, stop⟩ := tokens_at_places tokens
    exact ⟨stream, rfl, counted, places.mpr counted, stop⟩

/-- Behind a string with a newline a token is a line and its bytes too early: it overlaps the string
that it follows. -/
theorem tokens_misplaced :
    ∃ stream, tokenize "\"a\nb\"\n1" "lines.json" = .ok stream ∧
      stream.toList.map Token.location = [⟨0, 1, 1⟩, ⟨3, 2, 1⟩] ∧
      ¬ AtPlaces "\"a\nb\"\n1".toList stream.toList := by
  have checked : (tokenize "\"a\nb\"\n1" "lines.json").toOption.any (fun stream =>
      stream.toList.map Token.location = [⟨0, 1, 1⟩, ⟨3, 2, 1⟩] ∧
        ¬ stream.toList.Pairwise fun first second => first.endOffset ≤ second.offset) = true := by
    decide +kernel
  cases tokens : tokenize "\"a\nb\"\n1" "lines.json" with
  | error => simp [tokens, Except.toOption] at checked
  | ok stream =>
    rw [tokens, Except.toOption, Option.any_some, decide_eq_true_eq] at checked
    exact ⟨stream, rfl, checked.1, fun places => checked.2 places.ordered⟩

end Json

end Descent

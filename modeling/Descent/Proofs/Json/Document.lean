import Descent.Json.Document.Read
import Descent.Proofs.Json.Layout
import Descent.Proofs.Json.Quoting

/-!
# Documents are read back

The text of a document without numbers, in any layout, is read as the document again. The reader is
given a depth, and every call of it lowers the depth by one; twice the length of the text is enough
for all calls, since the calls for an element or a member are paid for by the characters around it.
-/

namespace Descent.Json

namespace Document

/-- A document without numbers whose strings and keys are written for some text. -/
inductive Textual : Document → Prop where
  | null : Textual .null
  | boolean (value : Bool) : Textual (.boolean value)
  | text (text : String) : Textual (.ofText text)
  | array {elements} (each : ∀ element ∈ elements, Textual element) : Textual (.array elements)
  | object {members} (keys : ∀ member ∈ members, ∃ name, member.1 = Quoted.encode name)
      (each : ∀ member ∈ members, Textual member.2) : Textual (.object members)

variable {layout : Layout} {document : Document} {level depth : Nat} {text rest : List Char}

/-! ## Blanks -/

theorem isBlank_lineBreak (layout : Layout) (level : Nat) :
    ∀ c ∈ (layout.lineBreak level).toList, isBlank c = true := by
  intro c mem
  rcases layout.mem_lineBreak level mem with rfl | rfl <;> decide

@[simp] theorem skipBlanks_lineBreak (layout : Layout) (level : Nat) (text : List Char) :
    skipBlanks ((layout.lineBreak level).toList ++ text) = skipBlanks text := by
  rw [skipBlanks, List.dropWhile_append_of_pos (isBlank_lineBreak layout level), skipBlanks]

theorem skipBlanks_visible (layout : Layout) (level : Nat) {c : Char} (visible : isBlank c = false)
    (text : List Char) :
    skipBlanks ((layout.lineBreak level).toList ++ c :: text) = c :: text := by
  rw [skipBlanks_lineBreak]
  exact List.dropWhile_cons_of_neg (Bool.not_eq_true _ ▸ visible)

/-- Blanks in front of a value do not matter. -/
theorem readValue_lineBreak (layout : Layout) (level depth : Nat) (text : List Char) :
    readValue depth ((layout.lineBreak level).toList ++ text) = readValue depth text := by
  cases depth with
  | zero => rw [readValue, readValue]
  | succ depth => rw [readValue, readValue, skipBlanks_lineBreak]

theorem readElements_lineBreak (layout : Layout) (level depth : Nat) (text : List Char) :
    readElements depth ((layout.lineBreak level).toList ++ text) = readElements depth text := by
  cases depth with
  | zero => rw [readElements, readElements]
  | succ depth => rw [readElements, readElements, readValue_lineBreak]

theorem readMembers_lineBreak (layout : Layout) (level depth : Nat) (text : List Char) :
    readMembers depth ((layout.lineBreak level).toList ++ text) = readMembers depth text := by
  cases depth with
  | zero => rw [readMembers, readMembers]
  | succ depth => rw [readMembers, readMembers, skipBlanks_lineBreak]

theorem readValue_colon (layout : Layout) (depth : Nat) (text : List Char) :
    ∃ blanks, layout.colon.toList ++ text = ':' :: blanks ∧
      readValue depth blanks = readValue depth text := by
  cases layout with
  | compact => exact ⟨text, rfl, rfl⟩
  | pretty =>
    refine ⟨' ' :: text, rfl, ?_⟩
    cases depth with
    | zero => rw [readValue, readValue]
    | succ depth =>
      rw [readValue, readValue]
      rfl

/-! ## Elements and members -/

/-- The text of the document is read as the document, whatever follows. -/
def ReadBack (layout : Layout) (document : Document) : Prop :=
  ∀ ⦃level depth rest⦄, 2 * (renderAt layout level document).toList.length ≤ depth + 1 →
    readValue depth ((renderAt layout level document).toList ++ rest) = some (document, rest)

/-- No text is read without any depth, so what is read back is not empty. -/
theorem ReadBack.length_pos (h : ReadBack layout document) (level : Nat) :
    0 < (renderAt layout level document).toList.length := by
  apply Nat.pos_of_ne_zero
  intro empty
  have read : readValue 0 ((renderAt layout level document).toList ++ []) = some (document, []) :=
    h (by omega)
  rw [readValue] at read
  cases read

/-- The items that stand between two brackets, up to the closing one. -/
def enclosed (layout : Layout) (level : Nat) (item : String) (items : List String) : List Char :=
  item.toList ++ layout.behindCommas level items

@[simp] theorem enclosed_nil (layout : Layout) (level : Nat) (item : String) :
    enclosed layout level item [] = item.toList := by
  simp [enclosed, Layout.behindCommas]

@[simp] theorem enclosed_cons (layout : Layout) (level : Nat) (item next : String)
    (items : List String) :
    enclosed layout level item (next :: items) =
      item.toList ++
        ',' :: ((layout.lineBreak level).toList ++ enclosed layout level next items) := by
  simp [enclosed, Layout.behindCommas]

/-- Elements that are read back each are read back up to the closing bracket. -/
theorem readElements_enclosed {element : Document} {elements : List Document}
    (each : ∀ part ∈ element :: elements, ReadBack layout part)
    (enough : 2 * (enclosed layout level (renderAt layout level element)
      (renderElements layout level elements)).length ≤ depth) (outer : Nat) (rest : List Char) :
    readElements depth (enclosed layout level (renderAt layout level element)
      (renderElements layout level elements) ++ ((layout.lineBreak outer).toList ++ ']' :: rest)) =
      some (element :: elements, rest) := by
  induction elements generalizing element depth with
  | nil =>
    obtain ⟨first, -⟩ := List.forall_mem_cons.mp each
    have positive := first.length_pos level
    rw [renderElements, enclosed_nil] at enough ⊢
    obtain ⟨depth, rfl⟩ := Nat.exists_eq_succ_of_ne_zero (n := depth) (by omega)
    rw [readElements, first (by omega)]
    simp only [Option.bind_eq_bind, Option.bind_some, skipBlanks_lineBreak]
    rfl
  | cons second elements ih =>
    obtain ⟨first, others⟩ := List.forall_mem_cons.mp each
    rw [renderElements, enclosed_cons] at enough ⊢
    simp only [List.length_append, List.length_cons] at enough
    obtain ⟨depth, rfl⟩ := Nat.exists_eq_succ_of_ne_zero (n := depth) (by omega)
    have later := ih others (show _ ≤ depth by omega)
    rw [List.append_assoc, readElements, first (by omega)]
    simp only [Option.bind_eq_bind, Option.bind_some, List.cons_append, List.append_assoc]
    show ((readElements depth _).bind _) = _
    rw [readElements_lineBreak, later]
    rfl

/-- The text of a member. -/
def memberText (layout : Layout) (level : Nat) (member : String × Document) : String :=
  "\"" ++ member.1 ++ "\"" ++ layout.colon ++ renderAt layout level member.2

theorem renderMembers_cons (member : String × Document) (members : List (String × Document)) :
    renderMembers layout level (member :: members) =
      memberText layout level member :: renderMembers layout level members := rfl

/-- The key is written for some text, and the value is read back. -/
def MemberReadBack (layout : Layout) (member : String × Document) : Prop :=
  (∃ name, member.1 = Quoted.encode name) ∧ ReadBack layout member.2

/-- The first member is read, and what stands behind it decides how the reading goes on. -/
theorem readMembers_member {member : String × Document} (h : MemberReadBack layout member)
    (enough : 2 * (memberText layout level member).toList.length ≤ depth + 1)
    (behind : List Char) :
    readMembers (depth + 1) ((memberText layout level member).toList ++ behind) =
      match skipBlanks behind with
      | ',' :: rest => do
        let (members, rest) ← readMembers depth rest
        return (member :: members, rest)
      | '}' :: rest => some ([member], rest)
      | _ => none := by
  obtain ⟨key, value⟩ := member
  obtain ⟨⟨name, rfl⟩, content⟩ := h
  have written : (memberText layout level (Quoted.encode name, value)).toList ++ behind =
      '"' :: (name.toList.flatMap Quoted.encodeChar ++ '"' ::
        (layout.colon.toList ++ ((renderAt layout level value).toList ++ behind))) := by
    simp [memberText, Quoted.encode]
  have enough' : 2 * (renderAt layout level value).toList.length ≤ depth + 1 := by
    simp only [memberText, String.toList_append, List.length_append] at enough
    omega
  obtain ⟨text, colon, same⟩ :=
    readValue_colon layout depth ((renderAt layout level value).toList ++ behind)
  have quote : skipBlanks ('"' :: (name.toList.flatMap Quoted.encodeChar ++ '"' :: ':' :: text)) =
      '"' :: (name.toList.flatMap Quoted.encodeChar ++ '"' :: ':' :: text) := rfl
  have mark : skipBlanks (':' :: text) = ':' :: text := rfl
  rw [written, colon, readMembers, quote]
  simp only [Quoted.cut_encoded, Option.bind_eq_bind, Option.bind_some, mark, same,
    content enough']
  rfl

/-- Members that are read back each are read back up to the closing brace. -/
theorem readMembers_enclosed {member : String × Document} {members : List (String × Document)}
    (each : ∀ part ∈ member :: members, MemberReadBack layout part)
    (enough : 2 * (enclosed layout level (memberText layout level member)
      (renderMembers layout level members)).length ≤ depth) (outer : Nat) (rest : List Char) :
    readMembers depth (enclosed layout level (memberText layout level member)
      (renderMembers layout level members) ++ ((layout.lineBreak outer).toList ++ '}' :: rest)) =
      some (member :: members, rest) := by
  have quoted : ∀ part, 0 < (memberText layout level part).toList.length := by
    simp [memberText]
  induction members generalizing member depth with
  | nil =>
    obtain ⟨first, -⟩ := List.forall_mem_cons.mp each
    have positive := quoted member
    rw [renderMembers, enclosed_nil] at enough ⊢
    obtain ⟨depth, rfl⟩ := Nat.exists_eq_succ_of_ne_zero (n := depth) (by omega)
    rw [readMembers_member first (by omega), skipBlanks_lineBreak]
    rfl
  | cons second members ih =>
    obtain ⟨first, others⟩ := List.forall_mem_cons.mp each
    have positive := quoted member
    rw [renderMembers_cons, enclosed_cons] at enough ⊢
    simp only [List.length_append, List.length_cons] at enough
    obtain ⟨depth, rfl⟩ := Nat.exists_eq_succ_of_ne_zero (n := depth) (by omega)
    have later := ih others (show _ ≤ depth by omega)
    rw [List.append_assoc, readMembers_member first (by omega), List.cons_append,
      List.append_assoc]
    show ((readMembers depth _).bind _) = _
    rw [readMembers_lineBreak, later]
    rfl

/-! ## Documents -/

section Constructors

variable (layout : Layout) (level : Nat)

theorem renderAt_null : (renderAt layout level .null).toList = ['n', 'u', 'l', 'l'] := by
  rw [renderAt]
  rfl

theorem renderAt_boolean (value : Bool) :
    (renderAt layout level (.boolean value)).toList =
      if value then ['t', 'r', 'u', 'e'] else ['f', 'a', 'l', 's', 'e'] := by
  rw [renderAt]
  cases value <;> rfl

theorem renderAt_ofText (text : String) :
    (renderAt layout level (.ofText text)).toList =
      '"' :: (text.toList.flatMap Quoted.encodeChar ++ ['"']) := by
  simp [ofText, renderAt, Quoted.encode]

theorem renderAt_array_nil : (renderAt layout level (.array [])).toList = ['[', ']'] := by
  rw [renderAt]
  exact layout.toList_bracketed_nil level '[' ']'

theorem renderAt_array_cons (element : Document) (elements : List Document) :
    (renderAt layout level (.array (element :: elements))).toList =
      '[' :: ((layout.lineBreak (level + 1)).toList ++
        (enclosed layout (level + 1) (renderAt layout (level + 1) element)
          (renderElements layout (level + 1) elements)
            ++ ((layout.lineBreak level).toList ++ [']']))) := by
  rw [renderAt, renderElements, enclosed, List.append_assoc]
  exact layout.toList_bracketed_cons level '[' ']' _ _

theorem renderAt_object_nil : (renderAt layout level (.object [])).toList = ['{', '}'] := by
  rw [renderAt]
  exact layout.toList_bracketed_nil level '{' '}'

theorem renderAt_object_cons (member : String × Document) (members : List (String × Document)) :
    (renderAt layout level (.object (member :: members))).toList =
      '{' :: ((layout.lineBreak (level + 1)).toList ++
        (enclosed layout (level + 1) (memberText layout (level + 1) member)
          (renderMembers layout (level + 1) members)
            ++ ((layout.lineBreak level).toList ++ ['}']))) := by
  rw [renderAt, renderMembers_cons, enclosed, List.append_assoc]
  exact layout.toList_bracketed_cons level '{' '}' _ _

end Constructors

/-- The text of a document begins with a character that is neither a blank nor a closing bracket. -/
theorem Textual.begins (h : Textual document) (layout : Layout) (level : Nat) :
    ∃ c tail, (renderAt layout level document).toList = c :: tail ∧ isBlank c = false ∧
      c ≠ ']' := by
  cases h with
  | null => exact ⟨_, _, renderAt_null layout level, rfl, by decide⟩
  | boolean value =>
    rw [renderAt_boolean]
    cases value <;> exact ⟨_, _, rfl, rfl, by decide⟩
  | text text => exact ⟨_, _, renderAt_ofText layout level text, rfl, by decide⟩
  | @array elements =>
    cases elements with
    | nil => exact ⟨_, _, renderAt_array_nil layout level, rfl, by decide⟩
    | cons => exact ⟨_, _, renderAt_array_cons layout level _ _, rfl, by decide⟩
  | @object members =>
    cases members with
    | nil => exact ⟨_, _, renderAt_object_nil layout level, rfl, by decide⟩
    | cons => exact ⟨_, _, renderAt_object_cons layout level _ _, rfl, by decide⟩

/-- Behind an opening bracket, anything but a closing one begins an element. -/
theorem readValue_bracket {c : Char} (first : skipBlanks text = c :: rest) (other : c ≠ ']') :
    readValue (depth + 1) ('[' :: text) =
      (readElements depth (c :: rest)).map fun (elements, rest) => (.array elements, rest) := by
  rw [readValue, show skipBlanks ('[' :: text) = '[' :: text from rfl]
  simp only [first]
  split
  · next same =>
    cases same
    exact absurd rfl other
  · cases readElements depth (c :: rest) <;> rfl

/-- Behind an opening brace, anything but a closing one begins a member. -/
theorem readValue_brace {c : Char} (first : skipBlanks text = c :: rest) (other : c ≠ '}') :
    readValue (depth + 1) ('{' :: text) =
      (readMembers depth (c :: rest)).map fun (members, rest) => (.object members, rest) := by
  rw [readValue, show skipBlanks ('{' :: text) = '{' :: text from rfl]
  simp only [first]
  split
  · next same =>
    cases same
    exact absurd rfl other
  · cases readMembers depth (c :: rest) <;> rfl

/-- The text of a document is not empty, so reading it starts with some depth. -/
theorem Textual.readBack_of_succ (h : Textual document)
    (reads : ∀ level depth rest, 2 * (renderAt layout level document).toList.length ≤ depth + 2 →
      readValue (depth + 1) ((renderAt layout level document).toList ++ rest) =
        some (document, rest)) : ReadBack layout document := by
  intro level depth rest enough
  obtain ⟨c, tail, begins, -, -⟩ := h.begins layout level
  have positive : 0 < (renderAt layout level document).toList.length := by simp [begins]
  obtain ⟨depth, rfl⟩ := Nat.exists_eq_succ_of_ne_zero (n := depth) (by omega)
  exact reads level depth rest enough

theorem readValue_text (text : String) (depth : Nat) (rest : List Char) :
    readValue (depth + 1) ('"' :: (text.toList.flatMap Quoted.encodeChar ++ '"' :: rest)) =
      some (.ofText text, rest) := by
  have quote : skipBlanks ('"' :: (text.toList.flatMap Quoted.encodeChar ++ '"' :: rest)) =
      '"' :: (text.toList.flatMap Quoted.encodeChar ++ '"' :: rest) := rfl
  rw [readValue, quote]
  simp only [Quoted.cut_encoded]
  rfl

/-- Documents without numbers are read back. -/
theorem Textual.readBack (h : Textual document) : ReadBack layout document := by
  induction h with
  | null =>
    refine Textual.null.readBack_of_succ fun level depth rest _ => ?_
    rw [renderAt_null]
    rfl
  | boolean value =>
    refine (Textual.boolean value).readBack_of_succ fun level depth rest _ => ?_
    rw [renderAt_boolean]
    cases value <;> rfl
  | text text =>
    refine (Textual.text text).readBack_of_succ fun level depth rest _ => ?_
    rw [renderAt_ofText, List.cons_append, List.append_assoc, List.singleton_append]
    exact readValue_text text depth rest
  | @array elements each ih =>
    refine (Textual.array each).readBack_of_succ fun level depth rest enough => ?_
    cases elements with
    | nil =>
      rw [renderAt_array_nil]
      rfl
    | cons element elements =>
      rw [renderAt_array_cons] at enough ⊢
      simp only [List.length_append, List.length_cons, List.length_nil] at enough
      have read := readElements_enclosed ih
        (show 2 * (enclosed layout (level + 1) _ _).length ≤ depth by omega) level rest
      obtain ⟨c, tail, begins, visible, other⟩ :=
        (each element List.mem_cons_self).begins layout (level + 1)
      simp only [enclosed, begins, List.cons_append, List.append_assoc, List.nil_append] at read ⊢
      rw [readValue_bracket (skipBlanks_visible layout _ visible _) other, read]
      rfl
  | @object members keys each ih =>
    refine (Textual.object keys each).readBack_of_succ fun level depth rest enough => ?_
    cases members with
    | nil =>
      rw [renderAt_object_nil]
      rfl
    | cons member members =>
      rw [renderAt_object_cons] at enough ⊢
      simp only [List.length_append, List.length_cons, List.length_nil] at enough
      have parts : ∀ part ∈ member :: members, MemberReadBack layout part :=
        fun part mem => ⟨keys part mem, ih part mem⟩
      have read := readMembers_enclosed parts
        (show 2 * (enclosed layout (level + 1) _ _).length ≤ depth by omega) level rest
      obtain ⟨tail, begins⟩ : ∃ tail, (memberText layout (level + 1) member).toList = '"' :: tail :=
        ⟨_, by simp [memberText]; rfl⟩
      simp only [enclosed, begins, List.cons_append, List.append_assoc, List.nil_append] at read ⊢
      rw [readValue_brace (skipBlanks_visible layout _ (by decide) _) (by decide), read]
      rfl

/-- The text of a document without numbers is read as that document, whatever the layout. -/
theorem Textual.parse_written (h : Textual document) (layout : Layout) :
    parse? (document.render layout) = some document := by
  have read : readValue (2 * (renderAt layout 0 document).toList.length + 2)
      ((renderAt layout 0 document).toList ++ []) = some (document, []) := h.readBack (by omega)
  rw [List.append_nil] at read
  simp only [parse?, render, read]
  rfl

end Document

end Descent.Json

import Descent.Proofs.Json.Language
import Descent.Proofs.Json.Writing
import Descent.Proofs.NameMap

/-!
# Building

Tokens that are spelled like a value are a word of the grammar, and the tree of that word denotes
the value. Members have to be sorted, since this is how the members of a tree are collected, and
texts have to be plain, since escapes are left as they are.
-/

namespace Descent.Json

namespace Value

/-! ## Properties at every depth -/

/-- The elements of an array and the values of an object. -/
def parts : Value → List Value
  | .array elements => elements
  | .object members => members.map Prod.snd
  | _ => []

/-- The property holds of the value and of all values inside it. -/
inductive Everywhere (P : Value → Prop) : Value → Prop where
  | intro {value} (own : P value) (inside : ∀ part ∈ value.parts, Everywhere P part) :
      Everywhere P value

theorem everywhere_iff {P : Value → Prop} {value : Value} :
    value.Everywhere P ↔ P value ∧ ∀ part ∈ value.parts, part.Everywhere P := by
  constructor
  · rintro ⟨own, inside⟩
    exact ⟨own, inside⟩
  · rintro ⟨own, inside⟩
    exact .intro own inside

section Constructors

variable {P : Value → Prop}

@[simp] theorem everywhere_integer {value : Int64} :
    (integer value).Everywhere P ↔ P (integer value) :=
  everywhere_iff.trans (by simp [parts])

@[simp] theorem everywhere_boolean {value : Bool} :
    (boolean value).Everywhere P ↔ P (boolean value) :=
  everywhere_iff.trans (by simp [parts])

@[simp] theorem everywhere_string {text : String} :
    (string text).Everywhere P ↔ P (string text) :=
  everywhere_iff.trans (by simp [parts])

@[simp] theorem everywhere_array {elements : List Value} :
    (array elements).Everywhere P ↔
      P (array elements) ∧ ∀ element ∈ elements, element.Everywhere P :=
  everywhere_iff

@[simp] theorem everywhere_object {members : List (String × Value)} :
    (object members).Everywhere P ↔
      P (object members) ∧ ∀ member ∈ members, member.2.Everywhere P :=
  everywhere_iff.trans (and_congr_right fun _ => List.forall_mem_map)

end Constructors

/-- The members of an object are sorted by name, each name once. -/
def HasSortedMembers : Value → Prop
  | .object members => NamedEntries.Sorted members
  | _ => True

/-- Strings and names of members stand for themselves between quotes. -/
def HasPlainTexts : Value → Prop
  | .string text => Quoted.IsPlainText text
  | .object members => ∀ member ∈ members, Quoted.IsPlainText member.1
  | _ => True

/-! ## Trees of values -/

/-- The tree denotes the value. -/
def Denoted (value : Value) (tree : Tree) : Prop := ofTree tree = .ok value

/-- The member that a field stands for. -/
def memberOf : Tree → Except BuildError (String × Value)
  | .production _ children => do return (← fieldKey children, ← ofFieldValue children)
  | tree => .error (.mismatch .production (some tree))

/-- The tree is a field that denotes the member. -/
def DenotedMember (member : String × Value) (tree : Tree) : Prop := memberOf tree = .ok member

variable {trees : List Tree}

/-- Trees that are built one by one are built as a list. -/
theorem mapM_eq_ok {α : Type} {build : Tree → Except BuildError α} {built : List α}
    (each : List.Forall₂ (fun result tree => build tree = .ok result) built trees) :
    trees.mapM build = .ok built := by
  induction each with
  | nil => rfl
  | cons first _ ih =>
    rw [List.mapM_cons, first, ih]
    rfl

/-- Elements are built from left to right. -/
theorem ofElements_eq_mapM (productions : ∀ tree ∈ trees, tree.IsProduction) :
    ofElements trees = trees.mapM ofTree := by
  induction trees with
  | nil => rfl
  | cons tree trees ih =>
    obtain ⟨⟨_, _, rfl⟩, others⟩ := List.forall_mem_cons.mp productions
    simp [ofElements, Tree.token?, ih others]

/-- Fields are built from left to right, and their members inserted one after the other. -/
theorem ofFields_eq_mapM (members : NamedEntries Value)
    (productions : ∀ tree ∈ trees, tree.IsProduction) :
    ofFields members trees = NamedEntries.insertAll members <$> trees.mapM memberOf := by
  induction trees generalizing members with
  | nil => rfl
  | cons tree trees ih =>
    obtain ⟨⟨_, children, rfl⟩, others⟩ := List.forall_mem_cons.mp productions
    rw [ofFields, List.mapM_cons, memberOf]
    cases fieldKey children with
    | error => rfl
    | ok key =>
      cases ofFieldValue children with
      | error => rfl
      | ok value =>
        simp only [bind, Except.bind, ih _ others, pure, Except.pure]
        cases trees.mapM memberOf <;> rfl

theorem ofTree_list {opening : Token} (opens : opening.kind = .ofChar '[')
    (productions : ∀ tree ∈ trees, tree.IsProduction) :
    ofTree (.production "List" (.token opening :: trees)) = .array <$> trees.mapM ofTree := by
  simp [ofTree, Rule.name, ofElements, Tree.token?, opens, ofElements_eq_mapM productions]

theorem ofTree_dict {opening : Token} (productions : ∀ tree ∈ trees, tree.IsProduction) :
    ofTree (.production "Dict" (.token opening :: trees)) =
      (.object <| NamedEntries.insertAll [] ·) <$> trees.mapM memberOf := by
  simp [ofTree, Rule.name, ofFields, ofFields_eq_mapM [] productions]

theorem ofTree_value {tree : Tree} (production : tree.IsProduction) :
    ofTree (.production "Value" [tree]) = ofTree tree := by
  obtain ⟨name, children, rfl⟩ := production
  rw [ofTree, ofChoice, if_pos (by rfl)]

theorem memberOf_field {name : String} {key : List Tree} {colon : Token} {tree : Tree} :
    memberOf (.production "Field"
      [.labeled "key" (.production name key), .token colon, .labeled "value" tree]) =
        (do return (← literal Literal.string key, ← ofTree tree)) := by
  simp [memberOf, fieldKey, ofFieldValue, Tree.labeledValue?, Tree.labeled?]

end Value

/-! ## Words -/

/-- The tokens are spelled like this. -/
abbrev Spelled (tokens : List Token) (spellings : List Spelling) : Prop :=
  tokens.map Token.spelling = spellings

/-- Tokens that are spelled like this are a word of the rule, with a tree of the property. -/
def Forms (rule : Rule) (spellings : List Spelling) (P : Tree → Prop) : Prop :=
  ∀ ⦃tokens⦄, Spelled tokens spellings → ∃ tree, Derives (.rule rule) tokens [tree] ∧ P tree

theorem atom_forms {rule : Rule} {kind : TokenKind} {text : String} {P : Tree → Prop}
    (shape : Atom rule kind)
    (made : ∀ token : Token, token.text = text → P (.production rule.name [.token token])) :
    Forms rule [⟨kind, text⟩] P := by
  intro tokens spelled
  obtain ⟨token, rfl, spelling⟩ := List.map_eq_singleton_iff.mp spelled
  have found : token.kind = kind := congrArg Spelling.kind spelling
  exact ⟨_, .atom shape found, made token (congrArg Spelling.text spelling)⟩

section Items

variable {α : Type} {element : Rule} {items : List α} {spelling : α → List Spelling}
variable {P : α → Tree → Prop} {tokens : List Token}

/-- Items behind commas are a word of the grammar if each item is. -/
theorem more_derived (each : ∀ item ∈ items, Forms element (spelling item) (P item))
    (spelled : Spelled tokens ((items.map spelling).flatMap (.char ',' :: ·))) :
    ∃ trees, Derives (.more element) tokens trees ∧ List.Forall₂ P items trees := by
  induction items generalizing tokens with
  | nil =>
    obtain rfl := List.map_eq_nil_iff.mp spelled
    exact ⟨[], .last, .nil⟩
  | cons item items ih =>
    obtain ⟨first, others⟩ := List.forall_mem_cons.mp each
    rw [List.map_cons, List.flatMap_cons, List.cons_append, Spelled,
      List.map_eq_cons_iff] at spelled
    obtain ⟨comma, tokens, rfl, between, behind⟩ := spelled
    obtain ⟨front, back, rfl, head, tail⟩ := List.map_eq_append_iff.mp behind
    obtain ⟨tree, derived, property⟩ := first head
    obtain ⟨trees, derived', properties⟩ := ih others tail
    have kind : comma.kind = .ofChar ',' := congrArg Spelling.kind between
    exact ⟨tree :: trees, .next kind derived derived', .cons property properties⟩

/-- Items with commas between them are a word of the grammar if each item is. -/
theorem items_derived (each : ∀ item ∈ items, Forms element (spelling item) (P item))
    (spelled : Spelled tokens (commaSeparated (items.map spelling))) :
    ∃ trees, Derives (.items element) tokens trees ∧ List.Forall₂ P items trees := by
  cases items with
  | nil =>
    obtain rfl := List.map_eq_nil_iff.mp spelled
    exact ⟨[], .none, .nil⟩
  | cons item items =>
    obtain ⟨first, others⟩ := List.forall_mem_cons.mp each
    rw [List.map_cons, commaSeparated_cons] at spelled
    obtain ⟨front, back, rfl, head, tail⟩ := List.map_eq_append_iff.mp spelled
    obtain ⟨tree, derived, property⟩ := first head
    obtain ⟨trees, derived', properties⟩ := more_derived others tail
    exact ⟨tree :: trees, .some derived derived', .cons property properties⟩

theorem brackets_forms {rule : Rule} {opening closing : Char} {Q : Tree → Prop}
    (shape : Brackets rule opening element closing)
    (each : ∀ item ∈ items, Forms element (spelling item) (P item))
    (made : ∀ (first : Token) (trees : List Tree), first.kind = .ofChar opening →
      List.Forall₂ P items trees → (∀ tree ∈ trees, tree.IsProduction) →
        Q (.production rule.name (.token first :: trees))) :
    Forms rule (.char opening :: (commaSeparated (items.map spelling) ++ [.char closing])) Q := by
  intro tokens spelled
  obtain ⟨first, tokens, rfl, front, behind⟩ := List.map_eq_cons_iff.mp spelled
  obtain ⟨inner, tokens, rfl, content, ending⟩ := List.map_eq_append_iff.mp behind
  obtain ⟨last, rfl, back⟩ := List.map_eq_singleton_iff.mp ending
  obtain ⟨trees, derived, properties⟩ := items_derived each content
  have opens : first.kind = .ofChar opening := congrArg Spelling.kind front
  have closes : last.kind = .ofChar closing := congrArg Spelling.kind back
  exact ⟨_, .brackets shape opens derived closes,
    made first trees opens properties derived.isProduction⟩

end Items

namespace Value

/-! ## Values -/

theorem elementSpellings_eq (elements : List Value) :
    elementSpellings elements = elements.map spellings := by
  induction elements with
  | nil => rfl
  | cons value rest ih => rw [elementSpellings, ih, List.map_cons]

/-- The lexemes of a member. -/
def memberSpelling (member : String × Value) : List Spelling :=
  .quoted member.1 :: .char ':' :: member.2.spellings

theorem memberSpellings_eq (members : List (String × Value)) :
    memberSpellings members = members.map memberSpelling := by
  induction members with
  | nil => rfl
  | cons member rest ih => rw [memberSpellings, ih, List.map_cons, memberSpelling]

/-- A plain text is read back from between its quotes. -/
theorem literal_quoted {token : Token} {text : String} (plain : Quoted.IsPlainText text)
    (quoted : token.text = (Spelling.quoted text).text) :
    literal Literal.string [.token token] = .ok text := by
  rw [literal, quoted, Spelling.quoted, Literal.string_quoted, Quoted.encode_plain plain]
  rfl

/-- What an alternative denotes is denoted by a value. -/
theorem alternative_forms {rule : Rule} {value : Value} {spellings : List Spelling}
    (mem : rule ∈ Rule.alternatives) (h : Forms rule spellings value.Denoted) :
    Forms .value spellings value.Denoted := by
  intro tokens spelled
  obtain ⟨tree, derived, denoted⟩ := h spelled
  exact ⟨_, .value mem derived, (ofTree_value derived.head_isProduction).trans denoted⟩

theorem member_forms {member : String × Value} (plain : Quoted.IsPlainText member.1)
    (content : Forms .value member.2.spellings member.2.Denoted) :
    Forms .field (memberSpelling member) (DenotedMember member) := by
  intro tokens spelled
  obtain ⟨name, tokens, rfl, named, behind⟩ := List.map_eq_cons_iff.mp spelled
  obtain ⟨colon, tokens, rfl, between, valued⟩ := List.map_eq_cons_iff.mp behind
  obtain ⟨tree, derived, denoted⟩ := content valued
  have key : Derives (.rule .string) [name] _ := .atom .string (congrArg Spelling.kind named)
  have read := literal_quoted plain (congrArg Spelling.text named)
  refine ⟨_, .field key (congrArg Spelling.kind between) derived, ?_⟩
  rw [DenotedMember, Rule.name, memberOf_field, read, denoted]
  rfl

/-- Tokens that are spelled like a value are a word of the grammar, and the tree of the word denotes
the value. -/
theorem forms {value : Value} (sorted : value.Everywhere HasSortedMembers)
    (plain : value.Everywhere HasPlainTexts) : Forms .value value.spellings value.Denoted := by
  induction sorted with
  | @intro value own _ ih =>
    obtain ⟨own', inside⟩ := everywhere_iff.mp plain
    cases value with
    | integer value =>
      refine alternative_forms (by decide) (atom_forms .integer fun token text => ?_)
      simp [Denoted, ofTree, Rule.name, literal, text, Literal.integer_repr, Except.mapError]
    | boolean value =>
      refine alternative_forms (by decide) (atom_forms .boolean fun token text => ?_)
      simp [Denoted, ofTree, Rule.name, literal, text, Literal.boolean_word, Except.mapError]
    | string text =>
      refine alternative_forms (by decide) (atom_forms .string fun token quoted => ?_)
      simp [Denoted, ofTree, Rule.name, literal_quoted own' quoted]
    | array elements =>
      have each : ∀ element ∈ elements, Forms .value element.spellings element.Denoted :=
        fun element mem => ih element mem (inside element mem)
      rw [spellings, elementSpellings_eq]
      refine alternative_forms (by decide) (brackets_forms .list each ?_)
      intro first trees opens denoted productions
      rw [Denoted, Rule.name, ofTree_list opens productions, mapM_eq_ok denoted]
      rfl
    | object members =>
      have each : ∀ member ∈ members,
          Forms .field (memberSpelling member) (DenotedMember member) := by
        intro member mem
        have part : member.2 ∈ (object members).parts := List.mem_map_of_mem mem
        exact member_forms (own' member mem) (ih _ part (inside _ part))
      rw [spellings, memberSpellings_eq]
      refine alternative_forms (by decide) (brackets_forms .dict each ?_)
      intro first trees _ denoted productions
      have same : NamedEntries.insertAll [] members = members :=
        NamedEntries.insertAll_of_sorted own
      rw [Denoted, Rule.name, ofTree_dict productions, mapM_eq_ok denoted]
      exact congrArg (Except.ok ∘ object) same

end Value

end Descent.Json

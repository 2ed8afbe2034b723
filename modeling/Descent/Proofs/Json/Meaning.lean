import Descent.Proofs.Json.Building
import Descent.Proofs.Json.Lexemes
import Descent.Proofs.Json.Words

/-!
# The meaning of documents

`Means` says which value the tree of a document stands for, apart from how it is built. The trees
of the language are built without surprises: if every integer has a place in 64 bits the outcome is
the value that the tree means, and else it is the error of the first integer that has none.
-/

namespace Descent.Json

open Value (ofTree memberOf)

/-! ## Values of trees -/

mutual

/-- The value that a tree stands for. The text of a string is what stands between its quotes, and
of several fields with one key the last one counts. -/
inductive Means : Tree → Value → Prop where
  | integer {token value} (exact : value.toInt = Literal.decimal token.text.toList) :
      Means (.production "IntLiteral" [.token token]) (.integer value)
  | string {token text} (quoted : token.text = "\"" ++ text ++ "\"") :
      Means (.production "StringLiteral" [.token token]) (.string text)
  | boolean {token} {value : Bool} (word : token.text = if value then "true" else "false") :
      Means (.production "BooleanLiteral" [.token token]) (.boolean value)
  | array {opening elements values} (each : List.Forall₂ Means elements values) :
      Means (.production "List" (.token opening :: elements)) (.array values)
  | object {opening fields entries members} (each : List.Forall₂ MeansMember fields entries)
      (sorted : NamedEntries.Sorted members)
      (last : ∀ key, NamedEntries.find? key members = NamedEntries.find? key entries.reverse) :
      Means (.production "Dict" (.token opening :: fields)) (.object members)
  | value {tree value} (content : Means tree value) : Means (.production "Value" [tree]) value

/-- The key and the value that a field stands for. -/
inductive MeansMember : Tree → String × Value → Prop where
  | field {token key colon tree value} (quoted : token.text = "\"" ++ key ++ "\"")
      (content : Means tree value) :
      MeansMember (.production "Field" [.labeled "key" (.production "StringLiteral" [.token token]),
        .token colon, .labeled "value" tree]) (key, value)

end

/-- How the trees of a rule are built: those of fields as members, all others as values. -/
def Rule.Built : Rule → Type
  | field => String × Value
  | _ => Value

def Rule.build : (rule : Rule) → Tree → Except BuildError rule.Built
  | integer | string | boolean | list | dict | value => ofTree
  | field => memberOf

/-- What the trees of a rule stand for. -/
def Rule.Means : (rule : Rule) → Tree → rule.Built → Prop
  | integer | string | boolean | list | dict | value => Json.Means
  | field => MeansMember

/-! ## Outcomes -/

theorem ofChar_ne_integerKind (c : Char) : TokenKind.ofChar c ≠ integerKind := by
  intro same
  have tags := congrArg (String.toList ∘ TokenKind.tag) same
  simp [TokenKind.ofChar, integerKind, Char.toString] at tags

/-- The token is an integer that has no place in 64 bits. -/
def OutOfRange (token : Token) : Prop :=
  token.kind = integerKind ∧ ¬ Literal.InRange (Literal.decimal token.text.toList)

instance : DecidablePred OutOfRange := fun _ => inferInstanceAs (Decidable (_ ∧ _))

/-- The error of an integer that has no place in 64 bits. -/
def rangeError (token : Token) : BuildError :=
  .malformedLiteral token (if Literal.decimal token.text.toList < 0 then .tooSmall else .tooLarge)

/-- What is built of a word is as it should be, or it is the error of the first integer in the word
that has no place in 64 bits. -/
def Outcome {α : Type} (word : List Token) (P : α → Prop) (built : Except BuildError α) : Prop :=
  match word.find? fun token => OutOfRange token with
  | none => ∃ result, built = .ok result ∧ P result
  | some token => built = .error (rangeError token)

namespace Outcome

variable {α β γ : Type} {word word' : List Token} {P : α → Prop} {Q : β → Prop} {R : γ → Prop}
variable {built : Except BuildError α} {built' : Except BuildError β}

theorem map {f : α → β} (h : Outcome word P built) (keeps : ∀ result, P result → Q (f result)) :
    Outcome word Q (f <$> built) := by
  unfold Outcome at h ⊢
  split at h
  · obtain ⟨result, rfl, holds⟩ := h
    exact ⟨f result, rfl, keeps result holds⟩
  · rw [h]
    rfl

/-- Of two words that are built one after the other, the first decides if it has an integer that is
out of range. -/
theorem both {f : α → β → γ} (h : Outcome word P built) (h' : Outcome word' Q built')
    (keeps : ∀ first second, P first → Q second → R (f first second)) :
    Outcome (word ++ word') R (do return f (← built) (← built')) := by
  unfold Outcome at h h' ⊢
  rw [List.find?_append]
  cases found : word.find? fun token => OutOfRange token with
  | none =>
    simp only [found] at h
    obtain ⟨first, rfl, holds⟩ := h
    cases found' : word'.find? fun token => OutOfRange token with
    | none =>
      simp only [found'] at h'
      obtain ⟨second, rfl, holds'⟩ := h'
      exact ⟨f first second, rfl, keeps first second holds holds'⟩
    | some token =>
      simp only [found'] at h'
      rw [h']
      rfl
  | some token =>
    simp only [found] at h
    rw [h]
    rfl

theorem imp {Q : α → Prop} (h : Outcome word P built) (keeps : ∀ result, P result → Q result) :
    Outcome word Q built := by
  have same := h.map (f := id) keeps
  rwa [id_map] at same

/-- Tokens of other kinds do not matter. -/
theorem skip {token : Token} {kind : TokenKind} (found : token.kind = kind)
    (other : kind ≠ integerKind) : Outcome (token :: word) P built ↔ Outcome word P built := by
  have within : ¬ OutOfRange token := fun outside => other (found.symm.trans outside.1)
  rw [Outcome, List.find?_cons_of_neg (by simpa using within), Outcome]

theorem skip_last {token : Token} {kind : TokenKind} (found : token.kind = kind)
    (other : kind ≠ integerKind) :
    Outcome (word ++ [token]) P built ↔ Outcome word P built := by
  have within : ¬ OutOfRange token := fun outside => other (found.symm.trans outside.1)
  have behind : [token].find? (fun token => OutOfRange token) = none :=
    List.find?_cons_of_neg (by simpa using within)
  rw [Outcome, List.find?_append, behind, Option.or_none, Outcome]

/-- There is either a result or a first integer that is out of range. -/
theorem cases (h : Outcome word P built) :
    (∃ result, built = .ok result ∧ P result ∧ ∀ token ∈ word, ¬ OutOfRange token) ∨
    ∃ token ∈ word, OutOfRange token ∧ word.find? (fun token => OutOfRange token) = some token ∧
      built = .error (rangeError token) := by
  unfold Outcome at h
  split at h
  next found =>
    obtain ⟨result, same, holds⟩ := h
    exact .inl ⟨result, same, holds, by simpa using found⟩
  next token found =>
    have outside : OutOfRange token := by simpa using List.find?_some found
    exact .inr ⟨token, List.mem_of_find?_eq_some found, outside, found, h⟩

theorem nil : Outcome [] P built ↔ ∃ result, built = .ok result ∧ P result := Iff.rfl

end Outcome

/-! ## Words -/

/-- What is built of the trees of a phrase. -/
def BuildsWell : Phrase → List Token → List Tree → Prop
  | .rule rule, word, trees => ∀ tree ∈ trees, Outcome word (rule.Means tree) (rule.build tree)
  | .items element, word, trees =>
    Outcome word (List.Forall₂ element.Means trees) (trees.mapM element.build)
  | .more element, word, trees =>
    Outcome word (List.Forall₂ element.Means trees) (trees.mapM element.build)

section Rules

variable {token : Token} {word : List Token} {trees : List Tree}

theorem integer_outcome (kind : token.kind = integerKind) (lexical : IsLexical token.spelling) :
    Outcome [token] (Means (.production "IntLiteral" [.token token]))
      (ofTree (.production "IntLiteral" [.token token])) := by
  have spelled := Literal.integer_eq (lexical.integer kind)
  rw [String.ofList_toList] at spelled
  have built : ofTree (.production "IntLiteral" [.token token]) =
      .integer <$> (Literal.integer token.text).mapError (.malformedLiteral token) := by
    simp [ofTree, Rule.name, Value.literal]
  rw [built, spelled]
  by_cases range : Literal.InRange (Literal.decimal token.text.toList)
  · have within : ¬ OutOfRange token := fun outside => outside.2 range
    rw [if_pos range, Outcome, List.find?_cons_of_neg (by simpa using within)]
    exact ⟨_, rfl, .integer (Literal.toInt_ofInt range)⟩
  · have outside : OutOfRange token := ⟨kind, range⟩
    rw [if_neg range, Outcome, List.find?_cons_of_pos (by simpa using outside)]
    rfl

/-- What stands between the quotes of a string is read. -/
theorem string_read (kind : token.kind = stringKind) (lexical : IsLexical token.spelling) :
    ∃ text, token.text = "\"" ++ text ++ "\"" ∧
      Value.literal Literal.string [.token token] = .ok text := by
  obtain ⟨text, quoted⟩ := lexical.string kind
  refine ⟨text, quoted, ?_⟩
  rw [Value.literal, quoted, Literal.string_quoted]
  rfl

theorem string_outcome (kind : token.kind = stringKind) (lexical : IsLexical token.spelling) :
    Outcome [token] (Means (.production "StringLiteral" [.token token]))
      (ofTree (.production "StringLiteral" [.token token])) := by
  obtain ⟨text, quoted, read⟩ := string_read kind lexical
  have built : ofTree (.production "StringLiteral" [.token token]) = .ok (.string text) := by
    simp [ofTree, Rule.name, read]
  exact (Outcome.skip kind (by decide)).mpr ⟨_, built, .string quoted⟩

theorem boolean_outcome (kind : token.kind = booleanKind) (lexical : IsLexical token.spelling) :
    Outcome [token] (Means (.production "BooleanLiteral" [.token token]))
      (ofTree (.production "BooleanLiteral" [.token token])) := by
  obtain ⟨value, word⟩ := lexical.boolean kind
  have built : ofTree (.production "BooleanLiteral" [.token token]) = .ok (.boolean value) := by
    simp [ofTree, Rule.name, Value.literal, word, Literal.boolean_word, Except.mapError]
  exact (Outcome.skip kind (by decide)).mpr ⟨_, built, .boolean word⟩

theorem atom_outcome {rule : Rule} {kind : TokenKind} (shape : Atom rule kind)
    (found : token.kind = kind) (lexical : IsLexical token.spelling) :
    Outcome [token] (rule.Means (.production rule.name [.token token]))
      (rule.build (.production rule.name [.token token])) := by
  cases shape with
  | integer => exact integer_outcome found lexical
  | string => exact string_outcome found lexical
  | boolean => exact boolean_outcome found lexical

theorem list_outcome (opens : token.kind = .ofChar '[')
    (productions : ∀ tree ∈ trees, tree.IsProduction)
    (inner : Outcome word (List.Forall₂ Means trees) (trees.mapM ofTree)) :
    Outcome word (Means (.production "List" (.token token :: trees)))
      (ofTree (.production "List" (.token token :: trees))) := by
  rw [Value.ofTree_list opens productions]
  exact inner.map fun _ each => .array each

theorem dict_outcome (productions : ∀ tree ∈ trees, tree.IsProduction)
    (inner : Outcome word (List.Forall₂ MeansMember trees) (trees.mapM memberOf)) :
    Outcome word (Means (.production "Dict" (.token token :: trees)))
      (ofTree (.production "Dict" (.token token :: trees))) := by
  rw [Value.ofTree_dict productions]
  refine inner.map fun members each => ?_
  exact .object each (NamedEntries.Sorted.insertAll .nil) fun key => by
    rw [NamedEntries.find?_insertAll, NamedEntries.find?, Option.or_none]

theorem field_outcome {colon : Token} {tree : Tree} (kind : token.kind = stringKind)
    (lexical : IsLexical token.spelling) (inner : Outcome word (Means tree) (ofTree tree)) :
    Outcome word
      (MeansMember (.production "Field" [.labeled "key" (.production "StringLiteral" [.token token]),
        .token colon, .labeled "value" tree]))
      (memberOf (.production "Field" [.labeled "key" (.production "StringLiteral" [.token token]),
        .token colon, .labeled "value" tree])) := by
  obtain ⟨key, quoted, read⟩ := string_read kind lexical
  rw [Value.memberOf_field, read]
  exact inner.map (f := (key, ·)) fun _ content => .field quoted content

theorem value_outcome {alternative : Rule} {tree : Tree} (mem : alternative ∈ Rule.alternatives)
    (production : tree.IsProduction)
    (inner : Outcome word (alternative.Means tree) (alternative.build tree)) :
    Outcome word (Means (.production "Value" [tree])) (ofTree (.production "Value" [tree])) := by
  have content : Outcome word (Means tree) (ofTree tree) := by
    cases alternative with
    | field => exact absurd mem (by decide)
    | _ => exact inner
  rw [Value.ofTree_value production]
  exact content.imp fun _ means => .value means

theorem cons_outcome {element : Rule} {tree : Tree} {word' : List Token}
    (first : Outcome word (element.Means tree) (element.build tree))
    (rest : Outcome word' (List.Forall₂ element.Means trees) (trees.mapM element.build)) :
    Outcome (word ++ word') (List.Forall₂ element.Means (tree :: trees))
      ((tree :: trees).mapM element.build) := by
  rw [List.mapM_cons]
  exact first.both rest fun _ _ head tail => List.Forall₂.cons head tail

end Rules

/-- The key of a field is a single token. -/
theorem Derives.key {word : List Token} {tree : Tree} (h : Derives (.rule .string) word [tree]) :
    ∃ token, word = [token] ∧ token.kind = stringKind ∧
      tree = .production "StringLiteral" [.token token] := by
  cases h with
  | atom shape found =>
    cases shape
    exact ⟨_, rfl, found, rfl⟩
  | brackets shape => cases shape

theorem Derives.buildsWell {phrase : Phrase} {word : List Token} {trees : List Tree}
    (h : Derives phrase word trees) (lexical : ∀ token ∈ word, IsLexical token.spelling) :
    BuildsWell phrase word trees := by
  induction h with
  | @atom rule kind token shape found =>
    exact List.forall_mem_singleton.mpr (atom_outcome shape found (lexical token List.mem_cons_self))
  | @brackets rule opening element closing first last word entries shape opens content closes ih =>
    obtain ⟨-, rest⟩ := List.forall_mem_cons.mp lexical
    have inner := ih (List.forall_mem_append.mp rest).1
    refine List.forall_mem_singleton.mpr ((Outcome.skip opens (ofChar_ne_integerKind _)).mpr
      ((Outcome.skip_last closes (ofChar_ne_integerKind _)).mpr ?_))
    cases shape with
    | list => exact list_outcome opens content.isProduction inner
    | dict => exact dict_outcome content.isProduction inner
  | @field word word' colon key value name between _ _ ih =>
    obtain ⟨token, rfl, kind, rfl⟩ := name.key
    obtain ⟨first, behind⟩ := List.forall_mem_cons.mp lexical
    obtain ⟨-, rest⟩ := List.forall_mem_cons.mp behind
    have inner := ih rest value List.mem_cons_self
    exact List.forall_mem_singleton.mpr ((Outcome.skip kind (by decide)).mpr
      ((Outcome.skip between (ofChar_ne_integerKind _)).mpr (field_outcome kind first inner)))
  | @value alternative word tree mem content ih =>
    have inner := ih lexical tree List.mem_cons_self
    exact List.forall_mem_singleton.mpr (value_outcome mem content.head_isProduction inner)
  | none => exact Outcome.nil.mpr ⟨[], rfl, .nil⟩
  | last => exact Outcome.nil.mpr ⟨[], rfl, .nil⟩
  | trailing between =>
    exact (Outcome.skip between (ofChar_ne_integerKind _)).mpr ⟨[], rfl, .nil⟩
  | @some element word word' tree entries _ _ first rest =>
    obtain ⟨front, back⟩ := List.forall_mem_append.mp lexical
    exact cons_outcome (first front tree List.mem_cons_self) (rest back)
  | @next element comma word word' tree entries between _ _ first rest =>
    obtain ⟨-, behind⟩ := List.forall_mem_cons.mp lexical
    obtain ⟨front, back⟩ := List.forall_mem_append.mp behind
    have each := cons_outcome (first front tree List.mem_cons_self) (rest back)
    exact (Outcome.skip between (ofChar_ne_integerKind _)).mpr each

/-! ## Documents -/

/-- Building a document fails only on an integer that is out of range. Every source that has tokens
is parsed, and if the parse does not fail, the source begins with a word of the language whose tree
the parse gives. Building never meets a node that it does not expect. It gives a value if and only if
every integer of the word has a place in 64 bits, and else the error of the first that has none; the
value is the one that the tree means. -/
theorem value_of_document {source file : String} {stream : TokenStream}
    (tokens : tokensOf source file = .ok stream) :
    ∃ parsed, parse source file = .ok parsed ∧ (parsed.tree ≠ .failed →
      ∃ word, word <+: stream.toList ∧ Derives (.rule .value) word [parsed.tree] ∧
        (∀ wanted found, parsed.value ≠ .error (.unexpectedNode wanted found)) ∧
        ((∃ value, parsed.value = .ok value) ↔ ∀ token ∈ word, ¬ OutOfRange token) ∧
        (∀ token, word.find? (fun token => OutOfRange token) = some token →
          parsed.value = .error (rangeError token)) ∧
        ∀ value, parsed.value = .ok value → Means parsed.tree value) := by
  obtain ⟨scans, ended⟩ := scans_of_tokenize (tokensOf_eq_ok.mp tokens)
  obtain ⟨result, answer, -⟩ := exists_parseFrom ended .value (.start stream.tokenAt) rfl
  refine ⟨_, parse_eq_ok.mpr ⟨stream, result, tokens, answer, rfl⟩, fun success => ?_⟩
  have value_eq : (Parsed.mk result.tree result.state.log.toList).value = ofTree result.tree := rfl
  obtain ⟨word, begins, derived⟩ := word_of_parse ended answer success
  have lexical : ∀ token ∈ word, IsLexical token.spelling := by
    intro token mem
    exact scans.isLexical _ (List.mem_map_of_mem (begins.subset mem))
  have outcome : Outcome word (Means result.tree) (ofTree result.tree) :=
    derived.buildsWell lexical _ List.mem_cons_self
  rw [value_eq]
  refine ⟨word, begins, derived, ?_⟩
  obtain ⟨value, built, means, within⟩ | ⟨token, mem, outside, found, built⟩ := outcome.cases
  · have missing : word.find? (fun token => OutOfRange token) = none := by simpa using within
    rw [built, missing]
    refine ⟨by simp, ⟨fun _ => within, fun _ => ⟨value, rfl⟩⟩, by simp, ?_⟩
    rintro _ ⟨⟩
    exact means
  · have outOfRange : ¬ ∀ token ∈ word, ¬ OutOfRange token :=
      fun within => within token mem outside
    rw [built, found]
    refine ⟨by simp [rangeError], by simp [outOfRange], ?_, by simp⟩
    rintro _ ⟨⟩
    rfl

/-- Zeros of all kinds, a key twice, an integer too large, one too small, and a bracket too many. -/
def overflow : String :=
  "[-0, \x7b\"k\": 1, \"k\": 007, \"l\": 9223372036854775808\x7d, -9223372036854775809] ]"

theorem value_of_document_overflow :
    ∃ stream parsed, (tokensOf overflow "overflow.json" = .ok stream ∧
      parse overflow "overflow.json" = .ok parsed ∧ parsed.tree ≠ .failed) ∧
      ∃ word, word <+: stream.toList ∧ Derives (.rule .value) word [parsed.tree] ∧
        (∀ wanted found, parsed.value ≠ .error (.unexpectedNode wanted found)) ∧
        ((∃ value, parsed.value = .ok value) ↔ ∀ token ∈ word, ¬ OutOfRange token) ∧
        (∀ token, word.find? (fun token => OutOfRange token) = some token →
          parsed.value = .error (rangeError token)) ∧
        ∀ value, parsed.value = .ok value → Means parsed.tree value := by
  have checked : (parse overflow "overflow.json").toOption.any (!·.tree.isFailed) = true := by
    decide +kernel
  cases tokens : tokensOf overflow "overflow.json" with
  | error => simp [parse, tokens, bind, Except.bind, Except.toOption] at checked
  | ok stream =>
    obtain ⟨parsed, parses, values⟩ := value_of_document tokens
    have success : parsed.tree ≠ .failed := by
      intro failed
      simp [parses, Except.toOption, failed, Tree.isFailed] at checked
    exact ⟨stream, parsed, ⟨rfl, parses, success⟩, values success⟩

end Descent.Json

import Descent.Parser.Run

/-!
# Features of expressions

Some laws hold only where certain combinators are absent. An expression uses a feature if it has
it itself or if one of its parts does, also through the bodies of the rules that it can reach.
Rules that it cannot reach do not matter, nor do rules without a body.

`mentions` looks for a feature in the text of an expression. What neither the expression nor any
rule of the grammar mentions is not used.
-/

namespace Descent

/-- The combinators that some laws have to exclude. -/
inductive Feature where
  /-- A step or a recovery in the words of the grammar's author. -/
  | custom
  /-- Looking at tokens without consuming them. -/
  | lookahead
  /-- Lists, whose delimiters and terminator are consumed but leave no trace in the tree. -/
  | separation
  /-- Going on behind a failure. -/
  | resynchronisation
deriving DecidableEq, Repr

namespace Parser

/-- The expressions that an expression is made of. -/
def parts : Parser → List Parser
  | token _ => []
  | sequence parts => parts
  | choice alternatives => alternatives
  | lookahead body => [body]
  | recover _ body => [body]
  | many body => [body]
  | many1 body => [body]
  | separated _ element delimiter => [element, delimiter]
  | terminated body terminator => [body, terminator]
  | production _ body => [body]
  | labeled _ body => [body]
  | rule _ => []
  | custom _ => []

/-- The feature of an expression by itself. -/
def feature? : Parser → Option Feature
  | lookahead _ => some .lookahead
  | recover (.skipPast _) _ => some .resynchronisation
  | recover (.custom ..) _ => some .custom
  | separated .. => some .separation
  | terminated .. => some .separation
  | custom _ => some .custom
  | _ => none

/-- An expression uses a feature, itself or in what it can reach. -/
inductive Uses (table : RuleTable) (feature : Feature) : Parser → Prop where
  | here {parser} (own : parser.feature? = some feature) : Uses table feature parser
  | part {parser part} (mem : part ∈ parser.parts) (use : Uses table feature part) :
      Uses table feature parser
  | body {id body} (bound : (table.rule id).body = some body) (use : Uses table feature body) :
      Uses table feature (.rule id)

/-- An expression does without a feature. -/
def Lacks (table : RuleTable) (feature : Feature) (parser : Parser) : Prop :=
  ¬ parser.Uses table feature

variable {table : RuleTable} {feature : Feature}

theorem Lacks.own {parser : Parser} (h : parser.Lacks table feature) :
    parser.feature? ≠ some feature := fun own => h (.here own)

theorem Lacks.part {parser part : Parser} (h : parser.Lacks table feature)
    (mem : part ∈ parser.parts) : part.Lacks table feature := fun use => h (.part mem use)

theorem Lacks.first {parser part : Parser} {rest : List Parser} (h : parser.Lacks table feature)
    (parts : parser.parts = part :: rest) : part.Lacks table feature :=
  h.part (parts ▸ List.mem_cons_self)

theorem Lacks.second {parser first part : Parser} {rest : List Parser}
    (h : parser.Lacks table feature) (parts : parser.parts = first :: part :: rest) :
    part.Lacks table feature :=
  h.part (parts ▸ List.mem_cons_of_mem _ List.mem_cons_self)

theorem Lacks.body {id : RuleId} {body : Parser} (h : (rule id).Lacks table feature)
    (bound : (table.rule id).body = some body) : body.Lacks table feature :=
  fun use => h (.body bound use)

/-- An expression other than a rule lacks what neither it nor a part of it has. -/
theorem lacks_of_parts {parser : Parser} (notRule : ∀ id, parser ≠ rule id)
    (own : parser.feature? ≠ some feature)
    (parts : ∀ part ∈ parser.parts, part.Lacks table feature) :
    parser.Lacks table feature := by
  intro use
  cases use with
  | here found => exact own found
  | part mem use => exact parts _ mem use
  | body => exact notRule _ rfl

/-- A sequence lacks a feature if its first part and the others do. -/
theorem lacks_sequence_cons {part : Parser} {rest : List Parser} :
    (sequence (part :: rest)).Lacks table feature ↔
      part.Lacks table feature ∧ (sequence rest).Lacks table feature := by
  constructor
  · intro h
    refine ⟨h.part List.mem_cons_self, lacks_of_parts (by simp) (by simp [feature?]) ?_⟩
    intro part mem
    exact h.part (List.mem_cons_of_mem _ mem)
  · rintro ⟨first, others⟩
    refine lacks_of_parts (by simp) (by simp [feature?]) (List.forall_mem_cons.mpr ⟨first, ?_⟩)
    intro part mem
    exact others.part mem

/-- A choice lacks what none of its alternatives has, whether they are refused or not. -/
theorem Lacks.refused {alternatives : List Parser} {refused : List (Parser × State)}
    {attempt : Parser × State}
    (h : (choice (refused.map Prod.fst ++ alternatives)).Lacks table feature)
    (mem : attempt ∈ refused) : attempt.1.Lacks table feature :=
  h.part (List.mem_append_left _ (List.mem_map_of_mem mem))

theorem Lacks.chosen {part : Parser} {before rest : List Parser}
    (h : (choice (before ++ part :: rest)).Lacks table feature) : part.Lacks table feature :=
  h.part List.mem_append_cons_self

/-- The rounds of `many1` after the first one are those of `many`. -/
theorem Lacks.many {body : Parser} (h : (many1 body).Lacks table feature) :
    (Parser.many body).Lacks table feature :=
  lacks_of_parts (by simp) (by simp [feature?]) fun _ mem => h.part mem

/-- What a list lacks does not depend on whether it may be empty. -/
theorem Lacks.separated {required : Bool} {element delimiter : Parser}
    (h : (separated required element delimiter).Lacks table feature) :
    (Parser.separated false element delimiter).Lacks table feature :=
  lacks_of_parts (by simp) h.own fun _ mem => h.part mem

/-! ## Several features -/

/-- An expression does without every feature of a class. -/
def Avoids (table : RuleTable) (forbidden : Feature → Prop) (parser : Parser) : Prop :=
  ∀ ⦃feature⦄, forbidden feature → parser.Lacks table feature

namespace Avoids

variable {forbidden : Feature → Prop}

theorem own {parser : Parser} (h : parser.Avoids table forbidden)
    (own : parser.feature? = some feature) : ¬ forbidden feature := fun no => (h no).own own

theorem first {parser part : Parser} {rest : List Parser} (h : parser.Avoids table forbidden)
    (parts : parser.parts = part :: rest) : part.Avoids table forbidden :=
  fun _ no => (h no).first parts

theorem second {parser first part : Parser} {rest : List Parser}
    (h : parser.Avoids table forbidden) (parts : parser.parts = first :: part :: rest) :
    part.Avoids table forbidden :=
  fun _ no => (h no).second parts

theorem rest {part : Parser} {rest : List Parser}
    (h : (sequence (part :: rest)).Avoids table forbidden) :
    (sequence rest).Avoids table forbidden :=
  fun _ no => (lacks_sequence_cons.mp (h no)).2

theorem chosen {part : Parser} {before rest : List Parser}
    (h : (choice (before ++ part :: rest)).Avoids table forbidden) :
    part.Avoids table forbidden :=
  fun _ no => (h no).chosen

theorem many {body : Parser} (h : (many1 body).Avoids table forbidden) :
    (Parser.many body).Avoids table forbidden :=
  fun _ no => (h no).many

theorem separated {required : Bool} {element delimiter : Parser}
    (h : (separated required element delimiter).Avoids table forbidden) :
    (Parser.separated false element delimiter).Avoids table forbidden :=
  fun _ no => (h no).separated

theorem body {id : RuleId} {body : Parser} (h : (rule id).Avoids table forbidden)
    (bound : (table.rule id).body = some body) : body.Avoids table forbidden :=
  fun _ no => (h no).body bound

end Avoids

/-! ## Reach -/

/-- The expressions that a run of an expression can come to: parts of it, and through rules. -/
inductive Reaches (table : RuleTable) : Parser → Parser → Prop where
  | self {parser} : Reaches table parser parser
  | part {parser part target} (mem : part ∈ parser.parts) (further : Reaches table part target) :
      Reaches table parser target
  | body {id body target} (bound : (table.rule id).body = some body)
      (further : Reaches table body target) : Reaches table (.rule id) target

/-- What an expression does without is missing in everything that it reaches. -/
theorem Lacks.reached {parser target : Parser} (h : parser.Lacks table feature)
    (reaches : parser.Reaches table target) : target.Lacks table feature := by
  induction reaches with
  | self => exact h
  | part mem _ ih => exact ih (h.part mem)
  | body bound _ ih => exact ih (h.body bound)

/-- A feature is used where it is reached. -/
theorem uses_iff_reaches {parser : Parser} :
    parser.Uses table feature ↔
      ∃ target, parser.Reaches table target ∧ target.feature? = some feature := by
  constructor
  · intro use
    induction use with
    | here own => exact ⟨_, .self, own⟩
    | part mem _ ih =>
      obtain ⟨target, reaches, own⟩ := ih
      exact ⟨target, .part mem reaches, own⟩
    | body bound _ ih =>
      obtain ⟨target, reaches, own⟩ := ih
      exact ⟨target, .body bound reaches, own⟩
  · rintro ⟨target, reaches, own⟩
    induction reaches with
    | self => exact .here own
    | part mem _ ih => exact .part mem (ih own)
    | body bound _ ih => exact .body bound (ih own)

/-- An expression contains the expressions in its own text: what it reaches if no rule has a
body. -/
def Contains (parser target : Parser) : Prop := parser.Reaches .empty target

theorem Contains.part {parser part target : Parser} (mem : part ∈ parser.parts)
    (within : part.Contains target) : parser.Contains target :=
  Reaches.part mem within

theorem Contains.reaches {parser target : Parser} (h : parser.Contains target) :
    parser.Reaches table target := by
  induction h with
  | self => exact .self
  | part mem _ ih => exact .part mem ih
  | body bound => cases bound

/-! ## Checking a grammar -/

mutual

/-- Whether a feature occurs in the text of an expression. Rules are not followed. -/
def mentions (feature : Feature) : Parser → Bool
  | token _ => false
  | sequence parts => mentionsAny feature parts
  | choice alternatives => mentionsAny feature alternatives
  | lookahead body => feature = .lookahead || body.mentions feature
  | recover (.skipPast _) body => feature = .resynchronisation || body.mentions feature
  | recover (.custom ..) body => feature = .custom || body.mentions feature
  | recover .fail body => body.mentions feature
  | recover .backtrack body => body.mentions feature
  | many body => body.mentions feature
  | many1 body => body.mentions feature
  | separated _ element delimiter =>
    feature = .separation || element.mentions feature || delimiter.mentions feature
  | terminated body terminator =>
    feature = .separation || body.mentions feature || terminator.mentions feature
  | production _ body => body.mentions feature
  | labeled _ body => body.mentions feature
  | rule _ => false
  | custom _ => feature = .custom

def mentionsAny (feature : Feature) : List Parser → Bool
  | [] => false
  | part :: rest => part.mentions feature || mentionsAny feature rest

end

/-- Whether a feature occurs in the text of a rule. -/
def inRules (table : RuleTable) (feature : Feature) : Bool :=
  table.rules.any fun rule => rule.body.any (mentions feature)

theorem mentionsAny_of_mem {parts : List Parser} {part : Parser} (mem : part ∈ parts)
    (found : part.mentions feature = true) : mentionsAny feature parts = true := by
  induction parts with
  | nil => cases mem
  | cons first rest ih =>
    rw [mentionsAny, Bool.or_eq_true]
    rcases List.mem_cons.mp mem with rfl | mem
    · exact .inl found
    · exact .inr (ih mem)

theorem mentions_of_own {parser : Parser} (own : parser.feature? = some feature) :
    parser.mentions feature = true := by
  cases parser with
  | recover recovery =>
    cases recovery with
    | fail | backtrack => cases own
    | skipPast | custom => cases own; simp [mentions]
  | lookahead | separated | terminated | custom => cases own; simp [mentions]
  | _ => cases own

theorem mentions_of_part {parser part : Parser} (mem : part ∈ parser.parts)
    (found : part.mentions feature = true) : parser.mentions feature = true := by
  cases parser with
  | sequence | choice => exact mentionsAny_of_mem mem found
  | recover recovery =>
    obtain rfl := List.mem_singleton.mp mem
    cases recovery <;> simp [mentions, found]
  | separated | terminated =>
    simp only [parts, List.mem_cons, List.not_mem_nil, or_false] at mem
    rcases mem with rfl | rfl <;> simp [mentions, found]
  | lookahead | many | many1 | production | labeled =>
    obtain rfl := List.mem_singleton.mp mem
    simp [mentions, found]
  | token | rule | custom => cases mem

theorem inRules_of_body {id : RuleId} {body : Parser} (bound : (table.rule id).body = some body)
    (found : body.mentions feature = true) : inRules table feature = true := by
  unfold RuleTable.rule at bound
  cases known : table.rules[id]? with
  | none => simp [known] at bound
  | some rule =>
    have mem : rule ∈ table.rules := List.mem_of_getElem? known
    have has : rule.body = some body := by simpa [known] using bound
    exact List.any_eq_true.mpr ⟨rule, mem, by simp [has, found]⟩

/-- In a grammar whose rules do not mention a feature, only the text of an expression counts. -/
theorem lacks_of_not_mentions {parser : Parser} (rules : inRules table feature = false)
    (text : parser.mentions feature = false) : parser.Lacks table feature := by
  intro use
  suffices found : parser.mentions feature = true by
    rw [text] at found
    cases found
  clear text
  induction use with
  | here own => exact mentions_of_own own
  | part mem _ ih => exact mentions_of_part mem ih
  | body bound _ ih =>
    have found := inRules_of_body bound ih
    rw [rules] at found
    cases found

mutual

/-- Whether something in the text of an expression passes a check. -/
def textHas (check : Parser → Bool) : Parser → Bool
  | token kind => check (token kind)
  | sequence parts => check (sequence parts) || anyTextHas check parts
  | choice alternatives => check (choice alternatives) || anyTextHas check alternatives
  | lookahead body => check (lookahead body) || body.textHas check
  | recover recovery body => check (recover recovery body) || body.textHas check
  | many body => check (many body) || body.textHas check
  | many1 body => check (many1 body) || body.textHas check
  | separated required element delimiter =>
    check (separated required element delimiter) ||
      (element.textHas check || delimiter.textHas check)
  | terminated body terminator =>
    check (terminated body terminator) || (body.textHas check || terminator.textHas check)
  | production name body => check (production name body) || body.textHas check
  | labeled name body => check (labeled name body) || body.textHas check
  | rule id => check (rule id)
  | custom step => check (custom step)

def anyTextHas (check : Parser → Bool) : List Parser → Bool
  | [] => false
  | part :: rest => part.textHas check || anyTextHas check rest

end

theorem anyTextHas_of_mem {check : Parser → Bool} {parts : List Parser} {part : Parser}
    (mem : part ∈ parts) (found : part.textHas check = true) : anyTextHas check parts = true := by
  induction parts with
  | nil => cases mem
  | cons first rest ih =>
    rw [anyTextHas, Bool.or_eq_true]
    rcases List.mem_cons.mp mem with rfl | mem
    · exact .inl found
    · exact .inr (ih mem)

/-- What an expression contains is found in its text. -/
theorem Contains.textHas {parser target : Parser} (h : parser.Contains target)
    (check : Parser → Bool) (passes : check target = true) : parser.textHas check = true := by
  induction h with
  | @self parser => cases parser <;> simp [Parser.textHas, passes]
  | @part parser part target mem _ ih =>
    have found := ih passes
    cases parser with
    | sequence | choice =>
      have among := anyTextHas_of_mem mem found
      simp only [parts] at among
      rw [Parser.textHas, among, Bool.or_true]
    | separated | terminated =>
      simp only [parts, List.mem_cons, List.not_mem_nil, or_false] at mem
      rcases mem with rfl | rfl <;> simp [Parser.textHas, found]
    | lookahead | recover | many | many1 | production | labeled =>
      obtain rfl := List.mem_singleton.mp mem
      simp [Parser.textHas, found]
    | token | rule | custom => cases mem
  | body bound => cases bound

end Parser

end Descent

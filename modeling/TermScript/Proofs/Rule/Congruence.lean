import TermScript.Reader

/-! Relations between rules that every way to combine rules keeps. Reading decides by the kind and the
text of the next token and by nothing else. So a relation of this sort holds between readings of
whole scripts under two limits as soon as it holds where the smaller one is spent. -/

namespace TermScript

/-- Two tokens that differ at most in where they stand. -/
structure Token.SameWord (token token' : Token) : Prop where
  kind : token.kind = token'.kind
  text : token.text = token'.text

namespace Token.SameWord

variable {token token' : Token}

theorem refl (token : Token) : token.SameWord token :=
  ⟨rfl, rfl⟩

theorem unquoted (same : token.SameWord token') : token.unquoted = token'.unquoted := by
  rw [Token.unquoted, Token.unquoted, same.text]

theorem name (same : token.SameWord token') : token.name = token'.name := by
  rw [Token.name, Token.name, same.kind, same.text, same.unquoted]

end Token.SameWord

namespace Input

def nextKind? (input : Input) : Option Kind :=
  input.peek?.map Token.kind

theorem startsWith_eq_any (input : Input) (kinds : List Kind) :
    input.startsWith kinds = input.nextKind?.any kinds.contains := by
  rw [startsWith, nextKind?, Option.any_map]

private theorem isEmpty_eq_isNone (input : Input) : input.isEmpty = input.nextKind?.isNone := by
  cases input with
  | mk ahead finish => cases ahead <;> rfl

theorem endsAt_eq_or (input : Input) (stops : List Kind) :
    input.endsAt stops = (input.nextKind?.isNone || input.nextKind?.any stops.contains) := by
  rw [endsAt, isEmpty_eq_isNone, startsWith_eq_any]

end Input

namespace Rule

/-- A relation between rules that is kept by every way to combine rules. What is asked of the input
may depend on the next kind only, and how to go on after a token only on its kind and text. -/
structure Congruence (related : ∀ ⦃α : Type⦄, Rule α → Rule α → Prop) : Prop where
  pure {α : Type} (value : α) : related (pure value) (pure value)
  bind {α β : Type} {rule rule' : Rule α} {next next' : α → Rule β} :
    related rule rule' → (∀ value, related (next value) (next' value)) →
      related (rule >>= next) (rule' >>= next')
  note (event : Input → Event) : related (note event) (note event)
  look {α : Type} {question : Input → α} :
    (∀ input input' : Input, input.nextKind? = input'.nextKind? →
      question input = question input') → related (look question) (look question)
  accept (kind : Kind) : related (accept kind) (accept kind)
  expect {α : Type} (kinds : List Kind) {next next' : Token → Rule α} :
    (∀ token token', token.SameWord token' → related (next token) (next' token')) →
      related (expect kinds >>= next) (expect kinds >>= next')
  choose {α : Type} (expected : Expectation) {ruleFor ruleFor' : Token → Option (Rule α)} :
    (∀ token token', token.SameWord token' →
      Option.Rel (related (α := α)) (ruleFor token) (ruleFor' token')) →
      related (choose expected ruleFor) (choose expected ruleFor')
  manyFrom {α : Type} {step step' : Nat → Rule (Option α)} :
    (∀ index, related (step index) (step' index)) → ∀ index,
      related (manyFrom step index) (manyFrom step' index)

/-- A property of rules as a relation that takes no notice of the second rule. -/
def Holding (holds : ∀ ⦃α : Type⦄, Rule α → Prop) ⦃α : Type⦄ (rule _ : Rule α) : Prop :=
  holds rule

theorem exists_of_rel {α : Type} {related : Rule α → Rule α → Prop}
    {choice choice' : Option (Rule α)} (choices : Option.Rel related choice choice')
    {rule : Rule α} (found : choice = some rule) :
    ∃ rule', choice' = some rule' ∧ related rule rule' := by
  cases choices with
  | some rules =>
      cases found
      exact ⟨_, rfl, rules⟩
  | none => cases found

namespace Congruence

variable {related : ∀ ⦃α : Type⦄, Rule α → Rule α → Prop} (congruence : Congruence related)
  {α : Type} {element element' : Rule α}

include congruence

theorem map {β : Type} (change : α → β) (elements : related element element') :
    related (change <$> element) (change <$> element') := by
  rw [map_eq_pure_bind, map_eq_pure_bind]
  exact congruence.bind elements fun value => congruence.pure (change value)

theorem startsWith (kinds : List Kind) :
    related (Rule.look (·.startsWith kinds)) (Rule.look (·.startsWith kinds)) :=
  congruence.look fun _ _ same => by simp only [Input.startsWith_eq_any, same]

theorem isEmpty : related (Rule.look (·.isEmpty)) (Rule.look (·.isEmpty)) :=
  congruence.look fun _ _ same => by simp only [Input.isEmpty_eq_isNone, same]

theorem endsAt (stops : List Kind) :
    related (Rule.look (·.endsAt stops)) (Rule.look (·.endsAt stops)) :=
  congruence.look fun _ _ same => by simp only [Input.endsAt_eq_or, same]

theorem closed (close : Kind) (elements : related element element') :
    related (do let value ← element; let _ ← Rule.expect [close]; return value)
      (do let value ← element'; let _ ← Rule.expect [close]; return value) :=
  congruence.bind elements fun value =>
    congruence.expect [close] fun _ _ _ => congruence.pure value

theorem nextInList (stops : List Kind) (elements : related element element') :
    related (nextInList stops element) (nextInList stops element') := by
  refine congruence.bind (congruence.endsAt stops) fun ended => ?_
  cases ended with
  | true => exact congruence.pure none
  | false =>
      refine congruence.expect _ fun _ _ _ => ?_
      refine congruence.bind (congruence.endsAt stops) fun ended => ?_
      cases ended with
      | true => exact congruence.pure none
      | false => exact congruence.map some elements

theorem sepByComma (stops : List Kind) (elements : related element element') :
    related (sepByComma stops element) (sepByComma stops element') := by
  refine congruence.bind (congruence.endsAt stops) fun ended => ?_
  cases ended with
  | true => exact congruence.pure []
  | false =>
      refine congruence.bind elements fun first => ?_
      have others := congruence.manyFrom (fun _ => congruence.nextInList stops elements) 0
      exact congruence.bind others fun others => congruence.pure (first :: others)

theorem listUntil (close : Kind) (elements : related element element') :
    related (listUntil close element) (listUntil close element') :=
  congruence.closed close (congruence.sepByComma [close] elements)

theorem arguments? (elements : related element element') :
    related (arguments? element) (arguments? element') := by
  refine congruence.bind (congruence.accept _) fun opened => ?_
  cases opened with
  | true => exact congruence.map some (congruence.listUntil _ elements)
  | false => exact congruence.pure none

theorem nextInChain (elements : related element element') :
    related (nextInChain element) (nextInChain element') := by
  refine congruence.bind (congruence.accept _) fun isColon => ?_
  cases isColon with
  | true => exact congruence.map some elements
  | false => exact congruence.pure none

theorem chain (join : α → α → α) (elements : related element element') :
    related (chain join element) (chain join element') := by
  refine congruence.bind elements fun first => ?_
  have others := congruence.manyFrom (fun _ => congruence.nextInChain elements) 0
  exact congruence.bind others fun others => congruence.pure (joinRight join first others)

section Trees

variable {patterns patterns' : Rule Pattern} {terms terms' : Rule Term}
  (patternsRelated : related patterns patterns') (termsRelated : related terms terms')

include patternsRelated

theorem pattern_ruleFor {token token' : Token} (same : token.SameWord token') :
    Option.Rel (related (α := Pattern)) (Pattern.ruleFor patterns token)
      (Pattern.ruleFor patterns' token') := by
  have trees := congruence.bind (congruence.arguments? patternsRelated) fun children? =>
    congruence.pure (Pattern.tree token.name (children?.getD []))
  unfold Pattern.ruleFor
  rw [← same.kind, ← same.name, ← same.unquoted]
  cases token.kind with
  | underscore => exact .some (congruence.pure _)
  | identifier =>
      refine .some (congruence.bind (congruence.accept _) fun isAt => ?_)
      cases isAt with
      | true => exact congruence.map _ patternsRelated
      | false => exact congruence.pure _
  | atom => exact .some trees
  | quotedAtom => exact .some trees
  | string => exact .some (congruence.pure _)
  | openBracket => exact .some (congruence.map _ (congruence.listUntil _ patternsRelated))
  | openParen => exact .some (congruence.closed _ patternsRelated)
  | _ => exact .none

theorem pattern_element : related (Pattern.element patterns) (Pattern.element patterns') :=
  congruence.bind (congruence.note _) fun _ =>
    congruence.choose _ fun _ _ same => congruence.pattern_ruleFor patternsRelated same

include termsRelated

theorem clause : related (Clause.rule patterns terms) (Clause.rule patterns' terms') :=
  congruence.bind (congruence.listUntil _ patternsRelated) fun _ =>
    congruence.bind termsRelated fun _ => congruence.pure _

theorem term_ruleFor {token token' : Token} (same : token.SameWord token') :
    Option.Rel (related (α := Term)) (Term.ruleFor patterns terms token)
      (Term.ruleFor patterns' terms' token') := by
  have trees := congruence.bind (congruence.arguments? termsRelated) fun children? =>
    congruence.pure (Term.tree token.name (children?.getD []))
  have clauses := congruence.clause patternsRelated termsRelated
  unfold Term.ruleFor
  rw [← same.kind, ← same.name, ← same.unquoted]
  cases token.kind with
  | identifier =>
      refine .some (congruence.bind (congruence.arguments? termsRelated) fun operands? => ?_)
      cases operands? with
      | some operands => exact congruence.pure _
      | none => exact congruence.pure _
  | atom => exact .some trees
  | quotedAtom => exact .some trees
  | string => exact .some (congruence.pure _)
  | openBracket => exact .some (congruence.map _ (congruence.listUntil _ termsRelated))
  | openParen => exact .some (congruence.closed _ termsRelated)
  | matchWord =>
      exact .some (congruence.bind (congruence.note _) fun _ =>
        congruence.bind (congruence.listUntil _ termsRelated) fun _ =>
          congruence.bind (congruence.listUntil _ clauses) fun _ => congruence.pure _)
  | _ => exact .none

theorem term_element :
    related (Term.element patterns terms) (Term.element patterns' terms') :=
  congruence.bind (congruence.note _) fun _ =>
    congruence.choose _ fun _ _ same =>
      congruence.term_ruleFor patternsRelated termsRelated same

end Trees

section Limits

variable {limit : Nat} (extra : Nat)
  (patternsSpent : related (Pattern.within limit 0) (Pattern.within (extra + limit) extra))
  (termsSpent : related (Term.within limit 0) (Term.within (extra + limit) extra))

include patternsSpent

theorem pattern_within (budget : Nat) :
    related (Pattern.within limit budget) (Pattern.within (extra + limit) (extra + budget)) := by
  induction budget with
  | zero => exact patternsSpent
  | succ budget induction => exact congruence.chain _ (congruence.pattern_element induction)

include termsSpent

theorem term_within (budget : Nat) :
    related (Term.within limit budget) (Term.within (extra + limit) (extra + budget)) := by
  induction budget with
  | zero => exact termsSpent
  | succ budget induction =>
      have patterns := congruence.pattern_within extra patternsSpent budget
      exact congruence.chain _ (congruence.term_element patterns induction)

theorem definition_rule :
    related (Definition.rule limit) (Definition.rule (extra + limit)) := by
  have patterns := congruence.pattern_within extra patternsSpent limit
  have terms := congruence.term_within extra patternsSpent termsSpent limit
  refine congruence.expect _ fun _ _ _ => congruence.expect _ fun name name' same => ?_
  rw [same.text]
  exact congruence.bind (congruence.note _) fun _ =>
    congruence.bind (congruence.arguments? patterns) fun _ =>
      congruence.expect _ fun _ _ _ => congruence.bind terms fun _ => congruence.pure _

theorem item_rule : related (Item.rule limit) (Item.rule (extra + limit)) := by
  refine congruence.bind (congruence.note _) fun _ =>
    congruence.bind (congruence.startsWith _) fun isLet => ?_
  cases isLet with
  | true => exact congruence.map _ (congruence.definition_rule extra patternsSpent termsSpent)
  | false => exact congruence.map _ (congruence.term_within extra patternsSpent termsSpent limit)

theorem nextItem (index : Nat) :
    related (Program.nextItem limit index) (Program.nextItem (extra + limit) index) := by
  refine congruence.bind congruence.isEmpty fun ended => ?_
  cases ended with
  | true => exact congruence.pure none
  | false =>
      refine congruence.bind (congruence.item_rule extra patternsSpent termsSpent) fun item => ?_
      exact congruence.expect _ fun _ _ _ =>
        congruence.bind (congruence.note _) fun _ => congruence.pure (some item)

theorem program_rule : related (Program.rule limit) (Program.rule (extra + limit)) :=
  congruence.manyFrom (congruence.nextItem extra patternsSpent termsSpent) 0

end Limits

end Congruence

end Rule

end TermScript

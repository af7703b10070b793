import Mathlib.Data.List.Forall2
import TermScript.Proofs.Rule.Congruence

/-! Two rules that run side by side, on inputs that correspond to each other. If they are put
together in the same way, they stop at the same place, with values that correspond or with faults
that do. -/

namespace TermScript

/-- Values that correspond, or errors that do. -/
inductive Corresponds {α β ε ε' : Type} (values : α → β → Prop) (errors : ε → ε' → Prop) :
    Except ε α → Except ε' β → Prop
  | ok {value : α} {value' : β} : values value value' →
      Corresponds values errors (.ok value) (.ok value')
  | error {error : ε} {error' : ε'} : errors error error' →
      Corresponds values errors (.error error) (.error error')

theorem Corresponds.imp {α β ε ε' : Type} {values values' : α → β → Prop} {errors : ε → ε' → Prop}
    {result : Except ε α} {result' : Except ε' β}
    (related : Corresponds values errors result result')
    (weaken : ∀ value value', values value value' → values' value value') :
    Corresponds values' errors result result' := by
  cases related with
  | ok related => exact .ok (weaken _ _ related)
  | error errors => exact .error errors

/-- How inputs and faults correspond. Inputs that do go on with tokens of the same kind and text,
now and later on, and whatever does not fit here or nests too deep makes faults that correspond. -/
structure Pairing where
  inputs : Input → Input → Prop
  faults : Fault → Fault → Prop
  next {input input' : Input} : inputs input input' →
    Option.Rel Token.SameWord input.peek? input'.peek?
  advance {input input' : Input} : inputs input input' → inputs input.advance input'.advance
  misfit {input input' : Input} (kinds : List Kind) : inputs input input' →
    faults (input.fault (.oneOf kinds)) (input'.fault (.oneOf kinds))
  spent {input input' : Input} (limit : Nat) : inputs input input' →
    faults (.overNested limit input.here) (.overNested limit input'.here)

namespace Pairing

variable {pairing : Pairing} {input input' : Input}

private theorem nextKind?_eq (inputs : pairing.inputs input input') :
    input.nextKind? = input'.nextKind? := by
  have next := pairing.next inputs
  unfold Input.nextKind?
  generalize input.peek? = first, input'.peek? = first' at next
  cases next with
  | none => rfl
  | some same => exact congrArg some same.kind

private theorem length_eq (inputs : pairing.inputs input input') :
    input.ahead.length = input'.ahead.length := by
  obtain ⟨ahead, finish⟩ := input
  induction ahead generalizing finish input' with
  | nil =>
      have next := pairing.next inputs
      obtain ⟨_ | ⟨first', rest'⟩, finish'⟩ := input'
      · rfl
      · cases next
  | cons first rest induction =>
      have next := pairing.next inputs
      obtain ⟨_ | ⟨first', rest'⟩, finish'⟩ := input'
      · cases next
      · exact congrArg Nat.succ (induction finish (pairing.advance inputs))

variable {α β γ δ : Type} {values : α → β → Prop} {results : γ → δ → Prop}

variable (pairing) in
/-- Two outcomes that correspond, with what they leave. -/
structure Ends (values : α → β → Prop) (outcome : Outcome α) (outcome' : Outcome β) : Prop where
  result : Corresponds values pairing.faults outcome.result outcome'.result
  rest : pairing.inputs outcome.rest outcome'.rest

variable (pairing) in
/-- On inputs that correspond, the two rules do. -/
def Pairs (values : α → β → Prop) (rule : Rule α) (rule' : Rule β) : Prop :=
  ∀ ⦃input input' : Input⦄, pairing.inputs input input' →
    pairing.Ends values (rule input) (rule' input')

theorem pairs_pure {value : α} {value' : β} (related : values value value') :
    pairing.Pairs values (pure value) (pure value') :=
  fun _ _ inputs => ⟨.ok related, inputs⟩

theorem Pairs.bind {rule : Rule α} {rule' : Rule β} {next : α → Rule γ} {next' : β → Rule δ}
    (first : pairing.Pairs values rule rule')
    (later : ∀ value value', values value value' →
      pairing.Pairs results (next value) (next' value')) :
    pairing.Pairs results (rule >>= next) (rule' >>= next') := by
  intro input input' inputs
  have ends := first inputs
  rcases outcome : rule input with ⟨result, middle, events⟩
  rcases outcome' : rule' input' with ⟨result', middle', events'⟩
  rw [outcome, outcome'] at ends
  obtain ⟨related, left⟩ := ends
  cases related with
  | ok related =>
      rw [Rule.bind_of_ok outcome, Rule.bind_of_ok outcome']
      obtain ⟨result, rest⟩ := later _ _ related left
      exact ⟨result, rest⟩
  | error faults =>
      rw [Rule.bind_of_error outcome, Rule.bind_of_error outcome']
      exact ⟨.error faults, left⟩

theorem Pairs.map {rule : Rule α} {rule' : Rule β} {change : α → γ} {change' : β → δ}
    (rules : pairing.Pairs values rule rule')
    (changes : ∀ value value', values value value' → results (change value) (change' value')) :
    pairing.Pairs results (change <$> rule) (change' <$> rule') := by
  rw [map_eq_pure_bind, map_eq_pure_bind]
  exact rules.bind fun value value' related => pairs_pure (changes value value' related)

theorem Pairs.imp {values' : α → β → Prop} {rule : Rule α} {rule' : Rule β}
    (rules : pairing.Pairs values rule rule')
    (weaken : ∀ value value', values value value' → values' value value') :
    pairing.Pairs values' rule rule' := by
  intro input input' inputs
  obtain ⟨result, rest⟩ := rules inputs
  exact ⟨result.imp weaken, rest⟩

theorem pairs_note (event event' : Input → Event) :
    pairing.Pairs Eq (Rule.note event) (Rule.note event') :=
  fun _ _ inputs => ⟨.ok rfl, inputs⟩

theorem pairs_look {question : Input → α}
    (asks : ∀ input input' : Input, input.nextKind? = input'.nextKind? →
      question input = question input') :
    pairing.Pairs Eq (Rule.look question) (Rule.look question) :=
  fun _ _ inputs => ⟨.ok (asks _ _ (nextKind?_eq inputs)), inputs⟩

theorem pairs_endsAt (stops : List Kind) :
    pairing.Pairs Eq (Rule.look (·.endsAt stops)) (Rule.look (·.endsAt stops)) :=
  pairs_look fun _ _ same => by simp only [Input.endsAt_eq_or, same]

theorem pairs_accept (kind : Kind) :
    pairing.Pairs Eq (Rule.accept kind) (Rule.accept kind) := by
  intro input input' inputs
  unfold Rule.accept
  rw [Input.startsWith_eq_any, Input.startsWith_eq_any, nextKind?_eq inputs]
  split
  · exact ⟨.ok rfl, pairing.advance inputs⟩
  · exact ⟨.ok rfl, inputs⟩

theorem pairs_choose {expected expected' : Expectation} {ruleFor : Token → Option (Rule α)}
    {ruleFor' : Token → Option (Rule β)}
    (misfit : ∀ {input input' : Input}, pairing.inputs input input' →
      pairing.faults (input.fault expected) (input'.fault expected'))
    (pairs : ∀ token token', token.SameWord token' →
      Option.Rel (pairing.Pairs values) (ruleFor token) (ruleFor' token')) :
    pairing.Pairs values (Rule.choose expected ruleFor) (Rule.choose expected' ruleFor') := by
  intro input input' inputs
  have next := pairing.next inputs
  unfold Rule.choose
  generalize input.peek? = first, input'.peek? = first' at next
  cases next with
  | none => exact ⟨.error (misfit inputs), inputs⟩
  | @some first first' same =>
      rw [Option.bind_some, Option.bind_some]
      have choices := pairs first first' same
      generalize ruleFor first = choice, ruleFor' first' = choice' at choices
      cases choices with
      | none => exact ⟨.error (misfit inputs), inputs⟩
      | some rules => exact rules (pairing.advance inputs)

theorem pairs_expect (kinds : List Kind) :
    pairing.Pairs Token.SameWord (Rule.expect kinds) (Rule.expect kinds) := by
  refine pairs_choose (pairing.misfit kinds) fun token token' same => ?_
  rw [← same.kind]
  split
  · exact .some (pairs_pure same)
  · exact .none

theorem pairs_manyFrom {step : Nat → Rule (Option α)} {step' : Nat → Rule (Option β)}
    (steps : ∀ index, pairing.Pairs (Option.Rel values) (step index) (step' index)) (index : Nat) :
    pairing.Pairs (List.Forall₂ values) (Rule.manyFrom step index)
      (Rule.manyFrom step' index) := by
  intro input input' inputs
  induction size : input.ahead.length using Nat.strongRecOn generalizing index input input' with
  | ind size induction =>
      have ends := steps index inputs
      rw [Rule.manyFrom, Rule.manyFrom]
      generalize step index input = outcome, step' index input' = outcome' at ends
      obtain ⟨result, middle, events⟩ := outcome
      obtain ⟨result', middle', events'⟩ := outcome'
      obtain ⟨related, left⟩ := ends
      cases related with
      | error faults => exact ⟨.error faults, left⟩
      | ok related =>
          cases related with
          | none => exact ⟨.ok .nil, left⟩
          | some related =>
              simp only [← length_eq inputs, ← length_eq left]
              split
              · rename_i shorter
                obtain ⟨others, rest⟩ := induction _ (size ▸ shorter) (index + 1) left rfl
                refine ⟨?_, rest⟩
                generalize (Rule.manyFrom step (index + 1) middle).result = result,
                  (Rule.manyFrom step' (index + 1) middle').result = result' at others
                cases others with
                | ok others => exact .ok (.cons related others)
                | error faults => exact .error faults
              · exact ⟨.ok (.cons related .nil), left⟩

section Lists

variable {element : Rule α} {element' : Rule β} (elements : pairing.Pairs values element element')

include elements

theorem Pairs.nextInList (stops : List Kind) :
    pairing.Pairs (Option.Rel values) (Rule.nextInList stops element)
      (Rule.nextInList stops element') := by
  refine (pairs_endsAt stops).bind fun ended _ same => ?_
  subst same
  cases ended with
  | true => exact pairs_pure .none
  | false =>
      refine (pairs_expect [.comma]).bind fun _ _ _ => ?_
      refine (pairs_endsAt stops).bind fun ended _ same => ?_
      subst same
      cases ended with
      | true => exact pairs_pure .none
      | false => exact elements.map fun _ _ => .some

theorem Pairs.sepByComma (stops : List Kind) :
    pairing.Pairs (List.Forall₂ values) (Rule.sepByComma stops element)
      (Rule.sepByComma stops element') := by
  refine (pairs_endsAt stops).bind fun ended _ same => ?_
  subst same
  cases ended with
  | true => exact pairs_pure .nil
  | false =>
      refine elements.bind fun first first' related => ?_
      refine (pairs_manyFrom (fun _ => elements.nextInList stops) 0).bind fun _ _ others => ?_
      exact pairs_pure (.cons related others)

theorem Pairs.closed (close : Kind) :
    pairing.Pairs values (do let value ← element; let _ ← Rule.expect [close]; return value)
      (do let value ← element'; let _ ← Rule.expect [close]; return value) :=
  elements.bind fun _ _ related => (pairs_expect [close]).bind fun _ _ _ => pairs_pure related

theorem Pairs.listUntil (close : Kind) :
    pairing.Pairs (List.Forall₂ values) (Rule.listUntil close element)
      (Rule.listUntil close element') :=
  (elements.sepByComma [close]).closed close

theorem Pairs.arguments? :
    pairing.Pairs (Option.Rel (List.Forall₂ values)) (Rule.arguments? element)
      (Rule.arguments? element') := by
  refine (pairs_accept .openParen).bind fun opened _ same => ?_
  subst same
  cases opened with
  | true => exact (elements.listUntil .closeParen).map fun _ _ => .some
  | false => exact pairs_pure .none

theorem Pairs.nextInChain :
    pairing.Pairs (Option.Rel values) (Rule.nextInChain element) (Rule.nextInChain element') := by
  refine (pairs_accept .colon).bind fun isColon _ same => ?_
  subst same
  cases isColon with
  | true => exact elements.map fun _ _ => .some
  | false => exact pairs_pure .none

omit elements in
private theorem joinRight_related {join : α → α → α} {join' : β → β → β}
    (joins : ∀ head head' tail tail', values head head' → values tail tail' →
      values (join head tail) (join' head' tail'))
    {first : α} {first' : β} (related : values first first') {others : List α} {others' : List β}
    (relatedOthers : List.Forall₂ values others others') :
    values (Rule.joinRight join first others) (Rule.joinRight join' first' others') := by
  induction relatedOthers generalizing first first' with
  | nil => exact related
  | cons second _ induction => exact joins _ _ _ _ related (induction second)

theorem Pairs.chain {join : α → α → α} {join' : β → β → β}
    (joins : ∀ head head' tail tail', values head head' → values tail tail' →
      values (join head tail) (join' head' tail')) :
    pairing.Pairs values (Rule.chain join element) (Rule.chain join' element') := by
  refine elements.bind fun first first' related => ?_
  refine (pairs_manyFrom (fun _ => elements.nextInChain) 0).bind fun _ _ others => ?_
  exact pairs_pure (joinRight_related joins related others)

end Lists

theorem pairs_overNested (limit : Nat) :
    pairing.Pairs values (Rule.overNested limit) (Rule.overNested limit) :=
  fun _ _ inputs => ⟨.error (pairing.spent limit inputs), inputs⟩

private theorem congruence
    (misfit : ∀ expected {input input' : Input}, pairing.inputs input input' →
      pairing.faults (input.fault expected) (input'.fault expected)) :
    Rule.Congruence fun _ => pairing.Pairs Eq where
  pure _ := pairs_pure rfl
  bind first later := first.bind fun value _ same => same ▸ later value
  note event := pairs_note event event
  look := pairs_look
  accept := pairs_accept
  expect kinds _ _ later := (pairs_expect kinds).bind later
  choose expected _ _ pairs := pairs_choose (misfit expected) pairs
  manyFrom steps index := by
    have optional (index : Nat) : pairing.Pairs (Option.Rel Eq) _ _ := (steps index).imp <| by
      rintro value? _ rfl
      cases value? with
      | none => exact .none
      | some value => exact .some rfl
    have lists := pairs_manyFrom optional index
    rwa [List.forall₂_eq_eq_eq] at lists

theorem pairs_program
    (misfit : ∀ expected {input input' : Input}, pairing.inputs input input' →
      pairing.faults (input.fault expected) (input'.fault expected)) (limit : Nat) :
    pairing.Pairs Eq (Program.rule limit) (Program.rule limit) := by
  have patterns : pairing.Pairs Eq (Pattern.within limit 0) (Pattern.within (0 + limit) 0) := by
    rw [Nat.zero_add]
    exact pairs_overNested limit
  have terms : pairing.Pairs Eq (Term.within limit 0) (Term.within (0 + limit) 0) := by
    rw [Nat.zero_add]
    exact pairs_overNested limit
  have pairs := (congruence misfit).program_rule 0 patterns terms
  rwa [Nat.zero_add] at pairs

end Pairing

end TermScript

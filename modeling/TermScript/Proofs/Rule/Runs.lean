import TermScript.Rule.Basic

/-! How runs of rules end: with a value or with a fault, and with what input left. Every way to
combine rules is opened here once, so that no later proof looks at outcomes or events. -/

namespace TermScript

namespace Input

def prepend (tokens : List Token) (input : Input) : Input :=
  ⟨tokens ++ input.ahead, input.finish⟩

@[simp] theorem prepend_nil (input : Input) : input.prepend [] = input := rfl

@[simp] theorem prepend_prepend (left right : List Token) (input : Input) :
    (input.prepend right).prepend left = input.prepend (left ++ right) := by
  simp [prepend]

@[simp] theorem peek?_prepend_cons (first : Token) (others : List Token) (input : Input) :
    (input.prepend (first :: others)).peek? = some first := rfl

@[simp] theorem advance_prepend_cons (first : Token) (others : List Token) (input : Input) :
    (input.prepend (first :: others)).advance = input.prepend others := rfl

@[simp] theorem isEmpty_prepend_cons (first : Token) (others : List Token) (input : Input) :
    (input.prepend (first :: others)).isEmpty = false := rfl

@[simp] theorem startsWith_prepend_cons (first : Token) (others : List Token) (input : Input)
    (kinds : List Kind) :
    (input.prepend (first :: others)).startsWith kinds = kinds.contains first.kind := by
  simp [startsWith]

theorem length_ahead_prepend (tokens : List Token) (input : Input) :
    (input.prepend tokens).ahead.length = tokens.length + input.ahead.length := by
  simp [prepend]

theorem prepend_of_peek? {input : Input} {first : Token} (next : input.peek? = some first) :
    input = input.advance.prepend [first] := by
  obtain ⟨ahead, finish⟩ := input
  cases ahead with
  | nil => cases next
  | cons head tail =>
      cases next
      rfl

theorem startsWith_eq_true_iff (input : Input) (kinds : List Kind) :
    input.startsWith kinds = true ↔
      ∃ first, input.peek? = some first ∧ first.kind ∈ kinds := by
  simp [startsWith, Option.any_eq_true]

end Input

namespace Rule

variable {α β : Type}

/-- The rule reads a value from the input and leaves the rest. -/
def Yields (rule : Rule α) (input : Input) (value : α) (rest : Input) : Prop :=
  ∃ events, rule input = ⟨.ok value, rest, events⟩

def Faults (rule : Rule α) (input : Input) (fault : Fault) (rest : Input) : Prop :=
  ∃ events, rule input = ⟨.error fault, rest, events⟩

theorem result_eq_ok_iff {rule : Rule α} {input : Input} {value : α} :
    (rule input).result = .ok value ↔ ∃ rest, rule.Yields input value rest := by
  constructor
  · intro result
    refine ⟨(rule input).rest, (rule input).events, ?_⟩
    rw [← result]
  · intro ends
    obtain ⟨rest, events, outcome⟩ := ends
    rw [outcome]

theorem result_eq_error_iff {rule : Rule α} {input : Input} {fault : Fault} :
    (rule input).result = .error fault ↔ ∃ rest, rule.Faults input fault rest := by
  constructor
  · intro result
    refine ⟨(rule input).rest, (rule input).events, ?_⟩
    rw [← result]
  · intro ends
    obtain ⟨rest, events, outcome⟩ := ends
    rw [outcome]

theorem Yields.result {rule : Rule α} {input rest : Input} {value : α}
    (ends : rule.Yields input value rest) : (rule input).result = .ok value :=
  result_eq_ok_iff.mpr ⟨rest, ends⟩

theorem Faults.result {rule : Rule α} {input rest : Input} {fault : Fault}
    (ends : rule.Faults input fault rest) : (rule input).result = .error fault :=
  result_eq_error_iff.mpr ⟨rest, ends⟩

theorem Yields.unique {rule : Rule α} {input rest rest' : Input} {value value' : α}
    (left : rule.Yields input value rest) (right : rule.Yields input value' rest') :
    value = value' ∧ rest = rest' := by
  obtain ⟨events, outcome⟩ := left
  obtain ⟨events', outcome'⟩ := right
  rw [outcome] at outcome'
  cases outcome'
  exact ⟨rfl, rfl⟩

theorem Faults.unique {rule : Rule α} {input rest rest' : Input} {fault fault' : Fault}
    (left : rule.Faults input fault rest) (right : rule.Faults input fault' rest') :
    fault = fault' ∧ rest = rest' := by
  obtain ⟨events, outcome⟩ := left
  obtain ⟨events', outcome'⟩ := right
  rw [outcome] at outcome'
  cases outcome'
  exact ⟨rfl, rfl⟩

theorem Yields.not_faults {rule : Rule α} {input rest rest' : Input} {value : α} {fault : Fault}
    (ends : rule.Yields input value rest) : ¬rule.Faults input fault rest' := by
  intro fails
  obtain ⟨events, outcome⟩ := ends
  obtain ⟨events', outcome'⟩ := fails
  rw [outcome] at outcome'
  cases outcome'

theorem Faults.rest_eq {rule : Rule α} {input rest : Input} {fault : Fault}
    (ends : rule.Faults input fault rest) : (rule input).rest = rest := by
  obtain ⟨events, outcome⟩ := ends
  rw [outcome]

@[simp] theorem yields_pure {value result : α} {input rest : Input} :
    (pure value : Rule α).Yields input result rest ↔ result = value ∧ rest = input := by
  simp only [Yields, pure_apply, Outcome.mk.injEq, Except.ok.injEq]
  constructor
  · intro run
    obtain ⟨events, rfl, rfl, _⟩ := run
    exact ⟨rfl, rfl⟩
  · intro run
    obtain ⟨rfl, rfl⟩ := run
    exact ⟨[], rfl, rfl, rfl⟩

@[simp] theorem not_faults_pure {value : α} {input rest : Input} {fault : Fault} :
    ¬(pure value : Rule α).Faults input fault rest := by
  simp [Faults, pure_apply]

theorem yields_bind {rule : Rule α} {next : α → Rule β} {input rest : Input} {value : β} :
    (rule >>= next).Yields input value rest ↔
      ∃ first middle, rule.Yields input first middle ∧ (next first).Yields middle value rest := by
  constructor
  · intro run
    obtain ⟨events, outcome⟩ := run
    rcases ends : rule input with ⟨fault | first, middle, earlier⟩
    · rw [bind_of_error ends] at outcome
      cases outcome
    · rw [bind_of_ok ends] at outcome
      refine ⟨first, middle, ⟨earlier, ends⟩, ?_⟩
      rcases later : next first middle with ⟨result, rest', events'⟩
      rw [later] at outcome
      cases outcome
      exact ⟨events', later⟩
  · intro run
    obtain ⟨first, middle, ⟨earlier, ends⟩, events, later⟩ := run
    exact ⟨earlier ++ events, by rw [bind_of_ok ends, later]; rfl⟩

theorem faults_bind {rule : Rule α} {next : α → Rule β} {input rest : Input} {fault : Fault} :
    (rule >>= next).Faults input fault rest ↔
      rule.Faults input fault rest ∨
        ∃ first middle, rule.Yields input first middle ∧
          (next first).Faults middle fault rest := by
  constructor
  · intro run
    obtain ⟨events, outcome⟩ := run
    rcases ends : rule input with ⟨fault' | first, middle, earlier⟩
    · rw [bind_of_error ends] at outcome
      cases outcome
      exact .inl ⟨_, ends⟩
    · rw [bind_of_ok ends] at outcome
      refine .inr ⟨first, middle, ⟨earlier, ends⟩, ?_⟩
      rcases later : next first middle with ⟨result, rest', events'⟩
      rw [later] at outcome
      cases outcome
      exact ⟨events', later⟩
  · intro run
    rcases run with ⟨events, ends⟩ | ⟨first, middle, ⟨earlier, ends⟩, events, later⟩
    · exact ⟨events, by rw [bind_of_error ends]⟩
    · exact ⟨earlier ++ events, by rw [bind_of_ok ends, later]; rfl⟩

theorem yields_map {change : α → β} {rule : Rule α} {input rest : Input} {value : β} :
    (change <$> rule).Yields input value rest ↔
      ∃ first, rule.Yields input first rest ∧ value = change first := by
  rw [map_eq_pure_bind, yields_bind]
  constructor
  · intro run
    obtain ⟨first, middle, ends, last⟩ := run
    obtain ⟨rfl, rfl⟩ := yields_pure.mp last
    exact ⟨first, ends, rfl⟩
  · intro run
    obtain ⟨first, ends, rfl⟩ := run
    exact ⟨first, rest, ends, yields_pure.mpr ⟨rfl, rfl⟩⟩

theorem faults_map {change : α → β} {rule : Rule α} {input rest : Input} {fault : Fault} :
    (change <$> rule).Faults input fault rest ↔ rule.Faults input fault rest := by
  rw [map_eq_pure_bind, faults_bind]
  simp

@[simp] theorem yields_note {event : Input → Event} {value : Unit} {input rest : Input} :
    (note event).Yields input value rest ↔ rest = input := by
  simp [Yields, note, eq_comm]

@[simp] theorem not_faults_note {event : Input → Event} {input rest : Input} {fault : Fault} :
    ¬(note event).Faults input fault rest := by
  simp [Faults, note]

@[simp] theorem yields_look {question : Input → α} {value : α} {input rest : Input} :
    (look question).Yields input value rest ↔ value = question input ∧ rest = input := by
  simp [Yields, look, eq_comm]

@[simp] theorem not_faults_look {question : Input → α} {input rest : Input} {fault : Fault} :
    ¬(look question).Faults input fault rest := by
  simp [Faults, look]

@[simp] theorem not_yields_overNested {limit : Nat} {value : α} {input rest : Input} :
    ¬(overNested limit : Rule α).Yields input value rest := by
  simp [Yields, overNested, fail]

@[simp] theorem faults_overNested {limit : Nat} {input rest : Input} {fault : Fault} :
    (overNested limit : Rule α).Faults input fault rest ↔
      fault = .overNested limit input.here ∧ rest = input := by
  simp [Faults, overNested, fail, eq_comm]

theorem yields_look_bind {question : Input → α} {next : α → Rule β} {input rest : Input}
    {value : β} :
    (look question >>= next).Yields input value rest ↔
      (next (question input)).Yields input value rest := by
  simp [yields_bind, and_assoc]

theorem faults_look_bind {question : Input → α} {next : α → Rule β} {input rest : Input}
    {fault : Fault} :
    (look question >>= next).Faults input fault rest ↔
      (next (question input)).Faults input fault rest := by
  simp [faults_bind, and_assoc]

theorem yields_note_bind {event : Input → Event} {next : Unit → Rule β} {input rest : Input}
    {value : β} :
    (note event >>= next).Yields input value rest ↔ (next ()).Yields input value rest := by
  rw [yields_bind]
  constructor
  · intro run
    obtain ⟨first, middle, begins, ends⟩ := run
    obtain rfl := yields_note.mp begins
    exact ends
  · intro ends
    exact ⟨(), input, yields_note.mpr rfl, ends⟩

theorem faults_note_bind {event : Input → Event} {next : Unit → Rule β} {input rest : Input}
    {fault : Fault} :
    (note event >>= next).Faults input fault rest ↔ (next ()).Faults input fault rest := by
  rw [faults_bind]
  constructor
  · intro run
    rcases run with begins | ⟨first, middle, begins, ends⟩
    · exact absurd begins not_faults_note
    · obtain rfl := yields_note.mp begins
      exact ends
  · intro ends
    exact .inr ⟨(), input, yields_note.mpr rfl, ends⟩

theorem yields_accept_bind {kind : Kind} {next : Bool → Rule β} {input rest : Input} {value : β} :
    (accept kind >>= next).Yields input value rest ↔
      (input.startsWith [kind] = true ∧ (next true).Yields input.advance value rest) ∨
        (input.startsWith [kind] = false ∧ (next false).Yields input value rest) := by
  rw [yields_bind]
  cases starts : input.startsWith [kind] <;> simp [Yields, accept, starts]

theorem faults_accept_bind {kind : Kind} {next : Bool → Rule β} {input rest : Input}
    {fault : Fault} :
    (accept kind >>= next).Faults input fault rest ↔
      (input.startsWith [kind] = true ∧ (next true).Faults input.advance fault rest) ∨
        (input.startsWith [kind] = false ∧ (next false).Faults input fault rest) := by
  rw [faults_bind]
  cases starts : input.startsWith [kind] <;> simp [Yields, Faults, accept, starts]

theorem yields_choose {expected : Expectation} {ruleFor : Token → Option (Rule α)}
    {input rest : Input} {value : α} :
    (choose expected ruleFor).Yields input value rest ↔
      ∃ first rule, input.peek? = some first ∧ ruleFor first = some rule ∧
        rule.Yields input.advance value rest := by
  unfold Yields choose
  cases next : input.peek? with
  | none => simp
  | some first =>
      cases found : ruleFor first with
      | none => simp [found]
      | some rule => simp [found]

theorem faults_choose {expected : Expectation} {ruleFor : Token → Option (Rule α)}
    {input rest : Input} {fault : Fault} :
    (choose expected ruleFor).Faults input fault rest ↔
      (∃ first rule, input.peek? = some first ∧ ruleFor first = some rule ∧
        rule.Faults input.advance fault rest) ∨
      ((∀ first, input.peek? = some first → ruleFor first = none) ∧
        fault = input.fault expected ∧ rest = input) := by
  unfold Faults choose
  cases next : input.peek? with
  | none => simp [eq_comm]
  | some first =>
      cases found : ruleFor first with
      | none => simp [found, eq_comm]
      | some rule => simp [found]

theorem yields_expect {kinds : List Kind} {token : Token} {input rest : Input} :
    (expect kinds).Yields input token rest ↔
      input = rest.prepend [token] ∧ token.kind ∈ kinds := by
  rw [expect, yields_choose]
  constructor
  · intro run
    obtain ⟨first, rule, next, found, ends⟩ := run
    obtain ⟨member, rfl⟩ := by simpa using found
    obtain ⟨rfl, rfl⟩ := yields_pure.mp ends
    exact ⟨Input.prepend_of_peek? next, member⟩
  · intro run
    obtain ⟨rfl, member⟩ := run
    exact ⟨token, pure token, rfl, by simp [member], yields_pure.mpr ⟨rfl, rfl⟩⟩

theorem yields_expect_one {kind : Kind} {token : Token} {input rest : Input} :
    (expect [kind]).Yields input token rest ↔
      input = rest.prepend [token] ∧ token.kind = kind := by
  rw [yields_expect, List.mem_singleton]

theorem faults_expect {kinds : List Kind} {input rest : Input} {fault : Fault} :
    (expect kinds).Faults input fault rest ↔
      input.startsWith kinds = false ∧ fault = input.fault (.oneOf kinds) ∧ rest = input := by
  rw [expect, faults_choose]
  constructor
  · intro run
    rcases run with ⟨first, rule, next, found, ends⟩ | ⟨missing, rfl, rfl⟩
    · obtain ⟨member, rfl⟩ := by simpa using found
      exact absurd ends not_faults_pure
    · refine ⟨?_, rfl, rfl⟩
      rw [Bool.eq_false_iff, Ne, Input.startsWith_eq_true_iff]
      intro starts
      obtain ⟨first, next, member⟩ := starts
      simpa [member] using missing first next
  · intro run
    obtain ⟨missing, rfl, rfl⟩ := run
    refine .inr ⟨?_, rfl, rfl⟩
    intro first next
    rw [Bool.eq_false_iff, Ne, Input.startsWith_eq_true_iff] at missing
    have absent : first.kind ∉ kinds := fun member => missing ⟨first, next, member⟩
    simp [absent]

/-- Numbered steps made one after another, with the values they gave. -/
inductive Walks (step : Nat → Rule (Option α)) : Nat → Input → List α → Nat → Input → Prop
  | start (index : Nat) (input : Input) : Walks step index input [] index input
  | further {index last : Nat} {input middle rest : Input} {value : α} {values : List α} :
      (step index).Yields input (some value) middle →
      Walks step (index + 1) middle values last rest →
      Walks step index input (value :: values) last rest

/-- Every step that gives a value takes a token away. -/
def Shrinks (step : Nat → Rule (Option α)) : Prop :=
  ∀ ⦃index input value rest⦄, (step index).Yields input (some value) rest →
    rest.ahead.length < input.ahead.length

private theorem manyFrom_of_some {step : Nat → Rule (Option α)} (shrinks : Shrinks step)
    {index : Nat} {input middle : Input} {value : α}
    (ends : (step index).Yields input (some value) middle) :
    ∃ events, manyFrom step index input =
      ⟨(manyFrom step (index + 1) middle).result.map (value :: ·),
        (manyFrom step (index + 1) middle).rest,
        events ++ (manyFrom step (index + 1) middle).events⟩ := by
  have shorter := shrinks ends
  obtain ⟨events, outcome⟩ := ends
  refine ⟨events, ?_⟩
  rw [manyFrom, outcome]
  simp only [shorter, ↓reduceIte]

theorem Walks.yields {step : Nat → Rule (Option α)} (shrinks : Shrinks step) {index last : Nat}
    {input middle rest : Input} {values : List α}
    (walks : Walks step index input values last middle)
    (stops : (step last).Yields middle none rest) :
    Yields (manyFrom step index) input values rest := by
  induction walks with
  | start index input =>
      obtain ⟨events, outcome⟩ := stops
      exact ⟨events, by rw [manyFrom, outcome]⟩
  | further ends _ induction =>
      obtain ⟨events, whole⟩ := manyFrom_of_some shrinks ends
      obtain ⟨later, outcome⟩ := induction stops
      rw [outcome] at whole
      exact ⟨events ++ later, whole⟩

theorem Walks.faults {step : Nat → Rule (Option α)} (shrinks : Shrinks step) {index last : Nat}
    {input middle rest : Input} {values : List α} {fault : Fault}
    (walks : Walks step index input values last middle)
    (stops : (step last).Faults middle fault rest) :
    Faults (manyFrom step index) input fault rest := by
  induction walks with
  | start index input =>
      obtain ⟨events, outcome⟩ := stops
      exact ⟨events, by rw [manyFrom, outcome]⟩
  | further ends _ induction =>
      obtain ⟨events, whole⟩ := manyFrom_of_some shrinks ends
      obtain ⟨later, outcome⟩ := induction stops
      rw [outcome] at whole
      exact ⟨events ++ later, whole⟩

theorem exists_walks {step : Nat → Rule (Option α)} (shrinks : Shrinks step) (index : Nat)
    (input : Input) :
    ∃ values last middle, Walks step index input values last middle ∧
      ((∃ rest, (step last).Yields middle none rest) ∨
        ∃ fault rest, (step last).Faults middle fault rest) := by
  fun_induction manyFrom step index input with
  | case1 index input fault rest events ends =>
      exact ⟨[], index, input, .start index input, .inr ⟨fault, rest, events, ends⟩⟩
  | case2 index input rest events ends =>
      exact ⟨[], index, input, .start index input, .inl ⟨rest, events, ends⟩⟩
  | case3 index input value middle events ends shorter others =>
      rename_i induction
      obtain ⟨values, last, stopped, walks, stops⟩ := induction
      exact ⟨value :: values, last, stopped, .further ⟨events, ends⟩ walks, stops⟩
  | case4 index input value middle events ends stays =>
      exact absurd (shrinks ⟨events, ends⟩) stays

theorem yields_manyFrom {step : Nat → Rule (Option α)} (shrinks : Shrinks step) {index : Nat}
    {input rest : Input} {values : List α} :
    Yields (manyFrom step index) input values rest ↔
      ∃ last middle, Walks step index input values last middle ∧
        (step last).Yields middle none rest := by
  constructor
  · intro run
    obtain ⟨others, last, middle, walks, ⟨rest', stops⟩ | ⟨fault, rest', stops⟩⟩ :=
      exists_walks shrinks index input
    · obtain ⟨rfl, rfl⟩ := run.unique (walks.yields shrinks stops)
      exact ⟨last, middle, walks, stops⟩
    · exact absurd (walks.faults shrinks stops) run.not_faults
  · intro ends
    obtain ⟨last, middle, walks, stops⟩ := ends
    exact walks.yields shrinks stops

theorem faults_manyFrom {step : Nat → Rule (Option α)} (shrinks : Shrinks step) {index : Nat}
    {input rest : Input} {fault : Fault} :
    Faults (manyFrom step index) input fault rest ↔
      ∃ values last middle, Walks step index input values last middle ∧
        (step last).Faults middle fault rest := by
  constructor
  · intro run
    obtain ⟨values, last, middle, walks, ⟨rest', stops⟩ | ⟨fault', rest', stops⟩⟩ :=
      exists_walks shrinks index input
    · exact absurd run (walks.yields shrinks stops).not_faults
    · obtain ⟨rfl, rfl⟩ := run.unique (walks.faults shrinks stops)
      exact ⟨values, last, middle, walks, stops⟩
  · intro ends
    obtain ⟨values, last, middle, walks, stops⟩ := ends
    exact walks.faults shrinks stops

theorem yields_many {step : Nat → Rule (Option α)} (shrinks : Shrinks step) {input rest : Input}
    {values : List α} :
    (many step).Yields input values rest ↔
      ∃ last middle, Walks step 0 input values last middle ∧
        (step last).Yields middle none rest :=
  yields_manyFrom shrinks

theorem faults_many {step : Nat → Rule (Option α)} (shrinks : Shrinks step) {input rest : Input}
    {fault : Fault} :
    (many step).Faults input fault rest ↔
      ∃ values last middle, Walks step 0 input values last middle ∧
        (step last).Faults middle fault rest :=
  faults_manyFrom shrinks

end Rule

end TermScript

import TermScript.Proofs.Rule.Locality

/-! How far runs get. A fault tells of the place where it leaves the input. A run with more nesting
allowed ends as the one with less, unless that one spent its nesting; then it gets past that place. -/

namespace TermScript

/-- If there is a fault, it is about the place where the input was left. -/
def Outcome.Located {α : Type} (outcome : Outcome α) : Prop :=
  ∀ fault, outcome.result = .error fault →
    (∃ expected, fault = outcome.rest.fault expected) ∨
      ∃ limit, fault = .overNested limit outcome.rest.here

namespace Rule

variable {α β : Type} {limit : Nat}

def Located (rule : Rule α) : Prop :=
  ∀ input, (rule input).Located

theorem Located.bind {rule : Rule α} {next : α → Rule β} (first : rule.Located)
    (later : ∀ value, (next value).Located) : (rule >>= next).Located := by
  intro input
  rcases outcome : rule input with ⟨fault | value, middle, events⟩
  · have located := first input
    rw [outcome] at located
    rw [bind_of_error outcome]
    intro other failed
    exact located other (by cases failed; rfl)
  · rw [bind_of_ok outcome]
    exact later value middle

theorem located_choose {expected : Expectation} {ruleFor : Token → Option (Rule α)}
    (located : ∀ token rule, ruleFor token = some rule → rule.Located) :
    (choose expected ruleFor).Located := by
  intro input
  unfold choose
  split
  · rename_i rule found
    obtain ⟨first, -, found⟩ := Option.bind_eq_some_iff.mp found
    exact located first rule found input.advance
  · intro fault failed
    cases failed
    exact .inl ⟨expected, rfl⟩

theorem located_expect (kinds : List Kind) : (expect kinds).Located := by
  refine located_choose fun token rule found => ?_
  obtain ⟨-, rfl⟩ := by simpa using found
  exact fun _ => nofun

theorem located_manyFrom {step : Nat → Rule (Option α)} (located : ∀ index, (step index).Located)
    (index : Nat) : Located (manyFrom step index) := by
  intro input
  fun_induction manyFrom step index input with
  | case1 index input fault rest events outcome =>
      have first := located index input
      rw [outcome] at first
      intro other failed
      cases failed
      exact first fault rfl
  | case2 =>
      intro fault failed
      cases failed
  | case3 index input value middle events outcome shorter others =>
      rename_i induction
      intro fault failed
      apply induction
      cases result : others.result with
      | error other =>
          rw [result] at failed
          cases failed
          rfl
      | ok values =>
          rw [result] at failed
          cases failed
  | case4 =>
      intro fault failed
      cases failed

theorem located_congruence : Congruence (Holding fun _ => Located) where
  pure _ _ := nofun
  bind := Located.bind
  note _ _ := nofun
  look _ _ := nofun
  accept kind input := by
    unfold Rule.accept
    split
    · exact nofun
    · exact nofun
  expect kinds _ _ later :=
    (located_expect kinds).bind fun token => later token token (.refl token)
  choose _ _ _ located := located_choose fun token _ found => by
    obtain ⟨_, -, located⟩ := exists_of_rel (located token token (.refl token)) found
    exact located
  manyFrom := located_manyFrom

theorem located_overNested (limit : Nat) : (overNested limit : Rule α).Located := by
  intro input fault failed
  cases failed
  exact .inr ⟨limit, rfl⟩

theorem located_program (limit : Nat) : (Program.rule limit).Located :=
  located_congruence.program_rule 0 (located_overNested limit) (located_overNested limit)

/-- With more nesting allowed the second run ends as the first; or the first one spent its nesting,
and the second got past that place, or found another fault. -/
inductive Outruns (limit : Nat) (outcome outcome' : Outcome α) : Prop
  | alike : outcome.result = outcome'.result → outcome.rest = outcome'.rest →
      Outruns limit outcome outcome'
  | past (place : Span) : outcome.result = .error (.overNested limit place) →
      outcome'.rest.ahead.length < outcome.rest.ahead.length → Outruns limit outcome outcome'
  | misfit (place : Span) {fault : Fault} : outcome.result = .error (.overNested limit place) →
      outcome'.result = .error fault → fault.Shallow → Outruns limit outcome outcome'

structure Surpasses (limit : Nat) (rule rule' : Rule α) : Prop where
  advances : rule'.Advances
  outruns : ∀ input, Outruns limit (rule input) (rule' input)

theorem Advances.surpasses {rule : Rule α} (advances : rule.Advances) :
    Surpasses limit rule rule :=
  ⟨advances, fun _ => .alike rfl rfl⟩

private theorem Outruns.map {outcome outcome' : Outcome α} {events events' : List Event}
    (outruns : Outruns limit outcome outcome') (change : α → β) :
    Outruns limit ⟨outcome.result.map change, outcome.rest, events⟩
      ⟨outcome'.result.map change, outcome'.rest, events'⟩ := by
  cases outruns with
  | alike result rest => exact .alike (congrArg (Except.map change) result) rest
  | past place spent further =>
      exact .past place (congrArg (Except.map change) spent) further
  | misfit place spent failed shallow =>
      exact .misfit place (congrArg (Except.map change) spent)
        (congrArg (Except.map change) failed) shallow

private theorem Outruns.extend {outcome outcome' : Outcome α} {whole whole' : Outcome β}
    (outruns : Outruns limit outcome outcome')
    (ends : ∀ fault, outcome.result = .error fault →
      whole.result = .error fault ∧ whole.rest = outcome.rest)
    (ends' : ∀ fault, outcome'.result = .error fault →
      whole'.result = .error fault ∧ whole'.rest = outcome'.rest)
    (advances : whole'.rest.ahead.length ≤ outcome'.rest.ahead.length)
    (goesOn : ∀ value, outcome.result = .ok value → outcome'.result = .ok value →
      outcome.rest = outcome'.rest → Outruns limit whole whole') :
    Outruns limit whole whole' := by
  cases outruns with
  | alike result rest =>
      cases ending : outcome.result with
      | error fault =>
          obtain ⟨failed, left⟩ := ends fault ending
          obtain ⟨failed', left'⟩ := ends' fault (result ▸ ending)
          exact .alike (failed.trans failed'.symm) (left.trans (rest.trans left'.symm))
      | ok value => exact goesOn value ending (result ▸ ending) rest
  | past place spent further =>
      obtain ⟨failed, left⟩ := ends _ spent
      exact .past place failed (left ▸ Nat.lt_of_le_of_lt advances further)
  | misfit place spent failed shallow =>
      exact .misfit place (ends _ spent).1 (ends' _ failed).1 shallow

private theorem bind_of_failed {rule : Rule α} {input : Input} {fault : Fault}
    (failed : (rule input).result = .error fault) (next : α → Rule β) :
    ((rule >>= next) input).result = .error fault ∧
      ((rule >>= next) input).rest = (rule input).rest := by
  rcases outcome : rule input with ⟨result, rest, events⟩
  rw [outcome] at failed
  cases failed
  rw [bind_of_error outcome]
  exact ⟨rfl, rfl⟩

private theorem Advances.length_bind_le {rule : Rule α} {next : α → Rule β}
    (advances : ∀ value, (next value).Advances) (input : Input) :
    ((rule >>= next) input).rest.ahead.length ≤ (rule input).rest.ahead.length := by
  rcases outcome : rule input with ⟨fault | value, middle, events⟩
  · exact Nat.le_of_eq (congrArg (·.rest.ahead.length) (bind_of_error outcome next))
  · rw [bind_of_ok outcome]
    exact (advances value).length_le middle

theorem Surpasses.bind {rule rule' : Rule α} {next next' : α → Rule β}
    (first : Surpasses limit rule rule')
    (later : ∀ value, Surpasses limit (next value) (next' value)) :
    Surpasses limit (rule >>= next) (rule' >>= next') := by
  have advances value := (later value).advances
  refine ⟨first.advances.bind advances, fun input => ?_⟩
  apply (first.outruns input).extend
  · exact fun fault failed => bind_of_failed failed next
  · exact fun fault failed => bind_of_failed failed next'
  · exact Advances.length_bind_le advances input
  · intro value read read' same
    rcases outcome : rule input with ⟨result, middle, events⟩
    rcases outcome' : rule' input with ⟨result', middle', events'⟩
    rw [outcome] at read same
    rw [outcome'] at read' same
    cases read
    cases read'
    cases same
    rw [bind_of_ok outcome, bind_of_ok outcome']
    cases (later value).outruns middle with
    | alike result rest => exact .alike result rest
    | past place spent further => exact .past place spent further
    | misfit place spent failed shallow => exact .misfit place spent failed shallow

theorem surpasses_choose {expected : Expectation} {ruleFor ruleFor' : Token → Option (Rule α)}
    (surpasses : ∀ token, Option.Rel (Surpasses limit) (ruleFor token) (ruleFor' token)) :
    Surpasses limit (choose expected ruleFor) (choose expected ruleFor') := by
  constructor
  · refine advances_choose fun token rule' found => ?_
    have choices := surpasses token
    rw [found] at choices
    generalize ruleFor token = choice at choices
    cases choices with
    | some surpasses => exact surpasses.advances
  · intro input
    unfold choose
    cases next : input.peek? with
    | none => exact .alike rfl rfl
    | some first =>
        rw [Option.bind_some, Option.bind_some]
        have choices := surpasses first
        generalize ruleFor first = choice, ruleFor' first = choice' at choices
        cases choices with
        | none => exact .alike rfl rfl
        | some surpasses => exact surpasses.outruns input.advance

private theorem manyFrom_of_failed {step : Nat → Rule (Option α)} {index : Nat} {input : Input}
    {fault : Fault} (failed : (step index input).result = .error fault) :
    (manyFrom step index input).result = .error fault ∧
      (manyFrom step index input).rest = (step index input).rest := by
  rcases outcome : step index input with ⟨result, rest, events⟩
  rw [outcome] at failed
  cases failed
  rw [manyFrom, outcome]
  exact ⟨rfl, rfl⟩

private theorem Advances.length_manyFrom_le {step : Nat → Rule (Option α)}
    (advances : ∀ index, (step index).Advances) (index : Nat) (input : Input) :
    (manyFrom step index input).rest.ahead.length ≤ (step index input).rest.ahead.length := by
  rw [manyFrom]
  rcases step index input with ⟨fault | value?, middle, events⟩
  · exact Nat.le_refl _
  cases value? with
  | none => exact Nat.le_refl _
  | some value =>
      simp only
      split
      · exact (advances_manyFrom advances (index + 1)).length_le middle
      · exact Nat.le_refl _

theorem surpasses_manyFrom {step step' : Nat → Rule (Option α)}
    (surpasses : ∀ index, Surpasses limit (step index) (step' index)) (index : Nat) :
    Surpasses limit (manyFrom step index) (manyFrom step' index) := by
  have advances index := (surpasses index).advances
  refine ⟨advances_manyFrom advances index, fun input => ?_⟩
  induction size : input.ahead.length using Nat.strongRecOn generalizing index input with
  | ind size induction =>
      apply ((surpasses index).outruns input).extend
      · exact fun fault failed => manyFrom_of_failed failed
      · exact fun fault failed => manyFrom_of_failed failed
      · exact Advances.length_manyFrom_le advances index input
      · intro value? read read' same
        rcases outcome : step index input with ⟨result, middle, events⟩
        rcases outcome' : step' index input with ⟨result', middle', events'⟩
        rw [outcome] at read same
        rw [outcome'] at read' same
        cases read
        cases read'
        cases same
        rw [manyFrom, manyFrom, outcome, outcome']
        cases value? with
        | none => exact .alike rfl rfl
        | some value =>
            simp only
            split
            · rename_i shorter
              exact (induction _ (size ▸ shorter) (index + 1) middle rfl).map _
            · exact .alike rfl rfl

theorem surpasses_congruence (limit : Nat) : Congruence fun _ => Surpasses limit where
  pure value := (advances_pure value).surpasses
  bind := Surpasses.bind
  note event := (advances_congruence.note event).surpasses
  look asks := (advances_congruence.look asks).surpasses
  accept kind := (advances_accept kind).surpasses
  expect kinds _ _ later :=
    (advances_expect kinds).surpasses.bind fun token => later token token (.refl token)
  choose _ _ _ surpasses := surpasses_choose fun token => surpasses token token (.refl token)
  manyFrom := surpasses_manyFrom

/-- The rule takes a token away, or fails for another reason than nesting. -/
def Moves (rule : Rule α) : Prop :=
  ∀ input, (rule input).rest.ahead.length < input.ahead.length ∨
    ∃ fault, (rule input).result = .error fault ∧ fault.Shallow

theorem surpasses_overNested {rule : Rule α} (advances : rule.Advances) (moves : rule.Moves) :
    Surpasses limit (overNested limit) rule := by
  refine ⟨advances, fun input => ?_⟩
  rcases moves input with shorter | ⟨fault, failed, shallow⟩
  · exact .past _ rfl shorter
  · exact .misfit _ rfl failed shallow

theorem Moves.bind {rule : Rule α} {next : α → Rule β} (moves : rule.Moves)
    (advances : ∀ value, (next value).Advances) : (rule >>= next).Moves := by
  intro input
  rcases moves input with shorter | ⟨fault, failed, shallow⟩
  · exact .inl (Nat.lt_of_le_of_lt (Advances.length_bind_le advances input) shorter)
  · exact .inr ⟨fault, (bind_of_failed failed next).1, shallow⟩

theorem moves_choose {expected : Expectation} {ruleFor : Token → Option (Rule α)}
    (advances : ∀ token rule, ruleFor token = some rule → rule.Advances) :
    (choose expected ruleFor).Moves := by
  intro input
  unfold choose
  split
  · rename_i rule found
    obtain ⟨first, next, found⟩ := Option.bind_eq_some_iff.mp found
    have shorter := length_advance_lt next
    exact .inl (Nat.lt_of_le_of_lt ((advances first rule found).length_le _) shorter)
  · exact .inr ⟨_, rfl, input.shallow_fault expected⟩

theorem moves_expect (kinds : List Kind) : (expect kinds).Moves := by
  refine moves_choose fun token rule found => ?_
  obtain ⟨-, rfl⟩ := by simpa using found
  exact advances_pure token

theorem Moves.map {rule : Rule α} (moves : rule.Moves) (change : α → β) :
    (change <$> rule).Moves := by
  rw [map_eq_pure_bind]
  exact moves.bind fun value => advances_pure (change value)

theorem Moves.after_look {question : Input → α} {next : α → Rule β}
    (moves : ∀ answer, (next answer).Moves) : Moves (do next (← look question)) :=
  fun input => moves (question input) input

theorem Moves.after_note {rule : Rule α} (moves : rule.Moves) (event : Input → Event) :
    Moves (do note event; rule) :=
  moves

theorem Moves.chain {element : Rule α} (moves : element.Moves) (advances : element.Advances)
    (join : α → α → α) : (chain join element).Moves := by
  have elements : Holding (fun _ => Advances) element element := advances
  refine moves.bind fun first => Advances.bind ?_ fun others => advances_pure _
  exact advances_manyFrom (fun _ => advances_congruence.nextInChain elements) 0

end Rule

open Rule

theorem Pattern.advances_within (limit budget : Nat) : (within limit budget).Advances :=
  advances_congruence.pattern_within 0 (advances_overNested limit) budget

theorem Pattern.moves_within (limit budget : Nat) : (within limit (budget + 1)).Moves := by
  have inner : Holding (fun _ => Advances) (within limit budget) (within limit budget) :=
    advances_within limit budget
  refine Moves.chain (Moves.after_note (moves_choose fun token rule found => ?_) _) ?_ _
  · obtain ⟨_, -, advances⟩ :=
      exists_of_rel (advances_congruence.pattern_ruleFor inner (.refl token)) found
    exact advances
  · exact advances_congruence.pattern_element inner

theorem Term.advances_within (limit budget : Nat) : (within limit budget).Advances :=
  advances_congruence.term_within 0 (advances_overNested limit) (advances_overNested limit) budget

theorem Term.moves_within (limit budget : Nat) : (within limit (budget + 1)).Moves := by
  have patterns : Holding (fun _ => Advances) (Pattern.within limit budget)
      (Pattern.within limit budget) := Pattern.advances_within limit budget
  have inner : Holding (fun _ => Advances) (within limit budget) (within limit budget) :=
    advances_within limit budget
  refine Moves.chain (Moves.after_note (moves_choose fun token rule found => ?_) _) ?_ _
  · obtain ⟨_, -, advances⟩ :=
      exists_of_rel (advances_congruence.term_ruleFor patterns inner (.refl token)) found
    exact advances
  · exact advances_congruence.term_element patterns inner

theorem Definition.moves_rule (limit : Nat) : (rule limit).Moves := by
  have patterns : Holding (fun _ => Advances) (Pattern.rule limit) (Pattern.rule limit) :=
    Pattern.advances_within limit limit
  refine (moves_expect [.letWord]).bind fun _ => (advances_expect [.identifier]).bind fun name => ?_
  refine Advances.bind (advances_congruence.note _) fun _ => ?_
  refine Advances.bind (advances_congruence.arguments? patterns) fun _ => ?_
  refine (advances_expect [.equals]).bind fun _ => ?_
  exact (Term.advances_within limit limit).bind fun _ => advances_pure _

theorem Item.moves_rule {limit : Nat} (positive : 0 < limit) : (rule limit).Moves := by
  obtain ⟨levels, rfl⟩ := Nat.exists_eq_add_one_of_ne_zero (Nat.ne_of_gt positive)
  refine Moves.after_note (Moves.after_look fun isLet => ?_) _
  cases isLet with
  | true => exact (Definition.moves_rule (levels + 1)).map _
  | false => exact (Term.moves_within (levels + 1) levels).map _

theorem Program.surpasses_rule {low high : Nat} (lower : low < high) :
    Surpasses low (rule low) (rule high) := by
  obtain ⟨extra, rfl⟩ := Nat.exists_eq_add_of_le' lower
  rw [Nat.add_succ, ← Nat.succ_add]
  apply (surpasses_congruence low).program_rule (extra + 1)
  · exact surpasses_overNested (Pattern.advances_within _ _) (Pattern.moves_within _ extra)
  · exact surpasses_overNested (Term.advances_within _ _) (Term.moves_within _ extra)

end TermScript

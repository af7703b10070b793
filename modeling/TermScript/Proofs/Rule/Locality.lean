import TermScript.Proofs.Rule.Congruence
import TermScript.Proofs.Rule.Elements

/-! Reading goes forward and looks at one token at a time. So what a rule does with the tokens in
front of some place, the next one included, stays the same whatever follows that one. It also stays
the same under a higher limit, unless the nesting is spent. -/

namespace TermScript

def Fault.Shallow (fault : Fault) : Prop :=
  ∀ limit place, fault ≠ .overNested limit place

theorem Input.shallow_fault (input : Input) (expected : Expectation) :
    (input.fault expected).Shallow := by
  unfold Input.fault
  split
  · exact nofun
  · exact nofun

namespace Rule

variable {α β : Type} {limit : Nat}

/-- What the rule leaves is the end of what it got. -/
def Advances (rule : Rule α) : Prop :=
  ∀ input, ∃ tokens, input = (rule input).rest.prepend tokens

theorem advances_pure (value : α) : (pure value : Rule α).Advances :=
  fun _ => ⟨[], rfl⟩

theorem Advances.length_le {rule : Rule α} (advances : rule.Advances) (input : Input) :
    (rule input).rest.ahead.length ≤ input.ahead.length := by
  obtain ⟨tokens, same⟩ := advances input
  have := congrArg (fun input => input.ahead.length) same
  simp only [Input.length_ahead_prepend] at this
  omega

theorem Advances.bind {rule : Rule α} {next : α → Rule β} (first : rule.Advances)
    (later : ∀ value, (next value).Advances) : (rule >>= next).Advances := by
  intro input
  obtain ⟨tokens, same⟩ := first input
  rcases outcome : rule input with ⟨fault | value, middle, events⟩
  · rw [bind_of_error outcome]
    rw [outcome] at same
    exact ⟨tokens, same⟩
  · rw [bind_of_ok outcome]
    rw [outcome] at same
    obtain ⟨others, rest⟩ := later value middle
    refine ⟨tokens ++ others, ?_⟩
    rw [← Input.prepend_prepend]
    exact same.trans (congrArg (Input.prepend tokens) rest)

theorem advances_accept (kind : Kind) : (accept kind).Advances := by
  intro input
  unfold accept
  split
  · rename_i starts
    obtain ⟨first, rest, rfl, -⟩ := (Input.startsWith_singleton_iff _ _).mp starts
    exact ⟨[first], rfl⟩
  · exact ⟨[], rfl⟩

theorem advances_choose {expected : Expectation} {ruleFor : Token → Option (Rule α)}
    (advances : ∀ token rule, ruleFor token = some rule → rule.Advances) :
    (choose expected ruleFor).Advances := by
  intro input
  unfold choose
  split
  · rename_i rule found
    obtain ⟨first, next, found⟩ := Option.bind_eq_some_iff.mp found
    obtain ⟨tokens, rest⟩ := advances first rule found input.advance
    refine ⟨first :: tokens, (Input.prepend_of_peek? next).trans ?_⟩
    exact congrArg (Input.prepend [first]) rest
  · exact ⟨[], rfl⟩

theorem advances_manyFrom {step : Nat → Rule (Option α)}
    (advances : ∀ index, (step index).Advances) (index : Nat) :
    Advances (manyFrom step index) := by
  intro input
  fun_induction manyFrom step index input with
  | case1 index input fault rest events outcome =>
      simpa only [outcome] using advances index input
  | case2 index input rest events outcome =>
      simpa only [outcome] using advances index input
  | case3 index input value middle events outcome shorter others =>
      rename_i induction
      have first := advances index input
      rw [outcome] at first
      obtain ⟨tokens, same⟩ := first
      obtain ⟨others, rest⟩ := induction
      refine ⟨tokens ++ others, ?_⟩
      rw [← Input.prepend_prepend]
      exact same.trans (congrArg (Input.prepend tokens) rest)
  | case4 index input value rest events outcome stays =>
      simpa only [outcome] using advances index input

theorem advances_expect (kinds : List Kind) : (expect kinds).Advances := by
  refine advances_choose fun token rule found => ?_
  obtain ⟨-, rfl⟩ := by simpa using found
  exact advances_pure token

theorem advances_congruence : Congruence (Holding fun _ => Advances) where
  pure := advances_pure
  bind := Advances.bind
  note _ _ := ⟨[], rfl⟩
  look _ _ := ⟨[], rfl⟩
  accept := advances_accept
  expect kinds _ _ later :=
    (advances_expect kinds).bind fun token => later token token (.refl token)
  choose _ _ _ advances := advances_choose fun token _ found => by
    obtain ⟨_, -, advances⟩ := exists_of_rel (advances token token (.refl token)) found
    exact advances
  manyFrom := advances_manyFrom

theorem advances_overNested (limit : Nat) : (overNested limit : Rule α).Advances :=
  fun _ => ⟨[], rfl⟩

/-- Two outcomes of reading the same tokens in front of two bases: the first run went on beyond its
base, or spent its nesting, or the second run did as it did. -/
inductive Alike (limit : Nat) (base base' : Input) (outcome outcome' : Outcome α) : Prop
  | beyond : outcome.rest.ahead.length < base.ahead.length →
      Alike limit base base' outcome outcome'
  | deep (place : Span) : outcome.result = .error (.overNested limit place) →
      Alike limit base base' outcome outcome'
  | same (front : List Token) : (∀ fault, outcome.result = .error fault → fault.Shallow) →
      outcome.result = outcome'.result → outcome.rest = base.prepend front →
      outcome'.rest = base'.prepend front → Alike limit base base' outcome outcome'

/-- In front of any two bases that begin alike, the second rule does as the first, which has this
limit. -/
structure Follows (limit : Nat) (rule rule' : Rule α) : Prop where
  advances : rule.Advances
  alike : ∀ ⦃base base' : Input⦄, base.peek? = base'.peek? → ∀ front,
    Alike limit base base' (rule (base.prepend front)) (rule' (base'.prepend front))

private theorem peek?_prepend_eq {base base' : Input} (agree : base.peek? = base'.peek?)
    (front : List Token) : (base.prepend front).peek? = (base'.prepend front).peek? := by
  cases front with
  | nil => exact agree
  | cons first others => rfl

section Outcomes

variable {base base' : Input} {events events' : List Event}

private theorem alike_ok (value : α) (front : List Token) :
    Alike limit base base' ⟨.ok value, base.prepend front, events⟩
      ⟨.ok value, base'.prepend front, events'⟩ :=
  .same front nofun rfl rfl rfl

private theorem alike_error {fault : Fault} (shallow : fault.Shallow) (front : List Token) :
    Alike limit base base' (⟨.error fault, base.prepend front, events⟩ : Outcome α)
      ⟨.error fault, base'.prepend front, events'⟩ :=
  .same front (fun _ same => Except.error.inj same ▸ shallow) rfl rfl rfl

private theorem Alike.map {outcome outcome' : Outcome α}
    (alike : Alike limit base base' outcome outcome') (change : α → β) :
    Alike limit base base' ⟨outcome.result.map change, outcome.rest, events⟩
      ⟨outcome'.result.map change, outcome'.rest, events'⟩ := by
  cases alike with
  | beyond further => exact .beyond further
  | deep place result => exact .deep place (congrArg (Except.map change) result)
  | same front shallow result rest rest' =>
      obtain ⟨ending, middle, events⟩ := outcome
      refine .same front (fun fault failed => ?_) (congrArg (Except.map change) result) rest rest'
      cases ending with
      | error fault =>
          cases failed
          exact shallow fault rfl
      | ok value => cases failed

end Outcomes

theorem follows_pure (value : α) : Follows limit (pure value : Rule α) (pure value) :=
  ⟨advances_pure value, fun _ _ _ front => alike_ok value front⟩

theorem follows_note (event : Input → Event) : Follows limit (note event) (note event) :=
  ⟨fun _ => ⟨[], rfl⟩, fun _ _ _ front => alike_ok () front⟩

theorem follows_overNested (limit : Nat) (rule : Rule α) : Follows limit (overNested limit) rule :=
  ⟨advances_overNested limit, fun _ _ _ _ => .deep _ rfl⟩

theorem follows_look {question : Input → α}
    (asks : ∀ input input' : Input, input.peek? = input'.peek? → question input = question input') :
    Follows limit (look question) (look question) := by
  refine ⟨fun _ => ⟨[], rfl⟩, fun base base' agree front => ?_⟩
  rw [look, look, asks _ _ (peek?_prepend_eq agree front)]
  exact alike_ok _ front

private theorem Alike.ok {base base' middle : Input} {value : α} {events : List Event}
    {outcome' : Outcome α} (alike : Alike limit base base' ⟨.ok value, middle, events⟩ outcome') :
    middle.ahead.length < base.ahead.length ∨
      ∃ front events', middle = base.prepend front ∧
        outcome' = ⟨.ok value, base'.prepend front, events'⟩ := by
  cases alike with
  | beyond further => exact .inl further
  | deep place result => cases result
  | same front _ result rest rest' =>
      obtain ⟨result', middle', events'⟩ := outcome'
      cases result
      cases rest'
      exact .inr ⟨front, events', rest, rfl⟩

private theorem Alike.error {base base' middle : Input} {fault : Fault} {events : List Event}
    {outcome' : Outcome α}
    (alike : Alike limit base base' ⟨.error fault, middle, events⟩ outcome') :
    middle.ahead.length < base.ahead.length ∨ (∃ place, fault = .overNested limit place) ∨
      ∃ front events', fault.Shallow ∧ middle = base.prepend front ∧
        outcome' = ⟨.error fault, base'.prepend front, events'⟩ := by
  cases alike with
  | beyond further => exact .inl further
  | deep place result =>
      cases result
      exact .inr (.inl ⟨place, rfl⟩)
  | same front shallow result rest rest' =>
      obtain ⟨result', middle', events'⟩ := outcome'
      cases result
      cases rest'
      exact .inr (.inr ⟨front, events', shallow fault rfl, rest, rfl⟩)

section Faults

variable {rule rule' : Rule α} {read : List Token} {fault : Fault}

/-- A fault that is not about nesting is found again wherever the input begins alike up to the token
that causes it. -/
theorem Follows.faults (follows : Follows limit rule rule') {base base' : Input}
    (agree : base.peek? = base'.peek?) (run : rule.Faults (base.prepend read) fault base)
    (shallow : fault.Shallow) : rule'.Faults (base'.prepend read) fault base' := by
  obtain ⟨events, outcome⟩ := run
  have alike := follows.alike agree read
  rw [outcome] at alike
  rcases alike.error with further | ⟨place, deep⟩ | ⟨front, events', -, whole, outcome'⟩
  · exact absurd further (Nat.lt_irrefl _)
  · exact absurd deep (shallow limit place)
  · -- The first run stops at its base, so nothing of the front is left.
    have := congrArg (fun input => input.ahead.length) whole
    simp only [Input.length_ahead_prepend] at this
    obtain rfl : front = [] := List.eq_nil_of_length_eq_zero (by omega)
    exact ⟨events', outcome'⟩

theorem Follows.faults_alike (follows : Follows limit rule rule') {input rest : Input}
    (run : rule.Faults input fault rest) (shallow : fault.Shallow) :
    rule'.Faults input fault rest := by
  obtain ⟨read, whole⟩ := follows.advances input
  rw [run.rest_eq] at whole
  rw [whole] at run ⊢
  exact follows.faults rfl run shallow

theorem Follows.limit_eq (follows : Follows limit rule rule') {input rest : Input} {high : Nat}
    {place : Span} (run : rule.Faults input (.overNested high place) rest) : high = limit := by
  obtain ⟨events, outcome⟩ := run
  obtain ⟨read, whole⟩ := follows.advances input
  rw [outcome] at whole
  have alike := follows.alike (Eq.refl rest.peek?) read
  rw [← whole, outcome] at alike
  rcases alike.error with further | ⟨_, same⟩ | ⟨_, _, shallow, -⟩
  · exact absurd further (Nat.lt_irrefl _)
  · cases same
    rfl
  · exact absurd rfl (shallow high place)

end Faults

theorem Follows.bind {rule rule' : Rule α} {next next' : α → Rule β}
    (first : Follows limit rule rule')
    (later : ∀ value, Follows limit (next value) (next' value)) :
    Follows limit (rule >>= next) (rule' >>= next') := by
  refine ⟨first.advances.bind fun value => (later value).advances, fun base base' agree front => ?_⟩
  have firstAlike := first.alike agree front
  rcases outcome : rule (base.prepend front) with ⟨fault | value, middle, events⟩
  · rw [bind_of_error outcome]
    rw [outcome] at firstAlike
    rcases firstAlike.error with
      further | ⟨place, rfl⟩ | ⟨others, events', shallow, rfl, outcome'⟩
    · exact .beyond further
    · exact .deep place rfl
    · rw [bind_of_error outcome']
      exact alike_error shallow others
  · rw [bind_of_ok outcome]
    rw [outcome] at firstAlike
    rcases firstAlike.ok with further | ⟨others, events', rfl, outcome'⟩
    · exact .beyond (Nat.lt_of_le_of_lt ((later value).advances.length_le middle) further)
    · rw [bind_of_ok outcome']
      cases (later value).alike agree others with
      | beyond further => exact .beyond further
      | deep place result => exact .deep place result
      | same front shallow result rest rest' => exact .same front shallow result rest rest'

theorem length_advance_lt {base : Input} {first : Token} (next : base.peek? = some first) :
    base.advance.ahead.length < base.ahead.length :=
  Input.length_ahead_lt_of_prepend (Input.prepend_of_peek? next)

theorem follows_accept (kind : Kind) : Follows limit (accept kind) (accept kind) := by
  refine ⟨advances_accept kind, fun base base' agree front => ?_⟩
  have asks : (base'.prepend front).startsWith [kind] = (base.prepend front).startsWith [kind] := by
    rw [Input.startsWith, Input.startsWith, peek?_prepend_eq agree]
  unfold accept
  rw [asks]
  split
  · rename_i starts
    cases front with
    | nil =>
        obtain ⟨first, next, -⟩ := (Input.startsWith_eq_true_iff _ _).mp starts
        exact .beyond (length_advance_lt next)
    | cons first others => exact alike_ok _ others
  · exact alike_ok _ front

theorem follows_choose {expected : Expectation} {ruleFor ruleFor' : Token → Option (Rule α)}
    (follows : ∀ token, Option.Rel (Follows limit) (ruleFor token) (ruleFor' token)) :
    Follows limit (choose expected ruleFor) (choose expected ruleFor') := by
  constructor
  · refine advances_choose fun token rule found => ?_
    obtain ⟨rule', -, follows⟩ := exists_of_rel (follows token) found
    exact follows.advances
  · intro base base' agree front
    have next' := peek?_prepend_eq agree front
    have shallow := (base.prepend front).shallow_fault expected
    have same : (base'.prepend front).fault expected = (base.prepend front).fault expected := by
      rw [Input.fault, Input.fault, next']
    unfold choose
    rw [same, ← next']
    cases next : (base.prepend front).peek? with
    | none => exact alike_error shallow front
    | some first =>
        rw [Option.bind_some, Option.bind_some]
        have related := follows first
        generalize ruleFor first = choice, ruleFor' first = choice' at related
        cases related with
        | none => exact alike_error shallow front
        | some follows =>
            cases front with
            | nil =>
                refine .beyond (Nat.lt_of_le_of_lt (follows.advances.length_le _) ?_)
                exact length_advance_lt next
            | cons head others => exact follows.alike agree others

theorem follows_expect (kinds : List Kind) : Follows limit (expect kinds) (expect kinds) := by
  refine follows_choose fun token => ?_
  split
  · exact .some (follows_pure token)
  · exact .none

theorem follows_manyFrom {step step' : Nat → Rule (Option α)}
    (follows : ∀ index, Follows limit (step index) (step' index)) (index : Nat) :
    Follows limit (manyFrom step index) (manyFrom step' index) := by
  have forward := advances_manyFrom fun index => (follows index).advances
  refine ⟨forward index, fun base base' agree front => ?_⟩
  -- A step goes on if it took a token away. Both runs have the same tokens in front of their bases,
  -- so they stop stepping together.
  have shorter_iff (left : List Token) (base : Input) :
      (base.prepend left).ahead.length < (base.prepend front).ahead.length ↔
        left.length < front.length := by
    simp only [Input.length_ahead_prepend]
    omega
  generalize whole : base.prepend front = input
  fun_induction manyFrom step index input generalizing front with
  | case1 index input fault rest events outcome =>
      have alike := (follows index).alike agree front
      rw [whole, outcome] at alike
      rcases alike.error with further | ⟨place, rfl⟩ | ⟨others, events', shallow, rfl, outcome'⟩
      · exact .beyond further
      · exact .deep place rfl
      · rw [manyFrom, outcome']
        exact alike_error shallow others
  | case2 index input rest events outcome =>
      have alike := (follows index).alike agree front
      rw [whole, outcome] at alike
      rcases alike.ok with further | ⟨others, events', rfl, outcome'⟩
      · exact .beyond further
      · rw [manyFrom, outcome']
        exact alike_ok _ others
  | case3 index input value middle events outcome shorter others =>
      rename_i induction
      have alike := (follows index).alike agree front
      rw [whole, outcome] at alike
      rcases alike.ok with further | ⟨left, events', rfl, outcome'⟩
      · exact .beyond (Nat.lt_of_le_of_lt ((forward (index + 1)).length_le middle) further)
      · rw [← whole, shorter_iff] at shorter
        rw [manyFrom, outcome']
        simp only [shorter_iff, shorter, ↓reduceIte]
        exact (induction left (by simp [Input.length_ahead_prepend]) rfl).map _
  | case4 index input value rest events outcome stays =>
      have alike := (follows index).alike agree front
      rw [whole, outcome] at alike
      rcases alike.ok with further | ⟨left, events', rfl, outcome'⟩
      · exact .beyond further
      · rw [← whole, shorter_iff] at stays
        rw [manyFrom, outcome']
        simp only [shorter_iff, stays, ↓reduceIte]
        exact alike_ok _ left

theorem follows_congruence (limit : Nat) : Congruence fun _ => Follows limit where
  pure := follows_pure
  bind := Follows.bind
  note := follows_note
  look asks := follows_look fun input input' agree =>
    asks input input' (congrArg (Option.map Token.kind) agree)
  accept := follows_accept
  expect kinds _ _ later := (follows_expect kinds).bind fun token => later token token (.refl token)
  choose _ _ _ follows := follows_choose fun token => follows token token (.refl token)
  manyFrom := follows_manyFrom

end Rule

theorem Program.follows_rule {limit limit' : Nat} (atMost : limit ≤ limit') :
    Rule.Follows limit (rule limit) (rule limit') := by
  obtain ⟨extra, rfl⟩ := Nat.exists_eq_add_of_le' atMost
  exact (Rule.follows_congruence limit).program_rule extra (Rule.follows_overNested limit _)
    (Rule.follows_overNested limit _)

end TermScript

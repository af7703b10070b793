import TermScript.Proofs.Rule.Runs

namespace TermScript

namespace Input

theorem startsWith_singleton_iff (input : Input) (kind : Kind) :
    input.startsWith [kind] = true ↔
      ∃ (first : Token) (rest : Input), input = rest.prepend [first] ∧ first.kind = kind := by
  rw [startsWith_eq_true_iff]
  constructor
  · intro starts
    obtain ⟨first, next, member⟩ := starts
    exact ⟨first, input.advance, prepend_of_peek? next, List.mem_singleton.mp member⟩
  · intro starts
    obtain ⟨first, rest, rfl, same⟩ := starts
    exact ⟨first, rfl, List.mem_singleton.mpr same⟩

@[simp] theorem endsAt_prepend_cons (first : Token) (others : List Token) (input : Input)
    (stops : List Kind) :
    (input.prepend (first :: others)).endsAt stops = stops.contains first.kind := by
  simp [endsAt]

theorem isEmpty_of_endsAt {input : Input} {stops : List Kind}
    (ends : input.endsAt stops = false) : input.isEmpty = false := by
  rw [endsAt, Bool.or_eq_false_iff] at ends
  exact ends.1

theorem length_ahead_lt_of_prepend {input rest : Input} {first : Token}
    (same : input = rest.prepend [first]) : rest.ahead.length < input.ahead.length := by
  rw [same, length_ahead_prepend]
  simp

end Input

namespace Rule

variable {α : Type}

/-- The rule never hands back more tokens than it got. -/
def NeverGrows (rule : Rule α) : Prop :=
  ∀ ⦃input value rest⦄, rule.Yields input value rest →
    rest.ahead.length ≤ input.ahead.length

theorem yields_closed {rule : Rule α} {close : Kind} {input rest : Input} {value : α} :
    Yields (do let value ← rule; let _ ← expect [close]; return value) input value rest ↔
      ∃ closer, rule.Yields input value (rest.prepend [closer]) ∧ closer.kind = close := by
  simp only [yields_bind, yields_expect_one, yields_pure]
  constructor
  · intro ends
    obtain ⟨first, middle, inner, closer, final, ⟨rfl, isClose⟩, rfl, rfl⟩ := ends
    exact ⟨closer, inner, isClose⟩
  · intro ends
    obtain ⟨closer, inner, isClose⟩ := ends
    exact ⟨value, _, inner, closer, rest, ⟨rfl, isClose⟩, rfl, rfl⟩

theorem faults_closed {rule : Rule α} {close : Kind} {input rest : Input} {fault : Fault} :
    Faults (do let value ← rule; let _ ← expect [close]; return value) input fault rest ↔
      rule.Faults input fault rest ∨
        ∃ value, rule.Yields input value rest ∧ rest.startsWith [close] = false ∧
          fault = rest.fault (.oneOf [close]) := by
  simp only [faults_bind, faults_expect, not_faults_pure, and_false, exists_false, or_false]
  constructor
  · intro ends
    rcases ends with inner | ⟨value, middle, inner, missing, same, rfl⟩
    · exact .inl inner
    · exact .inr ⟨value, inner, missing, same⟩
  · intro ends
    rcases ends with inner | ⟨value, inner, missing, same⟩
    · exact .inl inner
    · exact .inr ⟨value, rest, inner, missing, same, rfl⟩

section Lists

variable {stops : List Kind} {element : Rule α} {input rest : Input} {fault : Fault}

theorem yields_nextInList_none :
    (nextInList stops element).Yields input none rest ↔
      (input.endsAt stops = true ∧ rest = input) ∨
        (input.endsAt stops = false ∧ rest.endsAt stops = true ∧
          ∃ comma, input = rest.prepend [comma] ∧ comma.kind = .comma) := by
  unfold nextInList
  rw [yields_look_bind]
  cases ends : input.endsAt stops with
  | true => simp
  | false =>
      simp only [Bool.false_eq_true, ↓reduceIte, false_and, true_and, false_or]
      rw [yields_bind]
      simp only [yields_expect_one, yields_look_bind]
      constructor
      · intro run
        obtain ⟨comma, middle, ⟨rfl, isComma⟩, run⟩ := run
        cases final : middle.endsAt stops with
        | true =>
            rw [final, if_pos rfl, yields_pure] at run
            obtain ⟨-, rfl⟩ := run
            exact ⟨final, comma, rfl, isComma⟩
        | false =>
            rw [final, if_neg Bool.false_ne_true, yields_map] at run
            obtain ⟨value, -, impossible⟩ := run
            cases impossible
      · intro run
        obtain ⟨final, comma, rfl, isComma⟩ := run
        refine ⟨comma, rest, ⟨rfl, isComma⟩, ?_⟩
        rw [final, if_pos rfl, yields_pure]
        exact ⟨rfl, rfl⟩

theorem yields_nextInList_some {value : α} :
    (nextInList stops element).Yields input (some value) rest ↔
      input.endsAt stops = false ∧
        ∃ comma middle, input = middle.prepend [comma] ∧ comma.kind = .comma ∧
          middle.endsAt stops = false ∧ element.Yields middle value rest := by
  unfold nextInList
  rw [yields_look_bind]
  cases ends : input.endsAt stops with
  | true => simp
  | false =>
      simp only [Bool.false_eq_true, ↓reduceIte, true_and]
      rw [yields_bind]
      simp only [yields_expect_one, yields_look_bind]
      constructor
      · intro run
        obtain ⟨comma, middle, ⟨rfl, isComma⟩, run⟩ := run
        cases final : middle.endsAt stops with
        | true =>
            rw [final, if_pos rfl, yields_pure] at run
            obtain ⟨impossible, -⟩ := run
            cases impossible
        | false =>
            rw [final, if_neg Bool.false_ne_true, yields_map] at run
            obtain ⟨value', inner, same⟩ := run
            cases same
            exact ⟨comma, middle, rfl, isComma, final, inner⟩
      · intro run
        obtain ⟨comma, middle, rfl, isComma, final, inner⟩ := run
        refine ⟨comma, middle, ⟨rfl, isComma⟩, ?_⟩
        rw [final, if_neg Bool.false_ne_true, yields_map]
        exact ⟨value, inner, rfl⟩

theorem faults_nextInList :
    (nextInList stops element).Faults input fault rest ↔
      input.endsAt stops = false ∧
        ((input.startsWith [.comma] = false ∧ fault = input.fault (.oneOf [.comma]) ∧
            rest = input) ∨
          ∃ comma middle, input = middle.prepend [comma] ∧ comma.kind = .comma ∧
            middle.endsAt stops = false ∧ element.Faults middle fault rest) := by
  unfold nextInList
  rw [faults_look_bind]
  cases ends : input.endsAt stops with
  | true => simp
  | false =>
      simp only [Bool.false_eq_true, ↓reduceIte, true_and]
      rw [faults_bind, faults_expect]
      simp only [yields_expect_one, faults_look_bind]
      constructor
      · intro run
        rcases run with missing | ⟨comma, middle, ⟨rfl, isComma⟩, run⟩
        · exact .inl missing
        · cases final : middle.endsAt stops with
          | true =>
              rw [final, if_pos rfl] at run
              exact absurd run not_faults_pure
          | false =>
              rw [final, if_neg Bool.false_ne_true, faults_map] at run
              exact .inr ⟨comma, middle, rfl, isComma, final, run⟩
      · intro run
        rcases run with missing | ⟨comma, middle, rfl, isComma, final, run⟩
        · exact .inl missing
        · refine .inr ⟨comma, middle, ⟨rfl, isComma⟩, ?_⟩
          rw [final, if_neg Bool.false_ne_true, faults_map]
          exact run

theorem shrinks_nextInList (neverGrows : NeverGrows element) :
    Shrinks fun _ => nextInList stops element := by
  intro index input value rest run
  obtain ⟨-, comma, middle, same, -, -, inner⟩ := yields_nextInList_some.mp run
  have := neverGrows inner
  have := Input.length_ahead_lt_of_prepend same
  omega

theorem yields_sepByComma (neverGrows : NeverGrows element) {values : List α} :
    (sepByComma stops element).Yields input values rest ↔
      (input.endsAt stops = true ∧ values = [] ∧ rest = input) ∨
        (input.endsAt stops = false ∧
          ∃ first middle others last final, element.Yields input first middle ∧
            Walks (fun _ => nextInList stops element) 0 middle others last final ∧
            (nextInList stops element).Yields final none rest ∧ values = first :: others) := by
  unfold sepByComma
  rw [yields_look_bind]
  cases ends : input.endsAt stops with
  | true => simp
  | false =>
      simp only [Bool.false_eq_true, ↓reduceIte, false_and, true_and, false_or]
      simp only [yields_bind, yields_pure, yields_many (shrinks_nextInList neverGrows)]
      constructor
      · intro run
        obtain ⟨first, middle, inner, others, _, ⟨last, final, walks, stop⟩, rfl, rfl⟩ := run
        exact ⟨first, middle, others, last, final, inner, walks, stop, rfl⟩
      · intro run
        obtain ⟨first, middle, others, last, final, inner, walks, stop, rfl⟩ := run
        exact ⟨first, middle, inner, others, rest, ⟨last, final, walks, stop⟩, rfl, rfl⟩

theorem faults_sepByComma (neverGrows : NeverGrows element) :
    (sepByComma stops element).Faults input fault rest ↔
      input.endsAt stops = false ∧
        (element.Faults input fault rest ∨
          ∃ first middle others last final, element.Yields input first middle ∧
            Walks (fun _ => nextInList stops element) 0 middle others last final ∧
            (nextInList stops element).Faults final fault rest) := by
  unfold sepByComma
  rw [faults_look_bind]
  cases ends : input.endsAt stops with
  | true => simp
  | false =>
      simp only [Bool.false_eq_true, ↓reduceIte, true_and]
      rw [faults_bind]
      simp only [faults_bind, not_faults_pure, and_false, exists_false, or_false,
        faults_many (shrinks_nextInList neverGrows)]
      constructor
      · intro run
        rcases run with inner | ⟨first, middle, inner, others, last, final, walks, stop⟩
        · exact .inl inner
        · exact .inr ⟨first, middle, others, last, final, inner, walks, stop⟩
      · intro run
        rcases run with inner | ⟨first, middle, others, last, final, inner, walks, stop⟩
        · exact .inl inner
        · exact .inr ⟨first, middle, inner, others, last, final, walks, stop⟩

end Lists

theorem yields_arguments? {element : Rule α} {input rest : Input} {value : Option (List α)} :
    (arguments? element).Yields input value rest ↔
      (input.startsWith [.openParen] = false ∧ value = none ∧ rest = input) ∨
        ∃ opener middle values, input = middle.prepend [opener] ∧ opener.kind = .openParen ∧
          (listUntil .closeParen element).Yields middle values rest ∧ value = some values := by
  unfold arguments?
  rw [yields_accept_bind, if_pos rfl, if_neg Bool.false_ne_true, yields_map, yields_pure]
  constructor
  · intro run
    rcases run with ⟨starts, values, inner, same⟩ | missing
    · obtain ⟨opener, middle, rfl, opens⟩ := (Input.startsWith_singleton_iff _ _).mp starts
      exact .inr ⟨opener, middle, values, rfl, opens, inner, same⟩
    · exact .inl missing
  · intro run
    rcases run with missing | ⟨opener, middle, values, rfl, opens, inner, same⟩
    · exact .inr missing
    · exact .inl ⟨by simp [opens], values, inner, same⟩

theorem faults_arguments? {element : Rule α} {input rest : Input} {fault : Fault} :
    (arguments? element).Faults input fault rest ↔
      ∃ opener middle, input = middle.prepend [opener] ∧ opener.kind = .openParen ∧
        (listUntil .closeParen element).Faults middle fault rest := by
  unfold arguments?
  rw [faults_accept_bind, if_pos rfl, if_neg Bool.false_ne_true, faults_map]
  constructor
  · intro run
    rcases run with ⟨starts, inner⟩ | ⟨-, impossible⟩
    · obtain ⟨opener, middle, rfl, opens⟩ := (Input.startsWith_singleton_iff _ _).mp starts
      exact ⟨opener, middle, rfl, opens, inner⟩
    · exact absurd impossible not_faults_pure
  · intro run
    obtain ⟨opener, middle, rfl, opens, inner⟩ := run
    exact .inl ⟨by simp [opens], inner⟩

section Chains

variable {element : Rule α} {input rest : Input} {fault : Fault}

theorem yields_nextInChain_none :
    (nextInChain element).Yields input none rest ↔
      input.startsWith [.colon] = false ∧ rest = input := by
  unfold nextInChain
  rw [yields_accept_bind, if_pos rfl, if_neg Bool.false_ne_true, yields_map, yields_pure]
  simp

theorem yields_nextInChain_some {value : α} :
    (nextInChain element).Yields input (some value) rest ↔
      ∃ colon middle, input = middle.prepend [colon] ∧ colon.kind = .colon ∧
        element.Yields middle value rest := by
  unfold nextInChain
  rw [yields_accept_bind, if_pos rfl, if_neg Bool.false_ne_true, yields_map, yields_pure]
  constructor
  · intro run
    rcases run with ⟨starts, value', inner, same⟩ | ⟨-, impossible, -⟩
    · obtain ⟨colon, middle, rfl, isColon⟩ := (Input.startsWith_singleton_iff _ _).mp starts
      cases same
      exact ⟨colon, middle, rfl, isColon, inner⟩
    · cases impossible
  · intro run
    obtain ⟨colon, middle, rfl, isColon, inner⟩ := run
    exact .inl ⟨by simp [isColon], value, inner, rfl⟩

theorem faults_nextInChain :
    (nextInChain element).Faults input fault rest ↔
      ∃ colon middle, input = middle.prepend [colon] ∧ colon.kind = .colon ∧
        element.Faults middle fault rest := by
  unfold nextInChain
  rw [faults_accept_bind, if_pos rfl, if_neg Bool.false_ne_true, faults_map]
  constructor
  · intro run
    rcases run with ⟨starts, inner⟩ | ⟨-, impossible⟩
    · obtain ⟨colon, middle, rfl, isColon⟩ := (Input.startsWith_singleton_iff _ _).mp starts
      exact ⟨colon, middle, rfl, isColon, inner⟩
    · exact absurd impossible not_faults_pure
  · intro run
    obtain ⟨colon, middle, rfl, isColon, inner⟩ := run
    exact .inl ⟨by simp [isColon], inner⟩

theorem shrinks_nextInChain (neverGrows : NeverGrows element) :
    Shrinks fun _ => nextInChain element := by
  intro index input value rest run
  obtain ⟨colon, middle, same, -, inner⟩ := yields_nextInChain_some.mp run
  have := neverGrows inner
  have := Input.length_ahead_lt_of_prepend same
  omega

theorem yields_chain (neverGrows : NeverGrows element) {join : α → α → α} {value : α} :
    (chain join element).Yields input value rest ↔
      ∃ first middle others last, element.Yields input first middle ∧
        Walks (fun _ => nextInChain element) 0 middle others last rest ∧
        rest.startsWith [.colon] = false ∧ value = joinRight join first others := by
  unfold chain
  simp only [yields_bind, yields_pure, yields_many (shrinks_nextInChain neverGrows)]
  constructor
  · intro run
    obtain ⟨first, middle, inner, others, _, ⟨last, final, walks, stop⟩, rfl, rfl⟩ := run
    obtain ⟨noColon, rfl⟩ := yields_nextInChain_none.mp stop
    exact ⟨first, middle, others, last, inner, walks, noColon, rfl⟩
  · intro run
    obtain ⟨first, middle, others, last, inner, walks, noColon, rfl⟩ := run
    exact ⟨first, middle, inner, others, rest,
      ⟨last, rest, walks, yields_nextInChain_none.mpr ⟨noColon, rfl⟩⟩, rfl, rfl⟩

theorem faults_chain (neverGrows : NeverGrows element) {join : α → α → α} :
    (chain join element).Faults input fault rest ↔
      element.Faults input fault rest ∨
        ∃ first middle others last final, element.Yields input first middle ∧
          Walks (fun _ => nextInChain element) 0 middle others last final ∧
          (nextInChain element).Faults final fault rest := by
  unfold chain
  rw [faults_bind]
  simp only [faults_bind, not_faults_pure, and_false, exists_false, or_false,
    faults_many (shrinks_nextInChain neverGrows)]
  constructor
  · intro run
    rcases run with inner | ⟨first, middle, inner, others, last, final, walks, stop⟩
    · exact .inl inner
    · exact .inr ⟨first, middle, others, last, final, inner, walks, stop⟩
  · intro run
    rcases run with inner | ⟨first, middle, others, last, final, inner, walks, stop⟩
    · exact .inl inner
    · exact .inr ⟨first, middle, inner, others, last, final, walks, stop⟩

end Chains

end Rule

end TermScript

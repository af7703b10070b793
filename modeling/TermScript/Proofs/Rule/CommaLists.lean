import TermScript.Proofs.Grammar.ViablePrefix

/-! What reading a list with commas comes to, for any rule of its elements: the runs that it is made
of, and every way in which it breaks off. -/

namespace TermScript

private theorem Input.exists_prepend_of_not_endsAt {input : Input} {stops : List Kind}
    (goesOn : input.endsAt stops = false) :
    ∃ first rest, input = (⟨rest, input.finish⟩ : Input).prepend [first] ∧ first.kind ∉ stops := by
  obtain ⟨ahead, finish⟩ := input
  cases ahead with
  | nil => cases goesOn
  | cons first rest =>
      refine ⟨first, rest, rfl, fun stop => ?_⟩
      simp [endsAt, isEmpty, startsWith, peek?, stop] at goesOn

namespace Rule

variable {α : Type}

/-- The rule fails in front of a comma and leaves it there. -/
def RefusesCommas (rule : Rule α) : Prop :=
  ∀ ⦃input⦄, input.startsWith [.comma] = true → ∃ fault, rule.Faults input fault input

section Runs

variable (stops : List Kind) (element : Rule α)

/-- Runs of the element one after the other, with one comma between each two. None of them starts
where a list ends. -/
inductive ElementRuns : Input → List α → Input → Prop
  | one {input rest : Input} {value : α} :
      input.endsAt stops = false → element.Yields input value rest →
      ElementRuns input [value] rest
  | more {input middle rest : Input} {comma : Token} {value : α} {values : List α} :
      input.endsAt stops = false → element.Yields input value (middle.prepend [comma]) →
      comma.kind = .comma → ElementRuns middle values rest →
      ElementRuns input (value :: values) rest

/-- The runs of a whole list, up to where it ends. -/
inductive ListRuns : Input → List α → Input → Prop
  | empty {input : Input} : input.endsAt stops = true → ListRuns input [] input
  | plain {input rest : Input} {values : List α} :
      ElementRuns stops element input values rest → rest.endsAt stops = true →
      ListRuns input values rest
  | trailing {input rest : Input} {comma : Token} {values : List α} :
      ElementRuns stops element input values (rest.prepend [comma]) → comma.kind = .comma →
      rest.endsAt stops = true → ListRuns input values rest

/-- The runs of a list that breaks off: its element fails, the first or one behind a comma, or there
is another token than a comma behind an element. -/
inductive ListBreaks : Input → Fault → Input → Prop
  | first {input rest : Input} {fault : Fault} :
      input.endsAt stops = false → element.Faults input fault rest → ListBreaks input fault rest
  | later {input middle rest : Input} {comma : Token} {values : List α} {fault : Fault} :
      ElementRuns stops element input values (middle.prepend [comma]) → comma.kind = .comma →
      middle.endsAt stops = false → element.Faults middle fault rest →
      ListBreaks input fault rest
  | noComma {input rest : Input} {token : Token} {values : List α} :
      ElementRuns stops element input values (rest.prepend [token]) → token.kind ∉ stops →
      token.kind ≠ .comma →
      ListBreaks input (.unexpected (.oneOf [.comma]) token) (rest.prepend [token])

end Runs

variable {stops : List Kind} {element : Rule α} {input rest : Input} {values : List α}

private theorem elementRuns_of_walks {first : α} {others : List α} {middle : Input}
    {index last : Nat} (begins : input.endsAt stops = false)
    (run : element.Yields input first middle)
    (walks : Walks (fun _ => nextInList stops element) index middle others last rest) :
    ElementRuns stops element input (first :: others) rest := by
  induction walks generalizing input first with
  | start => exact .one begins run
  | further step _ induction =>
      obtain ⟨-, comma, next, rfl, isComma, nextBegins, nextRun⟩ := yields_nextInList_some.mp step
      exact .more begins run isComma (induction nextBegins nextRun)

private theorem ElementRuns.begins (runs : ElementRuns stops element input values rest) :
    input.endsAt stops = false := by
  cases runs with
  | one begins => exact begins
  | more begins => exact begins

private theorem ElementRuns.exists_walks (noComma : .comma ∉ stops)
    (runs : ElementRuns stops element input values rest) (index : Nat) :
    ∃ first others middle last, values = first :: others ∧ element.Yields input first middle ∧
      Walks (fun _ => nextInList stops element) index middle others last rest := by
  induction runs generalizing index with
  | one _ run => exact ⟨_, [], _, index, rfl, run, .start index _⟩
  | @more input middle rest comma value values _ run isComma others induction =>
      obtain ⟨second, later, next, last, rfl, secondRun, walks⟩ := induction (index + 1)
      have opened : (middle.prepend [comma]).endsAt stops = false := by simp [isComma, noComma]
      have step := yields_nextInList_some.mpr
        ⟨opened, comma, middle, rfl, isComma, others.begins, secondRun⟩
      exact ⟨value, second :: later, _, last, rfl, run, .further step walks⟩

section Lists

variable (noComma : .comma ∉ stops) (neverGrows : NeverGrows element)

include noComma neverGrows

theorem yields_sepByComma_iff :
    (sepByComma stops element).Yields input values rest ↔
      ListRuns stops element input values rest := by
  rw [yields_sepByComma neverGrows]
  constructor
  · intro run
    rcases run with ⟨ended, rfl, rfl⟩ |
      ⟨begins, first, middle, others, last, final, firstRun, walks, stop, rfl⟩
    · exact .empty ended
    · have runs := elementRuns_of_walks begins firstRun walks
      rcases yields_nextInList_none.mp stop with ⟨ended, rfl⟩ | ⟨-, ended, comma, rfl, isComma⟩
      · exact .plain runs ended
      · exact .trailing runs isComma ended
  · intro run
    cases run with
    | empty ended => exact .inl ⟨ended, rfl, rfl⟩
    | plain runs ended =>
        obtain ⟨first, others, middle, last, rfl, firstRun, walks⟩ := runs.exists_walks noComma 0
        exact .inr ⟨runs.begins, first, middle, others, last, rest, firstRun, walks,
          yields_nextInList_none.mpr (.inl ⟨ended, rfl⟩), rfl⟩
    | trailing runs isComma ended =>
        obtain ⟨first, others, middle, last, rfl, firstRun, walks⟩ := runs.exists_walks noComma 0
        refine .inr ⟨runs.begins, first, middle, others, last, _, firstRun, walks, ?_, rfl⟩
        exact yields_nextInList_none.mpr
          (.inr ⟨by simp [isComma, noComma], ended, _, rfl, isComma⟩)

theorem faults_sepByComma_iff {fault : Fault} :
    (sepByComma stops element).Faults input fault rest ↔
      ListBreaks stops element input fault rest := by
  rw [faults_sepByComma neverGrows]
  constructor
  · intro run
    obtain ⟨begins, failed | ⟨first, middle, others, last, final, firstRun, walks, stop⟩⟩ := run
    · exact .first begins failed
    · have runs := elementRuns_of_walks begins firstRun walks
      obtain ⟨opened, ⟨missing, rfl, rfl⟩ | ⟨comma, next, rfl, isComma, nextBegins, failed⟩⟩ :=
        faults_nextInList.mp stop
      · obtain ⟨token, later, split, notStop⟩ := Input.exists_prepend_of_not_endsAt opened
        rw [split] at runs missing ⊢
        exact .noComma runs notStop (by simpa using missing)
      · exact .later runs isComma nextBegins failed
  · intro run
    cases run with
    | first begins failed => exact ⟨begins, .inl failed⟩
    | later runs isComma nextBegins failed =>
        obtain ⟨first, others, middle, last, rfl, firstRun, walks⟩ := runs.exists_walks noComma 0
        refine ⟨runs.begins, .inr ⟨first, middle, others, last, _, firstRun, walks, ?_⟩⟩
        exact faults_nextInList.mpr
          ⟨by simp [isComma, noComma], .inr ⟨_, _, rfl, isComma, nextBegins, failed⟩⟩
    | noComma runs notStop notComma =>
        obtain ⟨first, others, middle, last, rfl, firstRun, walks⟩ := runs.exists_walks noComma 0
        refine ⟨runs.begins, .inr ⟨first, middle, others, last, _, firstRun, walks, ?_⟩⟩
        exact faults_nextInList.mpr
          ⟨by simp [notStop], .inl ⟨by simp [notComma], rfl, rfl⟩⟩

theorem exists_listRuns_or_listBreaks (input : Input) :
    (∃ values rest, ListRuns stops element input values rest) ∨
      ∃ fault rest, ListBreaks stops element input fault rest := by
  rcases outcome : sepByComma stops element input with ⟨fault | values, rest, events⟩
  · exact .inr ⟨fault, rest, (faults_sepByComma_iff noComma neverGrows).mp ⟨events, outcome⟩⟩
  · exact .inl ⟨values, rest, (yields_sepByComma_iff noComma neverGrows).mp ⟨events, outcome⟩⟩

end Lists

end Rule

open Rule

private theorem Input.startsWith_eq_false_of_comma {input : Input} {kinds : List Kind}
    (comma : input.startsWith [.comma] = true) (absent : .comma ∉ kinds) :
    input.startsWith kinds = false := by
  obtain ⟨first, rest, rfl, isComma⟩ := (startsWith_singleton_iff _ _).mp comma
  simp [isComma, absent]

theorem Rule.RefusesCommas.chain {α : Type} {join : α → α → α} {element : Rule α}
    (refuses : RefusesCommas element) (neverGrows : NeverGrows element) :
    RefusesCommas (chain join element) := by
  intro input comma
  obtain ⟨fault, failed⟩ := refuses comma
  exact ⟨fault, (faults_chain neverGrows).mpr (.inl failed)⟩

theorem Pattern.refusesCommas (limit budget : Nat) : RefusesCommas (within limit budget) := by
  cases budget with
  | zero => exact fun _ _ => ⟨_, faults_overNested.mpr ⟨rfl, rfl⟩⟩
  | succ budget =>
      have final := reads_final (reads_within limit budget).1 (reads_within limit budget).2
      refine RefusesCommas.chain (fun input comma => ?_) final.neverGrows
      have misfit := Input.startsWith_eq_false_of_comma comma
        (by decide : Kind.comma ∉ Expectation.patternStarts)
      exact ⟨_, faults_element.mpr (.inr ⟨misfit, rfl, rfl⟩)⟩

theorem Term.refusesCommas (limit budget : Nat) : RefusesCommas (within limit budget) := by
  cases budget with
  | zero => exact fun _ _ => ⟨_, faults_overNested.mpr ⟨rfl, rfl⟩⟩
  | succ budget =>
      have elements := reads_element (Pattern.reads_within limit budget).1
        (reads_within limit budget)
      refine RefusesCommas.chain (fun input comma => ?_) elements.neverGrows
      have misfit := Input.startsWith_eq_false_of_comma comma
        (by decide : Kind.comma ∉ Expectation.termStarts)
      exact ⟨_, faults_element.mpr (.inr ⟨misfit, rfl, rfl⟩)⟩

theorem Clause.refusesCommas {pattern : Rule Pattern} (neverGrows : NeverGrows pattern)
    (refuses : RefusesCommas pattern) (term : Rule Term) :
    RefusesCommas (Clause.rule pattern term) := by
  intro input comma
  obtain ⟨fault, failed⟩ := refuses comma
  obtain ⟨first, rest, rfl, isComma⟩ := (Input.startsWith_singleton_iff _ _).mp comma
  refine ⟨fault, faults_bind.mpr (.inl (faults_closed.mpr (.inl ?_)))⟩
  exact (faults_sepByComma neverGrows).mpr ⟨by simp [isComma], .inl failed⟩

namespace Rule

variable {α : Type} {stops : List Kind} {element : Rule α}

/-- A list with commas is read exactly as runs of its element with one comma between each two, up to
its end, or up to one more comma and its end. Every other list breaks off where the element fails or
where a comma is missing. A comma too many, the first of all or behind another, is where the element
fails. -/
theorem sepByComma_reads_exactly (noComma : .comma ∉ stops) (neverGrows : NeverGrows element)
    (refuses : RefusesCommas element) (input : Input) :
    (∀ values rest, (sepByComma stops element).Yields input values rest ↔
      ListRuns stops element input values rest) ∧
    (∀ fault rest, (sepByComma stops element).Faults input fault rest ↔
      ListBreaks stops element input fault rest) ∧
    ((∃ values rest, ListRuns stops element input values rest) ∨
      ∃ fault rest, ListBreaks stops element input fault rest) ∧
    (input.startsWith [.comma] = true → ∃ fault, element.Faults input fault input ∧
      (sepByComma stops element).Faults input fault input) ∧
    ∀ values comma second, ElementRuns stops element input values (second.prepend [comma]) →
      comma.kind = .comma → second.startsWith [.comma] = true →
      ∃ fault, element.Faults second fault second ∧
        (sepByComma stops element).Faults input fault second := by
  have goesOn {input : Input} (starts : input.startsWith [.comma] = true) :
      input.endsAt stops = false := by
    obtain ⟨comma, rest, rfl, isComma⟩ := (Input.startsWith_singleton_iff _ _).mp starts
    simp [isComma, noComma]
  have breaks {input rest : Input} {fault : Fault} : (sepByComma stops element).Faults input fault
      rest ↔ ListBreaks stops element input fault rest :=
    faults_sepByComma_iff noComma neverGrows
  refine ⟨fun _ _ => yields_sepByComma_iff noComma neverGrows, fun _ _ => breaks,
    exists_listRuns_or_listBreaks noComma neverGrows input, ?_, ?_⟩
  · intro leading
    obtain ⟨fault, failed⟩ := refuses leading
    exact ⟨fault, failed, breaks.mpr (.first (goesOn leading) failed)⟩
  · intro values comma second runs isComma doubled
    obtain ⟨fault, failed⟩ := refuses doubled
    exact ⟨fault, failed, breaks.mpr (.later runs isComma (goesOn doubled) failed)⟩

/-- Tokens of these kinds, up to the end of an input. -/
def row (kinds : List Kind) : Input :=
  ⟨kinds.map .sample, ⟨0, 0⟩⟩

/-- The clauses of a match, with a comma in front of the first; and a single name with a comma
behind it, and with two. -/
theorem sepByComma_reads_exactly_superfluous :
    let clause := Clause.rule (Pattern.rule 1) (Term.rule 1)
    ((.comma ∉ [Kind.closeBrace] ∧ NeverGrows clause ∧ RefusesCommas clause) ∧
      ∃ fault, (sepByComma [.closeBrace] clause).Faults (row [.comma, .closeBrace]) fault
        (row [.comma, .closeBrace])) ∧
    (.comma ∉ [Kind.closeParen] ∧ NeverGrows (Term.rule 1) ∧ RefusesCommas (Term.rule 1)) ∧
    (sepByComma [.closeParen] (Term.rule 1)).Yields (row [.identifier, .comma, .closeParen])
      [.var (Token.sample .identifier).text] (row [.closeParen]) ∧
    ∃ fault, (sepByComma [.closeParen] (Term.rule 1)).Faults
      (row [.identifier, .comma, .comma, .closeParen]) fault (row [.comma, .closeParen]) := by
  have notBrace : .comma ∉ [Kind.closeBrace] := by decide
  have notParen : .comma ∉ [Kind.closeParen] := by decide
  have patterns := (Pattern.reads_within 1 1).1
  have clauseGrows := (Clause.reads_rule patterns (Term.reads_within 1 1)).neverGrows
  have clauseRefuses :=
    Clause.refusesCommas patterns.neverGrows (Pattern.refusesCommas 1 1) (Term.rule 1)
  have termGrows := (Term.reads_within 1 1).neverGrows
  have termRefuses := Term.refusesCommas 1 1
  have derives : Term.Derives 1 [.sample .identifier] (.var (Token.sample .identifier).text) :=
    .last (.var rfl)
  have run (kinds : List Kind) : ElementRuns [.closeParen] (Term.rule 1)
      (row (.identifier :: .comma :: kinds)) [.var (Token.sample .identifier).text]
      ((row kinds).prepend [.sample .comma]) :=
    .one rfl ((Term.recognises_within 1 1).completes (row (.comma :: kinds)) derives rfl)
  refine ⟨⟨⟨notBrace, clauseGrows, clauseRefuses⟩, ?_⟩, ⟨notParen, termGrows, termRefuses⟩, ?_, ?_⟩
  · obtain ⟨fault, -, failed⟩ :=
      (sepByComma_reads_exactly notBrace clauseGrows clauseRefuses
        (row [.comma, .closeBrace])).2.2.2.1 rfl
    exact ⟨fault, failed⟩
  · exact ((sepByComma_reads_exactly notParen termGrows termRefuses _).1 _ _).mpr
      (.trailing (run [.closeParen]) rfl rfl)
  · obtain ⟨fault, -, failed⟩ :=
      (sepByComma_reads_exactly notParen termGrows termRefuses _).2.2.2.2
        _ _ _ (run [.comma, .closeParen]) rfl rfl
    exact ⟨fault, failed⟩

end Rule

end TermScript

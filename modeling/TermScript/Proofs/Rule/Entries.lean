import TermScript.Proofs.Grammar.Soundness
import TermScript.Proofs.Rule.Congruence

/-! Where reading enters its rules for the elements of terms and patterns. The tokens alone tell
these places: each by its kind and by the kind of the token before it. Nothing is read twice, so
every place is entered once, in the order of the tokens. -/

namespace TermScript

/-- The place where an element of a term or of a pattern begins. -/
def Event.entered? : Event → Option Input
  | .begins .term input => some input
  | .begins .pattern input => some input
  | _ => none

def Event.completion? : Event → Option (Nat × String)
  | .completes index label => some (index, label)
  | _ => none

namespace Outcome

variable {α : Type}

def entries (outcome : Outcome α) : List Input :=
  outcome.events.filterMap Event.entered?

end Outcome

/-- Does an element begin with a token of this kind, behind one of the previous kind? A name behind
the word `let` is that of a definition, and a parenthesis behind a name holds arguments. -/
def Kind.beginsElement (previous : Option Kind) : Kind → Bool
  | .atom | .quotedAtom | .string | .openBracket | .matchWord | .underscore => true
  | .identifier => previous ≠ some .letWord
  | .openParen => previous ∉ [some .identifier, some .atom, some .quotedAtom]
  | _ => false

/-- The inputs that begin with these tokens, if there is some rest behind the row. -/
def Input.elementPlaces (rest : Input) : Option Kind → List Token → List Input
  | _, [] => []
  | previous, token :: others =>
      let later := rest.elementPlaces (some token.kind) others
      if token.kind.beginsElement previous then rest.prepend (token :: others) :: later else later

/-- The kind of the last token, or the previous kind if there is none. -/
def lastKind (previous : Option Kind) (tokens : List Token) : Option Kind :=
  tokens.foldl (fun _ token => some token.kind) previous

namespace Input

private theorem elementPlaces_append (rest : Input) (previous : Option Kind)
    (front back : List Token) :
    rest.elementPlaces previous (front ++ back) =
      (rest.prepend back).elementPlaces previous front ++
        rest.elementPlaces (lastKind previous front) back := by
  induction front generalizing previous with
  | nil => rfl
  | cons token others induction =>
      simp only [List.cons_append, elementPlaces, induction, prepend_prepend]
      split
      · rfl
      · rfl

end Input

/-- Reading entered the rules for elements at every place where one begins in the tokens read, and
if it failed, perhaps once more where it failed. -/
inductive Outcome.Enters {α : Type} (previous : Option Kind) (input : Input) (outcome : Outcome α) :
    Prop
  | each {read : List Token} : input = outcome.rest.prepend read →
      outcome.entries = outcome.rest.elementPlaces previous read → Enters previous input outcome
  | misfit {read : List Token} {fault : Fault} : input = outcome.rest.prepend read →
      outcome.result = .error fault →
      outcome.entries = outcome.rest.elementPlaces previous read ++ [outcome.rest] →
      Enters previous input outcome

theorem Outcome.Enters.of_ok {α : Type} {previous : Option Kind} {input : Input}
    {outcome : Outcome α} {value : α} (enters : outcome.Enters previous input)
    (ends : outcome.result = .ok value) :
    ∃ read, input = outcome.rest.prepend read ∧
      outcome.entries = outcome.rest.elementPlaces previous read := by
  cases enters with
  | each split entered => exact ⟨_, split, entered⟩
  | misfit _ failed =>
      rw [ends] at failed
      cases failed

/-- Every element was entered once, and no event was noted but allowed ones. -/
structure Outcome.Announces {α : Type} (allowed : Event → Prop) (previous : Option Kind)
    (input : Input) (outcome : Outcome α) : Prop where
  enters : outcome.Enters previous input
  allows : ∀ event ∈ outcome.events, allowed event

def Rule.Announces {α : Type} (allowed : Event → Prop) (previous : Option Kind) (rule : Rule α) :
    Prop :=
  ∀ input, (rule input).Announces allowed previous input

namespace Outcome.Announces

variable {α β : Type} {allowed : Event → Prop} {previous : Option Kind} {input middle : Input}

theorem nothing {outcome : Outcome α} (stays : outcome.rest = input) (quiet : outcome.events = []) :
    outcome.Announces allowed previous input where
  enters := .each ((Input.prepend_nil _).trans stays).symm (by rw [entries, quiet]; rfl)
  allows := by simp [quiet]

theorem extend {outcome : Outcome α} {whole : Outcome β} {earlier : List Event} (read : List Token)
    (later : outcome.Announces allowed (lastKind previous read) middle)
    (split : input = middle.prepend read)
    (entered : earlier.filterMap Event.entered? = middle.elementPlaces previous read)
    (allows : ∀ event ∈ earlier, allowed event) (rest : whole.rest = outcome.rest)
    (events : whole.events = earlier ++ outcome.events)
    (failed : ∀ fault, outcome.result = .error fault → whole.result = .error fault) :
    whole.Announces allowed previous input := by
  have entries : whole.entries = middle.elementPlaces previous read ++ outcome.entries := by
    rw [entries, events, List.filterMap_append, entered, Outcome.entries]
  refine ⟨?_, fun event member => ?_⟩
  · cases later.enters with
    | @each others split' entered' =>
        have whole' : input = whole.rest.prepend (read ++ others) := by
          rw [split, split', rest, Input.prepend_prepend]
        refine .each whole' ?_
        rw [entries, entered', rest, Input.elementPlaces_append, split']
    | @misfit others fault split' failed' entered' =>
        have whole' : input = whole.rest.prepend (read ++ others) := by
          rw [split, split', rest, Input.prepend_prepend]
        refine .misfit whole' (failed fault failed') ?_
        rw [entries, entered', rest, Input.elementPlaces_append, split', List.append_assoc]
  · rw [events] at member
    rcases List.mem_append.mp member with member | member
    · exact allows event member
    · exact later.allows event member

theorem keep {outcome : Outcome α} {whole : Outcome β}
    (announces : outcome.Announces allowed previous input) (rest : whole.rest = outcome.rest)
    (events : whole.events = outcome.events)
    (failed : ∀ fault, outcome.result = .error fault → whole.result = .error fault) :
    whole.Announces allowed previous input := by
  have quiet : [].filterMap Event.entered? = input.elementPlaces previous [] := rfl
  exact extend [] announces rfl quiet (by simp) rest events failed

theorem behind {outcome : Outcome α} {token : Token}
    (later : outcome.Announces allowed (some token.kind) middle)
    (plain : token.kind.beginsElement previous = false) :
    outcome.Announces allowed previous (middle.prepend [token]) := by
  have quiet : [].filterMap Event.entered? = middle.elementPlaces previous [token] := by
    simp [Input.elementPlaces, plain]
  exact extend [token] later rfl quiet (by simp) rfl rfl fun _ failed => failed

end Outcome.Announces

namespace Rule

variable {α β : Type} {allowed : Event → Prop} {previous : Option Kind}

theorem Announces.mono {rule : Rule α} {more : Event → Prop}
    (announces : rule.Announces allowed previous) (allows : ∀ event, allowed event → more event) :
    rule.Announces more previous :=
  fun input => ⟨(announces input).enters,
    fun event member => allows event ((announces input).allows event member)⟩

theorem announces_pure (value : α) : Announces allowed previous (pure value) :=
  fun _ => .nothing rfl rfl

theorem announces_overNested (limit : Nat) :
    Announces allowed previous (overNested limit : Rule α) :=
  fun _ => .nothing rfl rfl

/-- The first rule may end with a token of any kind, so what follows must not mind which. -/
theorem Announces.bind {rule : Rule α} {next : α → Rule β}
    (first : rule.Announces allowed previous)
    (later : ∀ value previous, (next value).Announces allowed previous) :
    (rule >>= next).Announces allowed previous := by
  intro input
  have announces := first input
  rcases outcome : rule input with ⟨fault | value, middle, events⟩
  · rw [outcome] at announces
    rw [bind_of_error outcome]
    exact announces.keep rfl rfl fun _ failed => by cases failed; rfl
  · rw [outcome] at announces
    obtain ⟨read, split, entered⟩ := announces.enters.of_ok rfl
    rw [bind_of_ok outcome]
    exact .extend read (later value _ middle) split entered announces.allows rfl rfl
      fun _ failed => failed

theorem Announces.map {rule : Rule α} (announces : rule.Announces allowed previous)
    (change : α → β) : (change <$> rule).Announces allowed previous := by
  rw [map_eq_pure_bind]
  exact announces.bind fun value _ => announces_pure (change value)

theorem Announces.after_look {question : Input → α} {next : α → Rule β}
    (later : ∀ answer, (next answer).Announces allowed previous) :
    Announces allowed previous (look question >>= next) :=
  fun input => later (question input) input

theorem Announces.after_note {event : Input → Event} {next : Unit → Rule α}
    (later : (next ()).Announces allowed previous)
    (noEntry : ∀ input, (event input).entered? = none) (allows : ∀ input, allowed (event input)) :
    Announces allowed previous (note event >>= next) := by
  intro input
  refine .extend [] (later input) rfl ?_ ?_ rfl rfl fun _ failed => failed
  · simp [noEntry, Input.elementPlaces]
  · simp [allows]

theorem Announces.after_accept {kind : Kind} {next : Bool → Rule α}
    (plain : kind.beginsElement previous = false)
    (taken : (next true).Announces allowed (some kind))
    (left : (next false).Announces allowed previous) :
    Announces allowed previous (accept kind >>= next) := by
  intro input
  cases starts : input.startsWith [kind] with
  | false =>
      rw [bind_of_ok (by rw [accept, starts]; rfl)]
      exact left input
  | true =>
      obtain ⟨token, middle, rfl, rfl⟩ := (Input.startsWith_singleton_iff _ _).mp starts
      rw [bind_of_ok (by rw [accept, starts]; rfl)]
      exact (taken middle).behind plain

private theorem choose_apply (expected : Expectation) (ruleFor : Token → Option (Rule α))
    (input : Input) :
    (∃ token middle rule, input = middle.prepend [token] ∧ ruleFor token = some rule ∧
      choose expected ruleFor input = rule middle) ∨
      choose expected ruleFor input = ⟨.error (input.fault expected), input, []⟩ := by
  unfold choose
  cases next : input.peek? with
  | none => exact .inr rfl
  | some token =>
      rw [Option.bind_some]
      cases found : ruleFor token with
      | none => exact .inr rfl
      | some rule =>
          exact .inl ⟨token, input.advance, rule, Input.prepend_of_peek? next, found, rfl⟩

theorem expect_apply (kind : Kind) (input : Input) :
    (∃ token middle, input = middle.prepend [token] ∧ token.kind = kind ∧
      expect [kind] input = ⟨.ok token, middle, []⟩) ∨
      expect [kind] input = ⟨.error (input.fault (.oneOf [kind])), input, []⟩ := by
  have reads := choose_apply (.oneOf [kind])
    (fun token => if [kind].contains token.kind then some (pure token) else none) input
  rcases reads with ⟨token, middle, rule, split, found, run⟩ | missing
  · obtain ⟨isKind, rfl⟩ : token.kind = kind ∧ pure token = rule := by simpa using found
    exact .inl ⟨token, middle, split, isKind, run⟩
  · exact .inr missing

theorem Announces.after_expect {kind : Kind} {next : Token → Rule α}
    (plain : kind.beginsElement previous = false)
    (later : ∀ token, (next token).Announces allowed (some kind)) :
    Announces allowed previous (expect [kind] >>= next) := by
  intro input
  rcases expect_apply kind input with ⟨token, middle, rfl, rfl, run⟩ | missing
  · rw [bind_of_ok run]
    exact (later token middle).behind plain
  · rw [bind_of_error missing]
    exact .nothing rfl rfl

theorem announces_element {event : Input → Event} {expected : Expectation} {kinds : List Kind}
    {ruleFor : Token → Option (Rule α)} (isEntry : ∀ input, (event input).entered? = some input)
    (allows : ∀ input, allowed (event input))
    (none_iff : ∀ token, ruleFor token = none ↔ token.kind ∉ kinds)
    (begins : ∀ kind ∈ kinds, kind.beginsElement previous = true)
    (later : ∀ token rule, ruleFor token = some rule →
      rule.Announces allowed (some token.kind)) :
    Announces allowed previous (do note event; choose expected ruleFor) := by
  intro input
  change ((choose expected ruleFor input).preceded [event input]).Announces allowed previous input
  rcases choose_apply expected ruleFor input with ⟨token, middle, rule, rfl, found, run⟩ | missing
  · have starts : token.kind ∈ kinds := by
      by_contra misfit
      rw [(none_iff token).mpr misfit] at found
      cases found
    rw [run]
    refine .extend [token] (later token rule found middle) rfl ?_ ?_ rfl rfl
      fun _ failed => failed
    · simp [isEntry, Input.elementPlaces, begins _ starts]
    · simp [allows]
  · rw [missing]
    refine ⟨.misfit (Input.prepend_nil _).symm rfl ?_, ?_⟩
    · simp [Outcome.entries, Outcome.preceded, isEntry, Input.elementPlaces]
    · simp [Outcome.preceded, allows]

theorem announces_manyFrom {step : Nat → Rule (Option α)} {ready : Option Kind → Prop}
    (announces : ∀ index previous, ready previous → (step index).Announces allowed previous)
    (stays : ∀ ⦃index previous input value rest read⦄,
      (step index).Yields input (some value) rest → input = rest.prepend read → ready previous →
      ready (lastKind previous read))
    (index : Nat) (isReady : ready previous) :
    Announces allowed previous (manyFrom step index) := by
  intro input
  fun_induction manyFrom step index input generalizing previous with
  | case1 index input fault rest events outcome =>
      have first := announces index previous isReady input
      rw [outcome] at first
      exact first.keep rfl rfl fun _ failed => by cases failed; rfl
  | case2 index input rest events outcome =>
      have first := announces index previous isReady input
      rw [outcome] at first
      exact first.keep rfl rfl fun _ failed => by cases failed
  | case3 index input value middle events outcome shorter others =>
      rename_i induction
      have first := announces index previous isReady input
      rw [outcome] at first
      obtain ⟨read, split, entered⟩ := first.enters.of_ok rfl
      have later := induction (stays ⟨events, outcome⟩ split isReady)
      exact .extend read later split entered first.allows rfl rfl fun _ failed => by
        rw [failed]
        rfl
  | case4 index input value rest events outcome =>
      have first := announces index previous isReady input
      rw [outcome] at first
      exact first.keep rfl rfl fun _ failed => by cases failed

theorem Announces.many {step : Nat → Rule (Option α)}
    (announces : ∀ index previous, (step index).Announces allowed previous) :
    Announces allowed previous (many step) :=
  announces_manyFrom (fun index previous (_ : True) => announces index previous)
    (fun _ _ _ _ _ _ _ _ => id) 0 trivial

theorem Announces.nextInList {stops : List Kind} {element : Rule α}
    (announces : element.Announces allowed (some .comma)) :
    (nextInList stops element).Announces allowed previous := by
  refine .after_look fun ended => ?_
  cases ended with
  | true => exact announces_pure none
  | false =>
      refine .after_expect rfl fun _ => .after_look fun ended => ?_
      cases ended with
      | true => exact announces_pure none
      | false => exact announces.map some

theorem Announces.sepByComma {stops : List Kind} {element : Rule α}
    (first : element.Announces allowed previous) (later : element.Announces allowed (some .comma)) :
    (sepByComma stops element).Announces allowed previous := by
  refine .after_look fun ended => ?_
  cases ended with
  | true => exact announces_pure []
  | false =>
      refine first.bind fun first _ => ?_
      exact .bind (Announces.many fun _ _ => later.nextInList) fun others _ =>
        announces_pure (first :: others)

private theorem Announces.after_list {close : Kind} {element : Rule α} {next : List α → Rule β}
    (closes : ∀ previous, close.beginsElement previous = false)
    (first : element.Announces allowed previous) (others : element.Announces allowed (some .comma))
    (later : ∀ values, (next values).Announces allowed (some close)) :
    Announces allowed previous (listUntil close element >>= next) := by
  unfold listUntil
  simp only [bind_assoc, pure_bind]
  exact (first.sepByComma others).bind fun values previous =>
    .after_expect (closes previous) fun _ => later values

theorem Announces.listUntil {close : Kind} {element : Rule α}
    (closes : ∀ previous, close.beginsElement previous = false)
    (first : element.Announces allowed previous)
    (others : element.Announces allowed (some .comma)) :
    (listUntil close element).Announces allowed previous := by
  rw [← bind_pure (Rule.listUntil close element)]
  exact .after_list closes first others announces_pure

theorem Announces.arguments? {element : Rule α}
    (named : Kind.openParen.beginsElement previous = false)
    (first : element.Announces allowed (some .openParen))
    (others : element.Announces allowed (some .comma)) :
    (arguments? element).Announces allowed previous := by
  refine .after_accept named ?_ ?_
  · exact (Announces.listUntil (fun _ => rfl) first others).map some
  · exact announces_pure none

theorem Announces.grouped {inner : Rule α} (announces : inner.Announces allowed previous) :
    (grouped inner).Announces allowed previous :=
  announces.bind fun value _ => .after_expect rfl fun _ => announces_pure value

theorem Announces.nextInChain {element : Rule α}
    (announces : element.Announces allowed (some .colon)) :
    (nextInChain element).Announces allowed previous := by
  refine .after_accept rfl ?_ ?_
  · exact announces.map some
  · exact announces_pure none

theorem Announces.chain {join : α → α → α} {element : Rule α}
    (first : element.Announces allowed previous) (later : element.Announces allowed (some .colon)) :
    (chain join element).Announces allowed previous := by
  refine first.bind fun first _ => ?_
  exact .bind (Announces.many fun _ _ => later.nextInChain) fun others _ =>
    announces_pure (joinRight join first others)

end Rule

open Rule

/-- Is it not behind a name, and not behind the word `let`? There a token with which an element may
begin always begins one. -/
def opensElements (previous : Option Kind) : Bool :=
  previous ∉ [some .letWord, some .identifier, some .atom, some .quotedAtom]

private theorem Kind.beginsElement_of_opens {previous : Option Kind} {kind : Kind}
    (opens : opensElements previous = true)
    (starts : kind ∈ Expectation.termStarts ++ Expectation.patternStarts) :
    kind.beginsElement previous = true := by
  unfold opensElements at opens
  cases kind <;> simp_all [beginsElement, Expectation.termStarts, Expectation.patternStarts]

private theorem Kind.openParen_behind_name {kind : Kind}
    (isName : kind ∈ [.identifier, .atom, .quotedAtom]) :
    Kind.openParen.beginsElement (some kind) = false := by
  simp only [List.mem_cons, List.not_mem_nil, or_false] at isName
  rcases isName with rfl | rfl | rfl <;> rfl

/-- The rule announces its elements wherever one may begin, and completes no item. -/
def Rule.Heralds {α : Type} (rule : Rule α) : Prop :=
  ∀ ⦃previous⦄, opensElements previous = true → rule.Announces (·.completion? = none) previous

theorem Rule.Heralds.arguments? {α : Type} {element : Rule α} (heralds : element.Heralds)
    {kind : Kind} (isName : kind ∈ [.identifier, .atom, .quotedAtom]) :
    (arguments? element).Announces (·.completion? = none) (some kind) :=
  .arguments? (Kind.openParen_behind_name isName) (heralds rfl) (heralds rfl)

namespace Pattern

variable {inner : Rule Pattern}

private theorem announces_ruleFor (heralds : inner.Heralds) {token : Token} {rule : Rule Pattern}
    (continues : Continues inner token rule) :
    rule.Announces (·.completion? = none) (some token.kind) := by
  cases continues with
  | wildcard => exact announces_pure _
  | name isName =>
      rw [isName]
      exact .after_accept rfl ((heralds rfl).map _) (announces_pure _)
  | tree isAtom =>
      exact (heralds.arguments? (.tail _ isAtom)).bind fun _ _ => announces_pure _
  | string => exact announces_pure _
  | list isBracket =>
      rw [isBracket]
      exact (Announces.listUntil (fun _ => rfl) (heralds rfl) (heralds rfl)).map _
  | group isParen =>
      rw [isParen]
      exact (heralds rfl).grouped

private theorem heralds_element (heralds : inner.Heralds) : (element inner).Heralds := by
  intro previous opens
  refine announces_element (fun _ => rfl) (fun _ => rfl) (ruleFor_eq_none_iff inner) ?_ ?_
  · intro kind starts
    exact Kind.beginsElement_of_opens opens (List.mem_append_right _ starts)
  · intro token rule found
    exact announces_ruleFor heralds (ruleFor_eq_some_iff.mp found)

theorem heralds_within (limit budget : Nat) : (within limit budget).Heralds := by
  induction budget with
  | zero => exact fun _ _ => announces_overNested limit
  | succ budget induction =>
      have elements := heralds_element induction
      exact fun _ opens => (elements opens).chain (elements rfl)

end Pattern

theorem Clause.heralds_rule {pattern : Rule Pattern} {term : Rule Term} (patterns : pattern.Heralds)
    (terms : term.Heralds) : (Clause.rule pattern term).Heralds := by
  intro previous opens
  refine .after_list (fun _ => rfl) (patterns opens) (patterns rfl) fun _ => ?_
  exact (terms rfl).bind fun _ _ => announces_pure _

namespace Term

variable {pattern : Rule Pattern} {inner : Rule Term}

private theorem announces_matchRule (patterns : pattern.Heralds) (heralds : inner.Heralds) :
    (matchRule pattern inner).Announces (·.completion? = none) (some .matchWord) := by
  have clauses := Clause.heralds_rule patterns heralds
  refine .after_note ?_ (fun _ => rfl) fun _ => rfl
  refine .after_list (fun _ => rfl) (heralds rfl) (heralds rfl) fun subjects => ?_
  exact .after_list (fun _ => rfl) (clauses rfl) (clauses rfl) fun _ => announces_pure _

private theorem announces_ruleFor (patterns : pattern.Heralds) (heralds : inner.Heralds)
    {token : Token} {rule : Rule Term} (continues : Continues pattern inner token rule) :
    rule.Announces (·.completion? = none) (some token.kind) := by
  cases continues with
  | name isName =>
      refine (heralds.arguments? (by simp [isName])).bind fun operands? _ => ?_
      cases operands? with
      | some operands => exact announces_pure _
      | none => exact announces_pure _
  | tree isAtom =>
      exact (heralds.arguments? (.tail _ isAtom)).bind fun _ _ => announces_pure _
  | string => exact announces_pure _
  | list isBracket =>
      rw [isBracket]
      exact (Announces.listUntil (fun _ => rfl) (heralds rfl) (heralds rfl)).map _
  | group isParen =>
      rw [isParen]
      exact (heralds rfl).grouped
  | matching isMatch =>
      rw [isMatch]
      exact announces_matchRule patterns heralds

private theorem heralds_element (patterns : pattern.Heralds) (heralds : inner.Heralds) :
    (element pattern inner).Heralds := by
  intro previous opens
  refine announces_element (fun _ => rfl) (fun _ => rfl) (ruleFor_eq_none_iff pattern inner) ?_ ?_
  · intro kind starts
    exact Kind.beginsElement_of_opens opens (List.mem_append_left _ starts)
  · intro token rule found
    exact announces_ruleFor patterns heralds (ruleFor_eq_some_iff.mp found)

theorem heralds_within (limit budget : Nat) : (within limit budget).Heralds := by
  induction budget with
  | zero => exact fun _ _ => announces_overNested limit
  | succ budget induction =>
      have elements := heralds_element (Pattern.heralds_within limit budget) induction
      exact fun _ opens => (elements opens).chain (elements rfl)

end Term

theorem Definition.announces_rule (limit : Nat) {previous : Option Kind} :
    (Definition.rule limit).Announces (·.completion? = none) previous := by
  have patterns := Pattern.heralds_within limit limit
  refine .after_expect rfl fun _ => .after_expect rfl fun name => ?_
  refine .after_note ?_ (fun _ => rfl) fun _ => rfl
  refine (patterns.arguments? (by simp)).bind fun _ _ => .after_expect rfl fun _ => ?_
  exact (Term.heralds_within limit limit rfl).bind fun _ _ => announces_pure _

theorem Item.heralds_rule (limit : Nat) : (Item.rule limit).Heralds := by
  intro previous opens
  refine .after_note (.after_look fun isLet => ?_) (fun _ => rfl) fun _ => rfl
  cases isLet with
  | true => exact (Definition.announces_rule limit).map _
  | false => exact (Term.heralds_within limit limit opens).map _

end TermScript

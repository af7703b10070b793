import TermScript.Proofs.Rule.Lists
import TermScript.Reader

namespace TermScript

namespace Input

theorem startsWith_eq_false_iff (input : Input) (kinds : List Kind) :
    input.startsWith kinds = false ↔ ∀ first, input.peek? = some first → first.kind ∉ kinds := by
  rw [Bool.eq_false_iff, Ne, startsWith_eq_true_iff]
  simp

end Input

theorem Token.name_of_identifier {token : Token} (isName : token.kind = .identifier) :
    token.name = token.text := by
  simp [name, isName]

namespace Rule

variable {α : Type}

private theorem yields_element_of {event : Input → Event} {expected : Expectation}
    {ruleFor : Token → Option (Rule α)} {input rest : Input} {value : α} :
    Yields (do note event; choose expected ruleFor) input value rest ↔
      ∃ first middle rule, input = middle.prepend [first] ∧ ruleFor first = some rule ∧
        rule.Yields middle value rest := by
  rw [yields_note_bind, yields_choose]
  constructor
  · intro run
    obtain ⟨first, rule, next, found, run⟩ := run
    exact ⟨first, input.advance, rule, Input.prepend_of_peek? next, found, run⟩
  · intro run
    obtain ⟨first, middle, rule, rfl, found, run⟩ := run
    exact ⟨first, rule, rfl, found, run⟩

private theorem faults_element_of {event : Input → Event} {expected : Expectation}
    {ruleFor : Token → Option (Rule α)} {kinds : List Kind}
    (none_iff : ∀ token, ruleFor token = none ↔ token.kind ∉ kinds) {input rest : Input}
    {fault : Fault} :
    Faults (do note event; choose expected ruleFor) input fault rest ↔
      (∃ first middle rule, input = middle.prepend [first] ∧ ruleFor first = some rule ∧
        rule.Faults middle fault rest) ∨
      (input.startsWith kinds = false ∧ fault = input.fault expected ∧ rest = input) := by
  rw [faults_note_bind, faults_choose, Input.startsWith_eq_false_iff]
  simp only [none_iff]
  constructor
  · intro run
    rcases run with ⟨first, rule, next, found, run⟩ | missing
    · exact .inl ⟨first, input.advance, rule, Input.prepend_of_peek? next, found, run⟩
    · exact .inr missing
  · intro run
    rcases run with ⟨first, middle, rule, rfl, found, run⟩ | missing
    · exact .inl ⟨first, rule, rfl, found, run⟩
    · exact .inr missing

end Rule

open Rule

namespace Pattern

inductive Continues (inner : Rule Pattern) (token : Token) : Rule Pattern → Prop
  | wildcard : token.kind = .underscore → Continues inner token (pure .wildcard)
  | name : token.kind = .identifier → Continues inner token (nameRule inner token.name)
  | tree : token.kind ∈ [.atom, .quotedAtom] → Continues inner token (treeRule inner token.name)
  | string : token.kind = .string → Continues inner token (pure (.string token.unquoted))
  | list : token.kind = .openBracket →
      Continues inner token (.list <$> Rule.listUntil .closeBracket inner)
  | group : token.kind = .openParen → Continues inner token (Rule.grouped inner)

theorem ruleFor_eq_some_iff {inner rule : Rule Pattern} {token : Token} :
    ruleFor inner token = some rule ↔ Continues inner token rule := by
  constructor
  · intro found
    unfold ruleFor at found
    split at found
    · rename_i kind
      cases found
      exact .wildcard kind
    · rename_i kind
      cases found
      exact .name kind
    · rename_i kind
      cases found
      exact .tree (by simp [kind])
    · rename_i kind
      cases found
      exact .tree (by simp [kind])
    · rename_i kind
      cases found
      exact .string kind
    · rename_i kind
      cases found
      exact .list kind
    · rename_i kind
      cases found
      exact .group kind
    · cases found
  · intro continues
    cases continues with
    | wildcard kind => simp [ruleFor, kind]
    | name kind => simp [ruleFor, kind]
    | tree kind =>
        simp only [List.mem_cons, List.not_mem_nil, or_false] at kind
        rcases kind with kind | kind <;> simp [ruleFor, kind]
    | string kind => simp [ruleFor, kind]
    | list kind => simp [ruleFor, kind]
    | group kind => simp [ruleFor, kind]

theorem ruleFor_eq_none_iff (inner : Rule Pattern) (token : Token) :
    ruleFor inner token = none ↔ token.kind ∉ Expectation.patternStarts := by
  unfold ruleFor
  cases token.kind <;> simp [Expectation.patternStarts]

theorem yields_element {inner : Rule Pattern} {input rest : Input} {value : Pattern} :
    (element inner).Yields input value rest ↔
      ∃ first middle rule, input = middle.prepend [first] ∧ Continues inner first rule ∧
        rule.Yields middle value rest := by
  simp only [← ruleFor_eq_some_iff]
  exact yields_element_of

theorem faults_element {inner : Rule Pattern} {input rest : Input} {fault : Fault} :
    (element inner).Faults input fault rest ↔
      (∃ first middle rule, input = middle.prepend [first] ∧ Continues inner first rule ∧
        rule.Faults middle fault rest) ∨
      (input.startsWith Expectation.patternStarts = false ∧ fault = input.fault .pattern ∧
        rest = input) := by
  simp only [← ruleFor_eq_some_iff]
  exact faults_element_of (ruleFor_eq_none_iff inner)

theorem yields_nameRule {inner : Rule Pattern} {name : String} {input rest : Input}
    {value : Pattern} :
    (nameRule inner name).Yields input value rest ↔
      (input.startsWith [.atSign] = false ∧ value = .var name ∧ rest = input) ∨
        ∃ atSign middle pattern, input = middle.prepend [atSign] ∧ atSign.kind = .atSign ∧
          inner.Yields middle pattern rest ∧ value = .named name pattern := by
  unfold nameRule
  rw [yields_accept_bind, if_pos rfl, if_neg Bool.false_ne_true, yields_map, yields_pure]
  constructor
  · intro run
    rcases run with ⟨starts, pattern, run, same⟩ | plain
    · obtain ⟨atSign, middle, rfl, isAt⟩ := (Input.startsWith_singleton_iff _ _).mp starts
      exact .inr ⟨atSign, middle, pattern, rfl, isAt, run, same⟩
    · exact .inl plain
  · intro run
    rcases run with plain | ⟨atSign, middle, pattern, rfl, isAt, run, same⟩
    · exact .inr plain
    · exact .inl ⟨by simp [isAt], pattern, run, same⟩

theorem faults_nameRule {inner : Rule Pattern} {name : String} {input rest : Input}
    {fault : Fault} :
    (nameRule inner name).Faults input fault rest ↔
      ∃ atSign middle, input = middle.prepend [atSign] ∧ atSign.kind = .atSign ∧
        inner.Faults middle fault rest := by
  unfold nameRule
  rw [faults_accept_bind, if_pos rfl, if_neg Bool.false_ne_true, faults_map]
  constructor
  · intro run
    rcases run with ⟨starts, run⟩ | ⟨-, impossible⟩
    · obtain ⟨atSign, middle, rfl, isAt⟩ := (Input.startsWith_singleton_iff _ _).mp starts
      exact ⟨atSign, middle, rfl, isAt, run⟩
    · exact absurd impossible not_faults_pure
  · intro run
    obtain ⟨atSign, middle, rfl, isAt, run⟩ := run
    exact .inl ⟨by simp [isAt], run⟩

theorem within_succ (limit budget : Nat) :
    within limit (budget + 1) = Rule.chain .cons (element (within limit budget)) := rfl

end Pattern

namespace Term

inductive Continues (pattern : Rule Pattern) (inner : Rule Term) (token : Token) :
    Rule Term → Prop
  | name : token.kind = .identifier → Continues pattern inner token (nameRule inner token.name)
  | tree : token.kind ∈ [.atom, .quotedAtom] →
      Continues pattern inner token (treeRule inner token.name)
  | string : token.kind = .string → Continues pattern inner token (pure (.string token.unquoted))
  | list : token.kind = .openBracket →
      Continues pattern inner token (.list <$> Rule.listUntil .closeBracket inner)
  | group : token.kind = .openParen → Continues pattern inner token (Rule.grouped inner)
  | matching : token.kind = .matchWord →
      Continues pattern inner token (matchRule pattern inner)

theorem ruleFor_eq_some_iff {pattern : Rule Pattern} {inner rule : Rule Term} {token : Token} :
    ruleFor pattern inner token = some rule ↔ Continues pattern inner token rule := by
  constructor
  · intro found
    unfold ruleFor at found
    split at found
    · rename_i kind
      cases found
      exact .name kind
    · rename_i kind
      cases found
      exact .tree (by simp [kind])
    · rename_i kind
      cases found
      exact .tree (by simp [kind])
    · rename_i kind
      cases found
      exact .string kind
    · rename_i kind
      cases found
      exact .list kind
    · rename_i kind
      cases found
      exact .group kind
    · rename_i kind
      cases found
      exact .matching kind
    · cases found
  · intro continues
    cases continues with
    | name kind => simp [ruleFor, kind]
    | tree kind =>
        simp only [List.mem_cons, List.not_mem_nil, or_false] at kind
        rcases kind with kind | kind <;> simp [ruleFor, kind]
    | string kind => simp [ruleFor, kind]
    | list kind => simp [ruleFor, kind]
    | group kind => simp [ruleFor, kind]
    | matching kind => simp [ruleFor, kind]

theorem ruleFor_eq_none_iff (pattern : Rule Pattern) (inner : Rule Term) (token : Token) :
    ruleFor pattern inner token = none ↔ token.kind ∉ Expectation.termStarts := by
  unfold ruleFor
  cases token.kind <;> simp [Expectation.termStarts]

theorem yields_element {pattern : Rule Pattern} {inner : Rule Term} {input rest : Input}
    {value : Term} :
    (element pattern inner).Yields input value rest ↔
      ∃ first middle rule, input = middle.prepend [first] ∧
        Continues pattern inner first rule ∧ rule.Yields middle value rest := by
  simp only [← ruleFor_eq_some_iff]
  exact yields_element_of

theorem faults_element {pattern : Rule Pattern} {inner : Rule Term} {input rest : Input}
    {fault : Fault} :
    (element pattern inner).Faults input fault rest ↔
      (∃ first middle rule, input = middle.prepend [first] ∧
        Continues pattern inner first rule ∧ rule.Faults middle fault rest) ∨
      (input.startsWith Expectation.termStarts = false ∧ fault = input.fault .term ∧
        rest = input) := by
  simp only [← ruleFor_eq_some_iff]
  exact faults_element_of (ruleFor_eq_none_iff pattern inner)

end Term

namespace Program

theorem yields_nextItem_none {limit index : Nat} {input rest : Input} :
    (nextItem limit index).Yields input none rest ↔ input.isEmpty = true ∧ rest = input := by
  unfold nextItem
  rw [yields_look_bind]
  cases input.isEmpty with
  | true => simp
  | false =>
      simp only [Bool.false_eq_true, ↓reduceIte, false_and, iff_false, yields_bind, yields_pure]
      intro run
      obtain ⟨_, _, -, _, _, -, _, _, -, impossible, -⟩ := run
      cases impossible

theorem yields_nextItem_some {limit index : Nat} {input rest : Input} {item : Item} :
    (nextItem limit index).Yields input (some item) rest ↔
      input.isEmpty = false ∧ ∃ semicolon,
        (Item.rule limit).Yields input item (rest.prepend [semicolon]) ∧
          semicolon.kind = .semicolon := by
  unfold nextItem
  rw [yields_look_bind]
  cases input.isEmpty with
  | true => simp
  | false =>
      simp only [Bool.false_eq_true, ↓reduceIte, true_and, yields_bind, yields_expect_one,
        yields_note, yields_pure]
      constructor
      · intro run
        obtain ⟨found, _, itemRun, semicolon, _, ⟨rfl, isSemicolon⟩, _, _, rfl, same, rfl⟩ := run
        cases same
        exact ⟨semicolon, itemRun, isSemicolon⟩
      · intro run
        obtain ⟨semicolon, itemRun, isSemicolon⟩ := run
        exact ⟨item, _, itemRun, semicolon, rest, ⟨rfl, isSemicolon⟩, (), rest, rfl, rfl, rfl⟩

theorem faults_nextItem {limit index : Nat} {input rest : Input} {fault : Fault} :
    (nextItem limit index).Faults input fault rest ↔
      input.isEmpty = false ∧ ((Item.rule limit).Faults input fault rest ∨
        ∃ item, (Item.rule limit).Yields input item rest ∧
          rest.startsWith [.semicolon] = false ∧ fault = rest.fault (.oneOf [.semicolon])) := by
  unfold nextItem
  rw [faults_look_bind]
  cases input.isEmpty with
  | true => simp
  | false =>
      simp only [Bool.false_eq_true, ↓reduceIte, true_and, faults_bind, faults_expect,
        not_faults_note, not_faults_pure, and_false, exists_false, or_false]
      constructor
      · intro run
        rcases run with itemRun | ⟨item, middle, itemRun, missing, same, rfl⟩
        · exact .inl itemRun
        · exact .inr ⟨item, itemRun, missing, same⟩
      · intro run
        rcases run with itemRun | ⟨item, itemRun, missing, same⟩
        · exact .inl itemRun
        · exact .inr ⟨item, rest, itemRun, missing, same, rfl⟩

theorem shrinks_nextItem_of_neverGrows {limit : Nat} (neverGrows : NeverGrows (Item.rule limit)) :
    Shrinks (nextItem limit) := by
  intro index input item rest run
  obtain ⟨-, semicolon, itemRun, -⟩ := yields_nextItem_some.mp run
  have shorter := neverGrows itemRun
  rw [Input.length_ahead_prepend] at shorter
  simp only [List.length_singleton] at shorter
  omega

end Program

end TermScript

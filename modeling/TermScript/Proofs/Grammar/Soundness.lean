import TermScript.Proofs.Grammar.Derivation
import TermScript.Proofs.Rule.Elements

namespace TermScript

open TermScript.Language

namespace Rule

variable {α : Type}

/-- Whatever the rule reads stands for its value. -/
def Reads (rule : Rule α) (language : Language α) : Prop :=
  ∀ ⦃input value rest⦄, rule.Yields input value rest →
    ∃ tokens, input = rest.prepend tokens ∧ language tokens value

theorem Reads.neverGrows {rule : Rule α} {language : Language α}
    (reads : rule.Reads language) : NeverGrows rule := by
  intro input value rest run
  obtain ⟨tokens, rfl, -⟩ := reads run
  rw [Input.length_ahead_prepend]
  omega

theorem Reads.separated_of_walks {stops : List Kind} {element : Rule α} {language : Language α}
    (reads : element.Reads language) {index last : Nat} {input rest : Input} {others : List α}
    (walks : Walks (fun _ => nextInList stops element) index input others last rest) :
    ∃ tokens, input = rest.prepend tokens ∧
      ∀ {firstTokens : List Token} {first : α}, language firstTokens first →
        Separated language (firstTokens ++ tokens) (first :: others) := by
  induction walks with
  | start index input =>
      refine ⟨[], rfl, ?_⟩
      intro firstTokens first derives
      rw [List.append_nil]
      exact .one derives
  | further step walks induction =>
      obtain ⟨-, comma, middle, rfl, isComma, -, run⟩ := yields_nextInList_some.mp step
      obtain ⟨elementTokens, rfl, elementDerives⟩ := reads run
      obtain ⟨tokens, rfl, separated⟩ := induction
      refine ⟨comma :: (elementTokens ++ tokens), by simp, ?_⟩
      intro firstTokens first derives
      exact .more derives isComma (separated elementDerives)

theorem Reads.sepByComma {stops : List Kind} {element : Rule α} {language : Language α}
    (reads : element.Reads language) :
    (sepByComma stops element).Reads (Listed language) := by
  intro input values rest run
  rcases (yields_sepByComma reads.neverGrows).mp run with
    ⟨-, rfl, rfl⟩ | ⟨-, first, middle, others, last, final, firstRun, walks, stop, rfl⟩
  · exact ⟨[], rfl, .empty⟩
  · obtain ⟨firstTokens, rfl, derives⟩ := reads firstRun
    obtain ⟨tokens, rfl, separated⟩ := reads.separated_of_walks walks
    rcases yields_nextInList_none.mp stop with ⟨-, rfl⟩ | ⟨-, -, comma, rfl, isComma⟩
    · exact ⟨firstTokens ++ tokens, by simp, .plain (separated derives)⟩
    · exact ⟨firstTokens ++ tokens ++ [comma], by simp, .trailing (separated derives) isComma⟩

theorem Reads.closed {rule : Rule α} {language : Language α} {close : Kind}
    (reads : rule.Reads language) :
    Reads (do let value ← rule; let _ ← expect [close]; return value)
      (Closed close language) := by
  intro input value rest run
  obtain ⟨closer, inner, isClose⟩ := yields_closed.mp run
  obtain ⟨tokens, rfl, derives⟩ := reads inner
  exact ⟨tokens ++ [closer], by simp, .intro derives isClose⟩

theorem Reads.listUntil {close : Kind} {element : Rule α} {language : Language α}
    (reads : element.Reads language) :
    (listUntil close element).Reads (Closed close (Listed language)) :=
  reads.sepByComma.closed

theorem Reads.grouped {inner : Rule α} {language : Language α} (reads : inner.Reads language) :
    (grouped inner).Reads (Closed .closeParen language) :=
  reads.closed

theorem Reads.chain {join : α → α → α} {element : Rule α} {link last : Language α}
    (reads : element.Reads last)
    (links : ∀ ⦃input value rest⦄, element.Yields input value rest →
      rest.startsWith [.colon] = true →
        ∃ tokens, input = rest.prepend tokens ∧ link tokens value) :
    (chain join element).Reads (Chain join link last) := by
  intro input value rest run
  obtain ⟨first, middle, others, index, firstRun, walks, noColon, rfl⟩ :=
    (yields_chain reads.neverGrows).mp run
  clear run
  generalize 0 = start at walks
  induction walks generalizing input first with
  | start index middle =>
      obtain ⟨tokens, rfl, derives⟩ := reads firstRun
      exact ⟨tokens, rfl, .last derives⟩
  | further step walks induction =>
      obtain ⟨colon, middle, rfl, isColon, run⟩ := yields_nextInChain_some.mp step
      obtain ⟨tokens, rfl, derives⟩ := links firstRun (by simp [isColon])
      obtain ⟨others, rfl, chain⟩ := induction _ run noColon
      exact ⟨tokens ++ colon :: others, by simp, .link derives isColon chain⟩

end Rule

open Rule

private theorem Pattern.reads_treeRule {inner : Rule Pattern} {language : Language Pattern}
    (reads : inner.Reads language) {name : Token} (isAtom : name.kind ∈ [.atom, .quotedAtom])
    {input rest : Input} {value : Pattern}
    (run : (treeRule inner name.name).Yields input value rest) :
    ∃ tokens, input = rest.prepend tokens ∧ Element language (name :: tokens) value := by
  obtain ⟨children?, middle, arguments, last⟩ := yields_bind.mp run
  obtain ⟨rfl, rfl⟩ := yields_pure.mp last
  rcases yields_arguments?.mp arguments with
    ⟨-, rfl, rfl⟩ | ⟨opener, middle, values, rfl, opens, list, rfl⟩
  · exact ⟨[], rfl, .atom isAtom⟩
  · obtain ⟨tokens, rfl, derives⟩ := reads.listUntil list
    exact ⟨opener :: tokens, by simp, .tree isAtom opens derives⟩

theorem Pattern.reads_element {inner : Rule Pattern} {language : Language Pattern}
    (reads : inner.Reads language)
    (noColon : ∀ ⦃input value rest⦄, inner.Yields input value rest →
      rest.startsWith [.colon] = false)
    {input rest : Input} {value : Pattern} (run : (element inner).Yields input value rest) :
    ∃ tokens, input = rest.prepend tokens ∧ Final language tokens value ∧
      (rest.startsWith [.colon] = true → Element language tokens value) := by
  obtain ⟨first, middle, rule, rfl, continues, run⟩ := yields_element.mp run
  have plain : (∃ tokens, middle = rest.prepend tokens ∧
      Element language (first :: tokens) value) →
      ∃ tokens, middle.prepend [first] = rest.prepend tokens ∧ Final language tokens value ∧
        (rest.startsWith [.colon] = true → Element language tokens value) := by
    intro found
    obtain ⟨tokens, rfl, derives⟩ := found
    exact ⟨first :: tokens, by simp, .element derives, fun _ => derives⟩
  cases continues with
  | wildcard isUnderscore =>
      obtain ⟨rfl, rfl⟩ := yields_pure.mp run
      exact plain ⟨[], rfl, .wildcard isUnderscore⟩
  | name isName =>
      rw [Token.name_of_identifier isName] at run
      rcases yields_nameRule.mp run with
        ⟨-, rfl, rfl⟩ | ⟨atSign, middle, pattern, rfl, isAt, innerRun, rfl⟩
      · exact plain ⟨[], rfl, .var isName⟩
      · obtain ⟨tokens, rfl, derives⟩ := reads innerRun
        refine ⟨first :: atSign :: tokens, by simp, .named isName isAt derives, ?_⟩
        intro colon
        rw [noColon innerRun] at colon
        cases colon
  | tree isAtom => exact plain (reads_treeRule reads isAtom run)
  | string isString =>
      obtain ⟨rfl, rfl⟩ := yields_pure.mp run
      exact plain ⟨[], rfl, .string isString⟩
  | list opens =>
      obtain ⟨values, listRun, rfl⟩ := yields_map.mp run
      obtain ⟨tokens, rfl, derives⟩ := reads.listUntil listRun
      exact plain ⟨tokens, rfl, .list opens derives⟩
  | group opens =>
      obtain ⟨tokens, rfl, derives⟩ := reads.grouped run
      exact plain ⟨tokens, rfl, .group opens derives⟩

theorem Pattern.reads_final {inner : Rule Pattern} {language : Language Pattern}
    (reads : inner.Reads language)
    (noColon : ∀ ⦃input value rest⦄, inner.Yields input value rest →
      rest.startsWith [.colon] = false) : (element inner).Reads (Final language) := by
  intro input value rest run
  obtain ⟨tokens, same, derives, -⟩ := reads_element reads noColon run
  exact ⟨tokens, same, derives⟩

/-- What a pattern rule reads is a pattern of the height that it may go into, and no colon
follows. -/
theorem Pattern.reads_within (limit budget : Nat) :
    (within limit budget).Reads (Derives budget) ∧
      ∀ ⦃input value rest⦄, (within limit budget).Yields input value rest →
        rest.startsWith [.colon] = false := by
  induction budget with
  | zero =>
      exact ⟨fun _ _ _ run => absurd run not_yields_overNested,
        fun _ _ _ run => absurd run not_yields_overNested⟩
  | succ budget induction =>
      obtain ⟨reads, noColon⟩ := induction
      have final := reads_final reads noColon
      rw [within_succ]
      refine ⟨final.chain ?_, ?_⟩
      · intro input value rest run colon
        obtain ⟨tokens, same, -, derives⟩ := reads_element reads noColon run
        exact ⟨tokens, same, derives colon⟩
      · intro input value rest run
        obtain ⟨_, _, _, _, -, -, noColon, -⟩ := (yields_chain final.neverGrows).mp run
        exact noColon

theorem Clause.reads_rule {pattern : Rule Pattern} {term : Rule Term}
    {patternLanguage : Language Pattern} {termLanguage : Language Term}
    (patternReads : pattern.Reads patternLanguage) (reads : term.Reads termLanguage) :
    (Clause.rule pattern term).Reads (Clause.Derives patternLanguage termLanguage) := by
  intro input value rest run
  obtain ⟨patterns, middle, patternRun, run⟩ := yields_bind.mp run
  obtain ⟨body, _, bodyRun, last⟩ := yields_bind.mp run
  obtain ⟨rfl, rfl⟩ := yields_pure.mp last
  obtain ⟨left, rfl, patternsDerive⟩ := patternReads.listUntil patternRun
  obtain ⟨right, rfl, bodyDerives⟩ := reads bodyRun
  exact ⟨left ++ right, by simp, .intro patternsDerive bodyDerives⟩

section Terms

variable {pattern : Rule Pattern} {inner : Rule Term} {patternLanguage : Language Pattern}
  {language : Language Term} {input rest : Input} {value : Term}

private theorem Term.reads_nameRule (reads : inner.Reads language) {name : Token}
    (isName : name.kind = .identifier) (run : (nameRule inner name.text).Yields input value rest) :
    ∃ tokens, input = rest.prepend tokens ∧
      Element patternLanguage language (name :: tokens) value := by
  obtain ⟨operands?, middle, arguments, last⟩ := yields_bind.mp run
  rcases yields_arguments?.mp arguments with
    ⟨-, rfl, rfl⟩ | ⟨opener, middle, values, rfl, opens, list, rfl⟩
  · obtain ⟨rfl, rfl⟩ := yields_pure.mp last
    exact ⟨[], rfl, .var isName⟩
  · obtain ⟨rfl, rfl⟩ := yields_pure.mp last
    obtain ⟨tokens, rfl, derives⟩ := reads.listUntil list
    exact ⟨opener :: tokens, by simp, .app isName opens derives⟩

private theorem Term.reads_treeRule (reads : inner.Reads language) {name : Token}
    (isAtom : name.kind ∈ [.atom, .quotedAtom])
    (run : (treeRule inner name.name).Yields input value rest) :
    ∃ tokens, input = rest.prepend tokens ∧
      Element patternLanguage language (name :: tokens) value := by
  obtain ⟨children?, middle, arguments, last⟩ := yields_bind.mp run
  obtain ⟨rfl, rfl⟩ := yields_pure.mp last
  rcases yields_arguments?.mp arguments with
    ⟨-, rfl, rfl⟩ | ⟨opener, middle, values, rfl, opens, list, rfl⟩
  · exact ⟨[], rfl, .atom isAtom⟩
  · obtain ⟨tokens, rfl, derives⟩ := reads.listUntil list
    exact ⟨opener :: tokens, by simp, .tree isAtom opens derives⟩

private theorem Term.reads_matchRule (patternReads : pattern.Reads patternLanguage)
    (reads : inner.Reads language) {word : Token} (isMatch : word.kind = .matchWord)
    (run : (matchRule pattern inner).Yields input value rest) :
    ∃ tokens, input = rest.prepend tokens ∧
      Element patternLanguage language (word :: tokens) value := by
  unfold matchRule at run
  rw [yields_note_bind] at run
  obtain ⟨subjects, middle, subjectRun, run⟩ := yields_bind.mp run
  obtain ⟨clauses, _, clauseRun, last⟩ := yields_bind.mp run
  obtain ⟨rfl, rfl⟩ := yields_pure.mp last
  obtain ⟨left, rfl, subjectsDerive⟩ := reads.listUntil subjectRun
  obtain ⟨right, rfl, clausesDerive⟩ := (Clause.reads_rule patternReads reads).listUntil clauseRun
  exact ⟨left ++ right, by simp, .matching isMatch subjectsDerive clausesDerive⟩

end Terms

theorem Term.reads_element {pattern : Rule Pattern} {inner : Rule Term}
    {patternLanguage : Language Pattern} {language : Language Term}
    (patternReads : pattern.Reads patternLanguage) (reads : inner.Reads language) :
    (element pattern inner).Reads (Element patternLanguage language) := by
  intro input value rest run
  obtain ⟨first, middle, rule, rfl, continues, run⟩ := yields_element.mp run
  cases continues with
  | name isName =>
      rw [Token.name_of_identifier isName] at run
      obtain ⟨tokens, rfl, derives⟩ := reads_nameRule reads isName run
      exact ⟨first :: tokens, by simp, derives⟩
  | tree isAtom =>
      obtain ⟨tokens, rfl, derives⟩ := reads_treeRule reads isAtom run
      exact ⟨first :: tokens, by simp, derives⟩
  | string isString =>
      obtain ⟨rfl, rfl⟩ := yields_pure.mp run
      exact ⟨[first], rfl, .string isString⟩
  | list opens =>
      obtain ⟨values, listRun, rfl⟩ := yields_map.mp run
      obtain ⟨tokens, rfl, derives⟩ := reads.listUntil listRun
      exact ⟨first :: tokens, by simp, .list opens derives⟩
  | group opens =>
      obtain ⟨tokens, rfl, derives⟩ := reads.grouped run
      exact ⟨first :: tokens, by simp, .group opens derives⟩
  | matching isMatch =>
      obtain ⟨tokens, rfl, derives⟩ := reads_matchRule patternReads reads isMatch run
      exact ⟨first :: tokens, by simp, derives⟩

theorem Term.reads_within (limit budget : Nat) :
    (within limit budget).Reads (Derives budget) := by
  induction budget with
  | zero => exact fun _ _ _ run => absurd run not_yields_overNested
  | succ budget induction =>
      have element := reads_element (Pattern.reads_within limit budget).1 induction
      exact element.chain fun _ _ _ run _ => element run

theorem Definition.derives_of_head {limit : Nat} {word name : Token} (isLet : word.kind = .letWord)
    (isName : name.kind = .identifier) {input rest : Input}
    {patterns? : Option (List Pattern)}
    (run : (arguments? (Pattern.rule limit)).Yields input patterns? rest) :
    ∃ head, input = rest.prepend head ∧
      ∀ {height : Nat}, limit ≤ height → ∀ {equals : Token} {tokens : List Token} {body : Term},
        equals.kind = .equals → Term.Derives height tokens body →
        Derives height (word :: name :: (head ++ equals :: tokens))
          ⟨name.text, patterns?.getD [], body⟩ := by
  rcases yields_arguments?.mp run with
    ⟨-, rfl, rfl⟩ | ⟨opener, middle, patterns, rfl, opens, list, rfl⟩
  · exact ⟨[], rfl, fun _ _ _ _ isEquals body => .plain isLet isName isEquals body⟩
  · obtain ⟨tokens, rfl, derives⟩ := (Pattern.reads_within limit limit).1.listUntil list
    refine ⟨opener :: tokens, by simp, ?_⟩
    intro height atMost equals bodyTokens body isEquals bodyDerives
    exact .parameters isLet isName opens
      (Closed.mono (Listed.mono (Pattern.Derives.mono atMost)) _ _ derives) isEquals bodyDerives

theorem Definition.reads_rule (limit : Nat) :
    (Definition.rule limit).Reads (Definition.Derives limit) := by
  intro input value rest run
  obtain ⟨word, afterWord, wordRun, run⟩ := yields_bind.mp run
  obtain ⟨name, afterName, nameRun, run⟩ := yields_bind.mp run
  rw [yields_note_bind] at run
  obtain ⟨patterns?, beforeEquals, patternsRun, run⟩ := yields_bind.mp run
  obtain ⟨equals, afterEquals, equalsRun, run⟩ := yields_bind.mp run
  obtain ⟨body, _, bodyRun, last⟩ := yields_bind.mp run
  obtain ⟨rfl, rfl⟩ := yields_pure.mp last
  obtain ⟨rfl, isLet⟩ := yields_expect_one.mp wordRun
  obtain ⟨rfl, isName⟩ := yields_expect_one.mp nameRun
  obtain ⟨rfl, isEquals⟩ := yields_expect_one.mp equalsRun
  obtain ⟨right, rfl, bodyDerives⟩ := Term.reads_within limit limit bodyRun
  obtain ⟨head, rfl, withBody⟩ := derives_of_head isLet isName patternsRun
  exact ⟨word :: name :: (head ++ equals :: right), by simp,
    withBody (Nat.le_refl limit) isEquals bodyDerives⟩

theorem Item.reads_rule (limit : Nat) : (Item.rule limit).Reads (Item.Derives limit) := by
  intro input value rest run
  unfold Item.rule at run
  rw [yields_note_bind, yields_look_bind] at run
  split at run
  · obtain ⟨definition, definitionRun, rfl⟩ := yields_map.mp run
    obtain ⟨tokens, rfl, derives⟩ := Definition.reads_rule limit definitionRun
    exact ⟨tokens, rfl, .define derives⟩
  · obtain ⟨term, termRun, rfl⟩ := yields_map.mp run
    obtain ⟨tokens, rfl, derives⟩ := Term.reads_within limit limit termRun
    exact ⟨tokens, rfl, .lone derives⟩

theorem Program.shrinks_nextItem (limit : Nat) : Shrinks (nextItem limit) :=
  shrinks_nextItem_of_neverGrows (Item.reads_rule limit).neverGrows

theorem Program.reads_walks {limit index last : Nat} {input rest : Input} {items : Program}
    (walks : Walks (nextItem limit) index input items last rest) :
    ∃ tokens, input = rest.prepend tokens ∧ Derives limit tokens items := by
  induction walks with
  | start index input => exact ⟨[], rfl, .nil⟩
  | further step walks induction =>
      obtain ⟨-, semicolon, run, isSemicolon⟩ := yields_nextItem_some.mp step
      obtain ⟨tokens, rfl, derives⟩ := Item.reads_rule limit run
      obtain ⟨others, rfl, rest⟩ := induction
      exact ⟨tokens ++ semicolon :: others, by simp, .cons derives isSemicolon rest⟩

theorem Program.reads_rule {limit : Nat} {input rest : Input} {items : Program}
    (run : (rule limit).Yields input items rest) :
    rest.isEmpty = true ∧ ∃ tokens, input = rest.prepend tokens ∧ Derives limit tokens items := by
  obtain ⟨last, final, walks, stop⟩ := (yields_many (shrinks_nextItem limit)).mp run
  obtain ⟨empty, rfl⟩ := yields_nextItem_none.mp stop
  exact ⟨empty, reads_walks walks⟩

end TermScript

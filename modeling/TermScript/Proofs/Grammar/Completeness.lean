import TermScript.Proofs.Grammar.Soundness

namespace TermScript

open TermScript.Language

theorem Input.startsWith_eq_false_of_subset {input : Input} {kinds more : List Kind}
    (missing : input.startsWith more = false) (subset : kinds ⊆ more) :
    input.startsWith kinds = false := by
  rw [startsWith_eq_false_iff] at missing ⊢
  intro first next member
  exact missing first next (subset member)

namespace Rule

variable {α : Type} {element : Rule α} {language : Language α}

/-- The rule reads every row of the language that is not followed by a barred token. -/
def Completes (rule : Rule α) (language : Language α) (barred : List Kind) : Prop :=
  ∀ ⦃tokens value⦄ (rest : Input), language tokens value → rest.startsWith barred = false →
    rule.Yields (rest.prepend tokens) value rest

/-- A comma or this token may close a list of such elements: neither is taken for a part of an
element. -/
structure ClosesList (close : Kind) (starts barred : List Kind) : Prop where
  fresh : close ∉ starts
  notComma : close ≠ .comma
  notBarred : close ∉ barred
  commaNotBarred : .comma ∉ barred

section Lists

variable {close : Kind} {starts barred : List Kind}

private theorem ClosesList.endsAt_separated (closes : ClosesList close starts barred)
    (startsWith : Starts language starts) {tokens : List Token} {values : List α}
    (separated : Separated language tokens values) (after : Input) :
    (after.prepend tokens).endsAt [close] = false := by
  obtain ⟨first, others, rfl, member⟩ := startsWith.separated separated
  have different : first.kind ≠ close := fun same => closes.fresh (same ▸ member)
  simp [different]

private theorem Completes.walks_of_separated (completes : element.Completes language barred)
    (startsWith : Starts language starts) (closes : ClosesList close starts barred)
    {tokens : List Token} {values : List α} (separated : Separated language tokens values)
    {after : Input} (unbarred : after.startsWith barred = false) (index : Nat) :
    ∃ first others middle last, values = first :: others ∧
      element.Yields (after.prepend tokens) first middle ∧
      Walks (fun _ => nextInList [close] element) index middle others last after := by
  induction separated generalizing index with
  | one derives =>
      exact ⟨_, [], after, index, rfl, completes after derives unbarred, .start index after⟩
  | @more _ othersTokens comma _ _ derives isComma others induction =>
      obtain ⟨second, later, middle, last, rfl, secondRun, walks⟩ := induction (index + 1)
      have notClosed : (after.prepend (comma :: othersTokens)).endsAt [close] = false := by
        simp [isComma, closes.notComma.symm]
      have nextOpen := closes.endsAt_separated startsWith others after
      have step := yields_nextInList_some.mpr
        ⟨notClosed, comma, after.prepend othersTokens, by simp, isComma, nextOpen, secondRun⟩
      have firstRun := completes (after.prepend (comma :: othersTokens)) derives
        (by simp [isComma, closes.commaNotBarred])
      rw [Input.prepend_prepend] at firstRun
      exact ⟨_, second :: later, _, last, rfl, firstRun, .further step walks⟩

theorem Completes.listUntil (completes : element.Completes language barred)
    (neverGrows : NeverGrows element) (startsWith : Starts language starts)
    (closes : ClosesList close starts barred) (following : List Kind) :
    (listUntil close element).Completes (Closed close (Listed language)) following := by
  intro tokens values rest derives _
  obtain @⟨inner, closer, _, listed, isClose⟩ := derives
  refine yields_closed.mpr ⟨closer, ?_, isClose⟩
  refine (yields_sepByComma neverGrows).mpr ?_
  rw [← Input.prepend_prepend]
  have closed : (rest.prepend [closer]).endsAt [close] = true := by simp [isClose]
  have unbarred : (rest.prepend [closer]).startsWith barred = false := by
    simp [isClose, closes.notBarred]
  cases listed with
  | empty => exact .inl ⟨closed, rfl, rfl⟩
  | plain separated =>
      obtain ⟨first, others, middle, last, rfl, firstRun, walks⟩ :=
        completes.walks_of_separated startsWith closes separated unbarred 0
      have opened := closes.endsAt_separated startsWith separated (rest.prepend [closer])
      exact .inr ⟨opened, first, middle, others, last, _, firstRun, walks,
        yields_nextInList_none.mpr (.inl ⟨closed, rfl⟩), rfl⟩
  | @trailing inner comma _ separated isComma =>
      have commaUnbarred : ((rest.prepend [closer]).prepend [comma]).startsWith barred = false := by
        simp [isComma, closes.commaNotBarred]
      have commaOpen : ((rest.prepend [closer]).prepend [comma]).endsAt [close] = false := by
        simp [isComma, closes.notComma.symm]
      obtain ⟨first, others, middle, last, rfl, firstRun, walks⟩ :=
        completes.walks_of_separated startsWith closes separated commaUnbarred 0
      rw [← Input.prepend_prepend]
      have opened := closes.endsAt_separated startsWith separated
        ((rest.prepend [closer]).prepend [comma])
      exact .inr ⟨opened, first, middle, others, last, _, firstRun, walks,
        yields_nextInList_none.mpr (.inr ⟨commaOpen, closed, comma, rfl, isComma⟩), rfl⟩

end Lists

theorem Completes.grouped {inner : Rule α} {barred : List Kind}
    (completes : inner.Completes language barred) (notBarred : .closeParen ∉ barred)
    (following : List Kind) :
    (grouped inner).Completes (Closed .closeParen language) following := by
  intro tokens value rest derives _
  obtain @⟨inner, closer, _, derives, isClose⟩ := derives
  refine yields_closed.mpr ⟨closer, ?_, isClose⟩
  rw [← Input.prepend_prepend]
  exact completes _ derives (by simp [isClose, notBarred])

theorem Completes.chain {join : α → α → α} {link last : Language α}
    {linkBarred barred : List Kind} (neverGrows : NeverGrows element)
    (links : element.Completes link linkBarred) (ends : element.Completes last barred)
    (linkUnbarred : .colon ∉ linkBarred) (barredColon : .colon ∈ barred) :
    (chain join element).Completes (Chain join link last) barred := by
  intro tokens value rest derives unbarred
  have noColon : rest.startsWith [.colon] = false :=
    Input.startsWith_eq_false_of_subset unbarred (by simpa using barredColon)
  suffices ∀ index, ∃ first middle others last, element.Yields (rest.prepend tokens) first middle ∧
      Walks (fun _ => nextInChain element) index middle others last rest ∧
      value = joinRight join first others by
    obtain ⟨first, middle, others, last, firstRun, walks, same⟩ := this 0
    exact (yields_chain neverGrows).mpr
      ⟨first, middle, others, last, firstRun, walks, noColon, same⟩
  induction derives with
  | last final =>
      intro index
      exact ⟨_, rest, [], index, ends rest final unbarred, .start index rest, rfl⟩
  | @link _ othersTokens colon _ _ derives isColon others induction =>
      intro index
      obtain ⟨second, middle, later, last, secondRun, walks, rfl⟩ := induction (index + 1)
      have step := yields_nextInChain_some.mpr
        ⟨colon, rest.prepend othersTokens, rfl, isColon, secondRun⟩
      have firstRun := links (rest.prepend (colon :: othersTokens)) derives
        (by simp [isColon, linkUnbarred])
      rw [Input.prepend_prepend] at firstRun
      exact ⟨_, _, second :: later, last, firstRun, .further step walks, rfl⟩

end Rule

open Rule

namespace Rule

structure Recognises (rule : Rule α) (language : Language α) (starts barred : List Kind) :
    Prop where
  reads : rule.Reads language
  completes : rule.Completes language barred
  starts : Starts language starts

theorem Recognises.listUntil {close : Kind} {starts barred : List Kind}
    (recognises : element.Recognises language starts barred)
    (closes : ClosesList close starts barred) {tokens : List Token} {values : List α}
    (derives : Closed close (Listed language) tokens values) (rest : Input) :
    (listUntil close element).Yields (rest.prepend tokens) values rest :=
  recognises.completes.listUntil recognises.reads.neverGrows recognises.starts closes [] rest
    derives (by simp [Input.startsWith])

theorem Recognises.arguments? {starts barred : List Kind}
    (recognises : element.Recognises language starts barred)
    (closes : ClosesList .closeParen starts barred) {opener : Token} {tokens : List Token}
    {values : List α} (opens : opener.kind = .openParen)
    (derives : Closed .closeParen (Listed language) tokens values) (rest : Input) :
    (arguments? element).Yields (rest.prepend (opener :: tokens)) (some values) rest :=
  yields_arguments?.mpr (.inr ⟨opener, rest.prepend tokens, values, by simp, opens,
    recognises.listUntil closes derives rest, rfl⟩)

theorem Recognises.grouped {starts barred : List Kind}
    (recognises : element.Recognises language starts barred) (notBarred : .closeParen ∉ barred)
    {tokens : List Token} {value : α} (derives : Closed .closeParen language tokens value)
    (rest : Input) : (grouped element).Yields (rest.prepend tokens) value rest :=
  recognises.completes.grouped notBarred [] rest derives (by simp [Input.startsWith])

private theorem yields_no_arguments {rest : Input}
    (noParen : rest.startsWith [.openParen] = false) :
    (Rule.arguments? element).Yields rest none rest :=
  yields_arguments?.mpr (.inl ⟨noParen, rfl, rfl⟩)

end Rule

/-- The kinds with which an element of a chain may go on. -/
def Kind.elementGoesOn : List Kind :=
  [.openParen, .atSign]

/-- The kinds with which a chain may go on. -/
def Kind.chainGoesOn : List Kind :=
  [.openParen, .atSign, .colon]

private theorem Kind.elementGoesOn_subset : elementGoesOn ⊆ chainGoesOn := by
  decide

namespace Pattern

variable {inner : Rule Pattern} {language : Language Pattern}

private theorem closesList {close : Kind} (closes : close ∈ [.closeParen, .closeBracket, .arrow]) :
    ClosesList close Expectation.patternStarts Kind.chainGoesOn := by
  simp only [List.mem_cons, List.not_mem_nil, or_false] at closes
  rcases closes with rfl | rfl | rfl <;> constructor <;> decide

private theorem completes_element
    (recognises : inner.Recognises language Expectation.patternStarts Kind.chainGoesOn) :
    (element inner).Completes (Element language) Kind.elementGoesOn := by
  intro tokens value rest derives unbarred
  have noParen : rest.startsWith [.openParen] = false :=
    Input.startsWith_eq_false_of_subset unbarred (by decide)
  have noAt : rest.startsWith [.atSign] = false :=
    Input.startsWith_eq_false_of_subset unbarred (by decide)
  refine yields_element.mpr ?_
  cases derives with
  | wildcard isUnderscore =>
      exact ⟨_, rest, _, rfl, .wildcard isUnderscore, yields_pure.mpr ⟨rfl, rfl⟩⟩
  | var isName =>
      refine ⟨_, rest, _, rfl, .name isName, yields_nameRule.mpr (.inl ⟨noAt, ?_, rfl⟩)⟩
      rw [Token.name_of_identifier isName]
  | atom isAtom =>
      refine ⟨_, rest, _, rfl, .tree isAtom, yields_bind.mpr ?_⟩
      exact ⟨none, rest, yields_no_arguments noParen, yields_pure.mpr ⟨rfl, rfl⟩⟩
  | tree isAtom opens arguments =>
      refine ⟨_, rest.prepend (_ :: _), _, rfl, .tree isAtom, yields_bind.mpr ?_⟩
      exact ⟨some _, rest, recognises.arguments? (closesList (by decide)) opens arguments rest,
        yields_pure.mpr ⟨rfl, rfl⟩⟩
  | string isString =>
      exact ⟨_, rest, _, rfl, .string isString, yields_pure.mpr ⟨rfl, rfl⟩⟩
  | list opens elements =>
      refine ⟨_, rest.prepend _, _, rfl, .list opens, yields_map.mpr ⟨_, ?_, rfl⟩⟩
      exact recognises.listUntil (closesList (by decide)) elements rest
  | group opens grouped =>
      exact ⟨_, rest.prepend _, _, by simp, .group opens,
        recognises.grouped (by decide) grouped rest⟩

private theorem completes_final
    (recognises : inner.Recognises language Expectation.patternStarts Kind.chainGoesOn) :
    (element inner).Completes (Final language) Kind.chainGoesOn := by
  intro tokens value rest derives unbarred
  cases derives with
  | element derives =>
      exact completes_element recognises rest derives
        (Input.startsWith_eq_false_of_subset unbarred Kind.elementGoesOn_subset)
  | @named _ atSign tokens _ isName isAt derives =>
      refine yields_element.mpr
        ⟨_, rest.prepend (atSign :: tokens), _, by simp, .name isName, ?_⟩
      rw [← Token.name_of_identifier isName]
      exact yields_nameRule.mpr (.inr ⟨atSign, rest.prepend tokens, _, by simp, isAt,
        recognises.completes rest derives unbarred, rfl⟩)

theorem recognises_within (limit budget : Nat) :
    (within limit budget).Recognises (Derives budget) Expectation.patternStarts
      Kind.chainGoesOn := by
  refine ⟨(reads_within limit budget).1, ?_, Derives.starts budget⟩
  induction budget with
  | zero => exact fun _ _ _ impossible => impossible.elim
  | succ budget induction =>
      have recognises : (within limit budget).Recognises (Derives budget)
          Expectation.patternStarts Kind.chainGoesOn :=
        ⟨(reads_within limit budget).1, induction, Derives.starts budget⟩
      have final := reads_final recognises.reads (reads_within limit budget).2
      exact Completes.chain final.neverGrows (completes_element recognises)
        (completes_final recognises) (by decide) (by decide)

end Pattern

namespace Term

variable {pattern : Rule Pattern} {inner : Rule Term} {patternLanguage : Language Pattern}
  {language : Language Term}

private theorem closesList {close : Kind}
    (closes : close ∈ [.closeParen, .closeBracket, .openBrace]) :
    ClosesList close Expectation.termStarts Kind.chainGoesOn := by
  simp only [List.mem_cons, List.not_mem_nil, or_false] at closes
  rcases closes with rfl | rfl | rfl <;> constructor <;> decide

private theorem recognises_clause
    (patterns : pattern.Recognises patternLanguage Expectation.patternStarts Kind.chainGoesOn)
    (terms : inner.Recognises language Expectation.termStarts Kind.chainGoesOn) :
    (Clause.rule pattern inner).Recognises (Clause.Derives patternLanguage language)
      (.arrow :: Expectation.patternStarts) Kind.chainGoesOn := by
  refine ⟨Clause.reads_rule patterns.reads terms.reads, ?_, Clause.Derives.starts patterns.starts _⟩
  intro tokens value rest derives unbarred
  obtain @⟨left, right, _, _, patternsDerive, bodyDerives⟩ := derives
  rw [← Input.prepend_prepend]
  refine yields_bind.mpr ⟨_, rest.prepend right,
    patterns.listUntil (Pattern.closesList (by decide)) patternsDerive _, yields_bind.mpr ?_⟩
  exact ⟨_, rest, terms.completes rest bodyDerives unbarred, yields_pure.mpr ⟨rfl, rfl⟩⟩

private theorem completes_element
    (patterns : pattern.Recognises patternLanguage Expectation.patternStarts Kind.chainGoesOn)
    (terms : inner.Recognises language Expectation.termStarts Kind.chainGoesOn) :
    (element pattern inner).Completes (Element patternLanguage language)
      Kind.elementGoesOn := by
  intro tokens value rest derives unbarred
  have noParen : rest.startsWith [.openParen] = false :=
    Input.startsWith_eq_false_of_subset unbarred (by decide)
  refine yields_element.mpr ?_
  cases derives with
  | var isName =>
      refine ⟨_, rest, _, rfl, .name isName, yields_bind.mpr ?_⟩
      refine ⟨none, rest, yields_no_arguments noParen, yields_pure.mpr ⟨?_, rfl⟩⟩
      rw [Token.name_of_identifier isName]
  | app isName opens arguments =>
      refine ⟨_, rest.prepend (_ :: _), _, rfl, .name isName, yields_bind.mpr ?_⟩
      refine ⟨some _, rest, terms.arguments? (closesList (by decide)) opens arguments rest,
        yields_pure.mpr ⟨?_, rfl⟩⟩
      rw [Token.name_of_identifier isName]
  | atom isAtom =>
      refine ⟨_, rest, _, rfl, .tree isAtom, yields_bind.mpr ?_⟩
      exact ⟨none, rest, yields_no_arguments noParen, yields_pure.mpr ⟨rfl, rfl⟩⟩
  | tree isAtom opens arguments =>
      refine ⟨_, rest.prepend (_ :: _), _, rfl, .tree isAtom, yields_bind.mpr ?_⟩
      exact ⟨some _, rest, terms.arguments? (closesList (by decide)) opens arguments rest,
        yields_pure.mpr ⟨rfl, rfl⟩⟩
  | string isString =>
      exact ⟨_, rest, _, rfl, .string isString, yields_pure.mpr ⟨rfl, rfl⟩⟩
  | list opens elements =>
      refine ⟨_, rest.prepend _, _, rfl, .list opens, yields_map.mpr ⟨_, ?_, rfl⟩⟩
      exact terms.listUntil (closesList (by decide)) elements rest
  | group opens grouped =>
      exact ⟨_, rest.prepend _, _, by simp, .group opens,
        terms.grouped (by decide) grouped rest⟩
  | @matching word left right _ _ isMatch subjects clauses =>
      refine ⟨word, (rest.prepend right).prepend left, _, by simp, .matching isMatch, ?_⟩
      unfold matchRule
      rw [yields_note_bind]
      refine yields_bind.mpr ⟨_, rest.prepend right,
        terms.listUntil (closesList (by decide)) subjects _, yields_bind.mpr ?_⟩
      exact ⟨_, rest, (recognises_clause patterns terms).listUntil
        (by constructor <;> decide) clauses rest, yields_pure.mpr ⟨rfl, rfl⟩⟩

theorem recognises_within (limit budget : Nat) :
    (within limit budget).Recognises (Derives budget) Expectation.termStarts
      Kind.chainGoesOn := by
  refine ⟨reads_within limit budget, ?_, Derives.starts budget⟩
  induction budget with
  | zero => exact fun _ _ _ impossible => impossible.elim
  | succ budget induction =>
      have patterns := Pattern.recognises_within limit budget
      have terms : (within limit budget).Recognises (Derives budget) Expectation.termStarts
          Kind.chainGoesOn :=
        ⟨reads_within limit budget, induction, Derives.starts budget⟩
      have completes := completes_element patterns terms
      refine Completes.chain (reads_element patterns.reads terms.reads).neverGrows completes ?_
        (by decide) (by decide)
      intro tokens value rest derives unbarred
      exact completes rest derives
        (Input.startsWith_eq_false_of_subset unbarred Kind.elementGoesOn_subset)

end Term

theorem Definition.completes_rule (limit : Nat) :
    (Definition.rule limit).Completes (Definition.Derives limit) Kind.chainGoesOn := by
  intro tokens value rest derives unbarred
  cases derives with
  | @plain word name equals tokens body isLet isName isEquals bodyDerives =>
      have bodyRun := (Term.recognises_within limit limit).completes rest bodyDerives unbarred
      have noParen : (rest.prepend (equals :: tokens)).startsWith [.openParen] = false := by
        simp [isEquals]
      refine yields_bind.mpr ⟨word, rest.prepend (name :: equals :: tokens),
        yields_expect_one.mpr ⟨by simp, isLet⟩, yields_bind.mpr ?_⟩
      refine ⟨name, rest.prepend (equals :: tokens),
        yields_expect_one.mpr ⟨by simp, isName⟩, yields_note_bind.mpr ?_⟩
      refine yields_bind.mpr ⟨none, _, yields_no_arguments noParen, yields_bind.mpr ?_⟩
      exact ⟨equals, rest.prepend tokens, yields_expect_one.mpr ⟨by simp, isEquals⟩,
        yields_bind.mpr ⟨body, rest, bodyRun, yields_pure.mpr ⟨rfl, rfl⟩⟩⟩
  | @parameters word name opener equals left right patterns body isLet isName opens derives
      isEquals bodyDerives =>
      have bodyRun := (Term.recognises_within limit limit).completes rest bodyDerives unbarred
      have patternsRun := (Pattern.recognises_within limit limit).arguments?
        (Pattern.closesList (by decide)) opens derives (rest.prepend (equals :: right))
      refine yields_bind.mpr
        ⟨word, rest.prepend (name :: opener :: (left ++ equals :: right)),
          yields_expect_one.mpr ⟨by simp, isLet⟩, yields_bind.mpr ?_⟩
      refine ⟨name, rest.prepend (opener :: (left ++ equals :: right)),
        yields_expect_one.mpr ⟨by simp, isName⟩, yields_note_bind.mpr ?_⟩
      refine yields_bind.mpr ⟨some patterns, rest.prepend (equals :: right), ?_,
        yields_bind.mpr ?_⟩
      · rw [Input.prepend_prepend] at patternsRun
        exact patternsRun
      · exact ⟨equals, rest.prepend right, yields_expect_one.mpr ⟨by simp, isEquals⟩,
          yields_bind.mpr ⟨body, rest, bodyRun, yields_pure.mpr ⟨rfl, rfl⟩⟩⟩

theorem Item.completes_rule (limit : Nat) :
    (Item.rule limit).Completes (Item.Derives limit) Kind.chainGoesOn := by
  intro tokens value rest derives unbarred
  unfold Item.rule
  rw [yields_note_bind, yields_look_bind]
  cases derives with
  | define derives =>
      obtain ⟨first, others, rfl, isLet⟩ := Definition.Derives.starts limit derives
      rw [List.mem_singleton] at isLet
      rw [if_pos (by simp [isLet])]
      exact yields_map.mpr ⟨_, Definition.completes_rule limit rest derives unbarred, rfl⟩
  | lone derives =>
      obtain ⟨first, others, rfl, member⟩ := Term.Derives.starts limit derives
      have notLet : first.kind ≠ .letWord := by
        intro same
        rw [same] at member
        revert member
        decide
      rw [if_neg (by simp [notLet])]
      exact yields_map.mpr
        ⟨_, (Term.recognises_within limit limit).completes rest derives unbarred, rfl⟩

theorem Program.completes_nextItem {limit : Nat} {tokens : List Token} {item : Item}
    {semicolon : Token} (derives : Item.Derives limit tokens item)
    (isSemicolon : semicolon.kind = .semicolon) (rest : Input) (index : Nat) :
    (nextItem limit index).Yields (rest.prepend (tokens ++ [semicolon])) (some item) rest := by
  have run := Item.completes_rule limit (rest.prepend [semicolon]) derives
    (by simp [isSemicolon, Kind.chainGoesOn])
  have more : (rest.prepend (tokens ++ [semicolon])).isEmpty = false := by
    obtain ⟨first, tail, rfl, -⟩ := Item.Derives.starts limit derives
    simp
  rw [Input.prepend_prepend] at run
  exact yields_nextItem_some.mpr ⟨more, semicolon, run, isSemicolon⟩

theorem Program.completes_walks {limit : Nat} {tokens : List Token} {items : Program}
    (derives : Derives limit tokens items) (rest : Input) (index : Nat) :
    ∃ last, Walks (nextItem limit) index (rest.prepend tokens) items last rest := by
  induction derives generalizing index with
  | nil => exact ⟨index, .start index rest⟩
  | @cons tokens others semicolon item items derives isSemicolon _ induction =>
      obtain ⟨last, walks⟩ := induction (index + 1)
      have step := completes_nextItem derives isSemicolon (rest.prepend others) index
      rw [Input.prepend_prepend, List.append_assoc, List.singleton_append] at step
      exact ⟨last, .further step walks⟩

theorem Program.completes_rule {limit : Nat} {tokens : List Token} {items : Program}
    (derives : Derives limit tokens items) {rest : Input} (empty : rest.isEmpty = true) :
    (rule limit).Yields (rest.prepend tokens) items rest := by
  obtain ⟨last, walks⟩ := completes_walks derives rest 0
  exact (yields_many (shrinks_nextItem limit)).mpr
    ⟨last, rest, walks, yields_nextItem_none.mpr ⟨empty, rfl⟩⟩

namespace Program

/-- The program that a row of tokens stands for, if it nests no deeper than the limit. -/
def parse (limit : Nat) (tokens : List Token) : Except Fault Program :=
  (rule limit (Input.ofTokens tokens)).result

private theorem ofTokens_eq_prepend (tokens : List Token) :
    Input.ofTokens tokens = (⟨[], Input.finishOf tokens⟩ : Input).prepend tokens := by
  simp [Input.ofTokens, Input.prepend]

theorem Derives.parse {limit : Nat} {tokens : List Token} {items : Program}
    (derives : Derives limit tokens items) : parse limit tokens = .ok items := by
  rw [Program.parse, ofTokens_eq_prepend]
  exact (completes_rule derives rfl).result

theorem derives_of_parse {limit : Nat} {tokens : List Token} {items : Program}
    (parsed : parse limit tokens = .ok items) : Derives limit tokens items := by
  obtain ⟨rest, run⟩ := Rule.result_eq_ok_iff.mp parsed
  obtain ⟨empty, consumed, whole, derives⟩ := reads_rule run
  have same : tokens = consumed ++ rest.ahead := congrArg Input.ahead whole
  rw [Input.isEmpty, List.isEmpty_iff] at empty
  rw [empty, List.append_nil] at same
  exact same ▸ derives

theorem Derives.unique {low high : Nat} {tokens : List Token} {items others : Program}
    (left : Derives low tokens items) (right : Derives high tokens others) : items = others := by
  have leftParsed := (Derives.mono (Nat.le_max_left low high) _ _ left).parse
  have rightParsed := (Derives.mono (Nat.le_max_right low high) _ _ right).parse
  rw [leftParsed] at rightParsed
  exact Except.ok.inj rightParsed

/-- Reading finds a program exactly where the grammar has one, and there is never a choice. -/
theorem parse_eq_ok_iff_derives (limit : Nat) (tokens : List Token) (items : Program) :
    (parse limit tokens = .ok items ↔ Derives limit tokens items) ∧
      ∀ height others, Derives limit tokens items → Derives height tokens others →
        items = others :=
  ⟨⟨derives_of_parse, Derives.parse⟩, fun _ _ left right => left.unique right⟩

end Program

end TermScript

import TermScript.Layout
import TermScript.Proofs.Grammar.Nesting
import TermScript.Proofs.Layout.Tidy

namespace TermScript

open TermScript.Language Layout

/-- Wherever the layout stands, its words are a row for the value. -/
def Language.Shown {α : Type} (language : Language α) (pieces : List Piece) (value : α) : Prop :=
  ∀ offset, language (placed offset pieces) value

namespace Layout

theorem text_place (kind : Kind) (offset : Nat) (text : String) :
    (Token.place kind offset text.toList).text = text :=
  String.ofList_toList

private theorem unquoted_place {kind : Kind} {quote : Char} (isQuote : quote = '\'' ∨ quote = '"')
    (offset : Nat) (text : String) :
    (Token.place kind offset (quotedText quote text).toList).unquoted = text := by
  have notBackslash : quote ≠ '\\' := by
    rcases isQuote with rfl | rfl <;> decide
  have enclosed : (Token.place kind offset (quotedText quote text).toList).text.toList =
      quote :: (Text.escape quote text.toList ++ [quote]) := by
    rw [text_place, quotedText, String.toList_ofList, Text.enquote]
  rw [Token.unquoted_of_enclosed isQuote enclosed, Text.unescape_escape quote _ notBackslash,
    String.ofList_toList]

theorem placed_functor (offset : Nat) (name : String) (rest : List Piece) :
    ∃ token next, placed offset (functor name :: rest) = token :: placed next rest ∧
      token.kind ∈ [.atom, .quotedAtom] ∧ token.name = name := by
  unfold functor
  split
  · refine ⟨_, _, rfl, by simp [Token.place], ?_⟩
    rw [Token.name, if_neg (by simp [Token.place]), text_place]
  · refine ⟨_, _, rfl, by simp [Token.place], ?_⟩
    exact unquoted_place (.inl rfl) offset name

end Layout

namespace Language

variable {α : Type} {language : Language α}

theorem Shown.closed {pieces : List Piece} {value : α} (shown : language.Shown pieces value)
    (close : Kind) : (Closed close language).Shown (pieces ++ [Piece.mark close]) value := by
  intro offset
  rw [placed_append]
  exact .intro (shown offset) rfl

private theorem shown_separated {layout : α → List Piece} {first : α} {rest : List α}
    (shown : ∀ value ∈ first :: rest, language.Shown (layout value) value) :
    (Separated language).Shown (separated ((first :: rest).map layout)) (first :: rest) := by
  induction rest generalizing first with
  | nil =>
      intro offset
      rw [List.map_singleton, separated_singleton]
      exact .one (shown first List.mem_cons_self offset)
  | cons second others induction =>
      have restShown := induction fun value member => shown value (List.mem_cons_of_mem _ member)
      intro offset
      rw [List.map_cons, List.map_cons, separated_cons_cons, placed_append]
      exact .more (shown first List.mem_cons_self offset) rfl (restShown _)

theorem shown_listed {layout : α → List Piece} {values : List α}
    (shown : ∀ value ∈ values, language.Shown (layout value) value) :
    (Listed language).Shown (separated (values.map layout)) values := by
  intro offset
  cases values with
  | nil => exact .empty
  | cons first rest => exact .plain (shown_separated shown offset)

theorem Shown.joined {join : α → α → α} {link last : Language α} {head tail : List Piece}
    {first rest : α} (headShown : link.Shown head first)
    (tailShown : (Chain join link last).Shown tail rest) :
    (Chain join link last).Shown (joined head tail) (join first rest) := by
  intro offset
  rw [Layout.joined, List.append_assoc, placed_append]
  exact .link (headShown offset) rfl (tailShown _)

/-- In parentheses the head of a chain stands one level below the chain. -/
private theorem shown_head {pieces : List Piece} {value : α} {opens : Bool} {load height : Nat}
    (plain : opens = false → load ≤ height → language.Shown pieces value)
    (grouped : ∀ lower, height = lower + 1 → load ≤ lower →
      language.Shown (parenthesised pieces) value)
    (atMost : (if opens then load + 1 else load) ≤ height) :
    language.Shown (if opens then parenthesised pieces else pieces) value := by
  cases opens with
  | true =>
      rw [if_pos rfl] at atMost ⊢
      cases height with
      | zero => cases atMost
      | succ lower => exact grouped lower rfl (Nat.le_of_succ_le_succ atMost)
  | false =>
      rw [if_neg Bool.false_ne_true] at atMost ⊢
      exact plain rfl atMost

end Language

namespace Pattern

private theorem shown_of_element {height : Nat} {pattern : Pattern}
    (shown : (Element (Derives height)).Shown pattern.pieces pattern) :
    (pattern.opensChain = false → (Element (Derives height)).Shown pattern.pieces pattern) ∧
      (Derives (height + 1)).Shown pattern.pieces pattern :=
  ⟨fun _ => shown, fun offset => .last (.element (shown offset))⟩

private theorem shown_group {inner : Language Pattern} {pieces : List Piece} {pattern : Pattern}
    (shown : inner.Shown pieces pattern) :
    (Element inner).Shown (parenthesised pieces) pattern :=
  fun _ => .group rfl (shown.closed .closeParen _)

private theorem shown_tree {inner : Language Pattern} {functor : String} {children : List Pattern}
    (shown : ∀ child ∈ children, inner.Shown child.pieces child) :
    (Element inner).Shown (tree functor children).pieces (tree functor children) := by
  intro offset
  obtain ⟨token, next, split, isAtom, same⟩ :=
    placed_functor offset functor (arguments (piecesOfList children))
  rw [pieces, split, ← same, piecesOfList_eq_map]
  cases children with
  | nil => exact .atom isAtom
  | cons first rest => exact .tree isAtom rfl ((shown_listed shown).closed .closeParen _)

private theorem shown_cons {height : Nat} {head tail : Pattern}
    (headShown : ∀ height, head.load ≤ height →
      (head.opensChain = false → (Element (Derives height)).Shown head.pieces head) ∧
        (Derives (height + 1)).Shown head.pieces head)
    (tailShown : (Derives (height + 1)).Shown tail.pieces tail) (atMost : head.weight ≤ height) :
    (Derives (height + 1)).Shown (cons head tail).pieces (cons head tail) := by
  rw [pieces]
  refine Shown.joined (shown_head ?_ ?_ atMost) tailShown
  · intro opens atMost
    exact (headShown height atMost).1 opens
  · rintro lower rfl atMost
    exact shown_group (headShown lower atMost).2

mutual

/-- A pattern is written at the height of its nesting, and if it needs no parentheses also as an
element of a chain. -/
theorem shown_pieces : (pattern : Pattern) → (height : Nat) → pattern.load ≤ height →
    (pattern.opensChain = false → (Element (Derives height)).Shown pattern.pieces pattern) ∧
      (Derives (height + 1)).Shown pattern.pieces pattern
  | .tree functor children, height, atMost => by
      exact shown_of_element (shown_tree (shown_each children height atMost))
  | .wildcard, height, _ => by
      exact shown_of_element fun _ => .wildcard rfl
  | .var name, height, _ => by
      apply shown_of_element
      intro offset
      have element : Element (Derives height) (placed offset (var name).pieces) _ :=
        .var rfl
      rw [text_place] at element
      exact element
  | .named name inner, height, atMost => by
      refine ⟨nofun, fun offset => ?_⟩
      cases height with
      | zero => cases atMost
      | succ height =>
          have innerShown := (shown_pieces inner height (Nat.le_of_succ_le_succ atMost)).2
          have final : Final (Derives (height + 1)) (placed offset (named name inner).pieces) _ :=
            .named rfl rfl (innerShown _)
          rw [text_place] at final
          exact .last final
  | .cons head tail, height, atMost => by
      rw [load_cons, Nat.max_le] at atMost
      exact ⟨nofun, shown_cons (shown_pieces head) (shown_pieces tail height atMost.2).2 atMost.1⟩
  | .string text, height, _ => by
      apply shown_of_element
      intro offset
      have element : Element (Derives height) (placed offset (string text).pieces) _ :=
        .string rfl
      rw [unquoted_place (.inr rfl)] at element
      exact element
  | .list elements, height, atMost => by
      apply shown_of_element
      have elementsShown := shown_listed (shown_each elements height atMost)
      intro offset
      rw [pieces, piecesOfList_eq_map]
      exact .list rfl (elementsShown.closed .closeBracket _)

theorem shown_each : (patterns : List Pattern) → (height : Nat) → deepest patterns ≤ height →
    ∀ pattern ∈ patterns, (Derives height).Shown pattern.pieces pattern
  | [], _, _ => nofun
  | first :: rest, height, atMost => by
      rw [deepest, Nat.max_le] at atMost
      obtain ⟨firstAtMost, restAtMost⟩ := atMost
      refine List.forall_mem_cons.mpr ⟨?_, shown_each rest height restAtMost⟩
      cases height with
      | zero => cases firstAtMost
      | succ height => exact (shown_pieces first height (Nat.le_of_succ_le_succ firstAtMost)).2

end

end Pattern

private theorem Clause.mk_eq (clause : Clause) : .mk clause.patterns clause.body = clause := by
  cases clause
  rfl

def Clause.pieces (clause : Clause) : List Piece :=
  separated (clause.patterns.map Pattern.pieces) ++
    Piece.space :: Piece.mark .arrow :: Piece.space :: clause.body.pieces

theorem Clause.shown_pieces {pattern : Language Pattern} {term : Language Term} {clause : Clause}
    (patterns : ∀ tree ∈ clause.patterns, pattern.Shown tree.pieces tree)
    (body : term.Shown clause.body.pieces clause.body) :
    (Clause.Derives pattern term).Shown clause.pieces clause := by
  intro offset
  rw [pieces, placed_append]
  change Clause.Derives pattern term (_ ++ _ :: _) clause
  rw [List.append_cons, ← mk_eq clause]
  exact .intro (.intro (shown_listed patterns offset) rfl) (body _)

namespace Term

theorem piecesOfClauses_eq_map (clauses : List Clause) :
    piecesOfClauses clauses = clauses.map Clause.pieces := by
  induction clauses with
  | nil => rfl
  | cons first rest induction =>
      obtain ⟨patterns, body⟩ := first
      rw [piecesOfClauses, induction, Pattern.piecesOfList_eq_map, List.map_cons]
      rfl

private theorem shown_spaced {α : Type} {language : Language α} {layout : α → List Piece}
    {values : List α} (shown : ∀ value ∈ values, language.Shown (layout value) value) :
    (Listed language).Shown (spaced (values.map layout)) values := by
  intro offset
  unfold spaced
  split
  · rename_i empty
    rw [List.isEmpty_iff, List.map_eq_nil_iff] at empty
    rw [empty]
    exact .empty
  · rw [placed_append]
    have listed := shown_listed shown offset
    rwa [← List.append_nil (placed offset _)] at listed

private theorem shown_of_element {height : Nat} {term : Term}
    (shown : (Element (Pattern.Derives height) (Derives height)).Shown term.pieces term) :
    (term.opensChain = false →
      (Element (Pattern.Derives height) (Derives height)).Shown term.pieces term) ∧
      (Derives (height + 1)).Shown term.pieces term :=
  ⟨fun _ => shown, fun offset => .last (shown offset)⟩

section Elements

variable {pattern : Language Pattern} {inner : Language Term}

private theorem shown_group {pieces : List Piece} {term : Term} (shown : inner.Shown pieces term) :
    (Element pattern inner).Shown (parenthesised pieces) term :=
  fun _ => .group rfl (shown.closed .closeParen _)

private theorem shown_tree {functor : String} {children : List Term}
    (shown : ∀ child ∈ children, inner.Shown child.pieces child) :
    (Element pattern inner).Shown (tree functor children).pieces (tree functor children) := by
  intro offset
  obtain ⟨token, next, split, isAtom, same⟩ :=
    placed_functor offset functor (arguments (piecesOfList children))
  rw [pieces, split, ← same, piecesOfList_eq_map]
  cases children with
  | nil => exact .atom isAtom
  | cons first rest => exact .tree isAtom rfl ((shown_listed shown).closed .closeParen _)

private theorem shown_app {operator : String} {operands : List Term}
    (shown : ∀ operand ∈ operands, inner.Shown operand.pieces operand) :
    (Element pattern inner).Shown (app operator operands).pieces (app operator operands) := by
  intro offset
  have listed := (shown_listed shown).closed .closeParen
  have element : Element pattern inner
      (placed offset (.word .identifier operator ::
        parenthesised (separated (operands.map pieces)))) _ :=
    .app rfl rfl (listed _)
  rw [text_place] at element
  rw [pieces, piecesOfList_eq_map]
  exact element

private theorem shown_matching {subjects : List Term} {clauses : List Clause}
    (subjectsShown : ∀ subject ∈ subjects, inner.Shown subject.pieces subject)
    (clausesShown : ∀ clause ∈ clauses,
      (Clause.Derives pattern inner).Shown clause.pieces clause) :
    (Element pattern inner).Shown (matching subjects clauses).pieces
      (matching subjects clauses) := by
  intro offset
  have left := (shown_spaced subjectsShown).closed .openBrace
  have right := (shown_spaced clausesShown).closed .closeBrace
  rw [pieces, piecesOfList_eq_map, piecesOfClauses_eq_map, List.append_cons]
  change Element pattern inner (_ :: placed _ (_ ++ _)) _
  rw [placed_append]
  exact .matching rfl (left _) (right _)

end Elements

private theorem shown_cons {height : Nat} {head tail : Term}
    (headShown : ∀ height, head.load ≤ height →
      (head.opensChain = false →
        (Element (Pattern.Derives height) (Derives height)).Shown head.pieces head) ∧
        (Derives (height + 1)).Shown head.pieces head)
    (tailShown : (Derives (height + 1)).Shown tail.pieces tail) (atMost : head.weight ≤ height) :
    (Derives (height + 1)).Shown (cons head tail).pieces (cons head tail) := by
  rw [pieces]
  refine Shown.joined (shown_head ?_ ?_ atMost) tailShown
  · intro opens atMost
    exact (headShown height atMost).1 opens
  · rintro lower rfl atMost
    exact shown_group (headShown lower atMost).2

mutual

theorem shown_pieces : (term : Term) → (height : Nat) → term.load ≤ height →
    (term.opensChain = false →
      (Element (Pattern.Derives height) (Derives height)).Shown term.pieces term) ∧
      (Derives (height + 1)).Shown term.pieces term
  | .tree functor children, height, atMost => by
      exact shown_of_element (shown_tree (shown_each children height atMost))
  | .var name, height, _ => by
      apply shown_of_element
      intro offset
      have element : Element (Pattern.Derives height) (Derives height)
          (placed offset (var name).pieces) _ := .var rfl
      rw [text_place] at element
      exact element
  | .app operator operands, height, atMost => by
      exact shown_of_element (shown_app (shown_each operands height atMost))
  | .cons head tail, height, atMost => by
      rw [load_cons, Nat.max_le] at atMost
      exact ⟨nofun, shown_cons (shown_pieces head) (shown_pieces tail height atMost.2).2 atMost.1⟩
  | .string text, height, _ => by
      apply shown_of_element
      intro offset
      have element : Element (Pattern.Derives height) (Derives height)
          (placed offset (string text).pieces) _ := .string rfl
      rw [unquoted_place (.inr rfl)] at element
      exact element
  | .list elements, height, atMost => by
      apply shown_of_element
      have elementsShown := shown_listed (shown_each elements height atMost)
      intro offset
      rw [pieces, piecesOfList_eq_map]
      exact .list rfl (elementsShown.closed .closeBracket _)
  | .matching subjects clauses, height, atMost => by
      rw [load, Nat.max_le] at atMost
      exact shown_of_element (shown_matching (shown_each subjects height atMost.1)
        (shown_eachClause clauses height atMost.2))

theorem shown_each : (terms : List Term) → (height : Nat) → deepest terms ≤ height →
    ∀ term ∈ terms, (Derives height).Shown term.pieces term
  | [], _, _ => nofun
  | first :: rest, height, atMost => by
      rw [deepest, Nat.max_le] at atMost
      obtain ⟨firstAtMost, restAtMost⟩ := atMost
      refine List.forall_mem_cons.mpr ⟨?_, shown_each rest height restAtMost⟩
      cases height with
      | zero => cases firstAtMost
      | succ height => exact (shown_pieces first height (Nat.le_of_succ_le_succ firstAtMost)).2

theorem shown_eachClause : (clauses : List Clause) → (height : Nat) →
    deepestOfClauses clauses ≤ height → ∀ clause ∈ clauses,
      (Clause.Derives (Pattern.Derives height) (Derives height)).Shown clause.pieces clause
  | [], _, _ => nofun
  | .mk patterns body :: rest, height, atMost => by
      rw [deepestOfClauses, Nat.max_le, Nat.max_le] at atMost
      obtain ⟨⟨patternsAtMost, bodyAtMost⟩, restAtMost⟩ := atMost
      refine List.forall_mem_cons.mpr ⟨?_, shown_eachClause rest height restAtMost⟩
      refine Clause.shown_pieces (Pattern.shown_each patterns height patternsAtMost) ?_
      cases height with
      | zero => cases bodyAtMost
      | succ height => exact (shown_pieces body height (Nat.le_of_succ_le_succ bodyAtMost)).2

end

end Term

theorem Term.shown_of_nesting_le {term : Term} {height : Nat} (atMost : term.nesting ≤ height) :
    (Derives height).Shown term.pieces term := by
  cases height with
  | zero => cases atMost
  | succ height => exact (shown_pieces term height (Nat.le_of_succ_le_succ atMost)).2

private theorem Definition.Derives.relabel {height : Nat} {tokens : List Token}
    {name label : String} {patterns : List Pattern} {body : Term}
    (derives : Derives height tokens ⟨name, patterns, body⟩) (same : name = label) :
    Derives height tokens ⟨label, patterns, body⟩ :=
  same ▸ derives

theorem Definition.shown_pieces {definition : Definition} {height : Nat}
    (atMost : definition.nesting ≤ height) :
    (Derives height).Shown definition.pieces definition := by
  obtain ⟨name, patterns, body⟩ := definition
  rw [nesting, Nat.max_le] at atMost
  obtain ⟨patternsAtMost, bodyAtMost⟩ := atMost
  have bodyShown := Term.shown_of_nesting_le bodyAtMost
  intro offset
  rw [pieces, Pattern.piecesOfList_eq_map]
  cases patterns with
  | nil =>
      exact Derives.relabel (.plain rfl rfl rfl (bodyShown _)) (text_place .identifier _ name)
  | cons first rest =>
      have patternsShown := (shown_listed (Pattern.shown_each _ height patternsAtMost)).closed
        .closeParen
      change Derives height (_ :: _ :: _ :: placed _ (_ ++ _)) _
      rw [placed_append]
      exact Derives.relabel (.parameters rfl rfl rfl (patternsShown _) rfl (bodyShown _))
        (text_place .identifier _ name)

theorem Item.shown_pieces {item : Item} {height : Nat} (atMost : item.nesting ≤ height) :
    (Derives height).Shown item.pieces item := by
  intro offset
  cases item with
  | define definition => exact .define (Definition.shown_pieces atMost offset)
  | lone term => exact .lone (Term.shown_of_nesting_le atMost offset)

theorem Program.shown_pieces {items : Program} {height : Nat} (atMost : nesting items ≤ height) :
    (Derives height).Shown (pieces items) items := by
  rw [nesting_le_iff] at atMost
  induction items with
  | nil => exact fun _ => .nil
  | cons item others induction =>
      obtain ⟨itemAtMost, othersAtMost⟩ := List.forall_mem_cons.mp atMost
      intro offset
      rw [pieces, List.flatMap_cons, List.append_assoc, placed_append]
      exact .cons (Item.shown_pieces itemAtMost offset) rfl (induction othersAtMost _)

end TermScript

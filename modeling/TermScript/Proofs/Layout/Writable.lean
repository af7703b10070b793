import TermScript.Layout
import TermScript.Proofs.Layout.Tidy

namespace TermScript

open Layout

namespace Pattern

mutual

def isWritable : Pattern → Bool
  | .tree functor children =>
      decide (Text.Quotable '\'' functor.toList) && areWritable children
  | .wildcard => true
  | .var name => isName name.toList
  | .named name inner => isName name.toList && isWritable inner
  | .cons head tail => isWritable head && isWritable tail
  | .string text => decide (Text.Quotable '"' text.toList)
  | .list elements => areWritable elements

def areWritable : List Pattern → Bool
  | [] => true
  | first :: rest => isWritable first && areWritable rest

end

theorem areWritable_eq_true_iff (patterns : List Pattern) :
    areWritable patterns = true ↔ ∀ pattern ∈ patterns, pattern.isWritable = true := by
  induction patterns with
  | nil => simp [areWritable]
  | cons first rest induction => simp [areWritable, induction]

mutual

theorem loose_pieces : (pattern : Pattern) → pattern.isWritable = true → Loose pattern.pieces
  | .tree functor children, writable => by
      rw [isWritable, Bool.and_eq_true, decide_eq_true_eq] at writable
      obtain ⟨quotable, childrenWritable⟩ := writable
      rw [pieces]
      exact (loose_functor quotable).append
        (loose_arguments (loose_piecesOfList children childrenWritable))
        fun _ parted => parted_arguments parted
  | .wildcard, _ => loose_word rfl
  | .var _, writable => loose_word writable
  | .named name inner, writable => by
      rw [isWritable, Bool.and_eq_true] at writable
      obtain ⟨nameWritable, innerWritable⟩ := writable
      have nameLoose : Loose [.word .identifier name] := loose_word nameWritable
      have innerLoose := loose_pieces inner innerWritable
      rw [pieces]
      apply nameLoose.append
      · exact fun after parted => ⟨rfl, nofun, innerLoose after parted⟩
      · exact fun after _ => parted_cons (by decide) _
  | .cons head tail, writable => by
      rw [isWritable, Bool.and_eq_true] at writable
      obtain ⟨headWritable, tailWritable⟩ := writable
      have headLoose := loose_pieces head headWritable
      rw [pieces]
      apply Loose.joined _ (loose_pieces tail tailWritable)
      split
      · exact fun after _ => headLoose.parenthesised after
      · exact headLoose
  | .string text, writable => by
      rw [isWritable, decide_eq_true_eq] at writable
      rw [pieces]
      exact loose_string writable
  | .list elements, writable => by
      rw [isWritable] at writable
      rw [pieces]
      exact fun after _ =>
        (loose_separated (loose_piecesOfList elements writable)).bracketed after

theorem loose_piecesOfList :
    (patterns : List Pattern) → areWritable patterns = true →
      ∀ part ∈ piecesOfList patterns, Loose part
  | [], _ => by simp [piecesOfList]
  | first :: rest, writable => by
      rw [areWritable, Bool.and_eq_true] at writable
      have firstLoose := loose_pieces first writable.1
      have restLoose := loose_piecesOfList rest writable.2
      rw [piecesOfList]
      exact List.forall_mem_cons.mpr ⟨firstLoose, restLoose⟩

end

end Pattern

namespace Term

mutual

def isWritable : Term → Bool
  | .tree functor children =>
      decide (Text.Quotable '\'' functor.toList) && areWritable children
  | .var name => isName name.toList
  | .app operator operands => isName operator.toList && areWritable operands
  | .cons head tail => isWritable head && isWritable tail
  | .string text => decide (Text.Quotable '"' text.toList)
  | .list elements => areWritable elements
  | .matching subjects clauses => areWritable subjects && clausesAreWritable clauses

def areWritable : List Term → Bool
  | [] => true
  | first :: rest => isWritable first && areWritable rest

def clausesAreWritable : List Clause → Bool
  | [] => true
  | .mk patterns body :: rest =>
      Pattern.areWritable patterns && isWritable body && clausesAreWritable rest

end

theorem areWritable_eq_true_iff (terms : List Term) :
    areWritable terms = true ↔ ∀ term ∈ terms, term.isWritable = true := by
  induction terms with
  | nil => simp [areWritable]
  | cons first rest induction => simp [areWritable, induction]

theorem clausesAreWritable_eq_true_iff (clauses : List Clause) :
    clausesAreWritable clauses = true ↔ ∀ clause ∈ clauses,
      Pattern.areWritable clause.patterns = true ∧ clause.body.isWritable = true := by
  induction clauses with
  | nil => simp [clausesAreWritable]
  | cons first rest induction =>
      obtain ⟨patterns, body⟩ := first
      rw [clausesAreWritable, Bool.and_eq_true, Bool.and_eq_true, induction, List.forall_mem_cons]
      rfl

private theorem tidy_spaced {parts : List (List Piece)} (loose : ∀ part ∈ parts, Loose part)
    {rest : List Piece} {after : List Char} (tidy : Tidy rest after) :
    Tidy (spaced parts ++ rest) after := by
  apply tidy_append _ tidy
  unfold spaced
  split
  · trivial
  · apply tidy_append _ (tidy_space (tidy_nil _))
    exact loose_separated loose _ (parted_cons (by decide) _)

mutual

theorem loose_pieces : (term : Term) → term.isWritable = true → Loose term.pieces
  | .tree functor children, writable => by
      rw [isWritable, Bool.and_eq_true, decide_eq_true_eq] at writable
      obtain ⟨quotable, childrenWritable⟩ := writable
      rw [pieces]
      exact (loose_functor quotable).append
        (loose_arguments (loose_piecesOfList children childrenWritable))
        fun _ parted => parted_arguments parted
  | .var _, writable => loose_word writable
  | .app operator operands, writable => by
      rw [isWritable, Bool.and_eq_true] at writable
      obtain ⟨operatorWritable, operandsWritable⟩ := writable
      have operatorLoose : Loose [.word .identifier operator] := loose_word operatorWritable
      have operandsLoose := loose_separated (loose_piecesOfList operands operandsWritable)
      rw [pieces]
      apply operatorLoose.append
      · exact fun after _ => operandsLoose.parenthesised after
      · exact fun after _ => parted_cons (by decide) _
  | .cons head tail, writable => by
      rw [isWritable, Bool.and_eq_true] at writable
      obtain ⟨headWritable, tailWritable⟩ := writable
      have headLoose := loose_pieces head headWritable
      rw [pieces]
      apply Loose.joined _ (loose_pieces tail tailWritable)
      split
      · exact fun after _ => headLoose.parenthesised after
      · exact headLoose
  | .string text, writable => by
      rw [isWritable, decide_eq_true_eq] at writable
      rw [pieces]
      exact loose_string writable
  | .list elements, writable => by
      rw [isWritable] at writable
      rw [pieces]
      exact fun after _ =>
        (loose_separated (loose_piecesOfList elements writable)).bracketed after
  | .matching subjects clauses, writable => by
      rw [isWritable, Bool.and_eq_true] at writable
      obtain ⟨subjectsWritable, clausesWritable⟩ := writable
      have subjectsLoose := loose_piecesOfList subjects subjectsWritable
      have clausesLoose := loose_piecesOfClauses clauses clausesWritable
      have closeTidy (after : List Char) : Tidy [Piece.mark .closeBrace] after :=
        ⟨rfl, nofun, trivial⟩
      rw [pieces]
      intro after _
      refine ⟨rfl, fun _ => parted_cons (by decide) _, tidy_space ?_⟩
      apply tidy_spaced subjectsLoose
      exact ⟨rfl, nofun, tidy_space (tidy_spaced clausesLoose (closeTidy after))⟩

theorem loose_piecesOfList :
    (terms : List Term) → areWritable terms = true → ∀ part ∈ piecesOfList terms, Loose part
  | [], _ => by simp [piecesOfList]
  | first :: rest, writable => by
      rw [areWritable, Bool.and_eq_true] at writable
      have firstLoose := loose_pieces first writable.1
      have restLoose := loose_piecesOfList rest writable.2
      rw [piecesOfList]
      exact List.forall_mem_cons.mpr ⟨firstLoose, restLoose⟩

theorem loose_piecesOfClauses :
    (clauses : List Clause) → clausesAreWritable clauses = true →
      ∀ part ∈ piecesOfClauses clauses, Loose part
  | [], _ => by simp [piecesOfClauses]
  | .mk patterns body :: rest, writable => by
      rw [clausesAreWritable, Bool.and_eq_true, Bool.and_eq_true] at writable
      obtain ⟨⟨patternsWritable, bodyWritable⟩, restWritable⟩ := writable
      have patternsLoose :=
        loose_separated (Pattern.loose_piecesOfList patterns patternsWritable)
      have bodyLoose := loose_pieces body bodyWritable
      have restLoose := loose_piecesOfClauses rest restWritable
      rw [piecesOfClauses]
      apply List.forall_mem_cons.mpr ⟨_, restLoose⟩
      apply patternsLoose.append
      · exact fun after parted =>
          tidy_space ⟨rfl, nofun, tidy_space (bodyLoose after parted)⟩
      · exact fun after _ => parted_cons (by decide) _

end

end Term

def Definition.isWritable (definition : Definition) : Bool :=
  isName definition.name.toList && Pattern.areWritable definition.patterns &&
    definition.body.isWritable

def Item.isWritable : Item → Bool
  | .define definition => definition.isWritable
  | .lone term => term.isWritable

def Program.isWritable (items : Program) : Bool :=
  items.all Item.isWritable

theorem Definition.loose_pieces {definition : Definition}
    (writable : definition.isWritable = true) : Loose definition.pieces := by
  rw [isWritable, Bool.and_eq_true, Bool.and_eq_true] at writable
  obtain ⟨⟨nameWritable, patternsWritable⟩, bodyWritable⟩ := writable
  have nameLoose : Loose [.word .identifier definition.name] := loose_word nameWritable
  have patternsLoose :=
    loose_arguments (Pattern.loose_piecesOfList definition.patterns patternsWritable)
  have bodyLoose := Term.loose_pieces definition.body bodyWritable
  have headLoose : Loose ([.word .identifier definition.name] ++
      arguments (Pattern.piecesOfList definition.patterns)) :=
    nameLoose.append patternsLoose fun _ parted => parted_arguments parted
  have bodyLoose : Loose
      (Piece.space :: Piece.mark .equals :: Piece.space :: definition.body.pieces) :=
    fun after parted => tidy_space
      ⟨rfl, fun _ => parted_cons (by decide) _, tidy_space (bodyLoose after parted)⟩
  intro after parted
  refine ⟨rfl, fun _ => parted_cons (by decide) _, tidy_space ?_⟩
  exact headLoose.append bodyLoose (fun _ _ => parted_cons (by decide) _) after parted

theorem Item.loose_pieces {item : Item} (writable : item.isWritable = true) :
    Loose item.pieces := by
  cases item with
  | define definition => exact Definition.loose_pieces writable
  | lone term => exact Term.loose_pieces term writable

theorem Program.tidy_pieces {items : Program} (writable : isWritable items = true)
    (after : List Char) : Tidy (pieces items) after := by
  induction items with
  | nil => exact tidy_nil after
  | cons item others induction =>
      rw [isWritable, List.all_cons, Bool.and_eq_true] at writable
      obtain ⟨itemWritable, othersWritable⟩ := writable
      rw [pieces, List.flatMap_cons, List.append_assoc]
      apply tidy_append (Item.loose_pieces itemWritable _ _)
      · exact ⟨rfl, nofun, by decide, induction othersWritable⟩
      · exact parted_cons (by decide) _

end TermScript

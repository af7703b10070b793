import TermScript.Layout

/-! How many calls are open at once while a tree is printed, and printing with only so many of them.
Every tree is entered by a call of its own. What it takes to go on in the tail of a chain is a
parameter: one call if the printer calls itself there too, none if it loops along the chain. -/

namespace TermScript

private theorem bind_bind_ite {α β γ : Type} {left right : Prop} [Decidable left] [Decidable right]
    (first : α) (second : β) (combine : α → β → γ) :
    (do
      let a ← (if left then some first else none)
      let b ← (if right then some second else none)
      return combine a b) = if left ∧ right then some (combine first second) else none := by
  by_cases leftHolds : left
  · by_cases rightHolds : right <;> simp [leftHolds, rightHolds]
  · simp [leftHolds]

private theorem le_sub_iff_add_le_of_pos {depth : Nat} (positive : 0 < depth) (frames cost : Nat) :
    depth ≤ frames - cost ↔ depth + cost ≤ frames := by
  omega

section Depths

variable (tailCost : Nat)

namespace Pattern

mutual

/-- The calls that are open at once where the printing of a pattern is deepest. -/
def callDepth : Pattern → Nat
  | .tree _ children => callDepthOfList children + 1
  | .wildcard => 1
  | .var _ => 1
  | .named _ inner => callDepth inner + 1
  | .cons head tail => max (callDepth head + 1) (callDepth tail + tailCost)
  | .string _ => 1
  | .list elements => callDepthOfList elements + 1

def callDepthOfList : List Pattern → Nat
  | [] => 0
  | first :: rest => max (callDepth first) (callDepthOfList rest)

end

mutual

/-- The layout of a pattern, if no more calls than these are needed for it. -/
def piecesWithin : Nat → Pattern → Option (List Piece)
  | 0, _ => none
  | frames + 1, .tree functor children =>
      (piecesOfListWithin frames children).map fun parts =>
        Layout.functor functor :: Layout.arguments parts
  | _ + 1, .wildcard => some [Piece.mark .underscore]
  | _ + 1, .var name => some [.word .identifier name]
  | frames + 1, .named name inner =>
      (piecesWithin frames inner).map fun pieces =>
        .word .identifier name :: Piece.mark .atSign :: pieces
  | frames + 1, .cons head tail => do
      let first ← piecesWithin frames head
      let rest ← piecesWithin (frames + 1 - tailCost) tail
      return Layout.joined (if head.opensChain then Layout.parenthesised first else first) rest
  | _ + 1, .string text => some [Layout.string text]
  | frames + 1, .list elements =>
      (piecesOfListWithin frames elements).map fun parts =>
        Layout.bracketed (Layout.separated parts)

def piecesOfListWithin : Nat → List Pattern → Option (List (List Piece))
  | _, [] => some []
  | frames, first :: rest => do
      let pieces ← piecesWithin frames first
      let others ← piecesOfListWithin frames rest
      return pieces :: others

end

private theorem callDepth_pos (pattern : Pattern) : 0 < pattern.callDepth tailCost := by
  cases pattern <;> simp only [callDepth] <;> omega

mutual

theorem piecesWithin_eq : (pattern : Pattern) → (frames : Nat) →
    pattern.piecesWithin tailCost frames =
      if pattern.callDepth tailCost ≤ frames then some pattern.pieces else none
  | pattern, 0 => by
      rw [if_neg (Nat.not_le.mpr (callDepth_pos tailCost pattern))]
      cases pattern <;> rfl
  | .tree functor children, frames + 1 => by
      simp only [piecesWithin, piecesOfListWithin_eq children, Option.map_if, callDepth, pieces,
        Nat.add_le_add_iff_right]
  | .wildcard, _ + 1 => by simp [piecesWithin, callDepth, pieces]
  | .var _, _ + 1 => by simp [piecesWithin, callDepth, pieces]
  | .named name inner, frames + 1 => by
      simp only [piecesWithin, piecesWithin_eq inner, Option.map_if, callDepth, pieces,
        Nat.add_le_add_iff_right]
  | .cons head tail, frames + 1 => by
      simp only [piecesWithin, piecesWithin_eq head, piecesWithin_eq tail, callDepth, pieces,
        le_sub_iff_add_le_of_pos (tail.callDepth_pos tailCost), Nat.max_le,
        Nat.add_le_add_iff_right]
      exact bind_bind_ite _ _ _
  | .string _, _ + 1 => by simp [piecesWithin, callDepth, pieces]
  | .list elements, frames + 1 => by
      simp only [piecesWithin, piecesOfListWithin_eq elements, Option.map_if, callDepth, pieces,
        Nat.add_le_add_iff_right]

theorem piecesOfListWithin_eq : (patterns : List Pattern) → (frames : Nat) →
    piecesOfListWithin tailCost frames patterns =
      if callDepthOfList tailCost patterns ≤ frames then some (piecesOfList patterns) else none
  | [], _ => by simp [piecesOfListWithin, callDepthOfList, piecesOfList]
  | first :: rest, frames => by
      simp only [piecesOfListWithin, piecesWithin_eq first, piecesOfListWithin_eq rest,
        callDepthOfList, piecesOfList, Nat.max_le]
      exact bind_bind_ite _ _ _

end

end Pattern

namespace Term

mutual

def callDepth : Term → Nat
  | .tree _ children => callDepthOfList children + 1
  | .var _ => 1
  | .app _ operands => callDepthOfList operands + 1
  | .cons head tail => max (callDepth head + 1) (callDepth tail + tailCost)
  | .string _ => 1
  | .list elements => callDepthOfList elements + 1
  | .matching subjects clauses =>
      max (callDepthOfList subjects) (callDepthOfClauses clauses) + 1

def callDepthOfList : List Term → Nat
  | [] => 0
  | first :: rest => max (callDepth first) (callDepthOfList rest)

def callDepthOfClauses : List Clause → Nat
  | [] => 0
  | .mk patterns body :: rest =>
      max (max (Pattern.callDepthOfList tailCost patterns) (callDepth body))
        (callDepthOfClauses rest)

end

mutual

def piecesWithin : Nat → Term → Option (List Piece)
  | 0, _ => none
  | frames + 1, .tree functor children =>
      (piecesOfListWithin frames children).map fun parts =>
        Layout.functor functor :: Layout.arguments parts
  | _ + 1, .var name => some [.word .identifier name]
  | frames + 1, .app operator operands =>
      (piecesOfListWithin frames operands).map fun parts =>
        .word .identifier operator :: Layout.parenthesised (Layout.separated parts)
  | frames + 1, .cons head tail => do
      let first ← piecesWithin frames head
      let rest ← piecesWithin (frames + 1 - tailCost) tail
      return Layout.joined (if head.opensChain then Layout.parenthesised first else first) rest
  | _ + 1, .string text => some [Layout.string text]
  | frames + 1, .list elements =>
      (piecesOfListWithin frames elements).map fun parts =>
        Layout.bracketed (Layout.separated parts)
  | frames + 1, .matching subjects clauses => do
      let parts ← piecesOfListWithin frames subjects
      let arms ← piecesOfClausesWithin frames clauses
      return Piece.mark .matchWord :: Piece.space ::
        (spaced parts ++
          Piece.mark .openBrace :: Piece.space :: (spaced arms ++ [Piece.mark .closeBrace]))

def piecesOfListWithin : Nat → List Term → Option (List (List Piece))
  | _, [] => some []
  | frames, first :: rest => do
      let pieces ← piecesWithin frames first
      let others ← piecesOfListWithin frames rest
      return pieces :: others

def piecesOfClausesWithin : Nat → List Clause → Option (List (List Piece))
  | _, [] => some []
  | frames, .mk patterns body :: rest => do
      let pieces ← (do
        let parts ← Pattern.piecesOfListWithin tailCost frames patterns
        let result ← piecesWithin frames body
        return Layout.separated parts ++
          Piece.space :: Piece.mark .arrow :: Piece.space :: result)
      let others ← piecesOfClausesWithin frames rest
      return pieces :: others

end

private theorem callDepth_pos (term : Term) : 0 < term.callDepth tailCost := by
  cases term <;> simp only [callDepth] <;> omega

mutual

theorem piecesWithin_eq : (term : Term) → (frames : Nat) →
    term.piecesWithin tailCost frames =
      if term.callDepth tailCost ≤ frames then some term.pieces else none
  | term, 0 => by
      rw [if_neg (Nat.not_le.mpr (callDepth_pos tailCost term))]
      cases term <;> rfl
  | .tree functor children, frames + 1 => by
      simp only [piecesWithin, piecesOfListWithin_eq children, Option.map_if, callDepth, pieces,
        Nat.add_le_add_iff_right]
  | .var _, _ + 1 => by simp [piecesWithin, callDepth, pieces]
  | .app operator operands, frames + 1 => by
      simp only [piecesWithin, piecesOfListWithin_eq operands, Option.map_if, callDepth, pieces,
        Nat.add_le_add_iff_right]
  | .cons head tail, frames + 1 => by
      simp only [piecesWithin, piecesWithin_eq head, piecesWithin_eq tail, callDepth, pieces,
        le_sub_iff_add_le_of_pos (tail.callDepth_pos tailCost), Nat.max_le,
        Nat.add_le_add_iff_right]
      exact bind_bind_ite _ _ _
  | .string _, _ + 1 => by simp [piecesWithin, callDepth, pieces]
  | .list elements, frames + 1 => by
      simp only [piecesWithin, piecesOfListWithin_eq elements, Option.map_if, callDepth, pieces,
        Nat.add_le_add_iff_right]
  | .matching subjects clauses, frames + 1 => by
      simp only [piecesWithin, piecesOfListWithin_eq subjects, piecesOfClausesWithin_eq clauses,
        callDepth, pieces, Nat.max_le, Nat.add_le_add_iff_right]
      exact bind_bind_ite _ _ _

theorem piecesOfListWithin_eq : (terms : List Term) → (frames : Nat) →
    piecesOfListWithin tailCost frames terms =
      if callDepthOfList tailCost terms ≤ frames then some (piecesOfList terms) else none
  | [], _ => by simp [piecesOfListWithin, callDepthOfList, piecesOfList]
  | first :: rest, frames => by
      simp only [piecesOfListWithin, piecesWithin_eq first, piecesOfListWithin_eq rest,
        callDepthOfList, piecesOfList, Nat.max_le]
      exact bind_bind_ite _ _ _

theorem piecesOfClausesWithin_eq : (clauses : List Clause) → (frames : Nat) →
    piecesOfClausesWithin tailCost frames clauses =
      if callDepthOfClauses tailCost clauses ≤ frames then some (piecesOfClauses clauses) else none
  | [], _ => by simp [piecesOfClausesWithin, callDepthOfClauses, piecesOfClauses]
  | .mk patterns body :: rest, frames => by
      simp only [piecesOfClausesWithin, Pattern.piecesOfListWithin_eq, piecesWithin_eq body,
        piecesOfClausesWithin_eq rest, callDepthOfClauses, piecesOfClauses, Nat.max_le]
      rw [bind_bind_ite]
      exact bind_bind_ite _ _ _

end

end Term

namespace Definition

def callDepth (definition : Definition) : Nat :=
  max (Pattern.callDepthOfList tailCost definition.patterns) (definition.body.callDepth tailCost)

def piecesWithin (frames : Nat) (definition : Definition) : Option (List Piece) := do
  let parts ← Pattern.piecesOfListWithin tailCost frames definition.patterns
  let body ← definition.body.piecesWithin tailCost frames
  return Piece.mark .letWord :: Piece.space :: .word .identifier definition.name ::
    (Layout.arguments parts ++ Piece.space :: Piece.mark .equals :: Piece.space :: body)

theorem piecesWithin_eq (frames : Nat) (definition : Definition) :
    definition.piecesWithin tailCost frames =
      if definition.callDepth tailCost ≤ frames then some definition.pieces else none := by
  simp only [piecesWithin, Pattern.piecesOfListWithin_eq, Term.piecesWithin_eq, callDepth, pieces,
    Nat.max_le]
  exact bind_bind_ite _ _ _

end Definition

namespace Item

/-- The call for an item itself is not counted, and neither is the one for the whole program. -/
def callDepth : Item → Nat
  | .define definition => definition.callDepth tailCost
  | .lone term => term.callDepth tailCost

def piecesWithin (frames : Nat) : Item → Option (List Piece)
  | .define definition => definition.piecesWithin tailCost frames
  | .lone term => term.piecesWithin tailCost frames

theorem piecesWithin_eq (frames : Nat) (item : Item) :
    item.piecesWithin tailCost frames =
      if item.callDepth tailCost ≤ frames then some item.pieces else none := by
  cases item with
  | define definition => exact definition.piecesWithin_eq tailCost frames
  | lone term => exact term.piecesWithin_eq tailCost frames

end Item

namespace Program

def callDepth (items : Program) : Nat :=
  (items.map (Item.callDepth tailCost)).foldr max 0

theorem callDepth_cons (item : Item) (others : Program) :
    callDepth tailCost (item :: others) =
      max (item.callDepth tailCost) (callDepth tailCost others) := rfl

def piecesWithin (frames : Nat) : Program → Option (List Piece)
  | [] => some []
  | item :: others => do
      let first ← item.piecesWithin tailCost frames
      let rest ← piecesWithin frames others
      return first ++ [Piece.mark .semicolon, .gap "\n"] ++ rest

def renderWithin (frames : Nat) (items : Program) : Option String :=
  (piecesWithin tailCost frames items).map Layout.render

theorem piecesWithin_eq (frames : Nat) (items : Program) :
    piecesWithin tailCost frames items =
      if callDepth tailCost items ≤ frames then some (pieces items) else none := by
  induction items with
  | nil => exact (if_pos (Nat.zero_le frames)).symm
  | cons item others induction =>
      simp only [piecesWithin, Item.piecesWithin_eq, induction, callDepth_cons, Nat.max_le]
      exact bind_bind_ite _ _ _

/-- Printing is over with so many calls open at once exactly if the items are that deep at most. -/
theorem renderWithin_eq (frames : Nat) (items : Program) :
    renderWithin tailCost frames items =
      if callDepth tailCost items ≤ frames then some (render items) else none := by
  rw [renderWithin, piecesWithin_eq, Option.map_if]
  rfl

end Program

end Depths

end TermScript

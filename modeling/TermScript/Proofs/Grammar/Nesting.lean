import TermScript.Layout
import TermScript.Proofs.Grammar.Derivation

/-! How deep trees nest when they are written with as few parentheses as can be. No row of tokens
stands for a tree that nests deeper than the height of the row. -/

namespace TermScript

open TermScript.Language

namespace Pattern

mutual

/-- The levels below the one that a pattern takes itself. The elements of a chain share a level,
except those that need parentheses. -/
def load : Pattern → Nat
  | .tree _ children => deepest children
  | .wildcard => 0
  | .var _ => 0
  | .named _ inner => load inner + 1
  | .cons head tail => max (if head.opensChain then load head + 1 else load head) (load tail)
  | .string _ => 0
  | .list elements => deepest elements

def deepest : List Pattern → Nat
  | [] => 0
  | first :: rest => max (load first + 1) (deepest rest)

end

def nesting (pattern : Pattern) : Nat :=
  pattern.load + 1

/-- What a pattern adds to a chain that goes on after it. -/
def weight (pattern : Pattern) : Nat :=
  if pattern.opensChain then pattern.load + 1 else pattern.load

theorem load_cons (head tail : Pattern) :
    (cons head tail).load = max head.weight tail.load := by
  rw [load, weight]

private theorem deepest_le_iff {patterns : List Pattern} {height : Nat} :
    deepest patterns ≤ height ↔ ∀ pattern ∈ patterns, pattern.nesting ≤ height := by
  induction patterns with
  | nil => simp [deepest]
  | cons first rest induction =>
      rw [deepest, Nat.max_le, induction, List.forall_mem_cons]
      rfl

private theorem weight_le_of_nesting_le {pattern : Pattern} {height : Nat}
    (atMost : pattern.nesting ≤ height) : pattern.weight ≤ height := by
  rw [nesting] at atMost
  unfold weight
  split <;> omega

section Heights

variable {inner : Language Pattern} {height : Nat}
  (atMost : ∀ part pattern, inner part pattern → pattern.nesting ≤ height)

include atMost

private theorem Element.weight_le {tokens : List Token} {pattern : Pattern}
    (element : Element inner tokens pattern) : pattern.weight ≤ height := by
  cases element with
  | wildcard => exact Nat.zero_le height
  | var => exact Nat.zero_le height
  | atom => exact Nat.zero_le height
  | string => exact Nat.zero_le height
  | tree _ _ children =>
      exact deepest_le_iff.mpr (children.forall_mem fun part child _ => atMost part child)
  | list _ elements =>
      exact deepest_le_iff.mpr (elements.forall_mem fun part child _ => atMost part child)
  | group _ closed =>
      obtain ⟨part, -, derives⟩ := closed.inner
      exact weight_le_of_nesting_le (atMost part pattern derives)

private theorem Final.load_le {tokens : List Token} {pattern : Pattern}
    (final : Final inner tokens pattern) : pattern.load ≤ height := by
  cases final with
  | element element =>
      have := element.weight_le atMost
      unfold weight at this
      split at this <;> omega
  | named _ _ derives => exact atMost _ _ derives

end Heights

theorem Derives.nesting_le {height : Nat} {tokens : List Token} {pattern : Pattern}
    (derives : Derives height tokens pattern) : pattern.nesting ≤ height := by
  induction height generalizing tokens pattern with
  | zero => exact derives.elim
  | succ height induction =>
      apply Nat.succ_le_succ
      induction derives with
      | last final => exact final.load_le fun _ _ derives => induction derives
      | link element _ _ restLoad =>
          rw [load_cons]
          exact Nat.max_le.mpr ⟨element.weight_le fun _ _ derives => induction derives, restLoad⟩

end Pattern

namespace Term

mutual

def load : Term → Nat
  | .tree _ children => deepest children
  | .var _ => 0
  | .app _ operands => deepest operands
  | .cons head tail => max (if head.opensChain then load head + 1 else load head) (load tail)
  | .string _ => 0
  | .list elements => deepest elements
  | .matching subjects clauses => max (deepest subjects) (deepestOfClauses clauses)

def deepest : List Term → Nat
  | [] => 0
  | first :: rest => max (load first + 1) (deepest rest)

def deepestOfClauses : List Clause → Nat
  | [] => 0
  | .mk patterns body :: rest =>
      max (max (Pattern.deepest patterns) (load body + 1)) (deepestOfClauses rest)

end

def nesting (term : Term) : Nat :=
  term.load + 1

def weight (term : Term) : Nat :=
  if term.opensChain then term.load + 1 else term.load

end Term

def Clause.nesting (clause : Clause) : Nat :=
  max (Pattern.deepest clause.patterns) clause.body.nesting

theorem Clause.Derives.nesting_le {height : Nat} {pattern : Language Pattern}
    {term : Language Term} (patterns : ∀ part tree, pattern part tree → tree.nesting ≤ height)
    (terms : ∀ part tree, term part tree → tree.nesting ≤ height) {tokens : List Token}
    {clause : Clause} (derives : Clause.Derives pattern term tokens clause) :
    clause.nesting ≤ height := by
  cases derives with
  | intro patternsDerive bodyDerives =>
      apply Nat.max_le.mpr
      constructor
      · apply Pattern.deepest_le_iff.mpr
        exact patternsDerive.forall_mem fun part tree _ => patterns part tree
      · exact terms _ _ bodyDerives

namespace Term

theorem load_cons (head tail : Term) : (cons head tail).load = max head.weight tail.load := by
  rw [load, weight]

private theorem deepest_le_iff {terms : List Term} {height : Nat} :
    deepest terms ≤ height ↔ ∀ term ∈ terms, term.nesting ≤ height := by
  induction terms with
  | nil => simp [deepest]
  | cons first rest induction =>
      rw [deepest, Nat.max_le, induction, List.forall_mem_cons]
      rfl

private theorem deepestOfClauses_le_iff {clauses : List Clause} {height : Nat} :
    deepestOfClauses clauses ≤ height ↔ ∀ clause ∈ clauses, clause.nesting ≤ height := by
  induction clauses with
  | nil => simp [deepestOfClauses]
  | cons first rest induction =>
      obtain ⟨patterns, body⟩ := first
      rw [deepestOfClauses, Nat.max_le, induction, List.forall_mem_cons]
      rfl

private theorem weight_le_of_nesting_le {term : Term} {height : Nat}
    (atMost : term.nesting ≤ height) :
    term.weight ≤ height := by
  rw [nesting] at atMost
  unfold weight
  split <;> omega

private theorem load_le_weight (term : Term) : term.load ≤ term.weight := by
  unfold weight
  split <;> omega

private theorem Element.weight_le {pattern : Language Pattern} {inner : Language Term}
    {height : Nat} (patterns : ∀ part tree, pattern part tree → tree.nesting ≤ height)
    (terms : ∀ part tree, inner part tree → tree.nesting ≤ height) {tokens : List Token}
    {term : Term} (element : Element pattern inner tokens term) : term.weight ≤ height := by
  cases element with
  | var => exact Nat.zero_le height
  | atom => exact Nat.zero_le height
  | string => exact Nat.zero_le height
  | app _ _ operands =>
      exact deepest_le_iff.mpr (operands.forall_mem fun part child _ => terms part child)
  | tree _ _ children =>
      exact deepest_le_iff.mpr (children.forall_mem fun part child _ => terms part child)
  | list _ elements =>
      exact deepest_le_iff.mpr (elements.forall_mem fun part child _ => terms part child)
  | group _ closed =>
      obtain ⟨part, -, derives⟩ := closed.inner
      exact weight_le_of_nesting_le (terms part term derives)
  | matching _ subjects clauses =>
      apply Nat.max_le.mpr
      constructor
      · exact deepest_le_iff.mpr (subjects.forall_mem fun part child _ => terms part child)
      · apply deepestOfClauses_le_iff.mpr
        exact clauses.forall_mem fun part clause _ derives => derives.nesting_le patterns terms

theorem Derives.nesting_le {height : Nat} {tokens : List Token} {term : Term}
    (derives : Derives height tokens term) : term.nesting ≤ height := by
  induction height generalizing tokens term with
  | zero => exact derives.elim
  | succ height induction =>
      have weight_le {part : List Token} {tree : Term}
          (element : Element (Pattern.Derives height) (Derives height) part tree) :
          tree.weight ≤ height :=
        element.weight_le (fun _ _ derives => derives.nesting_le)
          fun _ _ derives => induction derives
      apply Nat.succ_le_succ
      induction derives with
      | last element => exact Nat.le_trans (load_le_weight _) (weight_le element)
      | link element _ _ restLoad =>
          rw [load_cons]
          exact Nat.max_le.mpr ⟨weight_le element, restLoad⟩

end Term

def Definition.nesting (definition : Definition) : Nat :=
  max (Pattern.deepest definition.patterns) definition.body.nesting

def Item.nesting : Item → Nat
  | .define definition => definition.nesting
  | .lone term => term.nesting

/-- The nesting of the deepest item; zero if there are no items. -/
def Program.nesting (items : Program) : Nat :=
  (items.map Item.nesting).foldr max 0

theorem Program.nesting_le_iff {items : Program} {height : Nat} :
    nesting items ≤ height ↔ ∀ item ∈ items, item.nesting ≤ height := by
  induction items with
  | nil => simp [nesting]
  | cons item others induction =>
      rw [List.forall_mem_cons, ← induction, ← Nat.max_le]
      rfl

theorem Definition.Derives.nesting_le {height : Nat} {tokens : List Token}
    {definition : Definition} (derives : Derives height tokens definition) :
    definition.nesting ≤ height := by
  cases derives with
  | plain _ _ _ body => exact Nat.max_le.mpr ⟨Nat.zero_le height, body.nesting_le⟩
  | parameters _ _ _ patterns _ body =>
      refine Nat.max_le.mpr ⟨Pattern.deepest_le_iff.mpr ?_, body.nesting_le⟩
      exact patterns.forall_mem fun _ _ _ derives => derives.nesting_le

theorem Item.Derives.nesting_le {height : Nat} {tokens : List Token} {item : Item}
    (derives : Derives height tokens item) : item.nesting ≤ height := by
  cases derives with
  | define derives => exact derives.nesting_le
  | lone derives => exact derives.nesting_le

theorem Program.Derives.nesting_le {height : Nat} {tokens : List Token} {items : Program}
    (derives : Derives height tokens items) : nesting items ≤ height := by
  apply nesting_le_iff.mpr
  induction derives with
  | nil => exact nofun
  | cons item _ _ induction => exact List.forall_mem_cons.mpr ⟨item.nesting_le, induction⟩

end TermScript

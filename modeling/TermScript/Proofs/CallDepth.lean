import Mathlib.Order.MinMax
import TermScript.Proofs.Grammar.Nesting
import TermScript.Proofs.Layout.Frames
import TermScript.Proofs.RoundTrip

/-! How deep printing goes for what has been read. The limit on nesting bounds it level by level; it
does not bound how far a chain goes on, for the elements of a chain share a level. -/

namespace TermScript

open Layout

namespace Pattern

/-- The colons of the chain that a pattern is. -/
def colons : Pattern → Nat
  | .cons _ tail => tail.colons + 1
  | _ => 0

mutual

/-- The most colons of one chain anywhere in a pattern. -/
def longestChain : Pattern → Nat
  | .tree _ children => longestChainOfList children
  | .wildcard => 0
  | .var _ => 0
  | .named _ inner => longestChain inner
  | .cons head tail => max (longestChain head) (max (tail.colons + 1) (longestChain tail))
  | .string _ => 0
  | .list elements => longestChainOfList elements

def longestChainOfList : List Pattern → Nat
  | [] => 0
  | first :: rest => max (longestChain first) (longestChainOfList rest)

end

private theorem colons_le_longestChain (pattern : Pattern) :
    pattern.colons ≤ pattern.longestChain := by
  cases pattern <;> simp only [colons, longestChain] <;> omega

private theorem colons_eq_zero {pattern : Pattern} (noChain : pattern.opensChain = false) :
    pattern.colons = 0 := by
  cases pattern with
  | cons head tail => cases noChain
  | _ => rfl

end Pattern

namespace Term

def colons : Term → Nat
  | .cons _ tail => tail.colons + 1
  | _ => 0

mutual

def longestChain : Term → Nat
  | .tree _ children => longestChainOfList children
  | .var _ => 0
  | .app _ operands => longestChainOfList operands
  | .cons head tail => max (longestChain head) (max (tail.colons + 1) (longestChain tail))
  | .string _ => 0
  | .list elements => longestChainOfList elements
  | .matching subjects clauses =>
      max (longestChainOfList subjects) (longestChainOfClauses clauses)

def longestChainOfList : List Term → Nat
  | [] => 0
  | first :: rest => max (longestChain first) (longestChainOfList rest)

def longestChainOfClauses : List Clause → Nat
  | [] => 0
  | .mk patterns body :: rest =>
      max (max (Pattern.longestChainOfList patterns) (longestChain body))
        (longestChainOfClauses rest)

end

private theorem colons_le_longestChain (term : Term) : term.colons ≤ term.longestChain := by
  cases term <;> simp only [colons, longestChain] <;> omega

private theorem colons_eq_zero {term : Term} (noChain : term.opensChain = false) :
    term.colons = 0 := by
  cases term with
  | cons head tail => cases noChain
  | _ => rfl

end Term

namespace Layout

/-- The calls allowed for a tree if every level below it may take `perLevel` of them: those of the
levels, those of the colons of its own chain, and two more for a chain and an element of it, or one
for a tree that is no chain. -/
private def allowance (tailCost perLevel load colons : Nat) (opensChain : Bool) : Nat :=
  perLevel * load + colons * tailCost + if opensChain then 2 else 1

variable {tailCost longest perLevel load colons : Nat} {opensChain : Bool}

private theorem allowance_le :
    allowance tailCost perLevel load colons opensChain ≤
      perLevel * load + colons * tailCost + 2 := by
  rw [allowance]
  split <;> omega

private theorem succ_le_allowance {depth : Nat} (below : depth ≤ perLevel * load) :
    depth + 1 ≤ allowance tailCost perLevel load colons opensChain := by
  rw [allowance]
  split <;> omega

/-- The step from the tail to the chain. What the parentheses of the head cost is in its weight. -/
private theorem link_le_allowance {weight headDepth tailDepth : Nat}
    (head : headDepth ≤ perLevel * weight + 1)
    (tail : tailDepth ≤ allowance tailCost perLevel load colons opensChain) :
    max (headDepth + 1) (tailDepth + tailCost) ≤
      allowance tailCost perLevel (max weight load) (colons + 1) true := by
  have atMost := Nat.le_trans tail allowance_le
  rw [allowance, if_pos rfl, Nat.succ_mul, ← Nat.mul_max_mul_left]
  omega

variable (enough : longest * tailCost + 2 ≤ perLevel) (short : colons ≤ longest)

include enough short

private theorem allowance_le_level :
    allowance tailCost perLevel load colons opensChain ≤ perLevel * (load + 1) := by
  have chain := Nat.mul_le_mul_right tailCost short
  apply Nat.le_trans allowance_le
  rw [Nat.mul_succ]
  omega

/-- In parentheses a head has a level of its own, without them it is no chain. -/
private theorem allowance_le_weight (plain : opensChain = false → colons = 0) :
    allowance tailCost perLevel load colons opensChain ≤
      perLevel * (if opensChain then load + 1 else load) + 1 := by
  cases opensChain with
  | false =>
      rw [allowance, plain rfl]
      simp
  | true => exact Nat.le_succ_of_le (allowance_le_level enough short)

end Layout

namespace Pattern

variable {tailCost longest perLevel : Nat}

private def allowance (tailCost perLevel : Nat) (pattern : Pattern) : Nat :=
  Layout.allowance tailCost perLevel pattern.load pattern.colons pattern.opensChain

variable (enough : longest * tailCost + 2 ≤ perLevel)

include enough

private theorem allowance_le_nesting {pattern : Pattern} (short : pattern.longestChain ≤ longest) :
    pattern.allowance tailCost perLevel ≤ perLevel * pattern.nesting :=
  allowance_le_level enough (Nat.le_trans pattern.colons_le_longestChain short)

private theorem allowance_le_weight {pattern : Pattern} (short : pattern.longestChain ≤ longest) :
    pattern.allowance tailCost perLevel ≤ perLevel * pattern.weight + 1 :=
  Layout.allowance_le_weight enough (Nat.le_trans pattern.colons_le_longestChain short)
    colons_eq_zero

mutual

private theorem callDepth_le_allowance : (pattern : Pattern) → pattern.longestChain ≤ longest →
    pattern.callDepth tailCost ≤ pattern.allowance tailCost perLevel
  | .tree _ children, short => succ_le_allowance (callDepthOfList_le children short)
  | .wildcard, _ => succ_le_allowance (Nat.zero_le _)
  | .var _, _ => succ_le_allowance (Nat.zero_le _)
  | .named _ inner, short => by
      have innerDepth := callDepth_le_allowance inner short
      exact succ_le_allowance (Nat.le_trans innerDepth (allowance_le_nesting enough short))
  | .cons head tail, short => by
      rw [longestChain, Nat.max_le, Nat.max_le] at short
      obtain ⟨headShort, -, tailShort⟩ := short
      have headDepth := callDepth_le_allowance head headShort
      have headLevels := Nat.le_trans headDepth (allowance_le_weight enough headShort)
      have tailDepth := callDepth_le_allowance tail tailShort
      rw [allowance, load_cons]
      exact link_le_allowance headLevels tailDepth
  | .string _, _ => succ_le_allowance (Nat.zero_le _)
  | .list elements, short => succ_le_allowance (callDepthOfList_le elements short)

private theorem callDepthOfList_le :
    (patterns : List Pattern) → longestChainOfList patterns ≤ longest →
    callDepthOfList tailCost patterns ≤ perLevel * deepest patterns
  | [], _ => Nat.zero_le _
  | first :: rest, short => by
      rw [longestChainOfList, Nat.max_le] at short
      have firstDepth := callDepth_le_allowance first short.1
      have restDepth := callDepthOfList_le rest short.2
      rw [callDepthOfList, deepest, ← Nat.mul_max_mul_left]
      exact max_le_max (Nat.le_trans firstDepth (allowance_le_nesting enough short.1)) restDepth

end

end Pattern

namespace Term

variable {tailCost longest perLevel : Nat}

private def allowance (tailCost perLevel : Nat) (term : Term) : Nat :=
  Layout.allowance tailCost perLevel term.load term.colons term.opensChain

variable (enough : longest * tailCost + 2 ≤ perLevel)

include enough

private theorem allowance_le_nesting {term : Term} (short : term.longestChain ≤ longest) :
    term.allowance tailCost perLevel ≤ perLevel * term.nesting :=
  allowance_le_level enough (Nat.le_trans term.colons_le_longestChain short)

private theorem allowance_le_weight {term : Term} (short : term.longestChain ≤ longest) :
    term.allowance tailCost perLevel ≤ perLevel * term.weight + 1 :=
  Layout.allowance_le_weight enough (Nat.le_trans term.colons_le_longestChain short) colons_eq_zero

mutual

private theorem callDepth_le_allowance : (term : Term) → term.longestChain ≤ longest →
    term.callDepth tailCost ≤ term.allowance tailCost perLevel
  | .tree _ children, short => succ_le_allowance (callDepthOfList_le children short)
  | .var _, _ => succ_le_allowance (Nat.zero_le _)
  | .app _ operands, short => succ_le_allowance (callDepthOfList_le operands short)
  | .cons head tail, short => by
      rw [longestChain, Nat.max_le, Nat.max_le] at short
      obtain ⟨headShort, -, tailShort⟩ := short
      have headDepth := callDepth_le_allowance head headShort
      have headLevels := Nat.le_trans headDepth (allowance_le_weight enough headShort)
      have tailDepth := callDepth_le_allowance tail tailShort
      rw [allowance, load_cons]
      exact link_le_allowance headLevels tailDepth
  | .string _, _ => succ_le_allowance (Nat.zero_le _)
  | .list elements, short => succ_le_allowance (callDepthOfList_le elements short)
  | .matching subjects clauses, short => by
      rw [longestChain, Nat.max_le] at short
      have subjectsDepth := callDepthOfList_le subjects short.1
      have clausesDepth := callDepthOfClauses_le clauses short.2
      apply succ_le_allowance
      rw [load, ← Nat.mul_max_mul_left]
      exact max_le_max subjectsDepth clausesDepth

private theorem callDepthOfList_le : (terms : List Term) → longestChainOfList terms ≤ longest →
    callDepthOfList tailCost terms ≤ perLevel * deepest terms
  | [], _ => Nat.zero_le _
  | first :: rest, short => by
      rw [longestChainOfList, Nat.max_le] at short
      have firstDepth := callDepth_le_allowance first short.1
      have restDepth := callDepthOfList_le rest short.2
      rw [callDepthOfList, deepest, ← Nat.mul_max_mul_left]
      exact max_le_max (Nat.le_trans firstDepth (allowance_le_nesting enough short.1)) restDepth

private theorem callDepthOfClauses_le : (clauses : List Clause) →
    longestChainOfClauses clauses ≤ longest →
      callDepthOfClauses tailCost clauses ≤ perLevel * deepestOfClauses clauses
  | [], _ => Nat.zero_le _
  | .mk patterns body :: rest, short => by
      rw [longestChainOfClauses, Nat.max_le, Nat.max_le] at short
      obtain ⟨⟨patternsShort, bodyShort⟩, restShort⟩ := short
      have patternsDepth := Pattern.callDepthOfList_le enough patterns patternsShort
      have bodyDepth := callDepth_le_allowance body bodyShort
      have bodyLevel := Nat.le_trans bodyDepth (allowance_le_nesting enough bodyShort)
      have restDepth := callDepthOfClauses_le rest restShort
      rw [callDepthOfClauses, deepestOfClauses, ← Nat.mul_max_mul_left, ← Nat.mul_max_mul_left]
      exact max_le_max (max_le_max patternsDepth bodyLevel) restDepth

end

theorem callDepth_le_nesting {term : Term} (short : term.longestChain ≤ longest) :
    term.callDepth tailCost ≤ perLevel * term.nesting :=
  Nat.le_trans (callDepth_le_allowance enough term short) (allowance_le_nesting enough short)

end Term

def Definition.longestChain (definition : Definition) : Nat :=
  max (Pattern.longestChainOfList definition.patterns) definition.body.longestChain

def Item.longestChain : Item → Nat
  | .define definition => definition.longestChain
  | .lone term => term.longestChain

def Program.longestChain (items : Program) : Nat :=
  (items.map Item.longestChain).foldr max 0

section Items

variable {tailCost longest perLevel : Nat} (enough : longest * tailCost + 2 ≤ perLevel)

include enough

theorem Definition.callDepth_le {definition : Definition}
    (short : definition.longestChain ≤ longest) :
    definition.callDepth tailCost ≤ perLevel * definition.nesting := by
  rw [longestChain, Nat.max_le] at short
  have patternsDepth := Pattern.callDepthOfList_le enough definition.patterns short.1
  have bodyDepth := Term.callDepth_le_nesting enough short.2
  rw [callDepth, nesting, ← Nat.mul_max_mul_left]
  exact max_le_max patternsDepth bodyDepth

theorem Item.callDepth_le {item : Item} (short : item.longestChain ≤ longest) :
    item.callDepth tailCost ≤ perLevel * item.nesting := by
  cases item with
  | define definition => exact Definition.callDepth_le enough short
  | lone term => exact Term.callDepth_le_nesting enough short

theorem Program.callDepth_le {items : Program} (short : longestChain items ≤ longest) :
    callDepth tailCost items ≤ perLevel * nesting items := by
  induction items with
  | nil => exact Nat.zero_le _
  | cons item others induction =>
      have levels : nesting (item :: others) = max item.nesting (nesting others) := rfl
      have parts : max item.longestChain (longestChain others) ≤ longest := short
      have itemDepth := Item.callDepth_le enough (Nat.le_trans (Nat.le_max_left _ _) parts)
      have othersDepth := induction (Nat.le_trans (Nat.le_max_right _ _) parts)
      rw [callDepth_cons, levels, ← Nat.mul_max_mul_left]
      exact max_le_max itemDepth othersDepth

end Items

namespace Source

/-- What has been read is printed with so many calls for every level that the limit allows: two, and
what the tails of the longest chain cost. If tails cost nothing, the limit alone is a bound. -/
theorem callDepth_le_of_program {limit : Nat} {source : String} {items : Program}
    (found : program limit source = .ok items) (tailCost : Nat) :
    Program.callDepth tailCost items ≤ (Program.longestChain items * tailCost + 2) * limit ∧
      Program.renderWithin tailCost ((Program.longestChain items * tailCost + 2) * limit) items =
        some (Program.render items) := by
  obtain ⟨-, atMost⟩ := writable_of_program found
  have enough := Nat.le_refl (Program.longestChain items * tailCost + 2)
  have depth := Program.callDepth_le enough (Nat.le_refl _)
  have bounded := Nat.le_trans depth (Nat.mul_le_mul_left _ atMost)
  refine ⟨bounded, ?_⟩
  rw [Program.renderWithin_eq, if_pos bounded]

/-- Chains as the head of a chain, in a list, after a name and in a match. -/
def chained : String :=
  "let f(x@(y : z : _)) = [(A : B) : C : [D : E], match x \x7b _ : w => w \x7d];"

def chainedItems : Program :=
  [.define
    ⟨"f", [.named "x" (.cons (.var "y") (.cons (.var "z") .wildcard))],
      .list
        [.cons (.cons (.tree "A" []) (.tree "B" []))
            (.cons (.tree "C" []) (.list [.cons (.tree "D" []) (.tree "E" [])])),
          .matching [.var "x"] [.mk [.cons .wildcard (.var "w")] (.var "w")]]⟩]

theorem callDepth_le_of_program_chained :
    program 3 chained = .ok chainedItems ∧ Program.callDepth 1 chainedItems = 6 ∧
      Program.callDepth 1 chainedItems ≤ (2 * 1 + 2) * 3 ∧
        Program.renderWithin 1 ((2 * 1 + 2) * 3) chainedItems =
          some (Program.render chainedItems) := by
  have found : program 3 chained = .ok chainedItems := by decide +kernel
  have depth : Program.callDepth 1 chainedItems = 6 := by decide +kernel
  have chain : Program.longestChain chainedItems = 2 := by decide +kernel
  have bounded := callDepth_le_of_program found 1
  rw [chain] at bounded
  exact ⟨found, depth, bounded⟩

end Source

namespace Term

private def chainOf : Nat → Term
  | 0 => .var "x"
  | count + 1 => .cons (.var "x") (chainOf count)

private theorem isWritable_chainOf (count : Nat) : (chainOf count).isWritable = true := by
  induction count with
  | zero => decide
  | succ count induction =>
      rw [chainOf, isWritable, induction]
      decide

private theorem load_chainOf (count : Nat) : (chainOf count).load = 0 := by
  induction count with
  | zero => rfl
  | succ count induction =>
      rw [chainOf, load_cons, induction]
      rfl

private theorem callDepth_chainOf (count : Nat) : (chainOf count).callDepth 1 = count + 1 := by
  induction count with
  | zero => rfl
  | succ count induction =>
      rw [chainOf, callDepth, induction, callDepth]
      omega

end Term

namespace Source

/-- Where going on in a tail is a call, no number of calls is enough for all that a limit lets
through: one level is as many as a chain needs. -/
theorem exists_program_renderWithin_eq_none {limit : Nat} (positive : 0 < limit) (frames : Nat) :
    ∃ source items, program limit source = .ok items ∧
      frames < Program.callDepth 1 items ∧ Program.renderWithin 1 frames items = none := by
  let items : Program := [.lone (Term.chainOf frames)]
  have writable : Program.isWritable items = true := by
    rw [Program.isWritable, List.all_cons, Item.isWritable, Term.isWritable_chainOf]
    rfl
  have atMost : Program.nesting items ≤ limit := by
    apply Program.nesting_le_iff.mpr
    intro item member
    rw [List.mem_singleton.mp member, Item.nesting, Term.nesting, Term.load_chainOf]
    exact positive
  have deep : frames < Program.callDepth 1 items := by
    rw [Program.callDepth_cons, Item.callDepth, Term.callDepth_chainOf]
    omega
  refine ⟨Program.render items, items, program_render_of_writable writable atMost, deep, ?_⟩
  rw [Program.renderWithin_eq, if_neg (Nat.not_le.mpr deep)]

theorem not_forall_exists_callDepth_le :
    ¬ ∀ limit, ∃ bound, ∀ source items, program limit source = .ok items →
      Program.callDepth 1 items ≤ bound := by
  intro claimed
  obtain ⟨bound, atMost⟩ := claimed 1
  obtain ⟨source, items, found, deep, -⟩ := exists_program_renderWithin_eq_none Nat.one_pos bound
  exact Nat.not_le.mpr deep (atMost source items found)

end Source

end TermScript

import TermScript.Proofs.Grammar.Derivation
import TermScript.Proofs.Layout.Writable

namespace TermScript

open TermScript.Language

namespace Token

def AllSpelled (tokens : List Token) : Prop :=
  ∀ token ∈ tokens, token.Spelled

namespace AllSpelled

variable {first : Token} {tokens others : List Token}

theorem part (spelled : AllSpelled tokens) (within : others ⊆ tokens) : AllSpelled others :=
  fun token member => spelled token (within member)

theorem head (spelled : AllSpelled (first :: tokens)) : first.Spelled :=
  spelled first List.mem_cons_self

theorem tail (spelled : AllSpelled (first :: tokens)) : AllSpelled tokens :=
  spelled.part (List.subset_cons_self first tokens)

theorem left (spelled : AllSpelled (tokens ++ others)) : AllSpelled tokens :=
  spelled.part (List.subset_append_left tokens others)

theorem right (spelled : AllSpelled (tokens ++ others)) : AllSpelled others :=
  spelled.part (List.subset_append_right tokens others)

end AllSpelled

end Token

namespace Pattern

/-- The spelled rows of a language stand for patterns that can be written. -/
def Legible (language : Language Pattern) : Prop :=
  ∀ ⦃tokens pattern⦄, Token.AllSpelled tokens → language tokens pattern →
    pattern.isWritable = true

variable {inner : Language Pattern}

private theorem Legible.areWritable {close : Kind} {tokens : List Token} {patterns : List Pattern}
    (legible : Legible inner) (spelled : Token.AllSpelled tokens)
    (closed : Closed close (Listed inner) tokens patterns) : areWritable patterns = true := by
  apply (areWritable_eq_true_iff patterns).mpr
  exact closed.forall_mem fun part pattern within derives => legible (spelled.part within) derives

private theorem legible_element (legible : Legible inner) : Legible (Element inner) := by
  intro tokens pattern spelled element
  cases element with
  | wildcard => rfl
  | var isName => exact spelled.head.isName isName
  | atom isAtom =>
      have quotable := spelled.head.quotable_name isAtom
      simp [isWritable, Pattern.areWritable, quotable]
  | tree isAtom _ children =>
      have quotable := spelled.head.quotable_name isAtom
      have childrenWritable := legible.areWritable spelled.tail.tail children
      simp [isWritable, quotable, childrenWritable]
  | string isString =>
      have quotable := spelled.head.quotable_unquoted isString
      simp [isWritable, quotable]
  | list _ elements =>
      exact legible.areWritable spelled.tail elements
  | group _ closed =>
      obtain ⟨part, within, derives⟩ := closed.inner
      exact legible (spelled.tail.part within) derives

private theorem legible_final (legible : Legible inner) : Legible (Final inner) := by
  intro tokens pattern spelled final
  cases final with
  | element element => exact legible_element legible spelled element
  | named isName _ derives =>
      have nameWritable := spelled.head.isName isName
      have innerWritable := legible spelled.tail.tail derives
      simp [isWritable, nameWritable, innerWritable]

theorem legible_derives (height : Nat) : Legible (Derives height) := by
  induction height with
  | zero => exact fun _ _ _ impossible => impossible.elim
  | succ height induction =>
      intro tokens pattern spelled chain
      induction chain with
      | last final => exact legible_final induction spelled final
      | link element _ _ restWritable =>
          have headWritable := legible_element induction spelled.left element
          have tailWritable := restWritable spelled.right.tail
          simp [isWritable, headWritable, tailWritable]

end Pattern

namespace Term

def Legible (language : Language Term) : Prop :=
  ∀ ⦃tokens term⦄, Token.AllSpelled tokens → language tokens term → term.isWritable = true

variable {pattern : Language Pattern} {inner : Language Term}

private theorem Legible.areWritable {close : Kind} {tokens : List Token} {terms : List Term}
    (legible : Legible inner) (spelled : Token.AllSpelled tokens)
    (closed : Closed close (Listed inner) tokens terms) : areWritable terms = true := by
  apply (areWritable_eq_true_iff terms).mpr
  exact closed.forall_mem fun part term within derives => legible (spelled.part within) derives

private theorem clausesAreWritable_of_derives (patterns : Pattern.Legible pattern)
    (legible : Legible inner) {close : Kind} {tokens : List Token} {clauses : List Clause}
    (spelled : Token.AllSpelled tokens)
    (closed : Closed close (Listed (Clause.Derives pattern inner)) tokens clauses) :
    clausesAreWritable clauses = true := by
  apply (clausesAreWritable_eq_true_iff clauses).mpr
  refine closed.forall_mem fun part clause within derives => ?_
  have spelled := spelled.part within
  cases derives with
  | intro patternsDerive bodyDerives =>
      constructor
      · exact patterns.areWritable spelled.left patternsDerive
      · exact legible spelled.right bodyDerives

private theorem legible_element (patterns : Pattern.Legible pattern) (legible : Legible inner) :
    Legible (Element pattern inner) := by
  intro tokens term spelled element
  cases element with
  | var isName => exact spelled.head.isName isName
  | app isName _ operands =>
      have nameWritable := spelled.head.isName isName
      have operandsWritable := legible.areWritable spelled.tail.tail operands
      simp [isWritable, nameWritable, operandsWritable]
  | atom isAtom =>
      have quotable := spelled.head.quotable_name isAtom
      simp [isWritable, Term.areWritable, quotable]
  | tree isAtom _ children =>
      have quotable := spelled.head.quotable_name isAtom
      have childrenWritable := legible.areWritable spelled.tail.tail children
      simp [isWritable, quotable, childrenWritable]
  | string isString =>
      have quotable := spelled.head.quotable_unquoted isString
      simp [isWritable, quotable]
  | list _ elements =>
      exact legible.areWritable spelled.tail elements
  | group _ closed =>
      obtain ⟨part, within, derives⟩ := closed.inner
      exact legible (spelled.tail.part within) derives
  | matching _ subjects clauses =>
      have spelled := spelled.tail
      have subjectsWritable :=
        legible.areWritable spelled.left subjects
      have clausesWritable := clausesAreWritable_of_derives patterns legible
        spelled.right clauses
      simp [isWritable, subjectsWritable, clausesWritable]

theorem legible_derives (height : Nat) : Legible (Derives height) := by
  induction height with
  | zero => exact fun _ _ _ impossible => impossible.elim
  | succ height induction =>
      have elements := legible_element (Pattern.legible_derives height) induction
      intro tokens term spelled chain
      induction chain with
      | last element => exact elements spelled element
      | link element _ _ restWritable =>
          have headWritable := elements spelled.left element
          have tailWritable := restWritable spelled.right.tail
          simp [isWritable, headWritable, tailWritable]

end Term

variable {height : Nat} {tokens : List Token}

theorem Definition.Derives.isWritable {definition : Definition}
    (derives : Derives height tokens definition) (spelled : Token.AllSpelled tokens) :
    definition.isWritable = true := by
  cases derives with
  | plain _ isName _ bodyDerives =>
      have nameWritable := spelled.tail.head.isName isName
      have bodyWritable := Term.legible_derives height spelled.tail.tail.tail bodyDerives
      simp [Definition.isWritable, Pattern.areWritable, nameWritable, bodyWritable]
  | parameters _ isName _ patternsDerive _ bodyDerives =>
      have nameWritable := spelled.tail.head.isName isName
      have spelled := spelled.tail.tail.tail
      have patternsWritable := (Pattern.legible_derives height).areWritable spelled.left
        patternsDerive
      have bodyWritable := Term.legible_derives height spelled.right.tail bodyDerives
      simp [Definition.isWritable, nameWritable, patternsWritable, bodyWritable]

theorem Item.Derives.isWritable {item : Item} (derives : Derives height tokens item)
    (spelled : Token.AllSpelled tokens) : item.isWritable = true := by
  cases derives with
  | define derives => exact derives.isWritable spelled
  | lone derives => exact Term.legible_derives height spelled derives

theorem Program.Derives.isWritable {items : Program} (derives : Derives height tokens items)
    (spelled : Token.AllSpelled tokens) : isWritable items = true := by
  induction derives with
  | nil => rfl
  | cons item _ _ induction =>
      have itemWritable := item.isWritable spelled.left
      have othersWritable := induction spelled.right.tail
      rw [Program.isWritable, List.all_cons, itemWritable]
      exact othersWritable

end TermScript

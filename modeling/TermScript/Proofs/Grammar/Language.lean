import Mathlib.Order.Basic
import TermScript.Token.Basic

/-! Languages say which rows of tokens stand for which values. They know nothing of reading: a row
may stand for any number of values, and no row is tried before another. -/

namespace TermScript

abbrev Language (α : Type) : Type :=
  List Token → α → Prop

namespace Language

variable {α : Type} {narrow wide : Language α}

/-- `e ("," e)*` -/
inductive Separated (element : Language α) : Language (List α)
  | one {tokens : List Token} {value : α} :
      element tokens value → Separated element tokens [value]
  | more {tokens others : List Token} {comma : Token} {value : α} {values : List α} :
      element tokens value → comma.kind = .comma → Separated element others values →
      Separated element (tokens ++ comma :: others) (value :: values)

/-- `(e ("," e)* ","?)?` -/
inductive Listed (element : Language α) : Language (List α)
  | empty : Listed element [] []
  | plain {tokens : List Token} {values : List α} :
      Separated element tokens values → Listed element tokens values
  | trailing {tokens : List Token} {comma : Token} {values : List α} :
      Separated element tokens values → comma.kind = .comma →
      Listed element (tokens ++ [comma]) values

/-- What stands in front of a closing token, with it. -/
inductive Closed (close : Kind) (inner : Language α) : Language α
  | intro {tokens : List Token} {closer : Token} {value : α} :
      inner tokens value → closer.kind = close → Closed close inner (tokens ++ [closer]) value

/-- `(link ":")* last`, joined from the right. -/
inductive Chain (join : α → α → α) (link last : Language α) : Language α
  | last {tokens : List Token} {value : α} :
      last tokens value → Chain join link last tokens value
  | link {tokens others : List Token} {colon : Token} {value rest : α} :
      link tokens value → colon.kind = .colon → Chain join link last others rest →
      Chain join link last (tokens ++ colon :: others) (join value rest)

theorem Separated.mono (within : narrow ≤ wide) : Separated narrow ≤ Separated wide := by
  intro tokens values separated
  induction separated with
  | one first => exact .one (within _ _ first)
  | more first comma _ induction => exact .more (within _ _ first) comma induction

theorem Listed.mono (within : narrow ≤ wide) : Listed narrow ≤ Listed wide := by
  intro tokens values listed
  cases listed with
  | empty => exact .empty
  | plain separated => exact .plain (Separated.mono within _ _ separated)
  | trailing separated comma => exact .trailing (Separated.mono within _ _ separated) comma

theorem Closed.mono {close : Kind} (within : narrow ≤ wide) :
    Closed close narrow ≤ Closed close wide := by
  intro tokens value closed
  obtain ⟨inner, closer⟩ := closed
  exact ⟨within _ _ inner, closer⟩

theorem Chain.mono {join : α → α → α} {narrowLast wideLast : Language α}
    (within : narrow ≤ wide) (lastWithin : narrowLast ≤ wideLast) :
    Chain join narrow narrowLast ≤ Chain join wide wideLast := by
  intro tokens value chain
  induction chain with
  | last final => exact .last (lastWithin _ _ final)
  | link first colon _ induction => exact .link (within _ _ first) colon induction

/-- Every row of the language has a first token, of one of these kinds. -/
def Starts (language : Language α) (kinds : List Kind) : Prop :=
  ∀ ⦃tokens value⦄, language tokens value →
    ∃ first others, tokens = first :: others ∧ first.kind ∈ kinds

theorem Starts.weaken {language : Language α} {kinds more : List Kind}
    (starts : Starts language kinds) (subset : kinds ⊆ more) : Starts language more := by
  intro tokens value derives
  obtain ⟨first, others, rfl, member⟩ := starts derives
  exact ⟨first, others, rfl, subset member⟩

theorem Starts.separated {element : Language α} {kinds : List Kind}
    (starts : Starts element kinds) : Starts (Separated element) kinds := by
  intro tokens values separated
  cases separated with
  | one first => exact starts first
  | more first _ _ =>
      obtain ⟨token, others, rfl, member⟩ := starts first
      exact ⟨token, _, List.cons_append, member⟩

theorem Starts.closedList {element : Language α} {kinds : List Kind} {close : Kind}
    (starts : Starts element kinds) : Starts (Closed close (Listed element)) (close :: kinds) := by
  intro tokens values closed
  obtain ⟨listed, closer⟩ := closed
  cases listed with
  | empty => exact ⟨_, [], rfl, closer ▸ List.mem_cons_self⟩
  | plain separated =>
      obtain ⟨token, others, rfl, member⟩ := starts.separated separated
      exact ⟨token, _, List.cons_append, List.mem_cons_of_mem _ member⟩
  | trailing separated _ =>
      obtain ⟨token, others, rfl, member⟩ := starts.separated separated
      exact ⟨token, _, rfl, List.mem_cons_of_mem _ member⟩

theorem Starts.chain {join : α → α → α} {link last : Language α} {kinds : List Kind}
    (linkStarts : Starts link kinds) (lastStarts : Starts last kinds) :
    Starts (Chain join link last) kinds := by
  intro tokens value chain
  cases chain with
  | last final => exact lastStarts final
  | link first _ _ =>
      obtain ⟨token, others, rfl, member⟩ := linkStarts first
      exact ⟨token, _, List.cons_append, member⟩

section Values

variable {element : Language α} {holds : α → Prop} {tokens : List Token} {values : List α}

theorem Separated.forall_mem (separated : Separated element tokens values)
    (each : ∀ part value, part ⊆ tokens → element part value → holds value) :
    ∀ value ∈ values, holds value := by
  induction separated with
  | one first => exact List.forall_mem_singleton.mpr (each _ _ (List.Subset.refl _) first)
  | more first _ _ induction =>
      refine List.forall_mem_cons.mpr ⟨?_, induction ?_⟩
      · exact each _ _ (List.subset_append_left _ _) first
      · intro part value within
        apply each
        exact List.Subset.trans (List.subset_cons_of_subset _ within) (List.subset_append_right _ _)

theorem Listed.forall_mem (listed : Listed element tokens values)
    (each : ∀ part value, part ⊆ tokens → element part value → holds value) :
    ∀ value ∈ values, holds value := by
  cases listed with
  | empty => exact nofun
  | plain separated => exact separated.forall_mem each
  | trailing separated _ =>
      refine separated.forall_mem fun part value within => ?_
      exact each part value (List.subset_append_of_subset_left _ within)

theorem Closed.inner {close : Kind} {value : α} (closed : Closed close element tokens value) :
    ∃ part, part ⊆ tokens ∧ element part value := by
  cases closed with
  | intro derives _ => exact ⟨_, List.subset_append_left _ _, derives⟩

theorem Closed.forall_mem {close : Kind} (closed : Closed close (Listed element) tokens values)
    (each : ∀ part value, part ⊆ tokens → element part value → holds value) :
    ∀ value ∈ values, holds value := by
  obtain ⟨whole, within, listed⟩ := closed.inner
  refine listed.forall_mem fun part value partWithin => ?_
  exact each part value (List.Subset.trans partWithin within)

end Values

theorem Separated.concat {element : Language α} {tokens others : List Token} {comma : Token}
    {value : α} {values : List α} (separated : Separated element tokens values)
    (isComma : comma.kind = .comma) (final : element others value) :
    Separated element (tokens ++ comma :: others) (values ++ [value]) := by
  induction separated with
  | one first => exact .more first isComma (.one final)
  | more first comma' _ induction =>
      rw [List.append_assoc, List.cons_append]
      exact .more first comma' induction

end Language

end TermScript

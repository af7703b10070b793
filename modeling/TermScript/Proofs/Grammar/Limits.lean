import Mathlib.Data.Nat.Find
import TermScript.Proofs.Grammar.Completeness
import TermScript.Proofs.Grammar.Nesting
import TermScript.Proofs.Rule.Locality
import TermScript.Proofs.Rule.Reach

/-! A limit on the nesting decides whether a program is read, not what is read. Every row of tokens
has one threshold: limits below it are spent, each at a later token than the ones before, and all
limits from it on give the same result. -/

namespace TermScript.Program

open Rule

variable {limit low high : Nat} {tokens : List Token}

theorem parse_error_of_shallow {larger : Nat} (atMost : limit ≤ larger) {fault : Fault}
    (failed : parse limit tokens = .error fault) (shallow : fault.Shallow) :
    parse larger tokens = .error fault := by
  obtain ⟨rest, run⟩ := result_eq_error_iff.mp failed
  exact ((follows_rule atMost).faults_alike run shallow).result

theorem limit_of_overNested {place : Span}
    (failed : parse limit tokens = .error (.overNested high place)) : high = limit := by
  obtain ⟨rest, run⟩ := result_eq_error_iff.mp failed
  exact (follows_rule (Nat.le_refl limit)).limit_eq run

/-- A program that nests deeper than the limit is refused for that reason. -/
theorem parse_overNested {height : Nat} {items : Program}
    (derives : Derives height tokens items) (tooDeep : limit < nesting items) :
    ∃ place, parse limit tokens = .error (.overNested limit place) := by
  have parsed := (Derives.mono (Nat.le_max_right limit height) _ _ derives).parse
  rcases outcome : parse limit tokens with fault | others
  · cases fault with
    | overNested high place =>
        obtain rfl := limit_of_overNested outcome
        exact ⟨place, rfl⟩
    | unexpected | exhausted =>
        rw [parse_error_of_shallow (Nat.le_max_left limit height) outcome nofun] at parsed
        cases parsed
  · have shallow := derives_of_parse outcome
    have atMost := shallow.nesting_le
    rw [← derives.unique shallow] at atMost
    exact absurd tooDeep (Nat.not_lt.mpr atMost)

/-- How many tokens have been read when reading ends, be it with a fault. -/
def stop (limit : Nat) (tokens : List Token) : Nat :=
  tokens.length - (rule limit (Input.ofTokens tokens)).rest.ahead.length

/-- The place of the token with this index, or the end of the row. -/
def placeAt (tokens : List Token) (index : Nat) : Span :=
  (⟨tokens.drop index, Input.finishOf tokens⟩ : Input).here

theorem rest_eq_drop (limit : Nat) (tokens : List Token) :
    (rule limit (Input.ofTokens tokens)).rest =
      ⟨tokens.drop (stop limit tokens), Input.finishOf tokens⟩ := by
  obtain ⟨read, whole⟩ := (follows_rule (Nat.le_refl limit)).advances (Input.ofTokens tokens)
  unfold stop
  generalize (rule limit (Input.ofTokens tokens)).rest = rest at whole
  have split : tokens = read ++ rest.ahead := congrArg Input.ahead whole
  have finish : Input.finishOf tokens = rest.finish := congrArg Input.finish whole
  rw [finish]
  rw [split, List.length_append, Nat.add_sub_cancel, List.drop_left]

private def Spends (limit : Nat) (tokens : List Token) : Prop :=
  ∃ reported place, parse limit tokens = .error (.overNested reported place)

private theorem Spends.parse_eq (spends : Spends limit tokens) :
    parse limit tokens = .error (.overNested limit (placeAt tokens (stop limit tokens))) := by
  obtain ⟨reported, place, failed⟩ := spends
  obtain rfl := limit_of_overNested failed
  have located := located_program reported (Input.ofTokens tokens) _ failed
  rw [rest_eq_drop] at located
  rcases located with ⟨expected, same⟩ | ⟨_, same⟩
  · exact absurd same.symm (Input.shallow_fault _ expected reported place)
  · cases same
    exact failed

private theorem stop_lt_stop (lower : low < high) (spends : Spends low tokens)
    (spends' : Spends high tokens) : stop low tokens < stop high tokens := by
  have first := spends.parse_eq
  have second := spends'.parse_eq
  cases (surpasses_rule lower).outruns (Input.ofTokens tokens) with
  | alike result _ =>
      rw [parse, result, ← parse, second] at first
      cases first
      exact absurd lower (Nat.lt_irrefl _)
  | past _ _ further =>
      rw [rest_eq_drop, rest_eq_drop, List.length_drop, List.length_drop] at further
      omega
  | misfit _ _ failed shallow =>
      rw [parse, failed] at second
      cases second
      exact absurd rfl (shallow _ _)

private theorem le_stop (spends : ∀ lower ≤ limit, Spends lower tokens) :
    limit ≤ stop limit tokens := by
  induction limit with
  | zero => exact Nat.zero_le _
  | succ limit induction =>
      have reached := induction fun lower atMost => spends lower (Nat.le_succ_of_le atMost)
      have further := stop_lt_stop (Nat.lt_succ_self limit)
        (spends limit (Nat.le_succ limit)) (spends (limit + 1) (Nat.le_refl _))
      exact Nat.lt_of_le_of_lt reached further

private theorem exists_not_spends (tokens : List Token) :
    ∃ limit ≤ tokens.length + 1, ¬Spends limit tokens := by
  by_contra unsettled
  simp only [not_exists, not_and, not_not] at unsettled
  have reached := le_stop unsettled
  have inside : stop (tokens.length + 1) tokens ≤ tokens.length := Nat.sub_le _ _
  omega

private theorem parse_eq_of_not_spends (atMost : low ≤ high) (settled : ¬Spends low tokens) :
    parse high tokens = parse low tokens := by
  rcases outcome : parse low tokens with fault | items
  · refine parse_error_of_shallow atMost outcome fun reported place same => settled ?_
    exact ⟨reported, place, same ▸ outcome⟩
  · exact (Derives.mono atMost _ _ (derives_of_parse outcome)).parse

/-- What limits do to a row of tokens, below and above one of them. -/
structure Threshold (tokens : List Token) (bound : Nat) : Prop where
  spent : ∀ limit < bound,
    parse limit tokens = .error (.overNested limit (placeAt tokens (stop limit tokens)))
  further : ∀ low high, low < high → high < bound → stop low tokens < stop high tokens
  settled : ∀ reported place, parse bound tokens ≠ .error (.overNested reported place)
  constant : ∀ limit, bound ≤ limit → parse limit tokens = parse bound tokens

/-- A limit decides only whether there is a result. -/
theorem exists_threshold (tokens : List Token) :
    ∃ bound ≤ tokens.length + 1, Threshold tokens bound := by
  classical
  have settles : ∃ limit, ¬Spends limit tokens := by
    obtain ⟨limit, -, settled⟩ := exists_not_spends tokens
    exact ⟨limit, settled⟩
  have settled := Nat.find_spec settles
  have spends (lower : Nat) (below : lower < Nat.find settles) : Spends lower tokens :=
    not_not.mp (Nat.find_min settles below)
  refine ⟨Nat.find settles, ?_, ?_⟩
  · obtain ⟨limit, atMost, settled⟩ := exists_not_spends tokens
    exact Nat.le_trans (Nat.find_min' settles settled) atMost
  · constructor
    · exact fun limit below => (spends limit below).parse_eq
    · intro low high lower below
      exact stop_lt_stop lower (spends low (Nat.lt_trans lower below)) (spends high below)
    · exact fun reported place failed => settled ⟨reported, place, failed⟩
    · exact fun limit atMost => parse_eq_of_not_spends atMost settled

end TermScript.Program

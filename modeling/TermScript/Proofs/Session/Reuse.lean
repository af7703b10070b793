import Mathlib.Control.Monad.Basic
import TermScript.Proofs.Rule.Reach
import TermScript.Proofs.Session.Counter

/-! Calls made in turn, each on what the one before it left, whether that one failed or not. Every
call begins with no level open, and ends as it would if the tokens that are left were all there ever
were. -/

namespace TermScript

open Rule

namespace Input

private theorem finishOf_drop {tokens : List Token} {start : Nat} (more : tokens.drop start ≠ []) :
    finishOf (tokens.drop start) = finishOf tokens := by
  have inside : ¬ tokens.length ≤ start := fun atEnd => more (List.drop_eq_nil_of_le atEnd)
  rw [finishOf, finishOf, List.getLast?_drop, if_neg inside]

/-- The tokens behind the first few of a row. -/
def behind (tokens : List Token) (start : Nat) : Input :=
  ⟨tokens.drop start, finishOf tokens⟩

end Input

/-- What a fault says of the place where it left the input. -/
def Fault.StandsAt (limit : Nat) (input : Input) : Fault → Prop
  | .unexpected _ found => input.peek? = some found
  | .exhausted _ => input.ahead = []
  | .overNested high place => high = limit ∧ place = input.here

private theorem Input.fault_standsAt (limit : Nat) (input : Input) (expected : Expectation) :
    (input.fault expected).StandsAt limit input := by
  unfold fault
  cases next : input.peek? with
  | none => exact List.head?_eq_none_iff.mp next
  | some first => exact next

namespace Session

variable {limit : Nat}

theorem Call.congruence {related : ∀ ⦃α : Type⦄, Rule α → Rule α → Prop}
    (congruence : Congruence related) (extra : Nat)
    (patternsSpent : related (Pattern.within limit 0) (Pattern.within (extra + limit) extra))
    (termsSpent : related (Term.within limit 0) (Term.within (extra + limit) extra)) (call : Call) :
    related (call.rule limit) (call.rule (extra + limit)) := by
  cases call with
  | term =>
      exact congruence.map _ (congruence.term_within extra patternsSpent termsSpent limit)
  | pattern => exact congruence.map _ (congruence.pattern_within extra patternsSpent limit)
  | item => exact congruence.map _ (congruence.item_rule extra patternsSpent termsSpent)
  | definition => exact congruence.map _ (congruence.definition_rule extra patternsSpent termsSpent)
  | program => exact congruence.map _ (congruence.program_rule extra patternsSpent termsSpent)

theorem Call.advances (limit : Nat) (call : Call) : (call.rule limit).Advances :=
  call.congruence advances_congruence 0 (advances_overNested limit) (advances_overNested limit)

theorem Call.standsAt {call : Call} {input : Input} {fault : Fault}
    (failed : (call.rule limit input).result = .error fault) :
    fault.StandsAt limit (call.rule limit input).rest := by
  have located : (call.rule limit).Located :=
    call.congruence located_congruence 0 (located_overNested limit) (located_overNested limit)
  rcases located input fault failed with ⟨expected, rfl⟩ | ⟨high, rfl⟩
  · exact Input.fault_standsAt limit _ expected
  · have follows := call.congruence (follows_congruence limit) 0
      (follows_overNested limit _) (follows_overNested limit _)
    have run : (call.rule limit).Faults input (.overNested high (call.rule limit input).rest.here)
        (call.rule limit input).rest := ⟨_, by rw [← failed]⟩
    exact ⟨follows.limit_eq run, rfl⟩

theorem Call.moves {call : Call} (positive : 0 < limit) (single : call ≠ .program) :
    (call.rule limit).Moves := by
  obtain ⟨levels, rfl⟩ := Nat.exists_eq_add_one_of_ne_zero (Nat.ne_of_gt positive)
  cases call with
  | term => exact (Term.moves_within (levels + 1) levels).map _
  | pattern => exact (Pattern.moves_within (levels + 1) levels).map _
  | item => exact (Item.moves_rule positive).map _
  | definition => exact (Definition.moves_rule (levels + 1)).map _
  | program => exact absurd rfl single

private theorem Call.result_at_end (positive : 0 < limit) (call : Call) (finish finish' : Span) :
    (call.rule limit ⟨[], finish⟩).result = (call.rule limit ⟨[], finish'⟩).result := by
  obtain ⟨levels, rfl⟩ := Nat.exists_eq_add_one_of_ne_zero (Nat.ne_of_gt positive)
  have atEnd (finish : Span) :
      Program.rule (levels + 1) ⟨[], finish⟩ = ⟨.ok [], ⟨[], finish⟩, []⟩ := by
    rw [Program.rule, Rule.many, Rule.manyFrom]
    rfl
  cases call with
  | program =>
      rw [Call.rule, map_eq_pure_bind, bind_of_ok (atEnd finish), bind_of_ok (atEnd finish')]
      rfl
  | _ => rfl

/-- A call ends as it does on an input that holds nothing but the tokens still ahead. -/
theorem Call.ends_as_fresh (positive : 0 < limit) (call : Call) (tokens : List Token)
    (start : Nat) :
    (call.rule limit (.ofTokens (tokens.drop start))).result =
        (call.rule limit (.behind tokens start)).result ∧
      (call.rule limit (.ofTokens (tokens.drop start))).rest.ahead =
        (call.rule limit (.behind tokens start)).rest.ahead := by
  by_cases more : tokens.drop start = []
  · have leavesNothing (finish : Span) : (call.rule limit ⟨[], finish⟩).rest.ahead = [] :=
      List.eq_nil_of_length_eq_zero (Nat.le_zero.mp ((call.advances limit).length_le _))
    rw [Input.ofTokens, Input.behind, more]
    exact ⟨call.result_at_end positive _ _, by rw [leavesNothing, leavesNothing]⟩
  · rw [Input.ofTokens, Input.behind, Input.finishOf_drop more]
    exact ⟨rfl, rfl⟩

private theorem Call.exists_rest (limit : Nat) (call : Call) {tokens : List Token} {start : Nat}
    (inside : start ≤ tokens.length) :
    ∃ stop, start ≤ stop ∧ stop ≤ tokens.length ∧
      (call.rule limit (.behind tokens start)).rest = .behind tokens stop := by
  obtain ⟨read, whole⟩ := call.advances limit (.behind tokens start)
  generalize (call.rule limit (.behind tokens start)).rest = rest at whole ⊢
  obtain ⟨ahead, finish⟩ := rest
  obtain ⟨split, rfl⟩ := Input.mk.inj whole
  have size := congrArg List.length split
  rw [List.length_drop, List.length_append] at size
  refine ⟨start + read.length, Nat.le_add_right _ _, by omega, ?_⟩
  rw [Input.behind, ← List.drop_drop, split, List.drop_left]

/-- A call, with its counters and the places where it starts and stops in a row of tokens. -/
structure Handles (limit : Nat) (tokens : List Token) (start stop : Nat) (before after : Counter)
    (call : Call) (step : Step) : Prop where
  counted : call.counted limit before = Counted.ending step.reply after
  settled : before.depth = 0
  restored : after.depth = 0
  bounded : after.peak ≤ limit
  starts : before.input = .behind tokens start
  stops : after.input = .behind tokens stop
  leaves : step.rest = after.input
  forward : start ≤ stop
  inside : stop ≤ tokens.length
  moves : call ≠ .program → ∀ reply, step.reply = .ok reply → start < stop
  standsAt : ∀ fault, step.reply = .error fault → fault.StandsAt limit step.rest
  fresh : (call.rule limit (.ofTokens (tokens.drop start))).result = step.reply
  alongside : (call.rule limit (.ofTokens (tokens.drop start))).rest.ahead = tokens.drop stop

/-- Calls made in turn, each with the counter and at the place that the one before it left. -/
inductive Conducts (limit : Nat) (tokens : List Token) :
    Nat → Counter → List Call → List Step → Prop
  | nil (start : Nat) (before : Counter) : Conducts limit tokens start before [] []
  | cons {start stop : Nat} {before after : Counter} {call : Call} {calls : List Call} {step : Step}
      {steps : List Step} : Handles limit tokens start stop before after call step →
      Conducts limit tokens stop after calls steps →
      Conducts limit tokens start before (call :: calls) (step :: steps)

private theorem exists_handles (positive : 0 < limit) {tokens : List Token} {start : Nat}
    (inside : start ≤ tokens.length) {peak : Nat} (atMost : peak ≤ limit) (call : Call) :
    ∃ stop peak', Handles limit tokens start stop ⟨.behind tokens start, 0, peak⟩
      ⟨.behind tokens stop, 0, peak'⟩ call
      ⟨(call.rule limit (.behind tokens start)).result,
        (call.rule limit (.behind tokens start)).rest⟩ := by
  obtain ⟨stop, forward, inside, left⟩ := call.exists_rest limit inside
  obtain ⟨peak', bounded, counted⟩ :=
    @Call.tracks_counted limit call ⟨.behind tokens start, 0, peak⟩ (Nat.zero_add limit) atMost
  obtain ⟨fresh, alongside⟩ := call.ends_as_fresh positive tokens start
  rw [left] at counted alongside
  refine ⟨stop, peak', {
    counted, bounded, forward, inside, fresh, alongside
    settled := rfl
    restored := rfl
    starts := rfl
    stops := rfl
    leaves := left
    moves := fun single reply read => ?_
    standsAt := fun _ => Call.standsAt }⟩
  rcases call.moves positive single (.behind tokens start) with shorter | ⟨fault, failed, -⟩
  · rw [left, Input.behind, Input.behind, List.length_drop, List.length_drop] at shorter
    omega
  · cases failed.symm.trans read

private theorem conducts_behind (positive : 0 < limit) {tokens : List Token} {start : Nat}
    (inside : start ≤ tokens.length) {peak : Nat} (atMost : peak ≤ limit) (calls : List Call) :
    Conducts limit tokens start ⟨.behind tokens start, 0, peak⟩ calls
      (run limit (.behind tokens start) calls) := by
  induction calls generalizing start peak with
  | nil => exact .nil _ _
  | cons call calls induction =>
      obtain ⟨stop, peak', handles⟩ := exists_handles positive inside atMost call
      have left : (call.rule limit (.behind tokens start)).rest = .behind tokens stop :=
        handles.leaves
      refine .cons handles ?_
      rw [left]
      exact induction handles.inside handles.bounded

/-- However many calls are made in turn, and whichever of them fail, each begins with no level open,
never opens more than the limit allows, goes forward, and ends as a first call would on the tokens
that are left to it. -/
theorem conducts_run (positive : 0 < limit) (tokens : List Token) (calls : List Call) :
    Conducts limit tokens 0 ⟨.ofTokens tokens, 0, 0⟩ calls
      (run limit (.ofTokens tokens) calls) :=
  conducts_behind positive (Nat.zero_le _) (Nat.zero_le _) calls

/-- The tokens of `f(((x let g = Y z`. -/
def brokenTokens : List Token :=
  [⟨.identifier, "f", ⟨0, 1⟩⟩, ⟨.openParen, "(", ⟨1, 1⟩⟩, ⟨.openParen, "(", ⟨2, 1⟩⟩,
    ⟨.openParen, "(", ⟨3, 1⟩⟩, ⟨.identifier, "x", ⟨4, 1⟩⟩, ⟨.letWord, "let", ⟨6, 3⟩⟩,
    ⟨.identifier, "g", ⟨10, 1⟩⟩, ⟨.equals, "=", ⟨12, 1⟩⟩, ⟨.atom, "Y", ⟨14, 1⟩⟩,
    ⟨.identifier, "z", ⟨16, 1⟩⟩]

def allCalls : List Call :=
  [.term, .pattern, .definition, .program, .item]

theorem conducts_run_broken :
    0 < 2 ∧ (run 2 (.ofTokens brokenTokens) allCalls).map Step.reply =
        [.error (.overNested 2 ⟨3, 1⟩),
          .error (.unexpected (.oneOf [.closeParen]) ⟨.letWord, "let", ⟨6, 3⟩⟩),
          .ok (.definition ⟨"g", [], .tree "Y" []⟩),
          .error (.exhausted (.oneOf [.semicolon])),
          .error (.exhausted .term)] ∧
      Conducts 2 brokenTokens 0 ⟨.ofTokens brokenTokens, 0, 0⟩ allCalls
        (run 2 (.ofTokens brokenTokens) allCalls) :=
  ⟨by decide, by decide +kernel, conducts_run (by decide) brokenTokens allCalls⟩

end Session

end TermScript

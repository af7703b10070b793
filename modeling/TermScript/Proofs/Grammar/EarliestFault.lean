import TermScript.Proofs.Grammar.Completeness
import TermScript.Proofs.Grammar.ViablePrefix
import TermScript.Proofs.Rule.Locality

namespace TermScript.Program

open Rule

def Viable (limit : Nat) (tokens : List Token) : Prop :=
  ∃ more items, parse limit (tokens ++ more) = .ok items

/-- Some token of the kind may come after these tokens, if the nesting allowed is large enough. -/
def Fits (limit : Nat) (tokens : List Token) (kind : Kind) : Prop :=
  ∃ larger, limit ≤ larger ∧ ∃ token more items,
    token.kind = kind ∧ parse larger (tokens ++ token :: more) = .ok items

/-- Reading fails in front of the token with this index. -/
def FailsAt (limit : Nat) (tokens : List Token) (index : Nat) (fault : Fault) : Prop :=
  parse limit tokens = .error fault ∧
    (rule limit (Input.ofTokens tokens)).rest.ahead = tokens.drop index

/-- What the faults of reading these tokens tell. -/
structure FailsEarly (limit : Nat) (tokens : List Token) : Prop where
  exhausted_iff :
    (∃ expected, parse limit tokens = .error (.exhausted expected)) ↔
      (∀ items, parse limit tokens ≠ .ok items) ∧ Viable limit tokens
  exhausted_fits : ∀ expected, parse limit tokens = .error (.exhausted expected) →
    ∀ kind ∈ expected.fitting, Fits limit tokens kind
  unexpected : ∀ expected found, parse limit tokens = .error (.unexpected expected found) →
    ∃ index, tokens[index]? = some found ∧
      FailsAt limit tokens index (.unexpected expected found) ∧
      Viable limit (tokens.take index) ∧
      (∀ larger, limit ≤ larger → ∀ others,
        FailsAt larger (tokens.take (index + 1) ++ others) index (.unexpected expected found)) ∧
      found.kind ∉ expected.fitting ∧
      ∀ kind ∈ expected.fitting, Fits limit (tokens.take index) kind

private structure Stuck (limit : Nat) (read : List Token) (expected : Expectation) : Prop where
  viable : Viable limit read
  fits : ∀ kind ∈ expected.fitting, Fits limit read kind

private theorem stuck_of_faults {limit : Nat} (positive : 1 ≤ limit) {input rest : Input}
    {fault : Fault} (run : (rule limit).Faults input fault rest) (shallow : fault.Shallow) :
    ∃ read expected, input = rest.prepend read ∧ fault = rest.fault expected ∧
      rest.startsWith expected.fitting = false ∧ Stuck limit read expected := by
  obtain ⟨budget, rfl⟩ := Nat.exists_eq_add_of_le' positive
  obtain ⟨read, rfl, blocked⟩ := blocks_rule budget input run
  cases blocked with
  | deep => exact absurd rfl (shallow _ _)
  | misfit missing viable fitting =>
      refine ⟨read, _, rfl, rfl, missing, ?_, ?_⟩
      · obtain ⟨more, items, derives⟩ := viable
        exact ⟨more, items, derives.parse⟩
      · intro kind member
        obtain ⟨token, more, items, same, derives⟩ := fitting kind member
        exact ⟨budget + 2, Nat.le_succ _, token, more, items, same, derives.parse⟩

private theorem exhausted_eq_fault {rest : Input} {expected expected' : Expectation}
    (same : .exhausted expected = rest.fault expected') :
    expected = expected' ∧ rest.ahead = [] := by
  obtain ⟨ahead, finish⟩ := rest
  cases ahead with
  | nil =>
      cases same
      exact ⟨rfl, rfl⟩
  | cons first others => cases same

private theorem unexpected_eq_fault {rest : Input} {expected expected' : Expectation}
    {found : Token} (same : .unexpected expected found = rest.fault expected') :
    expected = expected' ∧ ∃ others, rest.ahead = found :: others := by
  obtain ⟨ahead, finish⟩ := rest
  cases ahead with
  | nil => cases same
  | cons first others =>
      cases same
      exact ⟨rfl, others, rfl⟩

private theorem stuck_of_exhausted {limit : Nat} (positive : 1 ≤ limit) {tokens : List Token}
    {expected : Expectation} (failed : parse limit tokens = .error (.exhausted expected)) :
    Stuck limit tokens expected := by
  obtain ⟨rest, run⟩ := result_eq_error_iff.mp failed
  obtain ⟨read, expected', whole, same, -, stuck⟩ := stuck_of_faults positive run nofun
  obtain ⟨rfl, empty⟩ := exhausted_eq_fault same
  have ahead : tokens = read ++ rest.ahead := congrArg Input.ahead whole
  rw [empty, List.append_nil] at ahead
  exact ahead ▸ stuck

private theorem failsAt_of_faults {limit : Nat} {front : List Token} {rest : Input} {fault : Fault}
    (run : (rule limit).Faults (Input.ofTokens (front ++ rest.ahead)) fault rest) :
    FailsAt limit (front ++ rest.ahead) front.length fault :=
  ⟨run.result, by rw [run.rest_eq, List.drop_left]⟩

private theorem stuck_of_unexpected {limit : Nat} (positive : 1 ≤ limit) {tokens : List Token}
    {expected : Expectation} {found : Token}
    (failed : parse limit tokens = .error (.unexpected expected found)) :
    ∃ front after, tokens = front ++ found :: after ∧ found.kind ∉ expected.fitting ∧
      Stuck limit front expected ∧
      ∀ larger, limit ≤ larger → ∀ others,
        FailsAt larger (front ++ found :: others) front.length (.unexpected expected found) := by
  obtain ⟨rest, run⟩ := result_eq_error_iff.mp failed
  obtain ⟨front, expected', whole, same, missing, stuck⟩ := stuck_of_faults positive run nofun
  obtain ⟨rfl, after, ahead⟩ := unexpected_eq_fault same
  have next : rest.peek? = some found := congrArg List.head? ahead
  refine ⟨front, after, ahead ▸ congrArg Input.ahead whole, ?_, stuck, ?_⟩
  · exact (Input.startsWith_eq_false_iff _ _).mp missing found next
  · intro larger atMost others
    rw [whole] at run
    let other : Input := ⟨found :: others, Input.finishOf (front ++ found :: others)⟩
    have agree : rest.peek? = other.peek? := next
    exact failsAt_of_faults ((follows_rule atMost).faults agree run nofun)

/-- Faults come at the earliest token: before it all may still be well, from it on nothing can. -/
theorem failsEarly_of_shallow {limit : Nat} (positive : 1 ≤ limit) {tokens : List Token}
    (shallow : ∀ high place, parse limit tokens ≠ .error (.overNested high place)) :
    FailsEarly limit tokens where
  exhausted_iff := by
    constructor
    · intro failed
      obtain ⟨expected, failed⟩ := failed
      refine ⟨fun items parsed => ?_, (stuck_of_exhausted positive failed).viable⟩
      rw [failed] at parsed
      cases parsed
    · intro unfinished
      obtain ⟨rejected, more, items, parsed⟩ := unfinished
      rcases outcome : parse limit tokens with fault | others
      · cases fault with
        | exhausted expected => exact ⟨expected, rfl⟩
        | overNested high place => exact absurd outcome (shallow high place)
        | unexpected expected found =>
            obtain ⟨front, after, rfl, -, -, fails⟩ := stuck_of_unexpected positive outcome
            have failed := (fails limit (Nat.le_refl _) (after ++ more)).1
            rw [List.append_assoc, List.cons_append, failed] at parsed
            cases parsed
      · exact absurd outcome (rejected others)
  exhausted_fits := fun _ failed => (stuck_of_exhausted positive failed).fits
  unexpected := by
    intro expected found failed
    obtain ⟨front, after, rfl, misfit, stuck, fails⟩ := stuck_of_unexpected positive failed
    have upTo : (front ++ found :: after).take (front.length + 1) = front ++ [found] := by
      rw [List.take_length_add_append]
      rfl
    refine ⟨front.length, by simp, fails limit (Nat.le_refl _) after, ?_, ?_, misfit, ?_⟩
    · rw [List.take_left]
      exact stuck.viable
    · intro larger atMost others
      rw [upTo, List.append_assoc]
      exact fails larger atMost others
    · rw [List.take_left]
      exact stuck.fits

def brokenParameter : List Token :=
  [Kind.letWord, .identifier, .openParen, .atom, .comma, .identifier, .atSign, .equals].map .sample

theorem failsEarly_brokenParameter :
    (1 ≤ 2 ∧ ∀ high place, parse 2 brokenParameter ≠ .error (.overNested high place)) ∧
      parse 2 brokenParameter = .error (.unexpected .pattern (.sample .equals)) ∧
      FailsEarly 2 brokenParameter := by
  have failed : parse 2 brokenParameter = .error (.unexpected .pattern (.sample .equals)) := by
    decide +kernel
  have shallow (high : Nat) (place : Span) :
      parse 2 brokenParameter ≠ .error (.overNested high place) := by
    rw [failed]
    nofun
  exact ⟨⟨by decide, shallow⟩, failed, failsEarly_of_shallow (by decide) shallow⟩

end TermScript.Program

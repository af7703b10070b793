import TermScript.Proofs.Grammar.Completeness
import TermScript.Proofs.Rule.Pairing
import TermScript.Session

namespace TermScript

/-- The same stretch with so many more bytes in front of it. -/
def Span.shifted (bytes : Nat) (span : Span) : Span :=
  ⟨span.offset + bytes, span.len⟩

def Token.shifted (bytes : Nat) (token : Token) : Token :=
  { token with span := token.span.shifted bytes }

def Unreadable.shifted (bytes : Nat) (unreadable : Unreadable) : Unreadable :=
  { unreadable with span := unreadable.span.shifted bytes }

def Fault.shifted (bytes : Nat) : Fault → Fault
  | .unexpected expected found => .unexpected expected (found.shifted bytes)
  | .exhausted expected => .exhausted expected
  | .overNested limit place => .overNested limit (place.shifted bytes)

def SourceError.shifted (bytes : Nat) : SourceError → SourceError
  | .unreadable cause => .unreadable (cause.shifted bytes)
  | .misplaced cause => .misplaced (cause.shifted bytes)

private theorem Token.sameWord_shifted (bytes : Nat) (token : Token) :
    token.SameWord (token.shifted bytes) :=
  ⟨rfl, rfl⟩

namespace Input

def shifted (bytes : Nat) (input : Input) : Input :=
  ⟨input.ahead.map (Token.shifted bytes), input.finish.shifted bytes⟩

private theorem peek?_shifted (bytes : Nat) (input : Input) :
    (input.shifted bytes).peek? = input.peek?.map (Token.shifted bytes) :=
  List.head?_map

private theorem advance_shifted (bytes : Nat) (input : Input) :
    (input.shifted bytes).advance = input.advance.shifted bytes :=
  congrArg (Input.mk · _) List.map_tail.symm

private theorem fault_shifted (bytes : Nat) (input : Input) (expected : Expectation) :
    (input.shifted bytes).fault expected = (input.fault expected).shifted bytes := by
  unfold fault
  rw [peek?_shifted]
  cases input.peek? <;> rfl

private theorem here_shifted (bytes : Nat) (input : Input) :
    (input.shifted bytes).here = input.here.shifted bytes := by
  unfold here
  rw [peek?_shifted]
  cases input.peek? <;> rfl

private theorem finishOf_shifted (bytes : Nat) {tokens : List Token} (nonempty : tokens ≠ []) :
    finishOf (tokens.map (Token.shifted bytes)) = (finishOf tokens).shifted bytes := by
  unfold finishOf
  rw [List.getLast?_map, List.getLast?_eq_some_getLast nonempty]
  simp only [Option.map_some, Span.after, Span.stop, Span.shifted, Token.shifted]
  rw [Nat.add_right_comm]

end Input

private def Pairing.shift (bytes : Nat) : Pairing where
  inputs input input' := input' = input.shifted bytes
  faults fault fault' := fault' = fault.shifted bytes
  next {input _} same := by
    rw [same, Input.peek?_shifted]
    cases input.peek? with
    | none => exact .none
    | some first => exact .some (first.sameWord_shifted bytes)
  advance same := by rw [same, Input.advance_shifted]
  misfit kinds same := by rw [same, Input.fault_shifted]
  spent limit same := by rw [same, Input.here_shifted]; rfl

theorem Corresponds.eq_mapError {α ε ε' : Type} {change : ε → ε'} {result : Except ε α}
    {result' : Except ε' α}
    (related : Corresponds Eq (fun error error' => error' = change error) result result') :
    result' = result.mapError change := by
  cases related with
  | ok same => exact congrArg Except.ok same.symm
  | error same => exact congrArg Except.error same

theorem Program.parse_shifted (bytes limit : Nat) (tokens : List Token) :
    parse limit (tokens.map (Token.shifted bytes)) =
      (parse limit tokens).mapError (Fault.shifted bytes) := by
  cases tokens with
  | nil =>
      -- With no tokens at all there is no last one that could have moved, but no fault either.
      have parsed : parse limit [] = .ok [] := Derives.nil.parse
      rw [List.map_nil, parsed]
      rfl
  | cons first others =>
      apply Corresponds.eq_mapError
      have inputs : (Pairing.shift bytes).inputs (.ofTokens (first :: others))
          (.ofTokens ((first :: others).map (Token.shifted bytes))) :=
        congrArg (Input.mk _) (Input.finishOf_shifted bytes (List.cons_ne_nil _ _))
      refine (Pairing.pairs_program ?_ limit inputs).result
      intro expected input input' same
      exact same ▸ input.fault_shifted bytes expected

/-- Two faults that differ at most in the places they tell of. -/
inductive Fault.SameButPlace : Fault → Fault → Prop
  | unexpected (expected : Expectation) {found found' : Token} : found.SameWord found' →
      SameButPlace (.unexpected expected found) (.unexpected expected found')
  | exhausted (expected : Expectation) : SameButPlace (.exhausted expected) (.exhausted expected)
  | overNested (limit : Nat) (place place' : Span) :
      SameButPlace (.overNested limit place) (.overNested limit place')

namespace Input

/-- The tokens ahead are the same words, wherever they stand. -/
def SameWords (input input' : Input) : Prop :=
  List.Forall₂ Token.SameWord input.ahead input'.ahead

variable {input input' : Input}

private theorem SameWords.next (same : input.SameWords input') :
    Option.Rel Token.SameWord input.peek? input'.peek? := by
  unfold SameWords at same
  unfold peek?
  generalize input.ahead = tokens, input'.ahead = tokens' at same
  cases same with
  | nil => exact .none
  | cons first _ => exact .some first

private theorem SameWords.advance (same : input.SameWords input') :
    input.advance.SameWords input'.advance := by
  unfold SameWords at same ⊢
  unfold Input.advance
  generalize input.ahead = tokens, input'.ahead = tokens' at same
  cases same with
  | nil => exact .nil
  | cons _ others => exact others

private theorem SameWords.fault (same : input.SameWords input') (expected : Expectation) :
    (input.fault expected).SameButPlace (input'.fault expected) := by
  have next := same.next
  unfold Input.fault
  generalize input.peek? = first, input'.peek? = first' at next
  cases next with
  | none => exact .exhausted expected
  | some first => exact .unexpected expected first

end Input

private def Pairing.respacing : Pairing where
  inputs := Input.SameWords
  faults := Fault.SameButPlace
  next := Input.SameWords.next
  advance := Input.SameWords.advance
  misfit kinds same := same.fault (.oneOf kinds)
  spent limit _ := .overNested limit _ _

theorem Program.parse_sameWords {tokens tokens' : List Token}
    (same : List.Forall₂ Token.SameWord tokens tokens') (limit : Nat) :
    Corresponds Eq Fault.SameButPlace (parse limit tokens) (parse limit tokens') := by
  have inputs : Pairing.respacing.inputs (.ofTokens tokens) (.ofTokens tokens') := same
  refine (Pairing.pairs_program ?_ limit inputs).result
  exact fun expected _ _ same => same.fault expected

end TermScript

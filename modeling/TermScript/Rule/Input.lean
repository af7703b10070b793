import TermScript.Token.Basic

namespace TermScript

/-- What would have fitted where reading failed. -/
inductive Expectation where
  | oneOf (kinds : List Kind)
  | term
  | pattern
  | endOfInput
  deriving DecidableEq, Repr

namespace Expectation

def termStarts : List Kind :=
  [.identifier, .atom, .quotedAtom, .string, .openBracket, .openParen, .matchWord]

def patternStarts : List Kind :=
  [.underscore, .identifier, .atom, .quotedAtom, .string, .openBracket, .openParen]

def fitting : Expectation → List Kind
  | .oneOf kinds => kinds
  | .term => termStarts
  | .pattern => patternStarts
  | .endOfInput => []

/-- How error messages name an expectation; a single kind stands for itself. -/
def description : Expectation → String
  | .oneOf [kind] => kind.description
  | .oneOf kinds => "one of " ++ ", ".intercalate (kinds.map Kind.description)
  | .term => "a term"
  | .pattern => "a pattern"
  | .endOfInput => "end of input"

end Expectation

inductive Fault where
  | unexpected (expected : Expectation) (found : Token)
  | exhausted (expected : Expectation)
  | overNested (limit : Nat) (place : Span)
  deriving DecidableEq, Repr

namespace Fault

/-- Where reading failed; nowhere when the input ran out. -/
def span? : Fault → Option Span
  | .unexpected _ found => some found.span
  | .exhausted _ => none
  | .overNested _ place => some place

def message : Fault → String
  | .unexpected expected found =>
      s!"syntax error: expected {expected.description}, found {found.kind.description} " ++
        s!"`{found.text}` at {found.span.coordinates}"
  | .exhausted expected =>
      s!"syntax error: expected {expected.description}, found end of input"
  | .overNested limit place =>
      s!"syntax error: nesting deeper than {limit} at {place.coordinates}"

end Fault

/-- Tokens that are still to be read, and the place where they end. -/
structure Input where
  ahead : List Token
  finish : Span
  deriving DecidableEq, Repr

namespace Input

/-- The place where a row of tokens ends: right after the last one. -/
def finishOf (tokens : List Token) : Span :=
  match tokens.getLast? with
  | some last => last.span.after
  | none => ⟨0, 0⟩

def ofTokens (tokens : List Token) : Input :=
  ⟨tokens, finishOf tokens⟩

def isEmpty (input : Input) : Bool :=
  input.ahead.isEmpty

/-- The next token, which stays in place. -/
def peek? (input : Input) : Option Token :=
  input.ahead.head?

def startsWith (input : Input) (kinds : List Kind) : Bool :=
  input.peek?.any fun token => kinds.contains token.kind

/-- Does the input end here, or go on with one of these kinds? -/
def endsAt (input : Input) (stops : List Kind) : Bool :=
  input.isEmpty || input.startsWith stops

def advance (input : Input) : Input :=
  { input with ahead := input.ahead.tail }

def here (input : Input) : Span :=
  match input.peek? with
  | some token => token.span
  | none => input.finish

/-- The fault of not finding here what was expected. -/
def fault (input : Input) (expected : Expectation) : Fault :=
  match input.peek? with
  | some token => .unexpected expected token
  | none => .exhausted expected

end Input

end TermScript

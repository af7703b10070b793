import TermScript.Reader
import TermScript.Token.Scan

namespace TermScript

inductive SourceError where
  | unreadable (cause : Unreadable)
  | misplaced (cause : Fault)
  deriving DecidableEq, Repr

namespace SourceError

def message : SourceError → String
  | .unreadable cause => "lex error: " ++ cause.message
  | .misplaced cause => cause.message

def span? : SourceError → Option Span
  | .unreadable cause => some cause.span
  | .misplaced cause => cause.span?

end SourceError

/-- A rule that has to read all there is. -/
def Rule.complete {α : Type} (rule : Rule α) : Rule α := do
  let value ← rule
  if ← Rule.look (·.isEmpty) then return value else Rule.fail (·.fault .endOfInput)

namespace Source

/-- The tokens of a source, read by a rule; the events are noted even if the rule fails. -/
def read {α : Type} (rule : Rule α) (source : String) : Except SourceError α × List Event :=
  match Token.scan source with
  | .error unreadable => (.error (.unreadable unreadable), [])
  | .ok tokens =>
      let outcome := rule (Input.ofTokens tokens)
      (outcome.result.mapError .misplaced, outcome.events)

def program (limit : Nat) (source : String) : Except SourceError Program :=
  (read (Program.rule limit) source).1

/-- The one term that a source text holds. -/
def term (source : String) : Except SourceError Term :=
  (read (Term.rule Program.defaultLimit).complete source).1

/-- The one pattern that a source text holds. -/
def pattern (source : String) : Except SourceError Pattern :=
  (read (Pattern.rule Program.defaultLimit).complete source).1

end Source

namespace Session

/-- One thing to be read from an input that others are read from too, also after a fault. -/
inductive Call where
  | term
  | pattern
  | item
  | definition
  | program
  deriving DecidableEq, Repr

inductive Reply where
  | term (value : Term)
  | pattern (value : Pattern)
  | item (value : Item)
  | definition (value : Definition)
  | program (value : Program)
  deriving DecidableEq

def Call.rule (limit : Nat) : Call → Rule Reply
  | .term => .term <$> Term.rule limit
  | .pattern => .pattern <$> Pattern.rule limit
  | .item => .item <$> Item.rule limit
  | .definition => .definition <$> Definition.rule limit
  | .program => .program <$> Program.rule limit

/-- The end of a call: its reply, and the input that it leaves to the next. -/
structure Step where
  reply : Except Fault Reply
  rest : Input

/-- Calls made in turn, each on what the one before it left. -/
def run (limit : Nat) : Input → List Call → List Step
  | _, [] => []
  | input, call :: calls =>
      let outcome := call.rule limit input
      ⟨outcome.result, outcome.rest⟩ :: run limit outcome.rest calls

end Session

end TermScript

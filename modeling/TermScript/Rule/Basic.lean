import TermScript.Rule.Input

namespace TermScript

/-- The parts of a script whose rules note that they begin. -/
inductive Part where
  | item
  | term
  | pattern
  deriving DecidableEq, Repr

inductive Event where
  | begins (part : Part) (input : Input)
  | names (definition : String)
  | matching
  | completes (index : Nat) (label : String)
  deriving DecidableEq, Repr

structure Outcome (α : Type) where
  result : Except Fault α
  rest : Input
  events : List Event

namespace Outcome

def preceded {α : Type} (outcome : Outcome α) (events : List Event) : Outcome α :=
  { outcome with events := events ++ outcome.events }

end Outcome

/-- A rule reads from an input and ends with a value or a fault. Either way it leaves an input, so
that reading can go on after a fault. On the way it notes events. -/
def Rule (α : Type) : Type :=
  Input → Outcome α

namespace Rule

variable {α β γ : Type}

protected def pure (value : α) : Rule α := fun input =>
  ⟨.ok value, input, []⟩

/-- Go on where the first rule ends, unless it fails. -/
protected def bind (rule : Rule α) (next : α → Rule β) : Rule β := fun input =>
  match rule input with
  | ⟨.ok value, rest, events⟩ => (next value rest).preceded events
  | ⟨.error fault, rest, events⟩ => ⟨.error fault, rest, events⟩

instance : Monad Rule where
  pure := Rule.pure
  bind := Rule.bind

theorem pure_apply (value : α) (input : Input) :
    (pure value : Rule α) input = ⟨.ok value, input, []⟩ := rfl

theorem bind_of_ok {rule : Rule α} {input rest : Input} {value : α} {events : List Event}
    (ends : rule input = ⟨.ok value, rest, events⟩) (next : α → Rule β) :
    (rule >>= next) input = (next value rest).preceded events := by
  change Rule.bind rule next input = _
  rw [Rule.bind, ends]

theorem bind_of_error {rule : Rule α} {input rest : Input} {fault : Fault} {events : List Event}
    (ends : rule input = ⟨.error fault, rest, events⟩) (next : α → Rule β) :
    (rule >>= next) input = ⟨.error fault, rest, events⟩ := by
  change Rule.bind rule next input = _
  rw [Rule.bind, ends]

instance : LawfulMonad Rule := LawfulMonad.mk'
  _
  (by
    intro α rule
    funext input
    change Rule.bind rule (fun value => Rule.pure value) input = _
    rw [Rule.bind]
    split
    · rename_i ends
      simp [Rule.pure, Outcome.preceded, ends]
    · rename_i ends
      exact ends.symm)
  (by
    intro α β value next
    funext input
    rfl)
  (by
    intro α β γ rule next last
    funext input
    change Rule.bind (Rule.bind rule next) last input =
      Rule.bind rule (fun value => Rule.bind (next value) last) input
    unfold Rule.bind
    rcases rule input with ⟨_ | value, rest, events⟩
    · rfl
    · simp only [Outcome.preceded]
      rcases next value rest with ⟨_ | _, _, _⟩ <;> simp)

/-- Read nothing and note an event that may tell where the rule stands. -/
def note (event : Input → Event) : Rule Unit := fun input =>
  ⟨.ok (), input, [event input]⟩

def fail (fault : Input → Fault) : Rule α := fun input =>
  ⟨.error (fault input), input, []⟩

def look (question : Input → α) : Rule α := fun input =>
  ⟨.ok (question input), input, []⟩

/-- Read a token of this kind if it comes next, and say whether it did. -/
def accept (kind : Kind) : Rule Bool := fun input =>
  if input.startsWith [kind] then ⟨.ok true, input.advance, []⟩ else ⟨.ok false, input, []⟩

/-- Read the next token and go on with the rule chosen for it; fail in front of a token that has no
rule. -/
def choose (expected : Expectation) (ruleFor : Token → Option (Rule α)) : Rule α := fun input =>
  match input.peek?.bind ruleFor with
  | some rule => rule input.advance
  | none => ⟨.error (input.fault expected), input, []⟩

def expect (kinds : List Kind) : Rule Token :=
  choose (.oneOf kinds) fun token =>
    if kinds.contains token.kind then some (pure token) else none

def overNested (limit : Nat) : Rule α :=
  fail fun input => .overNested limit input.here

/-- Repeat a numbered step until it has nothing more to give. A step that gives a value without
reading a token is the last. -/
def manyFrom (step : Nat → Rule (Option α)) (index : Nat) (input : Input) : Outcome (List α) :=
  match step index input with
  | ⟨.error fault, rest, events⟩ => ⟨.error fault, rest, events⟩
  | ⟨.ok none, rest, events⟩ => ⟨.ok [], rest, events⟩
  | ⟨.ok (some value), rest, events⟩ =>
      if rest.ahead.length < input.ahead.length then
        let others := manyFrom step (index + 1) rest
        ⟨others.result.map (value :: ·), others.rest, events ++ others.events⟩
      else ⟨.ok [value], rest, events⟩
termination_by input.ahead.length

def many (step : Nat → Rule (Option α)) : Rule (List α) :=
  manyFrom step 0

/-- One more element of a list, after a comma; none if the list ends here or after the comma. -/
def nextInList (stops : List Kind) (element : Rule α) : Rule (Option α) := do
  if ← look (·.endsAt stops) then return none
  let _ ← expect [.comma]
  if ← look (·.endsAt stops) then return none
  some <$> element

/-- A list whose elements stand between commas; one comma may follow the last. The list ends in
front of a stop or at the end of the input. -/
def sepByComma (stops : List Kind) (element : Rule α) : Rule (List α) := do
  if ← look (·.endsAt stops) then return []
  let first ← element
  let others ← many fun _ => nextInList stops element
  return first :: others

/-- A list up to and including the token that closes it. -/
def listUntil (close : Kind) (element : Rule α) : Rule (List α) := do
  let elements ← sepByComma [close] element
  let _ ← expect [close]
  return elements

def arguments? (element : Rule α) : Rule (Option (List α)) := do
  if ← accept .openParen then some <$> listUntil .closeParen element else return none

/-- A single thing in parentheses, after the first of them. -/
def grouped (inner : Rule α) : Rule α := do
  let value ← inner
  let _ ← expect [.closeParen]
  return value

def joinRight (join : α → α → α) : α → List α → α
  | first, [] => first
  | first, second :: others => join first (joinRight join second others)

def nextInChain (element : Rule α) : Rule (Option α) := do
  if ← accept .colon then some <$> element else return none

/-- Elements with colons between them, joined from the right. -/
def chain (join : α → α → α) (element : Rule α) : Rule α := do
  let first ← element
  let others ← many fun _ => nextInChain element
  return joinRight join first others

end Rule

end TermScript

import TermScript.Rule.Basic
import TermScript.Syntax

namespace TermScript

namespace Pattern

/-- A pattern after its name: with an at sign the name of what follows, without it a variable. -/
def nameRule (inner : Rule Pattern) (name : String) : Rule Pattern := do
  if ← Rule.accept .atSign then .named name <$> inner else return .var name

def treeRule (inner : Rule Pattern) (functor : String) : Rule Pattern := do
  let children? ← Rule.arguments? inner
  return .tree functor (children?.getD [])

/-- How to go on after the first token of a pattern that is no chain, given how to read the patterns
inside it. -/
def ruleFor (inner : Rule Pattern) (token : Token) : Option (Rule Pattern) :=
  match token.kind with
  | .underscore => some (pure .wildcard)
  | .identifier => some (nameRule inner token.name)
  | .atom | .quotedAtom => some (treeRule inner token.name)
  | .string => some (pure (.string token.unquoted))
  | .openBracket => some (.list <$> Rule.listUntil .closeBracket inner)
  | .openParen => some (Rule.grouped inner)
  | _ => none

def element (inner : Rule Pattern) : Rule Pattern := do
  Rule.note (.begins .pattern)
  Rule.choose .pattern (ruleFor inner)

/-- A pattern that may nest as many levels as the budget says; a chain is one level. -/
def within (limit : Nat) : Nat → Rule Pattern
  | 0, input => Rule.overNested limit input
  | budget + 1, input => Rule.chain .cons (element (within limit budget)) input

def rule (limit : Nat) : Rule Pattern :=
  within limit limit

end Pattern

/-- One case of a match, given how to read the patterns and terms inside it. -/
def Clause.rule (pattern : Rule Pattern) (term : Rule Term) : Rule Clause := do
  let patterns ← Rule.listUntil .arrow pattern
  let body ← term
  return .mk patterns body

namespace Term

def matchRule (pattern : Rule Pattern) (inner : Rule Term) : Rule Term := do
  Rule.note fun _ => .matching
  let subjects ← Rule.listUntil .openBrace inner
  let clauses ← Rule.listUntil .closeBrace (Clause.rule pattern inner)
  return .matching subjects clauses

/-- A term after its name: with arguments an application, without them a variable. -/
def nameRule (inner : Rule Term) (name : String) : Rule Term := do
  match ← Rule.arguments? inner with
  | some operands => return .app name operands
  | none => return .var name

def treeRule (inner : Rule Term) (functor : String) : Rule Term := do
  let children? ← Rule.arguments? inner
  return .tree functor (children?.getD [])

/-- How to go on after the first token of a term that is no chain, given how to read the patterns and
terms inside it. -/
def ruleFor (pattern : Rule Pattern) (inner : Rule Term) (token : Token) : Option (Rule Term) :=
  match token.kind with
  | .identifier => some (nameRule inner token.name)
  | .atom | .quotedAtom => some (treeRule inner token.name)
  | .string => some (pure (.string token.unquoted))
  | .openBracket => some (.list <$> Rule.listUntil .closeBracket inner)
  | .openParen => some (Rule.grouped inner)
  | .matchWord => some (matchRule pattern inner)
  | _ => none

def element (pattern : Rule Pattern) (inner : Rule Term) : Rule Term := do
  Rule.note (.begins .term)
  Rule.choose .term (ruleFor pattern inner)

/-- A term that may nest as many levels as the budget says, patterns included; a chain is one
level. -/
def within (limit : Nat) : Nat → Rule Term
  | 0, input => Rule.overNested limit input
  | budget + 1, input =>
      Rule.chain .cons (element (Pattern.within limit budget) (within limit budget)) input

def rule (limit : Nat) : Rule Term :=
  within limit limit

end Term

def Definition.rule (limit : Nat) : Rule Definition := do
  let _ ← Rule.expect [.letWord]
  let name ← Rule.expect [.identifier]
  Rule.note fun _ => .names name.text
  let patterns? ← Rule.arguments? (Pattern.rule limit)
  let _ ← Rule.expect [.equals]
  let body ← Term.rule limit
  return ⟨name.text, patterns?.getD [], body⟩

def Item.rule (limit : Nat) : Rule Item := do
  Rule.note (.begins .item)
  if ← Rule.look (·.startsWith [.letWord]) then .define <$> Definition.rule limit
  else .lone <$> Term.rule limit

namespace Program

/-- The nesting allowed where nobody asks for another. -/
def defaultLimit : Nat := 256

/-- One more item and its semicolon, unless the input ends. -/
def nextItem (limit : Nat) (index : Nat) : Rule (Option Item) := do
  if ← Rule.look (·.isEmpty) then return none
  let item ← Item.rule limit
  let _ ← Rule.expect [.semicolon]
  Rule.note fun _ => .completes index item.label
  return some item

def rule (limit : Nat) : Rule Program :=
  Rule.many (nextItem limit)

end Program

end TermScript

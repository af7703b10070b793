import TermScript.Syntax
import TermScript.Token.Basic

namespace TermScript

/-- A JSON value. Members keep their order; the only numbers are natural. -/
inductive Json where
  | null
  | bool (value : Bool)
  | number (value : Nat)
  | string (text : String)
  | array (elements : List Json)
  | object (members : List (String × Json))

namespace Json

/-- An object with one member, whose key says what its value is. -/
def tagged (tag : String) (content : Json) : Json :=
  .object [(tag, content)]

def text? : Json → Option String
  | .string text => some text
  | _ => none

def member? (key : String) (members : List (String × Json)) : Option Json :=
  members.lookup key

def hexDigit (value : Nat) : Char :=
  if value < 10 then Char.ofNat ('0'.toNat + value) else Char.ofNat ('a'.toNat + (value - 10))

/-- A character inside quotes. Quotes, backslashes and control characters are escaped, by a letter
if they have one; all else stands for itself. -/
def escapeChar (char : Char) : List Char :=
  if char = '"' then ['\\', '"']
  else if char = '\\' then ['\\', '\\']
  else if char = '\x08' then ['\\', 'b']
  else if char = '\t' then ['\\', 't']
  else if char = '\n' then ['\\', 'n']
  else if char = '\x0c' then ['\\', 'f']
  else if char = '\r' then ['\\', 'r']
  else if char.toNat < 32 then
    ['\\', 'u', '0', '0', hexDigit (char.toNat / 16), hexDigit (char.toNat % 16)]
  else [char]

def quoted (text : String) : List Char :=
  '"' :: (text.toList.flatMap escapeChar ++ ['"'])

def margin (depth : Nat) : List Char :=
  '\n' :: List.replicate (2 * depth) ' '

/-- Parts between brackets, each on a line of its own and two spaces deeper; brackets with nothing
between them stay together. -/
def block (opening closing : Char) (depth : Nat) (parts : List (List Char)) : List Char :=
  if parts.isEmpty then [opening, closing]
  else
    opening :: (margin (depth + 1) ++ (',' :: margin (depth + 1)).intercalate parts ++
      margin depth ++ [closing])

mutual
/-- The characters of a value, whose brackets stand at the given depth. -/
def chars (depth : Nat) : Json → List Char
  | .null => ['n', 'u', 'l', 'l']
  | .bool true => ['t', 'r', 'u', 'e']
  | .bool false => ['f', 'a', 'l', 's', 'e']
  | .number value => Nat.toDigits 10 value
  | .string text => quoted text
  | .array elements => block '[' ']' depth (charsOfElements (depth + 1) elements)
  | .object members => block '\x7b' '\x7d' depth (charsOfMembers (depth + 1) members)

def charsOfElements (depth : Nat) : List Json → List (List Char)
  | [] => []
  | first :: rest => chars depth first :: charsOfElements depth rest

def charsOfMembers (depth : Nat) : List (String × Json) → List (List Char)
  | [] => []
  | (key, value) :: rest =>
      (quoted key ++ ':' :: ' ' :: chars depth value) :: charsOfMembers depth rest
end

def render (json : Json) : String :=
  String.ofList (chars 0 json)

end Json

def Span.toJson (span : Span) : Json :=
  .object [("offset", .number span.offset), ("len", .number span.len)]

def Token.toJson (token : Token) : Json :=
  .array [.string token.kind.label, .string token.text, token.span.toJson]

namespace Pattern

mutual
def toJson : Pattern → Json
  | .tree functor children =>
      .tagged "Tree" <| .object
        [("functor", .string functor), ("children", .array (toJsonList children))]
  | .wildcard => .string "Wildcard"
  | .var name => .tagged "Var" (.string name)
  | .named name inner =>
      .tagged "As" <| .object [("name", .string name), ("pattern", toJson inner)]
  | .cons head tail =>
      .tagged "Cons" <| .object [("head", toJson head), ("tail", toJson tail)]
  | .string text => .tagged "Str" (.string text)
  | .list elements => .tagged "List" (.array (toJsonList elements))

def toJsonList : List Pattern → List Json
  | [] => []
  | first :: rest => toJson first :: toJsonList rest
end

mutual
/-- The pattern that a JSON value stands for. Members that a constructor does not know are
ignored. -/
def ofJson? : Json → Option Pattern
  | .string "Wildcard" => some .wildcard
  | .object [("Wildcard", .null)] => some .wildcard
  | .object [("Var", .string name)] => some (.var name)
  | .object [("Str", .string text)] => some (.string text)
  | .object [("List", .array elements)] => do return .list (← ofJsonList? elements)
  | .object [("Tree", .object members)] => do
      let functor ← (Json.member? "functor" members).bind Json.text?
      return .tree functor (← listMember? "children" members)
  | .object [("As", .object members)] => do
      let name ← (Json.member? "name" members).bind Json.text?
      return .named name (← member? "pattern" members)
  | .object [("Cons", .object members)] => do
      return .cons (← member? "head" members) (← member? "tail" members)
  | _ => none

def ofJsonList? : List Json → Option (List Pattern)
  | [] => some []
  | first :: rest => do return (← ofJson? first) :: (← ofJsonList? rest)

def member? (name : String) : List (String × Json) → Option Pattern
  | [] => none
  | (key, value) :: rest => if key = name then ofJson? value else member? name rest

def listMember? (name : String) : List (String × Json) → Option (List Pattern)
  | [] => none
  | (key, value) :: rest =>
      if key = name then
        match value with
        | .array elements => ofJsonList? elements
        | _ => none
      else listMember? name rest
end

end Pattern

mutual
def Term.toJson : Term → Json
  | .tree functor children =>
      .tagged "Tree" <| .object
        [("functor", .string functor), ("children", .array (Term.toJsonList children))]
  | .var name => .tagged "Var" (.string name)
  | .app operator operands =>
      .tagged "App" <| .object
        [("op_name", .string operator), ("rands", .array (Term.toJsonList operands))]
  | .cons head tail =>
      .tagged "Cons" <| .object [("head", Term.toJson head), ("tail", Term.toJson tail)]
  | .string text => .tagged "Str" (.string text)
  | .list elements => .tagged "List" (.array (Term.toJsonList elements))
  | .matching subjects clauses =>
      .tagged "Match" <| .object
        [("terms", .array (Term.toJsonList subjects)),
          ("clauses", .array (Term.clausesToJson clauses))]

def Term.toJsonList : List Term → List Json
  | [] => []
  | first :: rest => Term.toJson first :: Term.toJsonList rest

def Clause.toJson : Clause → Json
  | .mk patterns body =>
      .object [("patterns", .array (Pattern.toJsonList patterns)), ("body", Term.toJson body)]

def Term.clausesToJson : List Clause → List Json
  | [] => []
  | first :: rest => Clause.toJson first :: Term.clausesToJson rest
end

mutual
/-- The term that a JSON value stands for. Members that a constructor does not know are ignored. -/
def Term.ofJson? : Json → Option Term
  | .object [("Var", .string name)] => some (.var name)
  | .object [("Str", .string text)] => some (.string text)
  | .object [("List", .array elements)] => do return .list (← Term.ofJsonList? elements)
  | .object [("Tree", .object members)] => do
      let functor ← (Json.member? "functor" members).bind Json.text?
      return .tree functor (← Term.listMember? "children" members)
  | .object [("App", .object members)] => do
      let operator ← (Json.member? "op_name" members).bind Json.text?
      return .app operator (← Term.listMember? "rands" members)
  | .object [("Cons", .object members)] => do
      return .cons (← Term.member? "head" members) (← Term.member? "tail" members)
  | .object [("Match", .object members)] => do
      let subjects ← Term.listMember? "terms" members
      return .matching subjects (← Term.clausesMember? "clauses" members)
  | _ => none

def Term.ofJsonList? : List Json → Option (List Term)
  | [] => some []
  | first :: rest => do return (← Term.ofJson? first) :: (← Term.ofJsonList? rest)

def Term.member? (name : String) : List (String × Json) → Option Term
  | [] => none
  | (key, value) :: rest => if key = name then Term.ofJson? value else Term.member? name rest

def Term.listMember? (name : String) : List (String × Json) → Option (List Term)
  | [] => none
  | (key, value) :: rest =>
      if key = name then
        match value with
        | .array elements => Term.ofJsonList? elements
        | _ => none
      else Term.listMember? name rest

def Term.clausesMember? (name : String) : List (String × Json) → Option (List Clause)
  | [] => none
  | (key, value) :: rest =>
      if key = name then
        match value with
        | .array elements => Term.clausesOfJson? elements
        | _ => none
      else Term.clausesMember? name rest

/-- The clause that a JSON value stands for, which may be the plain row of its two parts. -/
def Clause.ofJson? : Json → Option Clause
  | .object members => do
      let patterns ← Pattern.listMember? "patterns" members
      let body ← Term.member? "body" members
      return .mk patterns body
  | .array [.array patterns, body] => do
      let patterns ← Pattern.ofJsonList? patterns
      let body ← Term.ofJson? body
      return .mk patterns body
  | _ => none

def Term.clausesOfJson? : List Json → Option (List Clause)
  | [] => some []
  | first :: rest => do return (← Clause.ofJson? first) :: (← Term.clausesOfJson? rest)
end

namespace Definition

def toJson (definition : Definition) : Json :=
  .object
    [("name", .string definition.name),
      ("patterns", .array (Pattern.toJsonList definition.patterns)),
      ("body", definition.body.toJson)]

/-- The definition that a JSON value stands for, which may be the plain row of its three parts. -/
def ofJson? : Json → Option Definition
  | .object members => do
      let name ← (Json.member? "name" members).bind Json.text?
      let patterns ← Pattern.listMember? "patterns" members
      let body ← Term.member? "body" members
      return ⟨name, patterns, body⟩
  | .array [.string name, .array patterns, body] => do
      return ⟨name, ← Pattern.ofJsonList? patterns, ← Term.ofJson? body⟩
  | _ => none

end Definition

namespace Item

def toJson : Item → Json
  | .define definition => .tagged "Def" definition.toJson
  | .lone term => .tagged "Term" term.toJson

def ofJson? : Json → Option Item
  | .object [("Def", content)] => .define <$> Definition.ofJson? content
  | .object [("Term", content)] => .lone <$> Term.ofJson? content
  | _ => none

end Item

namespace Program

def toJson (program : Program) : Json :=
  .array (program.map Item.toJson)

def ofJson? : Json → Option Program
  | .array items => items.mapM Item.ofJson?
  | _ => none

end Program

end TermScript

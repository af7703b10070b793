import TermScript.Text

namespace TermScript

/-- A stretch of a source text, counted in bytes. -/
structure Span where
  offset : Nat
  len : Nat
  deriving DecidableEq, Repr, Inhabited

namespace Span

def stop (span : Span) : Nat :=
  span.offset + span.len

def after (span : Span) : Span :=
  ⟨span.stop, 0⟩

def coordinates (span : Span) : String :=
  s!"({span.offset},{span.len})"

end Span

/-- The sorts of token. A blank is white space or a comment; scanning drops it. -/
inductive Kind where
  | blank
  | letWord
  | matchWord
  | openParen
  | closeParen
  | openBracket
  | closeBracket
  | openBrace
  | closeBrace
  | comma
  | colon
  | atSign
  | arrow
  | equals
  | semicolon
  | underscore
  | identifier
  | atom
  | quotedAtom
  | string
  deriving DecidableEq, Repr, Inhabited

namespace Kind

def all : List Kind :=
  [.blank, .letWord, .matchWord, .openParen, .closeParen, .openBracket, .closeBracket,
    .openBrace, .closeBrace, .comma, .colon, .atSign, .arrow, .equals, .semicolon,
    .underscore, .identifier, .atom, .quotedAtom, .string]

/-- The name of a kind in token dumps, JSON and log lines. -/
def label : Kind → String
  | .blank => "_Trivia"
  | .letWord => "Let"
  | .matchWord => "Match"
  | .openParen => "LParen"
  | .closeParen => "RParen"
  | .openBracket => "LBracket"
  | .closeBracket => "RBracket"
  | .openBrace => "LBrace"
  | .closeBrace => "RBrace"
  | .comma => "Comma"
  | .colon => "Colon"
  | .atSign => "At"
  | .arrow => "FatArrow"
  | .equals => "Eq"
  | .semicolon => "Semicolon"
  | .underscore => "Underscore"
  | .identifier => "Ident"
  | .atom => "Atom"
  | .quotedAtom => "QuotedAtom"
  | .string => "Str"

def ofLabel? (label : String) : Option Kind :=
  all.find? fun kind => kind.label == label

/-- The spelling of a kind that has only one. -/
def spelling? : Kind → Option String
  | .letWord => some "let"
  | .matchWord => some "match"
  | .openParen => some "("
  | .closeParen => some ")"
  | .openBracket => some "["
  | .closeBracket => some "]"
  | .openBrace => some "\x7b"
  | .closeBrace => some "\x7d"
  | .comma => some ","
  | .colon => some ":"
  | .atSign => some "@"
  | .arrow => some "=>"
  | .equals => some "="
  | .semicolon => some ";"
  | .underscore => some "_"
  | .blank | .identifier | .atom | .quotedAtom | .string => none

/-- How error messages call a kind: by its only spelling, or by what it is. -/
def description (kind : Kind) : String :=
  match kind.spelling? with
  | some spelling => "'" ++ spelling ++ "'"
  | none =>
      match kind with
      | .blank => "whitespace"
      | .quotedAtom => "quoted atom"
      | .string => "string"
      | .atom => "atom"
      | _ => "identifier"

end Kind

/-- A piece of source text that means something, and where it stands. -/
structure Token where
  kind : Kind
  text : String
  span : Span
  deriving DecidableEq, Repr

namespace Token

def unquoted (token : Token) : String :=
  String.ofList (Text.unquote token.text.toList)

/-- The name that an identifier or atom token stands for; only a quoted atom differs from its
text. -/
def name (token : Token) : String :=
  if token.kind = .quotedAtom then token.unquoted else token.text

end Token

end TermScript

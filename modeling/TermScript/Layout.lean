import TermScript.Syntax
import TermScript.Token.Basic
import TermScript.Token.Scan

namespace TermScript

/-- Text is laid out as a row of pieces: words, which mean something, and the gaps between them.
Reading looks at the words; people look at the gaps too. -/
inductive Piece where
  | word (kind : Kind) (text : String)
  | gap (text : String)
  deriving DecidableEq, Repr

namespace Piece

def text : Piece → String
  | .word _ text => text
  | .gap text => text

/-- The word of a kind with only one spelling. -/
def mark (kind : Kind) : Piece :=
  .word kind (kind.spelling?.getD "")

def space : Piece :=
  .gap " "

end Piece

namespace Layout

def chars (pieces : List Piece) : List Char :=
  pieces.flatMap fun piece => piece.text.toList

def render (pieces : List Piece) : String :=
  String.ofList (chars pieces)

/-- Parts with a comma and a space between them. -/
def separated (parts : List (List Piece)) : List Piece :=
  [Piece.mark .comma, Piece.space].intercalate parts

def parenthesised (pieces : List Piece) : List Piece :=
  Piece.mark .openParen :: (pieces ++ [Piece.mark .closeParen])

def bracketed (pieces : List Piece) : List Piece :=
  Piece.mark .openBracket :: (pieces ++ [Piece.mark .closeBracket])

/-- Arguments in parentheses, or nothing if there are none. -/
def arguments (parts : List (List Piece)) : List Piece :=
  if parts.isEmpty then [] else parenthesised (separated parts)

def joined (head tail : List Piece) : List Piece :=
  head ++ [Piece.space, Piece.mark .colon, Piece.space] ++ tail

@[simp] theorem chars_nil : chars [] = [] := rfl

@[simp] theorem chars_cons (first : Piece) (rest : List Piece) :
    chars (first :: rest) = first.text.toList ++ chars rest := rfl

@[simp] theorem chars_append (left right : List Piece) :
    chars (left ++ right) = chars left ++ chars right := by
  simp [chars]

/-- Is this text an atom without quotes: a number, or a word that starts with a capital? -/
def needsNoQuotes : List Char → Bool
  | [] => false
  | first :: rest =>
      if first.isDigit then rest.all Char.isDigit
      else first.isUpper && rest.all isWordPart

def quotedText (quote : Char) (text : String) : String :=
  String.ofList (Text.enquote quote text.toList)

/-- A functor is written bare where that reads back as an atom, else in quotes. -/
def functor (name : String) : Piece :=
  if needsNoQuotes name.toList then .word .atom name
  else .word .quotedAtom (quotedText '\'' name)

def string (text : String) : Piece :=
  .word .string (quotedText '"' text)

end Layout

namespace Pattern

/-- Must this pattern stand in parentheses in front of a colon? A name and an at sign would take the
colon and all that follows. -/
def opensChain : Pattern → Bool
  | .cons _ _ => true
  | .named _ _ => true
  | _ => false

mutual
def pieces : Pattern → List Piece
  | .tree functor children => Layout.functor functor :: Layout.arguments (piecesOfList children)
  | .wildcard => [Piece.mark .underscore]
  | .var name => [.word .identifier name]
  | .named name inner => .word .identifier name :: Piece.mark .atSign :: pieces inner
  | .cons head tail =>
      Layout.joined
        (if head.opensChain then Layout.parenthesised (pieces head) else pieces head)
        (pieces tail)
  | .string text => [Layout.string text]
  | .list elements => Layout.bracketed (Layout.separated (piecesOfList elements))

def piecesOfList : List Pattern → List (List Piece)
  | [] => []
  | first :: rest => pieces first :: piecesOfList rest
end

theorem piecesOfList_eq_map (patterns : List Pattern) :
    piecesOfList patterns = patterns.map pieces := by
  induction patterns with
  | nil => rfl
  | cons first rest induction => rw [piecesOfList, induction, List.map_cons]

def render (pattern : Pattern) : String :=
  Layout.render pattern.pieces

end Pattern

namespace Term

/-- Must this term stand in parentheses in front of a colon? -/
def opensChain : Term → Bool
  | .cons _ _ => true
  | _ => false

/-- Parts with commas between them and a space after them, or nothing if there are none. -/
def spaced (parts : List (List Piece)) : List Piece :=
  if parts.isEmpty then [] else Layout.separated parts ++ [Piece.space]

mutual
def pieces : Term → List Piece
  | .tree functor children => Layout.functor functor :: Layout.arguments (piecesOfList children)
  | .var name => [.word .identifier name]
  | .app operator operands =>
      .word .identifier operator ::
        Layout.parenthesised (Layout.separated (piecesOfList operands))
  | .cons head tail =>
      Layout.joined
        (if head.opensChain then Layout.parenthesised (pieces head) else pieces head)
        (pieces tail)
  | .string text => [Layout.string text]
  | .list elements => Layout.bracketed (Layout.separated (piecesOfList elements))
  | .matching subjects clauses =>
      Piece.mark .matchWord :: Piece.space ::
        (spaced (piecesOfList subjects) ++
          Piece.mark .openBrace :: Piece.space ::
            (spaced (piecesOfClauses clauses) ++ [Piece.mark .closeBrace]))

def piecesOfList : List Term → List (List Piece)
  | [] => []
  | first :: rest => pieces first :: piecesOfList rest

def piecesOfClauses : List Clause → List (List Piece)
  | [] => []
  | .mk patterns body :: rest =>
      (Layout.separated (Pattern.piecesOfList patterns) ++
        Piece.space :: Piece.mark .arrow :: Piece.space :: pieces body) ::
        piecesOfClauses rest
end

theorem piecesOfList_eq_map (terms : List Term) :
    piecesOfList terms = terms.map pieces := by
  induction terms with
  | nil => rfl
  | cons first rest induction => rw [piecesOfList, induction, List.map_cons]

def render (term : Term) : String :=
  Layout.render term.pieces

end Term

def Definition.pieces (definition : Definition) : List Piece :=
  Piece.mark .letWord :: Piece.space :: .word .identifier definition.name ::
    (Layout.arguments (Pattern.piecesOfList definition.patterns) ++
      Piece.space :: Piece.mark .equals :: Piece.space :: definition.body.pieces)

def Item.pieces : Item → List Piece
  | .define definition => definition.pieces
  | .lone term => term.pieces

def Item.render (item : Item) : String :=
  Layout.render item.pieces

namespace Program

/-- The layout of a program: an item a line, each ended by a semicolon. -/
def pieces (program : Program) : List Piece :=
  program.flatMap fun item => item.pieces ++ [Piece.mark .semicolon, .gap "\n"]

def render (program : Program) : String :=
  Layout.render (pieces program)

end Program

end TermScript

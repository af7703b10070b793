import TermScript.Text
import TermScript.Token.Basic

namespace TermScript

def isBlank (char : Char) : Bool :=
  char == ' ' || char == '\t' || char == '\r' || char == '\n'

/-- The characters that continue a word: ASCII letters and digits, underscore and prime. -/
def isWordPart (char : Char) : Bool :=
  char.isAlphanum || char == '_' || char == '\''

/-- The longest stretch that may stand between two quotes, and what follows it: a backslash goes
with the character after it, which is no newline; any other character stands for itself, except
the quote. -/
def quotedRun (quote : Char) : List Char → List Char × List Char
  | '\\' :: second :: rest =>
      if second = '\n' then ([], '\\' :: second :: rest)
      else
        let (run, after) := quotedRun quote rest
        ('\\' :: second :: run, after)
  | first :: rest =>
      if first = quote ∨ first = '\\' then ([], first :: rest)
      else
        let (run, after) := quotedRun quote rest
        (first :: run, after)
  | [] => ([], [])

def wordKind (word : List Char) : Kind :=
  if word = ['l', 'e', 't'] then .letWord
  else if word = ['m', 'a', 't', 'c', 'h'] then .matchWord
  else if word = ['_'] then .underscore
  else .identifier

/-- The marks of one character that start no longer lexeme. -/
def markKind? : Char → Option Kind
  | '(' => some .openParen
  | ')' => some .closeParen
  | '[' => some .openBracket
  | ']' => some .closeBracket
  | '\x7b' => some .openBrace
  | '\x7d' => some .closeBrace
  | ',' => some .comma
  | ':' => some .colon
  | '@' => some .atSign
  | ';' => some .semicolon
  | _ => none

inductive Front where
  | lexeme (kind : Kind) (text rest : List Char)
  | unreadable (text : List Char)
  deriving DecidableEq, Repr

namespace Front

def spanning (kind : Kind) (first : Char) (continues : Char → Bool) (rest : List Char) : Front :=
  .lexeme kind (first :: rest.takeWhile continues) (rest.dropWhile continues)

/-- A quoted lexeme; without its second quote, all that could have been quoted is unreadable. -/
def quoted (kind : Kind) (quote : Char) (rest : List Char) : Front :=
  match quotedRun quote rest with
  | (run, second :: after) =>
      if second = quote then .lexeme kind (quote :: (run ++ [quote])) after
      else .unreadable (quote :: run)
  | (run, []) => .unreadable (quote :: run)

def equals : List Char → Front
  | '>' :: after => .lexeme .arrow ['=', '>'] after
  | rest => .lexeme .equals ['='] rest

def mark (first : Char) (rest : List Char) : Front :=
  match markKind? first with
  | some kind => .lexeme kind [first] rest
  | none => .unreadable [first]

/-- The longest lexeme at the front of a text with the given first character. -/
def ofText (first : Char) (rest : List Char) : Front :=
  if isBlank first then spanning .blank first isBlank rest
  else if first = '#' then spanning .blank first (· != '\n') rest
  else if first.isLower || first == '_' then
    spanning (wordKind (first :: rest.takeWhile isWordPart)) first isWordPart rest
  else if first.isUpper then spanning .atom first isWordPart rest
  else if first.isDigit then spanning .atom first Char.isDigit rest
  else if first = '\'' then quoted .quotedAtom first rest
  else if first = '"' then quoted .string first rest
  else if first = '=' then equals rest
  else mark first rest

end Front

theorem quotedRun_append (quote : Char) (text : List Char) :
    (quotedRun quote text).1 ++ (quotedRun quote text).2 = text := by
  fun_induction quotedRun quote text with
  | case1 => rfl
  | case2 second rest _ run after split induction => simp_all
  | case3 => rfl
  | case4 first rest _ _ run after split induction => simp_all
  | case5 => rfl

namespace Front

/-- The front takes a first part that is not empty off the text. -/
def Splits (text : List Char) : Front → Prop
  | .lexeme _ taken rest => taken ≠ [] ∧ taken ++ rest = text
  | .unreadable bad => bad ≠ [] ∧ bad <+: text

private theorem spanning_splits (kind : Kind) (first : Char) (continues : Char → Bool)
    (rest : List Char) : (spanning kind first continues rest).Splits (first :: rest) := by
  refine ⟨List.cons_ne_nil _ _, ?_⟩
  rw [List.cons_append, List.takeWhile_append_dropWhile]

private theorem quoted_splits (kind : Kind) (quote : Char) (rest : List Char) :
    (quoted kind quote rest).Splits (quote :: rest) := by
  have whole := quotedRun_append quote rest
  unfold quoted
  split
  · rename_i run second after cut
    rw [cut] at whole
    split
    · rename_i closes
      refine ⟨List.cons_ne_nil _ _, ?_⟩
      rw [← whole, closes, List.cons_append, List.append_assoc, List.singleton_append]
    · exact ⟨List.cons_ne_nil _ _, second :: after, by rw [List.cons_append, whole]⟩
  · rename_i run cut
    rw [cut] at whole
    exact ⟨List.cons_ne_nil _ _, [], by rw [List.cons_append, whole]⟩

private theorem equals_splits (rest : List Char) : (equals rest).Splits ('=' :: rest) := by
  unfold equals
  split
  · exact ⟨List.cons_ne_nil _ _, rfl⟩
  · exact ⟨List.cons_ne_nil _ _, rfl⟩

private theorem mark_splits (first : Char) (rest : List Char) :
    (mark first rest).Splits (first :: rest) := by
  unfold mark
  split
  · exact ⟨List.cons_ne_nil _ _, rfl⟩
  · exact ⟨List.cons_ne_nil _ _, rest, rfl⟩

/-- No character is lost at the front of a text, and at least one is taken. -/
theorem ofText_splits (first : Char) (rest : List Char) :
    (ofText first rest).Splits (first :: rest) := by
  unfold ofText
  split
  · exact spanning_splits ..
  split
  · exact spanning_splits ..
  split
  · exact spanning_splits ..
  split
  · exact spanning_splits ..
  split
  · exact spanning_splits ..
  split
  · exact quoted_splits ..
  split
  · exact quoted_splits ..
  split
  · rename_i same
    exact same ▸ equals_splits rest
  · exact mark_splits first rest

theorem length_of_ofText {first : Char} {rest : List Char} {kind : Kind}
    {taken after : List Char} (found : ofText first rest = .lexeme kind taken after) :
    after.length < (first :: rest).length := by
  have splits := ofText_splits first rest
  rw [found] at splits
  rw [← splits.2, List.length_append]
  have := List.length_pos_iff.mpr splits.1
  omega

end Front

/-- A place in a source where no lexeme starts. -/
structure Unreadable where
  text : String
  span : Span
  deriving DecidableEq, Repr

def Unreadable.message (unreadable : Unreadable) : String :=
  s!"unexpected character(s) `{unreadable.text}` at {unreadable.span.coordinates}"

namespace Token

def place (kind : Kind) (offset : Nat) (text : List Char) : Token :=
  ⟨kind, String.ofList text, ⟨offset, Text.byteLength text⟩⟩

/-- The tokens of a text that starts at the given byte offset. -/
def scanFrom (offset : Nat) (text : List Char) : Except Unreadable (List Token) :=
  match text with
  | [] => .ok []
  | first :: rest =>
      match _found : Front.ofText first rest with
      | .unreadable bad => .error ⟨String.ofList bad, ⟨offset, Text.byteLength bad⟩⟩
      | .lexeme kind lexeme after =>
          match scanFrom (offset + Text.byteLength lexeme) after with
          | .error unreadable => .error unreadable
          | .ok tokens =>
              if kind = .blank then .ok tokens else .ok (place kind offset lexeme :: tokens)
termination_by text.length
decreasing_by exact Front.length_of_ofText _found

theorem scanFrom_nil (offset : Nat) : scanFrom offset [] = .ok [] := by
  rw [scanFrom]

theorem scanFrom_unreadable {first : Char} {rest bad : List Char}
    (found : Front.ofText first rest = .unreadable bad) (offset : Nat) :
    scanFrom offset (first :: rest) =
      .error ⟨String.ofList bad, ⟨offset, Text.byteLength bad⟩⟩ := by
  rw [scanFrom]
  split <;> simp_all

theorem scanFrom_blank {first : Char} {rest blank after : List Char}
    (found : Front.ofText first rest = .lexeme .blank blank after) (offset : Nat) :
    scanFrom offset (first :: rest) = scanFrom (offset + Text.byteLength blank) after := by
  rw [scanFrom]
  split
  · simp_all
  · rename_i kind lexeme tail same
    obtain ⟨rfl, rfl, rfl⟩ : kind = .blank ∧ lexeme = blank ∧ tail = after := by simp_all
    split <;> simp_all

theorem scanFrom_lexeme {first : Char} {rest lexeme after : List Char} {kind : Kind}
    (found : Front.ofText first rest = .lexeme kind lexeme after) (solid : kind ≠ .blank)
    (offset : Nat) :
    scanFrom offset (first :: rest) =
      (scanFrom (offset + Text.byteLength lexeme) after).map (place kind offset lexeme :: ·) := by
  rw [scanFrom]
  split
  · simp_all
  · rename_i kind' lexeme' after' same
    obtain ⟨rfl, rfl, rfl⟩ : kind' = kind ∧ lexeme' = lexeme ∧ after' = after := by simp_all
    split <;> simp_all [Except.map]

def scan (source : String) : Except Unreadable (List Token) :=
  scanFrom 0 source.toList

end Token

end TermScript

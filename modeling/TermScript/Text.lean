namespace TermScript.Text

/-- The length of a text in UTF-8 bytes. Text is a list of characters here. -/
def byteLength : List Char → Nat
  | [] => 0
  | first :: rest => first.utf8Size + byteLength rest

@[simp] theorem byteLength_nil : byteLength [] = 0 := rfl

@[simp] theorem byteLength_cons (first : Char) (rest : List Char) :
    byteLength (first :: rest) = first.utf8Size + byteLength rest := rfl

@[simp] theorem byteLength_append (left right : List Char) :
    byteLength (left ++ right) = byteLength left + byteLength right := by
  induction left with
  | nil => rw [List.nil_append, byteLength_nil, Nat.zero_add]
  | cons first rest induction =>
      rw [List.cons_append, byteLength_cons, byteLength_cons, induction, Nat.add_assoc]

theorem byteLength_pos (first : Char) (rest : List Char) :
    0 < byteLength (first :: rest) := by
  have := first.utf8Size_pos
  rw [byteLength_cons]
  omega

/-- A place in a text as people count it: both numbers start at one, columns count characters. -/
structure Position where
  line : Nat
  column : Nat
  deriving DecidableEq, Repr

/-- The characters that end within the given number of bytes. -/
def upTo (offset : Nat) : List Char → List Char
  | [] => []
  | first :: rest =>
      if first.utf8Size ≤ offset then first :: upTo (offset - first.utf8Size) rest
      else []

/-- The position right after a text, walked from the given position. -/
def Position.walk (start : Position) : List Char → Position
  | [] => start
  | first :: rest =>
      if first = '\n' then walk ⟨start.line + 1, 1⟩ rest
      else walk ⟨start.line, start.column + 1⟩ rest

/-- The position of a byte offset; an offset past the end has the position of the end. -/
def locate (text : List Char) (offset : Nat) : Position :=
  Position.walk ⟨1, 1⟩ (upTo offset text)

theorem upTo_append (left right : List Char) :
    upTo (byteLength left) (left ++ right) = left := by
  induction left with
  | nil =>
      cases right with
      | nil => rfl
      | cons first rest =>
          have := first.utf8Size_pos
          rw [List.nil_append, byteLength_nil, upTo, if_neg (by omega)]
  | cons first rest induction =>
      rw [List.cons_append, upTo, byteLength_cons, if_pos (by omega), Nat.add_sub_cancel_left,
        induction]

theorem upTo_of_length_le (text : List Char) (offset : Nat) (long : byteLength text ≤ offset) :
    upTo offset text = text := by
  induction text generalizing offset with
  | nil => rfl
  | cons first rest induction =>
      rw [byteLength_cons] at long
      rw [upTo, if_pos (by omega), induction _ (by omega)]

/-- Put a backslash before every occurrence of the quote. Nothing else is escaped: a backslash
before anything but the quote is ordinary text. -/
def escape (quote : Char) : List Char → List Char
  | [] => []
  | first :: rest =>
      if first = quote then '\\' :: quote :: escape quote rest
      else first :: escape quote rest

/-- Drop the backslash from every escaped quote, from left to right. -/
def unescape (quote : Char) : List Char → List Char
  | '\\' :: second :: rest =>
      if second = quote then quote :: unescape quote rest
      else '\\' :: unescape quote (second :: rest)
  | first :: rest => first :: unescape quote rest
  | [] => []

def enquote (quote : Char) (text : List Char) : List Char :=
  quote :: (escape quote text ++ [quote])

/-- The inside of a quoted text. The first character says which quote was escaped; it and the last
remaining character are dropped whatever they are. -/
def unquote : List Char → List Char
  | [] => []
  | first :: rest =>
      if first = '\'' ∨ first = '"' then unescape first rest.dropLast
      else rest.dropLast

@[simp] theorem escape_nil (quote : Char) : escape quote [] = [] := rfl

theorem unescape_ordinary (quote first : Char) (rest : List Char) (ordinary : first ≠ '\\') :
    unescape quote (first :: rest) = first :: unescape quote rest := by
  rw [unescape]
  intro second tail same
  simp_all

theorem unescape_escaped (quote : Char) (rest : List Char) :
    unescape quote ('\\' :: quote :: rest) = quote :: unescape quote rest := by
  rw [unescape, if_pos rfl]

theorem unescape_backslash (quote : Char) (rest : List Char)
    (unescaped : ∀ tail, rest ≠ quote :: tail) :
    unescape quote ('\\' :: rest) = '\\' :: unescape quote rest := by
  cases rest with
  | nil => simp [unescape]
  | cons second tail =>
      rw [unescape, if_neg]
      intro same
      exact unescaped tail (same ▸ rfl)

private theorem escape_ne_quote (quote : Char) (text tail : List Char)
    (notBackslash : quote ≠ '\\') :
    escape quote text ≠ quote :: tail := by
  cases text with
  | nil => simp
  | cons first rest =>
      rw [escape]
      split
      · simp only [ne_eq, List.cons.injEq, not_and]
        intro same
        exact absurd same.symm notBackslash
      · rename_i different
        simp [different]

theorem unescape_escape (quote : Char) (text : List Char) (notBackslash : quote ≠ '\\') :
    unescape quote (escape quote text) = text := by
  induction text with
  | nil => rfl
  | cons first rest induction =>
      rw [escape]
      by_cases same : first = quote
      · rw [if_pos same, unescape_escaped, induction, same]
      · rw [if_neg same]
        by_cases backslash : first = '\\'
        · subst backslash
          rw [unescape_backslash _ _ fun tail => escape_ne_quote _ _ _ notBackslash, induction]
        · rw [unescape_ordinary _ _ _ backslash, induction]

end TermScript.Text

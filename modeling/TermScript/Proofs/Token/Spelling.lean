import TermScript.Layout
import TermScript.Proofs.Text.Quotable
import TermScript.Token.Scan

namespace TermScript

/-- A lower-case letter, or an underscore that does not stand alone, with word parts behind it; but
not one of the two words of the language. -/
def isName : List Char → Bool
  | [] => false
  | first :: rest =>
      (first.isLower || (first == '_' && !rest.isEmpty)) && rest.all isWordPart &&
        (first :: rest != ['l', 'e', 't']) && (first :: rest != ['m', 'a', 't', 'c', 'h'])

namespace Kind

def Spells (kind : Kind) (text : List Char) : Prop :=
  match kind with
  | .blank => False
  | .identifier => isName text = true
  | .atom => Layout.needsNoQuotes text = true
  | .quotedAtom => ∃ run, Text.Run '\'' run ∧ text = '\'' :: (run ++ ['\''])
  | .string => ∃ run, Text.Run '"' run ∧ text = '"' :: (run ++ ['"'])
  | other => other.spelling? = some (String.ofList text)

/-- Could a lexeme of this kind take more than its spelling? -/
def isGreedy : Kind → Bool
  | .letWord | .matchWord | .underscore | .identifier | .atom | .equals => true
  | _ => false

end Kind

/-- The text begins with nothing that would make the lexeme before it longer. -/
def Parted (text : List Char) : Prop :=
  ∀ next, text.head? = some next → isWordPart next = false ∧ next ≠ '>'

theorem parted_nil : Parted [] :=
  nofun

theorem parted_cons {first : Char} (apart : isWordPart first = false ∧ first ≠ '>')
    (rest : List Char) : Parted (first :: rest) := by
  intro next same
  cases same
  exact apart

theorem isWordPart_of_isBlank {char : Char} (blank : isBlank char = true) :
    isWordPart char = false := by
  simp only [isBlank, Bool.or_eq_true, beq_iff_eq] at blank
  rcases blank with ((rfl | rfl) | rfl) | rfl <;> decide

theorem isUpper_eq (char : Char) :
    char.isUpper = decide ('A'.val ≤ char.val ∧ char.val ≤ 'Z'.val) := rfl

theorem isLower_eq (char : Char) :
    char.isLower = (decide ('a'.val ≤ char.val) && decide (char.val ≤ 'z'.val)) := rfl

theorem isDigit_eq (char : Char) :
    char.isDigit = (decide ('0'.val ≤ char.val) && decide (char.val ≤ '9'.val)) := rfl

theorem isWordPart_eq (char : Char) :
    isWordPart char =
      (char.isUpper || char.isLower || char.isDigit || char == '_' || char == '\'') := rfl

private theorem isWordPart_of_isDigit {char : Char} (digit : char.isDigit = true) :
    isWordPart char = true := by
  simp [isWordPart_eq, digit]

private theorem isWordPart_of_isUpper {char : Char} (upper : char.isUpper = true) :
    isWordPart char = true := by
  simp [isWordPart_eq, upper]

private theorem isWordPart_of_opens {char : Char} (opens : (char.isLower || char == '_') = true) :
    isWordPart char = true := by
  rw [isWordPart_eq]
  grind

private theorem not_opens_of_isUpper {char : Char} (upper : char.isUpper = true) :
    (char.isLower || char == '_') = false := by
  have notUnderscore : char ≠ '_' := by
    intro same
    rw [same] at upper
    revert upper
    decide
  simp only [isUpper_eq, isLower_eq, UInt32.le_iff_toNat_le] at *
  grind

private theorem not_opens_of_isDigit {char : Char} (digit : char.isDigit = true) :
    (char.isLower || char == '_') = false := by
  have notUnderscore : char ≠ '_' := by
    intro same
    rw [same] at digit
    revert digit
    decide
  simp only [isDigit_eq, isLower_eq, UInt32.le_iff_toNat_le] at *
  grind

theorem not_isUpper_of_isDigit {char : Char} (digit : char.isDigit = true) :
    char.isUpper = false := by
  simp only [isDigit_eq, isUpper_eq, UInt32.le_iff_toNat_le] at *
  grind

namespace Front

theorem takeWhile_eq {continues : Char → Bool} {rest after : List Char}
    (all : rest.all continues = true)
    (stops : ∀ next, after.head? = some next → continues next = false) :
    (rest ++ after).takeWhile continues = rest ∧ (rest ++ after).dropWhile continues = after := by
  have all : ∀ char ∈ rest, continues char = true := List.all_eq_true.mp all
  rw [List.takeWhile_append_of_pos all, List.dropWhile_append_of_pos all]
  cases after with
  | nil => exact ⟨List.append_nil rest, rfl⟩
  | cons next others =>
      have stop := stops next rfl
      simp [stop]

theorem spanning_eq {kind : Kind} {first : Char} {continues : Char → Bool}
    {rest after : List Char} (all : rest.all continues = true)
    (stops : ∀ next, after.head? = some next → continues next = false) :
    spanning kind first continues (rest ++ after) = .lexeme kind (first :: rest) after := by
  obtain ⟨taken, left⟩ := takeWhile_eq all stops
  rw [spanning, taken, left]

theorem spanning_all {kind : Kind} {first : Char} {continues : Char → Bool} {rest : List Char}
    (all : rest.all continues = true) :
    spanning kind first continues rest = .lexeme kind (first :: rest) [] := by
  have whole : spanning kind first continues (rest ++ []) = .lexeme kind (first :: rest) [] :=
    spanning_eq all nofun
  rwa [List.append_nil] at whole

private theorem ofText_of_isWordPart {first : Char} (part : isWordPart first = true)
    (rest : List Char) :
    ofText first rest =
      if first.isLower || first == '_' then
        spanning (wordKind (first :: rest.takeWhile isWordPart)) first isWordPart rest
      else if first.isUpper then spanning .atom first isWordPart rest
      else if first.isDigit then spanning .atom first Char.isDigit rest
      else quoted .quotedAtom first rest := by
  have notBlank : ¬isBlank first = true := by
    intro blank
    rw [isWordPart_of_isBlank blank] at part
    cases part
  have notHash : first ≠ '#' := by
    intro same
    rw [same] at part
    revert part
    decide
  rw [ofText, if_neg notBlank, if_neg notHash]
  by_cases prime : first = '\''
  · rw [if_pos prime]
  · rw [isWordPart_eq] at part
    grind

theorem ofText_blank {first : Char} (blank : isBlank first = true) (rest : List Char) :
    ofText first rest = spanning .blank first isBlank rest := by
  rw [ofText, if_pos blank]

theorem ofText_comment (line : List Char) :
    ofText '#' line = spanning .blank '#' (· != '\n') line := by
  rw [ofText, if_neg (by decide), if_pos rfl]

theorem ofText_opens {first : Char} (opens : (first.isLower || first == '_') = true)
    (rest : List Char) :
    ofText first rest =
      spanning (wordKind (first :: rest.takeWhile isWordPart)) first isWordPart rest := by
  rw [ofText_of_isWordPart (isWordPart_of_opens opens), if_pos opens]

theorem ofText_upper {first : Char} (upper : first.isUpper = true) (rest : List Char) :
    ofText first rest = spanning .atom first isWordPart rest := by
  rw [ofText_of_isWordPart (isWordPart_of_isUpper upper), not_opens_of_isUpper upper,
    if_neg Bool.false_ne_true, if_pos upper]

theorem ofText_digit {first : Char} (digit : first.isDigit = true) (rest : List Char) :
    ofText first rest = spanning .atom first Char.isDigit rest := by
  rw [ofText_of_isWordPart (isWordPart_of_isDigit digit), not_opens_of_isDigit digit,
    not_isUpper_of_isDigit digit, if_neg Bool.false_ne_true, if_neg Bool.false_ne_true,
    if_pos digit]

private theorem ofText_word {first : Char} {rest after : List Char}
    (opens : (first.isLower || first == '_') = true) (parts : rest.all isWordPart = true)
    (parted : Parted after) :
    ofText first (rest ++ after) = .lexeme (wordKind (first :: rest)) (first :: rest) after := by
  have stops (next : Char) (starts : after.head? = some next) : isWordPart next = false :=
    (parted next starts).1
  rw [ofText_opens opens, (takeWhile_eq parts stops).1]
  exact spanning_eq parts stops

private theorem ofText_identifier {first : Char} {rest after : List Char}
    (name : isName (first :: rest) = true) (parted : Parted after) :
    ofText first (rest ++ after) = .lexeme .identifier (first :: rest) after := by
  simp only [isName, Bool.and_eq_true, bne_iff_ne] at name
  obtain ⟨⟨⟨starts, parts⟩, notLet⟩, notMatch⟩ := name
  have opens : (first.isLower || first == '_') = true := by grind
  have notAlone : first :: rest ≠ ['_'] := by
    intro same
    cases same
    revert starts
    decide
  have isIdentifier : wordKind (first :: rest) = .identifier := by
    rw [wordKind, if_neg notLet, if_neg notMatch, if_neg notAlone]
  rw [ofText_word opens parts parted, isIdentifier]

private theorem ofText_atom {first : Char} {rest after : List Char}
    (bare : Layout.needsNoQuotes (first :: rest) = true) (parted : Parted after) :
    ofText first (rest ++ after) = .lexeme .atom (first :: rest) after := by
  rw [Layout.needsNoQuotes] at bare
  split at bare
  · rename_i digit
    rw [ofText_digit digit]
    apply spanning_eq bare
    intro next starts
    have notPart := (parted next starts).1
    apply Bool.eq_false_iff.mpr
    intro digit
    rw [isWordPart_of_isDigit digit] at notPart
    cases notPart
  · rw [Bool.and_eq_true] at bare
    obtain ⟨upper, parts⟩ := bare
    rw [ofText_upper upper]
    exact spanning_eq parts fun next starts => (parted next starts).1

theorem quoted_eq {kind : Kind} {quote : Char} (notBackslash : quote ≠ '\\') {run : List Char}
    (isRun : Text.Run quote run) (after : List Char) :
    quoted kind quote (run ++ quote :: after) =
      .lexeme kind (quote :: (run ++ [quote])) after := by
  rw [quoted, Text.quotedRun_eq notBackslash isRun]
  simp only [↓reduceIte]

private theorem equals_eq {after : List Char} (parted : Parted after) :
    equals after = .lexeme .equals ['='] after := by
  unfold equals
  split
  · exact absurd rfl (parted '>' rfl).2
  · rfl

end Front

theorem eq_of_spelling {spelling : String} {text : List Char}
    (same : some spelling = some (String.ofList text)) : text = spelling.toList := by
  rw [Option.some.inj same, String.toList_ofList]

theorem Kind.Spells.eq_toList {kind : Kind} {text : List Char} {spelling : String}
    (spells : kind.Spells text) (one : kind.spelling? = some spelling) :
    text = spelling.toList := by
  cases kind <;> cases one <;> exact eq_of_spelling spells

theorem Kind.Spells.ne_blank {kind : Kind} {text : List Char} (spells : kind.Spells text) :
    kind ≠ .blank := by
  rintro rfl
  exact spells

/-- What is spelled as a kind of token is scanned as one. -/
theorem Kind.Spells.ofText {kind : Kind} {text after : List Char} (spells : kind.Spells text)
    (parted : kind.isGreedy = true → Parted after) :
    ∃ first rest, text ++ after = first :: rest ∧
      Front.ofText first rest = .lexeme kind text after := by
  cases kind with
  | blank => exact spells.elim
  | letWord =>
      obtain rfl := eq_of_spelling spells
      exact ⟨_, _, rfl, Front.ofText_word (by decide) (by decide) (parted rfl)⟩
  | matchWord =>
      obtain rfl := eq_of_spelling spells
      exact ⟨_, _, rfl, Front.ofText_word (by decide) (by decide) (parted rfl)⟩
  | underscore =>
      obtain rfl := eq_of_spelling spells
      exact ⟨_, [] ++ after, rfl, Front.ofText_word (by decide) (by decide) (parted rfl)⟩
  | identifier =>
      cases text with
      | nil => cases spells
      | cons first rest =>
          exact ⟨first, rest ++ after, rfl, Front.ofText_identifier spells (parted rfl)⟩
  | atom =>
      cases text with
      | nil => cases spells
      | cons first rest => exact ⟨first, rest ++ after, rfl, Front.ofText_atom spells (parted rfl)⟩
  | quotedAtom =>
      obtain ⟨run, isRun, rfl⟩ := spells
      refine ⟨'\'', run ++ '\'' :: after, by simp, ?_⟩
      exact Front.quoted_eq (by decide) isRun after
  | string =>
      obtain ⟨run, isRun, rfl⟩ := spells
      refine ⟨'"', run ++ '"' :: after, by simp, ?_⟩
      exact Front.quoted_eq (by decide) isRun after
  | equals =>
      obtain rfl := eq_of_spelling spells
      exact ⟨_, _, rfl, Front.equals_eq (parted rfl)⟩
  | openParen | closeParen | openBracket | closeBracket | openBrace | closeBrace | comma | colon
  | atSign | semicolon | arrow =>
      obtain rfl := eq_of_spelling spells
      exact ⟨_, _, rfl, rfl⟩

private theorem not_mem_of_needsNoQuotes {text : List Char}
    (bare : Layout.needsNoQuotes text = true) :
    '\\' ∉ text := by
  intro member
  have part : isWordPart '\\' = true := by
    cases text with
    | nil => cases bare
    | cons first rest =>
        rw [Layout.needsNoQuotes] at bare
        split at bare
        · rename_i digit
          rcases List.mem_cons.mp member with rfl | later
          · exact isWordPart_of_isDigit digit
          · exact isWordPart_of_isDigit (List.all_eq_true.mp bare _ later)
        · rw [Bool.and_eq_true] at bare
          rcases List.mem_cons.mp member with rfl | later
          · exact isWordPart_of_isUpper bare.1
          · exact List.all_eq_true.mp bare.2 _ later
  revert part
  decide

private theorem spells_wordKind {first : Char} {rest : List Char}
    (opens : (first.isLower || first == '_') = true) (parts : rest.all isWordPart = true) :
    (wordKind (first :: rest)).Spells (first :: rest) := by
  unfold wordKind
  split
  · rename_i isLet
    rw [isLet]
    rfl
  split
  · rename_i isMatch
    rw [isMatch]
    rfl
  split
  · rename_i isUnderscore
    rw [isUnderscore]
    rfl
  · rename_i notLet notMatch notAlone
    have notAlone : first.isLower = true ∨ rest ≠ [] := by grind
    simp only [Kind.Spells, isName, Bool.and_eq_true, bne_iff_ne]
    exact ⟨⟨⟨by grind, parts⟩, notLet⟩, notMatch⟩

private theorem run_of_quoted {kind kind' : Kind} {quote : Char} {rest text after : List Char}
    (found : Front.quoted kind quote rest = .lexeme kind' text after) :
    kind' = kind ∧ ∃ run, Text.Run quote run ∧ text = quote :: (run ++ [quote]) := by
  have isRun := Text.run_quotedRun quote rest
  unfold Front.quoted at found
  split at found
  · rename_i run second others cut
    rw [cut] at isRun
    split at found
    · cases found
      exact ⟨rfl, run, isRun, rfl⟩
    · cases found
  · cases found

private theorem spells_equals {kind : Kind} {rest text after : List Char}
    (found : Front.equals rest = .lexeme kind text after) : kind.Spells text := by
  unfold Front.equals at found
  split at found
  · cases found
    rfl
  · cases found
    rfl

private theorem spells_mark {kind : Kind} {first : Char} {rest text after : List Char}
    (found : Front.mark first rest = .lexeme kind text after) : kind.Spells text := by
  unfold Front.mark at found
  split at found
  · rename_i mark isMark
    cases found
    unfold markKind? at isMark
    split at isMark <;> cases isMark <;> rfl
  · cases found

theorem spells_of_first {kind : Kind} {first : Char} {rest text after : List Char}
    (notBlank : ¬isBlank first = true) (notHash : first ≠ '#')
    (found : Front.ofText first rest = .lexeme kind text after) : kind.Spells text := by
  rw [Front.ofText, if_neg notBlank, if_neg notHash] at found
  split at found
  · rename_i opens
    cases found
    exact spells_wordKind opens List.all_takeWhile
  split at found
  · rename_i upper
    cases found
    have notDigit : ¬first.isDigit = true := fun digit => by
      rw [not_isUpper_of_isDigit digit] at upper
      cases upper
    rw [Kind.Spells, Layout.needsNoQuotes, if_neg notDigit, Bool.and_eq_true]
    exact ⟨upper, List.all_takeWhile⟩
  split at found
  · rename_i digit
    cases found
    rw [Kind.Spells, Layout.needsNoQuotes, if_pos digit]
    exact List.all_takeWhile
  split at found
  · rename_i prime
    rw [prime] at found
    obtain ⟨rfl, isQuoted⟩ := run_of_quoted found
    exact isQuoted
  split at found
  · rename_i mark
    rw [mark] at found
    obtain ⟨rfl, isQuoted⟩ := run_of_quoted found
    exact isQuoted
  split at found
  · exact spells_equals found
  · exact spells_mark found

/-- What is scanned as a kind of token is spelled as one. -/
theorem spells_of_ofText {kind : Kind} {first : Char} {rest text after : List Char}
    (found : Front.ofText first rest = .lexeme kind text after) (solid : kind ≠ .blank) :
    kind.Spells text := by
  by_cases blank : isBlank first = true
  · rw [Front.ofText_blank blank] at found
    cases found
    exact absurd rfl solid
  by_cases hash : first = '#'
  · rw [hash, Front.ofText_comment] at found
    cases found
    exact absurd rfl solid
  exact spells_of_first blank hash found

namespace Token

def Spelled (token : Token) : Prop :=
  token.kind.Spells token.text.toList

private theorem spelled_place {kind : Kind} {text : List Char} (spells : kind.Spells text)
    (offset : Nat) : (place kind offset text).Spelled := by
  rwa [Spelled, place, String.toList_ofList]

theorem spelled_of_scanFrom {offset : Nat} {text : List Char} {tokens : List Token}
    (scanned : scanFrom offset text = .ok tokens) : ∀ token ∈ tokens, token.Spelled := by
  fun_induction scanFrom offset text generalizing tokens with
  | case1 offset =>
      cases scanned
      exact nofun
  | case2 offset first rest bad found => cases scanned
  | case3 offset first rest kind lexeme after found unreadable failed => cases scanned
  | case4 offset first rest lexeme after others rested found induction =>
      cases scanned
      exact induction rested
  | case5 offset first rest kind lexeme after found others rested solid induction =>
      cases scanned
      intro token member
      rcases List.mem_cons.mp member with rfl | later
      · exact spelled_place (spells_of_ofText found solid) offset
      · exact induction rested token later

theorem unquoted_of_enclosed {token : Token} {quote : Char} {run : List Char}
    (isQuote : quote = '\'' ∨ quote = '"')
    (enclosed : token.text.toList = quote :: (run ++ [quote])) :
    token.unquoted = String.ofList (Text.unescape quote run) := by
  rw [unquoted, enclosed, Text.unquote_enclosed isQuote]

variable {token : Token}

theorem Spelled.isName (spelled : token.Spelled) (isIdentifier : token.kind = .identifier) :
    isName token.text.toList = true := by
  rwa [Spelled, isIdentifier] at spelled

theorem Spelled.quotable_name (spelled : token.Spelled)
    (isAtom : token.kind ∈ [.atom, .quotedAtom]) : Text.Quotable '\'' token.name.toList := by
  simp only [List.mem_cons, List.not_mem_nil, or_false] at isAtom
  rcases isAtom with isBare | isQuoted
  · rw [Spelled, isBare] at spelled
    rw [name, if_neg (by simp [isBare])]
    exact Text.quotable_of_not_mem (not_mem_of_needsNoQuotes spelled)
  · rw [Spelled, isQuoted] at spelled
    obtain ⟨run, isRun, enclosed⟩ := spelled
    rw [name, if_pos isQuoted, unquoted_of_enclosed (.inl rfl) enclosed, String.toList_ofList]
    exact isRun.quotable (by decide)

theorem Spelled.quotable_unquoted (spelled : token.Spelled) (isString : token.kind = .string) :
    Text.Quotable '"' token.unquoted.toList := by
  rw [Spelled, isString] at spelled
  obtain ⟨run, isRun, enclosed⟩ := spelled
  rw [unquoted_of_enclosed (.inr rfl) enclosed, String.toList_ofList]
  exact isRun.quotable (by decide)

end Token

end TermScript

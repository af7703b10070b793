import TermScript.Proofs.Text.Regex
import TermScript.Proofs.Token.Spelling

namespace TermScript

open Text

namespace Kind

def wordParts : List (Char × Char) :=
  [('A', 'Z'), ('a', 'z'), ('0', '9'), ('_', '_'), ('\'', '\'')]

def rules : Kind → List Regex
  | .blank =>
      [.several (.among [(' ', ' '), ('\t', '\t'), ('\r', '\r'), ('\n', '\n')]),
        .seq (.word ['#']) (.many (.outside ['\n']))]
  | .identifier =>
      [.seq (.among [('a', 'z')]) (.many (.among wordParts)),
        .seq (.word ['_']) (.several (.among wordParts))]
  | .atom =>
      [.seq (.among [('A', 'Z')]) (.many (.among wordParts)), .several (.among [('0', '9')])]
  | .quotedAtom => [.quoted '\'']
  | .string => [.quoted '"']
  | kind => kind.spelling?.toList.map fun spelling => .word spelling.toList

def Fits (kind : Kind) (text : List Char) : Prop :=
  ∃ rule ∈ kind.rules, rule.Matches text

end Kind

private theorem between_self (bound char : Char) :
    (decide (bound ≤ char) && decide (char ≤ bound)) = (char == bound) := by
  rw [Bool.eq_iff_iff, Bool.and_eq_true, decide_eq_true_iff, decide_eq_true_iff, beq_iff_eq]
  constructor
  · exact fun bounds => Char.le_antisymm bounds.2 bounds.1
  · rintro rfl
    exact ⟨Char.le_refl _, Char.le_refl _⟩

private theorem among_blanks :
    Regex.among [(' ', ' '), ('\t', '\t'), ('\r', '\r'), ('\n', '\n')] = .one isBlank := by
  apply congrArg Regex.one
  funext char
  simp only [List.any_cons, List.any_nil, between_self, isBlank, Bool.or_false, Bool.or_assoc]

private theorem among_wordParts : Regex.among Kind.wordParts = .one isWordPart := by
  apply congrArg Regex.one
  funext char
  simp only [Kind.wordParts, List.any_cons, List.any_nil, between_self, isWordPart_eq, isUpper_eq,
    isLower_eq, isDigit_eq, Bool.or_false, Bool.or_assoc, Bool.decide_and]
  rfl

private theorem among_lower : Regex.among [('a', 'z')] = .one Char.isLower := by
  apply congrArg Regex.one
  funext char
  exact Bool.or_false _

private theorem among_upper : Regex.among [('A', 'Z')] = .one Char.isUpper := by
  apply congrArg Regex.one
  funext char
  rw [List.any_cons, List.any_nil, Bool.or_false, isUpper_eq, Bool.decide_and]
  rfl

private theorem among_digits : Regex.among [('0', '9')] = .one Char.isDigit := by
  apply congrArg Regex.one
  funext char
  exact Bool.or_false _

section

variable {kind : Kind} {text : List Char}

private theorem outside_break : Regex.outside ['\n'] = .one (· != '\n') := by
  apply congrArg Regex.one
  funext char
  rw [Bool.eq_iff_iff]
  simp

theorem fits_blank_iff :
    Kind.blank.Fits text ↔
      (∃ first rest, isBlank first = true ∧ rest.all isBlank = true ∧ text = first :: rest) ∨
        ∃ line, line.all (· != '\n') = true ∧ text = '#' :: line := by
  simp only [Kind.Fits, Kind.rules, List.mem_cons, List.not_mem_nil, or_false, exists_eq_or_imp,
    exists_eq_left, Regex.several, among_blanks, outside_break, Regex.matches_led_iff,
    Regex.matches_word_seq_iff, Regex.matches_many_one_iff, List.singleton_append]

theorem fits_identifier_iff :
    Kind.identifier.Fits text ↔ ∃ first rest, text = first :: rest ∧ rest.all isWordPart = true ∧
      (first.isLower = true ∨ first = '_' ∧ rest ≠ []) := by
  simp only [Kind.Fits, Kind.rules, List.mem_cons, List.not_mem_nil, or_false, exists_eq_or_imp,
    exists_eq_left, Regex.several, among_wordParts, among_lower, Regex.matches_led_iff,
    Regex.matches_word_seq_iff, List.singleton_append]
  constructor
  · rintro (⟨first, rest, lower, parts, rfl⟩ | ⟨_, ⟨second, rest, part, parts, rfl⟩, rfl⟩)
    · exact ⟨first, rest, rfl, parts, .inl lower⟩
    · refine ⟨'_', second :: rest, rfl, ?_, .inr ⟨rfl, List.cons_ne_nil _ _⟩⟩
      rw [List.all_cons, part, parts]
      rfl
  · rintro ⟨first, rest, rfl, parts, lower | ⟨rfl, more⟩⟩
    · exact .inl ⟨first, rest, lower, parts, rfl⟩
    · obtain ⟨second, others, rfl⟩ := List.exists_cons_of_ne_nil more
      rw [List.all_cons, Bool.and_eq_true] at parts
      exact .inr ⟨_, ⟨second, others, parts.1, parts.2, rfl⟩, rfl⟩

theorem fits_atom_iff : Kind.atom.Fits text ↔ Layout.needsNoQuotes text = true := by
  simp only [Kind.Fits, Kind.rules, List.mem_cons, List.not_mem_nil, or_false, exists_eq_or_imp,
    exists_eq_left, Regex.several, among_wordParts, among_upper, among_digits,
    Regex.matches_led_iff]
  cases text with
  | nil => simp [Layout.needsNoQuotes]
  | cons first rest =>
      rw [Layout.needsNoQuotes]
      split
      · rename_i digit
        simp [digit, not_isUpper_of_isDigit digit]
      · rename_i notDigit
        simp [notDigit]

theorem fits_of_spelling {spelling : String} (one : kind.spelling? = some spelling) :
    kind.Fits text ↔ text = spelling.toList := by
  cases kind <;> cases one <;> simp [Kind.Fits, Kind.rules, Kind.spelling?,
    Regex.matches_word_iff]

theorem fits_of_spells (spells : kind.Spells text) : kind.Fits text := by
  cases kind with
  | blank => exact spells.elim
  | identifier =>
      cases text with
      | nil => cases spells
      | cons first rest =>
          simp only [Kind.Spells, isName, Bool.and_eq_true, Bool.or_eq_true, beq_iff_eq] at spells
          obtain ⟨⟨⟨starts, parts⟩, -⟩, -⟩ := spells
          refine fits_identifier_iff.mpr ⟨first, rest, rfl, parts, ?_⟩
          grind
  | atom => exact fits_atom_iff.mpr spells
  | quotedAtom => exact ⟨_, List.mem_singleton_self _, Regex.matches_quoted_iff.mpr spells⟩
  | string => exact ⟨_, List.mem_singleton_self _, Regex.matches_quoted_iff.mpr spells⟩
  | _ => exact (fits_of_spelling rfl).mpr (eq_of_spelling spells)

theorem spells_of_fits (fits : kind.Fits text) (solid : kind ≠ .blank)
    (notIdentifier : kind ≠ .identifier) : kind.Spells text := by
  cases kind with
  | blank => exact absurd rfl solid
  | identifier => exact absurd rfl notIdentifier
  | atom => exact fits_atom_iff.mp fits
  | quotedAtom =>
      obtain ⟨rule, declared, matched⟩ := fits
      rw [List.mem_singleton.mp declared] at matched
      exact Regex.matches_quoted_iff.mp matched
  | string =>
      obtain ⟨rule, declared, matched⟩ := fits
      rw [List.mem_singleton.mp declared] at matched
      exact Regex.matches_quoted_iff.mp matched
  | _ =>
      rw [(fits_of_spelling rfl).mp fits]
      rfl

end

end TermScript

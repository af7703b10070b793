import TermScript.Proofs.Text.Quotable

namespace TermScript.Text

inductive Regex where
  | one (fits : Char → Bool)
  | word (text : List Char)
  | seq (first second : Regex)
  | either (first second : Regex)
  | many (part : Regex)

/-- The longest of the texts that fit at the front of a text. -/
structure Longest (fits : List Char → Prop) (text piece : List Char) : Prop where
  front : piece <+: text
  holds : fits piece
  longest : ∀ other, other <+: text → fits other → other.length ≤ piece.length

theorem Longest.unique {fits : List Char → Prop} {text piece piece' : List Char}
    (one : Longest fits text piece) (other : Longest fits text piece') : piece = piece' := by
  have atMost := other.longest piece one.front one.holds
  have atLeast := one.longest piece' other.front other.holds
  exact (List.prefix_of_prefix_length_le one.front other.front atMost).eq_of_length_le atLeast

namespace Regex

/-- A character of one of these ranges. -/
def among (ranges : List (Char × Char)) : Regex :=
  .one fun char => ranges.any fun (low, high) => decide (low ≤ char) && decide (char ≤ high)

def outside (excluded : List Char) : Regex :=
  .one fun char => !excluded.contains char

def several (part : Regex) : Regex :=
  .seq part (.many part)

/-- What may stand between two quotes. -/
def inside (quote : Char) : Regex :=
  .many (.either (outside [quote, '\\']) (.seq (.word ['\\']) (outside ['\n'])))

def quoted (quote : Char) : Regex :=
  .seq (.word [quote]) (.seq (inside quote) (.word [quote]))

inductive Matches : Regex → List Char → Prop
  | one {fits : Char → Bool} {char : Char} : fits char = true → Matches (.one fits) [char]
  | word (text : List Char) : Matches (.word text) text
  | seq {first second : Regex} {left right : List Char} :
      Matches first left → Matches second right → Matches (.seq first second) (left ++ right)
  | first {first second : Regex} {text : List Char} :
      Matches first text → Matches (.either first second) text
  | second {first second : Regex} {text : List Char} :
      Matches second text → Matches (.either first second) text
  | none (part : Regex) : Matches (.many part) []
  | more {part : Regex} {left right : List Char} :
      Matches part left → Matches (.many part) right → Matches (.many part) (left ++ right)

section

variable {fits starts continues : Char → Bool} {front text : List Char}

theorem matches_one_iff : (one fits).Matches text ↔ ∃ char, fits char = true ∧ text = [char] := by
  constructor
  · intro matched
    cases matched with
    | one holds => exact ⟨_, holds, rfl⟩
  · rintro ⟨char, holds, rfl⟩
    exact .one holds

theorem matches_word_iff : (word front).Matches text ↔ text = front := by
  constructor
  · intro matched
    cases matched with
    | word => rfl
  · rintro rfl
    exact .word text

theorem matches_seq_iff {first second : Regex} :
    (seq first second).Matches text ↔
      ∃ left right, first.Matches left ∧ second.Matches right ∧ text = left ++ right := by
  constructor
  · intro matched
    cases matched with
    | seq left right => exact ⟨_, _, left, right, rfl⟩
  · rintro ⟨left, right, leftMatches, rightMatches, rfl⟩
    exact .seq leftMatches rightMatches

theorem matches_either_iff {first second : Regex} :
    (either first second).Matches text ↔ first.Matches text ∨ second.Matches text := by
  constructor
  · intro matched
    cases matched with
    | first matched => exact .inl matched
    | second matched => exact .inr matched
  · rintro (matched | matched)
    · exact .first matched
    · exact .second matched

theorem matches_many_one_iff : (many (one fits)).Matches text ↔ text.all fits = true := by
  constructor
  · generalize isMany : many (one fits) = regex
    intro matched
    induction matched with
    | none part => rfl
    | more first rest _ induction =>
        cases isMany
        obtain ⟨char, holds, rfl⟩ := matches_one_iff.mp first
        rw [List.singleton_append, List.all_cons, holds, induction rfl]
        rfl
    | one | word | seq | first | second => cases isMany
  · intro all
    induction text with
    | nil => exact .none _
    | cons first rest induction =>
        rw [List.all_cons, Bool.and_eq_true] at all
        exact .more (.one all.1) (induction all.2)

theorem matches_led_iff :
    (seq (one starts) (many (one continues))).Matches text ↔
      ∃ first rest, starts first = true ∧ rest.all continues = true ∧ text = first :: rest := by
  rw [matches_seq_iff]
  constructor
  · rintro ⟨left, right, leads, follows, rfl⟩
    obtain ⟨first, holds, rfl⟩ := matches_one_iff.mp leads
    exact ⟨first, right, holds, matches_many_one_iff.mp follows, rfl⟩
  · rintro ⟨first, rest, leads, follows, rfl⟩
    exact ⟨[first], rest, .one leads, matches_many_one_iff.mpr follows, rfl⟩

theorem matches_word_seq_iff {second : Regex} :
    (seq (word front) second).Matches text ↔
      ∃ rest, second.Matches rest ∧ text = front ++ rest := by
  rw [matches_seq_iff]
  constructor
  · rintro ⟨left, right, leads, follows, rfl⟩
    rw [matches_word_iff.mp leads]
    exact ⟨right, follows, rfl⟩
  · rintro ⟨rest, follows, rfl⟩
    exact ⟨front, rest, .word front, follows, rfl⟩

end

section

variable {quote : Char} {text run : List Char}

theorem matches_inside_iff : (inside quote).Matches run ↔ Run quote run := by
  constructor
  · generalize isInside : inside quote = regex
    intro matched
    induction matched with
    | none part => exact .nil
    | more first rest _ induction =>
        cases isInside
        have isRun := induction rfl
        rcases matches_either_iff.mp first with plain | pair
        · obtain ⟨char, free, rfl⟩ := matches_one_iff.mp plain
          have free : char ≠ quote ∧ char ≠ '\\' := by simpa using free
          exact .plain free.1 free.2 isRun
        · obtain ⟨_, second, rfl⟩ := matches_word_seq_iff.mp pair
          obtain ⟨char, free, rfl⟩ := matches_one_iff.mp second
          have notBreak : char ≠ '\n' := by simpa using free
          exact .pair notBreak isRun
    | one | word | seq | first | second => cases isInside
  · intro isRun
    induction isRun with
    | nil => exact .none _
    | @plain first rest notQuote ordinary _ induction =>
        exact .more (.first (.one (by simp [notQuote, ordinary]))) induction
    | @pair second rest notBreak _ induction =>
        exact .more (.second (.seq (.word _) (.one (by simp [notBreak])))) induction

theorem matches_quoted_iff :
    (quoted quote).Matches text ↔ ∃ run, Run quote run ∧ text = quote :: (run ++ [quote]) := by
  rw [quoted, matches_word_seq_iff]
  constructor
  · rintro ⟨rest, follows, rfl⟩
    obtain ⟨run, final, isRun, closes, rfl⟩ := matches_seq_iff.mp follows
    rw [matches_word_iff.mp closes]
    exact ⟨run, matches_inside_iff.mp isRun, rfl⟩
  · rintro ⟨run, isRun, rfl⟩
    exact ⟨run ++ [quote], .seq (matches_inside_iff.mpr isRun) (.word _), rfl⟩

end

end Regex

end TermScript.Text

import Mathlib.Data.List.Induction
import TermScript.Proofs.ErrorPlaces

namespace TermScript

namespace Text

/-- The lines of a text, without the breaks between them. The last one may be empty. -/
def lines (text : List Char) : List (List Char) :=
  text.splitOn '\n'

/-- The bytes that lines take up, each with the break behind it. -/
def byteLengthOfLines : List (List Char) → Nat
  | [] => 0
  | line :: others => byteLength line + 1 + byteLengthOfLines others

private theorem byteLengthOfLines_append (above below : List (List Char)) :
    byteLengthOfLines (above ++ below) = byteLengthOfLines above + byteLengthOfLines below := by
  induction above with
  | nil => rw [List.nil_append, byteLengthOfLines, Nat.zero_add]
  | cons line others induction =>
      rw [List.cons_append, byteLengthOfLines, byteLengthOfLines, induction, ← Nat.add_assoc]

private theorem exists_first_line (text : List Char) : ∃ first after, lines text = first :: after :=
  List.exists_cons_of_ne_nil (List.splitOn_ne_nil '\n' text)

private theorem lines_break (rest : List Char) : lines ('\n' :: rest) = [] :: lines rest := by
  rw [lines, List.splitOn_cons_eq_if_modifyHead, if_pos (beq_self_eq_true _), ← lines]

private theorem lines_cons {char : Char} {rest line : List Char} {others : List (List Char)}
    (noBreak : char ≠ '\n') (split : lines rest = line :: others) :
    lines (char :: rest) = (char :: line) :: others := by
  rw [lines, List.splitOn_cons_eq_if_modifyHead, if_neg (by simpa using noBreak), ← lines, split,
    List.modifyHead_cons]

theorem lines_append {left right : List Char} {before after : List (List Char)}
    {last first : List Char} (ends : lines left = before ++ [last])
    (begins : lines right = first :: after) :
    lines (left ++ right) = before ++ (last ++ first) :: after := by
  induction left generalizing before last with
  | nil =>
      obtain ⟨rfl, rfl⟩ : before = [] ∧ [] = last := by
        simpa [lines, List.cons_eq_append_iff] using ends
      exact begins
  | cons char rest induction =>
      obtain ⟨line, others, split⟩ := exists_first_line rest
      by_cases isBreak : char = '\n'
      · subst isBreak
        rw [List.cons_append, lines_break]
        rw [lines_break] at ends
        cases before with
        | nil => exact absurd (List.cons.inj ends).2 (List.splitOn_ne_nil _ _)
        | cons head tail =>
            obtain ⟨rfl, restEnds⟩ := List.cons.inj ends
            exact congrArg _ (induction restEnds)
      · rw [lines_cons isBreak split] at ends
        cases before with
        | nil =>
            obtain ⟨rfl, rfl⟩ := List.cons.inj ends
            exact lines_cons isBreak (@induction [] _ split)
        | cons head tail =>
            obtain ⟨rfl, rfl⟩ := List.cons.inj ends
            exact lines_cons isBreak (@induction (line :: tail) _ split)

namespace Position

private theorem walk_append (start : Position) (left right : List Char) :
    start.walk (left ++ right) = (start.walk left).walk right := by
  induction left generalizing start with
  | nil => rfl
  | cons first rest induction =>
      rw [List.cons_append, walk, walk]
      split
      · exact induction _
      · exact induction _

private theorem walk_eq (text : List Char) :
    ∃ before last, lines text = before ++ [last] ∧
      walk ⟨1, 1⟩ text = ⟨before.length + 1, last.length + 1⟩ ∧
      byteLength text = byteLengthOfLines before + byteLength last := by
  induction text using List.reverseRecOn with
  | nil => exact ⟨[], [], rfl, rfl, rfl⟩
  | append_singleton front char induction =>
      obtain ⟨before, last, split, walked, bytes⟩ := induction
      rw [walk_append, walked, byteLength_append, bytes]
      by_cases isBreak : char = '\n'
      · subst isBreak
        refine ⟨before ++ [last], [], ?_, ?_, ?_⟩
        · rw [lines_append split (lines_break []), List.append_nil, List.append_assoc]
          rfl
        · rw [List.length_append]
          rfl
        · rw [byteLengthOfLines_append, Nat.add_assoc]
          rfl
      · refine ⟨before, last ++ [char], lines_append split (lines_cons isBreak rfl), ?_, ?_⟩
        · rw [walk, if_neg isBreak, List.length_append]
          rfl
        · rw [byteLength_append, Nat.add_assoc]

/-- Earlier in a text: on a line above, or further to the left on the same one. -/
def Before (first second : Position) : Prop :=
  first.line < second.line ∨ first.line = second.line ∧ first.column < second.column

theorem Before.trans {first second third : Position} (earlier : first.Before second)
    (later : second.Before third) : first.Before third := by
  unfold Before at *
  omega

private theorem before_walk (start : Position) {text : List Char} (nonempty : text ≠ []) :
    start.Before (start.walk text) := by
  induction text generalizing start with
  | nil => exact absurd rfl nonempty
  | cons first rest induction =>
      have step : start.Before (start.walk [first]) := by
        rw [walk]
        split
        · exact .inl (Nat.lt_succ_self _)
        · exact .inr ⟨rfl, Nat.lt_succ_self _⟩
      rw [← List.singleton_append, walk_append]
      by_cases more : rest = []
      · rw [more]
        exact step
      · exact step.trans (induction _ more)

/-- The position counts the lines up to the one with the offset, and the characters of that line up
to the offset; what is in front of both makes up the offset. -/
structure Names (position : Position) (text : List Char) (offset : Nat) : Prop where
  fromOne : 1 ≤ position.line ∧ 1 ≤ position.column
  lineInside : position.line ≤ (lines text).length
  offset_eq : ∃ line, (lines text)[position.line - 1]? = some line ∧
    position.column - 1 ≤ line.length ∧
    offset = byteLengthOfLines ((lines text).take (position.line - 1)) +
      byteLength (line.take (position.column - 1))

theorem Names.unique {position : Position} {text : List Char} {offset offset' : Nat}
    (names : position.Names text offset) (names' : position.Names text offset') :
    offset = offset' := by
  obtain ⟨line, onLine, -, same⟩ := names.offset_eq
  obtain ⟨line', onLine', -, same'⟩ := names'.offset_eq
  rw [onLine] at onLine'
  cases onLine'
  exact same.trans same'.symm

private theorem walk_names (front back : List Char) :
    (walk ⟨1, 1⟩ front).Names (front ++ back) (byteLength front) := by
  obtain ⟨before, last, split, walked, bytes⟩ := walk_eq front
  obtain ⟨first, after, begins⟩ := exists_first_line back
  rw [walked]
  constructor
  · exact ⟨Nat.succ_pos _, Nat.succ_pos _⟩
  · rw [lines_append split begins, List.length_append, List.length_cons]
    exact Nat.add_le_add_left (Nat.succ_pos _) _
  · rw [lines_append split begins]
    refine ⟨last ++ first, ?_, ?_, ?_⟩
    · rw [Nat.add_sub_cancel, List.getElem?_append_right (Nat.le_refl _), Nat.sub_self]
      rfl
    · rw [Nat.add_sub_cancel, List.length_append]
      exact Nat.le_add_right _ _
    · rw [Nat.add_sub_cancel, Nat.add_sub_cancel, List.take_left, List.take_left, bytes]

end Position

end Text

namespace Source

private theorem split_of_valid {source : String} {offset : Nat}
    (valid : String.Pos.Raw.IsValid source ⟨offset⟩) :
    ∃ front back, source.toList = front ++ back ∧ offset = Text.byteLength front := by
  obtain ⟨front, back, rfl, same⟩ := String.Pos.Raw.isValid_iff_exists_append.mp valid
  refine ⟨front.toList, back.toList, String.toList_append, ?_⟩
  rw [Text.byteLength_toList]
  exact congrArg String.Pos.Raw.byteIdx same

open Text

theorem names_locate {source : String} {offset : Nat}
    (valid : String.Pos.Raw.IsValid source ⟨offset⟩) :
    (locate source.toList offset).Names source.toList offset := by
  obtain ⟨front, back, split, rfl⟩ := split_of_valid valid
  rw [split, locate, upTo_append]
  exact Position.walk_names front back

theorem locate_before {source : String} {first second : Nat}
    (firstValid : String.Pos.Raw.IsValid source ⟨first⟩)
    (secondValid : String.Pos.Raw.IsValid source ⟨second⟩) (earlier : first < second) :
    (locate source.toList first).Before (locate source.toList second) := by
  obtain ⟨front, back, split, rfl⟩ := split_of_valid firstValid
  obtain ⟨front', back', split', rfl⟩ := split_of_valid secondValid
  have located : locate source.toList (byteLength front) = Position.walk ⟨1, 1⟩ front := by
    rw [split, locate, upTo_append]
  have located' : locate source.toList (byteLength front') = Position.walk ⟨1, 1⟩ front' := by
    rw [split', locate, upTo_append]
  rw [located, located']
  rcases List.append_eq_append_iff.mp (split.symm.trans split') with
    ⟨between, rfl, -⟩ | ⟨between, rfl, -⟩
  · rw [Position.walk_append]
    apply Position.before_walk
    rintro rfl
    rw [List.append_nil] at earlier
    exact Nat.lt_irrefl _ earlier
  · rw [byteLength_append] at earlier
    omega

/-- A place between two characters of a source is where its line and column say, so no two places
share a position, and later places have later positions. Behind the end there is nothing but the
position of the end. -/
theorem locate_is_lossless (source : String) :
    (∀ offset, String.Pos.Raw.IsValid source ⟨offset⟩ →
      (locate source.toList offset).Names source.toList offset) ∧
    (∀ first second, String.Pos.Raw.IsValid source ⟨first⟩ →
      String.Pos.Raw.IsValid source ⟨second⟩ →
      locate source.toList first = locate source.toList second → first = second) ∧
    (∀ first second, String.Pos.Raw.IsValid source ⟨first⟩ →
      String.Pos.Raw.IsValid source ⟨second⟩ → first < second →
      (locate source.toList first).Before (locate source.toList second)) ∧
    ∀ offset, source.utf8ByteSize ≤ offset →
      locate source.toList offset = locate source.toList source.utf8ByteSize := by
  refine ⟨fun _ => names_locate, ?_, fun _ _ => locate_before, ?_⟩
  · intro first second firstValid secondValid same
    have names := names_locate firstValid
    rw [same] at names
    exact names.unique (names_locate secondValid)
  · intro offset past
    rw [← byteLength_toList] at past ⊢
    rw [locate, locate, upTo_of_length_le _ _ past, upTo_of_length_le _ _ (Nat.le_refl _)]

theorem locate_is_lossless_accented :
    (String.Pos.Raw.IsValid "é\nab\n" ⟨4⟩ ∧
      (⟨2, 2⟩ : Position).Names "é\nab\n".toList 4) ∧
    (String.Pos.Raw.IsValid "é\nab\n" ⟨2⟩ ∧ String.Pos.Raw.IsValid "é\nab\n" ⟨6⟩ ∧
      locate "é\nab\n".toList 2 ≠ locate "é\nab\n".toList 6 ∧
      (⟨1, 2⟩ : Position).Before ⟨3, 1⟩) ∧
    locate "é\nab\n".toList 99 = ⟨3, 1⟩ := by
  have inside : String.Pos.Raw.IsValid "é\nab\n" ⟨4⟩ :=
    String.Pos.Raw.isValid_iff_exists_append.mpr ⟨"é\na", "b\n", by decide, by decide⟩
  have atBreak : String.Pos.Raw.IsValid "é\nab\n" ⟨2⟩ :=
    String.Pos.Raw.isValid_iff_exists_append.mpr ⟨"é", "\nab\n", by decide, by decide⟩
  have atEnd : String.Pos.Raw.IsValid "é\nab\n" ⟨6⟩ := String.Pos.Raw.isValid_rawEndPos
  obtain ⟨names, injective, increasing, past⟩ := locate_is_lossless "é\nab\n"
  refine ⟨⟨inside, names 4 inside⟩, ⟨atBreak, atEnd, ?_, increasing 2 6 atBreak atEnd (by decide)⟩,
    past 99 (by decide)⟩
  exact mt (injective 2 6 atBreak atEnd) (by decide)

end Source

end TermScript

import TermScript.Layout
import TermScript.Proofs.Token.Spelling

namespace TermScript

namespace Token

private theorem scanFrom_skip_blanks (offset : Nat) (text : List Char) :
    scanFrom offset text =
      scanFrom (offset + Text.byteLength (text.takeWhile isBlank)) (text.dropWhile isBlank) := by
  cases text with
  | nil => rfl
  | cons first rest =>
      by_cases blank : isBlank first = true
      · rw [scanFrom_blank (Front.ofText_blank blank rest), List.takeWhile_cons_of_pos blank,
          List.dropWhile_cons_of_pos blank]
      · rw [List.takeWhile_cons_of_neg blank, List.dropWhile_cons_of_neg blank,
          Text.byteLength_nil, Nat.add_zero]

theorem scanFrom_blanks {blanks : List Char} (blank : blanks.all isBlank = true) (offset : Nat)
    (rest : List Char) :
    scanFrom offset (blanks ++ rest) = scanFrom (offset + Text.byteLength blanks) rest := by
  have blank : ∀ char ∈ blanks, isBlank char = true := List.all_eq_true.mp blank
  rw [scanFrom_skip_blanks, List.takeWhile_append_of_pos blank, List.dropWhile_append_of_pos blank,
    Text.byteLength_append, ← Nat.add_assoc, ← scanFrom_skip_blanks]

end Token

namespace Layout

/-- The words of a layout as tokens, if it starts at the given byte offset. -/
def placed (offset : Nat) : List Piece → List Token
  | [] => []
  | .word kind text :: rest =>
      .place kind offset text.toList :: placed (offset + Text.byteLength text.toList) rest
  | .gap text :: rest => placed (offset + Text.byteLength text.toList) rest

theorem placed_append (offset : Nat) (left right : List Piece) :
    placed offset (left ++ right) =
      placed offset left ++ placed (offset + Text.byteLength (chars left)) right := by
  induction left generalizing offset with
  | nil => rfl
  | cons first rest induction =>
      rw [List.cons_append, chars_cons, Text.byteLength_append, ← Nat.add_assoc]
      cases first with
      | word kind text =>
          rw [placed, placed, induction, List.cons_append]
          rfl
      | gap text =>
          rw [placed, placed, induction]
          rfl

/-- Every word is spelled as its kind says, and what follows it in front of the given text does not
make it longer; every gap is blank. -/
def Tidy : List Piece → List Char → Prop
  | [], _ => True
  | .word kind text :: rest, after =>
      kind.Spells text.toList ∧ (kind.isGreedy = true → Parted (chars rest ++ after)) ∧
        Tidy rest after
  | .gap text :: rest, after => text.toList.all isBlank = true ∧ Tidy rest after

theorem tidy_append {left right : List Piece} {after : List Char}
    (leftTidy : Tidy left (chars right ++ after)) (rightTidy : Tidy right after) :
    Tidy (left ++ right) after := by
  induction left with
  | nil => exact rightTidy
  | cons first rest induction =>
      cases first with
      | word kind text =>
          obtain ⟨spells, parted, restTidy⟩ := leftTidy
          rw [List.cons_append]
          refine ⟨spells, ?_, induction restTidy⟩
          rwa [chars_append, List.append_assoc]
      | gap text => exact ⟨leftTidy.1, induction leftTidy.2⟩

/-- Scanning a tidy layout finds its words again. -/
theorem scanFrom_of_tidy {pieces : List Piece} (tidy : Tidy pieces []) (offset : Nat) :
    Token.scanFrom offset (chars pieces) = .ok (placed offset pieces) := by
  induction pieces generalizing offset with
  | nil => exact Token.scanFrom_nil offset
  | cons first rest induction =>
      cases first with
      | word kind text =>
          obtain ⟨spells, parted, restTidy⟩ := tidy
          rw [List.append_nil] at parted
          obtain ⟨head, others, split, found⟩ := spells.ofText parted
          rw [chars_cons, Piece.text, split, Token.scanFrom_lexeme found spells.ne_blank,
            induction restTidy]
          rfl
      | gap text =>
          rw [chars_cons, Piece.text, Token.scanFrom_blanks tidy.1, induction tidy.2]
          rfl

theorem separated_cons_cons (first second : List Piece) (others : List (List Piece)) :
    separated (first :: second :: others) =
      first ++ Piece.mark .comma :: Piece.space :: separated (second :: others) := by
  simp [separated, List.intercalate, List.intersperse]

theorem separated_singleton (part : List Piece) : separated [part] = part := by
  simp [separated, List.intercalate, List.intersperse]

/-- Tidy in front of every text that cannot run into it. -/
def Loose (pieces : List Piece) : Prop :=
  ∀ after, Parted after → Tidy pieces after

section Parts

variable {pieces : List Piece} {parts : List (List Piece)}

theorem loose_word {kind : Kind} {text : String} (spells : kind.Spells text.toList) :
    Loose [.word kind text] :=
  fun _ parted => ⟨spells, fun _ => parted, trivial⟩

theorem Loose.append {left right : List Piece} (leftLoose : Loose left) (rightLoose : Loose right)
    (meets : ∀ after, Parted after → Parted (chars right ++ after)) : Loose (left ++ right) :=
  fun after parted => tidy_append (leftLoose _ (meets after parted)) (rightLoose after parted)

theorem tidy_nil (after : List Char) : Tidy [] after :=
  trivial

theorem tidy_space {rest : List Piece} {after : List Char} (tidy : Tidy rest after) :
    Tidy (Piece.space :: rest) after :=
  ⟨by decide, tidy⟩

theorem Loose.parenthesised (loose : Loose pieces) (after : List Char) :
    Tidy (parenthesised pieces) after := by
  refine ⟨rfl, nofun, tidy_append (loose _ ?_) ⟨rfl, nofun, trivial⟩⟩
  exact parted_cons (by decide) after

theorem Loose.bracketed (loose : Loose pieces) (after : List Char) :
    Tidy (bracketed pieces) after := by
  refine ⟨rfl, nofun, tidy_append (loose _ ?_) ⟨rfl, nofun, trivial⟩⟩
  exact parted_cons (by decide) after

theorem loose_separated (loose : ∀ part ∈ parts, Loose part) : Loose (separated parts) := by
  induction parts with
  | nil => exact fun _ _ => trivial
  | cons first rest induction =>
      have firstLoose := loose first List.mem_cons_self
      have restLoose := induction fun part member => loose part (List.mem_cons_of_mem _ member)
      cases rest with
      | nil =>
          rw [separated_singleton]
          exact firstLoose
      | cons second others =>
          rw [separated_cons_cons]
          apply firstLoose.append
          · exact fun after parted => ⟨rfl, nofun, tidy_space (restLoose after parted)⟩
          · exact fun after _ => parted_cons (by decide) _

theorem parted_arguments {after : List Char} (parted : Parted after) :
    Parted (chars (arguments parts) ++ after) := by
  unfold arguments
  split
  · exact parted
  · exact parted_cons (by decide) _

theorem loose_arguments (loose : ∀ part ∈ parts, Loose part) : Loose (arguments parts) := by
  intro after parted
  unfold arguments
  split
  · trivial
  · exact (loose_separated loose).parenthesised after

theorem Loose.joined {head tail : List Piece} (headLoose : Loose head) (tailLoose : Loose tail) :
    Loose (joined head tail) := by
  unfold Layout.joined
  rw [List.append_assoc]
  apply headLoose.append
  · exact fun after parted => tidy_space ⟨rfl, nofun, tidy_space (tailLoose after parted)⟩
  · exact fun after _ => parted_cons (by decide) _

private theorem spells_enquote {kind : Kind} {quote : Char} {text : String}
    (spells : ∀ run, Text.Run quote run → kind.Spells (quote :: (run ++ [quote])))
    (notBackslash : quote ≠ '\\') (notBreak : quote ≠ '\n')
    (quotable : Text.Quotable quote text.toList) : kind.Spells (quotedText quote text).toList := by
  rw [quotedText, String.toList_ofList]
  exact spells _ (quotable.run_escape notBackslash notBreak)

theorem loose_string {text : String} (quotable : Text.Quotable '"' text.toList) :
    Loose [Layout.string text] :=
  loose_word (spells_enquote (fun run isRun => ⟨run, isRun, rfl⟩) (by decide) (by decide) quotable)

theorem loose_functor {name : String} (quotable : Text.Quotable '\'' name.toList) :
    Loose [functor name] := by
  unfold functor
  split
  · rename_i bare
    exact loose_word bare
  · exact loose_word
      (spells_enquote (fun run isRun => ⟨run, isRun, rfl⟩) (by decide) (by decide) quotable)

end Parts

end Layout

end TermScript

import TermScript.Proofs.Rule.Places
import TermScript.Proofs.Token.Lossless

namespace TermScript

open Text

namespace Front

variable {first : Char} {more right : List Char}

/-- Whatever lexeme the first text starts with, the second text starts with as well; it only has
more behind it. -/
private def Extends (more : List Char) (front front' : Front) : Prop :=
  ∀ ⦃kind : Kind⦄ ⦃piece after : List Char⦄, front = .lexeme kind piece after →
    front' = .lexeme kind piece (after ++ more)

private theorem Extends.ite {condition : Prop} [Decidable condition]
    {front front' other other' : Front} (holds : condition → Extends more front front')
    (fails : ¬condition → Extends more other other') :
    Extends more (if condition then front else other) (if condition then front' else other') := by
  by_cases decided : condition
  · rw [if_pos decided, if_pos decided]
    exact holds decided
  · rw [if_neg decided, if_neg decided]
    exact fails decided

private theorem takeWhile_break {continues : Char → Bool} (breaks : continues '\n' = false)
    (rest right : List Char) :
    (rest ++ '\n' :: right).takeWhile continues = rest.takeWhile continues := by
  induction rest with
  | nil => simp [breaks]
  | cons head tail induction =>
      rw [List.cons_append, List.takeWhile_cons, List.takeWhile_cons, induction]

private theorem dropWhile_break {continues : Char → Bool} (breaks : continues '\n' = false)
    (rest right : List Char) :
    (rest ++ '\n' :: right).dropWhile continues =
      rest.dropWhile continues ++ '\n' :: right := by
  induction rest with
  | nil => simp [breaks]
  | cons head tail induction =>
      rw [List.cons_append, List.dropWhile_cons, List.dropWhile_cons, induction]
      split <;> rfl

private theorem extends_spanning (kind : Kind) {continues : Char → Bool}
    (breaks : continues '\n' = false) (rest : List Char) :
    Extends ('\n' :: right) (spanning kind first continues rest)
      (spanning kind first continues (rest ++ '\n' :: right)) := by
  intro kind piece after found
  cases found
  rw [spanning, takeWhile_break breaks, dropWhile_break breaks]

private theorem extends_quoted (kind : Kind) {quote : Char} (notBackslash : quote ≠ '\\')
    (rest : List Char) :
    Extends more (quoted kind quote rest) (quoted kind quote (rest ++ more)) := by
  intro kind' piece after found
  have isRun := run_quotedRun quote rest
  have whole := quotedRun_append quote rest
  unfold quoted at found
  split at found
  · rename_i run second others cut
    rw [cut] at isRun whole
    split at found
    · rename_i closes
      subst closes
      cases found
      rw [← whole, List.append_assoc, List.cons_append]
      exact quoted_eq notBackslash isRun _
    · cases found
  · cases found

private theorem extends_equals (rest : List Char) :
    Extends ('\n' :: right) (equals rest) (equals (rest ++ '\n' :: right)) := by
  intro kind piece after found
  unfold equals at found
  split at found
  · cases found
    rfl
  · rename_i notArrow
    cases found
    unfold equals
    split
    · rename_i tail same
      cases rest with
      | nil => cases same
      | cons head others =>
          cases same
          exact (notArrow _ rfl).elim
    · rfl

private theorem extends_mark (rest : List Char) :
    Extends more (mark first rest) (mark first (rest ++ more)) := by
  intro kind piece after found
  unfold mark at *
  split at found
  · cases found
    rfl
  · cases found

theorem extends_ofText (notBlank : ¬isBlank first = true) (rest : List Char) :
    Extends ('\n' :: right) (ofText first rest) (ofText first (rest ++ '\n' :: right)) := by
  rw [ofText, ofText, if_neg notBlank, if_neg notBlank, takeWhile_break (by decide)]
  refine .ite (fun _ => extends_spanning _ (by decide) rest) fun _ => ?_
  refine .ite (fun _ => extends_spanning _ (by decide) rest) fun _ => ?_
  refine .ite (fun _ => extends_spanning _ (by decide) rest) fun _ => ?_
  refine .ite (fun _ => extends_spanning _ (by decide) rest) fun _ => ?_
  refine .ite (fun opens => extends_quoted _ (opens ▸ by decide) rest) fun _ => ?_
  refine .ite (fun opens => extends_quoted _ (opens ▸ by decide) rest) fun _ => ?_
  exact .ite (fun _ => extends_equals rest) fun _ => extends_mark rest

end Front

private theorem Text.byteLength_break (rest : List Char) :
    byteLength ('\n' :: rest) = 1 + byteLength rest := rfl

namespace Token

private theorem scanFrom_break_char (offset : Nat) (right : List Char) :
    scanFrom offset ('\n' :: right) = scanFrom (offset + 1) right :=
  @scanFrom_blanks ['\n'] (by decide) offset right

theorem scanFrom_break {offset : Nat} {left : List Char} {tokens : List Token}
    (scanned : scanFrom offset left = .ok tokens) (right : List Char) :
    scanFrom offset (left ++ '\n' :: right) =
      (scanFrom (offset + byteLength left + 1) right).map (tokens ++ ·) := by
  fun_induction scanFrom offset left generalizing tokens with
  | case1 offset =>
      cases scanned
      rw [List.nil_append, scanFrom_break_char, map_nil_append]
      rfl
  | case2 offset first rest bad found => cases scanned
  | case3 offset first rest kind lexeme after found unreadable failed => cases scanned
  | case4 offset first rest lexeme after others rested found induction =>
      have splits := Front.ofText_splits first rest
      rw [found] at splits
      cases scanned
      have whole := induction rested
      rw [← splits.2, byteLength_append, ← Nat.add_assoc, ← whole]
      by_cases blank : isBlank first = true
      · -- The row of blanks may go on behind the seam.
        rw [Front.ofText_blank blank] at found
        cases found
        rw [List.append_assoc]
        exact scanFrom_blanks (by simp [blank]) offset _
      · rw [splits.2]
        exact scanFrom_blank (Front.extends_ofText blank rest found) offset
  | case5 offset first rest kind lexeme after found others rested solid induction =>
      have splits := Front.ofText_splits first rest
      rw [found] at splits
      have notBlank : ¬isBlank first = true := by
        intro blank
        rw [Front.ofText_blank blank] at found
        cases found
        exact solid rfl
      cases scanned
      rw [List.cons_append, scanFrom_lexeme (Front.extends_ofText notBlank rest found) solid,
        induction rested, ← splits.2, byteLength_append, ← Nat.add_assoc]
      exact map_append_append _ [_] _

theorem scanFrom_shifted (bytes offset : Nat) (text : List Char) :
    scanFrom (offset + bytes) text =
      ((scanFrom offset text).map (List.map (Token.shifted bytes))).mapError
        (Unreadable.shifted bytes) := by
  fun_induction scanFrom offset text with
  | case1 offset => rw [scanFrom_nil]; rfl
  | case2 offset first rest bad found => rw [scanFrom_unreadable found]; rfl
  | case3 offset first rest kind lexeme after found unreadable failed induction =>
      rw [failed, Nat.add_right_comm] at induction
      by_cases blank : kind = .blank
      · subst blank
        rw [scanFrom_blank found, induction]
      · rw [scanFrom_lexeme found blank, induction]
        rfl
  | case4 offset first rest lexeme after others rested found induction =>
      rw [rested, Nat.add_right_comm] at induction
      rw [scanFrom_blank found, induction]
  | case5 offset first rest kind lexeme after found others rested solid induction =>
      rw [rested, Nat.add_right_comm] at induction
      rw [scanFrom_lexeme found solid, induction]
      rfl

theorem scan_append_break {left : String} {tokens : List Token} (scanned : scan left = .ok tokens)
    (right : String) :
    scan (left ++ "\n" ++ right) =
      ((scan right).map fun others =>
        tokens ++ others.map (Token.shifted (left.utf8ByteSize + 1))).mapError
          (Unreadable.shifted (left.utf8ByteSize + 1)) := by
  have size : byteLength left.toList = left.utf8ByteSize := by
    rw [← utf8ByteSize_ofList, String.ofList_toList]
  have lines : (left ++ "\n" ++ right).toList = left.toList ++ '\n' :: right.toList := by simp
  rw [scan, lines, scanFrom_break scanned, size, Nat.add_assoc, scanFrom_shifted, scan]
  generalize scanFrom 0 right.toList = outcome
  cases outcome <;> rfl

end Token

/-- Blank characters, and comments with the ends of their lines. -/
inductive Space : List Char → Prop
  | nil : Space []
  | blank {first : Char} {rest : List Char} :
      isBlank first = true → Space rest → Space (first :: rest)
  | comment {line rest : List Char} :
      line.all (· != '\n') = true → Space rest → Space ('#' :: (line ++ '\n' :: rest))

theorem Token.scanFrom_space {space : List Char} (isSpace : Space space) (offset : Nat)
    (rest : List Char) :
    scanFrom offset (space ++ rest) = scanFrom (offset + byteLength space) rest := by
  induction isSpace generalizing offset with
  | nil => rfl
  | @blank first others blank _ induction =>
      rw [byteLength_cons, ← Nat.add_assoc, ← induction, List.cons_append]
      exact @scanFrom_blanks [first] (by simp [blank]) offset _
  | @comment line others comment _ induction =>
      have found : Front.ofText '#' (line ++ '\n' :: (others ++ rest)) =
          .lexeme .blank ('#' :: line) ('\n' :: (others ++ rest)) := by
        rw [Front.ofText_comment]
        apply Front.spanning_eq comment
        intro next starts
        cases starts
        rfl
      rw [List.cons_append, List.append_assoc, List.cons_append, scanFrom_blank found,
        scanFrom_break_char, induction, ← List.cons_append, byteLength_append, byteLength_break]
      simp only [Nat.add_assoc]

private theorem Space.parted {space : List Char} (isSpace : Space space) (nonempty : space ≠ [])
    (rest : List Char) : Parted (space ++ rest) := by
  cases isSpace with
  | nil => exact absurd rfl nonempty
  | blank blank _ =>
      refine parted_cons ⟨isWordPart_of_isBlank blank, ?_⟩ _
      intro same
      rw [same] at blank
      cases blank
  | comment => exact parted_cons (by decide) _

namespace Layout

/-- The words of the tokens, each with its space behind it. -/
def spaced : List Token → List String → List Piece
  | token :: tokens, space :: spaces =>
      .word token.kind token.text :: .gap space :: spaced tokens spaces
  | _, _ => []

variable {tokens : List Token} {spaces : List String}

theorem scanFrom_spaced (spelled : ∀ token ∈ tokens, token.Spelled)
    (areSpaces : ∀ space ∈ spaces, Space space.toList ∧ space ≠ "") (offset : Nat) :
    Token.scanFrom offset (chars (spaced tokens spaces)) =
      .ok (placed offset (spaced tokens spaces)) := by
  induction tokens generalizing spaces offset with
  | nil => exact Token.scanFrom_nil offset
  | cons token others induction =>
      cases spaces with
      | nil => exact Token.scanFrom_nil offset
      | cons space spaces =>
          obtain ⟨tokenSpelled, othersSpelled⟩ := List.forall_mem_cons.mp spelled
          obtain ⟨⟨isSpace, nonempty⟩, areSpaces⟩ := List.forall_mem_cons.mp areSpaces
          have parted := isSpace.parted (by simpa using nonempty) (chars (spaced others spaces))
          obtain ⟨first, rest, split, found⟩ := tokenSpelled.ofText fun _ => parted
          rw [spaced, chars_cons, chars_cons, Piece.text, Piece.text, split,
            Token.scanFrom_lexeme found tokenSpelled.ne_blank, Token.scanFrom_space isSpace,
            induction othersSpelled areSpaces]
          rfl

theorem sameWords_placed_spaced (onePerToken : spaces.length = tokens.length) (offset : Nat) :
    List.Forall₂ Token.SameWord tokens (placed offset (spaced tokens spaces)) := by
  induction tokens generalizing spaces offset with
  | nil => exact .nil
  | cons token others induction =>
      cases spaces with
      | nil => cases onePerToken
      | cons space spaces =>
          refine .cons ⟨rfl, ?_⟩ (induction (Nat.succ.inj onePerToken) _)
          exact String.ofList_toList.symm

end Layout

end TermScript

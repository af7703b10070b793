import TermScript.Proofs.Layout.Tidy
import TermScript.Proofs.Token.Munch

/-! A text is cut from the left, each time at the end of the longest piece that a rule matches. Such
a cut is what scanning finds. -/

namespace TermScript

open Text

namespace Piece

/-- A lexeme in a layout; blanks are gaps. -/
def ofLexeme (kind : Kind) (text : List Char) : Piece :=
  if kind = .blank then .gap (String.ofList text) else .word kind (String.ofList text)

@[simp] theorem toList_text_ofLexeme (kind : Kind) (text : List Char) :
    (ofLexeme kind text).text.toList = text := by
  unfold ofLexeme
  split
  · exact String.toList_ofList
  · exact String.toList_ofList

end Piece

/-- The text can be cut into these pieces, up to the given rest. -/
inductive Cuts : List Char → List Piece → List Char → Prop
  | here (rest : List Char) : Cuts rest [] rest
  | lexeme {kind : Kind} {piece after rest : List Char} {pieces : List Piece} :
      Longest Readable (piece ++ after) piece → kind.Claims piece → Cuts after pieces rest →
      Cuts (piece ++ after) (.ofLexeme kind piece :: pieces) rest

/-- What becomes of a text: its pieces that are no gaps, or the place where no rule matches. -/
inductive Tokenizes (text : List Char) : Except Unreadable (List Token) → Prop
  | whole {pieces : List Piece} :
      Cuts text pieces [] → Tokenizes text (.ok (Layout.placed 0 pieces))
  | stuck {pieces : List Piece} {rest bad : List Char} :
      Cuts text pieces rest → Stuck rest → Extent rest bad →
      Tokenizes text (.error
        ⟨String.ofList bad, ⟨byteLength (Layout.chars pieces), byteLength bad⟩⟩)

theorem exists_cuts (text : List Char) :
    ∃ pieces rest, Cuts text pieces rest ∧ (rest = [] ∨ ∃ bad, Stuck rest ∧ Extent rest bad) := by
  match text with
  | [] => exact ⟨[], [], .here [], .inl rfl⟩
  | first :: rest =>
      cases found : Front.ofText first rest with
      | unreadable bad =>
          exact ⟨[], first :: rest, .here _, .inr ⟨bad, ofText_eq_unreadable_iff.mp found⟩⟩
      | lexeme kind piece after =>
          obtain ⟨longest, claims, split⟩ := ofText_eq_lexeme_iff.mp found
          obtain ⟨pieces, final, cuts, ends⟩ := exists_cuts after
          rw [split] at longest ⊢
          exact ⟨_, final, .lexeme longest claims cuts, ends⟩
termination_by text.length
decreasing_by exact Front.length_of_ofText found

theorem exists_tokenizes (text : List Char) : ∃ outcome, Tokenizes text outcome := by
  obtain ⟨pieces, rest, cuts, rfl | ⟨bad, stuck, extent⟩⟩ := exists_cuts text
  · exact ⟨_, .whole cuts⟩
  · exact ⟨_, .stuck cuts stuck extent⟩

namespace Token

theorem map_nil_append (outcome : Except Unreadable (List Token)) :
    outcome.map ([] ++ ·) = outcome := by
  cases outcome with
  | error unreadable => rfl
  | ok tokens => rfl

theorem map_append_append (outcome : Except Unreadable (List Token)) (left right : List Token) :
    (outcome.map (right ++ ·)).map (left ++ ·) = outcome.map (left ++ right ++ ·) := by
  cases outcome with
  | error unreadable => rfl
  | ok tokens => exact congrArg Except.ok (List.append_assoc left right tokens).symm

private theorem scanFrom_ofLexeme {kind : Kind} {first : Char} {rest piece after : List Char}
    (found : Front.ofText first rest = .lexeme kind piece after) (offset : Nat) :
    scanFrom offset (first :: rest) =
      (scanFrom (offset + byteLength piece) after).map
        (Layout.placed offset [.ofLexeme kind piece] ++ ·) := by
  unfold Piece.ofLexeme
  split
  · rename_i blank
    subst blank
    rw [scanFrom_blank found]
    exact (map_nil_append _).symm
  · rename_i solid
    rw [scanFrom_lexeme found solid, Layout.placed, String.toList_ofList]
    rfl

theorem scanFrom_of_cuts {text rest : List Char} {pieces : List Piece}
    (cuts : Cuts text pieces rest) (offset : Nat) :
    scanFrom offset text =
      (scanFrom (offset + byteLength (Layout.chars pieces)) rest).map
        (Layout.placed offset pieces ++ ·) := by
  induction cuts generalizing offset with
  | here rest => exact (map_nil_append _).symm
  | @lexeme kind piece after rest pieces longest claims cuts induction =>
      obtain ⟨first, others, split, -⟩ := claims.1.covers after
      rw [split] at longest
      have found := ofText_eq_lexeme_iff.mpr ⟨longest, claims, split.symm⟩
      have placed : Layout.placed offset (.ofLexeme kind piece :: pieces) =
          Layout.placed offset [.ofLexeme kind piece] ++
            Layout.placed (offset + byteLength piece) pieces := by
        rw [← List.singleton_append, Layout.placed_append, Layout.chars_cons, Layout.chars_nil,
          List.append_nil, Piece.toList_text_ofLexeme]
      rw [split, scanFrom_ofLexeme found, induction, map_append_append, placed,
        Layout.chars_cons, Piece.toList_text_ofLexeme, byteLength_append, Nat.add_assoc]

theorem scan_of_tokenizes {source : String} {outcome : Except Unreadable (List Token)}
    (tokenizes : Tokenizes source.toList outcome) : scan source = outcome := by
  cases tokenizes with
  | whole cuts =>
      rw [scan, scanFrom_of_cuts cuts, scanFrom_nil]
      exact congrArg Except.ok (List.append_nil _)
  | @stuck pieces rest bad cuts stuck extent =>
      obtain ⟨first, others, rfl⟩ := List.exists_cons_of_ne_nil stuck.1
      rw [scan, scanFrom_of_cuts cuts,
        scanFrom_unreadable (ofText_eq_unreadable_iff.mpr ⟨stuck, extent⟩), Nat.zero_add]
      rfl

theorem tokenizes_scan (source : String) : Tokenizes source.toList (scan source) := by
  obtain ⟨outcome, tokenizes⟩ := exists_tokenizes source.toList
  rwa [scan_of_tokenizes tokenizes]

/-- Scanning finds the cut by longest matches, and fails where no rule matches. -/
theorem scan_eq_iff_tokenizes (source : String) (outcome : Except Unreadable (List Token)) :
    scan source = outcome ↔ Tokenizes source.toList outcome := by
  constructor
  · rintro rfl
    exact tokenizes_scan source
  · exact scan_of_tokenizes

end Token

end TermScript

import TermScript.Proofs.Token.Cutting

namespace TermScript

open Text

theorem Text.utf8ByteSize_ofList (text : List Char) :
    (String.ofList text).utf8ByteSize = byteLength text := by
  induction text with
  | nil => rw [String.ofList_nil, String.utf8ByteSize_empty, byteLength_nil]
  | cons first rest induction =>
      rw [← List.singleton_append, String.ofList_append, String.utf8ByteSize_append, induction,
        ← String.singleton_eq_ofList, String.utf8ByteSize_singleton, List.singleton_append,
        byteLength_cons]

private theorem Text.extract_middle (before text after : ByteArray) :
    (before ++ (text ++ after)).extract before.size (before.size + text.size) = text := by
  have moved : (before ++ (text ++ after)).extract (before.size + 0) (before.size + text.size) =
      (text ++ after).extract 0 text.size :=
    ByteArray.extract_append_size_add
  rw [Nat.add_zero] at moved
  rw [moved]
  exact ByteArray.extract_append_eq_left rfl

/-- The span is a part of the source that is not empty, starts and ends between characters, and has
the bytes of the text. -/
structure Span.Marks (span : Span) (source text : String) : Prop where
  nonempty : 0 < span.len
  start : String.Pos.Raw.IsValid source ⟨span.offset⟩
  stop : String.Pos.Raw.IsValid source ⟨span.stop⟩
  bytes : source.toByteArray.extract span.offset span.stop = text.toByteArray

theorem Span.marks_append {before text : List Char} (nonempty : text ≠ []) (after : List Char) :
    Span.Marks ⟨byteLength before, byteLength text⟩ (String.ofList (before ++ (text ++ after)))
      (String.ofList text) := by
  obtain ⟨first, rest, rfl⟩ := List.exists_cons_of_ne_nil nonempty
  constructor
  · exact byteLength_pos first rest
  · rw [String.ofList_append]
    apply String.Pos.Raw.IsValid.append_right
    exact String.Pos.Raw.isValid_of_eq_rawEndPos
      (String.Pos.Raw.ext (utf8ByteSize_ofList before).symm)
  · rw [← List.append_assoc, String.ofList_append]
    apply String.Pos.Raw.IsValid.append_right
    apply String.Pos.Raw.isValid_of_eq_rawEndPos
    apply String.Pos.Raw.ext
    exact (byteLength_append before _).symm.trans (utf8ByteSize_ofList _).symm
  · simp only [String.ofList_append, String.toByteArray_append, Span.stop]
    rw [← utf8ByteSize_ofList before, ← utf8ByteSize_ofList (first :: rest),
      ← String.size_toByteArray, ← String.size_toByteArray]
    exact extract_middle _ _ _

/-- Blank characters, and comments up to the end of their line, with the given text behind. -/
inductive Gap : List Char → List Char → Prop
  | nil (after : List Char) : Gap [] after
  | blank {first : Char} {rest after : List Char} :
      isBlank first = true → Gap rest after → Gap (first :: rest) after
  | comment {line rest after : List Char} :
      line.all (· != '\n') = true → (∀ next, (rest ++ after).head? = some next → next = '\n') →
      Gap rest after → Gap ('#' :: (line ++ rest)) after

/-- Gaps and the texts of the tokens, none of them empty, make up the text that starts at the given
byte offset, in order; every token spans its own bytes. -/
inductive Woven : Nat → List Char → List Token → Prop
  | gap {offset : Nat} {gap : List Char} : Gap gap [] → Woven offset gap []
  | token {offset : Nat} {gap rest : List Char} {token : Token} {tokens : List Token} :
      token.text.toList ≠ [] → Gap gap (token.text.toList ++ rest) →
      token.span = ⟨offset + byteLength gap, byteLength token.text.toList⟩ →
      Woven token.span.stop rest tokens →
      Woven offset (gap ++ (token.text.toList ++ rest)) (token :: tokens)

private theorem Gap.blanks {blanks gap after : List Char} (blank : blanks.all isBlank = true)
    (rest : Gap gap after) : Gap (blanks ++ gap) after := by
  induction blanks with
  | nil => exact rest
  | cons first others induction =>
      rw [List.all_cons, Bool.and_eq_true] at blank
      exact .blank blank.1 (induction blank.2)

private theorem break_of_longest {line after : List Char} (comment : line.all (· != '\n') = true)
    (longest : Longest Readable ('#' :: (line ++ after)) ('#' :: line)) :
    ∀ next, after.head? = some next → next = '\n' := by
  intro next starts
  refine Decidable.byContradiction fun notBreak => ?_
  obtain ⟨rest, rfl⟩ := List.head?_eq_some_iff.mp starts
  have fits : Kind.blank.Fits ('#' :: (line ++ [next])) := by
    refine fits_blank_iff.mpr (.inr ⟨line ++ [next], ?_, rfl⟩)
    simp [comment, notBreak]
  have atMost := longest.longest _ ⟨rest, by simp⟩ ⟨.blank, fits⟩
  simp only [List.length_cons, List.length_append, List.length_nil] at atMost
  omega

private theorem Gap.prepend {piece gap after : List Char} (fits : Kind.blank.Fits piece)
    (longest : Longest Readable (piece ++ (gap ++ after)) piece) (rest : Gap gap after) :
    Gap (piece ++ gap) after := by
  rcases fits_blank_iff.mp fits with ⟨first, others, blank, blanks, rfl⟩ | ⟨line, comment, rfl⟩
  · exact .blank blank (rest.blanks blanks)
  · exact .comment comment (break_of_longest comment longest) rest

private theorem Woven.prepend {offset : Nat} {piece after : List Char} {tokens : List Token}
    (fits : Kind.blank.Fits piece) (longest : Longest Readable (piece ++ after) piece)
    (woven : Woven (offset + byteLength piece) after tokens) :
    Woven offset (piece ++ after) tokens := by
  cases woven with
  | gap rest =>
      rw [← List.append_nil after] at longest
      exact .gap (rest.prepend fits longest)
  | @token _ gap rest token tokens solid between spans woven =>
      rw [← List.append_assoc]
      refine .token solid (between.prepend fits longest) ?_ woven
      rw [spans, byteLength_append, Nat.add_assoc]

private theorem Woven.place {offset : Nat} {piece after : List Char} {tokens : List Token}
    (solid : piece ≠ []) (kind : Kind) (woven : Woven (offset + byteLength piece) after tokens) :
    Woven offset (piece ++ after) (.place kind offset piece :: tokens) := by
  have text : (Token.place kind offset piece).text.toList = piece := String.toList_ofList
  rw [← text] at solid
  have whole : Woven offset ([] ++ ((Token.place kind offset piece).text.toList ++ after))
      (.place kind offset piece :: tokens) :=
    .token solid (.nil _) (by rw [text]; rfl) woven
  rwa [List.nil_append, text] at whole

private theorem Kind.Claims.ne_nil {kind : Kind} {piece : List Char} (claims : kind.Claims piece) :
    piece ≠ [] := by
  obtain ⟨first, rest, rfl, -⟩ := claims.takes
  exact List.cons_ne_nil first rest

theorem woven_of_cuts {text rest : List Char} {pieces : List Piece} (cuts : Cuts text pieces rest)
    (whole : rest = []) (offset : Nat) : Woven offset text (Layout.placed offset pieces) := by
  induction cuts generalizing offset with
  | here rest =>
      subst whole
      exact .gap (.nil _)
  | @lexeme kind piece after rest pieces longest claims cuts induction =>
      have woven := induction whole (offset + byteLength piece)
      unfold Piece.ofLexeme
      split
      · rename_i blank
        subst blank
        rw [Layout.placed, String.toList_ofList]
        exact woven.prepend claims.1 longest
      · rw [Layout.placed, String.toList_ofList]
        exact woven.place claims.ne_nil kind

theorem Woven.marks {offset : Nat} {text : List Char} {tokens : List Token}
    (woven : Woven offset text tokens) {before : List Char} (starts : byteLength before = offset) :
    ∀ token ∈ tokens, token.span.Marks (String.ofList (before ++ text)) token.text := by
  induction woven generalizing before with
  | gap => exact nofun
  | @token offset gap rest token tokens solid between spans woven induction =>
      have first : token.span.Marks (String.ofList (before ++ gap ++ (token.text.toList ++ rest)))
          (String.ofList token.text.toList) := by
        rw [spans, ← starts, ← byteLength_append]
        exact Span.marks_append solid rest
      have stops : byteLength (before ++ gap ++ token.text.toList) = token.span.stop := by
        rw [byteLength_append, byteLength_append, starts, Span.stop, spans]
      have others := induction stops
      rw [String.ofList_toList, List.append_assoc] at first
      rw [List.append_assoc, List.append_assoc] at others
      intro other member
      rcases List.mem_cons.mp member with rfl | later
      · exact first
      · exact others other later

private theorem Woven.offset_le {offset : Nat} {text : List Char} {tokens : List Token}
    (woven : Woven offset text tokens) : ∀ token ∈ tokens, offset ≤ token.span.offset := by
  induction woven with
  | gap => exact nofun
  | @token offset gap rest token tokens solid between spans woven induction =>
      intro other member
      rcases List.mem_cons.mp member with rfl | later
      · rw [spans]
        exact Nat.le_add_right _ _
      · have behind := induction other later
        rw [Span.stop, spans] at behind
        dsimp only at behind
        omega

theorem Woven.pairwise {offset : Nat} {text : List Char} {tokens : List Token}
    (woven : Woven offset text tokens) :
    tokens.Pairwise fun first second => first.span.stop ≤ second.span.offset := by
  induction woven with
  | gap => exact .nil
  | token solid between spans woven induction => exact .cons woven.offset_le induction

/-- The tokens of a source are parts of it, one after the other, with nothing but gaps between. -/
structure Lossless (source : String) (tokens : List Token) : Prop where
  marks : ∀ token ∈ tokens, token.span.Marks source token.text
  ordered : tokens.Pairwise fun first second =>
    first.span.offset < second.span.offset ∧ first.span.stop ≤ second.span.offset
  woven : Woven 0 source.toList tokens

/-- What is unreadable is a part of the source, and the source up to there is readable. -/
structure BreaksOff (source : String) (unreadable : Unreadable) : Prop where
  marks : unreadable.span.Marks source unreadable.text
  readable : ∃ before after, source = before ++ after ∧
    before.utf8ByteSize = unreadable.span.offset ∧ ∃ tokens, Token.scan before = .ok tokens

/-- How the outcome of scanning accounts for every byte of the source. -/
def Accounts (source : String) : Except Unreadable (List Token) → Prop
  | .ok tokens => Lossless source tokens
  | .error unreadable => BreaksOff source unreadable

theorem lossless_of_cuts {source : String} {pieces : List Piece}
    (cuts : Cuts source.toList pieces []) : Lossless source (Layout.placed 0 pieces) := by
  have woven := woven_of_cuts cuts rfl 0
  have marks := woven.marks byteLength_nil
  rw [List.nil_append, String.ofList_toList] at marks
  refine ⟨marks, ?_, woven⟩
  refine woven.pairwise.imp_of_mem fun {first second} member _ behind => ⟨?_, behind⟩
  have solid := (marks first member).nonempty
  rw [Span.stop] at behind
  omega

theorem Cuts.eq_append {text rest : List Char} {pieces : List Piece}
    (cuts : Cuts text pieces rest) :
    text = Layout.chars pieces ++ rest := by
  induction cuts with
  | here rest => rfl
  | lexeme longest claims cuts induction =>
      rw [Layout.chars_cons, Piece.toList_text_ofLexeme, List.append_assoc, ← induction]

private theorem Cuts.drop_rest {text rest : List Char} {pieces : List Piece}
    (cuts : Cuts text pieces rest) :
    Cuts (Layout.chars pieces) pieces [] := by
  induction cuts with
  | here rest => exact .here []
  | @lexeme kind piece after rest pieces longest claims cuts induction =>
      rw [Layout.chars_cons, Piece.toList_text_ofLexeme]
      refine .lexeme ⟨List.prefix_append _ _, longest.holds, ?_⟩ claims induction
      intro other front readable
      refine longest.longest other (front.trans ?_) readable
      rw [cuts.eq_append, ← List.append_assoc]
      exact List.prefix_append _ _

private theorem Extent.prefix_ne_nil {text bad : List Char} (extent : Extent text bad) :
    bad <+: text ∧ bad ≠ [] := by
  obtain ⟨first, rest, rfl, reported⟩ := extent
  split at reported
  · obtain ⟨run, longest, rfl⟩ := reported
    exact ⟨List.cons_prefix_cons.mpr ⟨rfl, longest.front⟩, List.cons_ne_nil _ _⟩
  · subst reported
    exact ⟨List.cons_prefix_cons.mpr ⟨rfl, List.nil_prefix⟩, List.cons_ne_nil _ _⟩

theorem breaksOff_of_cuts {source : String} {pieces : List Piece} {rest bad : List Char}
    (cuts : Cuts source.toList pieces rest) (extent : Extent rest bad) :
    BreaksOff source
      ⟨String.ofList bad, ⟨byteLength (Layout.chars pieces), byteLength bad⟩⟩ := by
  obtain ⟨⟨after, rfl⟩, solid⟩ := extent.prefix_ne_nil
  have whole : source = String.ofList (Layout.chars pieces ++ (bad ++ after)) := by
    rw [← cuts.eq_append, String.ofList_toList]
  constructor
  · rw [whole]
    exact Span.marks_append solid after
  · refine ⟨String.ofList (Layout.chars pieces), String.ofList (bad ++ after), ?_, ?_, ?_⟩
    · rw [whole, String.ofList_append]
    · exact utf8ByteSize_ofList _
    · refine ⟨Layout.placed 0 pieces, Token.scan_of_tokenizes (.whole ?_)⟩
      rw [String.toList_ofList]
      exact cuts.drop_rest

theorem lossless_of_scan {source : String} {tokens : List Token}
    (scanned : Token.scan source = .ok tokens) : Lossless source tokens := by
  have tokenizes := Token.tokenizes_scan source
  rw [scanned] at tokenizes
  cases tokenizes with
  | whole cuts => exact lossless_of_cuts cuts

theorem breaksOff_of_scan {source : String} {unreadable : Unreadable}
    (failed : Token.scan source = .error unreadable) : BreaksOff source unreadable := by
  have tokenizes := Token.tokenizes_scan source
  rw [failed] at tokenizes
  cases tokenizes with
  | stuck cuts _ extent => exact breaksOff_of_cuts cuts extent

/-- Every byte of a source is in a token or in a gap; or scanning breaks off, and says where. -/
theorem Token.accounts_scan (source : String) : Accounts source (scan source) := by
  have tokenizes := tokenizes_scan source
  generalize scan source = outcome at tokenizes
  cases tokenizes with
  | whole cuts => exact lossless_of_cuts cuts
  | stuck cuts _ extent => exact breaksOff_of_cuts cuts extent

end TermScript

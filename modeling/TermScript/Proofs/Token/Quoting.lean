import TermScript.Proofs.Layout.Tidy

/-! Writing in quotes and unquoting undo each other, for every text. What stands in quotes is a
token of its own exactly if no row of backslashes of odd length comes in the way. What is written
without quotes is an atom of its own, and nothing else is. -/

namespace TermScript

open Layout

namespace Text

/-- The inside of a quoted text, as a string. -/
def unquoted (raw : String) : String :=
  String.ofList (unquote raw.toList)

section Quotes

variable {quote : Char} (isQuote : quote = '\'' ∨ quote = '"')

include isQuote

private theorem ne_backslash_of_isQuote : quote ≠ '\\' := by
  rcases isQuote with rfl | rfl <;> decide

private theorem ne_break_of_isQuote : quote ≠ '\n' := by
  rcases isQuote with rfl | rfl <;> decide

theorem unquoted_quotedText (text : String) : unquoted (quotedText quote text) = text := by
  rw [unquoted, quotedText, String.toList_ofList, enquote, unquote_enclosed isQuote,
    unescape_escape quote _ (ne_backslash_of_isQuote isQuote), String.ofList_toList]

theorem quotedText_unquoted {raw : String} {run : List Char} (isRun : Run quote run)
    (enclosed : raw.toList = quote :: (run ++ [quote])) :
    quotedText quote (unquoted raw) = raw := by
  rw [quotedText, unquoted, enclosed, String.toList_ofList, unquote_enclosed isQuote, enquote,
    isRun.escape_unescape (ne_backslash_of_isQuote isQuote), ← enclosed, String.ofList_toList]

private theorem run_escape_iff (text : List Char) :
    Run quote (escape quote text) ↔ Quotable quote text := by
  have notBackslash := ne_backslash_of_isQuote isQuote
  constructor
  · intro isRun
    have quotable := isRun.quotable notBackslash
    rwa [unescape_escape quote text notBackslash] at quotable
  · intro quotable
    exact quotable.run_escape notBackslash (ne_break_of_isQuote isQuote)

end Quotes

end Text

namespace Kind

/-- The text is a single token of this kind, from its first byte to its last. -/
def IsAlone (kind : Kind) (text : String) : Prop :=
  Token.scan text = .ok [⟨kind, text, ⟨0, Text.byteLength text.toList⟩⟩]

theorem isAlone_iff_spells (kind : Kind) (text : String) :
    kind.IsAlone text ↔ kind.Spells text.toList := by
  constructor
  · intro alone
    exact Token.spelled_of_scanFrom alone _ (List.mem_singleton_self _)
  · intro spells
    obtain ⟨first, rest, whole, found⟩ : ∃ first rest, text.toList ++ [] = first :: rest ∧
        Front.ofText first rest = .lexeme kind text.toList [] :=
      spells.ofText fun _ => parted_nil
    rw [List.append_nil] at whole
    rw [IsAlone, Token.scan, whole, Token.scanFrom_lexeme found spells.ne_blank,
      Token.scanFrom_nil, ← whole, Except.map, Token.place, String.ofList_toList]

section Enclosed

variable {kind : Kind} {quote : Char}

/-- Tokens of this kind are what can stand between two such quotes, with the quotes. -/
def Encloses (kind : Kind) (quote : Char) : Prop :=
  ∀ text, kind.Spells text ↔ ∃ run, Text.Run quote run ∧ text = quote :: (run ++ [quote])

private theorem quotedAtom_encloses : Kind.quotedAtom.Encloses '\'' :=
  fun _ => Iff.rfl

private theorem string_encloses : Kind.string.Encloses '"' :=
  fun _ => Iff.rfl

variable (encloses : kind.Encloses quote) (isQuote : quote = '\'' ∨ quote = '"')

include encloses isQuote

theorem Encloses.isAlone_quotedText_iff (text : String) :
    kind.IsAlone (quotedText quote text) ↔ Text.Quotable quote text.toList := by
  rw [isAlone_iff_spells, encloses, quotedText, String.toList_ofList, Text.enquote,
    ← Text.run_escape_iff isQuote]
  constructor
  · intro enclosed
    obtain ⟨run, isRun, same⟩ := enclosed
    rwa [List.append_cancel_right (List.cons.inj same).2]
  · intro isRun
    exact ⟨_, isRun, rfl⟩

theorem Encloses.quotedText_unquoted {raw : String} (alone : kind.IsAlone raw) :
    quotedText quote (Text.unquoted raw) = raw := by
  obtain ⟨run, isRun, enclosed⟩ := (encloses _).mp ((isAlone_iff_spells kind raw).mp alone)
  exact Text.quotedText_unquoted isQuote isRun enclosed

end Enclosed

end Kind

namespace Layout

private theorem text_functor_of_quoted {name : String}
    (quoted : needsNoQuotes name.toList = false) :
    (functor name).text = quotedText '\'' name := by
  rw [functor, quoted, if_neg Bool.false_ne_true, Piece.text]

/-- Unquoting gives back every text that was written as a string, and every one that was written as
a functor in quotes. Such a layout is a single token exactly if the text is quotable. The other way
round, whatever is a single quoted token is written again as it was. -/
theorem quoting_is_undone (text : String) :
    (Text.unquoted (string text).text = text ∧
      (needsNoQuotes text.toList = false → Text.unquoted (functor text).text = text)) ∧
    ((Kind.string.IsAlone (string text).text ↔ Text.Quotable '"' text.toList) ∧
      (needsNoQuotes text.toList = false →
        (Kind.quotedAtom.IsAlone (functor text).text ↔ Text.Quotable '\'' text.toList))) ∧
    (Kind.string.IsAlone text → (string (Text.unquoted text)).text = text) ∧
    (Kind.quotedAtom.IsAlone text → needsNoQuotes (Text.unquoted text).toList = false →
      (functor (Text.unquoted text)).text = text) := by
  have isPrime : '\'' = '\'' ∨ '\'' = '"' := .inl rfl
  have isMark : '"' = '\'' ∨ '"' = '"' := .inr rfl
  refine ⟨⟨?_, ?_⟩, ⟨?_, ?_⟩, ?_, ?_⟩
  · exact Text.unquoted_quotedText isMark text
  · intro quoted
    rw [text_functor_of_quoted quoted]
    exact Text.unquoted_quotedText isPrime text
  · exact Kind.string_encloses.isAlone_quotedText_iff isMark text
  · intro quoted
    rw [text_functor_of_quoted quoted]
    exact Kind.quotedAtom_encloses.isAlone_quotedText_iff isPrime text
  · exact Kind.string_encloses.quotedText_unquoted isMark
  · intro alone quoted
    rw [text_functor_of_quoted quoted]
    exact Kind.quotedAtom_encloses.quotedText_unquoted isPrime alone

/-- A backslash in front of a prime: harmless in a string, but not in a functor. -/
theorem quoting_is_undone_backslash :
    (needsNoQuotes "a\\'b".toList = false ∧
      Text.unquoted (functor "a\\'b").text = "a\\'b" ∧
      Kind.string.IsAlone (string "a\\'b").text ∧
      ¬Kind.quotedAtom.IsAlone (functor "a\\'b").text) ∧
    (Kind.string.IsAlone "\"q\\\\\\\"\"" ∧
      (string (Text.unquoted "\"q\\\\\\\"\"")).text = "\"q\\\\\\\"\"") ∧
    (Kind.quotedAtom.IsAlone "'b\\'c'" ∧
      needsNoQuotes (Text.unquoted "'b\\'c'").toList = false ∧
      (functor (Text.unquoted "'b\\'c'")).text = "'b\\'c'") := by
  have quoted : needsNoQuotes "a\\'b".toList = false := by decide +kernel
  have stringAlone : Kind.string.IsAlone "\"q\\\\\\\"\"" := by
    rw [Kind.isAlone_iff_spells]
    exact ⟨['q', '\\', '\\', '\\', '"'],
      .plain (by decide) (by decide) (.pair (by decide) (.pair (by decide) .nil)), by decide +kernel⟩
  have atomAlone : Kind.quotedAtom.IsAlone "'b\\'c'" := by
    rw [Kind.isAlone_iff_spells]
    exact ⟨['b', '\\', '\'', 'c'],
      .plain (by decide) (by decide) (.pair (by decide) (.plain (by decide) (by decide) .nil)),
      by decide +kernel⟩
  have inside : needsNoQuotes (Text.unquoted "'b\\'c'").toList = false := by decide +kernel
  refine ⟨⟨quoted, (quoting_is_undone _).1.2 quoted, ?_, ?_⟩, ⟨stringAlone, ?_⟩, atomAlone, inside,
    ?_⟩
  · exact (quoting_is_undone _).2.1.1.mpr (by decide +kernel)
  · rw [(quoting_is_undone _).2.1.2 quoted]
    decide +kernel
  · exact (quoting_is_undone _).2.2.1 stringAlone
  · exact (quoting_is_undone _).2.2.2 atomAlone inside

/-- A name needs no quotes exactly if it is scanned, all of it, as a single atom. -/
theorem needsNoQuotes_iff_scan (name : String) :
    needsNoQuotes name.toList = true ↔
      ∃ token, Token.scan name = .ok [token] ∧ token.kind = .atom ∧ token.text = name := by
  constructor
  · intro bare
    exact ⟨_, (Kind.isAlone_iff_spells .atom name).mpr bare, rfl, rfl⟩
  · intro alone
    obtain ⟨⟨kind, text, span⟩, scanned, rfl, rfl⟩ := alone
    exact Token.spelled_of_scanFrom scanned _ (List.mem_singleton_self _)

end Layout

end TermScript

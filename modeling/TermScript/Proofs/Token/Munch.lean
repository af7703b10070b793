import TermScript.Proofs.Token.Rules

namespace TermScript

open Text

/-- The kind of a text that fits it; a kind with only one spelling goes before the others. -/
def Kind.Claims (kind : Kind) (text : List Char) : Prop :=
  kind.Fits text ∧
    (kind.spelling? = none → ∀ other : Kind, other.spelling? ≠ some (String.ofList text))

/-- Some rule matches the text. -/
def Readable (text : List Char) : Prop :=
  ∃ kind : Kind, kind.Fits text

/-- Something is left, and no rule matches a front part of it. -/
def Stuck (text : List Char) : Prop :=
  text ≠ [] ∧ ∀ front, front <+: text → ¬Readable front

/-- How much is reported where no rule matches: one character; after a quote also the longest text
that could have been quoted. -/
def Extent (text bad : List Char) : Prop :=
  ∃ first rest, text = first :: rest ∧
    if first = '\'' ∨ first = '"' then
      ∃ run, Longest (Regex.inside first).Matches rest run ∧ bad = first :: run
    else bad = [first]

theorem Extent.unique {text bad bad' : List Char} (one : Extent text bad)
    (other : Extent text bad') : bad = bad' := by
  obtain ⟨first, rest, rfl, reported⟩ := one
  obtain ⟨_, _, same, reported'⟩ := other
  cases same
  split at reported
  · rename_i isQuote
    rw [if_pos isQuote] at reported'
    obtain ⟨run, longest, rfl⟩ := reported
    obtain ⟨run', longest', rfl⟩ := reported'
    rw [longest.unique longest']
  · rename_i notQuote
    rw [if_neg notQuote] at reported'
    rw [reported, reported']

section

variable {kind other : Kind} {first : Char} {rest text piece after : List Char}

theorem Kind.Claims.spells (claims : kind.Claims text) (solid : kind ≠ .blank) :
    kind.Spells text := by
  by_cases isIdentifier : kind = .identifier
  · subst isIdentifier
    obtain ⟨fits, first⟩ := claims
    have first := first rfl
    obtain ⟨head, rest, rfl, parts, starts⟩ := fits_identifier_iff.mp fits
    have notLet : head :: rest ≠ ['l', 'e', 't'] := fun same => first .letWord (same ▸ rfl)
    have notMatch : head :: rest ≠ ['m', 'a', 't', 'c', 'h'] :=
      fun same => first .matchWord (same ▸ rfl)
    simp only [Kind.Spells, isName, Bool.and_eq_true, bne_iff_ne]
    refine ⟨⟨⟨?_, parts⟩, notLet⟩, notMatch⟩
    rcases starts with lower | ⟨underscore, more⟩
    · rw [lower, Bool.true_or]
    · simp [underscore, more]
  · exact spells_of_fits claims.1 solid isIdentifier

private theorem spells_of_spelling (one : other.spelling? = some (String.ofList text)) :
    other.Spells text := by
  cases other with
  | blank | identifier | atom | quotedAtom | string => cases one
  | _ => exact one

/-- The whole text is one lexeme of this kind. -/
def Kind.Takes (kind : Kind) (text : List Char) : Prop :=
  ∃ first rest, text = first :: rest ∧ Front.ofText first rest = .lexeme kind text []

theorem Kind.Takes.unique (takes : kind.Takes text) (others : other.Takes text) :
    kind = other := by
  obtain ⟨first, rest, rfl, found⟩ := takes
  obtain ⟨_, _, same, found'⟩ := others
  cases same
  cases found.symm.trans found'
  rfl

theorem takes_of_spells (spells : kind.Spells text) : kind.Takes text := by
  have found := spells.ofText fun _ => parted_nil
  rwa [List.append_nil] at found

private theorem takes_of_fits_blank (fits : Kind.blank.Fits text) : Kind.blank.Takes text := by
  rcases fits_blank_iff.mp fits with ⟨first, rest, blank, blanks, rfl⟩ | ⟨line, comment, rfl⟩
  · exact ⟨first, rest, rfl, by rw [Front.ofText_blank blank, Front.spanning_all blanks]⟩
  · exact ⟨'#', line, rfl, by rw [Front.ofText_comment, Front.spanning_all comment]⟩

theorem Kind.Claims.takes (claims : kind.Claims text) : kind.Takes text := by
  by_cases isBlank : kind = .blank
  · subst isBlank
    exact takes_of_fits_blank claims.1
  · exact takes_of_spells (claims.spells isBlank)

theorem Kind.Takes.claims (takes : kind.Takes text) (fits : kind.Fits text) :
    kind.Claims text := by
  refine ⟨fits, fun many other one => ?_⟩
  obtain rfl := takes.unique (takes_of_spells (spells_of_spelling one))
  rw [many] at one
  cases one

private theorem fits_blank_of_ofText
    (found : Front.ofText first rest = .lexeme .blank piece after) :
    Kind.blank.Fits piece := by
  by_cases blank : isBlank first = true
  · rw [Front.ofText_blank blank] at found
    cases found
    exact fits_blank_iff.mpr (.inl ⟨first, _, blank, List.all_takeWhile, rfl⟩)
  by_cases hash : first = '#'
  · rw [hash, Front.ofText_comment] at found
    cases found
    exact fits_blank_iff.mpr (.inr ⟨_, List.all_takeWhile, rfl⟩)
  exact (spells_of_first blank hash found).elim

theorem claims_of_ofText (found : Front.ofText first rest = .lexeme kind piece after) :
    kind.Claims piece := by
  by_cases isBlank : kind = .blank
  · subst isBlank
    have fits := fits_blank_of_ofText found
    exact (takes_of_fits_blank fits).claims fits
  · have spells := spells_of_ofText found isBlank
    exact (takes_of_spells spells).claims (fits_of_spells spells)

namespace Front

/-- The front takes at least this text. -/
def Covers (piece : List Char) : Front → Prop
  | .lexeme _ taken _ => piece <+: taken
  | .unreadable _ => False

private theorem spanning_covers {continues : Char → Bool} (all : rest.all continues = true)
    (after : List Char) :
    (spanning kind first continues (rest ++ after)).Covers (first :: rest) := by
  rw [spanning, List.takeWhile_append_of_pos (List.all_eq_true.mp all), ← List.cons_append]
  exact List.prefix_append _ _

private theorem covers_word (opens : (first.isLower || first == '_') = true)
    (parts : rest.all isWordPart = true) (after : List Char) :
    (ofText first (rest ++ after)).Covers (first :: rest) := by
  rw [ofText_opens opens]
  exact spanning_covers parts after

private theorem covers_atom (bare : Layout.needsNoQuotes (first :: rest) = true)
    (after : List Char) :
    (ofText first (rest ++ after)).Covers (first :: rest) := by
  rw [Layout.needsNoQuotes] at bare
  split at bare
  · rename_i digit
    rw [ofText_digit digit]
    exact spanning_covers bare after
  · rw [Bool.and_eq_true] at bare
    rw [ofText_upper bare.1]
    exact spanning_covers bare.2 after

private theorem covers_equals (after : List Char) : (ofText '=' after).Covers ['='] := by
  change (equals after).Covers ['=']
  unfold equals
  split
  · exact ⟨['>'], rfl⟩
  · exact List.prefix_refl _

end Front

private theorem covers_of_fits_blank (fits : Kind.blank.Fits piece) (after : List Char) :
    ∃ first rest, piece ++ after = first :: rest ∧ (Front.ofText first rest).Covers piece := by
  rcases fits_blank_iff.mp fits with ⟨first, rest, blank, blanks, rfl⟩ | ⟨line, comment, rfl⟩
  · refine ⟨first, rest ++ after, rfl, ?_⟩
    rw [Front.ofText_blank blank]
    exact Front.spanning_covers blanks after
  · refine ⟨'#', line ++ after, rfl, ?_⟩
    rw [Front.ofText_comment]
    exact Front.spanning_covers comment after

theorem Kind.Spells.covers (spells : kind.Spells piece) (notIdentifier : kind ≠ .identifier)
    (after : List Char) :
    ∃ first rest, piece ++ after = first :: rest ∧ (Front.ofText first rest).Covers piece := by
  by_cases greedy : kind.isGreedy = true
  · cases kind with
    | letWord | matchWord =>
        obtain rfl := eq_of_spelling spells
        exact ⟨_, _, rfl, Front.covers_word (by decide) (by decide) after⟩
    | underscore =>
        obtain rfl := eq_of_spelling spells
        exact ⟨_, [] ++ after, rfl, Front.covers_word (by decide) (by decide) after⟩
    | atom =>
        cases piece with
        | nil => cases spells
        | cons first rest => exact ⟨first, rest ++ after, rfl, Front.covers_atom spells after⟩
    | equals =>
        obtain rfl := eq_of_spelling spells
        exact ⟨_, _, rfl, Front.covers_equals after⟩
    | identifier => exact absurd rfl notIdentifier
    | _ => cases greedy
  · -- What cannot grow is scanned as it stands.
    have parted : kind.isGreedy = true → Parted after := fun isGreedy => absurd isGreedy greedy
    obtain ⟨first, rest, split, found⟩ := spells.ofText parted
    exact ⟨first, rest, split, found ▸ List.prefix_refl _⟩

/-- Whatever a rule matches at the front of a text, the scanner takes at least that. -/
theorem Kind.Fits.covers (fits : kind.Fits piece) (after : List Char) :
    ∃ first rest, piece ++ after = first :: rest ∧ (Front.ofText first rest).Covers piece := by
  by_cases blank : kind = .blank
  · exact covers_of_fits_blank (blank ▸ fits) after
  by_cases isIdentifier : kind = .identifier
  · -- The rules of identifiers match the two words of the language too.
    subst isIdentifier
    obtain ⟨first, rest, rfl, parts, starts⟩ := fits_identifier_iff.mp fits
    have opens : (first.isLower || first == '_') = true := by grind
    exact ⟨first, rest ++ after, rfl, Front.covers_word opens parts after⟩
  · exact (spells_of_fits fits blank isIdentifier).covers isIdentifier after

theorem longest_of_ofText (found : Front.ofText first rest = .lexeme kind piece after) :
    Longest Readable (first :: rest) piece := by
  have splits := Front.ofText_splits first rest
  rw [found] at splits
  refine ⟨⟨after, splits.2⟩, ⟨kind, (claims_of_ofText found).1⟩, ?_⟩
  rintro other ⟨tail, split⟩ ⟨kind', fits⟩
  obtain ⟨_, _, split', covers⟩ := fits.covers tail
  cases split.symm.trans split'
  rw [found] at covers
  exact covers.length_le

/-- The scanner cuts off the longest text that a rule matches. -/
theorem ofText_eq_lexeme_iff : Front.ofText first rest = .lexeme kind piece after ↔
    Longest Readable (first :: rest) piece ∧ kind.Claims piece ∧ first :: rest = piece ++ after := by
  constructor
  · intro found
    have splits := Front.ofText_splits first rest
    rw [found] at splits
    exact ⟨longest_of_ofText found, claims_of_ofText found, splits.2.symm⟩
  · rintro ⟨longest, claims, split⟩
    obtain ⟨_, _, split', covers⟩ := claims.1.covers after
    cases split.trans split'
    cases found : Front.ofText first rest with
    | unreadable bad =>
        rw [found] at covers
        exact covers.elim
    | lexeme kind' piece' after' =>
        obtain rfl := longest.unique (longest_of_ofText found)
        obtain rfl := claims.takes.unique (claims_of_ofText found).takes
        have splits := Front.ofText_splits first rest
        rw [found, split] at splits
        rw [List.append_cancel_left splits.2]

private theorem longest_quotedRun (quote : Char) (text : List Char) :
    Longest (Regex.inside quote).Matches text (quotedRun quote text).1 := by
  refine ⟨⟨_, quotedRun_append quote text⟩, ?_, ?_⟩
  · exact Regex.matches_inside_iff.mpr (run_quotedRun quote text)
  · rintro other ⟨tail, rfl⟩ isRun
    rw [quotedRun_run_append (Regex.matches_inside_iff.mp isRun), List.length_append]
    exact Nat.le_add_right _ _

private theorem eq_of_quoted {quote : Char} {bad : List Char}
    (found : Front.quoted kind quote rest = .unreadable bad) :
    bad = quote :: (quotedRun quote rest).1 := by
  unfold Front.quoted at found
  split at found
  · rename_i run second after cut
    split at found
    · cases found
    · cases found
      rw [cut]
  · rename_i run cut
    cases found
    rw [cut]

private theorem eq_of_not_quoted {bad : List Char} (notPrime : first ≠ '\'') (notMark : first ≠ '"')
    (found : Front.ofText first rest = .unreadable bad) : bad = [first] := by
  unfold Front.ofText Front.spanning at found
  rw [if_neg notPrime, if_neg notMark] at found
  split at found
  · cases found
  split at found
  · cases found
  split at found
  · cases found
  split at found
  · cases found
  split at found
  · cases found
  split at found
  · unfold Front.equals at found
    split at found <;> cases found
  · unfold Front.mark at found
    split at found
    · cases found
    · cases found
      rfl

theorem extent_of_ofText {bad : List Char} (found : Front.ofText first rest = .unreadable bad) :
    Extent (first :: rest) bad := by
  refine ⟨first, rest, rfl, ?_⟩
  by_cases prime : first = '\''
  · subst prime
    change Front.quoted .quotedAtom '\'' rest = _ at found
    rw [if_pos (.inl rfl), eq_of_quoted found]
    exact ⟨_, longest_quotedRun '\'' rest, rfl⟩
  by_cases mark : first = '"'
  · subst mark
    change Front.quoted .string '"' rest = _ at found
    rw [if_pos (.inr rfl), eq_of_quoted found]
    exact ⟨_, longest_quotedRun '"' rest, rfl⟩
  rw [if_neg (not_or.mpr ⟨prime, mark⟩)]
  exact eq_of_not_quoted prime mark found

theorem ofText_eq_unreadable_iff {bad : List Char} :
    Front.ofText first rest = .unreadable bad ↔
      Stuck (first :: rest) ∧ Extent (first :: rest) bad := by
  constructor
  · intro found
    refine ⟨⟨List.cons_ne_nil _ _, ?_⟩, extent_of_ofText found⟩
    rintro front ⟨tail, split⟩ ⟨kind, fits⟩
    obtain ⟨_, _, split', covers⟩ := fits.covers tail
    cases split.symm.trans split'
    rw [found] at covers
    exact covers
  · rintro ⟨⟨-, stuck⟩, extent⟩
    cases found : Front.ofText first rest with
    | unreadable bad' => rw [extent.unique (extent_of_ofText found)]
    | lexeme kind piece after =>
        have longest := longest_of_ofText found
        exact absurd longest.holds (stuck piece longest.front)

end

end TermScript

import TermScript.Token.Scan

/-! Which texts can stand between quotes. A backslash goes with the character after it, so a row of
backslashes of odd length must not end in front of the quote, a line break or the end. -/

namespace TermScript.Text

/-- Every row of backslashes that is as long as can be and of odd length stands in front of a
character that is neither the quote nor a line break. -/
def Quotable (quote : Char) (text : List Char) : Prop :=
  ∀ before count after, text = before ++ (List.replicate count '\\' ++ after) →
    before.getLast? ≠ some '\\' → after.head? ≠ some '\\' → count % 2 = 1 →
    ∃ next, after.head? = some next ∧ next ≠ quote ∧ next ≠ '\n'

/-- The same, checked from left to right: has a row of backslashes of odd length come just before? -/
def settles (quote : Char) : Bool → List Char → Bool
  | odd, [] => !odd
  | odd, first :: rest =>
      if first = '\\' then settles quote (!odd) rest
      else (!odd || (first != quote && first != '\n')) && settles quote false rest

private theorem replicate_append_inj {left right : List Char} {many count : Nat}
    (same : List.replicate many '\\' ++ left = List.replicate count '\\' ++ right)
    (leftEnds : left.head? ≠ some '\\') (rightEnds : right.head? ≠ some '\\') :
    many = count ∧ left = right := by
  induction many generalizing count with
  | zero =>
      cases count with
      | zero => exact ⟨rfl, same⟩
      | succ count => exact absurd (congrArg List.head? same) leftEnds
  | succ many induction =>
      cases count with
      | zero => exact absurd (congrArg List.head? same).symm rightEnds
      | succ count =>
          obtain ⟨sameCount, sameRest⟩ := induction (List.cons.inj same).2
          exact ⟨congrArg Nat.succ sameCount, sameRest⟩

private theorem eq_nil_of_front {lead : Nat} {before others : List Char}
    (front : List.replicate lead '\\' = before ++ others)
    (ends : before.getLast? ≠ some '\\') : before = [] := by
  cases last : before.getLast? with
  | none => exact List.getLast?_eq_none_iff.mp last
  | some final =>
      have member : final ∈ List.replicate lead '\\' := by
        rw [front]
        exact List.mem_append_left _ (List.mem_of_getLast? last)
      rw [last, List.eq_of_mem_replicate member] at ends
      exact absurd rfl ends

private theorem quotable_replicate_iff (quote : Char) (lead : Nat) :
    Quotable quote (List.replicate lead '\\') ↔ lead % 2 = 0 := by
  constructor
  · intro quotable
    rcases Nat.mod_two_eq_zero_or_one lead with even | odd
    · exact even
    · obtain ⟨next, impossible, -⟩ := quotable [] lead [] (by simp) (by simp) (by simp) odd
      cases impossible
  · intro even before count after split ends starts odd
    obtain rfl := eq_nil_of_front split ends
    rw [List.nil_append, ← List.append_nil (List.replicate lead _)] at split
    obtain ⟨rfl, -⟩ := replicate_append_inj split (by simp) starts
    omega

private theorem quotable_replicate_append_iff {quote first : Char} (ordinary : first ≠ '\\')
    (lead : Nat) (rest : List Char) :
    Quotable quote (List.replicate lead '\\' ++ first :: rest) ↔
      (lead % 2 = 1 → first ≠ quote ∧ first ≠ '\n') ∧ Quotable quote rest := by
  have starts : (first :: rest).head? ≠ some '\\' := by simpa using ordinary
  constructor
  · intro quotable
    constructor
    · intro odd
      obtain ⟨next, same, fits⟩ := quotable [] lead (first :: rest) rfl (by simp) starts odd
      cases same
      exact fits
    · intro before count after split ends
      apply quotable (List.replicate lead '\\' ++ first :: before) count after
      · rw [split, List.append_assoc, List.cons_append]
      · cases before with
        | nil => simpa using ordinary
        | cons second others => simpa [List.getLast?_append] using ends
  · intro parts before count after split ends afterStarts odd
    obtain ⟨fits, quotable⟩ := parts
    rcases List.append_eq_append_iff.mp split with
      ⟨others, rfl, whole⟩ | ⟨others, front, whole⟩
    · cases others with
      | nil =>
          cases count with
          | zero => cases odd
          | succ count => exact absurd (List.cons.inj whole).1 ordinary
      | cons second others =>
          obtain ⟨rfl, rfl⟩ := List.cons.inj whole
          refine quotable others count after rfl ?_ afterStarts odd
          cases others with
          | nil => simp
          | cons third others => simpa [List.getLast?_append] using ends
    · obtain rfl := eq_nil_of_front front ends
      rw [List.nil_append] at front
      obtain ⟨rfl, rfl⟩ := replicate_append_inj (front ▸ whole) afterStarts starts
      exact ⟨first, rfl, fits odd⟩

private theorem quotable_iff_settles_of_lead (quote : Char) (lead : Nat) (text : List Char) :
    Quotable quote (List.replicate lead '\\' ++ text) ↔
      settles quote (lead % 2 == 1) text = true := by
  induction text generalizing lead with
  | nil =>
      rw [List.append_nil, quotable_replicate_iff, settles]
      grind
  | cons first rest induction =>
      rw [settles]
      by_cases backslash : first = '\\'
      · rw [if_pos backslash, backslash, List.append_cons, ← List.replicate_succ', induction]
        have toggles : ((lead + 1) % 2 == 1) = !(lead % 2 == 1) := by grind
        rw [toggles]
      · rw [if_neg backslash, quotable_replicate_append_iff backslash]
        have quotableRest := induction 0
        rw [List.replicate_zero, List.nil_append] at quotableRest
        rw [quotableRest]
        grind

theorem quotable_iff_settles (quote : Char) (text : List Char) :
    Quotable quote text ↔ settles quote false text = true :=
  quotable_iff_settles_of_lead quote 0 text

instance (quote : Char) (text : List Char) : Decidable (Quotable quote text) :=
  decidable_of_iff _ (quotable_iff_settles quote text).symm

theorem quotable_of_not_mem {quote : Char} {text : List Char} (free : '\\' ∉ text) :
    Quotable quote text := by
  intro before count after split ends starts odd
  have member : '\\' ∈ List.replicate count '\\' :=
    List.mem_replicate.mpr ⟨by omega, rfl⟩
  apply absurd _ free
  rw [split]
  exact List.mem_append_right _ (List.mem_append_left _ member)

/-- Ordinary characters, and backslashes with the character after them. -/
inductive Run (quote : Char) : List Char → Prop
  | nil : Run quote []
  | plain {first : Char} {rest : List Char} :
      first ≠ quote → first ≠ '\\' → Run quote rest → Run quote (first :: rest)
  | pair {second : Char} {rest : List Char} :
      second ≠ '\n' → Run quote rest → Run quote ('\\' :: second :: rest)

theorem run_quotedRun (quote : Char) (text : List Char) : Run quote (quotedRun quote text).1 := by
  fun_induction quotedRun quote text with
  | case1 => exact .nil
  | case2 second rest notBreak run after split induction =>
      rw [split] at induction
      exact .pair notBreak induction
  | case3 => exact .nil
  | case4 first rest _ ordinary run after split induction =>
      rw [split] at induction
      rw [not_or] at ordinary
      exact .plain ordinary.1 ordinary.2 induction
  | case5 => exact .nil

theorem quotedRun_run_append {quote : Char} {run : List Char} (isRun : Run quote run)
    (after : List Char) :
    quotedRun quote (run ++ after) =
      (run ++ (quotedRun quote after).1, (quotedRun quote after).2) := by
  induction isRun with
  | nil => rfl
  | @plain first rest notQuote ordinary isRun induction =>
      rw [List.cons_append, quotedRun]
      · rw [if_neg (by simp [notQuote, ordinary]), induction]
        rfl
      · intro second rest same
        exact absurd same ordinary
  | @pair second rest notBreak isRun induction =>
      rw [List.cons_append, List.cons_append, quotedRun, if_neg notBreak, induction]
      rfl

theorem quotedRun_eq {quote : Char} (notBackslash : quote ≠ '\\') {run : List Char}
    (isRun : Run quote run) (after : List Char) :
    quotedRun quote (run ++ quote :: after) = (run, quote :: after) := by
  have stops : quotedRun quote (quote :: after) = ([], quote :: after) := by
    rw [quotedRun]
    · rw [if_pos (.inl rfl)]
    · intro second rest same
      exact absurd same notBackslash
  rw [quotedRun_run_append isRun, stops, List.append_nil]

section Escapes

variable {quote : Char} {text run : List Char}

theorem unquote_enclosed (isQuote : quote = '\'' ∨ quote = '"') (run : List Char) :
    unquote (quote :: (run ++ [quote])) = unescape quote run := by
  rw [unquote, if_pos isQuote, List.dropLast_concat]

theorem Run.ne_quote (isRun : Run quote run) (notBackslash : quote ≠ '\\') (rest : List Char) :
    run ≠ quote :: rest := by
  cases isRun with
  | nil => simp
  | plain notQuote _ _ => simp [notQuote]
  | pair _ _ => simp [notBackslash.symm]

private theorem Run.settles_unescape (isRun : Run quote run) (notBackslash : quote ≠ '\\') :
    settles quote false (unescape quote run) = true := by
  induction isRun with
  | nil => rfl
  | @plain first rest notQuote ordinary isRun induction =>
      rw [unescape_ordinary quote first rest ordinary, settles, if_neg ordinary, induction]
      rfl
  | @pair second rest notBreak isRun induction =>
      by_cases isQuote : second = quote
      · rw [isQuote, unescape_escaped, settles, if_neg notBackslash, induction]
        rfl
      · rw [unescape_backslash quote _ (by simp [isQuote]), settles, if_pos rfl]
        by_cases backslash : second = '\\'
        · rw [backslash, unescape_backslash quote rest (isRun.ne_quote notBackslash), settles,
            if_pos rfl]
          exact induction
        · rw [unescape_ordinary quote second rest backslash, settles, if_neg backslash, induction]
          simp [isQuote, notBreak]

private theorem run_escape_of_settles (notBackslash : quote ≠ '\\') (notBreak : quote ≠ '\n')
    {odd : Bool} (fits : settles quote odd text = true) :
    Run quote (if odd then '\\' :: escape quote text else escape quote text) := by
  induction text generalizing odd with
  | nil =>
      cases odd with
      | false => exact .nil
      | true => cases fits
  | cons first rest induction =>
      rw [settles] at fits
      rw [escape]
      by_cases backslash : first = '\\'
      · rw [if_pos backslash] at fits
        have notQuote : first ≠ quote := fun same => notBackslash (same ▸ backslash)
        rw [if_neg notQuote, backslash]
        cases odd with
        | false => exact induction fits
        | true => exact .pair (by decide) (induction fits)
      · rw [if_neg backslash, Bool.and_eq_true] at fits
        obtain ⟨spared, fits⟩ := fits
        have isRun := induction fits
        cases odd with
        | false =>
            by_cases isQuote : first = quote
            · rw [if_pos isQuote]
              exact .pair notBreak isRun
            · rw [if_neg isQuote]
              exact .plain isQuote backslash isRun
        | true =>
            simp only [Bool.not_true, Bool.false_or, Bool.and_eq_true, bne_iff_ne] at spared
            rw [if_neg spared.1]
            exact .pair spared.2 isRun

/-- Between quotes every quote has its backslash, so nothing is written differently. -/
theorem Run.escape_unescape (isRun : Run quote run) (notBackslash : quote ≠ '\\') :
    escape quote (unescape quote run) = run := by
  induction isRun with
  | nil => rfl
  | @plain first rest notQuote ordinary isRun induction =>
      rw [unescape_ordinary quote first rest ordinary, escape, if_neg notQuote, induction]
  | @pair second rest notBreak isRun induction =>
      by_cases isQuote : second = quote
      · rw [isQuote, unescape_escaped, escape, if_pos rfl, induction]
      · rw [unescape_backslash quote _ (by simp [isQuote]), escape, if_neg notBackslash.symm]
        by_cases backslash : second = '\\'
        · rw [backslash, unescape_backslash quote rest (isRun.ne_quote notBackslash), escape,
            if_neg notBackslash.symm, induction]
        · rw [unescape_ordinary quote second rest backslash, escape, if_neg isQuote, induction]

theorem Run.quotable (isRun : Run quote run) (notBackslash : quote ≠ '\\') :
    Quotable quote (unescape quote run) :=
  (quotable_iff_settles quote _).mpr (isRun.settles_unescape notBackslash)

theorem Quotable.run_escape (quotable : Quotable quote text) (notBackslash : quote ≠ '\\')
    (notBreak : quote ≠ '\n') : Run quote (escape quote text) :=
  run_escape_of_settles notBackslash notBreak ((quotable_iff_settles quote text).mp quotable)

end Escapes

end TermScript.Text

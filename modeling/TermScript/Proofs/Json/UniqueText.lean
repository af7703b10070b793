import TermScript.Json
import TermScript.Proofs.Token.Spelling

/-! The text of a JSON value says which value it is. Wherever such texts begin the same characters,
the values are the same and so is what comes behind them; only digits could go on. -/

namespace TermScript.Json

/-- What comes behind a value: no digit, which could belong to a number in front of it. -/
def Ended (after : List Char) : Prop :=
  ∀ next, after.head? = some next → next.isDigit = false

private theorem ended_nil : Ended [] :=
  nofun

private theorem ended_cons {first : Char} (notDigit : first.isDigit = false) (rest : List Char) :
    Ended (first :: rest) := by
  intro next same
  cases same
  exact notDigit

/-- No other value is written like this one, whatever comes behind. -/
def Told {α : Type} (write : α → List Char) (value : α) : Prop :=
  ∀ ⦃value' : α⦄ ⦃after after' : List Char⦄, Ended after → Ended after' →
    write value ++ after = write value' ++ after' → value = value' ∧ after = after'

private def hexValue (digit : Char) : Nat :=
  if digit.isDigit then digit.toNat - '0'.toNat else digit.toNat - 'a'.toNat + 10

private def unescapedLetter (letter : Char) : Char :=
  if letter = 'b' then '\x08'
  else if letter = 't' then '\t'
  else if letter = 'n' then '\n'
  else if letter = 'f' then '\x0c'
  else if letter = 'r' then '\r'
  else letter

/-- The first character inside quotes, and what is left; none if the quotes end here. -/
private def nextUnescaped? : List Char → Option (Char × List Char)
  | [] => none
  | '"' :: _ => none
  | '\\' :: 'u' :: '0' :: '0' :: high :: low :: rest =>
      some (Char.ofNat (16 * hexValue high + hexValue low), rest)
  | '\\' :: letter :: rest => some (unescapedLetter letter, rest)
  | first :: rest => some (first, rest)

private theorem hexValue_hexDigit : ∀ value < 16, hexValue (hexDigit value) = value := by
  decide

private theorem nextUnescaped?_control {char : Char} (control : char.toNat < 32)
    (rest : List Char) :
    nextUnescaped? ('\\' :: 'u' :: '0' :: '0' :: hexDigit (char.toNat / 16) ::
      hexDigit (char.toNat % 16) :: rest) = some (char, rest) := by
  have high := hexValue_hexDigit (char.toNat / 16) (by omega)
  have low := hexValue_hexDigit (char.toNat % 16) (by omega)
  rw [nextUnescaped?, high, low, Nat.div_add_mod, Char.ofNat_toNat]

private theorem nextUnescaped?_escapeChar (char : Char) (rest : List Char) :
    nextUnescaped? (escapeChar char ++ rest) = some (char, rest) := by
  unfold escapeChar
  iterate 7
    split
    · rename_i same
      rw [same]
      rfl
  split
  · rename_i control
    exact nextUnescaped?_control control rest
  · rename_i notQuote notBackslash _ _ _ _ _ _
    rw [List.singleton_append, nextUnescaped?]
    all_goals simp_all

private theorem escapeChar_append_inj {char char' : Char} {rest rest' : List Char}
    (same : escapeChar char ++ rest = escapeChar char' ++ rest') :
    char = char' ∧ rest = rest' := by
  have next := congrArg nextUnescaped? same
  rw [nextUnescaped?_escapeChar, nextUnescaped?_escapeChar] at next
  exact Prod.mk.inj (Option.some.inj next)

private theorem escapeChar_append_ne (char : Char) (rest after : List Char) :
    escapeChar char ++ rest ≠ '"' :: after := by
  intro same
  have next := congrArg nextUnescaped? same
  rw [nextUnescaped?_escapeChar] at next
  cases next

theorem escaped_append_inj {text text' after after' : List Char}
    (same : text.flatMap escapeChar ++ '"' :: after = text'.flatMap escapeChar ++ '"' :: after') :
    text = text' ∧ after = after' := by
  induction text generalizing text' with
  | nil =>
      cases text' with
      | nil => exact ⟨rfl, (List.cons.inj same).2⟩
      | cons first' rest' =>
          rw [List.flatMap_cons, List.append_assoc] at same
          exact absurd same.symm (escapeChar_append_ne _ _ _)
  | cons first rest induction =>
      rw [List.flatMap_cons, List.append_assoc] at same
      cases text' with
      | nil => exact absurd same (escapeChar_append_ne _ _ _)
      | cons first' rest' =>
          rw [List.flatMap_cons, List.append_assoc] at same
          obtain ⟨rfl, sameRest⟩ := escapeChar_append_inj same
          obtain ⟨rfl, sameAfter⟩ := induction sameRest
          exact ⟨rfl, sameAfter⟩

theorem quoted_append_inj {text text' : String} {after after' : List Char}
    (same : quoted text ++ after = quoted text' ++ after') : text = text' ∧ after = after' := by
  unfold quoted at same
  rw [List.cons_append, List.cons_append, List.append_assoc, List.append_assoc] at same
  obtain ⟨sameText, sameAfter⟩ := escaped_append_inj (List.cons.inj same).2
  exact ⟨String.toList_inj.mp sameText, sameAfter⟩

private theorem toDigits_append_inj {value value' : Nat} {after after' : List Char}
    (ended : Ended after) (ended' : Ended after')
    (same : Nat.toDigits 10 value ++ after = Nat.toDigits 10 value' ++ after') :
    value = value' ∧ after = after' := by
  have digits (value : Nat) : (Nat.toDigits 10 value).all Char.isDigit = true :=
    List.all_eq_true.mpr fun char member =>
      Nat.isDigit_of_mem_toDigits (by decide) (by decide) member
  obtain ⟨taken, left⟩ := Front.takeWhile_eq (digits value) ended
  obtain ⟨taken', left'⟩ := Front.takeWhile_eq (digits value') ended'
  rw [same, taken'] at taken
  rw [same, left'] at left
  have read := congrArg (Nat.ofDigitChars 10 · 0) taken
  simp only [Nat.ofDigitChars_ten_toDigits] at read
  exact ⟨read.symm, left.symm⟩

section Blocks

variable {α : Type} {write : α → List Char} {closing : Char} {depth : Nat}

private def lines (closing : Char) (depth : Nat) (parts : List (List Char)) : List Char :=
  (',' :: margin (depth + 1)).intercalate parts ++ margin depth ++ [closing]

private def behind (closing : Char) (depth : Nat) : List (List Char) → List Char
  | [] => margin depth ++ [closing]
  | second :: rest => ',' :: (margin (depth + 1) ++ lines closing depth (second :: rest))

private theorem lines_cons (first : List Char) (others : List (List Char)) (after : List Char) :
    lines closing depth (first :: others) ++ after =
      first ++ (behind closing depth others ++ after) := by
  cases others <;> simp [lines, behind]

private theorem ended_behind (parts : List (List Char)) (after : List Char) :
    Ended (behind closing depth parts ++ after) := by
  cases parts with
  | nil => exact ended_cons (by decide) _
  | cons second rest => exact ended_cons (by decide) _

private theorem margin_ne_comma (rest rest' : List Char) : margin depth ++ rest ≠ ',' :: rest' := by
  intro same
  cases (List.cons.inj same).1

private theorem lines_append_inj {values values' : List α}
    (told : ∀ value ∈ values, Told write value) (nonempty : values ≠ []) (nonempty' : values' ≠ [])
    {after after' : List Char}
    (same : lines closing depth (values.map write) ++ after =
      lines closing depth (values'.map write) ++ after') :
    values = values' ∧ after = after' := by
  induction values generalizing values' with
  | nil => exact absurd rfl nonempty
  | cons first others induction =>
      obtain ⟨first', others', rfl⟩ := List.exists_cons_of_ne_nil nonempty'
      obtain ⟨firstTold, othersTold⟩ := List.forall_mem_cons.mp told
      rw [List.map_cons, List.map_cons, lines_cons, lines_cons] at same
      obtain ⟨sameFirst, same⟩ := firstTold (ended_behind _ _) (ended_behind _ _) same
      cases others with
      | nil =>
          cases others' with
          | nil => exact ⟨by rw [sameFirst], List.append_cancel_left same⟩
          | cons second' rest' =>
              simp only [List.map_nil, behind, List.append_assoc] at same
              exact absurd same (margin_ne_comma _ _)
      | cons second rest =>
          cases others' with
          | nil =>
              simp only [List.map_nil, behind, List.append_assoc] at same
              exact absurd same.symm (margin_ne_comma _ _)
          | cons second' rest' =>
              simp only [List.map_cons, behind, List.cons_append, List.append_assoc] at same
              have same := List.append_cancel_left (List.cons.inj same).2
              obtain ⟨sameOthers, sameAfter⟩ := induction othersTold (List.cons_ne_nil _ _)
                (List.cons_ne_nil _ _) same
              exact ⟨by rw [sameFirst, sameOthers], sameAfter⟩

private theorem block_nil (opening closing : Char) (depth : Nat) :
    block opening closing depth [] = [opening, closing] := rfl

private theorem block_cons (opening closing : Char) (depth : Nat) (first : List Char)
    (others : List (List Char)) :
    block opening closing depth (first :: others) =
      opening :: (margin (depth + 1) ++ lines closing depth (first :: others)) := by
  simp [block, lines]

private theorem block_append_inj {opening : Char} (notBreak : closing ≠ '\n')
    {values values' : List α} (told : ∀ value ∈ values, Told write value) {after after' : List Char}
    (same : block opening closing depth (values.map write) ++ after =
      block opening closing depth (values'.map write) ++ after') :
    values = values' ∧ after = after' := by
  cases values with
  | nil =>
      cases values' with
      | nil => exact ⟨rfl, List.append_cancel_left same⟩
      | cons first' others' =>
          rw [List.map_nil, List.map_cons, block_nil, block_cons] at same
          exact absurd (List.cons.inj (List.cons.inj same).2).1 notBreak
  | cons first others =>
      cases values' with
      | nil =>
          rw [List.map_nil, List.map_cons, block_nil, block_cons] at same
          exact absurd (List.cons.inj (List.cons.inj same).2).1.symm notBreak
      | cons first' others' =>
          rw [List.map_cons, List.map_cons, block_cons, block_cons] at same
          simp only [List.cons_append, List.append_assoc] at same
          have same := List.append_cancel_left (List.cons.inj same).2
          exact lines_append_inj told (List.cons_ne_nil _ _) (List.cons_ne_nil _ _) same

end Blocks

/-- What the first character of a text tells of the value. -/
private inductive Shape where
  | null
  | bool
  | number
  | string
  | array
  | object

private def shape : Json → Shape
  | .null => .null
  | .bool _ => .bool
  | .number _ => .number
  | .string _ => .string
  | .array _ => .array
  | .object _ => .object

private def shapeOfFirst (first : Char) : Shape :=
  if first.isDigit then .number
  else if first = 'n' then .null
  else if first = 't' ∨ first = 'f' then .bool
  else if first = '"' then .string
  else if first = '[' then .array
  else .object

private theorem block_eq_cons (opening closing : Char) (depth : Nat) (parts : List (List Char)) :
    ∃ rest, block opening closing depth parts = opening :: rest := by
  cases parts with
  | nil => exact ⟨_, rfl⟩
  | cons first others => exact ⟨_, block_cons _ _ _ _ _⟩

private theorem chars_eq_cons (depth : Nat) (value : Json) :
    ∃ first rest, chars depth value = first :: rest ∧ shapeOfFirst first = value.shape := by
  cases value with
  | null => exact ⟨_, _, rfl, rfl⟩
  | bool value => cases value <;> exact ⟨_, _, rfl, rfl⟩
  | number value =>
      have written : Nat.toDigits 10 value ≠ [] := Nat.toDigits_ne_nil
      obtain ⟨first, rest, digits⟩ := List.exists_cons_of_ne_nil written
      have member : first ∈ Nat.toDigits 10 value := digits ▸ List.mem_cons_self
      have digit : first.isDigit = true :=
        Nat.isDigit_of_mem_toDigits (by decide) (by decide) member
      exact ⟨first, rest, digits, by rw [shapeOfFirst, if_pos digit, shape]⟩
  | string text => exact ⟨_, _, rfl, rfl⟩
  | array elements =>
      obtain ⟨rest, whole⟩ := block_eq_cons '[' ']' depth (charsOfElements (depth + 1) elements)
      exact ⟨_, rest, by rw [chars, whole], rfl⟩
  | object members =>
      obtain ⟨rest, whole⟩ :=
        block_eq_cons '\x7b' '\x7d' depth (charsOfMembers (depth + 1) members)
      exact ⟨_, rest, by rw [chars, whole], rfl⟩

private theorem shape_eq_of_append_eq {depth : Nat} {value value' : Json} {after after' : List Char}
    (same : chars depth value ++ after = chars depth value' ++ after') :
    value.shape = value'.shape := by
  obtain ⟨first, rest, whole, shaped⟩ := chars_eq_cons depth value
  obtain ⟨first', rest', whole', shaped'⟩ := chars_eq_cons depth value'
  rw [whole, whole'] at same
  rw [← shaped, ← shaped', (List.cons.inj same).1]

private theorem bool_append_inj {depth : Nat} {value value' : Bool} {after after' : List Char}
    (same : chars depth (.bool value) ++ after = chars depth (.bool value') ++ after') :
    value = value' ∧ after = after' := by
  cases value with
  | true =>
      cases value' with
      | true => exact ⟨rfl, List.append_cancel_left same⟩
      | false => exact absurd (List.cons.inj same).1 (by decide)
  | false =>
      cases value' with
      | true => exact absurd (List.cons.inj same).1 (by decide)
      | false => exact ⟨rfl, List.append_cancel_left same⟩

private def charsOfMember (depth : Nat) (member : String × Json) : List Char :=
  quoted member.1 ++ ':' :: ' ' :: chars depth member.2

private theorem charsOfElements_eq_map (depth : Nat) (elements : List Json) :
    charsOfElements depth elements = elements.map (chars depth) := by
  induction elements with
  | nil => rfl
  | cons first rest induction => rw [charsOfElements, induction, List.map_cons]

private theorem charsOfMembers_eq_map (depth : Nat) (members : List (String × Json)) :
    charsOfMembers depth members = members.map (charsOfMember depth) := by
  induction members with
  | nil => rfl
  | cons first rest induction => rw [charsOfMembers, induction, List.map_cons, charsOfMember]

private theorem Told.member {depth : Nat} {value : Json} (told : Told (chars depth) value)
    (key : String) : Told (charsOfMember depth) (key, value) := by
  intro member' after after' ended ended' same
  obtain ⟨key', value'⟩ := member'
  simp only [charsOfMember, List.append_assoc, List.cons_append] at same
  obtain ⟨sameKey, same⟩ := quoted_append_inj same
  have same := (List.cons.inj same).2
  obtain ⟨sameValue, sameAfter⟩ := told ended ended' (List.cons.inj same).2
  exact ⟨by rw [sameKey, sameValue], sameAfter⟩

mutual

theorem told_chars (depth : Nat) : (value : Json) → Told (chars depth) value
  | .null => by
      intro value' after after' _ _ same
      have shapes := shape_eq_of_append_eq same
      cases value' with
      | null => exact ⟨rfl, List.append_cancel_left same⟩
      | _ => cases shapes
  | .bool value => by
      intro value' after after' _ _ same
      have shapes := shape_eq_of_append_eq same
      cases value' with
      | bool value' =>
          obtain ⟨rfl, sameAfter⟩ := bool_append_inj same
          exact ⟨rfl, sameAfter⟩
      | _ => cases shapes
  | .number value => by
      intro value' after after' ended ended' same
      have shapes := shape_eq_of_append_eq same
      cases value' with
      | number value' =>
          obtain ⟨rfl, sameAfter⟩ := toDigits_append_inj ended ended' same
          exact ⟨rfl, sameAfter⟩
      | _ => cases shapes
  | .string text => by
      intro value' after after' _ _ same
      have shapes := shape_eq_of_append_eq same
      cases value' with
      | string text' =>
          obtain ⟨rfl, sameAfter⟩ := quoted_append_inj same
          exact ⟨rfl, sameAfter⟩
      | _ => cases shapes
  | .array elements => by
      intro value' after after' _ _ same
      have shapes := shape_eq_of_append_eq same
      cases value' with
      | array elements' =>
          rw [chars, chars, charsOfElements_eq_map, charsOfElements_eq_map] at same
          obtain ⟨rfl, sameAfter⟩ :=
            block_append_inj (by decide) (told_elements (depth + 1) elements) same
          exact ⟨rfl, sameAfter⟩
      | _ => cases shapes
  | .object members => by
      intro value' after after' _ _ same
      have shapes := shape_eq_of_append_eq same
      cases value' with
      | object members' =>
          rw [chars, chars, charsOfMembers_eq_map, charsOfMembers_eq_map] at same
          obtain ⟨rfl, sameAfter⟩ :=
            block_append_inj (by decide) (told_members (depth + 1) members) same
          exact ⟨rfl, sameAfter⟩
      | _ => cases shapes

theorem told_elements (depth : Nat) :
    (elements : List Json) → ∀ element ∈ elements, Told (chars depth) element
  | [] => nofun
  | first :: rest =>
      List.forall_mem_cons.mpr ⟨told_chars depth first, told_elements depth rest⟩

theorem told_members (depth : Nat) :
    (members : List (String × Json)) → ∀ member ∈ members, Told (charsOfMember depth) member
  | [] => nofun
  | (key, value) :: rest =>
      List.forall_mem_cons.mpr ⟨(told_chars depth value).member key, told_members depth rest⟩

end

theorem render_inj {value value' : Json} (same : value.render = value'.render) :
    value = value' := by
  have same := String.ofList_injective same
  rw [← List.append_nil (chars 0 value), ← List.append_nil (chars 0 value')] at same
  exact (told_chars 0 value ended_nil ended_nil same).1

end TermScript.Json

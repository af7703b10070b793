import Mathlib.Data.List.Perm.Subperm
import TermScript.Command.Run
import TermScript.Proofs.Grammar.Completeness
import TermScript.Proofs.Rule.Entries
import TermScript.Proofs.Session.Reuse

/-! What the log tells of the reading of a script. Elements are entered from the first token to the
last and none of them twice. The lines about them show the tokens with which elements begin, and the
lines about items number those that were read with their semicolons. -/

namespace TermScript

open Rule

namespace Program

variable {limit index : Nat} {input : Input}

private theorem announces_nextItem (limit index : Nat) {previous : Option Kind}
    (opens : opensElements previous = true) :
    (nextItem limit index).Announces (fun _ => True) previous := by
  refine .after_look fun ended => ?_
  cases ended with
  | true => exact announces_pure none
  | false =>
      have item := (Item.heralds_rule limit opens).mono fun _ _ => trivial
      refine item.bind fun item _ => .after_expect rfl fun _ => ?_
      exact .after_note (announces_pure (some item)) (fun _ => rfl) fun _ => trivial

private theorem opens_behind_item {previous : Option Kind} {item : Item} {rest : Input}
    {read : List Token} (run : (nextItem limit index).Yields input (some item) rest)
    (split : input = rest.prepend read) : opensElements (lastKind previous read) = true := by
  obtain ⟨-, semicolon, itemRun, isSemicolon⟩ := yields_nextItem_some.mp run
  obtain ⟨tokens, whole, -⟩ := Item.reads_rule limit itemRun
  rw [split, Input.prepend_prepend] at whole
  have same : read ++ rest.ahead = tokens ++ [semicolon] ++ rest.ahead :=
    congrArg Input.ahead whole
  simp [List.append_cancel_right same, lastKind, isSemicolon, opensElements]

theorem announces_rule (limit : Nat) : (rule limit).Announces (fun _ => True) none :=
  announces_manyFrom (fun index _ opens => announces_nextItem limit index opens)
    (fun _ _ _ _ _ _ run split _ => opens_behind_item run split) 0 rfl

end Program

namespace Command.LogLine

end Command.LogLine

namespace Program

open Command

end Program

end TermScript

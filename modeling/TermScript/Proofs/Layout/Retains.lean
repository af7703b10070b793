import TermScript.Proofs.Grammar.Spelled
import TermScript.Proofs.Grammar.Written

namespace TermScript

open TermScript.Language Layout

namespace Token

/-- What a token says: its kind and text. An atom says its name, be it in quotes or not. -/
def sense (token : Token) : Kind × String :=
  if token.kind ∈ [.atom, .quotedAtom] then (.atom, token.name) else (token.kind, token.text)

private theorem sense_of_atom {token : Token} (isAtom : token.kind ∈ [.atom, .quotedAtom]) :
    token.sense = (.atom, token.name) :=
  if_pos isAtom

private theorem sense_of_plain {token : Token} (plain : token.kind ∉ [.atom, .quotedAtom]) :
    token.sense = (token.kind, token.text) :=
  if_neg plain

/-- The kinds of token that a layout may do without. -/
def spareKinds : List Kind :=
  [.openParen, .closeParen, .comma]

/-- The first row says what the second one does, in order; tokens left out are spare. -/
inductive Thins : List Token → List Token → Prop
  | nil : Thins [] []
  | keep {token token' : Token} {tokens tokens' : List Token} :
      token.sense = token'.sense → Thins tokens tokens' → Thins (token :: tokens) (token' :: tokens')
  | spare {token : Token} {tokens tokens' : List Token} :
      token.kind ∈ spareKinds → Thins tokens tokens' → Thins tokens (token :: tokens')

theorem Thins.append {tokens tokens' others others' : List Token} (left : Thins tokens tokens')
    (right : Thins others others') : Thins (tokens ++ others) (tokens' ++ others') := by
  induction left with
  | nil => exact right
  | keep same _ induction => exact .keep same induction
  | spare isSpare _ induction => exact .spare isSpare induction

end Token

namespace Layout

/-- Wherever the layout stands, its words say what the row says. -/
def Retains (pieces : List Piece) (tokens : List Token) : Prop :=
  ∀ offset, Token.Thins (placed offset pieces) tokens

namespace Retains

variable {pieces rest : List Piece} {tokens others : List Token} {token : Token}

theorem nil : Retains [] [] :=
  fun _ => .nil

theorem append (left : Retains pieces tokens) (right : Retains rest others) :
    Retains (pieces ++ rest) (tokens ++ others) := by
  intro offset
  rw [placed_append]
  exact (left offset).append (right _)

theorem gap {text : String} (retains : Retains pieces tokens) :
    Retains (.gap text :: pieces) tokens :=
  fun _ => retains _

theorem space (retains : Retains pieces tokens) : Retains (Piece.space :: pieces) tokens :=
  retains.gap

theorem spare (isSpare : token.kind ∈ Token.spareKinds) (retains : Retains pieces tokens) :
    Retains pieces (token :: tokens) :=
  fun offset => .spare isSpare (retains offset)

theorem concat_spare (retains : Retains pieces tokens) (isSpare : token.kind ∈ Token.spareKinds) :
    Retains pieces (tokens ++ [token]) := by
  have retained := retains.append (nil.spare isSpare)
  rwa [List.append_nil] at retained

theorem word {kind : Kind} {text : String} (plain : kind ∉ [.atom, .quotedAtom])
    (sameKind : token.kind = kind) (sameText : token.text = text)
    (retains : Retains pieces tokens) :
    Retains (.word kind text :: pieces) (token :: tokens) := by
  intro offset
  refine .keep ?_ (retains _)
  rw [Token.sense_of_plain plain, Token.sense_of_plain (sameKind ▸ plain), text_place, sameKind,
    sameText]
  rfl

theorem mark {kind : Kind} {spelling : String} (one : kind.spelling? = some spelling)
    (spelled : token.Spelled) (sameKind : token.kind = kind) (retains : Retains pieces tokens) :
    Retains (Piece.mark kind :: pieces) (token :: tokens) := by
  have plain : kind ∉ [.atom, .quotedAtom] := by
    intro isAtom
    simp only [List.mem_cons, List.not_mem_nil, or_false] at isAtom
    rcases isAtom with rfl | rfl <;> cases one
  have sameText : token.text = spelling := by
    have spells : kind.Spells token.text.toList := sameKind ▸ spelled
    exact String.toList_inj.mp (spells.eq_toList one)
  rw [Piece.mark, one]
  exact retains.word plain sameKind sameText

theorem functor (isAtom : token.kind ∈ [.atom, .quotedAtom]) (retains : Retains pieces tokens) :
    Retains (Layout.functor token.name :: pieces) (token :: tokens) := by
  intro offset
  obtain ⟨token', next, split, isAtom', same⟩ := placed_functor offset token.name pieces
  rw [split]
  refine .keep ?_ (retains next)
  rw [Token.sense_of_atom isAtom, Token.sense_of_atom isAtom', same]

theorem string (spelled : token.Spelled) (isString : token.kind = .string)
    (retains : Retains pieces tokens) :
    Retains (Layout.string token.unquoted :: pieces) (token :: tokens) := by
  apply retains.word (by decide) isString
  rw [Token.Spelled, isString] at spelled
  obtain ⟨run, isRun, enclosed⟩ := spelled
  rw [Token.unquoted_of_enclosed (.inr rfl) enclosed, quotedText, String.toList_ofList,
    Text.enquote, isRun.escape_unescape (by decide), ← enclosed, String.ofList_toList]

end Retains

end Layout

namespace Language

variable {α : Type}

/-- The layout of a value retains every well-spelled row that stands for it. -/
def Keeps (language : Language α) (layout : α → List Piece) : Prop :=
  ∀ ⦃tokens value⦄, Token.AllSpelled tokens → language tokens value →
    Retains (layout value) tokens

namespace Keeps

variable {language : Language α} {layout : α → List Piece} {tokens : List Token} {opener : Token}
  {value : α} {values : List α}

theorem separated (keeps : Keeps language layout) :
    Keeps (Separated language) fun values => Layout.separated (values.map layout) := by
  intro tokens values spelled separated
  dsimp only
  induction separated with
  | one first =>
      rw [List.map_singleton, separated_singleton]
      exact keeps spelled first
  | @more tokens others comma value values first isComma rest induction =>
      obtain ⟨second, later, rfl⟩ : ∃ second later, values = second :: later := by
        cases rest with
        | one => exact ⟨_, _, rfl⟩
        | more => exact ⟨_, _, rfl⟩
      rw [List.map_cons, List.map_cons, separated_cons_cons]
      have restRetained := induction spelled.right.tail
      exact (keeps spelled.left first).append
        (.mark rfl spelled.right.head isComma restRetained.space)

theorem listed (keeps : Keeps language layout) :
    Keeps (Listed language) fun values => Layout.separated (values.map layout) := by
  intro tokens values spelled listed
  cases listed with
  | empty => exact .nil
  | plain separated => exact keeps.separated spelled separated
  | trailing separated isComma =>
      exact (keeps.separated spelled.left separated).concat_spare
        (by rw [isComma]; decide)

theorem closed (keeps : Keeps language layout) {close : Kind} {spelling : String}
    (one : close.spelling? = some spelling) :
    Keeps (Closed close language) fun value => layout value ++ [Piece.mark close] := by
  intro tokens value spelled closed
  obtain ⟨inner, closes⟩ := closed
  exact (keeps spelled.left inner).append (.mark one spelled.right.head closes .nil)

theorem unclosed (keeps : Keeps language layout) :
    Keeps (Closed .closeParen language) layout := by
  intro tokens value spelled closed
  obtain ⟨inner, closes⟩ := closed
  exact (keeps spelled.left inner).concat_spare (by rw [closes]; decide)

theorem parenthesised (keeps : Keeps language layout) (spelled : Token.AllSpelled (opener :: tokens))
    (opens : opener.kind = .openParen) (closed : Closed .closeParen language tokens value) :
    Retains (Layout.parenthesised (layout value)) (opener :: tokens) :=
  .mark rfl spelled.head opens (keeps.closed rfl spelled.tail closed)

theorem ungrouped (keeps : Keeps language layout) (spelled : Token.AllSpelled (opener :: tokens))
    (opens : opener.kind = .openParen) (closed : Closed .closeParen language tokens value) :
    Retains (layout value) (opener :: tokens) :=
  (keeps.unclosed spelled.tail closed).spare (by rw [opens]; decide)

theorem bracketed (keeps : Keeps language layout) (spelled : Token.AllSpelled (opener :: tokens))
    (opens : opener.kind = .openBracket)
    (closed : Closed .closeBracket (Listed language) tokens values) :
    Retains (Layout.bracketed (Layout.separated (values.map layout))) (opener :: tokens) :=
  .mark rfl spelled.head opens (keeps.listed.closed rfl spelled.tail closed)

theorem arguments (keeps : Keeps language layout) (spelled : Token.AllSpelled (opener :: tokens))
    (opens : opener.kind = .openParen)
    (closed : Closed .closeParen (Listed language) tokens values) :
    Retains (Layout.arguments (values.map layout)) (opener :: tokens) := by
  unfold Layout.arguments
  split
  · rename_i empty
    rw [List.isEmpty_iff, List.map_eq_nil_iff] at empty
    subst empty
    exact keeps.listed.ungrouped spelled opens closed
  · exact keeps.listed.parenthesised spelled opens closed

theorem chain {join : α → α → α} {link last : Language α} {linkLayout : α → List Piece}
    (links : Keeps link linkLayout) (keeps : Keeps last layout)
    (joins : ∀ head tail, layout (join head tail) = joined (linkLayout head) (layout tail)) :
    Keeps (Chain join link last) layout := by
  intro tokens value spelled chain
  induction chain with
  | last final => exact keeps spelled final
  | link first isColon _ induction =>
      have headRetained := links spelled.left first
      have tailRetained := induction spelled.right.tail
      rw [joins, joined, List.append_assoc]
      exact headRetained.append (.space (.mark rfl spelled.right.head isColon tailRetained.space))

end Keeps

end Language

end TermScript

import TermScript.Proofs.Layout.Retains
import TermScript.Proofs.RoundTrip

namespace TermScript

open TermScript.Language Layout

namespace Pattern

/-- The layout in front of a colon. -/
private def headPieces (pattern : Pattern) : List Piece :=
  if pattern.opensChain then parenthesised pattern.pieces else pattern.pieces

variable {inner : Language Pattern}

private theorem keeps_element (keeps : Keeps inner pieces) : Keeps (Element inner) pieces := by
  intro tokens pattern spelled element
  cases element with
  | wildcard isUnderscore => exact .mark rfl spelled.head isUnderscore .nil
  | var isName => exact .word (by decide) isName rfl .nil
  | atom isAtom => exact .functor isAtom .nil
  | tree isAtom opens children =>
      rw [pieces, piecesOfList_eq_map]
      exact .functor isAtom (keeps.arguments spelled.tail opens children)
  | string isString => exact .string spelled.head isString .nil
  | list opens elements =>
      rw [pieces, piecesOfList_eq_map]
      exact keeps.bracketed spelled opens elements
  | group opens closed => exact keeps.ungrouped spelled opens closed

private theorem keeps_head (keeps : Keeps inner pieces) : Keeps (Element inner) headPieces := by
  intro tokens pattern spelled element
  unfold headPieces
  split
  · rename_i opensChain
    cases element with
    | group opens closed => exact keeps.parenthesised spelled opens closed
    | _ => cases opensChain
  · exact keeps_element keeps spelled element

private theorem keeps_final (keeps : Keeps inner pieces) : Keeps (Final inner) pieces := by
  intro tokens pattern spelled final
  cases final with
  | element element => exact keeps_element keeps spelled element
  | named isName isAt derives =>
      have retained := keeps spelled.tail.tail derives
      exact .word (by decide) isName rfl (.mark rfl spelled.tail.head isAt retained)

theorem keeps_derives (height : Nat) : Keeps (Derives height) pieces := by
  induction height with
  | zero => exact fun _ _ _ impossible => impossible.elim
  | succ height induction =>
      exact (keeps_head induction).chain (keeps_final induction) fun _ _ => rfl

end Pattern

theorem Clause.keeps_derives {pattern : Language Pattern} {inner : Language Term}
    (patterns : Keeps pattern Pattern.pieces) (keeps : Keeps inner Term.pieces) :
    Keeps (Clause.Derives pattern inner) pieces := by
  intro tokens clause spelled derives
  obtain ⟨⟨patternsDerive, isArrow⟩, bodyDerives⟩ := derives
  have bodyRetained := keeps spelled.right bodyDerives
  have left := patterns.listed spelled.left.left patternsDerive
  rw [pieces, ← List.append_cons]
  exact left.append (.space (.mark rfl spelled.left.right.head isArrow bodyRetained.space))

namespace Term

/-- The layout in front of a colon. -/
private def headPieces (term : Term) : List Piece :=
  if term.opensChain then parenthesised term.pieces else term.pieces

private theorem keeps_spaced {α : Type} {language : Language α} {layout : α → List Piece}
    (keeps : Keeps language layout) :
    Keeps (Listed language) fun values => spaced (values.map layout) := by
  intro tokens values spelled listed
  have retained := keeps.listed spelled listed
  dsimp only [spaced] at retained ⊢
  split
  · rename_i empty
    rw [List.isEmpty_iff] at empty
    rwa [empty] at retained
  · have spaced := retained.append (Retains.nil.space)
    rwa [List.append_nil] at spaced

variable {pattern : Language Pattern} {inner : Language Term}

private theorem keeps_element (patterns : Keeps pattern Pattern.pieces)
    (keeps : Keeps inner pieces) :
    Keeps (Element pattern inner) pieces := by
  intro tokens term spelled element
  cases element with
  | var isName => exact .word (by decide) isName rfl .nil
  | app isName opens operands =>
      rw [pieces, piecesOfList_eq_map]
      have operandsRetained := keeps.listed.parenthesised spelled.tail opens operands
      exact .word (by decide) isName rfl operandsRetained
  | atom isAtom => exact .functor isAtom .nil
  | tree isAtom opens children =>
      rw [pieces, piecesOfList_eq_map]
      exact .functor isAtom (keeps.arguments spelled.tail opens children)
  | string isString => exact .string spelled.head isString .nil
  | list opens elements =>
      rw [pieces, piecesOfList_eq_map]
      exact keeps.bracketed spelled opens elements
  | group opens closed => exact keeps.ungrouped spelled opens closed
  | matching isMatch subjects clauses =>
      have subjectsRetained := (keeps_spaced keeps).closed rfl spelled.tail.left subjects
      have clausesRetained := (keeps_spaced (Clause.keeps_derives patterns keeps)).closed rfl
        spelled.tail.right clauses
      rw [pieces, piecesOfList_eq_map, piecesOfClauses_eq_map, List.append_cons]
      exact .mark rfl spelled.head isMatch
        (.space (subjectsRetained.append clausesRetained.space))

private theorem keeps_head (patterns : Keeps pattern Pattern.pieces) (keeps : Keeps inner pieces) :
    Keeps (Element pattern inner) headPieces := by
  intro tokens term spelled element
  unfold headPieces
  split
  · rename_i opensChain
    cases element with
    | group opens closed => exact keeps.parenthesised spelled opens closed
    | _ => cases opensChain
  · exact keeps_element patterns keeps spelled element

theorem keeps_derives (height : Nat) : Keeps (Derives height) pieces := by
  induction height with
  | zero => exact fun _ _ _ impossible => impossible.elim
  | succ height induction =>
      have patterns := Pattern.keeps_derives height
      exact (keeps_head patterns induction).chain (keeps_element patterns induction)
        fun _ _ => rfl

end Term

theorem Definition.keeps_derives (height : Nat) : Keeps (Derives height) pieces := by
  intro tokens definition spelled derives
  rw [pieces, Pattern.piecesOfList_eq_map]
  cases derives with
  | plain isLet isName isEquals body =>
      have bodyRetained := Term.keeps_derives height spelled.tail.tail.tail body
      have equals := Retains.mark rfl spelled.tail.tail.head isEquals bodyRetained.space
      exact .mark rfl spelled.head isLet (.space (.word (by decide) isName rfl equals.space))
  | parameters isLet isName opens patterns isEquals body =>
      have spelledRest := spelled.tail.tail.tail.right
      have bodyRetained := Term.keeps_derives height spelledRest.tail body
      have equals := Retains.mark rfl spelledRest.head isEquals bodyRetained.space
      have spelledLeft := spelled.tail.tail.part
        (List.cons_subset_cons _ (List.subset_append_left _ _))
      have arguments := (Pattern.keeps_derives height).arguments spelledLeft opens patterns
      exact .mark rfl spelled.head isLet
        (.space (.word (by decide) isName rfl (arguments.append equals.space)))

theorem Item.keeps_derives (height : Nat) : Keeps (Derives height) pieces := by
  intro tokens item spelled derives
  cases derives with
  | define derives => exact Definition.keeps_derives height spelled derives
  | lone derives => exact Term.keeps_derives height spelled derives

theorem Program.keeps_derives (height : Nat) : Keeps (Derives height) pieces := by
  intro tokens items spelled derives
  induction derives with
  | nil => exact .nil
  | cons item isSemicolon _ induction =>
      have othersRetained := induction spelled.right.tail
      have itemRetained := Item.keeps_derives height spelled.left item
      rw [pieces, List.flatMap_cons, List.append_assoc]
      exact itemRetained.append (.mark rfl spelled.right.head isSemicolon othersRetained.gap)

namespace Source

/-- Written out again, a program has the tokens of its source in the same order; only parentheses
and commas are left out. -/
theorem thins_render_of_program {limit : Nat} {source : String} {items : Program}
    (found : program limit source = .ok items) :
    ∃ tokens printed, Token.scan source = .ok tokens ∧
      Token.scan (Program.render items) = .ok printed ∧ Token.Thins printed tokens := by
  obtain ⟨tokens, scanned, parsed⟩ := parse_of_program found
  have derives := Program.derives_of_parse parsed
  have writable := (writable_of_program found).1
  have spelled := Token.spelled_of_scanFrom scanned
  exact ⟨tokens, _, scanned, scan_render writable,
    Program.keeps_derives limit spelled derives 0⟩

theorem thins_render_looseSpecimen :
    program 3 looseSpecimen = .ok specimen ∧
      ∃ tokens printed, Token.scan looseSpecimen = .ok tokens ∧
        Token.scan (Program.render specimen) = .ok printed ∧ Token.Thins printed tokens := by
  have found : program 3 looseSpecimen = .ok specimen := by decide +kernel
  exact ⟨found, thins_render_of_program found⟩

end Source

end TermScript

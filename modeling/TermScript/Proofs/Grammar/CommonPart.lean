import Mathlib.Data.List.Chain
import TermScript.Layout
import TermScript.Proofs.Rule.Elements
import TermScript.Proofs.Rule.Pairing

namespace TermScript

namespace Pattern

mutual
/-- The term that is built like the pattern. Wildcards and named patterns have none. -/
def toTerm? : Pattern → Option Term
  | .tree functor children => (toTerms? children).map (.tree functor)
  | .wildcard => none
  | .var name => some (.var name)
  | .named _ _ => none
  | .cons head tail => do return .cons (← toTerm? head) (← toTerm? tail)
  | .string text => some (.string text)
  | .list elements => (toTerms? elements).map .list

def toTerms? : List Pattern → Option (List Term)
  | [] => some []
  | first :: rest => do return (← toTerm? first) :: (← toTerms? rest)
end

/-- Is the pattern built like this term? -/
def Images (pattern : Pattern) (term : Term) : Prop :=
  pattern.toTerm? = some term

private theorem toTerms?_of_images {patterns : List Pattern} {terms : List Term}
    (images : List.Forall₂ Images patterns terms) : toTerms? patterns = some terms := by
  induction images with
  | nil => rfl
  | cons first _ induction =>
      rw [toTerms?, first, induction]
      rfl

mutual
/-- Does the pattern do without wildcards and named patterns? -/
def isShared : Pattern → Bool
  | .tree _ children => areShared children
  | .wildcard => false
  | .var _ => true
  | .named _ _ => false
  | .cons head tail => isShared head && isShared tail
  | .string _ => true
  | .list elements => areShared elements

def areShared : List Pattern → Bool
  | [] => true
  | first :: rest => isShared first && areShared rest
end

end Pattern

/-- The expectations of the two grammars, where a pattern stands for a term. -/
inductive Expectation.Mirrors : Expectation → Expectation → Prop
  | start : Mirrors .pattern .term
  | kinds (kinds : List Kind) : Mirrors (.oneOf kinds) (.oneOf kinds)

inductive Fault.Mirrors : Fault → Fault → Prop
  | unexpected {expected expected' : Expectation} (found : Token) : expected.Mirrors expected' →
      Mirrors (.unexpected expected found) (.unexpected expected' found)
  | exhausted {expected expected' : Expectation} : expected.Mirrors expected' →
      Mirrors (.exhausted expected) (.exhausted expected')
  | overNested (limit : Nat) (place : Span) :
      Mirrors (.overNested limit place) (.overNested limit place)

private theorem Input.fault_mirrors {expected expected' : Expectation}
    (mirrors : expected.Mirrors expected') (input : Input) :
    (input.fault expected).Mirrors (input.fault expected') := by
  unfold fault
  cases input.peek? with
  | none => exact .exhausted mirrors
  | some first => exact .unexpected first mirrors

/-- Tokens that only the common part of the grammars has a use for: no match, no wildcard, no at
sign, and no identifier with arguments. -/
structure SharedTokens (tokens : List Token) : Prop where
  kinds : ∀ token ∈ tokens, token.kind ∉ [.matchWord, .underscore, .atSign]
  unapplied : tokens.IsChain fun first second =>
    first.kind = .identifier → second.kind ≠ .openParen

namespace SharedTokens

variable {tokens : List Token} {first : Token}

private theorem tail (shared : SharedTokens tokens) : SharedTokens tokens.tail :=
  ⟨fun token member => shared.kinds token (List.mem_of_mem_tail member), shared.unapplied.tail⟩

private theorem startsWith_eq_false {kind : Kind} {input : Input}
    (shared : SharedTokens input.ahead) (absent : kind ∈ [.matchWord, .underscore, .atSign]) :
    input.startsWith [kind] = false := by
  rw [Input.startsWith_eq_false_iff]
  intro first next same
  rw [List.mem_singleton] at same
  exact shared.kinds first (List.mem_of_head? next) (same ▸ absent)

private theorem not_applied {input : Input} (shared : SharedTokens input.ahead)
    (next : input.peek? = some first) (isName : first.kind = .identifier) :
    input.advance.startsWith [.openParen] = false := by
  obtain ⟨_ | ⟨head, rest⟩, finish⟩ := input
  · cases next
  · cases next
    rw [Input.startsWith_eq_false_iff]
    intro second after same
    rw [List.mem_singleton] at same
    obtain ⟨others, rfl⟩ := List.head?_eq_some_iff.mp after
    exact (List.isChain_cons_cons.mp shared.unapplied).1 isName same

end SharedTokens

/-- The same input for both, with shared tokens ahead. -/
def Pairing.mirror : Pairing where
  inputs input input' := input' = input ∧ SharedTokens input.ahead
  faults := Fault.Mirrors
  next {input _} inputs := by
    rw [inputs.1]
    cases input.peek? with
    | none => exact .none
    | some first => exact .some (.refl first)
  advance inputs := ⟨congrArg Input.advance inputs.1, inputs.2.tail⟩
  misfit kinds inputs := inputs.1 ▸ Input.fault_mirrors (.kinds kinds) _
  spent limit inputs := inputs.1 ▸ .overNested limit _

namespace Rule

private theorem accept_of_not {kind : Kind} {input : Input}
    (missing : input.startsWith [kind] = false) :
    accept kind input = ⟨.ok false, input, []⟩ := by
  rw [accept, if_neg (Bool.not_eq_true _ ▸ missing)]

end Rule

section Reading

open Pairing

variable {inner : Rule Pattern} {terms : Rule Term} {input : Input}

private theorem Pattern.nameRule_of_plain (name : String)
    (missing : input.startsWith [.atSign] = false) :
    nameRule inner name input = ⟨.ok (.var name), input, []⟩ := by
  rw [nameRule, Rule.bind_of_ok (Rule.accept_of_not missing)]
  rfl

private theorem Term.nameRule_of_plain (name : String)
    (missing : input.startsWith [.openParen] = false) :
    nameRule terms name input = ⟨.ok (.var name), input, []⟩ := by
  have plain : Rule.arguments? terms input = ⟨.ok none, input, []⟩ := by
    rw [Rule.arguments?, Rule.bind_of_ok (Rule.accept_of_not missing)]
    rfl
  rw [nameRule, Rule.bind_of_ok plain]
  rfl

variable (inners : mirror.Pairs Pattern.Images inner terms)

include inners

private theorem mirror_treeRule (functor : String) :
    mirror.Pairs Pattern.Images (Pattern.treeRule inner functor)
      (Term.treeRule terms functor) := by
  refine inners.arguments?.bind fun children? operands? related => pairs_pure ?_
  cases related with
  | none => rfl
  | some related =>
      change Option.map _ _ = _
      rw [Option.getD_some, Pattern.toTerms?_of_images related]
      rfl

private theorem mirror_element (patterns : Rule Pattern) :
    mirror.Pairs Pattern.Images (Pattern.element inner) (Term.element patterns terms) := by
  refine (pairs_note _ _).bind fun _ _ _ => ?_
  intro _ input inputs
  obtain ⟨rfl, shared⟩ := inputs
  have misfit : mirror.Ends Pattern.Images ⟨.error (input.fault .pattern), input, []⟩
      ⟨.error (input.fault .term), input, []⟩ :=
    ⟨.error (input.fault_mirrors .start), rfl, shared⟩
  have inputs : mirror.inputs input.advance input.advance := ⟨rfl, shared.tail⟩
  unfold Rule.choose
  cases next : input.peek? with
  | none => exact misfit
  | some first =>
      have plain := shared.kinds first (List.mem_of_head? next)
      rw [Option.bind_some, Option.bind_some, Pattern.ruleFor, Term.ruleFor]
      cases kind : first.kind with
      | identifier =>
          simp only
          rw [Pattern.nameRule_of_plain _ (shared.tail.startsWith_eq_false (by decide)),
            Term.nameRule_of_plain _ (shared.not_applied next kind)]
          exact ⟨.ok rfl, inputs⟩
      | atom => exact mirror_treeRule inners _ inputs
      | quotedAtom => exact mirror_treeRule inners _ inputs
      | string => exact ⟨.ok rfl, inputs⟩
      | openBracket =>
          refine (inners.listUntil .closeBracket).map (fun patterns terms related => ?_) inputs
          change Option.map _ _ = _
          rw [Pattern.toTerms?_of_images related]
          rfl
      | openParen => exact inners.closed .closeParen inputs
      | underscore => exact absurd (kind ▸ plain) (by decide)
      | matchWord => exact absurd (kind ▸ plain) (by decide)
      | _ => exact misfit

end Reading

theorem mirror_within (limit budget : Nat) :
    Pairing.mirror.Pairs Pattern.Images (Pattern.within limit budget)
      (Term.within limit budget) := by
  induction budget with
  | zero => exact Pairing.pairs_overNested limit
  | succ budget induction =>
      refine (mirror_element induction _).chain fun head head' tail tail' heads tails => ?_
      rw [Pattern.Images, Pattern.toTerm?, heads, tails]
      rfl

mutual
theorem Pattern.exists_image : (pattern : Pattern) → pattern.isShared = true →
    ∃ term, pattern.toTerm? = some term ∧ term.pieces = pattern.pieces ∧
      term.opensChain = pattern.opensChain
  | .tree functor children, shared => by
      obtain ⟨terms, images, pieces⟩ := exists_images children shared
      refine ⟨.tree functor terms, ?_, ?_, rfl⟩
      · rw [toTerm?, images]
        rfl
      · rw [Term.pieces, Pattern.pieces, pieces]
  | .var name, _ => ⟨.var name, rfl, rfl, rfl⟩
  | .cons head tail, shared => by
      rw [isShared, Bool.and_eq_true] at shared
      obtain ⟨head', headImage, headPieces, opens⟩ := exists_image head shared.1
      obtain ⟨tail', tailImage, tailPieces, -⟩ := exists_image tail shared.2
      refine ⟨.cons head' tail', ?_, ?_, rfl⟩
      · rw [toTerm?, headImage, tailImage]
        rfl
      · rw [Term.pieces, Pattern.pieces, headPieces, tailPieces, opens]
  | .string text, _ => ⟨.string text, rfl, rfl, rfl⟩
  | .list elements, shared => by
      obtain ⟨terms, images, pieces⟩ := exists_images elements shared
      refine ⟨.list terms, ?_, ?_, rfl⟩
      · rw [toTerm?, images]
        rfl
      · rw [Term.pieces, Pattern.pieces, pieces]

theorem Pattern.exists_images : (patterns : List Pattern) → areShared patterns = true →
    ∃ terms, toTerms? patterns = some terms ∧
      Term.piecesOfList terms = Pattern.piecesOfList patterns
  | [], _ => ⟨[], rfl, rfl⟩
  | first :: rest, shared => by
      rw [areShared, Bool.and_eq_true] at shared
      obtain ⟨first', firstImage, firstPieces, -⟩ := exists_image first shared.1
      obtain ⟨rest', restImages, restPieces⟩ := exists_images rest shared.2
      refine ⟨first' :: rest', ?_, ?_⟩
      · rw [toTerms?, firstImage, restImages]
        rfl
      · rw [Term.piecesOfList, Pattern.piecesOfList, firstPieces, restPieces]
end

/-- Where nothing but the common part of the grammars is used, patterns and terms are read in the
same way, and what the common part can build is written in the same way. -/
theorem Pattern.reads_and_writes_as_term :
    (∀ tokens, SharedTokens tokens → ∀ limit,
      Corresponds Images Fault.Mirrors (rule limit (.ofTokens tokens)).result
          (Term.rule limit (.ofTokens tokens)).result ∧
        (Term.rule limit (.ofTokens tokens)).rest = (rule limit (.ofTokens tokens)).rest) ∧
      ∀ pattern : Pattern, pattern.isShared = true →
        ∃ term, pattern.Images term ∧ term.render = pattern.render := by
  constructor
  · intro tokens shared limit
    have inputs : Pairing.mirror.inputs (.ofTokens tokens) (.ofTokens tokens) := ⟨rfl, shared⟩
    obtain ⟨related, same, -⟩ := mirror_within limit limit inputs
    exact ⟨related, same⟩
  · intro pattern shared
    obtain ⟨term, image, pieces, -⟩ := pattern.exists_image shared
    exact ⟨term, image, congrArg Layout.render pieces⟩

/-- The tokens of `(X:y):[z]`. -/
def headChainTokens : List Token :=
  [⟨.openParen, "(", ⟨0, 1⟩⟩, ⟨.atom, "X", ⟨1, 1⟩⟩, ⟨.colon, ":", ⟨2, 1⟩⟩,
    ⟨.identifier, "y", ⟨3, 1⟩⟩, ⟨.closeParen, ")", ⟨4, 1⟩⟩, ⟨.colon, ":", ⟨5, 1⟩⟩,
    ⟨.openBracket, "[", ⟨6, 1⟩⟩, ⟨.identifier, "z", ⟨7, 1⟩⟩, ⟨.closeBracket, "]", ⟨8, 1⟩⟩]

def headChain : Pattern :=
  .cons (.cons (.tree "X" []) (.var "y")) (.list [.var "z"])

theorem Pattern.reads_and_writes_as_term_headChain :
    SharedTokens headChainTokens ∧ headChain.isShared = true ∧
      (rule 2 (.ofTokens headChainTokens)).result = .ok headChain ∧
      (∃ term, headChain.Images term ∧
        (Term.rule 2 (.ofTokens headChainTokens)).result = .ok term ∧
        term.render = headChain.render) ∧
      (Term.rule 1 (.ofTokens headChainTokens)).result = .error (.overNested 1 ⟨1, 1⟩) := by
  have shared : SharedTokens headChainTokens := ⟨by decide, by decide⟩
  obtain ⟨reads, writes⟩ := reads_and_writes_as_term
  have read : (rule 2 (.ofTokens headChainTokens)).result = .ok headChain := by decide +kernel
  have refused : (rule 1 (.ofTokens headChainTokens)).result =
      .error (.overNested 1 ⟨1, 1⟩) := by decide +kernel
  refine ⟨shared, rfl, read, ?_, ?_⟩
  · obtain ⟨term, image, rendered⟩ := writes headChain rfl
    have related := (reads _ shared 2).1
    rw [read] at related
    generalize (Term.rule 2 (.ofTokens headChainTokens)).result = result at related
    cases related with
    | ok image' =>
        cases Option.some.inj (image.symm.trans image')
        exact ⟨term, image, rfl, rendered⟩
  · have related := (reads _ shared 1).1
    rw [refused] at related
    generalize (Term.rule 1 (.ofTokens headChainTokens)).result = result at related
    cases related with
    | error mirrors =>
        cases mirrors
        rfl

end TermScript

import TermScript.Proofs.Grammar.ViablePrefix
import TermScript.Proofs.RoundTrip
import TermScript.Proofs.Token.Seams

namespace TermScript

open Rule

private theorem Input.ofTokens_append (tokens : List Token) {others : List Token}
    (nonempty : others ≠ []) :
    ofTokens (tokens ++ others) = (ofTokens others).prepend tokens := by
  have finish : finishOf (tokens ++ others) = finishOf others := by
    rw [finishOf, List.getLast?_append_of_ne_nil tokens nonempty, ← finishOf]
  rw [ofTokens, finish]
  rfl

namespace Program

variable {limit : Nat} {tokens others : List Token} {items : Program}

private theorem Derives.faults_prepend (derives : Derives limit tokens items) {input rest : Input}
    {fault : Fault} (run : (rule limit).Faults input fault rest) :
    (rule limit).Faults (input.prepend tokens) fault rest := by
  obtain ⟨values, last, middle, walks, stop⟩ := (faults_many (shrinks_nextItem limit)).mp run
  obtain ⟨read, rfl, readDerives⟩ := reads_walks walks
  obtain ⟨last', walks'⟩ := completes_walks (derives.append readDerives) middle 0
  rw [Input.prepend_prepend]
  exact (faults_many (shrinks_nextItem limit)).mpr
    ⟨items ++ values, last', middle, walks', faults_nextItem.mpr (faults_nextItem.mp stop)⟩

theorem parse_append (parsed : parse limit tokens = .ok items) (others : List Token) :
    parse limit (tokens ++ others) = (parse limit others).map (items ++ ·) := by
  have derives := derives_of_parse parsed
  rcases outcome : parse limit others with fault | values
  · have nonempty : others ≠ [] := by
      rintro rfl
      rw [Derives.nil.parse] at outcome
      cases outcome
    obtain ⟨rest, run⟩ := result_eq_error_iff.mp outcome
    rw [parse, Input.ofTokens_append tokens nonempty]
    exact (derives.faults_prepend run).result
  · exact (derives.append (derives_of_parse outcome)).parse

end Program

namespace Source

variable {limit : Nat} {first : String} {items : Program}

private theorem program_append_eq (found : program limit first = .ok items) (second : String) :
    program limit (first ++ "\n" ++ second) =
      ((program limit second).map (items ++ ·)).mapError
        (SourceError.shifted (first.utf8ByteSize + 1)) := by
  obtain ⟨tokens, scanned, parsed⟩ := parse_of_program found
  have whole := Token.scan_append_break scanned second
  cases below : Token.scan second with
  | error unreadable =>
      rw [below] at whole
      rw [program, read, whole, program, read, below]
      rfl
  | ok others =>
      rw [below] at whole
      rw [program_eq_parse whole, program_eq_parse below, Program.parse_append parsed,
        Program.parse_shifted]
      generalize Program.parse limit others = outcome
      cases outcome <;> rfl

/-- Below a source that is read, another one gives the same items or the same error as alone; only
the place of the error is farther on, by the bytes of the source above and the line break. -/
theorem program_append_of_program (found : program limit first = .ok items) (second : String) :
    (∀ others, program limit second = .ok others →
      program limit (first ++ "\n" ++ second) = .ok (items ++ others)) ∧
    ∀ error, program limit second = .error error →
      program limit (first ++ "\n" ++ second) =
        .error (error.shifted (first.utf8ByteSize + 1)) := by
  have whole := program_append_eq found second
  constructor
  · intro others below
    rw [whole, below]
    rfl
  · intro error below
    rw [whole, below]
    rfl

/-- A source that ends within a comment, and with fewer characters than bytes. -/
def commented : String :=
  "f([X]); # \"é"

theorem program_append_commented :
    program 3 commented = .ok [.lone (.app "f" [.list [.tree "X" []]])] ∧
      program 3 (commented ++ "\n" ++ "let g = y;") =
        .ok [.lone (.app "f" [.list [.tree "X" []]]), .define ⟨"g", [], .var "y"⟩] ∧
      program 3 (commented ++ "\n" ++ "é;") = .error (.unreadable ⟨"é", ⟨14, 2⟩⟩) ∧
      program 3 (commented ++ "\n" ++ "(((") = .error (.misplaced (.overNested 3 ⟨17, 0⟩)) ∧
      program 3 (commented ++ "\n" ++ "[X") =
        .error (.misplaced (.exhausted (.oneOf [.closeBracket]))) := by
  have found : program 3 commented = .ok [.lone (.app "f" [.list [.tree "X" []]])] := by
    decide +kernel
  have size : commented.utf8ByteSize = 13 := by decide +kernel
  have fails (second : String) (error : SourceError) (failed : program 3 second = .error error) :
      program 3 (commented ++ "\n" ++ second) = .error (error.shifted 14) := by
    rw [(program_append_of_program found second).2 error failed, size]
  refine ⟨found, ?_, ?_, ?_, ?_⟩
  · exact (program_append_of_program found _).1 [.define ⟨"g", [], .var "y"⟩] (by decide +kernel)
  · exact fails _ (.unreadable ⟨"é", ⟨0, 2⟩⟩) (by decide +kernel)
  · exact fails _ (.misplaced (.overNested 3 ⟨3, 0⟩)) (by decide +kernel)
  · exact fails _ (.misplaced (.exhausted (.oneOf [.closeBracket]))) (by decide +kernel)

end Source

/-- Two errors that differ at most in the places they tell of. -/
inductive SourceError.SameButPlace : SourceError → SourceError → Prop
  | misplaced {cause cause' : Fault} : cause.SameButPlace cause' →
      SameButPlace (.misplaced cause) (.misplaced cause')

namespace Layout

/-- The tokens with other space around them: one in front of the first and one behind each. -/
def respaced (lead : String) (tokens : List Token) (spaces : List String) : String :=
  render (.gap lead :: spaced tokens spaces)

end Layout

namespace Source

theorem program_sameWords {source source' : String} {tokens tokens' : List Token}
    (scanned : Token.scan source = .ok tokens) (scanned' : Token.scan source' = .ok tokens')
    (same : List.Forall₂ Token.SameWord tokens tokens') (limit : Nat) :
    Corresponds Eq SourceError.SameButPlace (program limit source) (program limit source') := by
  rw [program_eq_parse scanned, program_eq_parse scanned']
  have related := Program.parse_sameWords same limit
  generalize Program.parse limit tokens = result, Program.parse limit tokens' = result' at related
  cases related with
  | ok same => exact .ok same
  | error same => exact .error (.misplaced same)

/-- With other space around its tokens a source is scanned as the same words and read as the same
items; or it is refused for the same reason. -/
theorem program_respaced {source : String} {tokens : List Token}
    (scanned : Token.scan source = .ok tokens) {lead : String} {spaces : List String}
    (onePerToken : spaces.length = tokens.length)
    (areSpaces : ∀ space ∈ lead :: spaces, Space space.toList ∧ space ≠ "") :
    ∃ tokens', Token.scan (Layout.respaced lead tokens spaces) = .ok tokens' ∧
      List.Forall₂ Token.SameWord tokens tokens' ∧
      ∀ limit, Corresponds Eq SourceError.SameButPlace (program limit source)
        (program limit (Layout.respaced lead tokens spaces)) := by
  obtain ⟨⟨leads, -⟩, areSpaces⟩ := List.forall_mem_cons.mp areSpaces
  have spelled := Token.spelled_of_scanFrom scanned
  have scanned' : Token.scan (Layout.respaced lead tokens spaces) =
      .ok (Layout.placed (Text.byteLength lead.toList) (Layout.spaced tokens spaces)) := by
    rw [Token.scan, Layout.respaced, Layout.render, String.toList_ofList, Layout.chars_cons,
      Piece.text, Token.scanFrom_space leads, Nat.zero_add,
      Layout.scanFrom_spaced spelled areSpaces]
  have same := Layout.sameWords_placed_spaced onePerToken (Text.byteLength lead.toList)
  exact ⟨_, scanned', same, program_sameWords scanned scanned' same⟩

/-- Tokens without any space between them. -/
def crowded : String :=
  "f(12ab'):X;"

def crowdedTokens : List Token :=
  [⟨.identifier, "f", ⟨0, 1⟩⟩, ⟨.openParen, "(", ⟨1, 1⟩⟩, ⟨.atom, "12", ⟨2, 2⟩⟩,
    ⟨.identifier, "ab'", ⟨4, 3⟩⟩, ⟨.closeParen, ")", ⟨7, 1⟩⟩, ⟨.colon, ":", ⟨8, 1⟩⟩,
    ⟨.atom, "X", ⟨9, 1⟩⟩, ⟨.semicolon, ";", ⟨10, 1⟩⟩]

/-- A line that ends in a comment with quotes and marks in it. -/
def remark : String :=
  "\t# 'é\";\r\n"

theorem program_respaced_crowded :
    Token.scan crowded = .ok crowdedTokens ∧
      (List.replicate 8 remark).length = crowdedTokens.length ∧
      (∀ space ∈ " " :: List.replicate 8 remark, Space space.toList ∧ space ≠ "") ∧
      (∃ tokens, Token.scan (Layout.respaced " " crowdedTokens (List.replicate 8 remark)) =
          .ok tokens ∧ List.Forall₂ Token.SameWord crowdedTokens tokens ∧
        ∀ limit, Corresponds Eq SourceError.SameButPlace (program limit crowded)
          (program limit (Layout.respaced " " crowdedTokens (List.replicate 8 remark)))) := by
  have scanned : Token.scan crowded = .ok crowdedTokens := by decide +kernel
  have isRemark : Space remark.toList := by
    have written : remark.toList = '\t' :: '#' :: ([' ', '\'', 'é', '"', ';', '\r'] ++ ['\n']) := by
      decide +kernel
    rw [written]
    exact .blank rfl (.comment rfl .nil)
  have areSpaces : ∀ space ∈ " " :: List.replicate 8 remark,
      Space space.toList ∧ space ≠ "" := by
    refine List.forall_mem_cons.mpr ⟨⟨.blank rfl .nil, by decide⟩, fun space member => ?_⟩
    rw [List.eq_of_mem_replicate member]
    exact ⟨isRemark, by decide +kernel⟩
  exact ⟨scanned, rfl, areSpaces, program_respaced scanned rfl areSpaces⟩

end Source

end TermScript

import TermScript.Proofs.Grammar.Limits
import TermScript.Proofs.Grammar.Spelled
import TermScript.Proofs.Grammar.Written
import TermScript.Session

namespace TermScript

namespace Source

variable {limit : Nat}

theorem program_eq_parse {source : String} {tokens : List Token}
    (scanned : Token.scan source = .ok tokens) :
    program limit source = (Program.parse limit tokens).mapError .misplaced := by
  rw [program, read, scanned]
  rfl

theorem scan_render {items : Program} (writable : Program.isWritable items = true) :
    Token.scan (Program.render items) = .ok (Layout.placed 0 (Program.pieces items)) := by
  rw [Token.scan, Program.render, Layout.render, String.toList_ofList]
  exact Layout.scanFrom_of_tidy (Program.tidy_pieces writable []) 0

theorem parse_of_program {source : String} {items : Program}
    (found : program limit source = .ok items) :
    ∃ tokens, Token.scan source = .ok tokens ∧ Program.parse limit tokens = .ok items := by
  cases scanned : Token.scan source with
  | error unreadable =>
      rw [program, read, scanned] at found
      cases found
  | ok tokens =>
      rw [program_eq_parse scanned] at found
      refine ⟨tokens, rfl, ?_⟩
      cases parsed : Program.parse limit tokens with
      | error fault =>
          rw [parsed] at found
          cases found
      | ok others =>
          rw [parsed] at found
          cases found
          rfl

theorem writable_of_program {source : String} {items : Program}
    (found : program limit source = .ok items) :
    Program.isWritable items = true ∧ Program.nesting items ≤ limit := by
  obtain ⟨tokens, scanned, parsed⟩ := parse_of_program found
  have derives := Program.derives_of_parse parsed
  exact ⟨derives.isWritable (Token.spelled_of_scanFrom scanned), derives.nesting_le⟩

theorem program_render_of_writable {items : Program} (writable : Program.isWritable items = true)
    (atMost : Program.nesting items ≤ limit) :
    program limit (Program.render items) = .ok items := by
  have derives := Program.shown_pieces atMost 0
  rw [program_eq_parse (scan_render writable), derives.parse]
  rfl

theorem overNested_render {items : Program} (writable : Program.isWritable items = true)
    (tooDeep : limit < Program.nesting items) :
    ∃ place, program limit (Program.render items) =
      .error (.misplaced (.overNested limit place)) := by
  have derives := Program.shown_pieces (Nat.le_refl (Program.nesting items)) 0
  obtain ⟨place, failed⟩ := Program.parse_overNested derives tooDeep
  refine ⟨place, ?_⟩
  rw [program_eq_parse (scan_render writable), failed]
  rfl

/-- Exactly the programs that can be written and whose nesting the limit allows are read back as
they are; of those that can be written, the others nest too deep. -/
theorem program_render_eq_ok_iff (limit : Nat) (items : Program) :
    (program limit (Program.render items) = .ok items ↔
      Program.isWritable items = true ∧ Program.nesting items ≤ limit) ∧
      (Program.isWritable items = true ∧ limit < Program.nesting items →
        ∃ place, program limit (Program.render items) =
          .error (.misplaced (.overNested limit place))) := by
  constructor
  · constructor
    · exact writable_of_program
    · intro readable
      exact program_render_of_writable readable.1 readable.2
  · intro refused
    exact overNested_render refused.1 refused.2

/-- Two items in which a functor needs quotes, a string ends in backslashes and a quote, and heads
of chains need parentheses. -/
def specimen : Program :=
  [.define
      ⟨"f",
        [.named "x" (.list [.tree "A" [], .tree "b'c" []]),
          .cons (.named "y" .wildcard) (.var "z")],
        .matching [.var "x"]
          [.mk [.cons (.cons (.tree "A" []) (.tree "B" [])) (.string "q\\\\\"")]
            (.cons (.cons (.var "x") (.var "y")) (.list [.tree "1" [], .var "z"]))]⟩,
    .lone (.app "g" [.tree "A" []])]

theorem program_render_specimen :
    program 3 (Program.render specimen) = .ok specimen ∧
      ∃ place, program 2 (Program.render specimen) =
        .error (.misplaced (.overNested 2 place)) := by
  have writable : Program.isWritable specimen = true := by decide +kernel
  have levels : Program.nesting specimen = 3 := by decide +kernel
  constructor
  · exact (program_render_eq_ok_iff 3 specimen).1.mpr ⟨writable, Nat.le_of_eq levels⟩
  · exact (program_render_eq_ok_iff 2 specimen).2 ⟨writable, by rw [levels]; decide⟩

/-- What has been read once is read again, with the same limit, from the layout of its items. -/
theorem program_render_of_program {limit : Nat} {source : String} {items : Program}
    (found : program limit source = .ok items) :
    program limit (Program.render items) = .ok items := by
  obtain ⟨writable, atMost⟩ := writable_of_program found
  exact program_render_of_writable writable atMost

/-- The specimen as someone may write it who cares less for layout. -/
def looseSpecimen : String :=
  "let f(x@[A, 'b\\'c',], (y@_) : z) = match x \x7b" ++
    " (A : B) : \"q\\\\\\\"\" => (x:y):[1, z], \x7d;# the end\ng('A') ;"

theorem program_render_looseSpecimen :
    program 3 looseSpecimen = .ok specimen ∧
      program 3 (Program.render specimen) = .ok specimen := by
  have found : program 3 looseSpecimen = .ok specimen := by decide +kernel
  exact ⟨found, program_render_of_program found⟩

end Source

end TermScript

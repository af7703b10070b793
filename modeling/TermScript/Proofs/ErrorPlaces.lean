import TermScript.Command.Run
import TermScript.Proofs.Grammar.Limits
import TermScript.Proofs.RoundTrip
import TermScript.Proofs.Token.Lossless

namespace TermScript

theorem Text.byteLength_toList (text : String) :
    Text.byteLength text.toList = text.utf8ByteSize := by
  rw [← Text.utf8ByteSize_ofList, String.ofList_toList]

/-- The span lies in the source, and starts and stops between characters. -/
structure Span.Inside (span : Span) (source : String) : Prop where
  offset_le : span.offset ≤ source.utf8ByteSize
  stop_le : span.stop ≤ source.utf8ByteSize
  start : String.Pos.Raw.IsValid source ⟨span.offset⟩
  stop : String.Pos.Raw.IsValid source ⟨span.stop⟩

namespace Span

variable {span : Span} {source text : String}

private theorem inside_of_valid (start : String.Pos.Raw.IsValid source ⟨span.offset⟩)
    (stop : String.Pos.Raw.IsValid source ⟨span.stop⟩) : span.Inside source :=
  ⟨start.le_rawEndPos, stop.le_rawEndPos, start, stop⟩

theorem Marks.inside (marks : span.Marks source text) : span.Inside source :=
  inside_of_valid marks.start marks.stop

private theorem Inside.after (inside : span.Inside source) : span.after.Inside source :=
  inside_of_valid inside.stop inside.stop

end Span

/-- What an error tells besides its place is so in the source: a text is the one at the place, and
nesting is spent in front of a token or right behind the last one. -/
def SourceError.Fits (source : String) : SourceError → Prop
  | .unreadable cause => cause.span.Marks source cause.text
  | .misplaced (.unexpected _ found) => found.span.Marks source found.text
  | .misplaced (.exhausted _) => True
  | .misplaced (.overNested _ place) =>
      ∃ tokens, Token.scan source = .ok tokens ∧
        ((∃ token ∈ tokens, place = token.span) ∨
          ∃ last, tokens.getLast? = some last ∧ place = ⟨last.span.stop, 0⟩)

structure SourceError.PointsInto (source : String) (error : SourceError) : Prop where
  inside : ∀ place, error.span? = some place → place.Inside source
  fits : error.Fits source

namespace Input

variable {source : String} {tokens : List Token}

private theorem peek?_drop_mem {start : Nat} {finish : Span} {first : Token}
    (next : (⟨tokens.drop start, finish⟩ : Input).peek? = some first) : first ∈ tokens :=
  List.mem_of_mem_drop (List.mem_of_mem_head? next)

private theorem finishOf_eq {last : Token} (ends : tokens.getLast? = some last) :
    finishOf tokens = last.span.after := by
  rw [finishOf, ends]

end Input

namespace Source

variable {source : String} {tokens : List Token}

private theorem pointsInto_fault (scanned : Token.scan source = .ok tokens) (start : Nat)
    (expected : Expectation) :
    (SourceError.misplaced
      ((⟨tokens.drop start, Input.finishOf tokens⟩ : Input).fault expected)).PointsInto source := by
  have marks := (lossless_of_scan scanned).marks
  unfold Input.fault
  cases next : (⟨tokens.drop start, Input.finishOf tokens⟩ : Input).peek? with
  | none => exact ⟨nofun, trivial⟩
  | some found =>
      have foundMarks := marks found (Input.peek?_drop_mem next)
      refine ⟨?_, foundMarks⟩
      rintro place ⟨rfl⟩
      exact foundMarks.inside

private theorem pointsInto_spent (scanned : Token.scan source = .ok tokens) (nonempty : tokens ≠ [])
    (limit start : Nat) :
    (SourceError.misplaced (.overNested limit (Program.placeAt tokens start))).PointsInto source := by
  have marks := (lossless_of_scan scanned).marks
  unfold Program.placeAt Input.here
  cases next : (⟨tokens.drop start, Input.finishOf tokens⟩ : Input).peek? with
  | none =>
      obtain ⟨last, ends⟩ := Option.ne_none_iff_exists'.mp (mt List.getLast?_eq_none_iff.mp nonempty)
      have lastMarks := marks last (List.mem_of_getLast? ends)
      refine ⟨?_, tokens, scanned, .inr ⟨last, ends, Input.finishOf_eq ends⟩⟩
      rintro place ⟨rfl⟩
      rw [Input.finishOf_eq ends]
      exact lastMarks.inside.after
  | some found =>
      have member := Input.peek?_drop_mem next
      refine ⟨?_, tokens, scanned, .inl ⟨found, member, rfl⟩⟩
      rintro place ⟨rfl⟩
      exact (marks found member).inside

private theorem pointsInto_unreadable {cause : Unreadable}
    (failed : Token.scan source = .error cause) :
    (SourceError.unreadable cause).PointsInto source := by
  have marks := (breaksOff_of_scan failed).marks
  refine ⟨?_, marks⟩
  rintro place ⟨rfl⟩
  exact marks.inside

theorem pointsInto_of_parse (scanned : Token.scan source = .ok tokens) {limit : Nat} {fault : Fault}
    (failed : Program.parse limit tokens = .error fault) :
    (SourceError.misplaced fault).PointsInto source := by
  have nonempty : tokens ≠ [] := by
    rintro rfl
    have parsed : Program.parse limit [] = .ok [] := Program.Derives.nil.parse
    rw [parsed] at failed
    cases failed
  have located := Rule.located_program limit (Input.ofTokens tokens) fault failed
  rw [Program.rest_eq_drop] at located
  rcases located with ⟨expected, rfl⟩ | ⟨high, rfl⟩
  · exact pointsInto_fault scanned _ expected
  · exact pointsInto_spent scanned nonempty high _

theorem pointsInto_of_program {limit : Nat} {error : SourceError}
    (failed : program limit source = .error error) : error.PointsInto source := by
  cases scanned : Token.scan source with
  | error cause =>
      rw [program, read, scanned] at failed
      cases failed
      exact pointsInto_unreadable scanned
  | ok tokens =>
      rw [program_eq_parse scanned] at failed
      cases parsed : Program.parse limit tokens with
      | error fault =>
          rw [parsed] at failed
          cases failed
          exact pointsInto_of_parse scanned parsed
      | ok items =>
          rw [parsed] at failed
          cases failed

end Source

namespace Command

private theorem locate_append (before after : String) :
    Text.locate (before ++ after).toList before.utf8ByteSize =
      Text.Position.walk ⟨1, 1⟩ before.toList := by
  rw [String.toList_append, ← Text.byteLength_toList, Text.locate, Text.upTo_append]

/-- The source is split at the offset, and the failure has the position behind the first part. -/
def Failure.StandsAt (source : String) (offset : Nat) (message : String) (failure : Failure) :
    Prop :=
  ∃ before after, source = before ++ after ∧ before.utf8ByteSize = offset ∧
    failure = .inSource (Text.Position.walk ⟨1, 1⟩ before.toList) message

/-- What is wrong with a source for a run with these options, and where. -/
inductive Options.Rejects (options : Options) (source : String) : Option Span → String → Prop
  | unreadable {cause : Unreadable} : options.tokensOnly = true →
      Token.scan source = .error cause → Rejects options source (some cause.span) cause.message
  | error {error : SourceError} : options.tokensOnly = false →
      Source.program options.limit source = .error error →
      Rejects options source error.span? error.message

/-- The failure tells what is wrong with the source, and has the position of that place, or of the
end where there is none. -/
def Options.Reports (options : Options) (source : String) (failure : Failure) : Prop :=
  ∃ place? message, options.Rejects source place? message ∧
    failure.StandsAt source ((place?.map Span.offset).getD source.utf8ByteSize) message

private theorem Failure.standsAt_located {source : String} {place? : Option Span}
    (inside : ∀ place, place? = some place → place.Inside source) (message : String) :
    (Failure.located source place? message).StandsAt source
      ((place?.map Span.offset).getD source.utf8ByteSize) message := by
  have valid : String.Pos.Raw.IsValid source
      ⟨(place?.map Span.offset).getD source.utf8ByteSize⟩ := by
    cases place? with
    | none => exact String.Pos.Raw.isValid_rawEndPos
    | some place => exact (inside place rfl).start
  obtain ⟨before, after, split, same⟩ := String.Pos.Raw.isValid_iff_exists_append.mp valid
  have size := congrArg String.Pos.Raw.byteIdx same
  refine ⟨before, after, split, size.symm, ?_⟩
  rw [located, Text.byteLength_toList]
  dsimp only at size ⊢
  rw [size, String.byteIdx_rawEndPos, split, locate_append]

private theorem Format.eq_unknownFormat_of_ofName {name? : Option String} {failure : Failure}
    (refused : ofName name? = .error failure) : ∃ name, failure = .unknownFormat name := by
  cases name? with
  | none => cases refused
  | some name =>
      simp only [ofName] at refused
      split at refused
      · cases refused
      split at refused
      · cases refused
      · cases refused
        exact ⟨name, rfl⟩

section Runs

variable {options : Options} {format : Format} {source : String} {failure : Failure}

private theorem reports_dumpTokens (tokensOnly : options.tokensOnly = true)
    (failed : (dumpTokens format source).answer = .error failure) :
    options.Reports source failure := by
  unfold dumpTokens at failed
  cases scanned : Token.scan source with
  | error cause =>
      rw [scanned] at failed
      cases failed
      have inside := (Source.pointsInto_unreadable scanned).inside
      exact ⟨_, _, .unreadable tokensOnly scanned, Failure.standsAt_located inside _⟩
  | ok tokens =>
      rw [scanned] at failed
      cases failed

private theorem reports_showProgram (programs : options.tokensOnly = false)
    (failed : (showProgram format options.limit source).answer = .error failure) :
    options.Reports source failure := by
  unfold showProgram at failed
  rcases ended : Source.read (Program.rule options.limit) source with ⟨error | items, events⟩
  · rw [ended] at failed
    cases failed
    have rejected : Source.program options.limit source = .error error := by
      rw [Source.program, ended]
    have inside := (Source.pointsInto_of_program rejected).inside
    exact ⟨_, _, .error programs rejected, Failure.standsAt_located inside _⟩
  · rw [ended] at failed
    cases failed

theorem reports_execute {read : Reader} (given : options.source read = .ok source)
    (failed : (options.execute read).answer = .error failure) :
    (∃ name, failure = .unknownFormat name) ∨ options.Reports source failure := by
  unfold Options.execute at failed
  rw [given] at failed
  cases named : Format.ofName options.format? with
  | error refused =>
      rw [named] at failed
      cases failed
      exact .inl (Format.eq_unknownFormat_of_ofName named)
  | ok format =>
      rw [named] at failed
      simp only [bind, Except.bind, pure, Except.pure] at failed
      cases tokensOnly : options.tokensOnly with
      | true =>
          rw [tokensOnly] at failed
          exact .inr (reports_dumpTokens tokensOnly failed)
      | false =>
          rw [tokensOnly] at failed
          exact .inr (reports_showProgram tokensOnly failed)

end Runs

end Command

/-- Errors point into their source: what is unreadable and what does not fit, to the text that they
tell; spent nesting, to a token or right behind the last one. Hence whatever the command line reports
about a source it was given has the position behind a first part of it. -/
theorem Source.errors_point_into (source : String) :
    (∀ limit error, program limit source = .error error → error.PointsInto source) ∧
    (∀ cause, Token.scan source = .error cause →
      cause.span.Inside source ∧ cause.span.Marks source cause.text) ∧
    ∀ (options : Command.Options) (read : Command.Reader) (failure : Command.Failure),
      options.source read = .ok source → (options.execute read).answer = .error failure →
        (∃ name, failure = .unknownFormat name) ∨ options.Reports source failure := by
  refine ⟨fun _ _ => pointsInto_of_program, fun cause failed => ?_, fun _ _ _ =>
    Command.reports_execute⟩
  have marks := (breaksOff_of_scan failed).marks
  exact ⟨marks.inside, marks⟩

/-- An accented script whose nesting is spent only where it ends. -/
def accented : Command.Options :=
  { Command.Options.initial with inline? := "\"é\" : (", limit? := some 1 }

theorem errors_point_into_accented :
    (Source.program 1 "\"é\" : (" = .error (.misplaced (.overNested 1 ⟨8, 0⟩)) ∧
      SourceError.PointsInto "\"é\" : (" (.misplaced (.overNested 1 ⟨8, 0⟩))) ∧
    (Token.scan "x é" = .error ⟨"é", ⟨2, 2⟩⟩ ∧
      Span.Inside ⟨2, 2⟩ "x é" ∧ Span.Marks ⟨2, 2⟩ "x é" "é") ∧
    accented.source (fun _ => .error .notFound) = .ok "\"é\" : (" ∧
      (accented.execute fun _ => .error .notFound).answer =
        .error (.inSource ⟨1, 8⟩ "syntax error: nesting deeper than 1 at (8,0)") ∧
      ((∃ name, Command.Failure.inSource ⟨1, 8⟩ "syntax error: nesting deeper than 1 at (8,0)" =
          .unknownFormat name) ∨
        accented.Reports "\"é\" : ("
          (.inSource ⟨1, 8⟩ "syntax error: nesting deeper than 1 at (8,0)")) := by
  have spent : Source.program 1 "\"é\" : (" = .error (.misplaced (.overNested 1 ⟨8, 0⟩)) := by
    decide +kernel
  have unreadable : Token.scan "x é" = .error ⟨"é", ⟨2, 2⟩⟩ := by decide +kernel
  have given : accented.source (fun _ => .error .notFound) = .ok "\"é\" : (" := rfl
  have failed : (accented.execute fun _ => .error .notFound).answer =
      .error (.inSource ⟨1, 8⟩ "syntax error: nesting deeper than 1 at (8,0)") := by
    decide +kernel
  exact ⟨⟨spent, (Source.errors_point_into _).1 1 _ spent⟩,
    ⟨unreadable, (Source.errors_point_into _).2.1 _ unreadable⟩,
    given, failed, (Source.errors_point_into _).2.2 _ _ _ given failed⟩

end TermScript

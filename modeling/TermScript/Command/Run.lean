import TermScript.Command.Folder
import TermScript.Command.Options
import TermScript.Json
import TermScript.Layout
import TermScript.Rule.Basic
import TermScript.Session
import TermScript.Text

namespace TermScript.Command

/-- How much a log line matters, most first. -/
inductive Level where
  | info
  | debug
  | trace
  deriving DecidableEq, Repr

namespace Level

def name : Level → String
  | .info => "INFO"
  | .debug => "DEBUG"
  | .trace => "TRACE"

/-- The verbosity from which on lines of this level are shown. -/
def threshold : Level → Nat
  | .info => 1
  | .debug => 2
  | .trace => 3

end Level

structure LogLine where
  level : Level
  origin : String
  text : String
  deriving DecidableEq, Repr

namespace LogLine

def render (line : LogLine) : String :=
  line.level.name ++ " " ++ line.origin ++ ": " ++ line.text

def ofRun (level : Level) (text : String) : LogLine :=
  ⟨level, "trs_cli", text⟩

def lookahead (input : Input) : String :=
  match input.peek? with
  | some token => "Some(" ++ token.kind.label ++ ")"
  | none => "None"

def ofEvent : Event → LogLine
  | .begins .item input =>
      ⟨.trace, "trs_parser::items", "parse_item: next token = " ++ lookahead input⟩
  | .begins .term input =>
      ⟨.trace, "trs_parser::term", "parse_term1: next token = " ++ lookahead input⟩
  | .begins .pattern input =>
      ⟨.trace, "trs_parser::pattern", "parse_pattern1: next token = " ++ lookahead input⟩
  | .names definition => ⟨.trace, "trs_parser::items", "parse_def: " ++ definition⟩
  | .matching => ⟨.trace, "trs_parser::term", "parse_match_term"⟩
  | .completes index label =>
      ⟨.debug, "trs_parser::items", s!"parsed item #{index}: {label}"⟩

end LogLine

inductive Format where
  | text
  | json
  deriving DecidableEq, Repr

inductive Failure where
  | noInput
  | unknownFormat (name : String)
  | unreadFile (fault : ReadFault)
  | notText
  | inSource (position : Text.Position) (message : String)
  deriving DecidableEq, Repr

namespace Failure

/-- The exit code: two for a run that was asked for wrongly, one for a run that failed. -/
def code : Failure → Nat
  | .noInput => 2
  | .unknownFormat _ => 2
  | .unreadFile _ => 1
  | .notText => 1
  | .inSource _ _ => 1

def message : Failure → String
  | .noInput => "no input; try -e '...' or a file path"
  | .unknownFormat name => s!"unknown format `{name}` (expected text or json)"
  | .unreadFile fault => "Error: " ++ fault.description
  | .notText =>
      "Error: Error \x7b kind: InvalidData, message: \"stream did not contain valid UTF-8\" \x7d"
  | .inSource position message => s!"error: {position.line}:{position.column}: {message}"

/-- A failure at a place of the source, or at its end. -/
def located (source : String) (place? : Option Span) (message : String) : Failure :=
  let text := source.toList
  let offset := (place?.map Span.offset).getD (Text.byteLength text)
  .inSource (Text.locate text offset) message

end Failure

namespace Format

/-- The format of the given name; text if none is given. -/
def ofName (name? : Option String) : Except Failure Format :=
  match name? with
  | none => .ok .text
  | some name =>
      if name = "text" then .ok .text
      else if name = "json" then .ok .json
      else .error (.unknownFormat name)

def tokens (format : Format) (tokens : List Token) : String :=
  match format with
  | .text => String.join (tokens.map fun token => token.kind.label ++ ":" ++ token.text ++ "\n")
  | .json => (Json.array (tokens.map Token.toJson)).render ++ "\n"

def program (format : Format) (program : Program) : String :=
  match format with
  | .text => Program.render program
  | .json => (Program.toJson program).render ++ "\n"

end Format

/-- The end of a run: what it answers, and what it tells on the way, at every level. -/
structure Report where
  answer : Except Failure String
  log : List LogLine

def dumpTokens (format : Format) (source : String) : Report :=
  match Token.scan source with
  | .error unreadable =>
      ⟨.error (.located source (some unreadable.span) unreadable.message), []⟩
  | .ok tokens => ⟨.ok (format.tokens tokens), []⟩

def showProgram (format : Format) (limit : Nat) (source : String) : Report :=
  match Source.read (Program.rule limit) source with
  | (.error error, events) =>
      ⟨.error (.located source error.span? error.message), events.map LogLine.ofEvent⟩
  | (.ok program, events) =>
      let count := LogLine.ofRun .debug s!"parsed {program.length} item(s)"
      ⟨.ok (format.program program), events.map LogLine.ofEvent ++ [count]⟩

namespace Options

def source (options : Options) (read : Reader) : Except Failure String :=
  match options.inline?, options.file? with
  | some script, _ => .ok script
  | none, some path =>
      match read path with
      | .error fault => .error (.unreadFile fault)
      | .ok contents =>
          match String.fromUTF8? contents with
          | some script => .ok script
          | none => .error .notText
  | none, none => .error .noInput

def opening (options : Options) : List LogLine :=
  match options.inline?, options.file? with
  | none, some path => [.ofRun .info ("reading " ++ path)]
  | _, _ => []

def execute (options : Options) (read : Reader) : Report :=
  let asked : Except Failure (String × Format) := do
    let script ← options.source read
    return (script, ← Format.ofName options.format?)
  let report : Report :=
    match asked with
    | .error failure => ⟨.error failure, []⟩
    | .ok (script, format) =>
        if options.tokensOnly then dumpTokens format script
        else showProgram format options.limit script
  { report with log := options.opening ++ report.log }

end Options

structure Transcript where
  code : Nat
  stdout : String
  stderr : String
  log : List String
  deriving DecidableEq, Repr

def Report.transcript (report : Report) (verbosity : Nat) : Transcript :=
  let shown := report.log.filter fun line => line.level.threshold ≤ verbosity
  let log := shown.map LogLine.render
  match report.answer with
  | .ok answer => ⟨0, answer, "", log⟩
  | .error failure => ⟨failure.code, "", failure.message ++ "\n", log⟩

def helpText : String :=
  "\n".intercalate
    ["Parse term-rewriting scripts and print their syntax tree",
      "",
      "Usage: trs-cli [OPTIONS] [FILE]",
      "",
      "Arguments:",
      "  [FILE]  Source file",
      "",
      "Options:",
      "  -e, --eval <EVAL>            Inline program instead of a file",
      "      --format <FORMAT>        Output format: text|json [default: text]",
      "      --dump-tokens            Print the token stream instead of parsing",
      "      --max-depth <MAX_DEPTH>  Maximum nesting of terms and patterns [default: 256]",
      "  -v, --verbose...             More log output (-v info, -vv debug, -vvv trace)",
      "  -h, --help                   Print help",
      "  -V, --version                Print version",
      ""]

def versionText : String :=
  "trs 0.1.0\n"

/-- A run of the command line; none if its arguments are refused. -/
def run (read : Reader) (arguments : List String) : Option Transcript :=
  match Options.ofArguments arguments with
  | .ok options => some ((options.execute read).transcript options.verbosity)
  | .error .help => some ⟨0, helpText, "", []⟩
  | .error .version => some ⟨0, versionText, "", []⟩
  | .error .refused => none

end TermScript.Command

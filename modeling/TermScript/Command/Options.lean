import TermScript.Reader

namespace TermScript.Command

/-- What the command line asks for; what is not given is left to the run. -/
structure Options where
  file? : Option String
  inline? : Option String
  format? : Option String
  tokensOnly : Bool
  limit? : Option Nat
  verbosity : Nat
  deriving DecidableEq, Repr

namespace Options

def initial : Options :=
  ⟨none, none, none, false, none, 0⟩

def limit (options : Options) : Nat :=
  options.limit?.getD Program.defaultLimit

end Options

inductive Stop where
  | refused
  | help
  | version
  deriving DecidableEq, Repr

inductive Valued where
  | inline
  | format
  | limit
  deriving DecidableEq, Repr

/-- The greatest number that can be given, the largest of 64 bits. -/
def greatestNumber : Nat := 18446744073709551615

/-- A number in decimal digits, with or without a plus sign. -/
def number? (text : String) : Option Nat :=
  let digits :=
    match text.toList with
    | '+' :: digits => digits
    | digits => digits
  if digits.isEmpty || !digits.all Char.isDigit then none
  else
    let value := digits.foldl (fun value digit => 10 * value + (digit.toNat - '0'.toNat)) 0
    if value ≤ greatestNumber then some value else none

/-- A command line read one argument at a time. An option in the making waits for its value; after a
bare double hyphen every argument is a file. -/
structure Progress where
  options : Options
  awaited? : Option Valued
  filesOnly : Bool
  deriving DecidableEq, Repr

namespace Progress

def start : Progress :=
  ⟨.initial, none, false⟩

/-- Take a value for an option. No option may have two. -/
def give (progress : Progress) (option : Valued) (value : String) : Except Stop Progress :=
  let options := progress.options
  let done (options : Options) : Except Stop Progress :=
    .ok { progress with options, awaited? := none }
  match option with
  | .inline =>
      if options.inline?.isSome then .error .refused else done { options with inline? := value }
  | .format =>
      if options.format?.isSome then .error .refused else done { options with format? := value }
  | .limit =>
      match options.limit?, number? value with
      | none, some limit => done { options with limit? := limit }
      | _, _ => .error .refused

/-- Take a file. There may be only one, and it has a name. -/
def giveFile (progress : Progress) (path : String) : Except Stop Progress :=
  if path.isEmpty || progress.options.file?.isSome then .error .refused
  else .ok { progress with options := { progress.options with file? := path } }

def addVerbosity (progress : Progress) : Progress :=
  let options := progress.options
  { progress with options := { options with verbosity := options.verbosity + 1 } }

/-- Take an option by its full name, perhaps with a value behind an equals sign. -/
def takeLong (progress : Progress) (name : String) (value? : Option String) :
    Except Stop Progress :=
  let valued (option : Valued) : Except Stop Progress :=
    match value? with
    | some value => progress.give option value
    | none => .ok { progress with awaited? := option }
  if name = "eval" then valued .inline
  else if name = "format" then valued .format
  else if name = "max-depth" then valued .limit
  else if value?.isSome then .error .refused
  else if name = "verbose" then .ok progress.addVerbosity
  else if name = "dump-tokens" then
    if progress.options.tokensOnly then .error .refused
    else .ok { progress with options := { progress.options with tokensOnly := true } }
  else if name = "help" then .error .help
  else if name = "version" then .error .version
  else .error .refused

/-- Take options by their letters. A letter that wants a value takes the rest as its value. -/
def takeLetters (progress : Progress) : List Char → Except Stop Progress
  | [] => .ok progress
  | 'v' :: rest => progress.addVerbosity.takeLetters rest
  | 'h' :: _ => .error .help
  | 'V' :: _ => .error .version
  | ['e'] => .ok { progress with awaited? := Valued.inline }
  | 'e' :: '=' :: value => progress.give .inline (String.ofList value)
  | 'e' :: value => progress.give .inline (String.ofList value)
  | _ => .error .refused

def take (progress : Progress) (argument : String) : Except Stop Progress :=
  match progress.awaited? with
  | some option =>
      if argument ≠ "-" ∧ argument.toList.head? = some '-' then .error .refused
      else progress.give option argument
  | none =>
      if progress.filesOnly then progress.giveFile argument
      else
        match argument.toList with
        | ['-', '-'] => .ok { progress with filesOnly := true }
        | '-' :: '-' :: text =>
            let name := String.ofList (text.takeWhile (· != '='))
            match text.dropWhile (· != '=') with
            | [] => progress.takeLong name none
            | _ :: value => progress.takeLong name (String.ofList value)
        | '-' :: letter :: letters => progress.takeLetters (letter :: letters)
        | _ => progress.giveFile argument

/-- The options of a command line that ends here. A script is either in a file or inline. -/
def finish (progress : Progress) : Except Stop Options :=
  if progress.awaited?.isSome then .error .refused
  else if progress.options.file?.isSome && progress.options.inline?.isSome then .error .refused
  else .ok progress.options

end Progress

def Options.ofArguments (arguments : List String) : Except Stop Options := do
  let progress ← arguments.foldlM Progress.take Progress.start
  progress.finish

end TermScript.Command

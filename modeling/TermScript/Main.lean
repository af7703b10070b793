import TermScript.Command.Run

namespace TermScript.Command

/-- What went wrong with a file, told by the number that the system gives. Some calls give it
negated, in 32 bits. -/
def ReadFault.ofCode (code : Nat) (reason : String) : ReadFault :=
  let number := if code < 2147483648 then code else 4294967296 - code
  match number with
  | 2 => .notFound
  | 20 => .notDirectory
  | 21 => .isDirectory
  | 36 => .nameTooLong
  | _ => .other number reason

def ReadFault.ofError : IO.Error → ReadFault
  | .noFileOrDirectory _ code reason => ofCode code.toNat reason
  | .inappropriateType _ code reason => ofCode code.toNat reason
  | .invalidArgument _ code reason => ofCode code.toNat reason
  | .permissionDenied _ code reason => ofCode code.toNat reason
  | .resourceExhausted _ code reason => ofCode code.toNat reason
  | error => .other 5 error.toString

/-- The file that a command line names, read once. -/
def readerFor (arguments : List String) : IO Reader := do
  match Options.ofArguments arguments with
  | .ok { file? := some path, .. } =>
      try
        let contents ← IO.FS.readBinFile path
        return fun _ => .ok contents
      catch error => return fun _ => .error (.ofError error)
  | _ => return fun _ => .error .notFound

end TermScript.Command

open TermScript.Command in
def main (arguments : List String) : IO UInt32 := do
  let read ← readerFor arguments
  match run read arguments with
  | none =>
      IO.eprintln "Usage: trs-cli [OPTIONS] [FILE]"
      return 2
  | some transcript =>
      for line in transcript.log do
        IO.eprintln line
      IO.print transcript.stdout
      IO.eprint transcript.stderr
      return UInt32.ofNat transcript.code

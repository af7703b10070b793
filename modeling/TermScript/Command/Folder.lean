namespace TermScript.Command

inductive ReadFault where
  | notFound
  | notDirectory
  | isDirectory
  | nameTooLong
  | other (code : Nat) (reason : String)
  deriving DecidableEq, Repr

def ReadFault.description (fault : ReadFault) : String :=
  let (code, kind, reason) :=
    match fault with
    | .notFound => (2, "NotFound", "No such file or directory")
    | .notDirectory => (20, "NotADirectory", "Not a directory")
    | .isDirectory => (21, "IsADirectory", "Is a directory")
    | .nameTooLong => (36, "InvalidFilename", "File name too long")
    | .other code reason => (code, "Uncategorized", reason)
  s!"Os \x7b code: {code}, kind: {kind}, message: \"{reason}\" \x7d"

/-- Where file contents come from: a path gives bytes or a reason why not. -/
abbrev Reader := String → Except ReadFault ByteArray

/-- Files by their paths from one folder, which is where a run takes place. -/
abbrev Folder := List (String × ByteArray)

namespace Folder

inductive Place where
  | outside
  | folder (path : List String)
  | file (contents : ByteArray)

/-- The longest name that a file can have, in bytes. -/
def longestName : Nat := 255

def components (path : String) : List String :=
  path.splitOn "/"

def enter (folder : Folder) (location : List String) (name : String) : Except ReadFault Place :=
  let path := location ++ [name]
  if name.utf8ByteSize > longestName then .error .nameTooLong
  else
    match folder.find? fun entry => components entry.1 == path with
    | some (_, contents) => .ok (.file contents)
    | none =>
        if folder.any fun entry => path.isPrefixOf (components entry.1) then .ok (.folder path)
        else .error .notFound

def step (folder : Folder) : Place → String → Except ReadFault Place
  | .file _, _ => .error .notDirectory
  | place, "" => .ok place
  | place, "." => .ok place
  | .folder path, ".." =>
      .ok (if path.isEmpty then .outside else .folder path.dropLast)
  | .outside, ".." => .ok .outside
  | .outside, _ => .error .notFound
  | .folder path, name => enter folder path name

/-- The contents of a file. A path that starts with a slash leads outside. -/
def read (folder : Folder) : Reader := fun path =>
  match components path with
  | [""] => .error .notFound
  | parts =>
      let start := if parts.head? = some "" then .outside else .folder []
      match parts.foldlM (step folder) start with
      | .error fault => .error fault
      | .ok (.file contents) => .ok contents
      | .ok _ => .error .isDirectory

end Folder

end TermScript.Command

import I8080.Command.Path

namespace I8080

/-- Why a file cannot be read or written. -/
inductive FileError where
  | notFound
  | notDirectory
  | isDirectory
  | notText
  | other (message : String)
  deriving DecidableEq

def FileError.message : FileError → String
  | .notFound => "No such file or directory (os error 2)"
  | .notDirectory => "Not a directory (os error 20)"
  | .isDirectory => "Is a directory (os error 21)"
  | .notText => "stream did not contain valid UTF-8"
  | .other message => message

/-- The file system as a command sees it: what a file holds, and whether one can be written. -/
structure Files where
  read : Path → Except FileError (List UInt8)
  accept : Path → Except FileError Unit

def Files.readText (files : Files) (p : Path) : Except FileError String :=
  match files.read p with
  | .error e => .error e
  | .ok bytes =>
    match String.fromUTF8? ⟨bytes.toArray⟩ with
    | some text => .ok text
    | none => .error .notText

def Files.exists (files : Files) (p : Path) : Bool :=
  match files.read p with
  | .error .notFound | .error .notDirectory => false
  | _ => true

end I8080

import I8080.Command.Files

namespace I8080

/-- A folder tree given by its files, each with the names on the way to it. -/
structure Folder where
  files : List (List String × List UInt8)

/-- Where a walk along a path stands. Nothing is known of what lies outside the folder. -/
inductive Place where
  | file (bytes : List UInt8)
  | directory (names : List String)
  | outside

def Folder.lookup (f : Folder) (names : List String) : Except FileError Place :=
  match f.files.lookup names with
  | some bytes => .ok (.file bytes)
  | none =>
    if f.files.any fun (file, _) => names.isPrefixOf file then .ok (.directory names)
    else .error .notFound

def Folder.follow (f : Folder) (place : Place) (name : String) : Except FileError Place :=
  match place with
  | .file _ => .error .notDirectory
  | .outside => if staysInPlace name ∨ name = ".." then .ok .outside else .error .notFound
  | .directory names =>
    if staysInPlace name then .ok place
    else if name = ".." then .ok (if names = [] then .outside else .directory names.dropLast)
    else f.lookup (names ++ [name])

def Folder.walk (f : Folder) (names : List String) : Except FileError Place :=
  match names with
  | "" :: rest => rest.foldlM f.follow .outside
  | _ => names.foldlM f.follow (.directory [])

def Folder.read (f : Folder) (p : Path) : Except FileError (List UInt8) := do
  match ← f.walk p.names with
  | .file bytes => return bytes
  | .directory _ | .outside => throw .isDirectory

/-- The names under which a file that is written to a path comes to lie. -/
def Folder.spot (f : Folder) (p : Path) : Except FileError (List String) := do
  let name := p.names.getLast?.getD ""
  match ← f.walk p.names.dropLast with
  | .file _ => throw .notDirectory
  | .outside => throw (if staysInPlace name ∨ name = ".." then .isDirectory else .notFound)
  | .directory names =>
    match f.follow (.directory names) name with
    | .ok (.file _) | .error .notFound => return names ++ [name]
    | .ok _ => throw .isDirectory
    | .error e => throw e

/-- The folder once a file has been written, in the place of the one that lay there. -/
def Folder.save (f : Folder) (p : Path) (bytes : List UInt8) : Except FileError Folder := do
  let names ← f.spot p
  return ⟨(names, bytes) :: f.files.filter fun (file, _) => file ≠ names⟩

def Folder.toFiles (f : Folder) : Files where
  read := f.read
  accept := fun p => (f.spot p).map fun _ => ()

end I8080

namespace I8080

/-- A path to a file, as it is written on the command line. -/
structure Path where
  text : String
  deriving DecidableEq

/-- The names between the slashes. An empty name or a single dot stays where it is. -/
def Path.names (p : Path) : List String :=
  (p.text.toList.splitOn '/').map String.ofList

def Path.ofNames (names : List String) : Path :=
  ⟨"/".intercalate names⟩

def staysInPlace (name : String) : Bool :=
  name = "" ∨ name = "."

/-- The names as far as the last one that leads anywhere. -/
def Path.leading (p : Path) : List String :=
  (p.names.reverse.dropWhile staysInPlace).reverse

/-- The last name that leads anywhere, unless it leads back up. -/
def Path.fileName? (p : Path) : Option String :=
  p.leading.getLast?.filter (· ≠ "..")

/-- A file name cut at its last dot. A dot at the very start does not count. -/
def splitExtension (name : List Char) : List Char × Option (List Char) :=
  let extension := (name.reverse.takeWhile (· ≠ '.')).reverse
  let stem := name.take (name.length - extension.length - 1)
  if extension.length = name.length ∨ stem = [] then (name, none) else (stem, some extension)

def Path.extension? (p : Path) : Option String :=
  p.fileName?.bind fun name => (splitExtension name.toList).2.map String.ofList

/-- The path with another extension in the place of its own, if its last name is that of a file. What stays in
place after that name is cut off. -/
def Path.withExtension (p : Path) (extension : String) : Path :=
  match p.fileName? with
  | none => p
  | some name =>
    let stem := String.ofList (splitExtension name.toList).1
    .ofNames (p.leading.dropLast ++ [stem ++ "." ++ extension])

end I8080

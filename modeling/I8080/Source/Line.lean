import I8080.Source.Token

namespace I8080

/-- A numbered source line with the tokens that mean something. -/
structure SourceLine where
  number : Nat
  tokens : List Token
  deriving DecidableEq

/-- The tokens before, between and after the newlines. -/
def splitLines : List Token → List (List Token)
  | [] => [[]]
  | t :: ts =>
    if t.kind = .newline then [] :: splitLines ts
    else match splitLines ts with
      | [] => [[t]]
      | line :: lines => (t :: line) :: lines

def Token.isMeaningful (t : Token) : Bool :=
  t.kind ≠ .blank ∧ t.kind ≠ .comment

/-- The lines that are neither blank nor mere comment, numbered from 1 among all lines. -/
def sourceLines (source : List Char) : List SourceLine :=
  let numbered := ((splitLines (tokenize source)).zipIdx 1).map fun (tokens, number) =>
    SourceLine.mk number (tokens.filter Token.isMeaningful)
  numbered.filter fun line => !line.tokens.isEmpty

/-- The name of the label that the line defines. -/
def SourceLine.label? (line : SourceLine) : Option Token :=
  match line.tokens with
  | name :: colon :: _ => if name.kind = .ident ∧ colon.kind = .colon then some name else none
  | _ => none

/-- What stands on the line after its label, if it has one. -/
def SourceLine.body (line : SourceLine) : List Token :=
  if line.label?.isSome then line.tokens.drop 2 else line.tokens

end I8080

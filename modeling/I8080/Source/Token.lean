import I8080.Source.Span

namespace I8080

inductive Token.Kind where
  | ident
  | number
  | colon
  | blank
  | newline
  | comment
  | unknown
  deriving DecidableEq

/-- A piece of source text and the byte at which it starts. -/
structure Token where
  kind : Token.Kind
  text : List Char
  start : Nat
  deriving DecidableEq

def byteLength (cs : List Char) : Nat :=
  cs.foldr (fun c length => c.utf8Size + length) 0

def Token.name (t : Token) : String :=
  String.ofList t.text

def Token.span (t : Token) : Span where
  start := t.start
  length := byteLength t.text

/-- Commas only separate operands, so they count as blank. -/
def isSeparator (c : Char) : Bool :=
  c = ' ' ∨ c = '\t' ∨ c = '\r' ∨ c = ','

def isIdentStart (c : Char) : Bool :=
  c.isAlpha || c = '_' || c = '.'

def isIdentRest (c : Char) : Bool :=
  c.isAlphanum || c = '_' || c = '.'

/-- Kind of the token that opens with `c`, where `next` follows, and the characters that carry it on. -/
def Token.opening (c : Char) (next : Option Char) : Token.Kind × (Char → Bool) :=
  if c = ';' then (.comment, (· ≠ '\n'))
  else if c = '\n' then (.newline, fun _ => false)
  else if isSeparator c then (.blank, isSeparator)
  else if c = ':' then (.colon, fun _ => false)
  else if c.isDigit || (c = '-' && next.any Char.isDigit) then (.number, Char.isAlphanum)
  else if isIdentStart c then (.ident, isIdentRest)
  else (.unknown, fun _ => false)

theorem length_dropWhile_le {α : Type} (p : α → Bool) (as : List α) :
    (as.dropWhile p).length ≤ as.length :=
  (List.dropWhile_suffix p).length_le

/-- Cuts a text into its tokens, each as long as it can be, of which the first starts at byte `start`. -/
def tokenizeFrom (start : Nat) : List Char → List Token
  | [] => []
  | c :: cs =>
    let (kind, more) := Token.opening c cs.head?
    let text := c :: cs.takeWhile more
    ⟨kind, text, start⟩ :: tokenizeFrom (start + byteLength text) (cs.dropWhile more)
termination_by cs => cs.length
decreasing_by
  have h := length_dropWhile_le more cs
  simp only [List.length_cons]
  omega

def tokenize (source : List Char) : List Token :=
  tokenizeFrom 0 source

end I8080

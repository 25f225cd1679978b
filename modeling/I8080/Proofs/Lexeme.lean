import I8080.Proofs.Token
import Mathlib.Tactic.Tauto

namespace I8080

/-- What remains of a token when its place in the source is forgotten. -/
def Token.lexeme (t : Token) : Token.Kind × List Char :=
  (t.kind, t.text)

/-- The words of a statement: names, and numbers without a sign. -/
inductive IsWord : Token.Kind → List Char → Prop
  | ident {c : Char} {cs : List Char} (first : isIdentStart c = true)
      (rest : ∀ d ∈ cs, isIdentRest d = true) : IsWord .ident (c :: cs)
  | number {c : Char} {cs : List Char} (first : c.isDigit = true)
      (rest : ∀ d ∈ cs, d.isAlphanum = true) : IsWord .number (c :: cs)

theorem IsWord.of_ident {word : List Char} (first : word.head?.any isIdentStart = true)
    (rest : word.all isIdentRest = true) : IsWord .ident word := by
  cases word with
  | nil => cases first
  | cons c cs =>
    rw [List.all_cons, Bool.and_eq_true] at rest
    exact .ident first (List.all_eq_true.mp rest.2)

theorem IsWord.of_number {word : List Char} (first : word.head?.any Char.isDigit = true)
    (rest : word.all Char.isAlphanum = true) : IsWord .number word := by
  cases word with
  | nil => cases first
  | cons c cs =>
    rw [List.all_cons, Bool.and_eq_true] at rest
    exact .number first (List.all_eq_true.mp rest.2)

theorem not_isAlpha_of_isDigit {c : Char} (h : c.isDigit = true) : c.isAlpha = false := by
  delta Char.isAlpha Char.isUpper Char.isLower Char.isDigit at *
  simp only [Bool.and_eq_true, decide_eq_true_eq, Bool.or_eq_false_iff, Bool.and_eq_false_iff,
    decide_eq_false_iff_not, ge_iff_le, UInt32.le_iff_toNat_le] at h ⊢
  have : 'A'.val.toNat = 65 := rfl
  have : 'a'.val.toNat = 97 := rfl
  have : '9'.val.toNat = 57 := rfl
  omega

theorem Token.opening_blank {c : Char} (h : isSeparator c = true) (next : Option Char) :
    Token.opening c next = (.blank, isSeparator) := by
  have hne : ∀ d, isSeparator d = false → c ≠ d := by
    rintro d hd rfl
    rw [h] at hd
    cases hd
  simp [Token.opening, hne ';' (by decide), hne '\n' (by decide), h]

theorem isSeparator_of_isIdentRest {c : Char} (h : isIdentRest c = true) : isSeparator c = false := by
  cases hs : isSeparator c with
  | false => rfl
  | true =>
    have hc : c = ' ' ∨ c = '\t' ∨ c = '\r' ∨ c = ',' := by simpa [isSeparator] using hs
    rcases hc with rfl | rfl | rfl | rfl <;> exact absurd h (by decide)

theorem isIdentRest_of_isSeparator {c : Char} (h : isSeparator c = true) : isIdentRest c = false := by
  cases rest : isIdentRest c with
  | false => rfl
  | true =>
    rw [isSeparator_of_isIdentRest rest] at h
    cases h

theorem isAlphanum_of_isIdentRest {c : Char} (h : isIdentRest c = false) : c.isAlphanum = false := by
  simp only [isIdentRest, Bool.or_eq_false_iff] at h
  exact h.1.1

theorem ne_of_isDigit {c mark : Char} (digit : c.isDigit = true) (other : mark.isDigit = false) : c ≠ mark := by
  rintro rfl
  rw [digit] at other
  cases other

theorem isIdentRest_of_isDigit {c : Char} (h : c.isDigit = true) : isIdentRest c = true := by
  simp [isIdentRest, Char.isAlphanum, h]

theorem isIdentRest_of_isIdentStart {c : Char} (h : isIdentStart c = true) : isIdentRest c = true := by
  simp only [isIdentStart, isIdentRest, Char.isAlphanum, Bool.or_eq_true] at h ⊢
  tauto

theorem Token.opening_digit {c : Char} (h : c.isDigit = true) (next : Option Char) :
    Token.opening c next = (.number, Char.isAlphanum) := by
  have blank := isSeparator_of_isIdentRest (isIdentRest_of_isDigit h)
  simp [Token.opening, ne_of_isDigit h (show ';'.isDigit = false by decide),
    ne_of_isDigit h (show '\n'.isDigit = false by decide), ne_of_isDigit h (show ':'.isDigit = false by decide), blank, h]

theorem Token.opening_ident {c : Char} (h : isIdentStart c = true) (next : Option Char) :
    Token.opening c next = (.ident, isIdentRest) := by
  have hne : ∀ d : Char, isIdentStart d = false → c ≠ d := by
    rintro d hd rfl
    rw [h] at hd
    cases hd
  have blank := isSeparator_of_isIdentRest (isIdentRest_of_isIdentStart h)
  have digit : c.isDigit = false := by
    cases hd : c.isDigit with
    | false => rfl
    | true =>
      have under : c ≠ '_' := by
        rintro rfl
        exact absurd hd (by decide)
      have dot : c ≠ '.' := by
        rintro rfl
        exact absurd hd (by decide)
      simp [isIdentStart, not_isAlpha_of_isDigit hd, under, dot] at h
  simp [Token.opening, hne ';' (by decide), hne '\n' (by decide), hne ':' (by decide), hne '-' (by decide),
    blank, digit, h]

theorem IsWord.head_isIdentRest {kind : Token.Kind} {word : List Char} (h : IsWord kind word) :
    ∃ c cs, word = c :: cs ∧ isIdentRest c = true := by
  cases h with
  | @ident c cs first _ => exact ⟨c, cs, rfl, isIdentRest_of_isIdentStart first⟩
  | @number c cs first _ => exact ⟨c, cs, rfl, isIdentRest_of_isDigit first⟩

theorem IsWord.kind_eq {kind : Token.Kind} {word : List Char} (h : IsWord kind word) :
    kind = .ident ∨ kind = .number := by
  cases h with
  | ident => exact .inl rfl
  | number => exact .inr rfl

theorem IsWord.isIdentRest_of_mem {kind : Token.Kind} {word : List Char} (h : IsWord kind word) :
    ∀ c ∈ word, isIdentRest c = true := by
  cases h with
  | ident first rest => exact List.forall_mem_cons.mpr ⟨isIdentRest_of_isIdentStart first, rest⟩
  | number first rest =>
    refine List.forall_mem_cons.mpr ⟨isIdentRest_of_isDigit first, fun d hd => ?_⟩
    simp [isIdentRest, rest d hd]

theorem IsWord.newline_not_mem {kind : Token.Kind} {word : List Char} (h : IsWord kind word) : '\n' ∉ word := by
  intro hn
  exact absurd (h.isIdentRest_of_mem '\n' hn) (by decide)

/-- A word with anything but a further letter or digit after it is the first token. -/
theorem IsWord.tokenizeFrom {kind : Token.Kind} {word : List Char} (h : IsWord kind word) {rest : List Char}
    (stop : ∀ d ∈ rest.head?, isIdentRest d = false) (start : Nat) :
    tokenizeFrom start (word ++ rest) =
      ⟨kind, word, start⟩ :: tokenizeFrom (start + byteLength word) rest := by
  cases h with
  | ident first inside => exact tokenizeFrom_append (Token.opening_ident first _) inside stop
  | number first inside =>
    exact tokenizeFrom_append (Token.opening_digit first _) inside fun d hd => isAlphanum_of_isIdentRest (stop d hd)

/-- A word with separators before it. -/
structure Spaced where
  blank : List Char
  kind : Token.Kind
  word : List Char
  blank_ne_nil : blank ≠ []
  separators : ∀ c ∈ blank, isSeparator c = true
  isWord : IsWord kind word

def Spaced.lexeme (s : Spaced) : Token.Kind × List Char :=
  (s.kind, s.word)

def Spaced.row (words : List Spaced) : List Char :=
  words.flatMap fun s => s.blank ++ s.word

theorem Spaced.row_stops (words : List Spaced) : ∀ d ∈ (Spaced.row words).head?, isIdentRest d = false := by
  cases words with
  | nil => simp [Spaced.row]
  | cons s words =>
    obtain ⟨c, cs, hb⟩ := List.exists_cons_of_ne_nil s.blank_ne_nil
    have hc := s.separators c (by simp [hb])
    intro d hd
    have heq : d = c := by simpa [Spaced.row, hb, eq_comm] using hd
    subst heq
    exact isIdentRest_of_isSeparator hc

def meaningful (tokens : List Token) : List (Token.Kind × List Char) :=
  (tokens.filter Token.isMeaningful).map Token.lexeme

theorem IsWord.meaningful_cons {kind : Token.Kind} {word : List Char} (h : IsWord kind word) (start : Nat)
    (tokens : List Token) : meaningful (⟨kind, word, start⟩ :: tokens) = (kind, word) :: meaningful tokens := by
  rcases h.kind_eq with rfl | rfl <;> rfl

theorem Spaced.tokenizeFrom_row (words : List Spaced) (start : Nat) :
    meaningful (tokenizeFrom start (Spaced.row words)) = words.map Spaced.lexeme := by
  induction words generalizing start with
  | nil => simp [Spaced.row, meaningful, tokenizeFrom_nil]
  | cons s words ih =>
    obtain ⟨c, cs, hb⟩ := List.exists_cons_of_ne_nil s.blank_ne_nil
    obtain ⟨d, ds, hw, hd⟩ := s.isWord.head_isIdentRest
    have split : Spaced.row (s :: words) = c :: cs ++ (s.word ++ Spaced.row words) := by
      simp [Spaced.row, hb]
    have blank := Token.opening_blank (s.separators c (by simp [hb]))
    rw [split, tokenizeFrom_append (blank _) (fun e he => s.separators e (by simp [hb, he]))
      (by simp [hw, isSeparator_of_isIdentRest hd]), s.isWord.tokenizeFrom (Spaced.row_stops words)]
    have tail := ih (start + byteLength (c :: cs) + byteLength s.word)
    have kept := s.isWord.meaningful_cons (start + byteLength (c :: cs))
      (tokenizeFrom (start + byteLength (c :: cs) + byteLength s.word) (Spaced.row words))
    rw [tail] at kept
    exact kept

theorem IsWord.meaningful_tokenizeFrom {kind : Token.Kind} {word : List Char} (h : IsWord kind word)
    (words : List Spaced) (start : Nat) :
    meaningful (I8080.tokenizeFrom start (word ++ Spaced.row words)) =
      (kind, word) :: words.map Spaced.lexeme := by
  rw [h.tokenizeFrom (Spaced.row_stops words), h.meaningful_cons, Spaced.tokenizeFrom_row]

end I8080

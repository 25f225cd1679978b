import I8080.Proofs.Lexeme
import Mathlib.Data.List.Forall2
import Mathlib.Data.List.TakeWhile

namespace I8080

theorem isDigit_of_isIdentStart {c : Char} (h : isIdentStart c = true) : c.isDigit = false := by
  cases digit : c.isDigit with
  | false => rfl
  | true => cases (Token.opening_digit digit none).symm.trans (Token.opening_ident h none)

theorem Token.isIdentStart_of_opening {c : Char} {next : Option Char} (h : (Token.opening c next).1 = .ident) :
    isIdentStart c = true := by
  unfold Token.opening at h
  split_ifs at h
  assumption

theorem isWord_of_tokenizeFrom {start : Nat} {text : List Char} {t : Token} (h : t ∈ tokenizeFrom start text)
    (ident : t.kind = .ident) : IsWord .ident t.text := by
  obtain ⟨-, c, cs, -, -, opened, taken⟩ := opened_of_tokenizeFrom h
  have first : isIdentStart c = true := Token.isIdentStart_of_opening (opened.symm.trans ident)
  rw [taken, Token.opening_ident first]
  exact .ident first fun d hd => List.mem_takeWhile_imp hd

/-- What follows a character matters only in whether it is a digit. -/
theorem Token.opening_congr (c : Char) {next next' : Option Char} (h : next.any Char.isDigit = next'.any Char.isDigit) :
    Token.opening c next = Token.opening c next' := by
  unfold Token.opening
  rw [h]

/-- A token that one identifier ends is ended by every identifier, but for a number. -/
theorem Token.opening_ends {c d e : Char} {next : Option Char} (kind : (Token.opening c next).1 ≠ .number)
    (hd : isIdentStart d = true) (he : isIdentStart e = true) (ends : (Token.opening c next).2 d = false) :
    (Token.opening c next).2 e = false := by
  have rest := isIdentRest_of_isIdentStart hd
  have separator := isSeparator_of_isIdentRest (isIdentRest_of_isIdentStart he)
  unfold Token.opening at kind ends ⊢
  split_ifs at kind ends ⊢
  · have newline : d = '\n' := by simpa using ends
    subst newline
    exact absurd hd (by decide)
  · rfl
  · exact separator
  · rfl
  · exact absurd rfl kind
  · exact absurd (ends.symm.trans rest) Bool.false_ne_true
  · rfl

/-- A text that may stand for a token: its own, or an identifier for an identifier. -/
def Token.Allows (t : Token) (text : List Char) : Prop :=
  text = t.text ∨ t.kind = .ident ∧ IsWord .ident text

/-- A token of the same kind, and of the same text if it is a number. -/
structure Token.Keeps (t u : Token) : Prop where
  kind : u.kind = t.kind
  number : t.kind = .number → u.text = t.text

instance (t u : Token) : Decidable (t.Keeps u) :=
  decidable_of_iff (u.kind = t.kind ∧ (t.kind = .number → u.text = t.text))
    ⟨fun h => ⟨h.1, h.2⟩, fun h => ⟨h.kind, h.number⟩⟩

variable {spell : Token → List Char} {start : Nat} {text : List Char}

/-- Two texts that begin alike, or each with an identifier. -/
def BeginAlike (text other : List Char) : Prop :=
  other.head? = text.head? ∨
    ∃ d e, text.head? = some d ∧ other.head? = some e ∧ isIdentStart d = true ∧ isIdentStart e = true

theorem beginAlike_of_allows (allows : ∀ t ∈ tokenizeFrom start text, t.Allows (spell t)) :
    BeginAlike text ((tokenizeFrom start text).flatMap spell) := by
  cases text with
  | nil =>
    rw [tokenizeFrom_nil]
    exact .inl rfl
  | cons c cs =>
    rw [tokenizeFrom_cons] at allows ⊢
    rw [List.flatMap_cons]
    rcases allows _ List.mem_cons_self with same | ⟨ident, word⟩
    · rw [same]
      exact .inl rfl
    · generalize spell _ = piece at word
      cases word with
      | @ident e es first _ => exact .inr ⟨c, e, rfl, rfl, Token.isIdentStart_of_opening ident, first⟩

theorem BeginAlike.opening {rest other : List Char} (h : BeginAlike rest other) (c : Char) (taken : List Char) :
    Token.opening c (taken ++ other).head? = Token.opening c (taken ++ rest).head? := by
  refine Token.opening_congr c ?_
  cases taken with
  | cons => rfl
  | nil =>
    rcases h with same | ⟨d, e, hd, he, first, first'⟩
    · rw [List.nil_append, List.nil_append, same]
    · simp [hd, he, isDigit_of_isIdentStart first, isDigit_of_isIdentStart first']

/-- A token ends where it has ended before, unless it is a number and takes in what follows it. -/
theorem BeginAlike.ends {c : Char} {cs other : List Char} {kind : Token.Kind} {more : Char → Bool}
    (h : BeginAlike (cs.dropWhile more) other) (opening : Token.opening c cs.head? = (kind, more))
    (number : kind = .number → other.takeWhile more = []) : ∀ e ∈ other.head?, more e = false := by
  have stops (d : Char) (hd : (cs.dropWhile more).head? = some d) : more d = false := by
    have stop := List.head?_dropWhile_not more cs
    rw [hd] at stop
    simpa using stop
  intro e he
  rcases h with same | ⟨d, e', hd, he', first, first'⟩
  · exact stops e (same ▸ he)
  · cases he.symm.trans he'
    -- Only a number goes on over some identifiers and not over others.
    by_cases numeric : kind = .number
    · obtain ⟨es, rfl⟩ := List.head?_eq_some_iff.mp he
      by_contra more_e
      rw [List.takeWhile_cons_of_pos (by simpa using more_e)] at number
      cases number numeric
    · have kind : (Token.opening c cs.head?).1 ≠ .number := by rwa [opening]
      have ends := Token.opening_ends kind first first' (by rw [opening]; exact stops d hd)
      rwa [opening] at ends

theorem tokenizeFrom_first {c : Char} {cs rest piece : List Char} {kind : Token.Kind} {more : Char → Bool}
    (opening : Token.opening c cs.head? = (kind, more)) (follows : BeginAlike (cs.dropWhile more) rest)
    (allows : Token.Allows ⟨kind, c :: cs.takeWhile more, start⟩ piece) (start' : Nat)
    (keeps : ∀ u us, tokenizeFrom start' (piece ++ rest) = u :: us →
      Token.Keeps ⟨kind, c :: cs.takeWhile more, start⟩ u) :
    tokenizeFrom start' (piece ++ rest) = ⟨kind, piece, start'⟩ :: tokenizeFrom (start' + byteLength piece) rest := by
  rcases allows with rfl | ⟨ident, word⟩
  · have inside : ∀ d ∈ cs.takeWhile more, more d = true := fun d hd => List.mem_takeWhile_imp hd
    have opening' : Token.opening c (cs.takeWhile more ++ rest).head? = (kind, more) := by
      rw [follows.opening, List.takeWhile_append_dropWhile, opening]
    refine tokenizeFrom_append opening' inside (follows.ends opening fun number => ?_)
    have split := tokenizeFrom_cons start' c (cs.takeWhile more ++ rest)
    rw [opening'] at split
    have kept := (keeps _ _ split).number number
    rw [List.takeWhile_append_of_pos inside] at kept
    exact List.append_right_eq_self.mp (List.cons.inj kept).2
  · cases ident
    cases opening.symm.trans (Token.opening_ident (Token.isIdentStart_of_opening (by rw [opening])) _)
    exact word.tokenizeFrom (follows.ends opening fun number => nomatch number) start'

/-- Tokens with other identifiers in their places are read back as they are spelt, as long as no number takes in
what follows it. -/
theorem tokenizeFrom_respelt (allows : ∀ t ∈ tokenizeFrom start text, t.Allows (spell t)) :
    ∀ start', List.Forall₂ Token.Keeps (tokenizeFrom start text)
        (tokenizeFrom start' ((tokenizeFrom start text).flatMap spell)) →
      List.Forall₂ (fun t u => u.kind = t.kind ∧ u.text = spell t) (tokenizeFrom start text)
        (tokenizeFrom start' ((tokenizeFrom start text).flatMap spell)) := by
  -- The induction is on the first text. Where a token of the second starts depends on all spelt before it.
  fun_induction tokenizeFrom start text with
  | case1 =>
    intro start' _
    rw [List.flatMap_nil, tokenizeFrom_nil]
    exact .nil
  | case2 start c cs kind more opening taken ih =>
    intro start' keeps
    rw [List.forall_mem_cons] at allows
    rw [List.flatMap_cons] at keeps ⊢
    have first := tokenizeFrom_first opening (beginAlike_of_allows allows.2) allows.1 start' fun u us split => by
      rw [split] at keeps
      exact (List.forall₂_cons.mp keeps).1
    rw [first] at keeps ⊢
    exact .cons ⟨rfl, rfl⟩ (ih allows.2 _ (List.forall₂_cons.mp keeps).2)

end I8080

import I8080.Proofs.Retokenize
import I8080.Source.Literal

namespace I8080

theorem exists_letter_of_isUpper {c : Char} (h : c.isUpper = true) : ∃ k : Fin 26, c = Char.ofNat (65 + k) := by
  have bounds : 'A'.val ≤ c.val ∧ c.val ≤ 'Z'.val := of_decide_eq_true h
  have first : 65 ≤ c.toNat := UInt32.le_iff_toNat_le.mp bounds.1
  have last : c.toNat ≤ 90 := UInt32.le_iff_toNat_le.mp bounds.2
  refine ⟨⟨c.toNat - 65, by omega⟩, ?_⟩
  have same : 65 + (c.toNat - 65) = c.toNat := by omega
  dsimp only
  rw [same, Char.ofNat_toNat]

/-- What is the same for every letter in both cases is the same for all characters that differ in case only. -/
theorem apply_toLower {α : Type} {p : Char → α}
    (letters : ∀ k : Fin 26, p (Char.ofNat (97 + k)) = p (Char.ofNat (65 + k))) (c : Char) : p c.toLower = p c := by
  cases upper : c.isUpper with
  | false =>
    have same : c.toLower = c := dif_neg (of_decide_eq_false upper)
    rw [same]
  | true =>
    obtain ⟨k, rfl⟩ := exists_letter_of_isUpper upper
    have lower : ∀ k : Fin 26, (Char.ofNat (65 + k)).toLower = Char.ofNat (97 + k) := by decide
    rw [lower, letters]

theorem toLower_toLower (c : Char) : c.toLower.toLower = c.toLower :=
  apply_toLower (by decide) c

theorem utf8Size_toLower (c : Char) : c.toLower.utf8Size = c.utf8Size :=
  apply_toLower (by decide) c

theorem isDigit_toLower (c : Char) : c.toLower.isDigit = c.isDigit :=
  apply_toLower (by decide) c

theorem Token.opening_toLower (c : Char) (next : Option Char) :
    Token.opening c.toLower next = Token.opening c next := by
  refine apply_toLower (p := fun c => Token.opening c next) (fun k => ?_) c
  have letters : ∀ k : Fin 26, isIdentStart (Char.ofNat (97 + k)) = true ∧ isIdentStart (Char.ofNat (65 + k)) = true := by
    decide
  rw [Token.opening_ident (letters k).1, Token.opening_ident (letters k).2]

/-- Letters carry a token on in either case or in neither. -/
theorem Token.more_toLower (c : Char) (next : Option Char) (d : Char) :
    (Token.opening c next).2 d.toLower = (Token.opening c next).2 d := by
  refine apply_toLower (fun k => ?_) d
  unfold Token.opening
  revert k
  split_ifs <;> decide

/-- Two texts that differ in the case of their letters only. -/
def SameLetters (cs ds : List Char) : Prop :=
  cs.map Char.toLower = ds.map Char.toLower

instance (cs ds : List Char) : Decidable (SameLetters cs ds) :=
  inferInstanceAs (Decidable (cs.map Char.toLower = ds.map Char.toLower))

namespace SameLetters

variable {cs ds : List Char}

theorem takeWhile {p : Char → Bool} (h : SameLetters cs ds) (blind : ∀ c, p c.toLower = p c) :
    SameLetters (cs.takeWhile p) (ds.takeWhile p) := by
  have lower (cs : List Char) : (cs.takeWhile p).map Char.toLower = (cs.map Char.toLower).takeWhile p := by
    rw [List.takeWhile_map, show p ∘ Char.toLower = p from funext blind]
  rw [SameLetters, lower, lower, h]

theorem dropWhile {p : Char → Bool} (h : SameLetters cs ds) (blind : ∀ c, p c.toLower = p c) :
    SameLetters (cs.dropWhile p) (ds.dropWhile p) := by
  have lower (cs : List Char) : (cs.dropWhile p).map Char.toLower = (cs.map Char.toLower).dropWhile p := by
    rw [List.dropWhile_map, show p ∘ Char.toLower = p from funext blind]
  rw [SameLetters, lower, lower, h]

theorem byteLength_eq (h : SameLetters cs ds) : byteLength cs = byteLength ds := by
  have lower (cs : List Char) : byteLength (cs.map Char.toLower) = byteLength cs := by
    simp only [byteLength, List.foldr_map, utf8Size_toLower]
  rw [← lower cs, ← lower ds, h]

theorem opening_eq {c d : Char} (h : SameLetters (c :: cs) (d :: ds)) :
    Token.opening c cs.head? = Token.opening d ds.head? := by
  obtain ⟨first, rest⟩ := List.cons.inj h
  have digit (cs : List Char) : (cs.map Char.toLower).head?.any Char.isDigit = cs.head?.any Char.isDigit := by
    cases cs with
    | nil => rfl
    | cons e es => exact isDigit_toLower e
  have next : cs.head?.any Char.isDigit = ds.head?.any Char.isDigit := by
    rw [← digit cs, ← digit ds, rest]
  rw [← Token.opening_toLower c, ← Token.opening_toLower d, first, Token.opening_congr _ next]

theorem toLower_eq (h : SameLetters cs ds) : (String.ofList cs).toLower = (String.ofList ds).toLower := by
  have lower (cs : List Char) : (String.ofList cs).toLower = String.ofList (cs.map Char.toLower) := by
    change (String.ofList cs).map Char.toLower = _
    rw [String.map_eq_internal, String.toList_ofList]
  rw [lower, lower, h]

/-- Literals that differ in case stand for the same number, if for any. -/
theorem parse?_eq (h : SameLetters cs ds) : Literal.parse? cs = Literal.parse? ds := by
  have lower (cs : List Char) : Literal.parse? (cs.map Char.toLower) = Literal.parse? cs := by
    have twice (cs : List Char) : (cs.map Char.toLower).map Char.toLower = cs.map Char.toLower := by
      rw [List.map_map]
      exact List.map_congr_left fun c _ => toLower_toLower c
    cases cs with
    | nil => rfl
    | cons c cs =>
      have sign : (c.toLower == '-') = (c == '-') := apply_toLower (p := (· == '-')) (by decide) c
      by_cases negative : c = '-'
      · subst negative
        change Literal.parse? ('-' :: cs.map Char.toLower) = _
        simp only [Literal.parse?, twice]
      · have negative' : c.toLower ≠ '-' := by simpa [negative] using sign
        unfold Literal.parse?
        split
        next same => exact absurd (List.cons.inj same).1 negative'
        next =>
          split
          next same => exact absurd (List.cons.inj same).1 negative
          next =>
            dsimp only
            rw [twice]
  rw [← lower cs, ← lower ds, h]

end SameLetters

/-- A token that differs from another in the case of its letters only. -/
structure Token.Recased (t u : Token) : Prop where
  kind : u.kind = t.kind
  start : u.start = t.start
  text : SameLetters u.text t.text

theorem Token.Recased.span_eq {t u : Token} (h : t.Recased u) : u.span = t.span := by
  rw [Token.span, Token.span, h.start, h.text.byteLength_eq]

/-- A change of case changes no token but in the case of its letters. -/
theorem tokenizeFrom_recased (start : Nat) (text : List Char) :
    ∀ other, SameLetters other text →
      List.Forall₂ Token.Recased (tokenizeFrom start text) (tokenizeFrom start other) := by
  fun_induction tokenizeFrom start text with
  | case1 =>
    intro other h
    rw [List.map_eq_nil_iff.mp h, tokenizeFrom_nil]
    exact .nil
  | case2 start c cs kind more opening taken ih =>
    intro other h
    obtain ⟨d, ds, rfl, -⟩ := List.map_eq_cons_iff.mp h
    have blind : ∀ e, more e.toLower = more e := by
      have blind := Token.more_toLower c cs.head?
      rwa [opening] at blind
    have rest := (List.cons.inj h).2
    have first : SameLetters (d :: ds.takeWhile more) taken :=
      congrArg₂ List.cons (List.cons.inj h).1 (SameLetters.takeWhile rest blind)
    rw [tokenizeFrom_cons, SameLetters.opening_eq h, opening]
    refine .cons ⟨rfl, rfl, first⟩ ?_
    dsimp only
    rw [first.byteLength_eq]
    exact ih _ (SameLetters.dropWhile rest blind)

end I8080

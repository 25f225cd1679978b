import I8080.Source.Line
import Mathlib.Tactic.SplitIfs

namespace I8080

theorem byteLength_append (as bs : List Char) : byteLength (as ++ bs) = byteLength as + byteLength bs := by
  induction as with
  | nil => simp [byteLength]
  | cons a as ih =>
    have step : ∀ cs, byteLength (a :: cs) = a.utf8Size + byteLength cs := fun _ => rfl
    rw [List.cons_append, step, step, ih, Nat.add_assoc]

theorem tokenizeFrom_nil (start : Nat) : tokenizeFrom start [] = [] := by
  rw [tokenizeFrom]

theorem tokenizeFrom_cons (start : Nat) (c : Char) (cs : List Char) :
    tokenizeFrom start (c :: cs) =
      ⟨(Token.opening c cs.head?).1, c :: cs.takeWhile (Token.opening c cs.head?).2, start⟩ ::
        tokenizeFrom (start + byteLength (c :: cs.takeWhile (Token.opening c cs.head?).2))
          (cs.dropWhile (Token.opening c cs.head?).2) := by
  rw [tokenizeFrom]

/-- No token but a newline goes past the end of a line. -/
theorem Token.opening_newline (c : Char) (next : Option Char) : (Token.opening c next).2 '\n' = false := by
  unfold Token.opening
  split_ifs <;> decide

/-- Where no comment begins, no token goes past a colon or past the start of a comment. -/
theorem Token.opening_stops {text : List Char} {mark : Char} (noncomment : ';' ∉ text)
    (stop : mark = ':' ∨ mark = ';') : ∀ c ∈ text, ∀ next, (Token.opening c next).2 mark = false := by
  intro c hc next
  have other : c ≠ ';' := by
    rintro rfl
    exact noncomment hc
  unfold Token.opening
  rw [if_neg other]
  rcases stop with rfl | rfl <;> split_ifs <;> decide

/-- What follows a character matters only if it is a digit. -/
theorem Token.opening_head {mark : Char} (digit : mark.isDigit = false) (c : Char) (cs rest : List Char) :
    Token.opening c (cs ++ mark :: rest).head? = Token.opening c cs.head? := by
  cases cs with
  | nil => simp [Token.opening, digit]
  | cons d cs => rfl

theorem takeWhile_mark {p : Char → Bool} {mark : Char} (h : p mark = false) (text rest : List Char) :
    (text ++ mark :: rest).takeWhile p = text.takeWhile p := by
  induction text with
  | nil => simp [h]
  | cons c text ih => simp [List.takeWhile_cons, ih]

theorem dropWhile_mark {p : Char → Bool} {mark : Char} (h : p mark = false) (text rest : List Char) :
    (text ++ mark :: rest).dropWhile p = text.dropWhile p ++ mark :: rest := by
  induction text with
  | nil => simp [h]
  | cons c text ih =>
    rw [List.cons_append, List.dropWhile_cons, List.dropWhile_cons, ih]
    split <;> rfl

/-- A character that no token before it goes past begins a token. -/
theorem tokenizeFrom_mark {mark : Char} {text : List Char} (digit : mark.isDigit = false)
    (stops : ∀ c ∈ text, ∀ next, (Token.opening c next).2 mark = false) (start : Nat) (rest : List Char) :
    tokenizeFrom start (text ++ mark :: rest) =
      tokenizeFrom start text ++ tokenizeFrom (start + byteLength text) (mark :: rest) := by
  fun_induction tokenizeFrom start text with
  | case1 start => rfl
  | case2 start c cs kind more opening taken ih =>
    have last : more mark = false := by
      have stop := stops c List.mem_cons_self cs.head?
      rwa [opening] at stop
    have rest_stops : ∀ d ∈ cs.dropWhile more, ∀ next, (Token.opening d next).2 mark = false :=
      fun d hd => stops d (List.mem_cons_of_mem _ ((List.dropWhile_sublist more).mem hd))
    have length : byteLength taken + byteLength (cs.dropWhile more) = byteLength (c :: cs) := by
      rw [← byteLength_append, List.cons_append, List.takeWhile_append_dropWhile]
    rw [List.cons_append, tokenizeFrom_cons, Token.opening_head digit, opening]
    dsimp only
    rw [takeWhile_mark last, dropWhile_mark last, ih rest_stops, List.cons_append, Nat.add_assoc, length]

/-- A character that always stands alone is a token of its own. -/
theorem tokenizeFrom_alone {mark : Char} {kind : Token.Kind}
    (opening : ∀ next, Token.opening mark next = (kind, fun _ => false)) (start : Nat) (rest : List Char) :
    tokenizeFrom start (mark :: rest) =
      ⟨kind, [mark], start⟩ :: tokenizeFrom (start + byteLength [mark]) rest := by
  have stop : rest.takeWhile (fun _ => false) = [] ∧ rest.dropWhile (fun _ => false) = rest := by
    cases rest <;> simp
  rw [tokenizeFrom_cons, opening]
  dsimp only
  rw [stop.1, stop.2]

theorem tokenizeFrom_newline (start : Nat) (text rest : List Char) :
    tokenizeFrom start (text ++ '\n' :: rest) =
      tokenizeFrom start text ++ ⟨.newline, ['\n'], start + byteLength text⟩ ::
        tokenizeFrom (start + byteLength text + 1) rest := by
  rw [tokenizeFrom_mark (by decide) fun c _ next => Token.opening_newline c next,
    tokenizeFrom_alone fun _ => rfl]
  rfl

/-- A lexeme that can go on no further is the first token. -/
theorem tokenizeFrom_append {start : Nat} {c : Char} {cs rest : List Char} {kind : Token.Kind}
    {more : Char → Bool} (opening : Token.opening c (cs ++ rest).head? = (kind, more))
    (inside : ∀ d ∈ cs, more d = true) (outside : ∀ d ∈ rest.head?, more d = false) :
    tokenizeFrom start (c :: cs ++ rest) =
      ⟨kind, c :: cs, start⟩ :: tokenizeFrom (start + byteLength (c :: cs)) rest := by
  have stop : rest.takeWhile more = [] ∧ rest.dropWhile more = rest := by
    cases rest with
    | nil => exact ⟨rfl, rfl⟩
    | cons d rest =>
      have hd : more d = false := outside d rfl
      simp [hd]
  rw [List.cons_append, tokenizeFrom_cons, opening]
  dsimp only
  rw [List.takeWhile_append_of_pos inside, List.dropWhile_append_of_pos inside, stop.1, stop.2, List.append_nil]

/-- A token is what its first character opens, as far as that carries on. -/
theorem opened_of_tokenizeFrom {start : Nat} {text : List Char} {t : Token} (h : t ∈ tokenizeFrom start text) :
    ∃ before c cs, text = before ++ c :: cs ∧ t.start = start + byteLength before ∧
      t.kind = (Token.opening c cs.head?).1 ∧ t.text = c :: cs.takeWhile (Token.opening c cs.head?).2 := by
  fun_induction tokenizeFrom start text with
  | case1 => cases h
  | case2 start c cs kind more opening taken ih =>
    rcases List.mem_cons.mp h with rfl | later
    · exact ⟨[], c, cs, rfl, rfl, by rw [opening], by rw [opening]⟩
    · obtain ⟨before, d, ds, rest, place, opened⟩ := ih later
      refine ⟨taken ++ before, d, ds, ?_, ?_, opened⟩
      · rw [List.append_assoc, ← rest, List.cons_append, List.takeWhile_append_dropWhile]
      · rw [place, byteLength_append, Nat.add_assoc]

theorem place_of_tokenizeFrom {start : Nat} {text : List Char} {t : Token} (h : t ∈ tokenizeFrom start text) :
    ∃ before after, text = before ++ (t.text ++ after) ∧ t.start = start + byteLength before := by
  obtain ⟨before, c, cs, rfl, place, -, taken⟩ := opened_of_tokenizeFrom h
  refine ⟨before, cs.dropWhile (Token.opening c cs.head?).2, ?_, place⟩
  rw [taken, List.cons_append, List.takeWhile_append_dropWhile]

theorem mem_of_tokenizeFrom {mark : Char} {kind : Token.Kind}
    (only : ∀ c next, (Token.opening c next).1 = kind → c = mark) {start : Nat} {text : List Char} {t : Token}
    (h : t ∈ tokenizeFrom start text) (ht : t.kind = kind) : mark ∈ text := by
  obtain ⟨before, c, cs, rfl, -, opened, -⟩ := opened_of_tokenizeFrom h
  have hc : c = mark := only c cs.head? (opened.symm.trans ht)
  exact hc ▸ List.mem_append_right before List.mem_cons_self

theorem newline_mem_of_tokenizeFrom {start : Nat} {text : List Char} {t : Token}
    (h : t ∈ tokenizeFrom start text) (newline : t.kind = .newline) : '\n' ∈ text := by
  refine mem_of_tokenizeFrom ?_ h newline
  intro c next opening
  unfold Token.opening at opening
  split_ifs at opening
  assumption

theorem colon_mem_of_tokenizeFrom {start : Nat} {text : List Char} {t : Token}
    (h : t ∈ tokenizeFrom start text) (colon : t.kind = .colon) : ':' ∈ text := by
  refine mem_of_tokenizeFrom ?_ h colon
  intro c next opening
  unfold Token.opening at opening
  split_ifs at opening
  assumption

theorem splitLines_append {newline : Token} (h : newline.kind = .newline) (ts us : List Token) :
    splitLines (ts ++ newline :: us) = splitLines ts ++ splitLines us := by
  induction ts with
  | nil => simp [splitLines, h]
  | cons t ts ih =>
    rw [List.cons_append, splitLines, splitLines, ih]
    by_cases ht : t.kind = .newline
    · simp [ht]
    · cases hs : splitLines ts with
      | nil =>
        cases ts with
        | nil => cases hs
        | cons u ts =>
          rw [splitLines] at hs
          split at hs
          next => cases hs
          next => split at hs <;> cases hs
      | cons line lines => simp [ht]

theorem splitLines_single {ts : List Token} (h : ∀ t ∈ ts, t.kind ≠ .newline) : splitLines ts = [ts] := by
  induction ts with
  | nil => rfl
  | cons t ts ih =>
    rw [splitLines, if_neg (h t (by simp)), ih fun u hu => h u (by simp [hu])]

end I8080

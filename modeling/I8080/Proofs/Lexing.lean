import I8080.Proofs.Cursor
import I8080.Proofs.Retokenize
import I8080.Proofs.StatementText
import I8080.Proofs.TokenLines

namespace I8080

/-- A character with which no token begins but an unknown one, or a number if it is a hyphen. -/
def isStray (c : Char) : Bool :=
  c ≠ ';' && c ≠ '\n' && c ≠ ':' && !isSeparator c && !c.isDigit && !isIdentStart c

/-- What a token of each kind may be. -/
inductive IsLexeme : Token.Kind → List Char → Prop
  | word {kind : Token.Kind} {text : List Char} (h : IsWord kind text) : IsLexeme kind text
  | signed {text : List Char} (h : IsWord .number text) : IsLexeme .number ('-' :: text)
  | colon : IsLexeme .colon [':']
  | blank {c : Char} {cs : List Char} (first : isSeparator c = true) (rest : ∀ d ∈ cs, isSeparator d = true) :
      IsLexeme .blank (c :: cs)
  | newline : IsLexeme .newline ['\n']
  | comment {text : List Char} (single : '\n' ∉ text) : IsLexeme .comment (';' :: text)
  | unknown {c : Char} (stray : isStray c = true) : IsLexeme .unknown [c]

theorem Token.opening_stray {c : Char} {next : Option Char} (stray : isStray c = true)
    (unsigned : c = '-' → next.any Char.isDigit = false) : Token.opening c next = (.unknown, fun _ => false) := by
  simp only [isStray, Bool.and_eq_true, decide_eq_true_eq, Bool.not_eq_true'] at stray
  obtain ⟨⟨⟨⟨⟨comment, newline⟩, colon⟩, separator⟩, digit⟩, ident⟩ := stray
  by_cases minus : c = '-'
  · subst minus
    simp [Token.opening, unsigned rfl, separator, digit, ident]
  · simp [Token.opening, comment, newline, colon, separator, digit, ident, minus]

/-- A text is a lexeme if its first character opens it and all others carry it on. -/
theorem isLexeme_cons_iff {kind : Token.Kind} {c : Char} {cs : List Char} :
    IsLexeme kind (c :: cs) ↔
      (Token.opening c cs.head?).1 = kind ∧ ∀ d ∈ cs, (Token.opening c cs.head?).2 d = true := by
  constructor
  · intro h
    cases h with
    | word h =>
      cases h with
      | ident first rest =>
        rw [Token.opening_ident first]
        exact ⟨rfl, rest⟩
      | number first rest =>
        rw [Token.opening_digit first]
        exact ⟨rfl, rest⟩
    | signed h =>
      cases h with
      | @number d ds first rest =>
        rw [Token.opening_minus (by simp [first])]
        exact ⟨rfl, List.forall_mem_cons.mpr ⟨by simp [Char.isAlphanum, first], rest⟩⟩
    | colon => exact ⟨rfl, List.forall_mem_nil _⟩
    | blank first rest =>
      rw [Token.opening_blank first]
      exact ⟨rfl, rest⟩
    | newline => exact ⟨rfl, List.forall_mem_nil _⟩
    | comment single => exact ⟨rfl, fun d hd => decide_eq_true fun same => single (same ▸ hd)⟩
    | unknown stray =>
      rw [Token.opening_stray stray fun _ => rfl]
      exact ⟨rfl, List.forall_mem_nil _⟩
  · rintro ⟨rfl, rest⟩
    have alone (none : ∀ d ∈ cs, False) : cs = [] := List.eq_nil_iff_forall_not_mem.mpr none
    unfold Token.opening at rest ⊢
    split_ifs at rest ⊢ with comment newline separator colon number ident
    · subst comment
      exact .comment fun mem => of_decide_eq_true (rest _ mem) rfl
    · rw [newline, alone rest]
      exact .newline
    · exact .blank separator rest
    · rw [colon, alone rest]
      exact .colon
    · by_cases digit : c.isDigit = true
      · exact .word (.number digit rest)
      · obtain ⟨rfl, next⟩ : c = '-' ∧ cs.head?.any Char.isDigit = true := by simpa [digit] using number
        cases cs with
        | nil => cases next
        | cons d ds => exact .signed (.number (by simpa using next) (List.forall_mem_cons.mp rest).2)
    · exact .word (.ident ident rest)
    · rw [alone rest]
      refine .unknown ?_
      simp_all [isStray]

theorem IsLexeme.newline_iff {kind : Token.Kind} {text : List Char} (h : IsLexeme kind text) :
    '\n' ∈ text ↔ kind = .newline := by
  cases h with
  | word h =>
    refine iff_of_false h.newline_not_mem ?_
    rcases h.kind_eq with rfl | rfl <;> exact nofun
  | signed h =>
    refine iff_of_false ?_ nofun
    simpa using h.newline_not_mem
  | colon => exact iff_of_false (by decide) nofun
  | @blank c cs first rest =>
    have separators : ∀ d ∈ c :: cs, isSeparator d = true := List.forall_mem_cons.mpr ⟨first, rest⟩
    exact iff_of_false (fun mem => nomatch separators '\n' mem) nofun
  | newline => exact iff_of_true List.mem_cons_self rfl
  | comment single => exact iff_of_false (by simpa using single) nofun
  | unknown stray =>
    refine iff_of_false (fun mem => ?_) nofun
    cases List.mem_singleton.mp mem
    cases stray

theorem IsLexeme.eq_newline {text : List Char} (h : IsLexeme .newline text) : text = ['\n'] := by
  cases h with
  | word h => rcases h.kind_eq with same | same <;> cases same
  | newline => rfl

theorem IsLexeme.length_unknown {text : List Char} (h : IsLexeme .unknown text) : text.length = 1 := by
  cases h with
  | word h => rcases h.kind_eq with same | same <;> cases same
  | unknown => rfl

/-- A token where it stands in a source: a lexeme of its kind, which the next character makes no longer. -/
structure Token.StandsIn (source : List Char) (t : Token) : Prop where
  lexeme : IsLexeme t.kind t.text
  filled : 0 < t.span.length
  newline : t.kind = .newline → t.text = ['\n']
  single : t.kind ≠ .newline → '\n' ∉ t.text
  unknown : t.kind = .unknown → t.text.length = 1
  text : slice? source t.span.start t.span.stop = some t.text
  place : ∃ before after, source = before ++ (t.text ++ after) ∧ byteLength before = t.span.start ∧
    ∀ c ∈ after.head?, ∀ kind, ¬IsLexeme kind (t.text ++ [c])

/-- Spans that follow each other without a gap, from one byte to another. -/
def Span.Abut : Nat → List Span → Nat → Prop
  | first, [], last => first = last
  | first, s :: spans, last => s.start = first ∧ Span.Abut s.stop spans last

theorem abut_tokenizeFrom (start : Nat) (text : List Char) :
    Span.Abut start ((tokenizeFrom start text).map Token.span) (start + byteLength text) := by
  fun_induction tokenizeFrom start text with
  | case1 => rfl
  | case2 start c cs kind more opening taken ih =>
    have length : byteLength (c :: cs) = byteLength taken + byteLength (cs.dropWhile more) := by
      rw [← byteLength_append, List.cons_append, List.takeWhile_append_dropWhile]
    rw [length, ← Nat.add_assoc]
    exact ⟨rfl, ih⟩

theorem texts_tokenizeFrom (start : Nat) (text : List Char) : (tokenizeFrom start text).flatMap Token.text = text := by
  fun_induction tokenizeFrom start text with
  | case1 => rfl
  | case2 start c cs kind more opening taken ih =>
    rw [List.flatMap_cons, ih, List.cons_append, List.takeWhile_append_dropWhile]

theorem length_tokenizeFrom_le (start : Nat) (text : List Char) : (tokenizeFrom start text).length ≤ text.length := by
  fun_induction tokenizeFrom start text with
  | case1 => exact Nat.le_refl 0
  | case2 start c cs kind more opening taken ih =>
    rw [List.length_cons, List.length_cons]
    exact Nat.succ_le_succ (Nat.le_trans ih (length_dropWhile_le more cs))

/-- What a token takes in is enough to tell how it goes on. -/
theorem Token.opening_taken (c : Char) (cs : List Char) :
    Token.opening c (cs.takeWhile (Token.opening c cs.head?).2).head? = Token.opening c cs.head? := by
  cases cs with
  | nil => rfl
  | cons d ds =>
    rw [List.head?_cons]
    by_cases more : (Token.opening c (some d)).2 d = true
    · rw [List.takeWhile_cons_of_pos more, List.head?_cons]
    · rw [List.takeWhile_cons_of_neg more, List.head?_nil]
      by_cases minus : c = '-'
      · subst minus
        -- A hyphen takes in the digit that makes it a sign.
        have digit : d.isDigit = false := by
          by_contra digit
          rw [Token.opening_minus (by simpa using digit)] at more
          simp_all [Char.isAlphanum]
        exact Token.opening_congr _ (by simp [digit])
      · simp [Token.opening, minus]

theorem isLexeme_of_opening {c : Char} {cs : List Char} :
    IsLexeme (Token.opening c cs.head?).1 (c :: cs.takeWhile (Token.opening c cs.head?).2) := by
  rw [isLexeme_cons_iff, Token.opening_taken]
  exact ⟨rfl, fun d hd => List.mem_takeWhile_imp hd⟩

theorem stop_of_dropWhile {p : Char → Bool} {cs : List Char} {d : Char} (next : d ∈ (cs.dropWhile p).head?) :
    p d = false ∧ (cs.takeWhile p ++ [d]).head? = cs.head? := by
  constructor
  · have stop := List.head?_dropWhile_not p cs
    rw [Option.mem_def.mp next] at stop
    simpa using stop
  · obtain ⟨rest, split⟩ := List.head?_eq_some_iff.mp next
    have whole := List.takeWhile_append_dropWhile (p := p) (l := cs)
    rw [split] at whole
    rw [← congrArg List.head? whole]
    cases cs.takeWhile p <;> rfl

theorem not_isLexeme_of_opening {c d : Char} {cs : List Char}
    (next : d ∈ (cs.dropWhile (Token.opening c cs.head?).2).head?) (kind : Token.Kind) :
    ¬IsLexeme kind (c :: cs.takeWhile (Token.opening c cs.head?).2 ++ [d]) := by
  intro longer
  obtain ⟨stop, head⟩ := stop_of_dropWhile next
  rw [List.cons_append] at longer
  have carries := (isLexeme_cons_iff.mp longer).2 d (by simp)
  rw [head, stop] at carries
  cases carries

theorem stands_of_tokenize {source : List Char} {t : Token} (h : t ∈ tokenize source) : t.StandsIn source := by
  have slice := text_of_tokenize h
  obtain ⟨before, c, cs, split, place, opened, taken⟩ := opened_of_tokenizeFrom h
  have lexeme : IsLexeme t.kind t.text := by
    rw [opened, taken]
    exact isLexeme_of_opening
  constructor
  case lexeme => exact lexeme
  case filled =>
    rw [Token.span, taken]
    exact byteLength_pos c _
  case newline =>
    intro newline
    exact (newline ▸ lexeme).eq_newline
  case single => exact fun other mem => other (lexeme.newline_iff.mp mem)
  case unknown =>
    intro unknown
    exact (unknown ▸ lexeme).length_unknown
  case text => exact slice
  case place =>
    refine ⟨before, cs.dropWhile (Token.opening c cs.head?).2, ?_, ?_, ?_⟩
    · rw [split, taken, List.cons_append, List.takeWhile_append_dropWhile]
    · exact (place.trans (Nat.zero_add _)).symm
    · intro d next kind
      rw [taken]
      exact not_isLexeme_of_opening next kind

theorem byteLength_toList (s : String) : byteLength s.toList = s.utf8ByteSize := by
  obtain ⟨cs, rfl⟩ : ∃ cs, s = String.ofList cs := ⟨s.toList, String.ofList_toList.symm⟩
  rw [String.toList_ofList]
  induction cs with
  | nil => rfl
  | cons c cs ih =>
    rw [byteLength_cons, ih, String.ofList_cons, String.utf8ByteSize_append, String.utf8ByteSize_singleton]

/-- The end of a source is told from a character that reads as its mark. -/
theorem Cursor.advance?_eq_none_iff {c : Cursor} : c.advance? = some none ↔ c.rest = [] := by
  cases filled : c.rest with
  | nil => simp [Cursor.advance?, filled]
  | cons head rest =>
    refine iff_of_false (fun h => ?_) (List.cons_ne_nil head rest)
    simp only [Cursor.advance?, filled] at h
    obtain ⟨length, -, h⟩ := Option.bind_eq_some_iff.mp h
    obtain ⟨next, -, done⟩ := Option.bind_eq_some_iff.mp h
    cases done

/-- Tokens lie side by side from the first byte of a source to its last, each as long as it can be. -/
theorem tokenize_covers (source : String) :
    Span.Abut 0 ((tokenize source.toList).map Token.span) source.utf8ByteSize ∧
      (tokenize source.toList).flatMap Token.text = source.toList ∧
      (tokenize source.toList).length ≤ source.toList.length ∧
      (∀ t ∈ tokenize source.toList, t.StandsIn source.toList) ∧
      (Cursor.ofText source.toList).marks? = some ((tokenize source.toList).map Token.mark) ∧
      ∀ c : Cursor, c.advance? = some none ↔ c.rest = [] := by
  have spans := abut_tokenizeFrom 0 source.toList
  rw [Nat.zero_add, byteLength_toList] at spans
  exact ⟨spans, texts_tokenizeFrom 0 source.toList, length_tokenizeFrom_le 0 source.toList,
    fun t ht => stands_of_tokenize ht, Cursor.marks?_ofText source.toList, fun c => Cursor.advance?_eq_none_iff⟩

/-- A source that holds the character which the end reads as, behind a hyphen that is no sign. -/
theorem tokenize_covers_nul :
    let source := "-\x00é-1"
    let nul : Token := ⟨.unknown, ['\x00'], 1⟩
    tokenize source.toList = [⟨.unknown, ['-'], 0⟩, nul, ⟨.unknown, ['é'], 2⟩, ⟨.number, ['-', '1'], 4⟩] ∧
      Span.Abut 0 [⟨0, 1⟩, ⟨1, 1⟩, ⟨2, 2⟩, ⟨4, 2⟩] 6 ∧ nul ∈ tokenize source.toList ∧ nul.StandsIn source.toList := by
  intro source nul
  have tokens : tokenize source.toList =
      [⟨.unknown, ['-'], 0⟩, nul, ⟨.unknown, ['é'], 2⟩, ⟨.number, ['-', '1'], 4⟩] := by decide +kernel
  have mem : nul ∈ tokenize source.toList := by simp [tokens]
  obtain ⟨spans, -, -, stands, -⟩ := tokenize_covers source
  refine ⟨tokens, ?_, mem, stands nul mem⟩
  rw [tokens] at spans
  exact spans

end I8080

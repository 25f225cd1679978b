import I8080.Proofs.Lexeme
import Mathlib.Algebra.GroupWithZero.Nat

namespace I8080

theorem lexeme_tokenizeFrom (start other : Nat) (text : List Char) :
    (tokenizeFrom start text).map Token.lexeme = (tokenizeFrom other text).map Token.lexeme := by
  fun_induction tokenizeFrom start text generalizing other with
  | case1 => simp [tokenizeFrom_nil]
  | case2 start c cs kind more opening taken ih =>
    rw [tokenizeFrom_cons, opening, List.map_cons, List.map_cons, ih]
    rfl

theorem meaningful_eq (tokens : List Token) :
    meaningful tokens =
      (tokens.map Token.lexeme).filter fun lexeme => lexeme.1 ≠ .blank ∧ lexeme.1 ≠ .comment := by
  unfold meaningful
  rw [List.filter_map]
  rfl

theorem meaningful_tokenizeFrom (start : Nat) (text : List Char) :
    meaningful (tokenizeFrom start text) = meaningful (tokenize text) := by
  rw [meaningful_eq, meaningful_eq, tokenize, lexeme_tokenizeFrom]

/-- The tokens of lines that stand one after the other with newlines between them. -/
def lineTokens : Nat → List (List Char) → List (List Token)
  | _, [] => []
  | start, line :: lines => tokenizeFrom start line :: lineTokens (start + byteLength line + 1) lines

theorem splitLines_tokenizeFrom {line : List Char} (free : '\n' ∉ line) (start : Nat) :
    splitLines (tokenizeFrom start line) = [tokenizeFrom start line] :=
  splitLines_single fun _ ht newline => free (newline_mem_of_tokenizeFrom ht newline)

theorem splitLines_intercalate {lines : List (List Char)} (free : ∀ line ∈ lines, '\n' ∉ line)
    (nonempty : lines ≠ []) (start : Nat) :
    splitLines (tokenizeFrom start (['\n'].intercalate lines)) = lineTokens start lines := by
  induction lines generalizing start with
  | nil => exact absurd rfl nonempty
  | cons line lines ih =>
    have first := splitLines_tokenizeFrom (free line (by simp)) start
    cases lines with
    | nil => simpa [lineTokens, List.intercalate_singleton] using first
    | cons next lines =>
      have join : ['\n'].intercalate (line :: next :: lines) =
          line ++ '\n' :: ['\n'].intercalate (next :: lines) := by
        simp [List.intercalate_cons_cons]
      rw [join, tokenizeFrom_newline, splitLines_append rfl, first,
        ih (fun l hl => free l (by simp [hl])) (by simp)]
      rfl

theorem not_mem_of_mem_splitOn {mark : Char} {text piece : List Char} (h : piece ∈ text.splitOn mark) :
    mark ∉ piece := by
  induction text generalizing piece with
  | nil =>
    rw [List.splitOn_nil] at h
    cases List.mem_singleton.mp h
    exact List.not_mem_nil
  | cons c cs ih =>
    rw [List.splitOn_cons_eq_if_modifyHead] at h
    obtain ⟨first, rest, pieces⟩ := List.exists_cons_of_ne_nil (List.splitOn_ne_nil mark cs)
    rw [pieces] at h ih
    split at h
    next =>
      rcases List.mem_cons.mp h with rfl | later
      · exact List.not_mem_nil
      · exact ih later
    next different =>
      rw [List.modifyHead_cons] at h
      rcases List.mem_cons.mp h with rfl | later
      · rw [List.mem_cons, not_or]
        refine ⟨?_, ih List.mem_cons_self⟩
        rintro rfl
        exact different (beq_self_eq_true _)
      · exact ih (List.mem_cons_of_mem _ later)

theorem splitLines_splitOn (start : Nat) (text : List Char) :
    splitLines (tokenizeFrom start text) = lineTokens start (text.splitOn '\n') := by
  have lines := splitLines_intercalate (fun _ h => not_mem_of_mem_splitOn h) (List.splitOn_ne_nil '\n' text) start
  rwa [List.intercalate_splitOn] at lines

/-- The lines of a split source that mean something, numbered from `number` on. -/
def numberedLines (number : Nat) (split : List (List Token)) : List SourceLine :=
  ((split.zipIdx number).map fun (tokens, number) =>
    SourceLine.mk number (tokens.filter Token.isMeaningful)).filter fun line => !line.tokens.isEmpty

theorem sourceLines_eq (source : List Char) :
    sourceLines source = numberedLines 1 (splitLines (tokenize source)) :=
  rfl

/-- Where a line begins that follows these lines. -/
def lineStart (start : Nat) (lines : List (List Char)) : Nat :=
  start + (lines.map fun line => byteLength line + 1).sum

theorem lineStart_cons (start : Nat) (line : List Char) (lines : List (List Char)) :
    lineStart (start + byteLength line + 1) lines = lineStart start (line :: lines) := by
  simp only [lineStart, List.map_cons, List.sum_cons]
  omega

theorem lineTokens_append (start : Nat) (lines more : List (List Char)) :
    lineTokens start (lines ++ more) = lineTokens start lines ++ lineTokens (lineStart start lines) more := by
  induction lines generalizing start with
  | nil => rfl
  | cons line lines ih =>
    rw [List.cons_append, lineTokens, lineTokens, ih, lineStart_cons, List.cons_append]

theorem length_lineTokens (start : Nat) (lines : List (List Char)) :
    (lineTokens start lines).length = lines.length := by
  induction lines generalizing start with
  | nil => rfl
  | cons line lines ih => rw [lineTokens, List.length_cons, ih, List.length_cons]

theorem numberedLines_append (number : Nat) (split more : List (List Token)) :
    numberedLines number (split ++ more) =
      numberedLines number split ++ numberedLines (number + split.length) more := by
  simp [numberedLines, List.zipIdx_append]

theorem number_of_mem_numberedLines {number : Nat} {split : List (List Token)} {line : SourceLine}
    (h : line ∈ numberedLines number split) : number ≤ line.number ∧ line.number < number + split.length := by
  obtain ⟨⟨tokens, n⟩, mem, rfl⟩ := List.mem_map.mp (List.mem_filter.mp h).1
  exact ⟨List.le_snd_of_mem_zipIdx mem, List.snd_lt_add_of_mem_zipIdx mem⟩

theorem numberedLines_single (number : Nat) (tokens : List Token) :
    numberedLines number [tokens] =
      if tokens.filter Token.isMeaningful = [] then [] else [⟨number, tokens.filter Token.isMeaningful⟩] := by
  by_cases h : tokens.filter Token.isMeaningful = [] <;> simp [numberedLines, h]

theorem numberedLines_cons (number : Nat) (line : List Token) (lines : List (List Token)) :
    numberedLines number (line :: lines) =
      numberedLines number [line] ++ numberedLines (number + 1) lines :=
  numberedLines_append number [line] lines

theorem lexemes_numberedLines (start number : Nat) (lines : List (List Char)) :
    (numberedLines number (lineTokens start lines)).map (fun line => line.tokens.map Token.lexeme) =
      (lines.map fun line => meaningful (tokenize line)).filter (· ≠ []) := by
  induction lines generalizing start number with
  | nil => rfl
  | cons line lines ih =>
    rw [lineTokens, numberedLines_cons, List.map_append, ih, numberedLines_single, List.map_cons,
      ← meaningful_tokenizeFrom start]
    by_cases none : (tokenizeFrom start line).filter Token.isMeaningful = []
    · simp [meaningful, none]
    · simp [meaningful, none]

theorem sourceLines_lines {lines : List (List Char)} (free : ∀ line ∈ lines, '\n' ∉ line) :
    sourceLines (['\n'].intercalate lines) = numberedLines 1 (lineTokens 0 lines) := by
  by_cases empty : lines = []
  · subst empty
    simp [sourceLines_eq, numberedLines, tokenize, tokenizeFrom_nil, splitLines, lineTokens]
  · rw [sourceLines_eq, tokenize, splitLines_intercalate free empty]

theorem sourceLines_splitOn (text : List Char) :
    sourceLines text = numberedLines 1 (lineTokens 0 (text.splitOn '\n')) := by
  rw [sourceLines_eq, tokenize, splitLines_splitOn]

/-- A text that goes on after a newline keeps its lines, and those that follow are numbered on. -/
theorem sourceLines_append (text more : List Char) :
    sourceLines (text ++ '\n' :: more) =
      sourceLines text ++ numberedLines (1 + (text.splitOn '\n').length)
        (lineTokens (0 + byteLength text + 1) (more.splitOn '\n')) := by
  rw [sourceLines_splitOn text, sourceLines_eq, tokenize, tokenizeFrom_newline, splitLines_append rfl,
    numberedLines_append, splitLines_splitOn, length_lineTokens, splitLines_splitOn]

/-- A text of lines that each mean something has just these lines. -/
theorem sourceLines_intercalate {lines : List (List Char)} (free : ∀ line ∈ lines, '\n' ∉ line)
    (content : ∀ line ∈ lines, meaningful (tokenize line) ≠ []) :
    (sourceLines (['\n'].intercalate lines)).map (fun line => line.tokens.map Token.lexeme) =
      lines.map fun line => meaningful (tokenize line) := by
  rw [sourceLines_lines free, lexemes_numberedLines, List.filter_eq_self]
  simpa using content

/-- A source line is that of some line of the text. -/
theorem exists_of_mem_numberedLines {lines : List (List Char)} {line : SourceLine} {start number : Nat}
    (h : line ∈ numberedLines number (lineTokens start lines)) :
    ∃ earlier text later, lines = earlier ++ text :: later ∧
      numberedLines (number + earlier.length) [tokenizeFrom (lineStart start earlier) text] = [line] := by
  induction lines generalizing start number with
  | nil => cases h
  | cons text lines ih =>
    rw [lineTokens, numberedLines_cons, List.mem_append] at h
    rcases h with here | later
    · refine ⟨[], text, lines, rfl, ?_⟩
      rw [numberedLines_single] at here
      split at here
      next => cases here
      next some =>
        cases List.mem_singleton.mp here
        exact (numberedLines_single number _).trans (if_neg some)
    · obtain ⟨earlier, other, rest, rfl, hl⟩ := ih later
      refine ⟨text :: earlier, other, rest, rfl, ?_⟩
      rwa [← lineStart_cons, List.length_cons, Nat.add_comm earlier.length, ← Nat.add_assoc]

/-- The source lines before a line of a text, at it, and after it. -/
theorem sourceLines_around {earlier later : List (List Char)} {line : List Char}
    (free : ∀ l ∈ earlier ++ line :: later, '\n' ∉ l) :
    sourceLines (['\n'].intercalate (earlier ++ line :: later)) =
      sourceLines (['\n'].intercalate earlier) ++
        (numberedLines (earlier.length + 1) [tokenizeFrom (lineStart 0 earlier) line] ++
          numberedLines (earlier.length + 2)
            (lineTokens (lineStart 0 earlier + byteLength line + 1) later)) := by
  have above : ∀ l ∈ earlier, '\n' ∉ l := fun l hl => free l (List.mem_append_left _ hl)
  rw [sourceLines_lines free, sourceLines_lines above, lineTokens_append, numberedLines_append,
    length_lineTokens, lineTokens, numberedLines_cons, Nat.add_comm 1]

theorem SourceLine.label?_eq_some {line : SourceLine} {name : Token} (h : line.label? = some name) :
    ∃ colon rest, line.tokens = name :: colon :: rest ∧ name.kind = .ident ∧ colon.kind = .colon := by
  obtain ⟨number, tokens⟩ := line
  unfold SourceLine.label? at h
  dsimp only at h
  split at h
  next name' colon rest =>
    split at h
    next kinds =>
      cases Option.some.inj h
      exact ⟨colon, rest, rfl, kinds.1, kinds.2⟩
    next => cases h
  next => cases h

theorem SourceLine.label?_mem {line : SourceLine} {name : Token} (h : line.label? = some name) :
    name ∈ line.tokens := by
  obtain ⟨colon, rest, tokens, -, -⟩ := SourceLine.label?_eq_some h
  rw [tokens]
  exact List.mem_cons_self

theorem SourceLine.body_sublist (line : SourceLine) : line.body.Sublist line.tokens := by
  unfold SourceLine.body
  split
  next => exact List.drop_sublist _ _
  next => exact List.Sublist.refl _

end I8080

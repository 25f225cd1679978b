import I8080.Proofs.LexemeView
import Mathlib.Data.List.Forall2
import Mathlib.Data.List.TakeWhile

namespace I8080

/-- Two lines that differ in nothing but their blanks and the comments at their ends. -/
inductive Respaced : List Char → List Char → Prop
  | refl (line : List Char) : Respaced line line
  | symm {line other : List Char} (h : Respaced line other) : Respaced other line
  | trans {line other third : List Char} (h : Respaced line other) (h' : Respaced other third) : Respaced line third
  | blank (before after run other : List Char) (run_ne_nil : run ≠ []) (other_ne_nil : other ≠ [])
      (separators : ∀ c ∈ run, isSeparator c = true) (separators' : ∀ c ∈ other, isSeparator c = true) :
      Respaced (before ++ run ++ after) (before ++ other ++ after)
  | start (run line : List Char) (separators : ∀ c ∈ run, isSeparator c = true) : Respaced line (run ++ line)
  | stop (line run : List Char) (separators : ∀ c ∈ run, isSeparator c = true) : Respaced line (line ++ run)
  | comment (line text : List Char) (single : '\n' ∉ text) : Respaced line (line ++ ';' :: text)

/-- The stretches between the blanks of a text. -/
def codeWords (code : List Char) : List (List Char) :=
  (code.splitOnP isSeparator).filter (· ≠ [])

/-- The words of a line, up to its comment. -/
def words (line : List Char) : List (List Char) :=
  codeWords (line.takeWhile (· ≠ ';'))

theorem codeWords_separator {c : Char} (separator : isSeparator c = true) (before after : List Char) :
    codeWords (before ++ c :: after) = codeWords before ++ codeWords after := by
  rw [codeWords, List.splitOnP_append_cons _ _ separator, List.filter_append]
  rfl

theorem codeWords_nil : codeWords [] = [] := by
  simp [codeWords]

theorem codeWords_run {run : List Char} (separators : ∀ c ∈ run, isSeparator c = true) (after : List Char) :
    codeWords (run ++ after) = codeWords after := by
  induction run with
  | nil => rfl
  | cons c run ih =>
    have cut := codeWords_separator (separators c List.mem_cons_self) [] (run ++ after)
    rw [List.nil_append, codeWords_nil, List.nil_append] at cut
    rw [List.cons_append, cut, ih fun d hd => separators d (List.mem_cons_of_mem _ hd)]

theorem codeWords_between {run : List Char} (nonempty : run ≠ []) (separators : ∀ c ∈ run, isSeparator c = true)
    (before after : List Char) : codeWords (before ++ (run ++ after)) = codeWords before ++ codeWords after := by
  obtain ⟨c, rest, rfl⟩ := List.exists_cons_of_ne_nil nonempty
  rw [List.cons_append, codeWords_separator (separators c List.mem_cons_self),
    codeWords_run fun d hd => separators d (List.mem_cons_of_mem _ hd)]

theorem words_append (before after : List Char) :
    words (before ++ after) =
      if ';' ∈ before then words before else codeWords (before ++ after.takeWhile (· ≠ ';')) := by
  split
  next comment =>
    obtain ⟨first, rest, rfl, outside⟩ := List.eq_append_cons_of_mem comment
    rw [words, words, List.append_assoc, List.cons_append, takeWhile_cut outside, takeWhile_cut outside]
  next free => rw [words, List.takeWhile_append_of_pos (decide_ne_of_not_mem free)]

theorem words_of_noncomment {line : List Char} (free : ';' ∉ line) : words line = codeWords line := by
  rw [words, List.takeWhile_eq_self_iff.mpr (decide_ne_of_not_mem free)]

theorem comment_not_mem {run : List Char} (separators : ∀ c ∈ run, isSeparator c = true) : ';' ∉ run := by
  intro mem
  cases separators ';' mem

theorem Respaced.words_eq {line other : List Char} (h : Respaced line other) : words line = words other := by
  induction h with
  | refl line => rfl
  | symm _ ih => exact ih.symm
  | trans _ _ ih ih' => exact ih.trans ih'
  | blank before after run other nonempty nonempty' separators separators' =>
    have cut {run : List Char} (separators : ∀ c ∈ run, isSeparator c = true) :
        (run ++ after).takeWhile (· ≠ ';') = run ++ after.takeWhile (· ≠ ';') :=
      List.takeWhile_append_of_pos (decide_ne_of_not_mem (comment_not_mem separators))
    rw [List.append_assoc, List.append_assoc, words_append, words_append before, cut separators, cut separators',
      codeWords_between nonempty separators, codeWords_between nonempty' separators']
  | start run line separators =>
    rw [words_append, if_neg (comment_not_mem separators), codeWords_run separators, words]
  | stop line run separators =>
    rw [words_append]
    split
    next => rfl
    next free =>
      have last : codeWords (line ++ (run ++ [])) = codeWords line := by
        by_cases empty : run = []
        · rw [empty, List.append_nil, List.append_nil]
        · rw [codeWords_between empty separators, codeWords_nil, List.append_nil]
      rw [List.takeWhile_eq_self_iff.mpr (decide_ne_of_not_mem (comment_not_mem separators)), ← List.append_nil run,
        last, words_of_noncomment free]
  | comment line text single =>
    have stop : decide (';' ≠ ';') = false := rfl
    rw [words, words, takeWhile_mark stop]

theorem meaningful_append (ts us : List Token) : meaningful (ts ++ us) = meaningful ts ++ meaningful us := by
  rw [meaningful, List.filter_append, List.map_append]
  rfl

theorem isDigit_of_isSeparator {c : Char} (h : isSeparator c = true) : c.isDigit = false := by
  cases digit : c.isDigit with
  | false => rfl
  | true =>
    exact absurd (isIdentRest_of_isDigit digit) (by simp [isIdentRest_of_isSeparator h])

/-- Nothing but a comment and a blank goes past a separator. -/
theorem Token.opening_separator {c d : Char} (separator : isSeparator c = true) (other : isSeparator d = false)
    (noncomment : d ≠ ';') (next : Option Char) : (Token.opening d next).2 c = false := by
  have rest := isIdentRest_of_isSeparator separator
  have alphanumeric := isAlphanum_of_isIdentRest rest
  unfold Token.opening
  rw [if_neg noncomment, other]
  split_ifs <;> first | rfl | assumption | contradiction

/-- A separator before a text takes no part in its meaning. -/
theorem meaningful_separator {c : Char} (separator : isSeparator c = true) (start : Nat) (text : List Char) :
    meaningful (tokenizeFrom start (c :: text)) = meaningful (tokenize text) := by
  have skip (d : Char) (hd : isSeparator d = true) (start : Nat) (text : List Char) :
      meaningful (tokenizeFrom start (d :: text)) = meaningful (tokenize (text.dropWhile isSeparator)) := by
    rw [tokenizeFrom_cons, Token.opening_blank hd, ← meaningful_tokenizeFrom]
    rfl
  rw [skip c separator]
  cases text with
  | nil => rfl
  | cons d text =>
    cases hd : isSeparator d with
    | true => rw [List.dropWhile_cons_of_pos hd, ← skip d hd 0, ← tokenize]
    | false => rw [List.dropWhile_cons_of_neg (by simp [hd])]

/-- A text means what its words mean. -/
theorem meaningful_codeWords {code : List Char} (noncomment : ';' ∉ code) (start : Nat) :
    meaningful (tokenizeFrom start code) = (codeWords code).flatMap fun word => meaningful (tokenize word) := by
  have whole {word : List Char} (inside : ∀ c ∈ word, isSeparator c = false) (start : Nat) :
      meaningful (tokenizeFrom start word) = (codeWords word).flatMap fun word => meaningful (tokenize word) := by
    rw [codeWords, List.splitOnP_eq_singleton inside, meaningful_tokenizeFrom]
    by_cases empty : word = []
    · subst empty
      simp [tokenize, tokenizeFrom_nil, meaningful]
    · simp [empty]
  induction h : code.length using Nat.strongRecOn generalizing code start with
  | ind n ih =>
    cases first : code.find? isSeparator with
    | none => exact whole (by simpa using first) start
    | some c =>
      obtain ⟨separator, before, after, rfl, inside⟩ := List.find?_eq_some_iff_append.mp first
      have inside : ∀ d ∈ before, isSeparator d = false := by simpa using inside
      rw [List.mem_append, List.mem_cons, not_or, not_or] at noncomment
      have stops : ∀ d ∈ before, ∀ next, (Token.opening d next).2 c = false := by
        intro d hd
        refine Token.opening_separator separator (inside d hd) ?_
        rintro rfl
        exact noncomment.1 hd
      have shorter : after.length < n := by
        rw [← h, List.length_append, List.length_cons]
        omega
      rw [tokenizeFrom_mark (isDigit_of_isSeparator separator) stops, meaningful_append,
        meaningful_separator separator, codeWords_separator separator, List.flatMap_append, whole inside, tokenize,
        ih _ shorter noncomment.2.2 0 rfl]

theorem meaningful_words {line : List Char} (single : '\n' ∉ line) :
    meaningful (tokenize line) = (words line).flatMap fun word => meaningful (tokenize word) := by
  by_cases comment : ';' ∈ line
  · obtain ⟨code, text, rfl, outside⟩ := List.eq_append_cons_of_mem comment
    have inside : '\n' ∉ text := fun mem => single (List.mem_append_right _ (List.mem_cons_of_mem _ mem))
    rw [tokenize, tokenizeFrom_mark (by decide) (Token.opening_stops outside (.inr rfl)), tokenizeFrom_comment inside,
      meaningful_append, meaningful_codeWords outside, words, takeWhile_cut outside]
    exact List.append_nil _
  · rw [tokenize, meaningful_codeWords comment, words_of_noncomment comment]

/-- Lines that differ in their spacing only have the same meaning. -/
theorem Respaced.meaningful_eq {line other : List Char} (h : Respaced line other) (single : '\n' ∉ line)
    (single' : '\n' ∉ other) : meaningful (tokenize line) = meaningful (tokenize other) := by
  rw [meaningful_words single, meaningful_words single', h.words_eq]

theorem sameLexemes_numberedLines {lines others : List (List Char)}
    (same : List.Forall₂ (fun line other => meaningful (tokenize line) = meaningful (tokenize other)) lines others)
    (start start' number : Nat) :
    List.Forall₂ SourceLine.SameLexemes (numberedLines number (lineTokens start lines))
      (numberedLines number (lineTokens start' others)) := by
  induction same generalizing start start' number with
  | nil => exact .nil
  | @cons line other lines others first _ ih =>
    rw [← meaningful_tokenizeFrom start, ← meaningful_tokenizeFrom start'] at first
    have rest := ih (start + byteLength line + 1) (start' + byteLength other + 1) (number + 1)
    rw [lineTokens, lineTokens, numberedLines_cons number (tokenizeFrom start line),
      numberedLines_cons number (tokenizeFrom start' other), numberedLines_single, numberedLines_single]
    by_cases empty : (tokenizeFrom start line).filter Token.isMeaningful = []
    · have empty' : (tokenizeFrom start' other).filter Token.isMeaningful = [] := by
        rw [meaningful, empty] at first
        exact List.map_eq_nil_iff.mp first.symm
      rw [if_pos empty, if_pos empty']
      exact rest
    · have nonempty' : (tokenizeFrom start' other).filter Token.isMeaningful ≠ [] := by
        intro empty'
        rw [meaningful, meaningful, empty'] at first
        exact empty (List.map_eq_nil_iff.mp first)
      rw [if_neg empty, if_neg nonempty']
      exact .cons ⟨rfl, first⟩ rest

theorem Respaced.sameLexemes {lines others : List (List Char)} (same : List.Forall₂ Respaced lines others)
    (free : ∀ line ∈ lines, '\n' ∉ line) (free' : ∀ line ∈ others, '\n' ∉ line) :
    List.Forall₂ (fun line other => meaningful (tokenize line) = meaningful (tokenize other)) lines others := by
  induction same with
  | nil => exact .nil
  | cons first _ ih =>
    rw [List.forall_mem_cons] at free free'
    exact .cons (first.meaningful_eq free.1 free'.1) (ih free.2 free'.2)

/-- Sources whose lines differ in their spacing only assemble to the same, but for the places that spans give. -/
theorem assemble_respaced {source other : String}
    (same : List.Forall₂ Respaced (source.toList.splitOn '\n') (other.toList.splitOn '\n')) :
    (assemble source).image = (assemble other).image ∧ (assemble source).labels = (assemble other).labels ∧
      ((assemble source).listing.map fun e => (e.line, e.offset, e.size)) =
        ((assemble other).listing.map fun e => (e.line, e.offset, e.size)) ∧
      ((assemble source).diagnostics.map fun d => (d.line, d.error)) =
        (assemble other).diagnostics.map fun d => (d.line, d.error) := by
  have lexemes := Respaced.sameLexemes same (fun _ h => not_mem_of_mem_splitOn h) fun _ h => not_mem_of_mem_splitOn h
  have lines := (sameLexemes_numberedLines lexemes 0 0 1).imp fun _ _ => View.lines_of_lexemes
  rw [← sourceLines_splitOn, ← sourceLines_splitOn] at lines
  obtain ⟨image, labels, listing, diagnostics⟩ := View.assemble_eq lines
  have placed := congrArg (List.map fun entry => (entry.1, entry.2.2)) listing
  rw [List.map_map, List.map_map] at placed
  exact ⟨image, labels, placed, diagnostics⟩

/-- Other blanks, another line end, and a comment. -/
theorem assemble_respaced_comment :
    let source := "a: mvi b,5\njmp a"
    let other := "a: \tmvi b,5\r\n jmp a;loop"
    List.Forall₂ Respaced (source.toList.splitOn '\n') (other.toList.splitOn '\n') ∧
      (assemble source).image = (assemble other).image ∧ (assemble source).labels = (assemble other).labels := by
  intro source other
  have lines : source.toList.splitOn '\n' = ["a: mvi b,5".toList, "jmp a".toList] := by decide
  have lines' : other.toList.splitOn '\n' = ["a: \tmvi b,5\r".toList, " jmp a;loop".toList] := by decide
  have respaced : List.Forall₂ Respaced (source.toList.splitOn '\n') (other.toList.splitOn '\n') := by
    rw [lines, lines']
    refine .cons (.trans (.blank "a:".toList "mvi b,5".toList [' '] [' ', '\t'] ?_ ?_ ?_ ?_)
      (.stop "a: \tmvi b,5".toList ['\r'] ?_))
      (.cons (.trans (.start [' '] "jmp a".toList ?_) (.comment " jmp a".toList "loop".toList ?_)) .nil)
    all_goals simp [isSeparator]
  obtain ⟨image, labels, -, -⟩ := assemble_respaced respaced
  exact ⟨respaced, image, labels⟩

end I8080

import I8080.Proofs.Line
import I8080.Proofs.Outcome

namespace I8080

/-- The names of the labels that the lines of a text define. -/
def labelNames (text : List Char) : List String :=
  (sourceLines text).flatMap SourceLine.names

/-- Whether a line begins with the definition of a label that the lines before it do not define. -/
def introduces (earlier : List (List Char)) (line : List Char) : Bool :=
  (labelNames line).any fun name => name ∉ labelNames (['\n'].intercalate earlier)

/-- As many blanks as a text has bytes. -/
def blanks (text : List Char) : List Char :=
  List.replicate (byteLength text) ' '

/-- A line made blank but for the new label that it may begin with. -/
def blankOut (earlier : List (List Char)) (line : List Char) : List Char :=
  if introduces earlier line then
    line.takeWhile (· ≠ ':') ++ ':' :: blanks (line.dropWhile (· ≠ ':')).tail
  else blanks line

/-- A source text with one line blanked out. Lines are numbered from 1. -/
def blankLine (source : String) (number : Nat) : String :=
  let lines := source.toList.splitOn '\n'
  String.ofList (['\n'].intercalate (lines.modify (number - 1) (blankOut (lines.take (number - 1)))))

theorem byteLength_replicate_blank (n : Nat) : byteLength (List.replicate n ' ') = n := by
  induction n with
  | zero => rfl
  | succ n ih =>
    have step : byteLength (' ' :: List.replicate n ' ') = ' '.utf8Size + byteLength (List.replicate n ' ') := rfl
    have single : ' '.utf8Size = 1 := rfl
    rw [List.replicate_succ, step, ih, single, Nat.add_comm]

theorem decide_ne_of_not_mem {mark : Char} {text : List Char} (free : mark ∉ text) :
    ∀ c ∈ text, decide (c ≠ mark) = true :=
  fun _ hc => decide_eq_true fun same => free (same ▸ hc)

theorem takeWhile_cut {mark : Char} {head : List Char} (first : mark ∉ head) (tail : List Char) :
    (head ++ mark :: tail).takeWhile (· ≠ mark) = head := by
  rw [List.takeWhile_append_of_pos (decide_ne_of_not_mem first)]
  simp

theorem dropWhile_cut {mark : Char} {head : List Char} (first : mark ∉ head) (tail : List Char) :
    (head ++ mark :: tail).dropWhile (· ≠ mark) = mark :: tail := by
  rw [List.dropWhile_append_of_pos (decide_ne_of_not_mem first)]
  simp

theorem meaningful_blanks (start n : Nat) :
    (tokenizeFrom start (List.replicate n ' ')).filter Token.isMeaningful = [] := by
  cases n with
  | zero => rw [List.replicate_zero, tokenizeFrom_nil]; rfl
  | succ n =>
    have opening : Token.opening ' ' (List.replicate n ' ' ++ []).head? = (.blank, isSeparator) :=
      Token.opening_blank (by decide) _
    have inside : ∀ d ∈ List.replicate n ' ', isSeparator d = true := by
      intro d hd
      rw [List.eq_of_mem_replicate hd]
      decide
    have tokens : tokenizeFrom start (' ' :: List.replicate n ' ' ++ []) = _ :=
      tokenizeFrom_append opening inside (by simp)
    rw [List.append_nil, tokenizeFrom_nil] at tokens
    rw [List.replicate_succ, tokens]
    rfl

theorem tokenizeFrom_comment {text : List Char} (single : '\n' ∉ text) (start : Nat) :
    tokenizeFrom start (';' :: text) = [⟨.comment, ';' :: text, start⟩] := by
  have opening : Token.opening ';' (text ++ []).head? = (.comment, fun d => decide (d ≠ '\n')) := rfl
  have tokens : tokenizeFrom start (';' :: text ++ []) = _ :=
    tokenizeFrom_append opening (decide_ne_of_not_mem single) (by simp)
  rwa [List.append_nil, tokenizeFrom_nil] at tokens

theorem tokenizeFrom_colon {head : List Char} (noncomment : ';' ∉ head) (start : Nat) (tail : List Char) :
    tokenizeFrom start (head ++ ':' :: tail) =
      tokenizeFrom start head ++ ⟨.colon, [':'], start + byteLength head⟩ ::
        tokenizeFrom (start + byteLength head + 1) tail := by
  rw [tokenizeFrom_mark (by decide) (Token.opening_stops noncomment (.inl rfl)), tokenizeFrom_alone fun _ => rfl]
  rfl

theorem noncomment_of_colon {start : Nat} {head tail : List Char} {colon : Token} (first : ':' ∉ head)
    (single : '\n' ∉ head ++ ':' :: tail) (mem : colon ∈ tokenizeFrom start (head ++ ':' :: tail))
    (hc : colon.kind = .colon) : ';' ∉ head := by
  intro comment
  obtain ⟨before, inside, rfl, outside⟩ := List.eq_append_cons_of_mem comment
  have stops := Token.opening_stops outside (.inr rfl)
  rw [List.append_assoc, List.cons_append] at single mem
  have rest : '\n' ∉ inside ++ ':' :: tail := by
    intro newline
    exact single (List.mem_append_right _ (List.mem_cons_of_mem _ newline))
  rw [tokenizeFrom_mark (by decide) stops, tokenizeFrom_comment rest, List.mem_append, List.mem_singleton] at mem
  rcases mem with mem | rfl
  · exact first (List.mem_append_left _ (colon_mem_of_tokenizeFrom mem hc))
  · cases hc

/-- The colon of a label is the first of its line. -/
theorem meaningful_label {start : Nat} {head tail : List Char} {name colon : Token} {rest : List Token}
    (first : ':' ∉ head) (single : '\n' ∉ head ++ ':' :: tail)
    (tokens : (tokenizeFrom start (head ++ ':' :: tail)).filter Token.isMeaningful = name :: colon :: rest)
    (ident : name.kind = .ident) (hc : colon.kind = .colon) (n : Nat) :
    (tokenizeFrom start (head ++ ':' :: List.replicate n ' ')).filter Token.isMeaningful = [name, colon] := by
  have mem : colon ∈ (tokenizeFrom start (head ++ ':' :: tail)).filter Token.isMeaningful := by
    rw [tokens]
    exact List.mem_cons_of_mem _ List.mem_cons_self
  have noncomment := noncomment_of_colon first single (List.mem_of_mem_filter mem) hc
  have colonless : ∀ t ∈ (tokenizeFrom start head).filter Token.isMeaningful, t.kind ≠ .colon :=
    fun t ht colon => first (colon_mem_of_tokenizeFrom (List.mem_of_mem_filter ht) colon)
  rw [tokenizeFrom_colon noncomment, List.filter_append, List.filter_cons_of_pos rfl] at tokens
  rw [tokenizeFrom_colon noncomment, List.filter_append, List.filter_cons_of_pos rfl, meaningful_blanks]
  -- The tokens before the first colon are the name alone.
  match h : (tokenizeFrom start head).filter Token.isMeaningful with
  | [] =>
    rw [h, List.nil_append] at tokens
    cases (List.cons.inj tokens).1
    cases ident
  | [t] =>
    rw [h, List.cons_append, List.nil_append] at tokens
    obtain ⟨sameName, tokens⟩ := List.cons.inj tokens
    rw [sameName, (List.cons.inj tokens).1]
    rfl
  | t :: u :: more =>
    rw [h, List.cons_append, List.cons_append] at tokens
    have sameColon : u = colon := (List.cons.inj (List.cons.inj tokens).2).1
    exact absurd (sameColon ▸ hc) (colonless u (by simp [h]))

def lexemeNames : List (Token.Kind × List Char) → List String
  | (.ident, text) :: (.colon, _) :: _ => [String.ofList text]
  | _ => []

theorem SourceLine.names_eq (line : SourceLine) : line.names = lexemeNames (line.tokens.map Token.lexeme) := by
  obtain ⟨number, tokens⟩ := line
  match tokens with
  | [] => rfl
  | [t] =>
    obtain ⟨kind, text, start⟩ := t
    cases kind <;> rfl
  | t :: u :: rest =>
    obtain ⟨kind, text, start⟩ := t
    cases kind with
    | ident =>
      obtain ⟨next, more, start⟩ := u
      cases next <;> rfl
    | _ => rfl

/-- The names that the lines of a text define do not depend on where it stands. -/
theorem names_numberedLines (start number : Nat) (text : List Char) :
    (numberedLines number (lineTokens start (text.splitOn '\n'))).flatMap SourceLine.names = labelNames text := by
  have names (lines : List SourceLine) : lines.flatMap SourceLine.names =
      (lines.map fun line => line.tokens.map Token.lexeme).flatMap lexemeNames := by
    simp only [List.flatMap_map, ← SourceLine.names_eq]
  rw [labelNames, sourceLines_splitOn, names, names, lexemes_numberedLines, lexemes_numberedLines]

theorem labelNames_line {line : List Char} (single : '\n' ∉ line) (start number : Nat) :
    labelNames line = (numberedLines number [tokenizeFrom start line]).flatMap SourceLine.names := by
  rw [← names_numberedLines start number, List.splitOn_eq_singleton single]
  rfl

theorem cut_of_introduces {earlier : List (List Char)} {line : List Char} (single : '\n' ∉ line)
    (h : introduces earlier line = true) :
    ∃ head tail, line = head ++ ':' :: tail ∧ ':' ∉ head ∧
      blankOut earlier line = head ++ ':' :: blanks tail := by
  have colon : ':' ∈ line := by
    obtain ⟨name, mem, -⟩ := List.any_eq_true.mp h
    rw [labelNames_line single 0 1, numberedLines_single] at mem
    split at mem
    next => cases mem
    next =>
      rw [List.flatMap_singleton] at mem
      obtain ⟨t, label, -⟩ := List.mem_map.mp mem
      obtain ⟨colon, rest, tokens, -, hc⟩ := SourceLine.label?_eq_some (Option.mem_toList.mp label)
      have inside : colon ∈ (tokenizeFrom 0 line).filter Token.isMeaningful := by
        dsimp only at tokens
        simp [tokens]
      exact colon_mem_of_tokenizeFrom (List.mem_of_mem_filter inside) hc
  obtain ⟨head, tail, rfl, first⟩ := List.eq_append_cons_of_mem colon
  refine ⟨head, tail, rfl, first, ?_⟩
  rw [blankOut, if_pos h, takeWhile_cut first, dropWhile_cut first, List.tail_cons]

theorem byteLength_blankOut {line : List Char} (single : '\n' ∉ line) (earlier : List (List Char)) :
    byteLength (blankOut earlier line) = byteLength line := by
  by_cases h : introduces earlier line = true
  · obtain ⟨head, tail, rfl, -, cut⟩ := cut_of_introduces single h
    have colon : ∀ cs, byteLength (':' :: cs) = 1 + byteLength cs := fun _ => rfl
    rw [cut, byteLength_append, byteLength_append, colon, colon, blanks, byteLength_replicate_blank]
  · rw [blankOut, if_neg h, blanks, byteLength_replicate_blank]

theorem newline_not_mem_blankOut {line : List Char} (single : '\n' ∉ line) (earlier : List (List Char)) :
    '\n' ∉ blankOut earlier line := by
  have blank : ∀ text, '\n' ∉ blanks text := by
    intro text mem
    cases List.eq_of_mem_replicate mem
  by_cases h : introduces earlier line = true
  · obtain ⟨head, tail, rfl, -, cut⟩ := cut_of_introduces single h
    rw [cut, List.mem_append, List.mem_cons]
    rintro (mem | same | mem)
    · exact single (List.mem_append_left _ mem)
    · cases same
    · exact blank tail mem
  · rw [blankOut, if_neg h]
    exact blank line

theorem toList_blankLine {source : String} {earlier later : List (List Char)} {text : List Char}
    (split : source.toList.splitOn '\n' = earlier ++ text :: later) :
    (blankLine source (earlier.length + 1)).toList =
      ['\n'].intercalate (earlier ++ blankOut earlier text :: later) := by
  unfold blankLine
  dsimp only
  rw [split, Nat.add_sub_cancel, String.toList_ofList, List.modify_eq_take_cons_drop (by simp)]
  simp

end I8080

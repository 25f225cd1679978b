import I8080.Proofs.Lexing
import I8080.Proofs.Resolution

namespace I8080

/-- The token where the text before it is longer by so many bytes. -/
def Token.shift (bytes : Nat) (t : Token) : Token :=
  { t with start := t.start + bytes }

/-- The source line where the text before it is longer by so many lines and bytes. -/
def SourceLine.shift (lines bytes : Nat) (line : SourceLine) : SourceLine :=
  ⟨line.number + lines, line.tokens.map (Token.shift bytes)⟩

theorem tokenizeFrom_shift (bytes start : Nat) (text : List Char) :
    tokenizeFrom (start + bytes) text = (tokenizeFrom start text).map (Token.shift bytes) := by
  fun_induction tokenizeFrom start text with
  | case1 => rw [tokenizeFrom_nil, List.map_nil]
  | case2 start c cs kind more opening taken ih =>
    rw [tokenizeFrom_cons, opening, List.map_cons, ← ih, Nat.add_right_comm]
    rfl

theorem splitLines_shift (bytes : Nat) (ts : List Token) :
    splitLines (ts.map (Token.shift bytes)) = (splitLines ts).map (List.map (Token.shift bytes)) := by
  induction ts with
  | nil => rfl
  | cons t ts ih =>
    have kind : (t.shift bytes).kind = t.kind := rfl
    rw [List.map_cons, splitLines, splitLines, ih, kind]
    split_ifs
    · rfl
    · cases splitLines ts <;> rfl

theorem numberedLines_shift (lines bytes number : Nat) (split : List (List Token)) :
    numberedLines (number + lines) (split.map (List.map (Token.shift bytes))) =
      (numberedLines number split).map (SourceLine.shift lines bytes) := by
  induction split generalizing number with
  | nil => rfl
  | cons line split ih =>
    have meaningful : (line.map (Token.shift bytes)).filter Token.isMeaningful =
        (line.filter Token.isMeaningful).map (Token.shift bytes) := by
      rw [List.filter_map]
      rfl
    rw [List.map_cons, numberedLines_cons, numberedLines_cons number line, List.map_append, ← ih,
      Nat.add_right_comm, numberedLines_single, numberedLines_single, meaningful]
    cases line.filter Token.isMeaningful <;> rfl

theorem length_splitOn (text : List Char) : (text.splitOn '\n').length = 1 + text.count '\n' := by
  induction text with
  | nil => rfl
  | cons c cs ih =>
    rw [List.splitOn_cons_eq_if_modifyHead, List.count_cons]
    split_ifs
    · rw [List.length_cons, ih, Nat.add_assoc]
    · rw [List.length_modifyHead, ih, Nat.add_zero]

theorem sourceLines_newline (text more : List Char) :
    sourceLines (text ++ '\n' :: more) =
      sourceLines text ++ (sourceLines more).map (SourceLine.shift (1 + text.count '\n') (byteLength text + 1)) := by
  rw [sourceLines_append, length_splitOn, ← splitLines_splitOn, Nat.add_assoc 0, tokenizeFrom_shift, splitLines_shift,
    numberedLines_shift]
  rfl

/-- What stands before a line that follows these lines. -/
def aboveText (lines : List (List Char)) : List Char :=
  lines.flatMap fun line => line ++ ['\n']

theorem aboveText_cons (line : List Char) (lines : List (List Char)) :
    aboveText (line :: lines) = line ++ '\n' :: aboveText lines := by
  simp [aboveText]

theorem intercalate_newline (text : List Char) (later : List (List Char)) :
    ['\n'].intercalate (text :: later) = text ++ later.flatMap fun line => '\n' :: line := by
  induction later generalizing text with
  | nil => simp
  | cons next later ih =>
    rw [List.intercalate_cons_cons, ih, List.flatMap_cons, List.append_assoc]
    rfl

theorem intercalate_around (earlier : List (List Char)) (text : List Char) (later : List (List Char)) :
    ['\n'].intercalate (earlier ++ text :: later) =
      aboveText earlier ++ (text ++ later.flatMap fun line => '\n' :: line) := by
  induction earlier with
  | nil => exact intercalate_newline text later
  | cons line earlier ih =>
    obtain ⟨next, rest, lines⟩ := List.exists_cons_of_ne_nil (show earlier ++ text :: later ≠ [] by simp)
    rw [List.cons_append, lines, List.intercalate_cons_cons, ← lines, ih, aboveText_cons]
    simp

theorem lineStart_eq (start : Nat) (lines : List (List Char)) :
    lineStart start lines = start + byteLength (aboveText lines) := by
  induction lines generalizing start with
  | nil => rfl
  | cons line lines ih =>
    have newline : '\n'.utf8Size = 1 := rfl
    rw [← lineStart_cons, ih, aboveText_cons, byteLength_append, byteLength_cons, newline, Nat.add_assoc, Nat.add_assoc]

theorem count_aboveText {lines : List (List Char)} (free : ∀ line ∈ lines, '\n' ∉ line) :
    (aboveText lines).count '\n' = lines.length := by
  induction lines with
  | nil => rfl
  | cons line lines ih =>
    rw [List.forall_mem_cons] at free
    rw [aboveText_cons, List.count_append, List.count_cons_self, List.count_eq_zero.mpr free.1, ih free.2,
      List.length_cons, Nat.zero_add]

/-- A source line holds the tokens of one line of the text, the one with its number. -/
theorem text_of_sourceLines {source : List Char} {line : SourceLine} (h : line ∈ sourceLines source) :
    ∃ above text below, source = above ++ (text ++ below) ∧ '\n' ∉ text ∧ line.number = 1 + above.count '\n' ∧
      line.tokens = (tokenizeFrom (byteLength above) text).filter Token.isMeaningful := by
  rw [sourceLines_splitOn] at h
  obtain ⟨earlier, text, later, split, only⟩ := exists_of_mem_numberedLines h
  have free : ∀ piece ∈ earlier ++ text :: later, '\n' ∉ piece := fun piece mem =>
    not_mem_of_mem_splitOn (split ▸ mem)
  have whole : source = aboveText earlier ++ (text ++ later.flatMap fun line => '\n' :: line) := by
    rw [← intercalate_around, ← split, List.intercalate_splitOn]
  rw [numberedLines_single, lineStart_eq, Nat.zero_add] at only
  split at only
  next => cases only
  next =>
    cases only
    refine ⟨aboveText earlier, text, _, whole, free text (by simp), ?_, rfl⟩
    rw [count_aboveText fun piece mem => free piece (List.mem_append_left _ mem)]

theorem slice?_before {ahead : List Char} (single : '\n' ∉ ahead) (above rest : List Char) :
    ∃ before, slice? (above ++ (ahead ++ rest)) 0 (byteLength above + byteLength ahead) = some before ∧
      before.count '\n' = above.count '\n' := by
  have slice := slice?_append [] (above ++ ahead) rest
  rw [List.nil_append, List.append_assoc, byteLength_append] at slice
  refine ⟨above ++ ahead, ?_, ?_⟩
  · rwa [← Nat.zero_add (byteLength above + byteLength ahead)]
  · rw [List.count_append, List.count_eq_zero.mpr single, Nat.add_zero]

theorem number_of_token {source : List Char} {line : SourceLine} (h : line ∈ sourceLines source) {t : Token}
    (ht : t ∈ line.tokens) :
    ∃ before, slice? source 0 t.span.start = some before ∧ line.number = 1 + before.count '\n' := by
  obtain ⟨above, text, below, rfl, single, number, tokens⟩ := text_of_sourceLines h
  rw [tokens] at ht
  obtain ⟨ahead, after, rfl, place⟩ := place_of_tokenizeFrom (List.mem_of_mem_filter ht)
  have free : '\n' ∉ ahead := fun mem => single (List.mem_append_left _ mem)
  obtain ⟨before, slice, count⟩ := slice?_before free above (t.text ++ after ++ below)
  refine ⟨before, ?_, by rw [number, count]⟩
  rw [Token.span, place, List.append_assoc ahead, slice]

theorem tokens_ne_nil_of_sourceLines {source : List Char} {line : SourceLine} (h : line ∈ sourceLines source) :
    line.tokens ≠ [] := by
  simpa using (List.mem_filter.mp h).2

/-- A text is read line by line. What follows a newline is read as it would be alone, only further on. -/
theorem sourceLines_line_by_line :
    (∀ text more : String, sourceLines (text ++ "\n" ++ more).toList =
        sourceLines text.toList ++
          (sourceLines more.toList).map (SourceLine.shift (1 + text.toList.count '\n') (text.utf8ByteSize + 1))) ∧
      ∀ source : String,
        let lines := sourceLines source.toList
        (lines.flatMap SourceLine.tokens = (tokenize source.toList).filter fun t =>
            t.kind ≠ .blank ∧ t.kind ≠ .comment ∧ t.kind ≠ .newline) ∧
          (lines.Pairwise fun line later => line.number < later.number) ∧
          ∀ line ∈ lines, line.tokens ≠ [] ∧ ∀ t ∈ line.tokens, ∃ before,
            slice? source.toList 0 t.span.start = some before ∧ line.number = 1 + before.count '\n' := by
  constructor
  · intro text more
    have joined : (text ++ "\n" ++ more).toList = text.toList ++ '\n' :: more.toList := by simp
    rw [joined, sourceLines_newline, byteLength_toList]
  · intro source lines
    refine ⟨?_, sourceLines_ordered source.toList, fun line h => ⟨tokens_ne_nil_of_sourceLines h, fun t ht => ?_⟩⟩
    · change (numberedLines 1 (splitLines (tokenize source.toList))).flatMap SourceLine.tokens = _
      rw [flatMap_numberedLines, flatten_splitLines, List.filter_filter]
      refine List.filter_congr fun t _ => ?_
      simp [Token.isMeaningful, Bool.and_assoc]
    · exact number_of_token h ht

/-- A second text that begins with an empty line, behind a comment of more bytes than characters. -/
theorem sourceLines_line_by_line_comment :
    let text := "nop ;é"
    let more := "\njmp x"
    let label : Token := ⟨.ident, ['x'], 13⟩
    let line : SourceLine := ⟨3, [⟨.ident, ['j', 'm', 'p'], 9⟩, label]⟩
    sourceLines (text ++ "\n" ++ more).toList = [⟨1, [⟨.ident, ['n', 'o', 'p'], 0⟩]⟩, line] ∧
      line ∈ sourceLines (text ++ "\n" ++ more).toList ∧ label ∈ line.tokens ∧
      ∃ before, slice? (text ++ "\n" ++ more).toList 0 13 = some before ∧ 3 = 1 + before.count '\n' := by
  intro text more label line
  have lines : sourceLines (text ++ "\n" ++ more).toList = [⟨1, [⟨.ident, ['n', 'o', 'p'], 0⟩]⟩, line] := by
    rw [sourceLines_line_by_line.1]
    decide +kernel
  obtain ⟨-, -, numbered⟩ := sourceLines_line_by_line.2 (text ++ "\n" ++ more)
  have mem : line ∈ sourceLines (text ++ "\n" ++ more).toList := lines ▸ List.mem_cons_of_mem _ List.mem_cons_self
  have last : label ∈ line.tokens := by simp [line]
  exact ⟨lines, mem, last, (numbered line mem).2 label last⟩

end I8080

import I8080.Proofs.Line

namespace I8080

/-- A difference that has to be a natural number. -/
def sub? (a b : Nat) : Option Nat :=
  if b ≤ a then some (a - b) else none

/-- What follows the first `n` bytes of a text. There is no such text if they are more than all of it, or end
inside a character. -/
def dropBytes? : Nat → List Char → Option (List Char)
  | 0, cs => some cs
  | _ + 1, [] => none
  | n + 1, c :: cs => (sub? (n + 1) c.utf8Size).bind fun rest => dropBytes? rest cs

/-- The first `n` bytes of a text. -/
def takeBytes? : Nat → List Char → Option (List Char)
  | 0, _ => some []
  | _ + 1, [] => none
  | n + 1, c :: cs => (sub? (n + 1) c.utf8Size).bind fun rest => (takeBytes? rest cs).map (c :: ·)

/-- The text from one byte of a source to another. Both have to lie in the source, in order and between its
characters. -/
def slice? (source : List Char) (start stop : Nat) : Option (List Char) := do
  let length ← sub? stop start
  takeBytes? length (← dropBytes? start source)

theorem sub?_of_le {a b : Nat} (h : b ≤ a) : sub? a b = some (a - b) :=
  if_pos h

theorem byteLength_cons (c : Char) (cs : List Char) : byteLength (c :: cs) = c.utf8Size + byteLength cs :=
  rfl

theorem byteLength_cons_succ (c : Char) (cs : List Char) : ∃ n, byteLength (c :: cs) = n + 1 := by
  have filled := c.utf8Size_pos
  exact ⟨byteLength (c :: cs) - 1, by rw [byteLength_cons]; omega⟩

theorem dropBytes?_append (cs rest : List Char) : dropBytes? (byteLength cs) (cs ++ rest) = some rest := by
  induction cs with
  | nil => simp [byteLength, dropBytes?]
  | cons c cs ih =>
    obtain ⟨n, length⟩ := byteLength_cons_succ c cs
    have fits : c.utf8Size ≤ n + 1 := by
      rw [← length, byteLength_cons]
      omega
    have left : n + 1 - c.utf8Size = byteLength cs := by
      rw [← length, byteLength_cons]
      omega
    rw [length, List.cons_append, dropBytes?, sub?_of_le fits, left]
    exact ih

theorem takeBytes?_append (cs rest : List Char) : takeBytes? (byteLength cs) (cs ++ rest) = some cs := by
  induction cs with
  | nil => simp [byteLength, takeBytes?]
  | cons c cs ih =>
    obtain ⟨n, length⟩ := byteLength_cons_succ c cs
    have fits : c.utf8Size ≤ n + 1 := by
      rw [← length, byteLength_cons]
      omega
    have left : n + 1 - c.utf8Size = byteLength cs := by
      rw [← length, byteLength_cons]
      omega
    rw [length, List.cons_append, takeBytes?, sub?_of_le fits, left, Option.bind_some, ih]
    rfl

theorem slice?_append (before text after : List Char) :
    slice? (before ++ (text ++ after)) (byteLength before) (byteLength before + byteLength text) = some text := by
  rw [slice?, sub?_of_le (Nat.le_add_right _ _), Nat.add_sub_cancel_left, dropBytes?_append]
  exact takeBytes?_append text after

/-- A token as it stands in a source: its kind and its place, without its text. -/
structure Mark where
  kind : Token.Kind
  span : Span

def Token.mark (t : Token) : Mark :=
  ⟨t.kind, t.span⟩

def Mark.text? (source : List Char) (m : Mark) : Option (List Char) :=
  slice? source m.span.start m.span.stop

/-- The place of a token in its source holds its text. -/
theorem text_of_tokenize {source : List Char} {t : Token} (h : t ∈ tokenize source) :
    t.mark.text? source = some t.text := by
  obtain ⟨before, after, rfl, place⟩ := place_of_tokenizeFrom h
  rw [Nat.zero_add] at place
  simpa only [Mark.text?, Token.mark, Token.span, Span.stop, place] using slice?_append before t.text after

/-- How far a source has been read: what is left of it, and the place of the token that has begun, with the
number of bytes that were left there. -/
structure Cursor where
  rest : List Char
  start : Nat
  remaining : Nat

def Cursor.ofText (source : List Char) : Cursor :=
  ⟨source, 0, byteLength source⟩

/-- Bytes read since the token began. -/
def Cursor.taken? (c : Cursor) : Option Nat :=
  sub? c.remaining (byteLength c.rest)

/-- Begins the next token. -/
def Cursor.reset? (c : Cursor) : Option Cursor := do
  return { c with start := c.start + (← c.taken?), remaining := byteLength c.rest }

/-- The next character, or NUL at the end of the source. -/
def Cursor.first (c : Cursor) : Char :=
  c.rest.headD '\x00'

/-- Passes over a character, unless the source is over. -/
def Cursor.bump (c : Cursor) : Cursor :=
  { c with rest := c.rest.tail }

/-- Passes over characters as long as the next one satisfies `p`. At the end of the source there is none, even if `p`
holds of the character that the end reads as. -/
def Cursor.skipWhile (p : Char → Bool) (c : Cursor) : Cursor :=
  if p c.first = true ∧ c.rest ≠ [] then Cursor.skipWhile p c.bump else c
termination_by c.rest.length
decreasing_by
  have filled : 0 < c.rest.length := List.length_pos_iff.mpr (by simp_all)
  simp only [Cursor.bump, List.length_tail]
  omega

theorem Cursor.skipWhile_eq (p : Char → Bool) (c : Cursor) : c.skipWhile p = { c with rest := c.rest.dropWhile p } := by
  obtain ⟨rest, start, remaining⟩ := c
  induction rest with
  | nil =>
    rw [Cursor.skipWhile, if_neg fun going => going.2 rfl]
    rfl
  | cons d rest ih =>
    rw [Cursor.skipWhile]
    split
    next going =>
      have carries : p d = true := going.1
      rw [List.dropWhile_cons_of_pos carries]
      exact ih
    next refused =>
      have stops : ¬p d = true := fun carries => refused ⟨carries, List.cons_ne_nil d rest⟩
      rw [List.dropWhile_cons_of_neg stops]

/-- Reads a token, unless the source is over. -/
def Cursor.advance? (c : Cursor) : Option (Option (Mark × Cursor)) :=
  match c.rest with
  | [] => some none
  | head :: rest => do
    let opened := { c with rest }
    let (kind, more) := Token.opening head (some opened.first)
    let ended := opened.skipWhile more
    let length ← ended.taken?
    let next ← ended.reset?
    return some (⟨kind, ⟨c.start, length⟩⟩, next)

theorem Cursor.rest_of_reset? {c next : Cursor} (h : c.reset? = some next) : next.rest = c.rest := by
  obtain ⟨n, -, done⟩ := Option.bind_eq_some_iff.mp h
  cases done
  rfl

theorem Cursor.length_of_advance? {c next : Cursor} {mark : Mark} (h : c.advance? = some (some (mark, next))) :
    next.rest.length < c.rest.length := by
  unfold Cursor.advance? at h
  split at h
  next => cases h
  next head rest hc =>
    obtain ⟨length, -, h⟩ := Option.bind_eq_some_iff.mp h
    obtain ⟨reset, hr, done⟩ := Option.bind_eq_some_iff.mp h
    cases done
    rw [Cursor.rest_of_reset? hr, hc, Cursor.skipWhile_eq]
    exact Nat.lt_succ_of_le (length_dropWhile_le _ rest)

/-- The tokens from the cursor to the end of the source. -/
def Cursor.marks? (c : Cursor) : Option (List Mark) :=
  match _ : c.advance? with
  | none => none
  | some none => some []
  | some (some (mark, next)) => next.marks?.map (mark :: ·)
termination_by c.rest.length
decreasing_by exact Cursor.length_of_advance? (by assumption)

/-- The end of a source reads as a character that is no digit. -/
theorem Cursor.opening_first (head : Char) (c : Cursor) :
    Token.opening head (some c.first) = Token.opening head c.rest.head? := by
  unfold Cursor.first
  cases c.rest with
  | nil => simp [Token.opening]
  | cons d rest => rfl

theorem Cursor.advance?_cons (head : Char) (rest : List Char) (start : Nat) :
    Cursor.advance? ⟨head :: rest, start, byteLength (head :: rest)⟩ =
      let (kind, more) := Token.opening head rest.head?
      let length := byteLength (head :: rest.takeWhile more)
      some (some (⟨kind, ⟨start, length⟩⟩,
        ⟨rest.dropWhile more, start + length, byteLength (rest.dropWhile more)⟩)) := by
  rcases opening : Token.opening head rest.head? with ⟨kind, more⟩
  have length : byteLength (head :: rest) =
      byteLength (head :: rest.takeWhile more) + byteLength (rest.dropWhile more) := by
    rw [← byteLength_append, List.cons_append, List.takeWhile_append_dropWhile]
  have taken : sub? (byteLength (head :: rest)) (byteLength (rest.dropWhile more)) =
      some (byteLength (head :: rest.takeWhile more)) := by
    rw [sub?_of_le (by omega)]
    congr 1
    omega
  simp [Cursor.advance?, Cursor.opening_first, opening, Cursor.skipWhile_eq, Cursor.taken?, Cursor.reset?, taken]

/-- A cursor comes upon the tokens of what is left, and never takes away more bytes than there are. -/
theorem Cursor.marks?_eq (start : Nat) (rest : List Char) :
    Cursor.marks? ⟨rest, start, byteLength rest⟩ = some ((tokenizeFrom start rest).map Token.mark) := by
  fun_induction tokenizeFrom start rest with
  | case1 start =>
    rw [Cursor.marks?]
    rfl
  | case2 start c cs kind more opening taken ih =>
    have step := Cursor.advance?_cons c cs start
    rw [opening] at step
    rw [Cursor.marks?]
    split
    next h => cases h.symm.trans step
    next h => cases h.symm.trans step
    next mark next h =>
      cases h.symm.trans step
      rw [ih]
      rfl

theorem Cursor.marks?_ofText (source : List Char) :
    (Cursor.ofText source).marks? = some ((tokenize source).map Token.mark) :=
  Cursor.marks?_eq 0 source

/-- A numbered source line with the places of its tokens. -/
structure MarkedLine where
  number : Nat
  marks : List Mark

def SourceLine.marked (line : SourceLine) : MarkedLine :=
  ⟨line.number, line.tokens.map Token.mark⟩

/-- A line that is over, unless nothing stands on it. -/
def finished (number : Nat) (current : List Mark) : List MarkedLine :=
  if current.isEmpty then [] else [⟨number, current⟩]

/-- Puts tokens into lines, where `current` has been put into the line `number` so far. -/
def markedLines (number : Nat) (current : List Mark) : List Mark → List MarkedLine
  | [] => finished number current
  | m :: ms =>
    if m.kind = .blank ∨ m.kind = .comment then markedLines number current ms
    else if m.kind = .newline then finished number current ++ markedLines (number + 1) [] ms
    else markedLines number (current ++ [m]) ms

theorem finished_eq (number : Nat) {current : List Token} (meaningful : ∀ t ∈ current, t.isMeaningful = true) :
    finished number (current.map Token.mark) = (numberedLines number [current]).map SourceLine.marked := by
  rw [numberedLines_single, List.filter_eq_self.mpr meaningful]
  cases current <;> rfl

theorem markedLines_eq (number : Nat) (current : List Token) (meaningful : ∀ t ∈ current, t.isMeaningful = true)
    (ts : List Token) :
    ∃ line lines, splitLines ts = line :: lines ∧
      markedLines number (current.map Token.mark) (ts.map Token.mark) =
        (numberedLines number ((current ++ line) :: lines)).map SourceLine.marked := by
  induction ts generalizing number current with
  | nil => exact ⟨[], [], rfl, by rw [List.append_nil]; exact finished_eq number meaningful⟩
  | cons t ts ih =>
    have kind : t.mark.kind = t.kind := rfl
    rw [List.map_cons, markedLines, splitLines, kind]
    by_cases newline : t.kind = .newline
    · obtain ⟨line, lines, split, marked⟩ := ih (number + 1) [] (by simp)
      have other : ¬(t.kind = .blank ∨ t.kind = .comment) := by simp [newline]
      refine ⟨[], line :: lines, by rw [if_pos newline, split], ?_⟩
      rw [if_neg other, if_pos newline, List.append_nil, numberedLines_cons, List.map_append,
        ← finished_eq number meaningful]
      exact congrArg _ marked
    by_cases bare : t.kind = .blank ∨ t.kind = .comment
    · obtain ⟨line, lines, split, marked⟩ := ih number current meaningful
      refine ⟨t :: line, lines, by simp only [if_neg newline, split], ?_⟩
      have empty : t.isMeaningful = false := by
        rcases bare with blank | comment
        · simp [Token.isMeaningful, blank]
        · simp [Token.isMeaningful, comment]
      have same : numberedLines number [current ++ t :: line] = numberedLines number [current ++ line] := by
        simp [numberedLines_single, List.filter_append, empty]
      rw [if_pos bare, marked, numberedLines_cons number (current ++ line),
        numberedLines_cons number (current ++ t :: line), same]
    · have kept : t.isMeaningful = true := by simpa [Token.isMeaningful, not_or] using bare
      obtain ⟨line, lines, split, marked⟩ := ih number (current ++ [t]) (by
        intro u hu
        rcases List.mem_append.mp hu with old | new
        · exact meaningful u old
        · cases List.mem_singleton.mp new
          exact kept)
      refine ⟨t :: line, lines, by simp only [if_neg newline, split], ?_⟩
      rw [if_neg bare, if_neg newline, ← List.map_singleton, ← List.map_append, marked, List.append_assoc,
        List.singleton_append]

theorem markedLines_sourceLines (source : List Char) :
    markedLines 1 [] ((tokenize source).map Token.mark) = (sourceLines source).map SourceLine.marked := by
  obtain ⟨line, lines, split, marked⟩ := markedLines_eq 1 [] (by simp) (tokenize source)
  rw [sourceLines_eq, split]
  exact marked

theorem mem_of_splitLines {ts line : List Token} (h : line ∈ splitLines ts) : line ⊆ ts := by
  induction ts generalizing line with
  | nil =>
    cases List.mem_singleton.mp h
    exact List.nil_subset _
  | cons t ts ih =>
    rw [splitLines] at h
    split at h
    next =>
      rcases List.mem_cons.mp h with rfl | later
      · exact List.nil_subset _
      · exact List.subset_cons_of_subset t (ih later)
    next =>
      split at h
      next =>
        cases List.mem_singleton.mp h
        exact List.cons_subset_cons t (List.nil_subset _)
      next first lines split =>
        rcases List.mem_cons.mp h with rfl | later
        · exact List.cons_subset_cons t (ih (by rw [split]; exact List.mem_cons_self))
        · exact List.subset_cons_of_subset t (ih (by rw [split]; exact List.mem_cons_of_mem _ later))

theorem tokens_of_sourceLines {source : List Char} {line : SourceLine} (h : line ∈ sourceLines source) :
    line.tokens ⊆ tokenize source := by
  obtain ⟨numbered, -⟩ := List.mem_filter.mp h
  obtain ⟨⟨tokens, number⟩, mem, rfl⟩ := List.mem_map.mp numbered
  exact List.Subset.trans List.filter_sublist.subset (mem_of_splitLines (List.fst_mem_of_mem_zipIdx mem))

end I8080

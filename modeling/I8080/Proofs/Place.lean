import I8080.Proofs.LineByLine

namespace I8080

/-- A span of a source within one line of it, the one with this number, and the text that stands there. -/
structure Span.Covers (source : List Char) (number : Nat) (text : List Char) (s : Span) : Prop where
  slice : slice? source s.start s.stop = some text
  filled : 0 < s.length
  single : '\n' ∉ text
  above : ∃ before, slice? source 0 s.start = some before ∧ number = 1 + before.count '\n'

theorem Span.Covers.eq_text {source text other : List Char} {number : Nat} {s : Span}
    (h : s.Covers source number text) (slice : slice? source s.start s.stop = some other) : text = other :=
  Option.some.inj (h.slice.symm.trans slice)

theorem prefix_of_byteLength_le {as bs text : List Char} (ha : as <+: text) (hb : bs <+: text)
    (le : byteLength as ≤ byteLength bs) : as <+: bs := by
  rcases List.prefix_or_prefix_of_prefix ha hb with shorter | ⟨rest, rfl⟩
  · exact shorter
  · cases rest with
    | nil => simp
    | cons c cs =>
      have := byteLength_pos c cs
      rw [byteLength_append] at le
      omega

/-- A span from the first byte of a token to the last of another, later one on the same line. -/
theorem covers_of_tokens {source : List Char} {line : SourceLine} (h : line ∈ sourceLines source) {t u : Token}
    (ht : t ∈ line.tokens) (hu : u ∈ line.tokens) {s : Span} (start : s.start = t.start)
    (stop : s.stop = u.span.stop) (order : t.start < u.span.stop) : ∃ text, s.Covers source line.number text := by
  have number := number_of_token h ht
  obtain ⟨above, text, below, rfl, single, -, tokens⟩ := text_of_sourceLines h
  rw [tokens] at ht hu
  obtain ⟨ahead, behind, before, first⟩ := place_of_tokenizeFrom (List.mem_of_mem_filter ht)
  obtain ⟨ahead', behind', after, last⟩ := place_of_tokenizeFrom (List.mem_of_mem_filter hu)
  have ended : u.span.stop = byteLength above + byteLength (ahead' ++ u.text) := by
    rw [byteLength_append, ← Nat.add_assoc, ← last]
    rfl
  -- What comes before the one token and what comes up to the end of the other both begin the line.
  have le : byteLength ahead ≤ byteLength (ahead' ++ u.text) := by omega
  obtain ⟨covered, split⟩ := prefix_of_byteLength_le ⟨_, before.symm⟩
    ⟨behind', (List.append_assoc ahead' u.text behind').trans after.symm⟩ le
  have whole : text = ahead ++ (covered ++ behind') := by
    rw [← List.append_assoc, split, List.append_assoc, after]
  have from_start : s.start = byteLength (above ++ ahead) := by
    rw [start, first, byteLength_append]
  have to_stop : s.stop = byteLength (above ++ ahead) + byteLength covered := by
    rw [stop, ended, ← split, byteLength_append, byteLength_append, Nat.add_assoc]
  refine ⟨covered, ?_, ?_, ?_, ?_⟩
  · have slice := slice?_append (above ++ ahead) covered (behind' ++ below)
    rw [from_start, to_stop, whole]
    simpa only [List.append_assoc] using slice
  · have length : s.start + s.length = s.stop := rfl
    omega
  · intro newline
    refine single ?_
    rw [whole]
    exact List.mem_append_right _ (List.mem_append_left _ newline)
  · rwa [start]

theorem covers_token {source : List Char} {line : SourceLine} (h : line ∈ sourceLines source) {t : Token}
    (ht : t ∈ line.tokens) : t.span.Covers source line.number t.text := by
  have listed := tokens_of_sourceLines h ht
  obtain ⟨text, covers⟩ := covers_of_tokens h ht ht rfl rfl (start_lt_stop_of_tokenizeFrom listed)
  exact covers.eq_text (text_of_tokenize listed) ▸ covers

/-- No token of the line begins before an earlier one is over. -/
def SourceLine.Ordered (line : SourceLine) : Prop :=
  line.tokens.Pairwise fun t u => t.span.stop ≤ u.start

theorem ordered_of_sourceLines {source : List Char} {line : SourceLine} (h : line ∈ sourceLines source) :
    line.Ordered := by
  obtain ⟨above, text, -, -, -, -, tokens⟩ := text_of_sourceLines h
  rw [SourceLine.Ordered, tokens]
  exact (tokenizeFrom_ordered (byteLength above) text).filter _

/-- The statement on a line, a mnemonic and all that follows it, and a span from the first byte of it to the last. -/
structure Span.IsStatement (line : SourceLine) (m : Mnemonic) (head : Token) (operands : List Token) (s : Span) :
    Prop where
  body : line.body = head :: operands
  ident : head.kind = .ident
  known : Mnemonic.find? head.name = some m
  plain : ∀ t ∈ operands, t.isOperand = true
  start : s.start = head.start
  stop : s.stop = ((head :: operands).getLast (List.cons_ne_nil head operands)).span.stop

/-- Tokens that are joined in their order begin with the first and end with the last, which is `t` at first. -/
theorem foldl_join {t : Token} {ts : List Token} (ordered : (t :: ts).Pairwise fun t u => t.span.stop ≤ u.start)
    {s : Span} (stop : s.stop = t.span.stop) :
    (ts.foldl (fun span u => span.join u.span) s).start = s.start ∧
      (ts.foldl (fun span u => span.join u.span) s).stop =
        ((t :: ts).getLast (List.cons_ne_nil t ts)).span.stop := by
  induction ts generalizing s t with
  | nil => exact ⟨rfl, stop⟩
  | cons u us ih =>
    obtain ⟨first, rest⟩ := List.pairwise_cons.mp ordered
    have after : s.stop ≤ u.start := stop ▸ first u List.mem_cons_self
    have started : s.start ≤ s.stop := Nat.le_add_right _ _
    have length : u.start ≤ u.span.stop := Nat.le_add_right _ _
    have joined : (s.join u.span).stop = u.span.stop := by
      rw [Span.stop_join]
      omega
    obtain ⟨from_start, to_stop⟩ := ih rest joined
    refine ⟨from_start.trans ?_, ?_⟩
    · exact Nat.min_eq_left (Nat.le_trans started after)
    · rw [List.getLast_cons_cons]
      exact to_stop

theorem start_lt_stop_getLast {head : Token} {operands : List Token}
    (ordered : (head :: operands).Pairwise fun t u => t.span.stop ≤ u.start)
    (filled : head.start < head.span.stop) :
    head.start < ((head :: operands).getLast (List.cons_ne_nil head operands)).span.stop := by
  rcases List.mem_cons.mp (List.getLast_mem (List.cons_ne_nil head operands)) with same | later
  · rwa [same]
  · have after := (List.pairwise_cons.mp ordered).1 _ later
    exact Nat.lt_of_lt_of_le (Nat.lt_of_lt_of_le filled after) (Nat.le_add_right _ _)

/-- The span of a statement lies on its line. -/
theorem Span.IsStatement.covers {source : List Char} {line : SourceLine} (h : line ∈ sourceLines source)
    {m : Mnemonic} {head : Token} {operands : List Token} {s : Span} (stated : s.IsStatement line m head operands) :
    ∃ text, s.Covers source line.number text := by
  have body := line.body_sublist
  have ordered := List.Pairwise.sublist body (ordered_of_sourceLines h)
  rw [stated.body] at body ordered
  have first : head ∈ line.tokens := body.mem List.mem_cons_self
  have filled := start_lt_stop_of_tokenizeFrom (tokens_of_sourceLines h first)
  exact covers_of_tokens h first (body.mem (List.getLast_mem _)) stated.start stated.stop
    (start_lt_stop_getLast ordered filled)

end I8080

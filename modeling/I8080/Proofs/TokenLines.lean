import I8080.Proofs.Line
import Mathlib.Data.List.Forall2
import Mathlib.Data.List.Nodup
import Mathlib.Data.List.Pairwise

namespace I8080

theorem le_start_of_tokenizeFrom {start : Nat} {text : List Char} {t : Token} (h : t ∈ tokenizeFrom start text) :
    start ≤ t.start := by
  obtain ⟨before, -, -, -, place, -⟩ := opened_of_tokenizeFrom h
  exact place ▸ Nat.le_add_right start _

theorem byteLength_pos (c : Char) (cs : List Char) : 0 < byteLength (c :: cs) :=
  Nat.add_pos_left c.utf8Size_pos _

/-- No token begins before an earlier one is over. -/
theorem tokenizeFrom_ordered (start : Nat) (text : List Char) :
    (tokenizeFrom start text).Pairwise fun t u => t.span.stop ≤ u.start := by
  fun_induction tokenizeFrom start text with
  | case1 => exact .nil
  | case2 start c cs kind more opening taken ih => exact .cons (fun u hu => le_start_of_tokenizeFrom hu) ih

theorem start_lt_stop_of_tokenizeFrom {start : Nat} {text : List Char} {t : Token} (h : t ∈ tokenizeFrom start text) :
    t.start < t.span.stop := by
  obtain ⟨-, c, cs, -, -, -, taken⟩ := opened_of_tokenizeFrom h
  rw [Token.span, taken]
  exact Nat.lt_add_of_pos_right (byteLength_pos c _)

theorem flatten_splitLines (ts : List Token) : (splitLines ts).flatten = ts.filter fun t => t.kind ≠ .newline := by
  induction ts with
  | nil => rfl
  | cons t ts ih =>
    rw [splitLines]
    by_cases newline : t.kind = .newline
    · rw [if_pos newline, List.flatten_cons, List.nil_append, ih, List.filter_cons_of_neg (by simp [newline])]
    · rw [if_neg newline, List.filter_cons_of_pos (by simp [newline]), ← ih]
      cases splitLines ts <;> rfl

theorem flatMap_numberedLines (number : Nat) (split : List (List Token)) :
    (numberedLines number split).flatMap SourceLine.tokens = split.flatten.filter Token.isMeaningful := by
  induction split generalizing number with
  | nil => rfl
  | cons line lines ih =>
    rw [numberedLines_cons, List.flatMap_append, ih, List.flatten_cons, List.filter_append, numberedLines_single]
    split_ifs with empty
    · rw [empty]
      rfl
    · simp

section Related

variable {same : Token → Token → Prop} (kinds : ∀ t u, same t u → u.kind = t.kind)

include kinds in
theorem splitLines_related {ts us : List Token} (h : List.Forall₂ same ts us) :
    List.Forall₂ (List.Forall₂ same) (splitLines ts) (splitLines us) := by
  induction h with
  | nil => exact .cons .nil .nil
  | @cons t u ts us first _ ih =>
    rw [splitLines, splitLines, kinds _ _ first]
    generalize splitLines ts = lines at ih
    generalize splitLines us = lines' at ih
    split_ifs
    · exact .cons .nil ih
    · cases ih with
      | nil => exact .cons (.cons first .nil) .nil
      | cons line lines => exact .cons (.cons first line) lines

include kinds in
theorem numberedLines_related {split split' : List (List Token)} (h : List.Forall₂ (List.Forall₂ same) split split')
    (number : Nat) :
    List.Forall₂ (fun line other => line.number = other.number ∧ List.Forall₂ same line.tokens other.tokens)
      (numberedLines number split) (numberedLines number split') := by
  induction h generalizing number with
  | nil => exact .nil
  | @cons line line' _ _ first _ ih =>
    have meaningful : List.Forall₂ same (line.filter Token.isMeaningful) (line'.filter Token.isMeaningful) := by
      refine List.rel_filter (fun t u h => ?_) first
      simp only [Token.isMeaningful, kinds t u h]
    rw [numberedLines_cons number line, numberedLines_cons number line', numberedLines_single, numberedLines_single]
    generalize line.filter Token.isMeaningful = tokens at meaningful
    generalize line'.filter Token.isMeaningful = tokens' at meaningful
    cases meaningful with
    | nil => exact ih (number + 1)
    | cons t ts => exact .cons ⟨rfl, .cons t ts⟩ (ih (number + 1))

include kinds in
theorem SourceLine.label?_related {line other : SourceLine} (h : List.Forall₂ same line.tokens other.tokens) :
    Option.Rel same line.label? other.label? := by
  unfold SourceLine.label?
  generalize line.tokens = tokens at h
  generalize other.tokens = tokens' at h
  cases h with
  | nil => exact .none
  | cons first rest =>
    cases rest with
    | nil => exact .none
    | cons second _ =>
      dsimp only
      rw [kinds _ _ first, kinds _ _ second]
      split_ifs
      · exact .some first
      · exact .none

include kinds in
theorem SourceLine.body_related {line other : SourceLine} (h : List.Forall₂ same line.tokens other.tokens) :
    List.Forall₂ same line.body other.body := by
  have label := SourceLine.label?_related kinds h
  unfold SourceLine.body
  generalize line.label? = name at label
  generalize other.label? = name' at label
  cases label with
  | none => exact h
  | some => exact List.forall₂_drop 2 h

end Related

/-- A token stands on one source line at most, and once. -/
theorem nodup_tokens (source : List Char) : ((sourceLines source).flatMap SourceLine.tokens).Nodup := by
  have distinct : (tokenize source).Nodup := by
    refine (tokenizeFrom_ordered 0 source).imp_of_mem ?_
    rintro t u ht - le rfl
    exact Nat.lt_irrefl _ (Nat.lt_of_lt_of_le (start_lt_stop_of_tokenizeFrom ht) le)
  rw [sourceLines_eq, flatMap_numberedLines, flatten_splitLines]
  exact (distinct.filter _).filter _

theorem SourceLine.nodup_tokens {source : List Char} {line : SourceLine} (h : line ∈ sourceLines source) :
    line.tokens.Nodup :=
  (List.nodup_flatMap.mp (I8080.nodup_tokens source)).1 line h

theorem SourceLine.eq_of_mem_tokens {source : List Char} {line other : SourceLine} {t : Token}
    (hl : line ∈ sourceLines source) (ho : other ∈ sourceLines source) (ht : t ∈ line.tokens)
    (ht' : t ∈ other.tokens) : line = other := by
  have apart := (List.nodup_flatMap.mp (I8080.nodup_tokens source)).2
  have : Std.Symm (Function.onFun List.Disjoint SourceLine.tokens) := ⟨fun _ _ h _ hu hu' => h hu' hu⟩
  by_contra ne
  exact apart.forall hl ho ne ht ht'

end I8080

import I8080.Proofs.Respelling
import I8080.Proofs.Retokenize
import I8080.Proofs.TokenLines
import Mathlib.Logic.Equiv.Basic

namespace I8080

def isIdentifier (name : String) : Bool :=
  name.toList.head?.any isIdentStart && name.toList.all isIdentRest

/-- A name that is a single identifier when it is read. -/
abbrev Identifier := { name : String // isIdentifier name = true }

theorem isIdentifier_iff {name : String} : isIdentifier name = true ↔ IsWord .ident name.toList := by
  constructor
  · intro h
    obtain ⟨first, rest⟩ := Bool.and_eq_true_iff.mp h
    exact .of_ident first rest
  · intro h
    unfold isIdentifier
    cases h' : name.toList with
    | nil => rw [h'] at h; cases h
    | cons c cs =>
      rw [h'] at h
      cases h with
      | ident first rest =>
        simp only [List.head?_cons, Option.any_some, first, List.all_cons, isIdentRest_of_isIdentStart first,
          Bool.true_and]
        exact List.all_eq_true.mpr rest

/-- A map of identifiers as a map of all names, which leaves every other name alone. -/
def Identifier.onNames (f : Identifier → Identifier) (name : String) : String :=
  if h : isIdentifier name = true then f ⟨name, h⟩ else name

theorem Identifier.isIdentifier_onNames {f : Identifier → Identifier} {name : String} :
    isIdentifier (onNames f name) = isIdentifier name := by
  unfold onNames
  split
  next h => rw [h, (f ⟨name, h⟩).2]
  next => rfl

theorem Identifier.onNames_injective {f : Identifier → Identifier} (injective : Function.Injective f) :
    Function.Injective (onNames f) := by
  intro name other h
  have both : isIdentifier name = isIdentifier other := by
    rw [← isIdentifier_onNames (f := f), h, isIdentifier_onNames]
  unfold onNames at h
  by_cases identifier : isIdentifier name = true
  · rw [dif_pos identifier, dif_pos (both ▸ identifier)] at h
    exact congrArg Subtype.val (injective (Subtype.ext h))
  · rwa [dif_neg identifier, dif_neg (both ▸ identifier)] at h

/-- The names in the places of words, if the tokens are a mnemonic with as many operands as it takes. -/
def wordTokens : List Token → List Token
  | [] => []
  | head :: operands =>
    match Mnemonic.find? head.name with
    | none => []
    | some m =>
      if operands.length = m.arity then
        ((m.kinds.zip operands).filter fun (kind, t) => kind.isWord && t.kind = .ident).map Prod.snd
      else []

/-- The labels that the line defines and refers to. -/
def SourceLine.labelTokens (line : SourceLine) : List Token :=
  line.label?.toList ++ wordTokens line.body

/-- A source text with other names for its labels. -/
def relabel (f : String → String) (source : String) : String :=
  let names := (sourceLines source.toList).flatMap SourceLine.labelTokens
  String.ofList ((tokenize source.toList).flatMap fun t => if t ∈ names then (f t.name).toList else t.text)

theorem mem_wordTokens {head t : Token} {operands : List Token} :
    t ∈ wordTokens (head :: operands) ↔ ∃ m, Mnemonic.find? head.name = some m ∧ operands.length = m.arity ∧
      ∃ kind, (kind, t) ∈ m.kinds.zip operands ∧ kind.isWord = true ∧ t.kind = .ident := by
  rw [wordTokens]
  cases Mnemonic.find? head.name with
  | none => simp
  | some m =>
    by_cases arity : operands.length = m.arity
    · simp [arity]
    · simp [arity]

theorem wordTokens_subset {head : Token} {operands : List Token} : wordTokens (head :: operands) ⊆ operands := by
  intro t mem
  obtain ⟨_, -, -, _, mem, -⟩ := mem_wordTokens.mp mem
  exact (List.of_mem_zip mem).2

theorem kind_of_mem_wordTokens {body : List Token} {t : Token} (mem : t ∈ wordTokens body) : t.kind = .ident := by
  cases body with
  | nil => cases mem
  | cons head operands =>
    obtain ⟨_, -, -, _, -, -, ident⟩ := mem_wordTokens.mp mem
    exact ident

theorem eq_of_mem_zip {α β : Type} {as : List α} {bs : List β} {a a' : α} {b : β} (nodup : bs.Nodup)
    (h : (a, b) ∈ as.zip bs) (h' : (a', b) ∈ as.zip bs) : a = a' := by
  obtain ⟨i, hi, eq⟩ := List.mem_iff_getElem.mp h
  obtain ⟨j, hj, eq'⟩ := List.mem_iff_getElem.mp h'
  rw [List.getElem_zip, Prod.mk.injEq] at eq eq'
  have same : i = j := (List.Nodup.getElem_inj_iff nodup).mp (eq.2.trans eq'.2.symm)
  subst same
  exact eq.1.symm.trans eq'.1

/-- A token as it is once these tokens go by other names. -/
def Token.Renamed (f : String → String) (names : List Token) (t u : Token) : Prop :=
  u.kind = t.kind ∧ u.text = if t ∈ names then (f t.name).toList else t.text

namespace Token.Renamed

variable {f : String → String} {names : List Token} {t u : Token}

theorem text_eq (h : t.Renamed f names u) (other : t ∉ names) : u.text = t.text := by
  rw [h.2, if_neg other]

theorem lexeme_eq (h : t.Renamed f names u) (other : t ∉ names) : t.lexeme = u.lexeme :=
  Prod.ext h.1.symm (h.text_eq other).symm

theorem name_eq (h : t.Renamed f names u) (mem : t ∈ names) : u.name = f t.name := by
  rw [Token.name, h.2, if_pos mem, String.ofList_toList]

theorem congr {others : List Token} (h : t.Renamed f names u) (same : t ∈ names ↔ t ∈ others) :
    t.Renamed f others u :=
  ⟨h.1, h.2.trans (by simp only [same])⟩

end Token.Renamed

variable {f : String → String} {injective : Function.Injective f}

/-- A statement with its labels renamed. No other operand is, for no token stands in two places. -/
theorem reads_of_renamed {body body' : List Token} (nodup : body.Nodup)
    (renamed : List.Forall₂ (Token.Renamed f (wordTokens body)) body body') :
    (View.relabel f injective).Reads body body' := by
  cases renamed with
  | nil => exact .bare
  | @cons head head' operands operands' first rest =>
    obtain ⟨apart, nodup⟩ := List.nodup_cons.mp nodup
    refine .stated _ _ _ _ (View.ofTokens_of_restates ⟨?_, ?_, fun m known arity clean => ?_⟩)
    · exact first.lexeme_eq fun mem => apart (wordTokens_subset mem)
    · refine rest.imp fun t u renamed => ⟨renamed.1, fun other => ?_⟩
      exact renamed.text_eq fun mem => other (kind_of_mem_wordTokens mem)
    · refine forall₂_zip rest fun kind t u mem renamed => ?_
      have isName : t ∈ wordTokens (head :: operands) ↔ t.kind = .ident ∧ kind.isWord = true := by
        rw [mem_wordTokens]
        constructor
        · rintro ⟨m', known', -, kind', mem', word, ident⟩
          cases known.symm.trans known'
          cases eq_of_mem_zip nodup mem mem'
          exact ⟨ident, word⟩
        · rintro ⟨ident, word⟩
          exact ⟨m, known, arity, kind, mem, word, ident⟩
      exact ⟨rfl, clean t (List.of_mem_zip mem).2, renamed.1, fun other => renamed.text_eq (isName.not.mpr other),
        fun ident word => renamed.name_eq (isName.mpr ⟨ident, word⟩)⟩

/-- The name that a line defines is none of those that it refers to. -/
theorem SourceLine.label?_not_mem_body {line : SourceLine} (nodup : line.tokens.Nodup) {name : Token}
    (h : line.label? = some name) : name ∉ line.body := by
  obtain ⟨colon, rest, tokens, -, -⟩ := SourceLine.label?_eq_some h
  rw [tokens, List.nodup_cons] at nodup
  rw [SourceLine.body, h, tokens]
  exact fun mem => nodup.1 (List.mem_cons_of_mem _ mem)

/-- A line with its labels renamed. -/
theorem lines_of_renamed {line other : SourceLine} (number : line.number = other.number) (nodup : line.tokens.Nodup)
    (renamed : List.Forall₂ (Token.Renamed f line.labelTokens) line.tokens other.tokens) :
    (View.relabel f injective).Lines line other := by
  have label := SourceLine.label?_related (fun _ _ h => h.1) renamed
  have body := SourceLine.body_related (fun _ _ h => h.1) renamed
  refine ⟨number, ?_, reads_of_renamed (nodup.sublist line.body_sublist) ?_⟩
  · generalize hl : line.label? = name at label
    generalize other.label? = name' at label
    cases label with
    | none => rfl
    | some same =>
      have mem := List.mem_append_left (wordTokens line.body) (Option.mem_toList.mpr hl)
      exact congrArg (fun text => some (text, ())) (same.name_eq mem).symm
  · refine ((List.forall₂_and_left _ _).mpr ⟨fun _ ht => ht, body⟩).imp ?_
    rintro t u ⟨ht, renamed⟩
    -- The name stands before the operands, so these are renamed for what they refer to alone.
    have apart : t ∉ line.label?.toList := fun label =>
      SourceLine.label?_not_mem_body nodup (Option.mem_toList.mp label) ht
    exact renamed.congr (by rw [SourceLine.labelTokens, List.mem_append, or_iff_right apart])

theorem SourceLine.labelTokens_subset (line : SourceLine) :
    ∀ t ∈ line.labelTokens, t ∈ line.tokens ∧ t.kind = .ident := by
  intro t mem
  rcases List.mem_append.mp mem with label | word
  · obtain ⟨colon, rest, tokens, ident, -⟩ := SourceLine.label?_eq_some (Option.mem_toList.mp label)
    exact ⟨tokens ▸ List.mem_cons_self, ident⟩
  · refine ⟨?_, kind_of_mem_wordTokens word⟩
    have body : line.body ⊆ line.tokens := by
      unfold SourceLine.body
      split
      next => exact List.drop_subset 2 _
      next => exact List.Subset.refl _
    cases h : line.body with
    | nil => rw [h] at word; cases word
    | cons head operands =>
      rw [h] at word body
      exact body (List.mem_cons_of_mem _ (wordTokens_subset word))

/-- The labels of a text are on each line those of the line. -/
theorem mem_labelTokens {source : List Char} {line : SourceLine} (hl : line ∈ sourceLines source) {t : Token}
    (ht : t ∈ line.tokens) :
    t ∈ (sourceLines source).flatMap SourceLine.labelTokens ↔ t ∈ line.labelTokens := by
  constructor
  · intro mem
    obtain ⟨other, ho, mem⟩ := List.mem_flatMap.mp mem
    rwa [SourceLine.eq_of_mem_tokens hl ho ht (other.labelTokens_subset t mem).1]
  · exact fun mem => List.mem_flatMap.mpr ⟨line, hl, mem⟩

/-- Texts whose tokens are related, as they are labels or not, have lines whose tokens are so. -/
theorem sourceLines_related {same : List Token → Token → Token → Prop}
    (kinds : ∀ names t u, same names t u → u.kind = t.kind)
    (congr : ∀ names others t u, same names t u → (t ∈ names ↔ t ∈ others) → same others t u) {source other : List Char}
    (tokens : List.Forall₂ (same ((sourceLines source).flatMap SourceLine.labelTokens)) (tokenize source)
      (tokenize other)) :
    List.Forall₂ (fun line other => line ∈ sourceLines source ∧ line.number = other.number ∧
      List.Forall₂ (same line.labelTokens) line.tokens other.tokens) (sourceLines source) (sourceLines other) := by
  have lines := numberedLines_related (kinds _) (splitLines_related (kinds _) tokens) 1
  rw [← sourceLines_eq, ← sourceLines_eq] at lines
  refine ((List.forall₂_and_left _ _).mpr ⟨fun _ hl => hl, lines⟩).imp ?_
  rintro line other ⟨hl, number, tokens⟩
  refine ⟨hl, number, ((List.forall₂_and_left _ _).mpr ⟨fun _ ht => ht, tokens⟩).imp ?_⟩
  rintro t u ⟨ht, related⟩
  exact congr _ _ t u related (mem_labelTokens hl ht)

/-- Where a text with its labels renamed has the same kinds of tokens and the same numbers, its lines are those of the
text with their labels renamed. -/
theorem sourceLines_relabel {source : String} (identifiers : ∀ name, isIdentifier (f name) = isIdentifier name)
    (keeps : List.Forall₂ Token.Keeps (tokenize source.toList) (tokenize (relabel f source).toList)) :
    List.Forall₂ (View.relabel f injective).Lines (sourceLines source.toList)
      (sourceLines (relabel f source).toList) := by
  let names := (sourceLines source.toList).flatMap SourceLine.labelTokens
  let spell := fun t : Token => if t ∈ names then (f t.name).toList else t.text
  have text : (relabel f source).toList = (tokenize source.toList).flatMap spell := String.toList_ofList
  have allows : ∀ t ∈ tokenize source.toList, t.Allows (spell t) := by
    intro t ht
    by_cases mem : t ∈ names
    · obtain ⟨line, -, label⟩ := List.mem_flatMap.mp mem
      have ident := (line.labelTokens_subset t label).2
      have word := isWord_of_tokenizeFrom ht ident
      rw [← String.toList_ofList (l := t.text), ← isIdentifier_iff] at word
      refine .inr ⟨ident, ?_⟩
      rw [show spell t = _ from if_pos mem, ← isIdentifier_iff, identifiers]
      exact word
    · exact .inl (if_neg mem)
  rw [text] at keeps ⊢
  have renamed : List.Forall₂ (Token.Renamed f names) (tokenize source.toList)
      (tokenize ((tokenize source.toList).flatMap spell)) := tokenizeFrom_respelt allows 0 keeps
  refine (sourceLines_related (fun _ _ _ h => h.1) (fun _ _ _ _ h => h.congr) renamed).imp ?_
  rintro line other ⟨hl, number, tokens⟩
  exact lines_of_renamed number (SourceLine.nodup_tokens hl) tokens

/-- A text whose labels go by other names assembles to the same, with the names of the labels exchanged, where the names
are exchanged one for one and each number stays as it is. -/
theorem assemble_relabel (f : Identifier → Identifier) (injective : Function.Injective f) (source : String)
    (keeps : List.Forall₂ Token.Keeps (tokenize source.toList)
      (tokenize (relabel (Identifier.onNames f) source).toList)) :
    let rename := Identifier.onNames f
    let before := assemble source
    let after := assemble (relabel rename source)
    after.image = before.image ∧
      (after.listing.map fun e => (e.line, e.offset, e.size)) =
        (before.listing.map fun e => (e.line, e.offset, e.size)) ∧
      after.labels.toList = (before.labels.toList.map fun (name, address) => (rename name, address)) ∧
      (after.diagnostics.map fun d => (d.line, d.error)) =
        before.diagnostics.map fun d => (d.line, d.error.rename rename) := by
  intro rename before after
  have lines := @sourceLines_relabel rename (Identifier.onNames_injective injective) source
    (fun _ => Identifier.isIdentifier_onNames) keeps
  obtain ⟨image, labels, listing, diagnostics⟩ := View.assemble_rename lines
  have placed := congrArg (List.map fun entry => (entry.1, entry.2.2)) listing
  rw [List.map_map, List.map_map] at placed
  refine ⟨image.symm, placed.symm, ?_, diagnostics.symm⟩
  exact (congrArg LabelTable.toList labels).trans (LabelTable.toList_rename _)

/-- Two identifiers change places. -/
def Identifier.exchange (name other : Identifier) : Identifier → Identifier :=
  Equiv.swap name other

/-- The name of an instruction for a label that is used before it stands, and for one that never does. -/
theorem assemble_relabel_hlt :
    let rename := Identifier.onNames (.exchange ⟨"end", rfl⟩ ⟨"hlt", rfl⟩)
    let source := "jmp end\ncall hlt\nend: hlt"
    relabel rename source = "jmp hlt\ncall end\nhlt: hlt" ∧
      (assemble (relabel rename source)).image = (assemble source).image ∧
      (assemble (relabel rename source)).labels.toList = [("hlt", 0x806)] ∧
      ((assemble (relabel rename source)).diagnostics.map fun d => (d.line, d.error)) =
        [(2, .unresolvedLabel "end")] := by
  intro rename source
  have text : relabel rename source = "jmp hlt\ncall end\nhlt: hlt" := by decide +kernel
  have keeps : List.Forall₂ Token.Keeps (tokenize source.toList) (tokenize (relabel rename source).toList) := by
    rw [text]
    decide +kernel
  have labels : (assemble source).labels.toList = [("end", 0x806)] := by decide +kernel
  have unresolved : ((assemble source).diagnostics.map fun d => (d.line, d.error)) = [(2, .unresolvedLabel "hlt")] := by
    decide +kernel
  obtain ⟨image, -, labels', unresolved'⟩ := assemble_relabel _ (Equiv.swap _ _).injective source keeps
  rw [labels] at labels'
  refine ⟨text, image, labels'.trans (by decide), unresolved'.trans ?_⟩
  have renamed := congrArg (List.map fun d => (d.1, d.2.rename rename)) unresolved
  rw [List.map_map] at renamed
  exact renamed.trans (by decide)

/-- A number takes in the first letter of a name that follows it at once, though no token changes its kind. -/
theorem relabel_into_number :
    let f := Identifier.exchange ⟨"_ab", rfl⟩ ⟨"x_ab", rfl⟩
    let rename := Identifier.onNames f
    let source := "lxi 12_ab"
    Function.Injective f ∧ relabel rename source = "lxi 12x_ab" ∧
      (tokenize (relabel rename source).toList).map Token.kind = (tokenize source.toList).map Token.kind ∧
      ((assemble (relabel rename source)).diagnostics.map fun d => (d.line, d.error)) ≠
        (assemble source).diagnostics.map fun d => (d.line, d.error.rename rename) := by
  intro f rename source
  have text : relabel rename source = "lxi 12x_ab" := by decide +kernel
  rw [text]
  exact ⟨(Equiv.swap _ _).injective, rfl, by decide +kernel, by decide +kernel⟩

end I8080

import I8080.Proofs.BlankLine
import I8080.Proofs.Respelling

namespace I8080

/-- The view that looks at errors and at no place in the source. -/
def View.errors : View :=
  .relabel id Function.injective_id

/-- Source lines with the same lexemes, wherever they stand. -/
structure SourceLine.SameLexemes (line other : SourceLine) : Prop where
  number : line.number = other.number
  tokens : line.tokens.map Token.lexeme = other.tokens.map Token.lexeme

theorem Restates.of_lexemes {head head' : Token} {operands operands' : List Token} (first : head.lexeme = head'.lexeme)
    (rest : operands.map Token.lexeme = operands'.map Token.lexeme) : Restates id head head' operands operands' := by
  have same : List.Forall₂ (fun t u => Token.lexeme t = Token.lexeme u) operands operands' := by
    rwa [← List.forall₂_eq_eq_eq, List.forall₂_map_left_iff, List.forall₂_map_right_iff] at rest
  refine ⟨first, same.imp fun t u h => ?_, fun m _ _ clean => forall₂_zip same fun kind t u mem h => ?_⟩
  · exact ⟨(Token.kind_eq_of_lexeme h).symm, fun _ => (Token.text_eq_of_lexeme h).symm⟩
  · exact ⟨rfl, clean t (List.of_mem_zip mem).2, (Token.kind_eq_of_lexeme h).symm,
      fun _ => (Token.text_eq_of_lexeme h).symm, fun _ _ => (Token.name_eq_of_lexeme h).symm⟩

namespace View

theorem lines_of_lexemes {line other : SourceLine} (h : line.SameLexemes other) : errors.Lines line other := by
  have label : line.label?.map Token.name = other.label?.map Token.name := by
    have head (l : SourceLine) : l.label?.map Token.name = l.names.head? := by
      cases label : l.label? <;> simp [SourceLine.names, label]
    rw [head, head, SourceLine.names_eq, SourceLine.names_eq, h.tokens]
  have body : line.body.map Token.lexeme = other.body.map Token.lexeme := by
    have labelled := congrArg Option.isSome label
    rw [Option.isSome_map, Option.isSome_map] at labelled
    unfold SourceLine.body
    rw [labelled]
    split
    next => rw [List.map_drop, List.map_drop, h.tokens]
    next => exact h.tokens
  refine ⟨h.number, ?_, ?_⟩
  · have places := congrArg (Option.map fun name => (name, ())) label
    rw [Option.map_map, Option.map_map] at places
    exact places
  · generalize line.body = first at body
    generalize other.body = second at body
    cases first with
    | nil =>
      rw [List.map_eq_nil_iff.mp body.symm]
      exact .bare
    | cons head operands =>
      obtain ⟨head', operands', rfl, first, rest⟩ := List.map_eq_cons_iff.mp body.symm
      exact .stated _ _ _ _ (ofTokens_of_restates (.of_lexemes first.symm rest.symm))

/-- Sources whose lines have the same lexemes assemble to the same, but for the places that spans give. -/
theorem assemble_eq {source other : String}
    (same : List.Forall₂ errors.Lines (sourceLines source.toList) (sourceLines other.toList)) :
    (assemble source).image = (assemble other).image ∧ (assemble source).labels = (assemble other).labels ∧
      (assemble source).listing.map errors.entry = (assemble other).listing.map errors.entry ∧
        (assemble source).diagnostics.map errors.diagnostic = (assemble other).diagnostics.map errors.diagnostic :=
  assemble_of_unrenamed rfl same

end View

end I8080

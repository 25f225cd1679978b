import I8080.Text.Escape

namespace I8080

/-- What a text is in colour for. -/
inductive Style where
  | status
  | help
  | trace
  | flag
  | logo

/-- The codes of a style: green, cyan and blue, and bold in a colour. -/
def Style.codes : Style → String
  | .status => "32"
  | .help => "36"
  | .trace => "34"
  | .flag => "1;32"
  | .logo => "1;38;2;255;183;197"

/-- How text is put in a style. What shows of a text is what showed of it before. -/
structure Painter where
  paint : Style → String → String
  shows : ∀ (style : Style) (s plain : String), Escape.Shows s plain → Escape.Shows (paint style s) plain

/-- A painter that has no colours. -/
def Painter.plain : Painter where
  paint _ s := s
  shows _ _ _ h := h

/-- Puts `style` again after every reset inside a text, so that a styled text may hold styled parts. -/
def Escape.reopen (style : List Char) : List Char → List Char
  | '\x1b' :: '[' :: '0' :: 'm' :: rest => '\x1b' :: '[' :: '0' :: 'm' :: (style ++ Escape.reopen style rest)
  | c :: rest => c :: Escape.reopen style rest
  | [] => []

/-- Text in the style with the given codes, up to a reset at its end. -/
def Escape.paint (codes : String) (s : String) : String :=
  let style := "\x1b[" ++ codes ++ "m"
  style ++ String.ofList (Escape.reopen style.toList s.toList) ++ "\x1b[0m"

namespace Escape

/-- A style that is opened again after every reset does not show. -/
theorem visible_reopen {style : List Char} (hidden : ∀ rest, visible (style ++ rest) = visible rest)
    (cs rest : List Char) :
    visible (reopen style cs ++ rest) = visible (cs ++ rest) ∧
      visible.inside (reopen style cs ++ rest) = visible.inside (cs ++ rest) := by
  induction cs using Escape.reopen.induct with
  | case1 cs ih =>
    -- The reset ends whatever sequence it stands in, so that the style opens outside of any.
    have again : visible (style ++ reopen style cs ++ rest) = visible (cs ++ rest) := by
      rw [List.append_assoc, hidden, ih.1]
    exact ⟨again, again⟩
  | case2 c cs other ih =>
    have kept : reopen style (c :: cs) = c :: reopen style cs := by
      rw [reopen]
      exact other
    rw [kept, List.cons_append, List.cons_append]
    constructor
    · rw [visible, visible.outside, visible.outside]
      split
      next => exact ih.2
      next => exact congrArg (c :: ·) ih.1
    · rw [visible.inside, visible.inside]
      split
      next => exact ih.1
      next => exact ih.2
  | case3 => exact ⟨rfl, rfl⟩

theorem Shows.paint {s plain : String} (h : Shows s plain) {codes : String} (unended : 'm' ∉ codes.toList) :
    Shows (Escape.paint codes s) plain := by
  have hidden := shows_sequence unended
  refine Shows.styled hidden fun rest => ?_
  rw [String.toList_ofList, (visible_reopen hidden s.toList rest).1, h]

end Escape

/-- The painter of a terminal with colours. -/
def Painter.ansi : Painter where
  paint style := Escape.paint style.codes
  shows style _ _ h := h.paint (by cases style <;> decide)

def Painter.ofColor (color : Bool) : Painter :=
  if color then .ansi else .plain

instance : Coe Bool Painter where
  coe := .ofColor

end I8080

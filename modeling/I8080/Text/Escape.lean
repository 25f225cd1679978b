namespace I8080

/-- What is left of a text when every escape sequence, from its `ESC` through the next `m`, is dropped.
A sequence that never ends takes the rest of the text with it. -/
def Escape.visible : List Char → List Char :=
  outside
where
  outside : List Char → List Char
    | [] => []
    | c :: cs => if c = '\x1b' then inside cs else c :: outside cs
  inside : List Char → List Char
    | [] => []
    | c :: cs => if c = 'm' then outside cs else inside cs

def Escape.strip (s : String) : String :=
  String.ofList (Escape.visible s.toList)

/-- A text that shows as another one, whatever is printed after it. -/
def Escape.Shows (s plain : String) : Prop :=
  ∀ rest, Escape.visible (s.toList ++ rest) = plain.toList ++ Escape.visible rest

def dim (s : String) : String :=
  "\x1b[2m" ++ s ++ "\x1b[0m"

def bold (s : String) : String :=
  "\x1b[1m" ++ s ++ "\x1b[0m"

namespace Escape

theorem outside_append {cs : List Char} (free : '\x1b' ∉ cs) (rest : List Char) :
    visible (cs ++ rest) = cs ++ visible rest := by
  induction cs with
  | nil => rfl
  | cons c cs ih =>
    rw [List.mem_cons, not_or] at free
    rw [List.cons_append, visible, visible.outside, if_neg (Ne.symm free.1)]
    exact congrArg (c :: ·) (ih free.2)

theorem inside_append {cs : List Char} (unended : 'm' ∉ cs) (rest : List Char) :
    visible.inside (cs ++ rest) = visible.inside rest := by
  induction cs with
  | nil => rfl
  | cons c cs ih =>
    rw [List.mem_cons, not_or] at unended
    rw [List.cons_append, visible.inside, if_neg (Ne.symm unended.1), ih unended.2]

theorem visible_sequence {inside : List Char} (unended : 'm' ∉ inside) (rest : List Char) :
    visible ('\x1b' :: inside ++ 'm' :: rest) = visible rest := by
  have skipped : visible ('\x1b' :: inside ++ 'm' :: rest) = visible.inside (inside ++ 'm' :: rest) := rfl
  rw [skipped, inside_append unended]
  rfl

/-- An escape sequence with the given codes does not show. -/
theorem shows_sequence {codes : String} (unended : 'm' ∉ codes.toList) : Shows ("\x1b[" ++ codes ++ "m") "" := by
  intro rest
  have opening : "\x1b[".toList = ['\x1b', '['] := by decide
  have closing : "m".toList = ['m'] := by decide
  have inside : 'm' ∉ '[' :: codes.toList := by simp [unended]
  have text : ("\x1b[" ++ codes ++ "m").toList ++ rest = '\x1b' :: ('[' :: codes.toList) ++ 'm' :: rest := by
    simp [opening, closing]
  rw [text, visible_sequence inside]
  rfl

namespace Shows

variable {s t plain other : String}

theorem append (first : Shows s plain) (second : Shows t other) : Shows (s ++ t) (plain ++ other) := by
  intro rest
  rw [String.toList_append, List.append_assoc, first, second, String.toList_append, List.append_assoc]

theorem strip_eq (h : Shows s plain) : strip s = plain := by
  have alone : visible s.toList = plain.toList := by simpa [visible, visible.outside] using h []
  rw [strip, alone, String.ofList_toList]

theorem styled {style : String} (hidden : Shows style "") (h : Shows s plain) :
    Shows (style ++ s ++ "\x1b[0m") plain := by
  have reset : Shows "\x1b[0m" "" := @shows_sequence "0" (by decide)
  have shown := (hidden.append h).append reset
  rwa [String.empty_append, String.append_empty] at shown

theorem dim (h : Shows s plain) : Shows (I8080.dim s) plain :=
  styled (@shows_sequence "2" (by decide)) h

theorem bold (h : Shows s plain) : Shows (I8080.bold s) plain :=
  styled (@shows_sequence "1" (by decide)) h

end Shows

end Escape

end I8080

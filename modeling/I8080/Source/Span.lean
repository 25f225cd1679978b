namespace I8080

/-- A stretch of source text, counted in bytes of its UTF-8 form. -/
structure Span where
  start : Nat
  length : Nat
  deriving DecidableEq

def Span.stop (s : Span) : Nat :=
  s.start + s.length

/-- The smallest span that covers both. -/
def Span.join (s t : Span) : Span where
  start := min s.start t.start
  length := max s.stop t.stop - min s.start t.start

theorem Span.stop_join (s t : Span) : (s.join t).stop = max s.stop t.stop := by
  simp only [Span.join, Span.stop]
  omega

end I8080

namespace I8080

/-- Bytes in the window of memory that programs and the processor use. -/
abbrev windowSize : Nat := 944

/-- Address of the first byte of the window. -/
def windowBase : UInt16 := 0x0800

/-- A position in the window. -/
abbrev Offset := Fin windowSize

/-- The offset that counting on past the end of the window, from its start, comes to. -/
def Offset.wrap (n : Nat) : Offset :=
  ⟨n % windowSize, Nat.mod_lt n (by decide)⟩

def addressOf (offset : Nat) : UInt16 :=
  windowBase + UInt16.ofNat offset

def Offset.ofAddress? (address : UInt16) : Option Offset :=
  let offset := (address - windowBase).toNat
  if h : offset < windowSize then some ⟨offset, h⟩ else none

/-- The contents of the whole window. -/
abbrev Image := Vector UInt8 windowSize

def Image.blank : Image :=
  Vector.replicate windowSize 0

/-- The image that starts with the given bytes and is zero after them, if they fit. -/
def Image.ofBytes? (bytes : List UInt8) : Option Image :=
  if bytes.length ≤ windowSize then some (Vector.ofFn fun i => bytes.getD i 0) else none

/-- Puts bytes into an image from offset `start` on; what would lie beyond its end is lost. -/
def Image.write (image : Image) (start : Nat) : List UInt8 → Image
  | [] => image
  | b :: bs => Image.write (image.setIfInBounds start b) (start + 1) bs

def Image.slice (image : Image) (start length : Nat) : List UInt8 :=
  (image.toList.drop start).take length

/-- The byte at a wrapped offset. -/
def Image.wrapped (image : Image) (n : Nat) : UInt8 :=
  image[Offset.wrap n]

theorem Image.getElem_write (image : Image) (start : Nat) (bytes : List UInt8) (k : Nat)
    (hk : k < windowSize) :
    (image.write start bytes)[k] = if start ≤ k then bytes.getD (k - start) image[k] else image[k] := by
  induction bytes generalizing image start with
  | nil => simp [Image.write]
  | cons b bs ih =>
    rw [Image.write, ih]
    by_cases hs : start = k
    · subst hs
      have hsucc : ¬start + 1 ≤ start := by omega
      simp [hsucc]
    · by_cases hle : start ≤ k
      · have hsucc : start + 1 ≤ k := by omega
        obtain ⟨d, hd⟩ : ∃ d, k - start = d + 1 := ⟨k - start - 1, by omega⟩
        have hd' : k - (start + 1) = d := by omega
        simp [hle, hsucc, hd, hd', hs]
      · have hsucc : ¬start + 1 ≤ k := by omega
        simp [hle, hsucc, hs]

end I8080

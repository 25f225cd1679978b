import I8080.Window
import Mathlib.Data.List.GetD

namespace I8080

theorem Image.ofBytes?_eq_some_iff {bytes : List UInt8} {image : Image} :
    Image.ofBytes? bytes = some image ↔
      bytes.length ≤ windowSize ∧ ∀ k (hk : k < windowSize), image[k] = bytes.getD k 0 := by
  unfold Image.ofBytes?
  split
  next fits =>
    constructor
    · intro h
      cases Option.some.inj h
      exact ⟨fits, by simp⟩
    · intro h
      exact congrArg some (Vector.ext fun k hk => by simp [h.2 k hk])
  next overflow => simp [overflow]

/-- Bytes followed by zeros up to the size of the window. -/
def zeroPadded (bytes : List UInt8) : List UInt8 :=
  bytes ++ List.replicate (windowSize - bytes.length) 0

theorem Image.toList_of_ofBytes? {bytes : List UInt8} {image : Image} (h : Image.ofBytes? bytes = some image) :
    image.toList = zeroPadded bytes := by
  unfold zeroPadded
  obtain ⟨fits, he⟩ := Image.ofBytes?_eq_some_iff.mp h
  apply List.ext_getElem
  · simp [fits]
  · intro k hk _
    have hk : k < windowSize := by simpa using hk
    rw [Vector.getElem_toList, he k hk]
    by_cases hb : k < bytes.length
    · rw [List.getElem_append_left hb, List.getD_eq_getElem _ _ hb]
    · have hle : bytes.length ≤ k := by omega
      rw [List.getElem_append_right hle, List.getElem_replicate, List.getD_eq_default _ _ hle]

/-- An image comes from its bytes, and from what is left of them without some of the zeros at their end. -/
theorem Image.ofBytes?_of_append_zeros {bytes : List UInt8} {zeros : Nat} {image : Image}
    (h : bytes ++ List.replicate zeros 0 = image.toList) : Image.ofBytes? bytes = some image := by
  have length : bytes.length + zeros = windowSize := by simpa using congrArg List.length h
  refine Image.ofBytes?_eq_some_iff.mpr ⟨by omega, fun k hk => ?_⟩
  rw [← Vector.getElem_toList (by simpa using hk), ← List.getD_eq_getElem _ 0, ← h]
  by_cases hb : k < bytes.length
  · rw [List.getD_append _ _ _ _ hb]
  · have hle : bytes.length ≤ k := by omega
    have hlt : k - bytes.length < zeros := by omega
    rw [List.getD_append_right _ _ _ _ hle, List.getD_replicate _ hlt, List.getD_eq_default _ _ hle]

theorem Image.ofBytes?_append {bytes more : List UInt8} {image : Image}
    (h : Image.ofBytes? bytes = some image) (fits : bytes.length + more.length ≤ windowSize) :
    Image.ofBytes? (bytes ++ more) = some (image.write bytes.length more) := by
  obtain ⟨-, he⟩ := Image.ofBytes?_eq_some_iff.mp h
  refine Image.ofBytes?_eq_some_iff.mpr ⟨by simpa using fits, ?_⟩
  intro k hk
  rw [Image.getElem_write _ _ _ k hk, he k hk]
  by_cases hb : bytes.length ≤ k
  · rw [if_pos hb, List.getD_append_right _ _ _ _ hb, List.getD_eq_default _ _ hb]
  · rw [if_neg hb, List.getD_append _ _ _ _ (by omega)]

theorem Image.write_comm {image : Image} {start other : Nat} {bytes more : List UInt8}
    (apart : start + bytes.length ≤ other) :
    (image.write other more).write start bytes = (image.write start bytes).write other more := by
  apply Vector.ext
  intro k hk
  simp only [Image.getElem_write _ _ _ k hk]
  by_cases hs : start ≤ k
  · by_cases ho : other ≤ k
    · have hb : bytes.length ≤ k - start := by omega
      simp [hs, ho, hb]
    · simp [hs, ho]
  · have ho : ¬other ≤ k := by omega
    simp [hs, ho]

/-- Bytes written over the tail of what was just written leave nothing of it. -/
theorem Image.write_write_tail {image : Image} {start : Nat} {b : UInt8} {old new : List UInt8}
    (same : old.length = new.length) :
    (image.write start (b :: old)).write (start + 1) new = image.write start (b :: new) := by
  apply Vector.ext
  intro k hk
  simp only [Image.getElem_write _ _ _ k hk]
  by_cases hs : start + 1 ≤ k
  · have hle : start ≤ k := by omega
    obtain ⟨d, hd⟩ : ∃ d, k - start = d + 1 := ⟨k - start - 1, by omega⟩
    have hd' : k - (start + 1) = d := by omega
    simp only [hs, hle, hd, hd', if_true, List.getD_cons_succ]
    by_cases hl : d < new.length
    · simp [hl]
    · simp [hl, same]
  · simp only [hs, if_false]
    by_cases hle : start ≤ k
    · have heq : k - start = 0 := by omega
      simp [hle, heq]
    · simp [hle]

end I8080

import I8080.Proofs.Encoding

namespace I8080

/-- The instructions that stand one after the other in a row of bytes, each from where the one before it ends. The
last of them must not run out of bytes. -/
def Instr.allOfBytes? (bytes : List UInt8) : Option (List Instr) :=
  match bytes with
  | [] => some []
  | b :: bs =>
    match Instr.ofBytes? (b :: bs) with
    | none => none
    | some i =>
      if i.size ≤ (b :: bs).length then (Instr.allOfBytes? ((b :: bs).drop i.size)).map (i :: ·) else none
termination_by bytes.length
decreasing_by
  have := i.size_pos
  simp only [List.length_drop, List.length_cons]
  omega

theorem take_three (bytes : List UInt8) :
    (bytes ++ [0, 0, 0]).take 3 = [bytes.getD 0 0, bytes.getD 1 0, bytes.getD 2 0] := by
  match bytes with
  | [] | [_] | [_, _] | _ :: _ :: _ :: _ => rfl

/-- An instruction that a row of bytes does not cut short is written as the bytes at its start. -/
theorem Instr.encode_of_ofBytes? {bytes : List UInt8} {i : Instr} (h : Instr.ofBytes? bytes = some i)
    (whole : i.size ≤ bytes.length) : i.Canonical ∧ i.encode = bytes.take i.size := by
  obtain ⟨canonical, encode⟩ := Instr.decode_eq_some_iff.mp h
  rw [← take_three, List.take_take, Nat.min_eq_left i.size_le, List.take_append_of_le_length whole] at encode
  exact ⟨canonical, encode⟩

theorem Instr.allOfBytes?_encode_append {i : Instr} (canonical : i.Canonical) (rest : List UInt8) :
    Instr.allOfBytes? (i.encode ++ rest) = (Instr.allOfBytes? rest).map (i :: ·) := by
  have length := i.length_encode
  have positive := i.size_pos
  obtain ⟨b, bs, split⟩ : ∃ b bs, i.encode ++ rest = b :: bs := by
    refine List.exists_cons_of_ne_nil fun empty => ?_
    have none := congrArg List.length empty
    rw [List.length_append, List.length_nil] at none
    omega
  have whole : i.size ≤ (i.encode ++ rest).length := by
    rw [List.length_append]
    omega
  rw [split, Instr.allOfBytes?, ← split, Instr.ofBytes?_encode_append canonical]
  dsimp only
  rw [if_pos whole, ← length, List.drop_left]

theorem Instr.allOfBytes?_flatMap_encode {is : List Instr} (canonical : ∀ i ∈ is, i.Canonical) :
    Instr.allOfBytes? (is.flatMap Instr.encode) = some is := by
  induction is with
  | nil => rw [List.flatMap_nil, Instr.allOfBytes?]
  | cons i is ih =>
    rw [List.forall_mem_cons] at canonical
    rw [List.flatMap_cons, Instr.allOfBytes?_encode_append canonical.1, ih canonical.2]
    rfl

theorem Instr.flatMap_encode_of_allOfBytes? {bytes : List UInt8} {is : List Instr}
    (h : Instr.allOfBytes? bytes = some is) : (∀ i ∈ is, i.Canonical) ∧ is.flatMap Instr.encode = bytes := by
  fun_induction Instr.allOfBytes? bytes generalizing is with
  | case1 =>
    cases h
    exact ⟨List.forall_mem_nil _, rfl⟩
  | case2 => cases h
  | case3 b bs i first whole ih =>
    obtain ⟨rest, later, rfl⟩ := Option.map_eq_some_iff.mp h
    obtain ⟨canonical, encode⟩ := Instr.encode_of_ofBytes? first whole
    obtain ⟨others, bytes⟩ := ih later
    refine ⟨List.forall_mem_cons.mpr ⟨canonical, others⟩, ?_⟩
    rw [List.flatMap_cons, encode, bytes, List.take_append_drop]
  | case4 => cases h

/-- Decoding and encoding undo each other, for one instruction and for any number of them in a row. -/
theorem Instr.decode_inverts_encode :
    (∀ opcode low high i, Instr.decode opcode low high = some i ↔
        i.Canonical ∧ i.encode = [opcode, low, high].take i.size) ∧
      (∀ i : Instr, i.Canonical → ∀ rest, Instr.ofBytes? (i.encode ++ rest) = some i) ∧
      ∀ bytes is, Instr.allOfBytes? bytes = some is ↔
        (∀ i ∈ is, i.Canonical) ∧ is.flatMap Instr.encode = bytes := by
  refine ⟨fun _ _ _ _ => Instr.decode_eq_some_iff, fun _ canonical => Instr.ofBytes?_encode_append canonical,
    fun bytes is => ⟨Instr.flatMap_encode_of_allOfBytes?, ?_⟩⟩
  rintro ⟨canonical, rfl⟩
  exact Instr.allOfBytes?_flatMap_encode canonical

/-- The code of `sp` in `inx` is that of the status word in `push`. -/
theorem Instr.decode_inverts_encode_pairs :
    Instr.ofBytes? [0x33, 0xF5] = some (.inx .sp) ∧ Instr.ofBytes? [0xF5, 0x33] = some (.push .psw) ∧
      Instr.allOfBytes? [0xF5, 0x33, 0xCA, 0x03, 0x08, 0xDF] =
        some [.push .psw, .inx .sp, .jmpIf .zero 0x0803, .rst 3] := by
  obtain ⟨-, single, all⟩ := Instr.decode_inverts_encode
  have inx := single (.inx .sp) (by decide) [0xF5]
  have push := single (.push .psw) (by decide) [0x33]
  exact ⟨inx, push, (all _ _).mpr ⟨by decide, rfl⟩⟩

end I8080

import I8080.Instr.Encoding

namespace I8080

theorem Instr.size_le (i : Instr) : i.size ≤ 3 := by
  cases i <;> simp [Instr.size]

theorem Instr.size_pos (i : Instr) : 0 < i.size := by
  cases i <;> simp [Instr.size]

theorem octal_digits {x : Nat} (hx : x < 4) (y z : Digit) :
    (octal x y z).toNat / 64 = x ∧ digit ((octal x y z).toNat / 8) = y ∧ digit (octal x y z).toNat = z := by
  have hy := y.isLt
  have hz := z.isLt
  have ho : (octal x y z).toNat = 64 * x + 8 * y + z := by
    simp only [octal, UInt8.toNat_ofNat']
    omega
  refine ⟨by omega, Fin.ext ?_, Fin.ext ?_⟩
  · simp only [digit, ho]
    omega
  · simp only [digit, ho]
    omega

theorem octal_digit (opcode : UInt8) :
    octal (opcode.toNat / 64) (digit (opcode.toNat / 8)) (digit opcode.toNat) = opcode := by
  apply UInt8.toNat_inj.mp
  have bound := opcode.toNat_lt
  simp only [octal, digit, UInt8.toNat_ofNat']
  omega

theorem Instr.decode_first (y z : Digit) (low high : UInt8) :
    Instr.decode (octal 0 y z) low high = Instr.decodeFirst y z low (Word.join low high) := by
  obtain ⟨hx, hy, hz⟩ := octal_digits (x := 0) (by decide) y z
  simp only [Instr.decode, hx, hy, hz]

theorem Instr.decode_last (y z : Digit) (low high : UInt8) :
    Instr.decode (octal 3 y z) low high = Instr.decodeLast y z low (Word.join low high) := by
  obtain ⟨hx, hy, hz⟩ := octal_digits (x := 3) (by decide) y z
  simp only [Instr.decode, hx, hy, hz]

theorem Instr.decode_mov {dest src : Loc} (h : ¬(dest = .mem ∧ src = .mem)) (low high : UInt8) :
    Instr.decode (octal 1 dest.code src.code) low high = some (.mov dest src) := by
  obtain ⟨hx, hy, hz⟩ := octal_digits (x := 1) (by decide) dest.code src.code
  have hm : ¬(dest.code = 6 ∧ src.code = 6) := by
    rintro ⟨hd, hs⟩
    apply h
    rw [← dest.ofCode_code, ← src.ofCode_code, hd, hs]
    exact ⟨rfl, rfl⟩
  simp only [Instr.decode, hx, hy, hz, Loc.ofCode_code, if_neg hm]

theorem Instr.decode_alu (op : AluOp) (src : Loc) (low high : UInt8) :
    Instr.decode (octal 2 op.code src.code) low high = some (.alu op src) := by
  obtain ⟨hx, hy, hz⟩ := octal_digits (x := 2) (by decide) op.code src.code
  simp only [Instr.decode, hx, hy, hz, Loc.ofCode_code, AluOp.ofCode_code]

/-- The instruction at the start of a row of bytes; past its end stand zeros. -/
def Instr.ofBytes? (bytes : List UInt8) : Option Instr :=
  Instr.decode (bytes.getD 0 0) (bytes.getD 1 0) (bytes.getD 2 0)

theorem Instr.ofBytes?_cons (opcode : UInt8) (bytes : List UInt8) :
    Instr.ofBytes? (opcode :: bytes) = Instr.decode opcode (bytes.getD 0 0) (bytes.getD 1 0) := by
  simp [Instr.ofBytes?]

theorem Instr.ofBytes?_withWord (opcode : UInt8) (w : UInt16) (rest : List UInt8) :
    Instr.ofBytes? (withWord opcode w ++ rest) = Instr.decode opcode (Word.low w) (Word.high w) := by
  simp [Instr.ofBytes?, withWord]

theorem withWord_join (opcode low high : UInt8) : withWord opcode (Word.join low high) = [opcode, low, high] := by
  rw [withWord, Word.low_join, Word.high_join]

theorem Instr.ofBytes?_encode_append {i : Instr} (h : i.Canonical) (rest : List UInt8) :
    Instr.ofBytes? (i.encode ++ rest) = some i := by
  cases i with
  | mov dest src => exact (Instr.ofBytes?_cons _ _).trans (Instr.decode_mov h _ _)
  | alu op src => exact (Instr.ofBytes?_cons _ _).trans (Instr.decode_alu op src _ _)
  | mvi dest value =>
    refine (Instr.ofBytes?_cons _ _).trans ((Instr.decode_first dest.code 6 _ _).trans ?_)
    exact congrArg (fun loc => some (Instr.mvi loc value)) dest.ofCode_code
  | inr loc =>
    refine (Instr.ofBytes?_cons _ _).trans ((Instr.decode_first loc.code 4 _ _).trans ?_)
    exact congrArg (fun loc => some (Instr.inr loc)) loc.ofCode_code
  | dcr loc =>
    refine (Instr.ofBytes?_cons _ _).trans ((Instr.decode_first loc.code 5 _ _).trans ?_)
    exact congrArg (fun loc => some (Instr.dcr loc)) loc.ofCode_code
  | aluImmediate op value =>
    refine (Instr.ofBytes?_cons _ _).trans ((Instr.decode_last op.code 6 _ _).trans ?_)
    exact congrArg (fun op => some (Instr.aluImmediate op value)) op.ofCode_code
  | jmpIf c address =>
    refine (Instr.ofBytes?_withWord _ _ _).trans ((Instr.decode_last c.code 2 _ _).trans ?_)
    rw [Word.join_low_high]
    exact congrArg (fun c => some (Instr.jmpIf c address)) c.ofCode_code
  | callIf c address =>
    refine (Instr.ofBytes?_withWord _ _ _).trans ((Instr.decode_last c.code 4 _ _).trans ?_)
    rw [Word.join_low_high]
    exact congrArg (fun c => some (Instr.callIf c address)) c.ofCode_code
  | retIf c =>
    refine (Instr.ofBytes?_cons _ _).trans ((Instr.decode_last c.code 0 _ _).trans ?_)
    exact congrArg (fun c => some (Instr.retIf c)) c.ofCode_code
  | rst vector => exact (Instr.ofBytes?_cons _ _).trans (Instr.decode_last vector 7 _ _)
  | lda address | sta address | lhld address | shld address | jmp address | call address =>
    refine (Instr.ofBytes?_withWord _ _ _).trans ?_
    conv => rhs; rw [← Word.join_low_high address]
    rfl
  | lxi pair value =>
    refine (Instr.ofBytes?_withWord _ _ _).trans ?_
    conv => rhs; rw [← Word.join_low_high value]
    cases pair with
    | psw => exact absurd rfl h
    | _ => rfl
  | inx pair | dcx pair | dad pair =>
    refine (Instr.ofBytes?_cons _ _).trans ?_
    cases pair with
    | psw => exact absurd rfl h
    | _ => rfl
  | push pair | pop pair =>
    refine (Instr.ofBytes?_cons _ _).trans ?_
    cases pair with
    | sp => exact absurd rfl h
    | _ => rfl
  | ldax pair | stax pair =>
    refine (Instr.ofBytes?_cons _ _).trans ?_
    rcases h with rfl | rfl <;> rfl
  | _ => exact (Instr.ofBytes?_cons _ _).trans rfl

theorem RegPair.ofCode_sp_ne_psw (n : Nat) : RegPair.ofCode .sp n ≠ .psw := by
  unfold RegPair.ofCode
  split <;> decide

theorem RegPair.ofCode_psw_ne_sp (n : Nat) : RegPair.ofCode .psw n ≠ .sp := by
  unfold RegPair.ofCode
  split <;> decide

theorem Instr.canonical_decodeFirst {y z : Digit} {value : UInt8} {word : UInt16} {i : Instr}
    (h : Instr.decodeFirst y z value word = some i) : i.Canonical := by
  have pair := RegPair.ofCode_sp_ne_psw (y.val / 2)
  unfold Instr.decodeFirst at h
  dsimp only at h
  split at h
  next => split at h <;> cases h; exact trivial
  next => split at h <;> cases h <;> exact pair
  next => split at h <;> cases h <;> first | exact trivial | exact .inl rfl | exact .inr rfl
  next => split at h <;> cases h <;> exact pair
  next => cases h; exact trivial
  next => cases h; exact trivial
  next => cases h; exact trivial
  next => split at h <;> cases h <;> exact trivial

theorem Instr.canonical_decodeLast {y z : Digit} {value : UInt8} {word : UInt16} {i : Instr}
    (h : Instr.decodeLast y z value word = some i) : i.Canonical := by
  have pair := RegPair.ofCode_psw_ne_sp (y.val / 2)
  unfold Instr.decodeLast at h
  dsimp only at h
  split at h
  next => cases h; exact trivial
  next => split at h <;> cases h <;> first | exact trivial | exact pair
  next => cases h; exact trivial
  next => split at h <;> cases h <;> exact trivial
  next => cases h; exact trivial
  next => split at h <;> cases h <;> first | exact trivial | exact pair
  next => cases h; exact trivial
  next => cases h; exact trivial

theorem Instr.canonical_of_decode {opcode low high : UInt8} {i : Instr}
    (h : Instr.decode opcode low high = some i) : i.Canonical := by
  unfold Instr.decode at h
  dsimp only at h
  split at h
  next => exact Instr.canonical_decodeFirst h
  next =>
    split at h
    next => cases h; exact trivial
    next hlt =>
      cases h
      rintro ⟨dest, src⟩
      refine hlt ⟨?_, ?_⟩
      · rw [← Loc.code_ofCode (digit (opcode.toNat / 8)), dest]
        rfl
      · rw [← Loc.code_ofCode (digit opcode.toNat), src]
        rfl
  next => cases h; exact trivial
  next => exact Instr.canonical_decodeLast h

theorem Instr.encode_decodeFirst {y z : Digit} {low high : UInt8} {i : Instr}
    (h : Instr.decodeFirst y z low (Word.join low high) = some i) :
    i.encode = [octal 0 y z, low, high].take i.size := by
  have code : ∀ y : Digit, (RegPair.ofCode .sp (y.val / 2)).code = y.val / 2 := by decide
  have evenCode (even : y.val % 2 = 0) : 2 * (RegPair.ofCode .sp (y.val / 2)).code = y.val := by
    rw [code]
    omega
  have oddCode (odd : ¬y.val % 2 = 0) : 2 * (RegPair.ofCode .sp (y.val / 2)).code + 1 = y.val := by
    rw [code]
    omega
  unfold Instr.decodeFirst at h
  dsimp only at h
  split at h
  next =>
    split at h <;> cases h
    next zero => subst zero; rfl
  next =>
    split at h <;> cases h
    next even => exact (withWord_join ..).trans (congrArg (fun d => [octal 0 d 1, low, high]) (evenCode even))
    next odd => exact congrArg (fun d => [octal 0 d 1]) (oddCode odd)
  next => split at h <;> cases h <;> first | rfl | exact withWord_join ..
  next =>
    split at h <;> cases h
    next even => exact congrArg (fun d => [octal 0 d 3]) (evenCode even)
    next odd => exact congrArg (fun d => [octal 0 d 3]) (oddCode odd)
  next => cases h; exact congrArg (fun d : Digit => [octal 0 d 4]) (Loc.code_ofCode y)
  next => cases h; exact congrArg (fun d : Digit => [octal 0 d 5]) (Loc.code_ofCode y)
  next => cases h; exact congrArg (fun d : Digit => [octal 0 d 6, low]) (Loc.code_ofCode y)
  next => split at h <;> cases h <;> rfl

theorem Instr.encode_decodeLast {y z : Digit} {low high : UInt8} {i : Instr}
    (h : Instr.decodeLast y z low (Word.join low high) = some i) :
    i.encode = [octal 3 y z, low, high].take i.size := by
  have popCode : ∀ y : Digit, y ≠ 1 → y ≠ 3 → y ≠ 5 → y ≠ 7 →
      2 * (RegPair.ofCode .psw (y.val / 2)).code = y.val := by decide
  unfold Instr.decodeLast at h
  dsimp only at h
  split at h
  next => cases h; exact congrArg (fun d : Digit => [octal 3 d 0]) (Condition.code_ofCode y)
  next =>
    split at h <;> cases h
    next => rfl
    next => rfl
    next => rfl
    next one three five seven =>
      exact congrArg (fun d => [octal 3 d 1]) (popCode y one three five seven)
  next =>
    cases h
    exact (withWord_join ..).trans (congrArg (fun d : Digit => [octal 3 d 2, low, high]) (Condition.code_ofCode y))
  next => split at h <;> cases h <;> first | rfl | exact withWord_join ..
  next =>
    cases h
    exact (withWord_join ..).trans (congrArg (fun d : Digit => [octal 3 d 4, low, high]) (Condition.code_ofCode y))
  next => split at h <;> cases h <;> first | rfl | exact withWord_join ..
  next => cases h; exact congrArg (fun d : Digit => [octal 3 d 6, low]) (AluOp.code_ofCode y)
  next => cases h; rfl

/-- An instruction encodes as the bytes it was decoded from. -/
theorem Instr.encode_of_decode {opcode low high : UInt8} {i : Instr}
    (h : Instr.decode opcode low high = some i) : i.encode = [opcode, low, high].take i.size := by
  have digits := octal_digit opcode
  have bound := opcode.toNat_lt
  have group : opcode.toNat / 64 = 0 ∨ opcode.toNat / 64 = 1 ∨ opcode.toNat / 64 = 2 ∨ opcode.toNat / 64 = 3 := by
    omega
  unfold Instr.decode at h
  dsimp only at h
  rcases group with x | x | x | x
  all_goals
    rw [x] at h digits
    rw [← digits]
  · exact Instr.encode_decodeFirst h
  · cases Option.some.inj h
    split
    next halt => rw [halt.1, halt.2]; rfl
    next => simp only [Instr.encode, Instr.size, List.take_succ_cons, List.take_zero, Loc.code_ofCode]
  · cases Option.some.inj h
    simp only [Instr.encode, Instr.size, List.take_succ_cons, List.take_zero, Loc.code_ofCode, AluOp.code_ofCode]
  · exact Instr.encode_decodeLast h

theorem Instr.decode_eq_some_iff {opcode low high : UInt8} {i : Instr} :
    Instr.decode opcode low high = some i ↔ i.Canonical ∧ i.encode = [opcode, low, high].take i.size := by
  constructor
  · intro h
    exact ⟨Instr.canonical_of_decode h, Instr.encode_of_decode h⟩
  · rintro ⟨canonical, bytes⟩
    have decoded := Instr.ofBytes?_encode_append canonical ([opcode, low, high].drop i.size)
    rwa [bytes, List.take_append_drop] at decoded

/-- The instructions of the byte format are those that stand in their own encoding. -/
theorem Instr.canonical_iff_decode {i : Instr} :
    i.Canonical ↔ ∃ opcode low high, Instr.decode opcode low high = some i := by
  constructor
  · intro h
    have decoded := Instr.ofBytes?_encode_append h []
    exact ⟨_, _, _, decoded⟩
  · rintro ⟨opcode, low, high, h⟩
    exact Instr.canonical_of_decode h

end I8080

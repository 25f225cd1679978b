import I8080.Mnemonic

namespace I8080

/-- Every mnemonic, once each. -/
def Mnemonic.table : List Mnemonic :=
  [⟨"nop", [], .fixed .nop⟩, ⟨"hlt", [], .fixed .hlt⟩, ⟨"mov", [.register, .register], .mov⟩,
    ⟨"mvi", [.register, .byte], .mvi⟩, ⟨"lxi", [.pair .any, .word], .lxi⟩, ⟨"lda", [.address], .ofWord .lda⟩,
    ⟨"sta", [.address], .ofWord .sta⟩, ⟨"lhld", [.address], .ofWord .lhld⟩, ⟨"shld", [.address], .ofWord .shld⟩,
    ⟨"ldax", [.pair .index], .ofPair .ldax⟩, ⟨"stax", [.pair .index], .ofPair .stax⟩,
    ⟨"xchg", [], .fixed .xchg⟩, ⟨"add", [.register], .ofLoc (.alu .add)⟩,
    ⟨"adc", [.register], .ofLoc (.alu .adc)⟩, ⟨"sub", [.register], .ofLoc (.alu .sub)⟩,
    ⟨"sbb", [.register], .ofLoc (.alu .sbb)⟩, ⟨"adi", [.byte], .ofByte (.aluImmediate .add)⟩,
    ⟨"aci", [.byte], .ofByte (.aluImmediate .adc)⟩, ⟨"sui", [.byte], .ofByte (.aluImmediate .sub)⟩,
    ⟨"sbi", [.byte], .ofByte (.aluImmediate .sbb)⟩, ⟨"inr", [.register], .ofLoc .inr⟩,
    ⟨"dcr", [.register], .ofLoc .dcr⟩, ⟨"inx", [.pair .any], .ofPair .inx⟩, ⟨"dcx", [.pair .any], .ofPair .dcx⟩,
    ⟨"dad", [.pair .any], .ofPair .dad⟩, ⟨"daa", [], .fixed .daa⟩, ⟨"ana", [.register], .ofLoc (.alu .ana)⟩,
    ⟨"xra", [.register], .ofLoc (.alu .xra)⟩, ⟨"ora", [.register], .ofLoc (.alu .ora)⟩,
    ⟨"cmp", [.register], .ofLoc (.alu .cmp)⟩, ⟨"ani", [.byte], .ofByte (.aluImmediate .ana)⟩,
    ⟨"xri", [.byte], .ofByte (.aluImmediate .xra)⟩, ⟨"ori", [.byte], .ofByte (.aluImmediate .ora)⟩,
    ⟨"cpi", [.byte], .ofByte (.aluImmediate .cmp)⟩, ⟨"cma", [], .fixed .cma⟩, ⟨"cmc", [], .fixed .cmc⟩,
    ⟨"stc", [], .fixed .stc⟩, ⟨"rlc", [], .fixed .rlc⟩, ⟨"rrc", [], .fixed .rrc⟩, ⟨"ral", [], .fixed .ral⟩,
    ⟨"rar", [], .fixed .rar⟩, ⟨"jmp", [.address], .ofWord .jmp⟩, ⟨"jnz", [.address], .ofWord (.jmpIf .notZero)⟩,
    ⟨"jz", [.address], .ofWord (.jmpIf .zero)⟩, ⟨"jnc", [.address], .ofWord (.jmpIf .noCarry)⟩,
    ⟨"jc", [.address], .ofWord (.jmpIf .carry)⟩, ⟨"jpo", [.address], .ofWord (.jmpIf .parityOdd)⟩,
    ⟨"jpe", [.address], .ofWord (.jmpIf .parityEven)⟩, ⟨"jp", [.address], .ofWord (.jmpIf .plus)⟩,
    ⟨"jm", [.address], .ofWord (.jmpIf .minus)⟩, ⟨"pchl", [], .fixed .pchl⟩,
    ⟨"call", [.address], .ofWord .call⟩, ⟨"cnz", [.address], .ofWord (.callIf .notZero)⟩,
    ⟨"cz", [.address], .ofWord (.callIf .zero)⟩, ⟨"cnc", [.address], .ofWord (.callIf .noCarry)⟩,
    ⟨"cc", [.address], .ofWord (.callIf .carry)⟩, ⟨"cpo", [.address], .ofWord (.callIf .parityOdd)⟩,
    ⟨"cpe", [.address], .ofWord (.callIf .parityEven)⟩, ⟨"cp", [.address], .ofWord (.callIf .plus)⟩,
    ⟨"cm", [.address], .ofWord (.callIf .minus)⟩, ⟨"rst", [.vector], .ofByte fun b => .rst (digit b.toNat)⟩,
    ⟨"ret", [], .fixed .ret⟩, ⟨"rnz", [], .fixed (.retIf .notZero)⟩, ⟨"rz", [], .fixed (.retIf .zero)⟩,
    ⟨"rnc", [], .fixed (.retIf .noCarry)⟩, ⟨"rc", [], .fixed (.retIf .carry)⟩,
    ⟨"rpo", [], .fixed (.retIf .parityOdd)⟩, ⟨"rpe", [], .fixed (.retIf .parityEven)⟩,
    ⟨"rp", [], .fixed (.retIf .plus)⟩, ⟨"rm", [], .fixed (.retIf .minus)⟩,
    ⟨"push", [.pair .stack], .ofPair .push⟩, ⟨"pop", [.pair .stack], .ofPair .pop⟩, ⟨"xthl", [], .fixed .xthl⟩,
    ⟨"sphl", [], .fixed .sphl⟩]

/-- The entry for a mnemonic, in either case. -/
def Mnemonic.find? (name : String) : Option Mnemonic :=
  Mnemonic.table.find? fun m => m.name == name.toLower

/-- The bytes of an instruction that is given by its name and its operands, with no source text. -/
def encodeByName (name : String) (operands : List Operand) : Except AsmError (List UInt8) :=
  match Mnemonic.find? name with
  | none => .error (.unknownMnemonic name)
  | some m =>
    match m.instr operands with
    | .ok i => .ok i.encode
    | .error e => .error e.error

end I8080

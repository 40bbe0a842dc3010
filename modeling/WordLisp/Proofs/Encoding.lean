import Mathlib
import WordLisp.Instruction.Encoding

/-!
# Decoding what was encoded

The word of an instruction splits into the fields that the instruction was packed from, so
decoding finds the instruction again.
-/

namespace WordLisp

namespace Word

theorem bits_lt (w : Word) : bits w < 2 ^ 32 := w.toUInt32.toNat_lt

theorem ofBits_bits (w : Word) : ofBits (bits w) = w := by
  unfold ofBits bits
  rw [UInt32.ofNat_toNat]
  rfl

theorem bits_ofBits {n : Nat} (h : n < 2 ^ 32) : bits (ofBits n) = n := by
  unfold bits ofBits
  rw [UInt32.toUInt32_toInt32, UInt32.toNat_ofNat', Nat.mod_eq_of_lt h]

theorem bits_eq (w : Word) : (bits w : Int) = w.toInt % 2 ^ 32 := by
  unfold bits
  rw [← Int32.toInt_toBitVec, BitVec.toInt_eq_toNat_bmod]
  show (w.toBitVec.toNat : Int) = _
  have := w.toBitVec.isLt
  simp only [Int.bmod_def]
  split <;> omega

end Word

namespace Opcode

theorem code_lt (opcode : Opcode) : opcode.code < 0x100 := by
  cases opcode with
  | load r b i | store r b i => cases r <;> cases b <;> cases i <;> decide
  | unary r | binary r | branch r => cases r <;> decide
  | _ => decide

theorem ofCode?_code (opcode : Opcode) : ofCode? opcode.code = some opcode := by
  cases opcode with
  | load r b i | store r b i => cases r <;> cases b <;> cases i <;> rfl
  | unary r | binary r | branch r => cases r <;> rfl
  | _ => rfl

end Opcode

theorem UnaryOp.ofCode?_code (op : UnaryOp) : ofCode? op.code = some op := by
  cases op <;> rfl

theorem BinaryOp.ofCode?_code (op : BinaryOp) : ofCode? op.code = some op := by
  cases op <;> rfl

theorem UnaryOp.code_lt (op : UnaryOp) : op.code < 0x100 := by
  cases op <;> decide

theorem BinaryOp.code_lt (op : BinaryOp) : op.code < 0x100 := by
  cases op <;> decide

namespace Instruction

/-! ## Fields of a packed word -/

section
variable {opcode : Opcode} {low : Nat}

theorem bits_pack (h : low < 0x1000000) :
    Word.bits (pack opcode low) = opcode.code * 0x1000000 + low := by
  have := opcode.code_lt
  exact Word.bits_ofBits (by omega)

theorem opcode_pack (h : low < 0x1000000) : (Fields.ofWord (pack opcode low)).opcode = opcode.code := by
  simp only [Fields.ofWord, bits_pack h]
  omega

theorem operator_pack {code : Nat} (h : code < 0x100) :
    (Fields.ofWord (pack opcode (code * 0x10000))).operator = code := by
  simp only [Fields.ofWord, bits_pack (show code * 0x10000 < 0x1000000 by omega)]
  omega

theorem offset_pack {offset : Word} (h : FitsOffset offset) :
    (Fields.ofWord (pack opcode (Word.bits offset % 0x1000000))).offset = offset := by
  obtain ⟨h1, h2⟩ := h
  have hb := Word.bits_eq offset
  simp only [Fields.ofWord, bits_pack (Nat.mod_lt _ (by decide : 0 < 0x1000000))]
  apply Int32.toInt.inj
  rw [show ((opcode.code * 0x1000000 + Word.bits offset % 0x1000000 : Nat) : Int).bmod 0x1000000
      = offset.toInt by simp only [Int.bmod_def]; split <;> omega]
  exact Int32.toInt_ofInt_of_le (by omega) (by omega)

end

/-! ## Round trip -/

theorem eq_of_packOffset {i : Instruction} {offset w : Word} (h : packOffset i offset = .ok w) :
    FitsOffset offset ∧ w = pack i.opcode (Word.bits offset % 0x1000000) := by
  unfold packOffset at h
  split at h
  · next hf => cases h; exact ⟨hf, rfl⟩
  · cases h

theorem shape_of_encode {i : Instruction} {w : Word} (h : i.encode = .ok w) : i.WellShaped := by
  unfold encode at h
  split at h
  · assumption
  · cases h

theorem decode?_encode {i : Instruction} {w : Word} (h : i.encode = .ok w) :
    decode? w = some i := by
  have hs := shape_of_encode h
  unfold encode at h
  rw [if_pos hs] at h
  have hlow (n : Nat) : n % 0x1000000 < 0x1000000 := Nat.mod_lt _ (by decide)
  unfold WellShaped shape at hs
  unfold decode?
  split at h
  · cases h
  · obtain ⟨hf, rfl⟩ := eq_of_packOffset h
    simp only [opcode_pack (hlow _), Opcode.ofCode?_code, hs, offset_pack hf]
    rfl
  · obtain ⟨hf, rfl⟩ := eq_of_packOffset h
    simp only [opcode_pack (hlow _), Opcode.ofCode?_code, hs, offset_pack hf]
    rfl
  · next op =>
    cases h
    have := op.code_lt
    simp only [opcode] at hs
    simp only [opcode_pack (show op.code * 0x10000 < 0x1000000 by omega), Opcode.ofCode?_code, hs,
      operator_pack op.code_lt, UnaryOp.ofCode?_code]
    rfl
  · next op =>
    cases h
    have := op.code_lt
    simp only [opcode] at hs
    simp only [opcode_pack (show op.code * 0x10000 < 0x1000000 by omega), Opcode.ofCode?_code, hs,
      operator_pack op.code_lt, BinaryOp.ofCode?_code]
    rfl
  · cases h
    simp only [opcode] at hs
    simp only [opcode_pack (show 0 < 0x1000000 by decide), Opcode.ofCode?_code, hs]

end Instruction

end WordLisp

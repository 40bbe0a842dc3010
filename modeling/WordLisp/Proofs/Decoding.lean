import WordLisp.Proofs.Encoding

/-!
# Encoding what was decoded

A word decodes to the instruction that its fields hold: the opcode is that of the top byte, the argument
is of the kind that the opcode takes, and `FieldsOf` says that it is the one in the fields. The fields
leave out the reserved bits of the word and nothing else, so encoding the instruction yields the word
with those bits clear.

Main statement: encoding succeeds for exactly the instructions that some word decodes to, and the two
are inverse to each other but for the reserved bits.
-/

namespace WordLisp

/-- The word without the last `k` bits of its pattern. -/
def Word.clearLow (k : Nat) (w : Word) : Word := ofBits (bits w >>> k <<< k)

theorem Word.clearLow_eq (k : Nat) (w : Word) : w.clearLow k = ofBits (bits w / 2 ^ k * 2 ^ k) := by
  rw [clearLow, Nat.shiftRight_eq_div_pow, Nat.shiftLeft_eq]

@[simp] theorem Word.clearLow_zero (w : Word) : w.clearLow 0 = w := ofBits_bits w

/-! ## Codes -/

theorem Opcode.accessBits_of_ofAccessBits? {make : Register → Base → Bool → Opcode} {low : Nat}
    {opcode : Opcode} (h : ofAccessBits? make low = some opcode) :
    ∃ register base indirect, opcode = make register base indirect ∧
      accessBits register base indirect = low := by
  have hbits : ∀ low < 8, accessBits (if low % 2 = 0 then .left else .right)
      (if low / 4 = 0 then .program else .frame) (low / 2 % 2 = 1) = low := by decide
  unfold ofAccessBits? at h
  split at h
  · next hlow =>
    cases h
    exact ⟨_, _, _, rfl, hbits low hlow⟩
  · cases h

theorem Opcode.code_of_ofCode? {n : Nat} {opcode : Opcode} (h : ofCode? n = some opcode) :
    opcode.code = n := by
  unfold ofCode? at h
  split at h
  case h_2 | h_3 =>
    obtain ⟨register, base, indirect, rfl, hbits⟩ := accessBits_of_ofAccessBits? h
    simp only [code, hbits]
    omega
  all_goals
    cases h
    try simp only [code, Register.bit]
    try omega

theorem UnaryOp.code_of_ofCode? {n : Nat} {op : UnaryOp} (h : ofCode? n = some op) : op.code = n := by
  have hfind := List.find?_some h
  exact of_decide_eq_true hfind

theorem BinaryOp.code_of_ofCode? {n : Nat} {op : BinaryOp} (h : ofCode? n = some op) : op.code = n := by
  have hfind := List.find?_some h
  exact of_decide_eq_true hfind

/-! ## Fields -/

/-- The fields hold the argument of the instruction. -/
def FieldsOf (fields : Fields) : Instruction → Prop
  | .addressed _ (.offset offset) | .frame _ offset => fields.offset = offset
  | .addressed _ (.tag _) => False
  | .unary _ operator => UnaryOp.ofCode? fields.operator = some operator
  | .binary _ operator => BinaryOp.ofCode? fields.operator = some operator
  | .nullary _ => True

theorem fitsOffset_iff {offset : Word} :
    FitsOffset offset ↔ -2 ^ 23 ≤ offset.toInt ∧ offset.toInt ≤ 2 ^ 23 - 1 := by
  unfold FitsOffset
  omega

theorem toInt_offset_ofWord (w : Word) :
    (Fields.ofWord w).offset.toInt = Int.bmod (Word.bits w) 0x1000000 := by
  have hlow := Int.le_bmod (x := Word.bits w) (m := 0x1000000) (by decide)
  have hhigh := Int.bmod_lt (x := Word.bits w) (m := 0x1000000) (by decide)
  exact Int32.toInt_ofInt_of_le (by omega) (by omega)

theorem fitsOffset_ofWord (w : Word) : FitsOffset (Fields.ofWord w).offset := by
  unfold FitsOffset
  rw [toInt_offset_ofWord]
  simp only [Int.bmod_def]
  split <;> omega

/-- The offset has the low bits of the word. -/
theorem bits_offset_ofWord (w : Word) :
    Word.bits (Fields.ofWord w).offset % 0x1000000 = Word.bits w % 0x1000000 := by
  have hbits := Word.bits_eq (Fields.ofWord w).offset
  rw [toInt_offset_ofWord, Int.bmod_def] at hbits
  split at hbits <;> omega

/-- The opcode is above all reserved bits. -/
theorem Fields.opcode_congr {w w' : Word} {k : Nat} (hk : k ≤ 24)
    (h : Word.bits w' / 2 ^ k = Word.bits w / 2 ^ k) :
    (Fields.ofWord w').opcode = (Fields.ofWord w).opcode := by
  obtain ⟨j, hj⟩ := Nat.exists_eq_add_of_le hk
  show Word.bits w' / 2 ^ 24 = Word.bits w / 2 ^ 24
  rw [hj, pow_add, ← Nat.div_div_eq_div_mul, h, Nat.div_div_eq_div_mul]

namespace Instruction

/-- The bits at the end of the word of an instruction that nothing is read from. -/
def reservedBits (i : Instruction) : Nat :=
  match i.shape with
  | .addressed | .frame => 0
  | .unary | .binary => 16
  | .nullary => 24

/-- The offset that the word of an instruction has to hold. -/
def offset? : Instruction → Option Word
  | addressed _ (.offset offset) | frame _ offset => some offset
  | addressed _ (.tag _) | unary .. | binary .. | nullary _ => none

/-- A word decodes to the instruction that its fields hold. -/
theorem decode?_eq_some_iff {w : Word} {i : Instruction} : decode? w = some i ↔
    i.WellShaped ∧ Opcode.ofCode? (Fields.ofWord w).opcode = some i.opcode ∧
      FieldsOf (Fields.ofWord w) i := by
  constructor
  · intro h
    unfold decode? at h
    simp only at h
    split at h
    · cases h
    · next opcode hcode =>
      rw [hcode]
      split at h
      · next hs => cases h; exact ⟨hs, rfl, rfl⟩
      · next hs => cases h; exact ⟨hs, rfl, rfl⟩
      · next hs =>
        obtain ⟨operator, hop, rfl⟩ := Option.map_eq_some_iff.mp h
        exact ⟨hs, rfl, hop⟩
      · next hs =>
        obtain ⟨operator, hop, rfl⟩ := Option.map_eq_some_iff.mp h
        exact ⟨hs, rfl, hop⟩
      · next hs => cases h; exact ⟨hs, rfl, trivial⟩
  · rintro ⟨hshape, hcode, hfields⟩
    unfold WellShaped shape at hshape
    unfold decode?
    simp only [hcode, hshape]
    cases i with
    | addressed opcode target =>
      cases target with
      | offset offset => rw [← show _ = offset from hfields]; rfl
      | tag name => exact hfields.elim
    | frame opcode offset => rw [← show _ = offset from hfields]; rfl
    | unary opcode operator => simp only [show _ = some operator from hfields]; rfl
    | binary opcode operator => simp only [show _ = some operator from hfields]; rfl
    | nullary opcode => rfl

theorem wellShaped_of_decode? {w : Word} {i : Instruction} (h : decode? w = some i) :
    i.WellShaped := (decode?_eq_some_iff.mp h).1

/-- Tags do not survive in words. -/
theorem ne_tag_of_decode? {w : Word} {i : Instruction} (h : decode? w = some i) (opcode : Opcode)
    (name : String) : i ≠ addressed opcode (.tag name) := by
  rintro rfl
  exact (decode?_eq_some_iff.mp h).2.2

theorem fieldsOf_congr {w w' : Word} {i : Instruction}
    (hbits : Word.bits w' / 2 ^ i.reservedBits = Word.bits w / 2 ^ i.reservedBits)
    (h : FieldsOf (Fields.ofWord w) i) : FieldsOf (Fields.ofWord w') i := by
  cases i with
  | addressed opcode target | frame opcode offset =>
    have hbits : Word.bits w' = Word.bits w := by simpa [reservedBits, shape] using hbits
    simpa only [Fields.ofWord, hbits] using h
  | unary opcode operator | binary opcode operator =>
    have hbits : Word.bits w' / 0x10000 = Word.bits w / 0x10000 := hbits
    simpa only [FieldsOf, Fields.ofWord, hbits] using h
  | nullary opcode => trivial

/-- The reserved bits do not matter. -/
theorem decode?_congr {w w' : Word} {i : Instruction} (h : decode? w = some i)
    (hbits : Word.bits w' / 2 ^ i.reservedBits = Word.bits w / 2 ^ i.reservedBits) :
    decode? w' = some i := by
  have hk : i.reservedBits ≤ 24 := by
    unfold reservedBits
    split <;> decide
  obtain ⟨hshape, hcode, hfields⟩ := decode?_eq_some_iff.mp h
  exact decode?_eq_some_iff.mpr
    ⟨hshape, by rw [Fields.opcode_congr hk hbits, hcode], fieldsOf_congr hbits hfields⟩

/-! ## Words -/

/-- An offset is packed into the word that it was read from. -/
theorem packOffset_ofWord {w : Word} {i : Instruction}
    (hcode : i.opcode.code = Word.bits w / 0x1000000) :
    packOffset i (Fields.ofWord w).offset = .ok w := by
  unfold packOffset pack
  rw [if_pos (fitsOffset_ofWord w), bits_offset_ofWord, hcode, Nat.div_add_mod', Word.ofBits_bits]

/-- An operator is packed into the word that it was read from, without the reserved bits. -/
theorem pack_operator {w : Word} {opcode : Opcode} {code : Nat}
    (hcode : opcode.code = Word.bits w / 0x1000000) (hoperator : code = (Fields.ofWord w).operator) :
    pack opcode (code * 0x10000) = w.clearLow 16 := by
  have hoperator : code = Word.bits w / 0x10000 % 0x100 := hoperator
  rw [pack, Word.clearLow_eq]
  exact congrArg Word.ofBits (by omega)

theorem encode_of_decode? {w : Word} {i : Instruction} (h : decode? w = some i) :
    i.encode = .ok (w.clearLow i.reservedBits) := by
  obtain ⟨hshape, hcode, hfields⟩ := decode?_eq_some_iff.mp h
  have hcode : i.opcode.code = Word.bits w / 0x1000000 := Opcode.code_of_ofCode? hcode
  unfold encode
  rw [if_pos hshape]
  cases i with
  | addressed opcode target =>
    cases target with
    | offset offset =>
      obtain rfl : (Fields.ofWord w).offset = offset := hfields
      exact (packOffset_ofWord hcode).trans (congrArg _ w.clearLow_zero.symm)
    | tag name => exact hfields.elim
  | frame opcode offset =>
    obtain rfl : (Fields.ofWord w).offset = offset := hfields
    exact (packOffset_ofWord hcode).trans (congrArg _ w.clearLow_zero.symm)
  | unary opcode operator =>
    have hoperator := UnaryOp.code_of_ofCode? hfields
    exact congrArg Except.ok (pack_operator hcode hoperator)
  | binary opcode operator =>
    have hoperator := BinaryOp.code_of_ofCode? hfields
    exact congrArg Except.ok (pack_operator hcode hoperator)
  | nullary opcode =>
    have hcode : opcode.code = Word.bits w / 0x1000000 := hcode
    refine congrArg Except.ok ?_
    show pack opcode 0 = w.clearLow 24
    rw [pack, hcode, Word.clearLow_eq]
    exact congrArg Word.ofBits (by omega)

theorem packOffset_isOk_iff {i : Instruction} {offset : Word} :
    (∃ w, packOffset i offset = .ok w) ↔ FitsOffset offset := by
  unfold packOffset
  split <;> simp_all

theorem encode_isOk_iff {i : Instruction} : (∃ w, i.encode = .ok w) ↔
    i.WellShaped ∧ (∀ opcode name, i ≠ addressed opcode (.tag name)) ∧
      ∀ offset, i.offset? = some offset → FitsOffset offset := by
  unfold encode
  by_cases hshape : i.WellShaped
  · simp only [hshape, if_true, true_and]
    cases i with
    | addressed opcode target => cases target <;> simp [packOffset_isOk_iff, offset?]
    | frame opcode offset => simp [packOffset_isOk_iff, offset?]
    | unary _ _ | binary _ _ | nullary _ => simp [offset?]
  · simp [hshape]

end Instruction

theorem fieldsOf_decode {w : Word} {i : Instruction} (h : Instruction.decode? w = some i) :
    Opcode.ofCode? (Fields.ofWord w).opcode = some i.opcode ∧ FieldsOf (Fields.ofWord w) i :=
  (Instruction.decode?_eq_some_iff.mp h).2

/-- An instruction can be encoded exactly if its argument is of the kind that the opcode takes, is no
tag, and is in range if it is an offset. The word of an instruction decodes to it, and what a word
decodes to has that word, with the reserved bits clear, as its own. -/
theorem encode_decode_inverse :
    (∀ i : Instruction, (∃ w, i.encode = .ok w) ↔
      i.opcode.shape = i.shape ∧ (∀ opcode name, i ≠ .addressed opcode (.tag name)) ∧
        ∀ offset, i.offset? = some offset → -2 ^ 23 ≤ offset.toInt ∧ offset.toInt ≤ 2 ^ 23 - 1) ∧
    (∀ (i : Instruction) (w : Word), i.encode = .ok w → Instruction.decode? w = some i) ∧
    ∀ (w : Word) (i : Instruction), Instruction.decode? w = some i →
      i.encode = .ok (w.clearLow i.reservedBits) := by
  refine ⟨fun i => ?_, fun i w => Instruction.decode?_encode, fun w i => Instruction.encode_of_decode?⟩
  simp only [Instruction.encode_isOk_iff, fitsOffset_iff]
  rfl

/-- A jump as far back as an offset reaches, and an addition with reserved bits that are not clear. -/
theorem encode_decode_inverse_far :
    Instruction.decode? 0x42800000 = some (.addressed .jump (.offset (-0x800000))) ∧
    (Instruction.addressed .jump (.offset (-0x800000))).encode = .ok 0x42800000 ∧
    Instruction.decode? 0x3230ABCD = some (.binary (.binary .left) .add) ∧
    (Instruction.binary (.binary .left) .add).encode = .ok 0x32300000 := by
  have hjump : Instruction.decode? 0x42800000 = some (.addressed .jump (.offset (-0x800000))) := by cbv
  have hadd : Instruction.decode? 0x3230ABCD = some (.binary (.binary .left) .add) := by decide
  obtain ⟨-, -, hencode⟩ := encode_decode_inverse
  have hclear : Word.clearLow 0 0x42800000 = 0x42800000 ∧ Word.clearLow 16 0x3230ABCD = 0x32300000 := by
    decide
  refine ⟨hjump, ?_, hadd, ?_⟩
  · exact (hencode _ _ hjump).trans (congrArg Except.ok hclear.1)
  · exact (hencode _ _ hadd).trans (congrArg Except.ok hclear.2)

end WordLisp

import WordLisp.Image
import WordLisp.Proofs.Encoding

/-!
# Images of words

The words of a program are read back from its bytes, and the bytes are those of the words that are read
from them. Only bytes left over make reading fail.

Main statement: words and rows of whole words of bytes correspond one to one.
-/

namespace WordLisp.Image

theorem wordsOfBytes?_wordBytes (w : Word) (rest : List UInt8) :
    wordsOfBytes? (wordBytes w ++ rest) = (wordsOfBytes? rest).map (w :: ·) := by
  have hlt := w.bits_lt
  have hword : wordOfBytes (UInt8.ofNat (Word.bits w / 0x1000000)) (UInt8.ofNat (Word.bits w / 0x10000))
      (UInt8.ofNat (Word.bits w / 0x100)) (UInt8.ofNat (Word.bits w)) = w := by
    unfold wordOfBytes
    simp only [UInt8.toNat_ofNat']
    rw [show ((Word.bits w / 0x1000000 % 2 ^ 8 * 0x100 + Word.bits w / 0x10000 % 2 ^ 8) * 0x100 +
      Word.bits w / 0x100 % 2 ^ 8) * 0x100 + Word.bits w % 2 ^ 8 = Word.bits w by omega, Word.ofBits_bits]
  show (wordsOfBytes? rest).map (wordOfBytes _ _ _ _ :: ·) = _
  rw [hword]

theorem wordsOfBytes?_toBytes (words : List Word) : wordsOfBytes? (toBytes words) = some words := by
  induction words with
  | nil => rfl
  | cons w words ih =>
    show wordsOfBytes? (wordBytes w ++ toBytes words) = _
    rw [wordsOfBytes?_wordBytes, ih]
    rfl

theorem ofBytes_toBytes (words : List Word) : ofBytes (toBytes words) = .ok words := by
  unfold ofBytes
  rw [wordsOfBytes?_toBytes]

/-! ## From bytes and back -/

theorem wordBytes_wordOfBytes (a b c d : UInt8) : wordBytes (wordOfBytes a b c d) = [a, b, c, d] := by
  have ha := a.toNat_lt
  have hb := b.toNat_lt
  have hc := c.toNat_lt
  have hd := d.toNat_lt
  have hbits : Word.bits (wordOfBytes a b c d) =
      ((a.toNat * 0x100 + b.toNat) * 0x100 + c.toNat) * 0x100 + d.toNat := Word.bits_ofBits (by omega)
  simp only [wordBytes, hbits, List.cons.injEq, and_true, ← UInt8.toNat_inj, UInt8.toNat_ofNat']
  omega

theorem wordsOfBytes?_eq_none_iff {bytes : List UInt8} :
    wordsOfBytes? bytes = none ↔ ¬ 4 ∣ bytes.length := by
  fun_induction wordsOfBytes? bytes with
  | case1 => simp
  | case2 a b c d rest ih =>
    rw [Option.map_eq_none_iff, ih]
    simp only [List.length_cons]
    omega
  | case3 bytes hnil hlong =>
    -- One, two or three bytes are left over.
    rcases bytes with _ | ⟨a, _ | ⟨b, _ | ⟨c, _ | ⟨d, rest⟩⟩⟩⟩
    · exact (hnil rfl).elim
    · simp
    · simp
    · simp
    · exact (hlong a b c d rest rfl).elim

theorem toBytes_of_wordsOfBytes? {bytes : List UInt8} {words : List Word}
    (h : wordsOfBytes? bytes = some words) : toBytes words = bytes := by
  fun_induction wordsOfBytes? bytes generalizing words with
  | case1 =>
    cases h
    rfl
  | case2 a b c d rest ih =>
    obtain ⟨words, hrest, rfl⟩ := Option.map_eq_some_iff.mp h
    show wordBytes (wordOfBytes a b c d) ++ toBytes words = _
    rw [wordBytes_wordOfBytes, ih hrest]
    rfl
  | case3 => cases h

theorem toBytes_of_ofBytes {bytes : List UInt8} {words : List Word} (h : ofBytes bytes = .ok words) :
    toBytes words = bytes := by
  unfold ofBytes at h
  split at h
  · next hwords =>
    cases h
    exact toBytes_of_wordsOfBytes? hwords
  · cases h

theorem ofBytes_eq_error_iff {bytes : List UInt8} {error : AssemblyError} :
    ofBytes bytes = .error error ↔ ¬ 4 ∣ bytes.length ∧ error = .truncated bytes.length := by
  rw [← wordsOfBytes?_eq_none_iff]
  unfold ofBytes
  split
  · next hwords => simp [hwords]
  · next hnone => simp [hnone, eq_comm]

/-! ## The number that the bytes write -/

theorem value_wordBytes (w : Word) :
    Nat.ofDigits 0x100 ((wordBytes w).reverse.map UInt8.toNat) = Word.bits w := by
  have hlt := w.bits_lt
  simp only [wordBytes, List.reverse_cons, List.reverse_nil, List.nil_append, List.cons_append,
    List.map_cons, List.map_nil, Nat.ofDigits_cons, Nat.ofDigits_nil, UInt8.toNat_ofNat']
  omega

theorem length_toBytes (words : List Word) : (toBytes words).length = 4 * words.length := by
  simp [toBytes, List.length_flatMap, wordBytes, Nat.mul_comm]

/-- With the most significant digit first, the bytes write the number that the words write. -/
theorem value_toBytes (words : List Word) :
    Nat.ofDigits 0x100 ((toBytes words).reverse.map UInt8.toNat) =
      Nat.ofDigits 0x100000000 (words.reverse.map Word.bits) := by
  induction words with
  | nil => rfl
  | cons w words ih =>
    have htoBytes : toBytes (w :: words) = wordBytes w ++ toBytes words := rfl
    rw [htoBytes, List.reverse_append, List.map_append, Nat.ofDigits_append, ih, value_wordBytes,
      List.length_map, List.length_reverse, length_toBytes, pow_mul, List.reverse_cons, List.map_append,
      Nat.ofDigits_append, List.length_map, List.length_reverse]
    simp

/-- Words are read back from their bytes, which write the same number as the words. Reading fails
exactly for bytes that are not whole words, and otherwise the bytes are those of what is read. -/
theorem bytes_bijective :
    (∀ words, ofBytes (toBytes words) = .ok words ∧
      Nat.ofDigits 0x100 ((toBytes words).reverse.map UInt8.toNat) =
        Nat.ofDigits 0x100000000 (words.reverse.map Word.bits)) ∧
    ∀ bytes,
      (∀ error, ofBytes bytes = .error error ↔ ¬ 4 ∣ bytes.length ∧ error = .truncated bytes.length) ∧
      (4 ∣ bytes.length → ∃ words, ofBytes bytes = .ok words ∧ toBytes words = bytes) := by
  refine ⟨fun words => ⟨ofBytes_toBytes words, value_toBytes words⟩, fun bytes =>
    ⟨fun error => ofBytes_eq_error_iff, fun hdvd => ?_⟩⟩
  cases h : ofBytes bytes with
  | ok words => exact ⟨words, rfl, toBytes_of_ofBytes h⟩
  | error error => exact ((ofBytes_eq_error_iff.mp h).1 hdvd).elim

/-- A call and a negative word. -/
theorem bytes_bijective_negative :
    4 ∣ ([0x43, 0, 0, 2, 0xFF, 0xFF, 0xFF, 0xFE] : List UInt8).length ∧
    ofBytes [0x43, 0, 0, 2, 0xFF, 0xFF, 0xFF, 0xFE] = .ok [0x43000002, -2] ∧
    toBytes [0x43000002, -2] = [0x43, 0, 0, 2, 0xFF, 0xFF, 0xFF, 0xFE] := by
  have hread : ofBytes [0x43, 0, 0, 2, 0xFF, 0xFF, 0xFF, 0xFE] = .ok [0x43000002, -2] := by decide
  obtain ⟨words, hok, hbytes⟩ := (bytes_bijective.2 [0x43, 0, 0, 2, 0xFF, 0xFF, 0xFF, 0xFE]).2 (by decide)
  obtain rfl := Except.ok.inj (hread.symm.trans hok)
  exact ⟨by decide, hread, hbytes⟩

end WordLisp.Image

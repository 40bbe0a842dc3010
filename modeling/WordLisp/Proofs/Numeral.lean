import Mathlib
import WordLisp.Numeral

/-!
# Texts of numbers

A number is read back from its text, so different numbers have different texts. A text that begins
with neither a digit nor a sign is not a number.
-/

namespace WordLisp

namespace Numeral

theorem digitValue_of_isDigit {c : Char} (h : c.isDigit) : digitValue c = c.toNat - '0'.toNat :=
  if_pos h

theorem value_ten_of_isDigit {cs : List Char} (h : ∀ c ∈ cs, c.isDigit) :
    value 10 cs = Nat.ofDigitChars 10 cs 0 := by
  unfold value
  rw [Nat.ofDigitChars_eq_foldl]
  refine List.foldl_ext _ _ _ fun n c hc => ?_
  rw [digitValue_of_isDigit (h c hc), Nat.mul_comm]

theorem toList_natural (n : Nat) : (natural n).toList = Nat.toDigits 10 n := String.toList_ofList

theorem isDigit_of_mem_toDigits {n : Nat} {c : Char} (h : c ∈ Nat.toDigits 10 n) : c.isDigit :=
  Nat.isDigit_of_mem_toDigits (by decide) (by decide) h

theorem toList_hex (n : Nat) : (hex n).toList = Nat.toDigits 16 n := String.toList_ofList

theorem isAlphanum_of_mem_toDigits (n : Nat) {c : Char} (h : c ∈ Nat.toDigits 16 n) : c.isAlphanum := by
  have hdigit : ∀ d < 16, (Nat.digitChar d).isAlphanum := by decide
  induction n using Nat.strongRecOn with
  | ind n ih =>
    rw [Nat.toDigits_eq_if (by decide)] at h
    split at h
    · next hn =>
      rw [List.mem_singleton.mp h]
      exact hdigit n hn
    · rcases List.mem_append.mp h with h | h
      · exact ih (n / 16) (by omega) h
      · rw [List.mem_singleton.mp h]
        exact hdigit _ (Nat.mod_lt n (by decide))

theorem decimal?_toDigits (n : Nat) : decimal? (Nat.toDigits 10 n) = some n := by
  have hdigits : ∀ c ∈ Nat.toDigits 10 n, c.isDigit := fun _ => isDigit_of_mem_toDigits
  unfold decimal?
  rw [if_pos (by simpa [Nat.toDigits_ne_nil] using hdigits), value_ten_of_isDigit hdigits,
    Nat.ofDigitChars_ten_toDigits]

/-- Digits alone are never taken for hexadecimal ones. -/
theorem magnitude?_of_isDigit {cs : List Char} (h : ∀ c ∈ cs, c.isDigit) :
    magnitude? cs = decimal? cs := by
  unfold magnitude?
  split
  · exact absurd (h 'x' (by simp)) (by decide)
  · exact absurd (h 'X' (by simp)) (by decide)
  · rfl

theorem signed?_integer (i : Int) : signed? (integer i).toList = some i := by
  have hmagnitude (n : Nat) : magnitude? (Nat.toDigits 10 n) = some n := by
    rw [magnitude?_of_isDigit fun _ => isDigit_of_mem_toDigits, decimal?_toDigits]
  cases i with
  | ofNat n =>
    rw [integer, toList_natural]
    unfold signed?
    split
    · next hcs =>
      have hdash : '-' ∈ Nat.toDigits 10 n := hcs ▸ List.mem_cons_self
      exact absurd (isDigit_of_mem_toDigits hdash) (by decide)
    · rw [hmagnitude]
      rfl
  | negSucc n =>
    have hsign : "-".toList = ['-'] := rfl
    rw [integer, String.toList_append, toList_natural, hsign, List.singleton_append, signed?,
      hmagnitude]
    rfl

/-- A number begins with a digit or with a sign. -/
theorem signed?_eq_none {c : Char} {cs : List Char} (hd : c.isDigit = false) (hm : c ≠ '-') :
    signed? (c :: cs) = none := by
  have hdecimal : decimal? (c :: cs) = none := if_neg (by simp [hd])
  have hmagnitude : magnitude? (c :: cs) = none := by
    unfold magnitude?
    split
    · next h => cases h; cases hd
    · next h => cases h; cases hd
    · exact hdecimal
  unfold signed?
  split
  · next h => cases h; exact absurd rfl hm
  · rw [hmagnitude]
    rfl

theorem natural_inj {m n : Nat} (h : natural m = natural n) : m = n := by
  have hd : Nat.toDigits 10 m = Nat.toDigits 10 n := String.ofList_injective h
  exact Option.some.inj ((decimal?_toDigits m).symm.trans (hd ▸ decimal?_toDigits n))

theorem mem_integer {i : Int} {c : Char} (h : c ∈ (integer i).toList) : c.isDigit ∨ c = '-' := by
  cases i with
  | ofNat n =>
    rw [integer, toList_natural] at h
    exact .inl (isDigit_of_mem_toDigits h)
  | negSucc n =>
    rw [integer, String.toList_append, toList_natural] at h
    rcases List.mem_append.mp h with h | h
    · exact .inr (List.mem_singleton.mp h)
    · exact .inl (isDigit_of_mem_toDigits h)

end Numeral

namespace Word

theorem ofInt?_toInt (w : Word) : ofInt? w.toInt = some w := by
  have hlow := w.le_toInt
  have hhigh := w.toInt_lt
  unfold ofInt?
  rw [if_pos (by omega), Int32.ofInt_toInt]

theorem ofChars?_text (w : Word) : ofChars? (text w).toList = some w := by
  unfold ofChars? text
  rw [Numeral.signed?_integer]
  exact ofInt?_toInt w

theorem ofChars?_eq_none {c : Char} {cs : List Char} (hd : c.isDigit = false) (hm : c ≠ '-') :
    ofChars? (c :: cs) = none := by
  unfold ofChars?
  rw [Numeral.signed?_eq_none hd hm]
  rfl

theorem text_inj {v w : Word} (h : text v = text w) : v = w :=
  Option.some.inj ((ofChars?_text v).symm.trans (h ▸ ofChars?_text w))

theorem text_ne_nil (w : Word) : (text w).toList ≠ [] := by
  intro h
  have := ofChars?_text w
  rw [h] at this
  cases this

end Word

end WordLisp

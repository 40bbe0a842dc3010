import WordLisp.Proofs.Numeral

/-!
# What is read as a number

`Numeral.Denotes cs v` is the grammar of numbers together with their values: an optional sign, then
decimal digits, or hexadecimal ones behind `0x`. The words that are read from text are those values,
as long as they lie in the range of words with or without a sign. Nothing changes when the digits are
added up in 64 bits.
-/

namespace WordLisp

namespace Numeral

/-! ## The grammar -/

/-- The character is the digit `d`, in either case. -/
def IsDigit (base : ℕ) (c : Char) (d : ℕ) : Prop :=
  d < base ∧ (c = d.digitChar ∨ c = d.digitChar.toUpper)

/-- A row of at least one digit. Its last digit counts once. -/
def Digits (base : ℕ) (cs : List Char) (n : ℕ) : Prop :=
  ∃ ds : List ℕ, ds ≠ [] ∧ List.Forall₂ (IsDigit base) cs ds ∧ n = Nat.ofDigits base ds.reverse

inductive Magnitude : List Char → ℕ → Prop
  | decimal {cs : List Char} {n : ℕ} : Digits 10 cs n → Magnitude cs n
  | hex {x : Char} {cs : List Char} {n : ℕ} : x = 'x' ∨ x = 'X' → Digits 16 cs n →
    Magnitude ('0' :: x :: cs) n

inductive Denotes : List Char → ℤ → Prop
  | unsigned {cs : List Char} {n : ℕ} : Magnitude cs n → Denotes cs n
  | negative {cs : List Char} {n : ℕ} : Magnitude cs n → Denotes ('-' :: cs) (-n)

/-! ## Digits -/

instance (base : ℕ) (c : Char) (d : ℕ) : Decidable (IsDigit base c d) :=
  inferInstanceAs (Decidable (_ ∧ _))

/-- The digits are found by trying them all, and the characters by trying those of the ASCII set. -/
theorem isDigit_iff_of_forall {base : ℕ} {p : Char → Bool} (hsmall : ∀ c, p c → c.toNat < 128)
    (hdigits : ∀ d < base, (p d.digitChar ∧ digitValue d.digitChar = d) ∧
      p d.digitChar.toUpper ∧ digitValue d.digitChar.toUpper = d)
    (hchars : ∀ n < 128, p (Char.ofNat n) → IsDigit base (Char.ofNat n) (digitValue (Char.ofNat n)))
    {c : Char} {d : ℕ} : IsDigit base c d ↔ p c ∧ digitValue c = d := by
  constructor
  · rintro ⟨hd, rfl | rfl⟩
    · exact (hdigits d hd).1
    · exact (hdigits d hd).2
  · rintro ⟨hc, rfl⟩
    have h := hchars c.toNat (hsmall c hc)
    rw [Char.ofNat_toNat] at h
    exact h hc

theorem toNat_lt_of_isHexDigit (c : Char) (h : isHexDigit c) : c.toNat < 128 := by
  simp only [isHexDigit, Char.isDigit, Bool.or_eq_true, Bool.and_eq_true, decide_eq_true_eq, ge_iff_le,
    UInt32.le_iff_toNat_le, Char.le_def, Char.toNat_val, Char.reduceToNat] at h
  omega

theorem isDigit_sixteen_iff {c : Char} {d : ℕ} : IsDigit 16 c d ↔ isHexDigit c ∧ digitValue c = d :=
  isDigit_iff_of_forall toNat_lt_of_isHexDigit (by decide) (by decide +kernel)

theorem isDigit_ten_iff {c : Char} {d : ℕ} : IsDigit 10 c d ↔ c.isDigit ∧ digitValue c = d :=
  isDigit_iff_of_forall (fun c hc => toNat_lt_of_isHexDigit c (by simp [isHexDigit, hc])) (by decide)
    (by decide +kernel)

theorem value_eq_ofDigits (base : ℕ) (cs : List Char) :
    value base cs = Nat.ofDigits base (cs.map digitValue).reverse := by
  rw [Nat.ofDigits_eq_foldr, List.foldr_reverse, List.foldl_map]
  unfold value
  congr 1
  funext n c
  rw [Nat.add_comm, Nat.mul_comm]
  rfl

section
variable {base : ℕ} {p : Char → Bool} (hp : ∀ {c d}, IsDigit base c d ↔ p c ∧ digitValue c = d)
include hp

theorem forall₂_isDigit_iff {cs : List Char} {ds : List ℕ} :
    List.Forall₂ (IsDigit base) cs ds ↔ (∀ c ∈ cs, p c) ∧ cs.map digitValue = ds := by
  induction cs generalizing ds with
  | nil =>
    rw [List.forall₂_nil_left_iff, List.map_nil, eq_comm]
    simp
  | cons c cs ih =>
    simp only [List.forall₂_cons_left_iff, hp, ih, List.forall_mem_cons, List.map_cons]
    constructor
    · rintro ⟨d, ds, ⟨hc, rfl⟩, ⟨hcs, rfl⟩, rfl⟩
      exact ⟨⟨hc, hcs⟩, rfl⟩
    · rintro ⟨⟨hc, hcs⟩, rfl⟩
      exact ⟨_, _, ⟨hc, rfl⟩, ⟨hcs, rfl⟩, rfl⟩

theorem digits_iff {cs : List Char} {n : ℕ} :
    (if !cs.isEmpty && cs.all p then some (value base cs) else none) = some n ↔ Digits base cs n := by
  have hguard : (!cs.isEmpty && cs.all p) = true ↔ cs ≠ [] ∧ ∀ c ∈ cs, p c := by simp
  unfold Digits
  simp only [forall₂_isDigit_iff hp]
  constructor
  · intro h
    split at h
    · next hcs =>
      obtain ⟨hne, hall⟩ := hguard.mp hcs
      cases h
      exact ⟨_, by simpa using hne, ⟨hall, rfl⟩, value_eq_ofDigits base cs⟩
    · cases h
  · rintro ⟨ds, hne, ⟨hall, rfl⟩, rfl⟩
    rw [if_pos (hguard.mpr ⟨by simpa using hne, hall⟩), value_eq_ofDigits]

end

/-! ## Numbers -/

theorem decimal?_eq_some_iff {cs : List Char} {n : ℕ} : decimal? cs = some n ↔ Digits 10 cs n :=
  digits_iff isDigit_ten_iff

theorem hex?_eq_some_iff {cs : List Char} {n : ℕ} : hex? cs = some n ↔ Digits 16 cs n :=
  digits_iff isDigit_sixteen_iff

theorem Digits.isDigit {cs : List Char} {n : ℕ} (h : Digits 10 cs n) : ∀ c ∈ cs, c.isDigit := by
  obtain ⟨ds, -, hrow, -⟩ := h
  exact ((forall₂_isDigit_iff isDigit_ten_iff).mp hrow).1

theorem magnitude?_eq_some_iff {cs : List Char} {n : ℕ} : magnitude? cs = some n ↔ Magnitude cs n := by
  constructor
  · intro h
    unfold magnitude? at h
    split at h
    · exact .hex (.inl rfl) (hex?_eq_some_iff.mp h)
    · exact .hex (.inr rfl) (hex?_eq_some_iff.mp h)
    · exact .decimal (decimal?_eq_some_iff.mp h)
  · intro h
    cases h with
    | decimal h => rw [magnitude?_of_isDigit h.isDigit, decimal?_eq_some_iff.mpr h]
    | hex hx h => rcases hx with rfl | rfl <;> exact hex?_eq_some_iff.mpr h

theorem Magnitude.head?_ne {cs : List Char} {n : ℕ} (h : Magnitude cs n) : cs.head? ≠ some '-' := by
  cases h with
  | decimal h =>
    intro hhead
    have hdash := h.isDigit '-' (List.mem_of_mem_head? hhead)
    cases hdash
  | hex => simp

theorem signed?_minus (cs : List Char) :
    signed? ('-' :: cs) = (magnitude? cs).map fun n : ℕ => -(n : ℤ) := by
  rw [signed?]
  cases magnitude? cs <;> rfl

theorem signed?_of_head? {cs : List Char} (h : cs.head? ≠ some '-') :
    signed? cs = (magnitude? cs).map fun n : ℕ => (n : ℤ) := by
  unfold signed?
  split
  · exact absurd rfl h
  · cases magnitude? cs <;> rfl

theorem signed?_eq_some_iff {cs : List Char} {v : ℤ} : signed? cs = some v ↔ Denotes cs v := by
  constructor
  · intro h
    by_cases hhead : cs.head? = some '-'
    · obtain ⟨cs, rfl⟩ := List.head?_eq_some_iff.mp hhead
      rw [signed?_minus] at h
      obtain ⟨n, hn, rfl⟩ := Option.map_eq_some_iff.mp h
      exact .negative (magnitude?_eq_some_iff.mp hn)
    · rw [signed?_of_head? hhead] at h
      obtain ⟨n, hn, rfl⟩ := Option.map_eq_some_iff.mp h
      exact .unsigned (magnitude?_eq_some_iff.mp hn)
  · intro h
    cases h with
    | unsigned h => rw [signed?_of_head? h.head?_ne, magnitude?_eq_some_iff.mpr h, Option.map_some]
    | negative h => rw [signed?_minus, magnitude?_eq_some_iff.mpr h, Option.map_some]

/-! ## Reading in 64 bits -/

/-- The integer in 64 bits, unless it overflows. -/
def checked? (i : ℤ) : Option Int64 :=
  if -2 ^ 63 ≤ i ∧ i < 2 ^ 63 then some (Int64.ofInt i) else none

/-- One more digit behind a number, unless it overflows. -/
def push64? (base : ℕ) (n : Int64) (c : Char) : Option Int64 :=
  (checked? (n.toInt * base)).bind fun shifted => checked? (shifted.toInt + digitValue c)

def value64? (base : ℕ) (digits : List Char) : Option Int64 := digits.foldlM (push64? base) 0

def digits64? (base : ℕ) (isDigit : Char → Bool) (cs : List Char) : Option Int64 :=
  if !cs.isEmpty && cs.all isDigit then value64? base cs else none

def magnitude64? : List Char → Option Int64
  | '0' :: 'x' :: cs => digits64? 16 isHexDigit cs
  | '0' :: 'X' :: cs => digits64? 16 isHexDigit cs
  | cs => digits64? 10 Char.isDigit cs

def signed64? : List Char → Option Int64
  | '-' :: cs => (magnitude64? cs).map fun n => -n
  | cs => magnitude64? cs

theorem toInt_ofInt64 {i : ℤ} (h : -2 ^ 63 ≤ i ∧ i < 2 ^ 63) : (Int64.ofInt i).toInt = i := by
  rw [Int64.toInt_ofInt]
  exact Int.bmod_eq_of_le (by simp [Int64.size]; omega) (by simp [Int64.size]; omega)

theorem push64?_eq (base n : ℕ) (hn : n < 2 ^ 63) (c : Char) :
    push64? base (Int64.ofInt n) c = checked? (n * base + digitValue c : ℕ) := by
  have hpos : 0 ≤ (n * base : ℤ) := by positivity
  rw [push64?, toInt_ofInt64 (by omega), checked?]
  split
  · next hfits =>
    rw [Option.bind_some, toInt_ofInt64 hfits]
    push_cast
    rfl
  · next hlarge =>
    rw [Option.bind_none, checked?, if_neg]
    push_cast
    omega

theorem le_foldl_digits {base : ℕ} (hbase : 0 < base) (cs : List Char) (n : ℕ) :
    n ≤ cs.foldl (fun n c => n * base + digitValue c) n := by
  induction cs generalizing n with
  | nil => exact le_rfl
  | cons c cs ih =>
    have hstep : n ≤ n * base + digitValue c := by nlinarith
    exact hstep.trans (ih _)

/-- Numbers only grow from digit to digit, so one that has overflowed never comes back. -/
theorem foldlM_push64? {base : ℕ} (hbase : 0 < base) (cs : List Char) {n : ℕ} (hn : n < 2 ^ 63) :
    cs.foldlM (push64? base) (Int64.ofInt n) =
      checked? (cs.foldl (fun n c => n * base + digitValue c) n : ℕ) := by
  induction cs generalizing n with
  | nil =>
    rw [List.foldl_nil, checked?, if_pos (by omega)]
    rfl
  | cons c cs ih =>
    rw [List.foldlM_cons, push64?_eq base n hn, List.foldl_cons]
    by_cases hfits : n * base + digitValue c < 2 ^ 63
    · rw [checked?, if_pos (by omega)]
      exact ih hfits
    · have hgrow := le_foldl_digits hbase cs (n * base + digitValue c)
      rw [checked?, if_neg (by omega), checked?, if_neg (by omega)]
      rfl

theorem value64?_eq {base : ℕ} (hbase : 0 < base) (cs : List Char) :
    value64? base cs = checked? (value base cs) :=
  foldlM_push64? hbase cs (by decide)

theorem digits64?_eq {base : ℕ} (hbase : 0 < base) (isDigit : Char → Bool) (cs : List Char) :
    digits64? base isDigit cs =
      (if !cs.isEmpty && cs.all isDigit then some (value base cs) else none).bind fun n => checked? n := by
  rw [digits64?, value64?_eq hbase]
  split
  · rw [Option.bind_some]
  · rw [Option.bind_none]

theorem magnitude64?_eq (cs : List Char) :
    magnitude64? cs = (magnitude? cs).bind fun n => checked? n := by
  unfold magnitude64?
  split
  · exact digits64?_eq (by decide) ..
  · exact digits64?_eq (by decide) ..
  · next hlower hupper =>
    have hmagnitude : magnitude? cs = decimal? cs := by
      unfold magnitude?
      split
      · exact absurd rfl (hlower _)
      · exact absurd rfl (hupper _)
      · rfl
    rw [hmagnitude]
    exact digits64?_eq (by decide) ..

theorem signed64?_of_head? {cs : List Char} (h : cs.head? ≠ some '-') :
    signed64? cs = magnitude64? cs := by
  unfold signed64?
  split
  · exact absurd rfl h
  · rfl

end Numeral

namespace Word

open Numeral

/-- The word for an integer of 64 bits that fits 32 bits, with or without a sign. -/
def ofInt64? (i : Int64) : Option Word :=
  if -0x80000000 ≤ i ∧ i ≤ 0xFFFFFFFF then some i.toInt32 else none

/-- Reads a word by way of an integer of 64 bits. -/
def parse64? (text : String) : Option Word := (signed64? text.toList).bind ofInt64?

theorem ofInt64?_ofInt {i : ℤ} (h : -2 ^ 63 ≤ i ∧ i < 2 ^ 63) :
    ofInt64? (Int64.ofInt i) = ofInt? i := by
  have hrange : -0x80000000 ≤ Int64.ofInt i ∧ Int64.ofInt i ≤ 0xFFFFFFFF ↔
      -0x80000000 ≤ i ∧ i < 0x100000000 := by
    have hlow : (-0x80000000 : Int64).toInt = -0x80000000 := by decide
    have hhigh : (0xFFFFFFFF : Int64).toInt = 0xFFFFFFFF := by decide
    rw [Int64.le_iff_toInt_le, Int64.le_iff_toInt_le, toInt_ofInt64 h, hlow, hhigh]
    omega
  have hword : (Int64.ofInt i).toInt32 = Int32.ofInt i := by
    rw [← Int32.toInt_inj, Int64.toInt_toInt32, toInt_ofInt64 h, Int32.toInt_ofInt]
  unfold ofInt64? ofInt?
  rw [hword]
  exact if_congr hrange rfl rfl

/-- What does not fit 64 bits is no word. -/
theorem bind_checked? (n : ℕ) : (checked? n).bind ofInt64? = ofInt? n := by
  unfold checked?
  split
  · next h => rw [Option.bind_some, ofInt64?_ofInt h]
  · rw [Option.bind_none, ofInt?, if_neg (by omega)]

theorem bind_neg_checked? (n : ℕ) : ((checked? n).map fun i => -i).bind ofInt64? = ofInt? (-n) := by
  unfold checked?
  split
  · next h => rw [Option.map_some, Option.bind_some, ← Int64.ofInt_neg, ofInt64?_ofInt (by omega)]
  · rw [Option.map_none, Option.bind_none, ofInt?, if_neg (by omega)]

theorem parse64?_eq (s : String) : parse64? s = parse? s := by
  unfold parse64? parse? ofChars?
  by_cases hhead : s.toList.head? = some '-'
  · obtain ⟨cs, hcs⟩ := List.head?_eq_some_iff.mp hhead
    rw [hcs, signed?_minus, signed64?, magnitude64?_eq]
    cases magnitude? cs with
    | none => rfl
    | some n => rw [Option.bind_some, bind_neg_checked?, Option.map_some, Option.bind_some]
  · rw [signed?_of_head? hhead, signed64?_of_head? hhead, magnitude64?_eq]
    cases magnitude? s.toList with
    | none => rfl
    | some n => rw [Option.bind_some, bind_checked?, Option.map_some, Option.bind_some]

theorem ofInt?_eq_some_iff {i : ℤ} {w : Word} :
    ofInt? i = some w ↔ i ∈ Set.Icc (-2 ^ 31) (2 ^ 32 - 1) ∧ w.toInt = i.bmod (2 ^ 32) := by
  have hrange : i ∈ Set.Icc (-2 ^ 31) (2 ^ 32 - 1) ↔ -0x80000000 ≤ i ∧ i < 0x100000000 := by
    rw [Set.mem_Icc]
    omega
  have hword : w.toInt = i.bmod (2 ^ 32) ↔ Int32.ofInt i = w := by
    rw [← Int32.toInt_inj, Int32.toInt_ofInt, eq_comm]
    rfl
  rw [hrange, hword, ofInt?, Option.ite_none_right_eq_some, Option.some.injEq]

theorem parse?_eq_some_iff {s : String} {w : Word} :
    parse? s = some w ↔
      ∃ v, Denotes s.toList v ∧ v ∈ Set.Icc (-2 ^ 31) (2 ^ 32 - 1) ∧ w.toInt = v.bmod (2 ^ 32) := by
  unfold parse? ofChars?
  rw [Option.bind_eq_some_iff]
  simp only [signed?_eq_some_iff, ofInt?_eq_some_iff]

/-- Exactly the numbers in the range of words are read, whether their digits fit 64 bits or not, and
every word is read back from its own text. -/
theorem parse_exact :
    (∀ (s : String) (w : Word), parse? s = some w ↔
      ∃ v, Denotes s.toList v ∧ v ∈ Set.Icc (-2 ^ 31) (2 ^ 32 - 1) ∧ w.toInt = v.bmod (2 ^ 32)) ∧
      (∀ s : String, parse64? s = parse? s) ∧
      ∀ w : Word, parse? (text w) = some w :=
  ⟨fun _ _ => parse?_eq_some_iff, parse64?_eq, ofChars?_text⟩

end Word

end WordLisp

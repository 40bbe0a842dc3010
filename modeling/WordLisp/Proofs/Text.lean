import Mathlib
import WordLisp.Text.Blank
import WordLisp.Text.Lines

/-!
# Runs of characters and lines

`Stops p cs` says that a run of characters with `p` does not go on with `cs`. What is written as a
row of runs is then taken apart again run by run, and what is written line by line is taken apart
line by line.
-/

namespace WordLisp.Text

/-! ## Runs -/

def Stops (p : α → Bool) (cs : List α) : Prop := ∀ c ∈ cs.head?, p c = false

section
variable {p : α → Bool} {a cs ds : List α}

theorem Stops.nil : Stops p [] := by
  intro c hc
  cases hc

theorem Stops.cons {c : α} (h : p c = false) : Stops p (c :: cs) := by
  intro c' hc
  cases hc
  exact h

theorem Stops.append (h : Stops p cs) (h' : Stops p ds) : Stops p (cs ++ ds) := by
  cases cs with
  | nil => exact h'
  | cons c cs => exact .cons (h c rfl)

theorem Stops.takeWhile_eq (h : Stops p cs) : cs.takeWhile p = [] := by
  cases cs with
  | nil => rfl
  | cons c cs => rw [List.takeWhile_cons, h c rfl]; rfl

theorem Stops.dropWhile_eq (h : Stops p cs) : cs.dropWhile p = cs := by
  cases cs with
  | nil => rfl
  | cons c cs => rw [List.dropWhile_cons, h c rfl]; rfl

theorem Stops.takeWhile_append (h : Stops p ds) : (cs ++ ds).takeWhile p = cs.takeWhile p := by
  induction cs with
  | nil => exact h.takeWhile_eq
  | cons c cs ih => rw [List.cons_append, List.takeWhile_cons, List.takeWhile_cons, ih]

theorem Stops.dropWhile_append (h : Stops p ds) : (cs ++ ds).dropWhile p = cs.dropWhile p ++ ds := by
  induction cs with
  | nil => exact h.dropWhile_eq
  | cons c cs ih =>
    rw [List.cons_append, List.dropWhile_cons, List.dropWhile_cons, ih]
    split <;> rfl

theorem takeWhile_append_of_stops (ha : ∀ c ∈ a, p c) (h : Stops p cs) :
    (a ++ cs).takeWhile p = a := by
  rw [List.takeWhile_append_of_pos ha, h.takeWhile_eq, List.append_nil]

theorem dropWhile_append_of_stops (ha : ∀ c ∈ a, p c) (h : Stops p cs) :
    (a ++ cs).dropWhile p = cs := by
  rw [List.dropWhile_append_of_pos ha, h.dropWhile_eq]

end

/-! ## Blank and visible characters -/

/-- A visible character of the ASCII set. -/
def IsGraphic (c : Char) : Prop := 0x20 < c.toNat ∧ c.toNat < 0x7F

instance : DecidablePred IsGraphic := fun c =>
  inferInstanceAs (Decidable (_ < c.toNat ∧ c.toNat < _))

theorem IsGraphic.isBlank_eq {c : Char} (h : IsGraphic c) : isBlank c = false := by
  obtain ⟨hlow, hhigh⟩ := h
  simp [isBlank, blankRanges]
  omega

theorem isGraphic_of_isAlphanum {c : Char} (h : c.isAlphanum) : IsGraphic c := by
  simp only [Char.isAlphanum, Char.isAlpha, Char.isUpper, Char.isLower, Char.isDigit, Bool.or_eq_true,
    Bool.and_eq_true, decide_eq_true_eq, ge_iff_le, UInt32.le_iff_toNat_le, Char.toNat_val,
    Char.reduceToNat] at h
  unfold IsGraphic
  omega

theorem trim_ne_nil {cs : List Char} {c : Char} (hc : c ∈ cs) (h : isBlank c = false) :
    trim cs ≠ [] := by
  have hleft : c ∈ cs.dropWhile isBlank := by
    rw [← List.takeWhile_append_dropWhile (p := isBlank) (l := cs)] at hc
    rcases List.mem_append.mp hc with hc | hc
    · rw [List.mem_takeWhile_imp hc] at h
      cases h
    · exact hc
  unfold trim
  rw [Ne, List.reverse_eq_nil_iff, List.dropWhile_eq_nil_iff]
  intro hall
  rw [hall c (List.mem_reverse.mpr hleft)] at h
  cases h

/-! ## Lines -/

theorem splitAt_append [DecidableEq α] {mark : α} {a : List α} (ha : mark ∉ a) (b : List α) :
    splitAt mark (a ++ mark :: b) = (a, (splitAt mark b).1 :: (splitAt mark b).2) := by
  induction a with
  | nil => simp [splitAt]
  | cons c a ih =>
    obtain ⟨hc, ha⟩ := List.ne_and_not_mem_of_not_mem_cons ha
    rw [List.cons_append, splitAt, ih ha]
    exact if_neg (Ne.symm hc)

/-- The first line of a text, and those behind it. -/
theorem lines_append {a : List Char} (ha : '\n' ∉ a) (b : List Char) :
    lines (a ++ '\n' :: b) = dropReturn a :: lines b := by
  unfold lines linesWith
  rw [splitAt_append ha]
  rfl

theorem dropReturn_eq {a : List Char} (ha : '\r' ∉ a) : dropReturn a = a :=
  if_neg fun h => ha (List.mem_of_getLast? h)

end WordLisp.Text

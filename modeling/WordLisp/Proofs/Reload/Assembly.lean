import WordLisp.Proofs.Encoding
import WordLisp.Proofs.Reload.Program

/-!
# Assembling without redundant loads

A listing that assembles still does so when its redundant loads are dropped. Its tags stay, they
only move towards the start.
-/

namespace WordLisp.Listing

theorem dropReloadsAfter_sublist (last : Record) (l : Listing) :
    (dropReloadsAfter last l).Sublist l := by
  induction l generalizing last with
  | nil => exact .slnil
  | cons record l ih =>
    rw [dropReloadsAfter]
    split
    · exact (ih last).cons record
    · exact (ih record).cons_cons record

theorem dropReloads_sublist (l : Listing) : l.dropReloads.Sublist l := by
  rw [← dropReloadsAfter_tag ""]
  exact dropReloadsAfter_sublist (.tag "") l

theorem tagNames_dropReloadsAfter (last : Record) (l : Listing) :
    tagNames (dropReloadsAfter last l) = tagNames l := by
  induction l generalizing last with
  | nil => rfl
  | cons record l ih =>
    rw [dropReloadsAfter]
    split
    · next hr =>
      cases record with
      | instruction i => exact ih last
      | tag name | data value => cases last <;> cases hr
    · cases record with
      | instruction i | data value => exact ih _
      | tag name => exact congrArg (name :: ·) (ih _)

theorem tagNames_dropReloads (l : Listing) : tagNames l.dropReloads = tagNames l := by
  rw [← dropReloadsAfter_tag ""]
  exact tagNames_dropReloadsAfter (.tag "") l

theorem wordCount_le_of_sublist {a b : Listing} (h : a.Sublist b) : wordCount a ≤ wordCount b := by
  induction h with
  | slnil => exact le_rfl
  | cons record _ ih => cases record <;> simp only [wordCount] <;> omega
  | cons_cons record _ ih => cases record <;> simp only [wordCount] <;> omega

/-- A tag is at most as far from the start as the listing is long. -/
theorem exists_of_mem_offsets {k : Nat} {l : Listing} {name : String} {offset : Word}
    (h : (name, offset) ∈ offsets k l) : ∃ j ≤ k + wordCount l, offset = Int32.ofNat j := by
  induction l generalizing k with
  | nil => cases h
  | cons record l ih =>
    cases record with
    | tag name' =>
      rcases List.mem_cons.mp h with h | h
      · cases h
        exact ⟨k, Nat.le_add_right .., rfl⟩
      · exact ih h
    | instruction i | data value =>
      obtain ⟨j, hj, rfl⟩ := ih h
      exact ⟨j, by simp only [wordCount]; omega, rfl⟩

theorem fitsOffset_ofNat {j : Nat} (h : j < 2 ^ 23) : FitsOffset (Int32.ofNat j) := by
  have : (Int32.ofNat j).toInt = j := Int32.toInt_ofNat_of_lt (by omega)
  unfold FitsOffset
  omega

/-- An instruction that can be encoded with one table of tags can be encoded with every other in
which its tag is not too far away. -/
theorem encodesTo_of_encodesTo {table table' : TagTable} {i : Instruction} {w : Word}
    (h : EncodesTo table i w)
    (ht : ∀ name, (table.lookup name).isSome →
      ∃ offset, table'.lookup name = some offset ∧ FitsOffset offset) :
    ∃ w', EncodesTo table' i w' := by
  obtain ⟨j, hj, hw⟩ := h
  cases i with
  | frame opcode offset | unary opcode operator | binary opcode operator | nullary opcode =>
    cases hj
    exact ⟨w, _, rfl, hw⟩
  | addressed opcode target =>
    cases target with
    | offset value =>
      cases hj
      exact ⟨w, _, rfl, hw⟩
    | tag name =>
      cases hl : table.lookup name with
      | none => simp only [resolve, hl, reduceCtorEq] at hj
      | some offset =>
        simp only [resolve, hl, Except.ok.injEq] at hj
        subst hj
        obtain ⟨offset', hl', hfits⟩ := ht name (by rw [hl]; rfl)
        have hshape : opcode.shape = .addressed := Instruction.shape_of_encode hw
        have hencode : (Instruction.addressed opcode (.offset offset')).encode =
            .ok (Instruction.pack opcode (Word.bits offset' % 0x1000000)) :=
          (if_pos hshape).trans (if_pos hfits)
        exact ⟨_, .addressed opcode (.offset offset'), by simp only [resolve, hl'], hencode⟩

theorem assemble_dropReloads {l : Listing} {words : List Word} (h : l.assemble = .ok words)
    (hle : words.length ≤ programCapacity) :
    ∃ words', l.dropReloads.assemble = .ok words' ∧ words'.length ≤ words.length := by
  obtain ⟨-, -, hlen⟩ := placed_of_assemble h
  obtain ⟨hn, he⟩ := assemble_isOk_iff.mp ⟨words, h⟩
  have hsub := dropReloads_sublist l
  have hcount := wordCount_le_of_sublist hsub
  have htags := tagNames_dropReloads l
  have hnodup : (tagNames l.dropReloads).Nodup := by rwa [htags]
  obtain ⟨words', hw'⟩ := assemble_isOk_iff.mpr ⟨hnodup, fun i hi => by
    obtain ⟨w, hw⟩ := he i (hsub.subset hi)
    refine encodesTo_of_encodesTo hw fun name hname => ?_
    rw [lookup_isSome_iff, map_fst_offsets, ← htags, ← map_fst_offsets 0, List.mem_map] at hname
    obtain ⟨⟨_, offset⟩, hmem, rfl⟩ := hname
    obtain ⟨j, hj, rfl⟩ := exists_of_mem_offsets hmem
    refine ⟨_, lookup_of_mem (by rwa [map_fst_offsets]) hmem, fitsOffset_ofNat ?_⟩
    unfold programCapacity at hle
    omega⟩
  obtain ⟨-, -, hlen'⟩ := placed_of_assemble hw'
  exact ⟨words', hw', by omega⟩

end WordLisp.Listing

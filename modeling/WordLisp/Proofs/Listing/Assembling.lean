import WordLisp.Proofs.Listing.Placement

/-!
# What assembling yields

`l.Repeats name`: the first definition of a tag in `l` that repeats an earlier one is that of `name`.
`l.Numbers table`: the table has the tags of `l` and no others, each with the number of the records
in front of it that are not tags. `Flaw table i error`: the instruction `i` cannot be encoded under
the table, for the reason that `error` gives.

Main statement: a listing whose tags are all different becomes one word for each record that is not a
tag, in order, unless some instruction has a flaw, and then the error is that of the first one.
-/

namespace WordLisp

/-- The record becomes a word. -/
def Record.isWord : Record → Bool
  | .tag _ => false
  | .instruction _ | .data _ => true

namespace Listing

def Repeats (l : Listing) (name : String) : Prop :=
  ∃ before after, l = before ++ .tag name :: after ∧ .tag name ∈ before ∧
    ∀ other, before.count (.tag other) ≤ 1

structure Numbers (l : Listing) (table : TagTable) : Prop where
  defined : ∀ before name after, l = before ++ .tag name :: after →
    ∃ offset, table.lookup name = some offset ∧ offset.toInt = before.countP Record.isWord
  undefined : ∀ name, .tag name ∉ l → table.lookup name = none

section
variable (table : TagTable)

/-- The second instruction is the first with the offset of its tag, if it has one. -/
inductive Replaces : Instruction → Instruction → Prop where
  | tag {opcode : Opcode} {name : String} {offset : Word} : table.lookup name = some offset →
    Replaces (.addressed opcode (.tag name)) (.addressed opcode (.offset offset))
  | same {i : Instruction} : (∀ opcode name, i ≠ .addressed opcode (.tag name)) → Replaces i i

inductive Flaw : Instruction → AssemblyError → Prop where
  | undefinedTag {opcode : Opcode} {name : String} : table.lookup name = none →
    Flaw (.addressed opcode (.tag name)) (.undefinedTag name)
  | unsupported {i j : Instruction} : Replaces table i j → ¬ j.WellShaped → Flaw i (.unsupported j)
  | offsetOutOfRange {i j : Instruction} {offset : Word} : Replaces table i j → j.WellShaped →
    j.offset? = some offset → ¬ FitsOffset offset → Flaw i (.offsetOutOfRange j offset)

/-- The first instruction that has a flaw has this one. -/
def FirstFlaw (l : Listing) (e : AssemblyError) : Prop :=
  ∃ before i after, l = before ++ .instruction i :: after ∧ Flaw table i e ∧
    ∀ i', .instruction i' ∈ before → ∀ e', ¬ Flaw table i' e'

/-- The word is that of the record. -/
def IsWordOf : Record → Word → Prop
  | .tag _, _ => False
  | .data value, w => w = value
  | .instruction i, w => ∃ j, Replaces table i j ∧ Instruction.decode? w = some j

end

/-! ## Tags -/

theorem wordCount_eq_countP (l : Listing) : wordCount l = l.countP Record.isWord := by
  induction l with
  | nil => rfl
  | cons r l ih => cases r <;> simp [wordCount, Record.isWord, List.countP_cons, ih]

theorem count_tagNames (name : String) (l : Listing) :
    (tagNames l).count name = l.count (.tag name) := by
  induction l with
  | nil => rfl
  | cons r l ih => cases r <;> simp [tagNames, List.count_cons, ih]

theorem nodup_tagNames_iff {l : Listing} :
    (tagNames l).Nodup ↔ ∀ name, l.count (.tag name) ≤ 1 := by
  simp only [List.nodup_iff_count_le_one, count_tagNames]

theorem tags_eq_ok_iff {l : Listing} {table : TagTable} :
    l.tags = .ok table ↔ (tagNames l).Nodup ∧ table = offsets 0 l := by
  have heq (hn : (tagNames l).Nodup) : l.tags = .ok (offsets 0 l) := tagsFrom_eq [] (k := 0) hn
  constructor
  · intro h
    have hn : (tagNames l).Nodup := nodup_of_tagsFrom [] List.nodup_nil h
    exact ⟨hn, Except.ok.inj (h.symm.trans (heq hn))⟩
  · rintro ⟨hn, rfl⟩
    exact heq hn

/-- The tags that are already in the table count as defined. -/
theorem tagsFrom_error (table : TagTable) {offset : Word} {l : Listing} {e : AssemblyError}
    (hn : (table.map Prod.fst).Nodup) (h : tagsFrom table offset l = .error e) :
    ∃ before name after, l = before ++ .tag name :: after ∧ e = .duplicateTag name ∧
      name ∈ table.map Prod.fst ++ tagNames before ∧
      (table.map Prod.fst ++ tagNames before).Nodup := by
  induction l generalizing table offset with
  | nil => cases h
  | cons r l ih =>
    cases r with
    | tag name =>
      rw [tagsFrom] at h
      split at h
      · next hsome =>
        cases h
        rw [lookup_isSome_iff] at hsome
        exact ⟨[], name, l, rfl, rfl, by simpa [tagNames] using hsome, by simpa [tagNames] using hn⟩
      · next hnot =>
        rw [lookup_isSome_iff] at hnot
        have hn' : ((table ++ [(name, offset)]).map Prod.fst).Nodup := by
          rw [List.map_append]
          exact List.nodup_append_comm.mp (List.nodup_cons.mpr ⟨hnot, hn⟩)
        obtain ⟨before, name', after, rfl, rfl, hm, hn''⟩ := ih _ hn' h
        refine ⟨.tag name :: before, name', after, rfl, rfl, ?_, ?_⟩
        · simpa [tagNames] using hm
        · simpa [tagNames] using hn''
    | instruction i | data v =>
      rw [tagsFrom] at h
      · obtain ⟨before, name, after, rfl, rfl, hm, hn'⟩ := ih _ hn h
        exact ⟨_ :: before, name, after, rfl, rfl, hm, hn'⟩
      · intro name
        simp

theorem repeats_of_tags {l : Listing} {e : AssemblyError} (h : l.tags = .error e) :
    ∃ name, l.Repeats name ∧ e = .duplicateTag name := by
  obtain ⟨before, name, after, hl, he, hm, hn⟩ := tagsFrom_error [] List.nodup_nil h
  exact ⟨name, ⟨before, after, hl, mem_tagNames.mp hm, nodup_tagNames_iff.mp hn⟩, he⟩

theorem tags_eq_error_iff {l : Listing} :
    (∃ e, l.tags = .error e) ↔ ∃ name, 2 ≤ l.count (.tag name) := by
  have hnodup : (∃ name, 2 ≤ l.count (.tag name)) ↔ ¬ (tagNames l).Nodup := by
    rw [nodup_tagNames_iff, not_forall]
    exact exists_congr fun name => by omega
  rw [hnodup]
  cases ht : l.tags with
  | error e =>
    refine iff_of_true ⟨e, rfl⟩ fun hn => ?_
    rw [tags_eq_ok_iff.mpr ⟨hn, rfl⟩] at ht
    cases ht
  | ok table => simpa using (tags_eq_ok_iff.mp ht).1

theorem numbers_of_tags {l : Listing} {table : TagTable} (hlength : l.length < 2 ^ 31)
    (h : l.tags = .ok table) : l.Numbers table := by
  obtain ⟨hn, rfl⟩ := tags_eq_ok_iff.mp h
  refine ⟨fun before name after hl => ?_, fun name hname => ?_⟩
  · have hcount : before.countP Record.isWord ≤ l.length := by
      rw [hl, List.length_append]
      exact List.countP_le_length.trans (Nat.le_add_right _ _)
    refine ⟨Int32.ofNat (wordCount before), lookup_of_mem (by rwa [map_fst_offsets]) ?_, ?_⟩
    · rw [hl, offsets_append, Nat.zero_add]
      exact List.mem_append_right _ (List.mem_cons_self ..)
    · rw [wordCount_eq_countP, Int32.toInt_ofNat_of_lt (by omega)]
  · rw [← Option.not_isSome_iff_eq_none, lookup_isSome_iff, map_fst_offsets, mem_tagNames]
    exact hname

/-! ## Flaws -/

section
variable {table : TagTable} {i j : Instruction} {e : AssemblyError}

theorem resolve_eq_ok_iff : resolve table i = .ok j ↔ Replaces table i j := by
  constructor
  · intro h
    unfold resolve at h
    split at h
    · next opcode name =>
      split at h
      · next offset hl =>
        cases h
        exact .tag hl
      · cases h
    · next hne =>
      cases h
      exact .same hne
  · intro h
    cases h with
    | tag hl => simp only [resolve, hl]
    | same hne =>
      unfold resolve
      split
      · exact absurd rfl (hne _ _)
      · rfl

theorem resolve_eq_error_iff : resolve table i = .error e ↔
    ∃ opcode name, i = .addressed opcode (.tag name) ∧ table.lookup name = none ∧
      e = .undefinedTag name := by
  constructor
  · intro h
    unfold resolve at h
    split at h
    · next opcode name =>
      split at h
      · cases h
      · next hl =>
        cases h
        exact ⟨opcode, name, rfl, hl, rfl⟩
    · cases h
  · rintro ⟨opcode, name, rfl, hl, rfl⟩
    simp only [resolve, hl]

theorem packOffset_eq_error_iff {offset : Word} : i.packOffset offset = .error e ↔
    ¬ FitsOffset offset ∧ e = .offsetOutOfRange i offset := by
  unfold Instruction.packOffset
  split <;> simp_all [eq_comm]

/-- An instruction without a tag is refused for its shape or for its offset. -/
theorem encode_eq_error_iff (hj : ∀ opcode name, j ≠ .addressed opcode (.tag name)) :
    j.encode = .error e ↔ (¬ j.WellShaped ∧ e = .unsupported j) ∨
      (j.WellShaped ∧ ∃ offset, j.offset? = some offset ∧ ¬ FitsOffset offset ∧
        e = .offsetOutOfRange j offset) := by
  unfold Instruction.encode
  by_cases hs : j.WellShaped
  · simp only [hs, if_true, not_true_eq_false, false_and, true_and, false_or]
    cases j with
    | addressed opcode target =>
      cases target with
      | tag name => exact absurd rfl (hj _ _)
      | offset offset => simp [packOffset_eq_error_iff, Instruction.offset?]
    | frame opcode offset => simp [packOffset_eq_error_iff, Instruction.offset?]
    | unary _ _ | binary _ _ | nullary _ => simp [Instruction.offset?]
  · simp [hs, eq_comm]

theorem Replaces.ne_tag (h : Replaces table i j) (opcode : Opcode) (name : String) :
    j ≠ .addressed opcode (.tag name) := by
  cases h with
  | tag _ => simp
  | same hne => exact hne opcode name

/-- The flaws of an instruction are the errors in encoding it. -/
theorem flaw_iff : Flaw table i e ↔ resolve table i >>= Instruction.encode = .error e := by
  cases hr : resolve table i with
  | error e' =>
    obtain ⟨opcode, name, rfl, hl, rfl⟩ := resolve_eq_error_iff.mp hr
    constructor
    · intro h
      cases h with
      | undefinedTag _ => rfl
      | unsupported hrep _ | offsetOutOfRange hrep _ _ _ =>
        rw [resolve_eq_ok_iff.mpr hrep] at hr
        cases hr
    · intro h
      cases h
      exact .undefinedTag hl
  | ok j =>
    have hrep := resolve_eq_ok_iff.mp hr
    show _ ↔ j.encode = .error e
    rw [encode_eq_error_iff hrep.ne_tag]
    constructor
    · intro h
      cases h with
      | undefinedTag hl => simp [resolve, hl] at hr
      | unsupported hrep' hs =>
        cases Except.ok.inj (hr.symm.trans (resolve_eq_ok_iff.mpr hrep'))
        exact .inl ⟨hs, rfl⟩
      | offsetOutOfRange hrep' hs ho hf =>
        cases Except.ok.inj (hr.symm.trans (resolve_eq_ok_iff.mpr hrep'))
        exact .inr ⟨hs, _, ho, hf, rfl⟩
    · rintro (⟨hs, rfl⟩ | ⟨hs, offset, ho, hf, rfl⟩)
      · exact .unsupported hrep hs
      · exact .offsetOutOfRange hrep hs ho hf

end

/-! ## Words -/

section
variable {table : TagTable} {l : Listing} {e : AssemblyError} {words : List Word}

theorem firstFlaw_cons {r : Record} : FirstFlaw table (r :: l) e ↔
    (∃ i, r = .instruction i ∧ Flaw table i e) ∨
      ((∀ i, r = .instruction i → ∀ e', ¬ Flaw table i e') ∧ FirstFlaw table l e) := by
  constructor
  · rintro ⟨before, i, after, hl, hflaw, hbefore⟩
    cases before with
    | nil =>
      cases hl
      exact .inl ⟨i, rfl, hflaw⟩
    | cons r' before =>
      cases hl
      exact .inr ⟨fun i' hi' => hbefore i' (hi' ▸ List.mem_cons_self ..), before, i, after, rfl, hflaw,
        fun i' hi' => hbefore i' (List.mem_cons_of_mem _ hi')⟩
  · rintro (⟨i, rfl, hflaw⟩ | ⟨hr, before, i, after, rfl, hflaw, hbefore⟩)
    · exact ⟨[], i, l, rfl, hflaw, fun i' hi' => nomatch hi'⟩
    · refine ⟨r :: before, i, after, rfl, hflaw, fun i' hi' => ?_⟩
      rcases List.mem_cons.mp hi' with h | h
      · exact hr i' h.symm
      · exact hbefore i' h

/-- If some instruction has a flaw, one is the first. -/
theorem exists_firstFlaw_iff :
    (∃ e, FirstFlaw table l e) ↔ ∃ i e, .instruction i ∈ l ∧ Flaw table i e := by
  constructor
  · rintro ⟨e, before, i, after, rfl, hflaw, -⟩
    exact ⟨i, e, List.mem_append_right _ (List.mem_cons_self ..), hflaw⟩
  · rintro ⟨i, e, hi, hflaw⟩
    induction l with
    | nil => cases hi
    | cons r l ih =>
      by_cases hr : ∃ i' e', r = .instruction i' ∧ Flaw table i' e'
      · obtain ⟨i', e', rfl, hflaw'⟩ := hr
        exact ⟨e', firstFlaw_cons.mpr (.inl ⟨i', rfl, hflaw'⟩)⟩
      · have hrest : .instruction i ∈ l :=
          (List.mem_cons.mp hi).resolve_left fun h => hr ⟨i, e, h.symm, hflaw⟩
        obtain ⟨e', hfirst⟩ := ih hrest
        exact ⟨e', firstFlaw_cons.mpr (.inr ⟨fun i' hi' e'' h => hr ⟨i', e'', hi', h⟩, hfirst⟩)⟩

/-- Encoding fails with the flaw of the first instruction that has one. -/
theorem encodeWith_eq_error_iff : encodeWith table l = .error e ↔ FirstFlaw table l e := by
  induction l with
  | nil => simp [encodeWith, FirstFlaw]
  | cons r l ih =>
    rw [firstFlaw_cons, ← ih]
    cases r with
    | tag name => simp [encodeWith]
    | data value =>
      rw [encodeWith]
      cases encodeWith table l <;> simp [Except.map]
    | instruction i =>
      have heq : encodeWith table (.instruction i :: l) =
          (resolve table i >>= Instruction.encode) >>= fun w =>
            encodeWith table l >>= fun ws => pure (w :: ws) := by
        rw [encodeWith, bind_assoc]
      simp only [heq, Record.instruction.injEq, exists_eq_left', forall_eq', flaw_iff]
      cases resolve table i >>= Instruction.encode with
      | error e' => simp [bind, Except.bind]
      | ok w => cases encodeWith table l <;> simp [bind, Except.bind, pure, Except.pure]

/-- Encoding yields the word of each record that is not a tag, in order. -/
theorem forall₂_of_encodeWith (h : encodeWith table l = .ok words) :
    List.Forall₂ (IsWordOf table) (l.filter Record.isWord) words := by
  induction l generalizing words with
  | nil =>
    cases h
    exact .nil
  | cons r l ih =>
    cases r with
    | tag name => exact ih h
    | data value =>
      rw [encodeWith] at h
      cases hws : encodeWith table l with
      | error e =>
        rw [hws] at h
        cases h
      | ok ws =>
        rw [hws] at h
        cases h
        exact .cons rfl (ih hws)
    | instruction i =>
      obtain ⟨w, ws, ⟨j, hj, hw⟩, hws, rfl⟩ := encodeWith_instruction.mp h
      exact .cons ⟨j, resolve_eq_ok_iff.mp hj, Instruction.decode?_encode hw⟩ (ih hws)

end

/-- The tags of a listing can be numbered unless one is defined twice, and the first definition that
repeats an earlier one is then the error, also of assembling. Otherwise assembling fails exactly if
an instruction has a flaw, with that of the first such instruction, and if it does not fail, yields
the words of the records that are not tags, one for each and in order. -/
theorem assemble_correct {l : Listing} (hlength : l.length < 2 ^ 31) :
    ((∃ e, l.tags = .error e) ↔ ∃ name, 2 ≤ l.count (.tag name)) ∧
    (∀ e, l.tags = .error e →
      (∃ name, l.Repeats name ∧ e = .duplicateTag name) ∧ l.assemble = .error e) ∧
    ∀ table, l.tags = .ok table → l.Numbers table ∧
      ((∃ e, l.assemble = .error e) ↔ ∃ i e, .instruction i ∈ l ∧ Flaw table i e) ∧
      (∀ e, l.assemble = .error e → FirstFlaw table l e) ∧
      ∀ words, l.assemble = .ok words →
        List.Forall₂ (IsWordOf table) (l.filter Record.isWord) words := by
  refine ⟨tags_eq_error_iff, fun e h => ⟨repeats_of_tags h, ?_⟩, fun table h => ?_⟩
  · unfold assemble
    rw [h]
    rfl
  · have hassemble : l.assemble = encodeWith table l := by
      unfold assemble
      rw [h]
      rfl
    rw [hassemble, ← exists_firstFlaw_iff]
    exact ⟨numbers_of_tags hlength h, exists_congr fun e => encodeWith_eq_error_iff,
      fun e => encodeWith_eq_error_iff.mp, fun words => forall₂_of_encodeWith⟩

/-- Two jumps around a word, one to a tag that comes later and one to a tag that came before. -/
def jumps : Listing :=
  [.tag "start", .instruction (.addressed .jump (.tag "end")), .data 7, .tag "end",
    .instruction (.addressed .jump (.tag "start"))]

theorem assemble_correct_jumps :
    ∃ table, jumps.tags = .ok table ∧ jumps.Numbers table ∧
      jumps.assemble = .ok [0x42000002, 7, 0x42000000] ∧
      List.Forall₂ (IsWordOf table) (jumps.filter Record.isWord) [0x42000002, 7, 0x42000000] := by
  have htags : jumps.tags = .ok [("start", 0), ("end", 2)] := by cbv
  have hwords : jumps.assemble = .ok [0x42000002, 7, 0x42000000] := by cbv
  obtain ⟨-, -, hok⟩ := assemble_correct (l := jumps) (by decide)
  obtain ⟨hnumbers, -, -, hforall⟩ := hok _ htags
  exact ⟨_, htags, hnumbers, hwords, hforall _ hwords⟩

end Listing

end WordLisp

import WordLisp.Proofs.Reload.Assembly

/-!
# The normal form of a listing

A listing is normal when no load in it stands directly behind the store that makes it redundant.
Dropping redundant loads cuts a listing into blocks, each a record that is kept with the loads behind
it that go, and what is kept is normal. There is only one way to cut a listing so.
-/

namespace WordLisp

/-- A store, and a load of the same register with the same addressing and the same argument. -/
inductive Record.StoreLoad : Record → Record → Prop
  | addressed (register : Register) (base : Base) (indirect : Bool) (target : Target) :
    StoreLoad (.instruction (.addressed (.store register base indirect) target))
      (.instruction (.addressed (.load register base indirect) target))
  | frame (register : Register) (base : Base) (indirect : Bool) (offset : Word) :
    StoreLoad (.instruction (.frame (.store register base indirect) offset))
      (.instruction (.frame (.load register base indirect) offset))

namespace Record

theorem reloads_iff_storeLoad {store load : Record} : store.reloads load ↔ StoreLoad store load := by
  constructor
  · intro h
    unfold Record.reloads at h
    split at h
    · next i j =>
      rw [Instruction.reloads, Bool.and_eq_true, decide_eq_true_iff] at h
      obtain ⟨hplace, hop⟩ := h
      obtain ⟨register, base, indirect, hstore, hload⟩ := Opcode.eq_of_loadFor? hop
      unfold Instruction.samePlace at hplace
      split at hplace
      · obtain rfl := of_decide_eq_true hplace
        cases hstore
        cases hload
        exact .addressed ..
      · obtain rfl := of_decide_eq_true hplace
        cases hstore
        cases hload
        exact .frame ..
      · cases hplace
    · cases h
  · rintro (_ | _) <;> simp [reloads, Instruction.reloads, Instruction.samePlace, Instruction.opcode,
      Opcode.loadFor?]

instance (store load : Record) : Decidable (StoreLoad store load) :=
  decidable_of_iff _ reloads_iff_storeLoad

def isLoad : Record → Bool
  | .instruction i =>
    match i.opcode with
    | .load .. => true
    | _ => false
  | .tag _ | .data _ => false

theorem StoreLoad.isLoad {store load : Record} (h : StoreLoad store load) : load.isLoad := by
  cases h <;> rfl

end Record

namespace Listing

/-- No load stands directly behind a store that makes it redundant. -/
def IsNormal (l : Listing) : Prop := l.IsChain fun store load => ¬ store.StoreLoad load

instance : DecidablePred IsNormal := fun l =>
  inferInstanceAs (Decidable (l.IsChain fun store load => ¬ store.StoreLoad load))

/-- A record that is kept, and the loads behind it that go. -/
structure Block where
  kept : Record
  dropped : Listing
  storeLoad : ∀ load ∈ dropped, kept.StoreLoad load

def Block.records (block : Block) : Listing := block.kept :: block.dropped

/-- Nothing of a single record goes. -/
def Block.single (record : Record) : Block := ⟨record, [], by simp⟩

/-! ## What is kept and what goes -/

/-- Each record is held against the last one kept, which is the head of the block that it falls in. -/
theorem exists_blocks_after (last : Record) (l : Listing) :
    ∃ (block : Block) (blocks : List Block), block.kept = last ∧
      last :: l = block.records ++ blocks.flatMap Block.records ∧
      dropReloadsAfter last l = blocks.map Block.kept := by
  induction l generalizing last with
  | nil => exact ⟨.single last, [], rfl, rfl, rfl⟩
  | cons record l ih =>
    rw [dropReloadsAfter]
    split
    · next hr =>
      obtain ⟨⟨_, loads, hloads⟩, blocks, rfl, hl, hkept⟩ := ih last
      have hall := List.forall_mem_cons.mpr ⟨Record.reloads_iff_storeLoad.mp hr, hloads⟩
      refine ⟨⟨_, record :: loads, hall⟩, blocks, rfl, ?_, hkept⟩
      exact congrArg (_ :: record :: ·) (List.cons.inj hl).2
    · obtain ⟨block, blocks, rfl, hl, hkept⟩ := ih record
      refine ⟨.single last, block :: blocks, rfl, congrArg (last :: ·) hl, ?_⟩
      rw [hkept, List.map_cons]

theorem exists_blocks (l : Listing) :
    ∃ blocks : List Block, l = blocks.flatMap Block.records ∧ l.dropReloads = blocks.map Block.kept := by
  cases l with
  | nil => exact ⟨[], rfl, rfl⟩
  | cons record l =>
    obtain ⟨block, blocks, rfl, hl, hkept⟩ := exists_blocks_after record l
    refine ⟨block :: blocks, hl, ?_⟩
    rw [dropReloads, hkept, List.map_cons]

theorem isNormal_dropReloadsAfter (last : Record) (l : Listing) :
    IsNormal (last :: dropReloadsAfter last l) := by
  induction l generalizing last with
  | nil => exact .singleton last
  | cons record l ih =>
    rw [dropReloadsAfter]
    split
    · exact ih last
    · next hr =>
      exact List.isChain_cons_cons.mpr ⟨fun h => hr (Record.reloads_iff_storeLoad.mpr h), ih record⟩

theorem isNormal_dropReloads (l : Listing) : l.dropReloads.IsNormal := by
  cases l with
  | nil => exact .nil
  | cons record l => exact isNormal_dropReloadsAfter record l

theorem Block.filter_records (block : Block) :
    (block.records.filter fun record => !record.isLoad) =
      [block.kept].filter fun record => !record.isLoad := by
  have hdropped : (block.dropped.filter fun record => !record.isLoad) = [] := by
    rw [List.filter_eq_nil_iff]
    intro load hload
    simp [(block.storeLoad load hload).isLoad]
  rw [Block.records, List.filter_cons, List.filter_cons, hdropped, List.filter_nil]

theorem filter_dropReloads (l : Listing) :
    (l.dropReloads.filter fun record => !record.isLoad) = l.filter fun record => !record.isLoad := by
  obtain ⟨blocks, rfl, hkept⟩ := exists_blocks l
  rw [hkept, List.filter_flatMap, List.map_eq_flatMap, List.filter_flatMap]
  simp only [Block.filter_records]

/-! ## Only one way -/

theorem dropReloadsAfter_append_of_storeLoad {last : Record} {loads : Listing}
    (h : ∀ load ∈ loads, last.StoreLoad load) (l : Listing) :
    dropReloadsAfter last (loads ++ l) = dropReloadsAfter last l := by
  induction loads with
  | nil => rfl
  | cons load loads ih =>
    obtain ⟨hload, h⟩ := List.forall_mem_cons.mp h
    rw [List.cons_append, dropReloadsAfter, if_pos (Record.reloads_iff_storeLoad.mpr hload), ih h]

theorem dropReloadsAfter_blocks {last : Record} {blocks : List Block}
    (h : IsNormal (last :: blocks.map Block.kept)) :
    dropReloadsAfter last (blocks.flatMap Block.records) = blocks.map Block.kept := by
  induction blocks generalizing last with
  | nil => rfl
  | cons block blocks ih =>
    obtain ⟨hpair, h⟩ := List.isChain_cons_cons.mp h
    have hkeep : ¬ last.reloads block.kept := fun hr => hpair (Record.reloads_iff_storeLoad.mp hr)
    rw [List.flatMap_cons, Block.records, List.cons_append, dropReloadsAfter, if_neg hkeep,
      dropReloadsAfter_append_of_storeLoad block.storeLoad, ih h, List.map_cons]

/-- However a listing is cut into blocks, what they keep is what is kept of the listing if it is
normal. -/
theorem dropReloads_blocks {blocks : List Block} (h : IsNormal (blocks.map Block.kept)) :
    dropReloads (blocks.flatMap Block.records) = blocks.map Block.kept := by
  cases blocks with
  | nil => rfl
  | cons block blocks =>
    rw [List.flatMap_cons, Block.records, List.cons_append, dropReloads,
      dropReloadsAfter_append_of_storeLoad block.storeLoad, dropReloadsAfter_blocks h, List.map_cons]

/-- Every record of a normal listing is a block of its own. -/
theorem dropReloads_of_isNormal {l : Listing} (h : l.IsNormal) : l.dropReloads = l := by
  have hkept : (l.map Block.single).map Block.kept = l := by
    rw [List.map_map]
    exact List.map_id l
  have hrecords : (l.map Block.single).flatMap Block.records = l := by
    rw [List.flatMap_map]
    exact List.flatMap_singleton' l
  have := dropReloads_blocks (hkept.symm ▸ h)
  rwa [hkept, hrecords] at this

/-- Dropping redundant loads gives the normal form of a listing. -/
theorem dropReloads_normalizes (l : Listing) :
    l.dropReloads.Sublist l ∧
      ((l.dropReloads.filter fun record => !record.isLoad) = l.filter fun record => !record.isLoad) ∧
      (∃ blocks : List Block,
        l = blocks.flatMap Block.records ∧ l.dropReloads = blocks.map Block.kept) ∧
      l.dropReloads.IsNormal ∧
      l.dropReloads.dropReloads = l.dropReloads ∧
      (l.dropReloads = l ↔ l.IsNormal) := by
  have hnormal := isNormal_dropReloads l
  refine ⟨dropReloads_sublist l, filter_dropReloads l, exists_blocks l, hnormal,
    dropReloads_of_isNormal hnormal, fun h => ?_, dropReloads_of_isNormal⟩
  rwa [h] at hnormal

end Listing

end WordLisp

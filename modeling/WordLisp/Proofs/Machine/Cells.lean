import Mathlib
import WordLisp.Machine.Memory

/-!
# Cells by their place

`cellAddress i` is the address of cell `i`, counted from the base of the program, so the stack
begins at cell `programCapacity`. `m.roof` is the first place past the stack of `m`: the end of
the memory seen as a place, which need not be the number of cells once addresses no longer fit
a word. Accesses are computed on places here, and addresses are not looked at again.
-/

namespace WordLisp

theorem ofNat_inj {i j : Nat} (hi : i < 2 ^ 31) (hj : j < 2 ^ 31)
    (h : Int32.ofNat i = Int32.ofNat j) : i = j := by
  have := congrArg Int32.toInt h
  rw [Int32.toInt_ofNat_of_lt hi, Int32.toInt_ofNat_of_lt hj] at this
  omega

/-- The address of cell `i`. -/
def cellAddress (i : Nat) : Word := programBase + Int32.ofNat i

/-- The places whose addresses do not wrap. -/
def placeBound : Nat := 2 ^ 31 - 2 ^ 23

theorem toInt_programBase : programBase.toInt = 2 ^ 23 := by decide

theorem toInt_cellAddress {i : Nat} (h : i < placeBound) : (cellAddress i).toInt = 2 ^ 23 + i := by
  unfold placeBound at h
  unfold cellAddress
  rw [Int32.toInt_add, toInt_programBase, Int32.toInt_ofNat_of_lt (by omega)]
  exact Int.bmod_eq_of_le (by omega) (by omega)

theorem cellAddress_add (i j : Nat) : cellAddress (i + j) = cellAddress i + Int32.ofNat j := by
  unfold cellAddress
  rw [Int32.ofNat_add, Int32.add_assoc]

theorem cellAddress_succ (i : Nat) : cellAddress (i + 1) = cellAddress i + 1 := cellAddress_add i 1

theorem cellAddress_sub_one {i : Nat} (h : 0 < i) : cellAddress i - 1 = cellAddress (i - 1) := by
  obtain ⟨j, rfl⟩ : ∃ j, i = j + 1 := ⟨i - 1, by omega⟩
  rw [cellAddress_succ, Int32.add_sub_cancel, Nat.add_sub_cancel]

theorem cellAddress_inj {i j : Nat} (hi : i < placeBound) (hj : j < placeBound)
    (h : cellAddress i = cellAddress j) : i = j := by
  have := congrArg Int32.toInt h
  rw [toInt_cellAddress hi, toInt_cellAddress hj] at this
  omega

/-- An offset of a frame reaches the place that it counts to. -/
theorem cellAddress_add_offset {b i : Nat} {offset : Word} (h : (b : Int) + offset.toInt = i) :
    cellAddress b + offset = cellAddress i := by
  apply Int32.toInt.inj
  unfold cellAddress
  simp only [Int32.toInt_add, Int32.toInt_ofNat', toInt_programBase, Int32.size]
  rw [← h]
  simp only [Int.bmod_add_bmod, Int.add_bmod_bmod]
  norm_num [Int.add_assoc]

/-- The addresses that the device answers for. -/
def IsDeviceAddress (address : Word) : Prop := 0 ≤ address ∧ address < programBase

instance (address : Word) : Decidable (IsDeviceAddress address) :=
  inferInstanceAs (Decidable (_ ∧ _))

namespace Memory

@[simp] theorem index_cellAddress {i : Nat} (h : i < placeBound) : index (cellAddress i) = i := by
  unfold index
  rw [← Int32.toNat_toInt, Int32.toInt_sub, toInt_cellAddress h, toInt_programBase]
  unfold placeBound at h
  rw [Int.bmod_eq_of_le (by omega) (by omega)]
  omega

/-- The content of cell `i`. -/
def cell (m : Memory D) (i : Nat) : Word := m.ram.getD i 0

/-- The memory with another content of cell `i`. -/
def setCell (m : Memory D) (i : Nat) (value : Word) : Memory D :=
  { m with
    ram := m.ram.setIfInBounds i value
    capacity_le := by have := m.capacity_le; simpa }

/-- The memory with another device. -/
def withDevice (m : Memory D) (device : D) : Memory D := { m with device }

/-- The first place past the stack. -/
def roof (m : Memory D) : Int := m.limit.toInt - 2 ^ 23

theorem toInt_limit (m : Memory D) : m.limit.toInt = 2 ^ 23 + m.roof := by
  unfold roof; omega

theorem roof_lt (m : Memory D) : m.roof < placeBound := by
  have := m.limit.toInt_lt
  unfold roof placeBound
  omega

/-- The end of the memory lies past no cell that does not exist. -/
theorem roof_le (m : Memory D) : m.roof ≤ m.ram.size := by
  unfold roof limit
  rw [Int32.toInt_add, toInt_programBase, Int32.toInt_ofNat']
  simp only [Int.bmod_def, Int32.size]
  split <;> split <;> omega

/-- As long as all cells have addresses, the end of the memory is their number. -/
theorem roof_eq {m : Memory D} (h : m.ram.size < placeBound) : m.roof = m.ram.size := by
  unfold placeBound at h
  unfold roof limit
  rw [Int32.toInt_add, toInt_programBase, Int32.toInt_ofNat_of_lt (by omega),
    Int.bmod_eq_of_le (by omega) (by omega)]
  omega

@[simp] theorem roof_setCell (m : Memory D) (i : Nat) (v : Word) : (m.setCell i v).roof = m.roof := by
  simp [roof, limit, setCell]

@[simp] theorem device_setCell (m : Memory D) (i : Nat) (v : Word) :
    (m.setCell i v).device = m.device := rfl

@[simp] theorem roof_withDevice (m : Memory D) (d : D) : (m.withDevice d).roof = m.roof := rfl

@[simp] theorem device_withDevice (m : Memory D) (d : D) : (m.withDevice d).device = d := rfl

@[simp] theorem cell_withDevice (m : Memory D) (d : D) (i : Nat) :
    (m.withDevice d).cell i = m.cell i := rfl

/-- Cell `i` can be read and written. -/
def InReach (m : Memory D) (i : Nat) : Prop := i < programCapacity ∨ (i : Int) < m.roof

@[simp] theorem inReach_setCell {m : Memory D} {i k : Nat} {v : Word} :
    (m.setCell k v).InReach i ↔ m.InReach i := by
  unfold InReach
  rw [roof_setCell]

theorem InReach.lt_size {m : Memory D} {i : Nat} (h : m.InReach i) : i < m.ram.size := by
  have := m.roof_le
  have := m.capacity_le
  rcases h with h | h <;> omega

theorem InReach.lt_placeBound {m : Memory D} {i : Nat} (h : m.InReach i) : i < placeBound := by
  have := m.roof_lt
  rcases h with h | h
  · unfold programCapacity at h; unfold placeBound; omega
  · omega

theorem cell_setCell_self {m : Memory D} {i : Nat} (h : m.InReach i) (v : Word) :
    (m.setCell i v).cell i = v := by
  simp [cell, setCell, h.lt_size]

theorem cell_setCell_of_ne {i j : Nat} (h : i ≠ j) (m : Memory D) (v : Word) :
    (m.setCell i v).cell j = m.cell j := by
  simp [cell, setCell, h]

/-! ## Regions -/

theorem toInt_stackBase : stackBase.toInt = 2 ^ 23 + 2 ^ 16 := by decide

theorem region_of_inReach {m : Memory D} {i : Nat} (h : m.InReach i) :
    ∃ region, Region.of? (cellAddress i) m.limit = some region ∧ region ≠ .device := by
  have hi := toInt_cellAddress h.lt_placeBound
  have hm := m.toInt_limit
  unfold Region.of?
  simp only [Int32.lt_iff_toInt_lt, hi, hm, toInt_programBase, toInt_stackBase, Int32.toInt_zero]
  unfold InReach programCapacity at h
  rw [if_neg (by omega), if_neg (by omega)]
  split
  · exact ⟨.program, rfl, by decide⟩
  · rw [if_pos (by omega)]
    exact ⟨.stack, rfl, by decide⟩

theorem region_of_roof_le {m : Memory D} {i : Nat} (hs : programCapacity ≤ i) (h : m.roof ≤ i)
    (hi : i < placeBound) : Region.of? (cellAddress i) m.limit = none := by
  have ha := toInt_cellAddress hi
  have hm := m.toInt_limit
  unfold Region.of?
  simp only [Int32.lt_iff_toInt_lt, ha, hm, toInt_programBase, toInt_stackBase, Int32.toInt_zero]
  unfold programCapacity at hs
  rw [if_neg (by omega), if_neg (by omega), if_neg (by omega), if_neg (by omega)]

theorem region_of_isDeviceAddress {address : Word} (h : IsDeviceAddress address) (limit : Word) :
    Region.of? address limit = some .device := by
  obtain ⟨h0, hb⟩ := h
  unfold Region.of?
  rw [if_neg (by rw [Int32.lt_iff_toInt_lt]; rw [Int32.le_iff_toInt_le] at h0; omega), if_pos hb]

/-! ## Accesses -/

section
variable [Device D]

theorem read_cell {m : Memory D} {i : Nat} (h : m.InReach i) :
    read (cellAddress i) m = .ok (m.cell i) m := by
  obtain ⟨region, hr, hne⟩ := region_of_inReach h
  unfold read cell
  rw [hr, index_cellAddress h.lt_placeBound]
  cases region with
  | device => exact absurd rfl hne
  | program => rfl
  | stack => rfl

theorem write_cell {m : Memory D} {i : Nat} (h : m.InReach i) (v : Word) :
    write (cellAddress i) v m = .ok () (m.setCell i v) := by
  obtain ⟨region, hr, hne⟩ := region_of_inReach h
  unfold write setCell
  rw [hr]
  cases region with
  | device => exact absurd rfl hne
  | program => simp only [index_cellAddress h.lt_placeBound]
  | stack => simp only [index_cellAddress h.lt_placeBound]

theorem write_out {m : Memory D} {i : Nat} (hs : programCapacity ≤ i) (h : m.roof ≤ i)
    (hi : i < placeBound) (v : Word) :
    write (cellAddress i) v m = .error (.outOfBounds (cellAddress i)) m := by
  unfold write
  rw [region_of_roof_le hs h hi]

theorem read_device {address : Word} (h : IsDeviceAddress address) (m : Memory D) :
    read address m = .ok (Device.read address m.device).1
      (m.withDevice (Device.read address m.device).2) := by
  unfold read
  rw [region_of_isDeviceAddress h]
  rfl

theorem write_device {address : Word} (h : IsDeviceAddress address) (v : Word) (m : Memory D) :
    write address v m = .ok () (m.withDevice (Device.write address v m.device)) := by
  unfold write
  rw [region_of_isDeviceAddress h]
  rfl

end

theorem peek?_cell {m : Memory D} {i : Nat} (h : (i : Int) < m.roof) :
    m.peek? (cellAddress i) = some (m.cell i) := by
  have hle := m.roof_le
  have hlt := m.roof_lt
  have hi := toInt_cellAddress (i := i) (by omega)
  have hb := toInt_programBase
  have hl := m.toInt_limit
  unfold peek?
  rw [if_pos ⟨Int32.le_iff_toInt_le.mpr (by omega), Int32.lt_iff_toInt_lt.mpr (by omega)⟩,
    index_cellAddress (by omega)]
  unfold cell
  rw [Array.getD_eq_getD_getElem?, Array.getElem?_eq_getElem (show i < m.ram.size by omega)]
  rfl

/-! ## A fresh memory and a loaded one -/

theorem roof_new (device : D) {n : Nat} (h : n + 2 ^ 16 < placeBound) :
    (new device n).roof = 2 ^ 16 + n := by
  have hsize : (new device n).ram.size = 2 ^ 16 + n := Array.size_replicate
  rw [roof_eq (by omega), hsize]
  push_cast
  rfl

/-- What a load leaves: the words of the program, then zeros. -/
theorem load_eq (words : List Word) (h : words.length ≤ programCapacity) (m : Memory D) :
    ∃ m' : Memory D, load words m = .ok () m' ∧ m'.roof = m.roof ∧ m'.device = m.device ∧
      ∀ i, m'.cell i = words.getD i 0 := by
  unfold load
  rw [if_pos h]
  refine ⟨_, rfl, ?_, rfl, ?_⟩
  · have := m.capacity_le
    simp only [roof, limit, Array.size_append, List.size_toArray, Array.size_replicate]
    rw [Nat.add_sub_cancel' (by omega)]
  · intro i
    simp only [cell, Array.getD_eq_getD_getElem?, Array.getElem?_append, List.size_toArray,
      List.getElem?_toArray, Array.getElem?_replicate, List.getD_eq_getElem?_getD]
    split
    · rfl
    · rw [List.getElem?_eq_none (by omega)]
      split <;> rfl

end Memory

end WordLisp

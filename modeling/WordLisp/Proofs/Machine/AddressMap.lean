import WordLisp.Machine.Terminal
import WordLisp.Proofs.History
import WordLisp.Proofs.Machine.Headroom
import WordLisp.Proofs.Results

/-!
# Memory as a map

A memory of which all addresses fit a word works as a map from addresses to words with a device below
it. `content history` is the map that a history of loads, reads and writes leaves: at each address the
last word that was put there, where a load puts a word at every address.

Main statement: after any history the memory answers by that map, and fails for the addresses outside
and for the programs that are too long, with nothing changed. Three parts of the memory tell addresses
apart, namely the regions, `peek?` and the places among the cells, and here they are shown to agree.
-/

namespace WordLisp.Memory

/-! ## Histories of a memory -/

/-- What can be asked of a memory. -/
inductive Operation where
  | load (words : List Word)
  | read (address : Word)
  | write (address value : Word)

/-- The place of an address in a program that is loaded. -/
def offsetOf (address : Word) : Nat := (address.toInt - programBase.toInt).toNat

/-- The word that an operation puts at the address of a cell. A program that fits puts one everywhere,
zeros after its own words. -/
def Operation.puts? (address : Word) : Operation → Option Word
  | .load words =>
    if words.length ≤ programCapacity then some (words.getD (offsetOf address) 0) else none
  | .read _ => none
  | .write target value => if target = address then some value else none

/-- The last word that was put at the address of a cell, and zero where none was. -/
def content (history : List Operation) (address : Word) : Word :=
  (latest (Operation.puts? address) history).getD 0

section
variable [Device D]

/-- What an operation does to the device. -/
def Operation.forward (device : D) : Operation → D
  | .load _ => device
  | .read address => if IsDeviceAddress address then (Device.read address device).2 else device
  | .write address value =>
    if IsDeviceAddress address then Device.write address value device else device

/-- The memory that an operation leaves, also one that fails. -/
def Operation.next (m : Memory D) : Operation → Memory D
  | .load words => leftBy (Memory.load words m)
  | .read address => leftBy (Memory.read address m)
  | .write address value => leftBy (Memory.write address value m)

/-- The memory after a history. -/
def after (m : Memory D) (history : List Operation) : Memory D := history.foldl Operation.next m

/-! ## Failures -/

variable {m : Memory D} {address value : Word} {fault : Fault}

theorem read_eq_error_iff {m' : Memory D} : read address m = .error fault m' ↔
    Region.of? address m.limit = none ∧ fault = .outOfBounds address ∧ m' = m := by
  unfold read
  cases Region.of? address m.limit with
  | none =>
    constructor
    · intro h
      cases h
      exact ⟨rfl, rfl, rfl⟩
    · rintro ⟨-, rfl, rfl⟩
      rfl
  | some region => cases region <;> simp

theorem write_eq_error_iff {m' : Memory D} : write address value m = .error fault m' ↔
    Region.of? address m.limit = none ∧ fault = .outOfBounds address ∧ m' = m := by
  unfold write
  cases Region.of? address m.limit with
  | none =>
    constructor
    · intro h
      cases h
      exact ⟨rfl, rfl, rfl⟩
    · rintro ⟨-, rfl, rfl⟩
      rfl
  | some region => cases region <;> simp

omit [Device D] in
theorem load_eq_error_iff {words : List Word} {m' : Memory D} : load words m = .error fault m' ↔
    programCapacity < words.length ∧ fault = .programTooLarge words.length ∧ m' = m := by
  unfold load
  split
  · next hle =>
    constructor
    · intro h
      cases h
    · rintro ⟨hgt, -⟩
      omega
  · next hgt =>
    constructor
    · intro h
      cases h
      exact ⟨by omega, rfl, rfl⟩
    · rintro ⟨-, rfl, rfl⟩
      rfl

/-- The addresses of no region are the negative ones and those from the end of the memory on. -/
theorem region_eq_none_iff {limit : Word} (h : stackBase ≤ limit) :
    Region.of? address limit = none ↔ address < 0 ∨ limit ≤ address := by
  rw [Int32.le_iff_toInt_le, toInt_stackBase] at h
  unfold Region.of?
  simp only [Int32.lt_iff_toInt_lt, Int32.le_iff_toInt_le, toInt_programBase, toInt_stackBase,
    Int32.toInt_zero]
  split
  · simp only [true_iff]
    omega
  · split
    · simp only [reduceCtorEq, false_iff]
      omega
    · split
      · simp only [reduceCtorEq, false_iff]
        omega
      · split
        · simp only [reduceCtorEq, false_iff]
          omega
        · simp only [true_iff]
          omega

end

/-! ## The map and the cells -/

theorem offsetOf_cellAddress {i : Nat} (h : i < placeBound) : offsetOf (cellAddress i) = i := by
  unfold offsetOf
  rw [toInt_cellAddress h, toInt_programBase]
  omega

theorem content_concat_of_none {operation : Operation} {address : Word}
    (h : operation.puts? address = none) (history : List Operation) :
    content (history ++ [operation]) address = content history address := by
  unfold content
  rw [latest_concat_of_none h]

theorem content_concat_of_some {operation : Operation} {address value : Word}
    (h : operation.puts? address = some value) (history : List Operation) :
    content (history ++ [operation]) address = value := by
  unfold content
  rw [latest_concat_of_some h]
  rfl

theorem content_write_self (history : List Operation) (address value : Word) :
    content (history ++ [.write address value]) address = value := by
  apply content_concat_of_some
  exact if_pos rfl

theorem content_write_of_ne {target address : Word} (h : target ≠ address) (history : List Operation)
    (value : Word) : content (history ++ [.write target value]) address = content history address := by
  apply content_concat_of_none
  exact if_neg h

theorem not_isDeviceAddress_cellAddress {i : Nat} (h : i < placeBound) :
    ¬ IsDeviceAddress (cellAddress i) := by
  rintro ⟨-, hlt⟩
  rw [Int32.lt_iff_toInt_lt, toInt_cellAddress h, toInt_programBase] at hlt
  omega

theorem inReach_of_lt_size {m : Memory D} {i : Nat} (hend : m.ram.size < placeBound)
    (hi : i < m.ram.size) : m.InReach i :=
  .inr (by rw [roof_eq hend]; omega)

/-- An address is that of a cell, or one of the device, or that of nothing. -/
theorem region_cases (m : Memory D) (address : Word) :
    (∃ i, m.InReach i ∧ address = cellAddress i) ∨ IsDeviceAddress address ∨
      ¬ IsDeviceAddress address ∧ Region.of? address m.limit = none := by
  rcases address_cases address with hneg | hdevice | ⟨i, hi, rfl⟩
  · exact .inr (.inr ⟨fun hdevice => Int32.not_lt.mpr hdevice.1 hneg, region_of_neg hneg _⟩)
  · exact .inr (.inl hdevice)
  · by_cases hin : m.InReach i
    · exact .inl ⟨i, hin, rfl⟩
    · exact .inr (.inr ⟨not_isDeviceAddress_cellAddress hi, region_of_not_inReach hin hi⟩)

/-- The memory with `stackWords` cells of stack, and with the device and the cells that a history
leaves when it begins with `device`. -/
structure Follows [Device D] (m : Memory D) (device : D) (stackWords : Nat)
    (history : List Operation) : Prop where
  size : m.ram.size = programCapacity + stackWords
  device : m.device = history.foldl Operation.forward device
  cells : ∀ i < m.ram.size, m.cell i = content history (cellAddress i)

namespace Follows

variable [Device D] {m : Memory D} {device : D} {stackWords : Nat} {history : List Operation}

theorem new (device : D) (stackWords : Nat) : (Memory.new device stackWords).Follows device stackWords [] := by
  refine ⟨Array.size_replicate, rfl, fun i hi => ?_⟩
  simp only [cell, Memory.new, Array.getD_eq_getD_getElem?, Array.getElem?_replicate] at hi ⊢
  split <;> rfl

section
variable (h : m.Follows device stackWords history) {operation : Operation}
include h

/-- An operation that puts no word anywhere leaves all cells. -/
theorem keep {m' : Memory D} (hram : m'.ram = m.ram) (hdevice : m'.device = operation.forward m.device)
    (hputs : ∀ i < m.ram.size, operation.puts? (cellAddress i) = none) :
    m'.Follows device stackWords (history ++ [operation]) := by
  refine ⟨hram ▸ h.size, ?_, fun i hi => ?_⟩
  · rw [hdevice, h.device, List.foldl_append]
    rfl
  · rw [hram] at hi
    rw [content_concat_of_none (hputs i hi), ← h.cells i hi]
    unfold cell
    rw [hram]

theorem load (words : List Word) (hend : m.ram.size < placeBound) :
    (leftBy (Memory.load words m)).Follows device stackWords (history ++ [.load words]) := by
  by_cases hle : words.length ≤ programCapacity
  · obtain ⟨m', hload, -, hdevice, hcell⟩ := load_eq words hle m
    have hsize := size_of_load hload
    rw [hload]
    show m'.Follows _ _ _
    refine ⟨hsize ▸ h.size, ?_, fun i hi => ?_⟩
    · rw [hdevice, h.device, List.foldl_append]
      rfl
    · have hputs : (Operation.load words).puts? (cellAddress i) = some (words.getD i 0) := by
        rw [Operation.puts?, if_pos hle, offsetOf_cellAddress (by omega)]
      rw [content_concat_of_some hputs, hcell]
  · have hfail : Memory.load words m = .error (.programTooLarge words.length) m :=
      load_eq_error_iff.mpr ⟨by omega, rfl, rfl⟩
    rw [hfail]
    exact h.keep rfl rfl fun i _ => if_neg hle

theorem read (address : Word) :
    (leftBy (Memory.read address m)).Follows device stackWords (history ++ [.read address]) := by
  have hputs : ∀ i < m.ram.size, (Operation.read address).puts? (cellAddress i) = none := fun _ _ => rfl
  rcases m.region_cases address with ⟨i, hin, rfl⟩ | hdevice | ⟨hother, hnone⟩
  · rw [read_cell hin]
    exact h.keep rfl (if_neg (not_isDeviceAddress_cellAddress hin.lt_placeBound)).symm hputs
  · rw [read_device hdevice]
    exact h.keep rfl (if_pos hdevice).symm hputs
  · rw [read_eq_error_iff.mpr ⟨hnone, rfl, rfl⟩]
    exact h.keep rfl (if_neg hother).symm hputs

theorem write (address value : Word) (hend : m.ram.size < placeBound) :
    (leftBy (Memory.write address value m)).Follows device stackWords
      (history ++ [.write address value]) := by
  rcases m.region_cases address with ⟨i, hin, rfl⟩ | hdevice | ⟨hother, hnone⟩
  · rw [write_cell hin]
    show (m.setCell i value).Follows _ _ _
    have hsize : (m.setCell i value).ram.size = m.ram.size := Array.size_setIfInBounds
    refine ⟨hsize ▸ h.size, ?_, fun k hk => ?_⟩
    · rw [device_setCell, h.device, List.foldl_append]
      exact (if_neg (not_isDeviceAddress_cellAddress hin.lt_placeBound)).symm
    · rw [hsize] at hk
      by_cases hik : i = k
      · subst hik
        rw [cell_setCell_self hin, content_write_self]
      · have hne : cellAddress i ≠ cellAddress k := fun he =>
          hik (cellAddress_inj hin.lt_placeBound (by omega) he)
        rw [cell_setCell_of_ne hik, content_write_of_ne hne, h.cells k hk]
  · rw [write_device hdevice]
    refine h.keep rfl (if_pos hdevice).symm fun k hk => if_neg ?_
    rintro rfl
    exact not_isDeviceAddress_cellAddress (by omega) hdevice
  · rw [write_eq_error_iff.mpr ⟨hnone, rfl, rfl⟩]
    refine h.keep rfl (if_neg hother).symm fun k hk => if_neg ?_
    rintro rfl
    -- An address that cannot be written is not that of a cell.
    obtain ⟨region, hregion, -⟩ := region_of_inReach (inReach_of_lt_size hend hk)
    rw [hregion] at hnone
    cases hnone

/-- What one operation does to the memory, it does to the map. -/
theorem next (operation : Operation) (hend : m.ram.size < placeBound) :
    (operation.next m).Follows device stackWords (history ++ [operation]) := by
  cases operation with
  | load words => exact h.load words hend
  | read address => exact h.read address
  | write address value => exact h.write address value hend

end

/-- The memory and the map go together through any history. -/
theorem after (device : D) {stackWords : Nat} (hend : programCapacity + stackWords < placeBound)
    (history : List Operation) :
    ((Memory.new device stackWords).after history).Follows device stackWords history :=
  foldl_invariant (P := fun m history => Follows m device stackWords history) (new device stackWords)
    (fun _ _ operation h => h.next operation (by rw [h.size]; exact hend)) history

end Follows

/-! ## Answers -/

/-- The memory with `stackWords` cells of stack answers, after a history that began with `device`, as
the map that the history leaves. -/
structure Answers [Device D] (m : Memory D) (device : D) (stackWords : Nat)
    (history : List Operation) : Prop where
  /-- The end of the memory stays where it was. -/
  limit : m.limit.toInt = programBase.toInt + (programCapacity + stackWords)
  /-- The device has been through the accesses to its addresses and through nothing else. -/
  device : m.device = history.foldl Operation.forward device
  read_fails : ∀ address fault m', read address m = .error fault m' ↔
    (address < 0 ∨ m.limit ≤ address) ∧ fault = .outOfBounds address ∧ m' = m
  write_fails : ∀ address value fault m', write address value m = .error fault m' ↔
    (address < 0 ∨ m.limit ≤ address) ∧ fault = .outOfBounds address ∧ m' = m
  read_device : ∀ address, IsDeviceAddress address → read address m =
    .ok (Device.read address m.device).1 (m.withDevice (Device.read address m.device).2)
  write_device : ∀ address value, IsDeviceAddress address → write address value m =
    .ok () (m.withDevice (Device.write address value m.device))
  read_cell : ∀ address, programBase ≤ address → address < m.limit →
    read address m = .ok (content history address) m ∧
      m.peek? address = some (content history address)
  /-- What a write changes among the cells is what the longer history says. -/
  write_cell : ∀ address value, programBase ≤ address → address < m.limit →
    ∃ m', write address value m = .ok () m' ∧ m'.device = m.device
  /-- Only cells can be looked at without the device. -/
  peek_other : ∀ address, address < programBase ∨ m.limit ≤ address → m.peek? address = none
  load_fails : ∀ words fault m', load words m = .error fault m' ↔
    programCapacity < words.length ∧ fault = .programTooLarge words.length ∧ m' = m
  /-- A load forgets all that was written. -/
  load_erases : ∀ words m', load words m = .ok () m' → m'.device = m.device ∧
    ∀ address, programBase ≤ address → address < m'.limit →
      m'.peek? address = some (words.getD (offsetOf address) 0)

section
variable {m : Memory D} {address : Word} {i : Nat}

/-- A cell below the end is found at its place. -/
theorem exists_place_lt_size (hend : m.ram.size < placeBound) (hbase : programBase ≤ address)
    (hlt : address < m.limit) : ∃ i < m.ram.size, address = cellAddress i := by
  obtain ⟨i, hi, rfl⟩ := exists_place hbase
  have hroof := (lt_limit_iff hi).mp hlt
  rw [roof_eq hend] at hroof
  exact ⟨i, by omega, rfl⟩

theorem peek?_of_lt_size (hend : m.ram.size < placeBound) (hi : i < m.ram.size) :
    m.peek? (cellAddress i) = some (m.cell i) :=
  peek?_cell (by rw [roof_eq hend]; omega)

theorem peek?_other (h : address < programBase ∨ m.limit ≤ address) : m.peek? address = none := by
  refine if_neg fun ⟨hbase, hlt⟩ => ?_
  rcases h with h | h
  · exact Int32.not_le.mpr h hbase
  · exact Int32.not_le.mpr hlt h

theorem peek?_of_load {words : List Word} {m' : Memory D} (hend : m.ram.size < placeBound)
    (hload : load words m = .ok () m') (hbase : programBase ≤ address) (hlt : address < m'.limit) :
    m'.peek? address = some (words.getD (offsetOf address) 0) := by
  have hsize := size_of_load hload
  obtain ⟨i, hi, rfl⟩ := exists_place_lt_size (by omega) hbase hlt
  have hfits : words.length ≤ programCapacity := by
    by_contra hgt
    rw [load_eq_error_iff.mpr ⟨Nat.lt_of_not_le hgt, rfl, rfl⟩] at hload
    cases hload
  obtain ⟨m₁, hload₁, -, -, hcell⟩ := load_eq words hfits m
  rw [hload] at hload₁
  cases hload₁
  rw [peek?_of_lt_size (by omega) hi, hcell, offsetOf_cellAddress (by omega)]

theorem device_of_load {words : List Word} {m' : Memory D} (hload : load words m = .ok () m') :
    m'.device = m.device := by
  unfold load at hload
  split at hload
  · cases hload
    rfl
  · cases hload

end

end WordLisp.Memory

namespace WordLisp

open Memory

/-- After any history of loads, reads and writes, a memory whose end is a word answers by the map that
the history leaves. -/
theorem memory_answers [Device D] (device : D) {stackWords : Nat}
    (hend : programBase.toInt + (programCapacity + stackWords) < 2 ^ 31) (history : List Operation) :
    ((Memory.new device stackWords).after history).Answers device stackWords history := by
  rw [toInt_programBase] at hend
  have hcapacity : programCapacity + stackWords < placeBound := by unfold placeBound; omega
  have hfollows := Follows.after device hcapacity history
  generalize (Memory.new device stackWords).after history = m at hfollows ⊢
  have hsize := hfollows.size
  have hbound : m.ram.size < placeBound := by omega
  have hlimit : m.limit.toInt = programBase.toInt + (programCapacity + stackWords) := by
    rw [toInt_limit, roof_eq hbound, toInt_programBase, hsize]
    push_cast
    ring
  have hstack : stackBase ≤ m.limit := by
    rw [Int32.le_iff_toInt_le, hlimit, toInt_programBase, toInt_stackBase]
    unfold programCapacity
    omega
  refine
    { limit := hlimit
      device := hfollows.device
      read_fails := fun address fault m' => by rw [read_eq_error_iff, region_eq_none_iff hstack]
      write_fails := fun address value fault m' => by
        rw [write_eq_error_iff, region_eq_none_iff hstack]
      read_device := fun address h => read_device h m
      write_device := fun address value h => write_device h value m
      read_cell := fun address hbase hlt => ?_
      write_cell := fun address value hbase hlt => ?_
      peek_other := fun address => peek?_other
      load_fails := fun words fault m' => load_eq_error_iff
      load_erases := fun words m' hload =>
        ⟨device_of_load hload, fun address => peek?_of_load hbound hload⟩ }
  · obtain ⟨i, hi, rfl⟩ := exists_place_lt_size hbound hbase hlt
    rw [read_cell (inReach_of_lt_size hbound hi), peek?_of_lt_size hbound hi, hfollows.cells i hi]
    exact ⟨rfl, rfl⟩
  · obtain ⟨i, hi, rfl⟩ := exists_place_lt_size hbound hbase hlt
    exact ⟨_, write_cell (inReach_of_lt_size hbound hi) value, rfl⟩

/-- A word on the stack, which a load then forgets, a program of three words, the last cell, and a
write that fails. -/
theorem memory_answers_reloaded : ∃ m : Memory Terminal,
    m = (Memory.new { width := 2, height := 2 } 16).after
      [.write stackBase 9, .load [1, 2, 3], .write (stackBase + 15) 8, .write (-1) 5] ∧
    programBase.toInt + (programCapacity + (16 : Nat)) < 2 ^ 31 ∧
    m.peek? (programBase + 2) = some 3 ∧ m.peek? stackBase = some 0 ∧
    m.peek? (stackBase + 15) = some 8 ∧
    Memory.read m.limit m = .error (.outOfBounds m.limit) m := by
  have hend : programBase.toInt + (programCapacity + (16 : Nat)) < 2 ^ 31 := by decide
  have h := memory_answers ({ width := 2, height := 2 } : Terminal) hend
    [.write stackBase 9, .load [1, 2, 3], .write (stackBase + 15) 8, .write (-1) 5]
  refine ⟨_, rfl, hend, ?_⟩
  generalize (Memory.new (D := Terminal) _ _).after _ = m at h ⊢
  have hlimit := h.limit
  have hlt {address : Word} (ha : address.toInt < 0x810010) : address < m.limit := by
    rw [Int32.lt_iff_toInt_lt, hlimit]
    exact ha
  refine ⟨?_, ?_, ?_, (h.read_fails _ _ _).mpr ⟨.inr Int32.le_rfl, rfl, rfl⟩⟩
  · rw [(h.read_cell _ (by decide) (hlt (by decide))).2]
    decide
  · rw [(h.read_cell _ (by decide) (hlt (by decide))).2]
    decide
  · rw [(h.read_cell _ (by decide) (hlt (by decide))).2]
    decide

end WordLisp

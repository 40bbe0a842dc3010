import WordLisp.Proofs.History
import WordLisp.SymbolPool

/-!
# Numbers of symbols

`internAll calls` is the pool that has been asked for the names in `calls`, one after the other. Its
names are those of `calls` in the order of their first use, and the number of a name is its place
among them.

Main statement: as long as numbers do not wrap, the names and the numbers of a pool correspond one to
one, in the order of first use, and what has been numbered once stays so. The numbers and names of a
pool go through the calls as a table would that takes the next number from its size and refuses a pair
with a side that it has already.
-/

namespace WordLisp

/-- Numbers with their names, as in `SymbolPool.toList`. -/
abbrev SymbolTable := List (Word × String)

namespace SymbolTable

/-- Adds a pair, unless one of its sides is there already. -/
def insertNew (table : SymbolTable) (id : Word) (name : String) : SymbolTable :=
  if ∃ entry ∈ table, entry.1 = id ∨ entry.2 = name then table else table ++ [(id, name)]

/-- The number of a name, whether it is new, and the table with the name. Nobody looks whether the new
pair was refused. -/
def intern (table : SymbolTable) (name : String) : (Word × Bool) × SymbolTable :=
  match table.find? (·.2 = name) with
  | some entry => ((entry.1, false), table)
  | none =>
    ((symbolBase + Int32.ofNat table.length, true),
      table.insertNew (symbolBase + Int32.ofNat table.length) name)

end SymbolTable

namespace SymbolPool

/-- The pool that has been asked for some names in order. -/
def internAll (calls : List String) : SymbolPool :=
  calls.foldl (fun pool name => (pool.intern name).2) {}

/-! ## Numbers -/

theorem toInt_number {i : Nat} (h : i < 2 ^ 30) : (number i).toInt = symbolBase.toInt + i := by
  have hbase : symbolBase.toInt = 2 ^ 30 := by decide
  unfold number
  rw [Int32.toInt_add, hbase, Int32.toInt_ofNat_of_lt (by omega)]
  exact Int.bmod_eq_of_le (by omega) (by omega)

theorem number_inj {i j : Nat} (hi : i < 2 ^ 30) (hj : j < 2 ^ 30) (h : number i = number j) : i = j := by
  have := congrArg Int32.toInt h
  rw [toInt_number hi, toInt_number hj] at this
  omega

/-! ## One call -/

theorem intern_eq (pool : SymbolPool) (name : String) : pool.intern name =
    if name ∈ pool.names then ((number (pool.names.idxOf name), false), pool)
    else ((number pool.names.length, true), ⟨pool.names ++ [name]⟩) := by
  unfold intern
  rw [List.idxOf_eq_getD_idxOf?]
  cases h : pool.names.idxOf? name with
  | none => rw [if_neg (List.idxOf?_eq_none_iff.mp h)]
  | some i =>
    rw [if_pos (List.isSome_idxOf?.mp (Option.isSome_of_eq_some h))]
    rfl

theorem names_intern (pool : SymbolPool) (name : String) :
    (pool.intern name).2.names = if name ∈ pool.names then pool.names else pool.names ++ [name] := by
  rw [intern_eq]
  split <;> rfl

/-- The number of a name is its place in the pool that knows it. -/
theorem intern_fst (pool : SymbolPool) (name : String) : (pool.intern name).1 =
    (number ((pool.intern name).2.names.idxOf name), decide (name ∉ pool.names)) := by
  rw [intern_eq]
  split
  · next hmem => simp [hmem]
  · next hnew => simp [hnew, List.idxOf_append_of_notMem]

/-- The name with a number is the one at its place. -/
theorem name?_eq_some_iff {pool : SymbolPool} {id : Word} {name : String} :
    pool.name? id = some name ↔
      ∃ k : Nat, pool.names[k]? = some name ∧ id.toInt = symbolBase.toInt + k := by
  have hbase : symbolBase.toInt = 2 ^ 30 := by decide
  have hhigh := id.toInt_lt
  have hplace (hle : symbolBase ≤ id) : ((id - symbolBase).toNatClampNeg : Int) = id.toInt - 2 ^ 30 := by
    rw [Int32.le_iff_toInt_le] at hle
    rw [← Int32.toNat_toInt, Int32.toInt_sub, hbase, Int.bmod_eq_of_le (by omega) (by omega)]
    omega
  unfold name?
  rw [Option.ite_none_right_eq_some]
  constructor
  · rintro ⟨hle, hk⟩
    exact ⟨_, hk, by rw [hplace hle]; omega⟩
  · rintro ⟨k, hk, hid⟩
    have hle : symbolBase ≤ id := Int32.le_iff_toInt_le.mpr (by omega)
    obtain rfl : (id - symbolBase).toNatClampNeg = k := by
      have := hplace hle
      omega
    exact ⟨hle, hk⟩

/-! ## Rows of calls -/

theorem idxOf_of_prefix {l l' : List String} {name : String} (h : l <+: l') (hmem : name ∈ l) :
    l'.idxOf name = l.idxOf name := by
  obtain ⟨rest, rfl⟩ := h
  exact List.idxOf_append_of_mem hmem

theorem idxOf_of_getElem? {l : List String} {name : String} {k : Nat} (hnodup : l.Nodup)
    (h : l[k]? = some name) : l.idxOf name = k := by
  obtain ⟨hk, rfl⟩ := List.getElem?_eq_some_iff.mp h
  exact hnodup.idxOf_getElem k hk

section
variable (calls : List String)

theorem internAll_concat (name : String) :
    internAll (calls ++ [name]) = ((internAll calls).intern name).2 := by
  unfold internAll
  rw [List.foldl_append]
  rfl

theorem eraseDups_concat (name : String) : (calls ++ [name]).eraseDups =
    if name ∈ calls then calls.eraseDups else calls.eraseDups ++ [name] := by
  rw [List.eraseDups_append]
  split
  · next hmem => simp [List.removeAll, hmem]
  · next hnew => simp [List.removeAll, hnew, List.eraseDups_cons]

/-- A pool has the names that it was asked for, in the order of their first use. -/
theorem names_internAll : (internAll calls).names = calls.eraseDups :=
  foldl_invariant (P := fun pool calls => SymbolPool.names pool = calls.eraseDups) rfl
    (fun pool calls name h => by
      rw [names_intern, h, eraseDups_concat]
      simp only [List.mem_eraseDups]) calls

theorem mem_names_internAll {name : String} : name ∈ (internAll calls).names ↔ name ∈ calls := by
  rw [names_internAll, List.mem_eraseDups]

theorem nodup_names_internAll : (internAll calls).names.Nodup :=
  foldl_invariant (P := fun pool _ => (SymbolPool.names pool).Nodup) List.nodup_nil
    (fun pool _ name h => by
      rw [names_intern]
      split
      · exact h
      · next hnew => exact List.concat_eq_append ▸ h.concat hnew) calls

theorem size_internAll : (internAll calls).size = calls.toFinset.card := by
  have hsame : calls.toFinset = (internAll calls).names.toFinset := by
    ext name
    rw [List.mem_toFinset, List.mem_toFinset, mem_names_internAll]
  rw [hsame, List.toFinset_card_of_nodup (nodup_names_internAll calls)]
  rfl

theorem size_internAll_le : (internAll calls).size ≤ calls.length := by
  rw [size_internAll]
  exact List.toFinset_card_le calls

/-- More calls put more names behind those of the pool. -/
theorem names_internAll_append (more : List String) :
    (internAll calls).names <+: (internAll (calls ++ more)).names := by
  rw [names_internAll, names_internAll, List.eraseDups_append]
  exact List.prefix_append ..

/-- The number of a name does not depend on the calls behind the one that asks for it. -/
theorem intern_internAll {before rest : List String} {name : String} {k : Nat}
    (h : (internAll (before ++ name :: rest)).names[k]? = some name) :
    ((internAll before).intern name).1 = (number k, decide (name ∉ before)) := by
  have hnames := names_internAll_append (before ++ [name]) rest
  rw [List.append_assoc, List.singleton_append] at hnames
  have hmem : name ∈ (internAll (before ++ [name])).names := by
    rw [mem_names_internAll]
    exact List.mem_append_right _ (List.mem_singleton_self name)
  have hplace : (internAll (before ++ [name])).names.idxOf name = k := by
    rw [← idxOf_of_prefix hnames hmem]
    exact idxOf_of_getElem? (nodup_names_internAll _) h
  rw [intern_fst, ← internAll_concat, hplace]
  simp only [mem_names_internAll]

/-- A name that has been asked for keeps its number. -/
theorem intern_internAll_append {name : String} (h : name ∈ calls) (more : List String) :
    ((internAll (calls ++ more)).intern name).1 = ((internAll calls).intern name).1 := by
  have hmem : name ∈ (internAll calls).names := (mem_names_internAll calls).mpr h
  have hnames := names_internAll_append calls more
  rw [intern_eq, intern_eq, if_pos hmem, if_pos (hnames.subset hmem), idxOf_of_prefix hnames hmem]

end

/-! ## Tables -/

section
variable (pool : SymbolPool) (name : String)

theorem find?_toList : pool.toList.find? (·.2 = name) =
    (pool.names.idxOf? name).map fun i => (number i, name) := by
  cases h : pool.names.idxOf? name with
  | none =>
    rw [Option.map_none, List.find?_eq_none]
    intro entry hentry
    obtain ⟨i, hi, rfl⟩ := List.mem_mapIdx.mp hentry
    have hnew := List.idxOf?_eq_none_iff.mp h
    exact fun heq => hnew (of_decide_eq_true heq ▸ List.getElem_mem hi)
  | some i =>
    obtain ⟨hi, rfl, hfirst⟩ := List.idxOf?_eq_some_iff.mp h
    rw [Option.map_some, List.find?_eq_some_iff_getElem]
    refine ⟨decide_eq_true rfl, i, by rwa [toList, List.length_mapIdx], List.getElem_mapIdx, fun j hj => ?_⟩
    simpa [toList] using hfirst j hj

/-- A new name and the next number are both new to the table. -/
theorem insertNew_toList (hfew : pool.size < 2 ^ 30) (hnew : name ∉ pool.names) :
    SymbolTable.insertNew pool.toList (number pool.size) name = toList ⟨pool.names ++ [name]⟩ := by
  unfold SymbolTable.insertNew
  rw [if_neg]
  · exact List.mapIdx_concat.symm
  · rintro ⟨entry, hentry, hside⟩
    obtain ⟨i, hi, rfl⟩ := List.mem_mapIdx.mp hentry
    unfold size at hfew hside
    rcases hside with hid | hname
    · have := number_inj (by omega) hfew hid
      omega
    · exact hnew (hname ▸ List.getElem_mem hi)

/-- A call does to the table what it does to the pool. -/
theorem intern_toList (hfew : pool.size < 2 ^ 30) :
    SymbolTable.intern pool.toList name = ((pool.intern name).1, (pool.intern name).2.toList) := by
  have hlength : pool.toList.length = pool.size := List.length_mapIdx
  unfold SymbolTable.intern intern
  rw [find?_toList, hlength]
  cases h : pool.names.idxOf? name with
  | none => exact congrArg _ (pool.insertNew_toList name hfew (List.idxOf?_eq_none_iff.mp h))
  | some i => rfl

end

/-- With `calls.eraseDups`, the names in the order of their first use: every call returns the base plus
the place of its name, and says that the name is new if it has not come before. A number has a name
exactly if it is the base plus the place of that name. There are as many symbols as names, and later
calls change no number. The table of the pool goes through the same calls. -/
theorem numbers_in_order {calls : List String} (hfew : calls.length < 2 ^ 30) :
    (∀ (k : Nat) (name : String), calls.eraseDups[k]? = some name →
      (∀ before rest, calls = before ++ name :: rest → ∃ id,
        ((internAll before).intern name).1 = (id, decide (name ∉ before)) ∧
        id.toInt = symbolBase.toInt + k) ∧
      ∀ id, (internAll calls).name? id = some name ↔ id.toInt = symbolBase.toInt + k) ∧
    (∀ id name, (internAll calls).name? id = some name → name ∈ calls) ∧
    (internAll calls).size = calls.toFinset.card ∧
    (∀ before rest, calls = before ++ rest → ∀ name ∈ before,
      ((internAll calls).intern name).1 = ((internAll before).intern name).1) ∧
    ∀ before name rest, calls = before ++ name :: rest →
      SymbolTable.intern (internAll before).toList name =
        (((internAll before).intern name).1, (internAll (before ++ [name])).toList) := by
  refine ⟨fun k name hk => ⟨?_, fun id => ?_⟩, fun id name h => ?_, size_internAll calls, ?_, ?_⟩
  · rintro before rest rfl
    rw [← names_internAll] at hk
    have hlt := (List.getElem?_eq_some_iff.mp hk).1
    have hsize : (internAll (before ++ name :: rest)).names.length ≤ _ := size_internAll_le _
    exact ⟨number k, intern_internAll hk, toInt_number (by omega)⟩
  · rw [name?_eq_some_iff, names_internAll]
    constructor
    · rintro ⟨j, hj, hid⟩
      have hnodup : calls.eraseDups.Nodup := names_internAll calls ▸ nodup_names_internAll calls
      rw [← idxOf_of_getElem? hnodup hk, idxOf_of_getElem? hnodup hj]
      exact hid
    · intro hid
      exact ⟨k, hk, hid⟩
  · obtain ⟨k, hk, -⟩ := name?_eq_some_iff.mp h
    exact (mem_names_internAll calls).mp (List.mem_of_getElem? hk)
  · rintro before rest rfl name hname
    exact intern_internAll_append before hname rest
  · rintro before name rest rfl
    have hsize := size_internAll_le before
    rw [List.length_append] at hfew
    rw [intern_toList _ _ (by omega), internAll_concat]

/-- A name that comes twice keeps the number of its first use. -/
theorem numbers_in_order_twice :
    ["red", "green", "red"].length < 2 ^ 30 ∧ ["red", "green", "red"].eraseDups[1]? = some "green" ∧
    (∀ id, (internAll ["red", "green", "red"]).name? id = some "green" ↔ id.toInt = symbolBase.toInt + 1) ∧
    ((internAll ["red", "green"]).intern "red").1 = ((internAll ["red"]).intern "red").1 ∧
    (internAll ["red", "green", "red"]).size = 2 := by
  have hgreen : ["red", "green", "red"].eraseDups[1]? = some "green" := by decide
  obtain ⟨hcalls, -, hsize, -⟩ := @numbers_in_order ["red", "green", "red"] (by decide)
  obtain ⟨-, -, -, hkeep, -⟩ := @numbers_in_order ["red", "green"] (by decide)
  refine ⟨by decide, hgreen, (hcalls 1 "green" hgreen).2, ?_, hsize⟩
  exact hkeep ["red"] ["green"] rfl "red" (List.mem_singleton_self _)

end SymbolPool

end WordLisp

import WordLisp.Listing.Assemble
import WordLisp.Proofs.Decoding
import WordLisp.Proofs.Results

/-!
# Where the records of a listing end up

`wordCount` is the length of a listing in words and `offsets` the table of its tags.
`Placed table words k seg` says that the records of `seg` stand in `words` from word `k` on, with
the tags that they name taken from `table`. Assembling a listing places it, and succeeds exactly
if no tag repeats and every instruction can be encoded under the table of the offsets.
-/

namespace WordLisp.Listing

/-- How many words the records take. -/
def wordCount : Listing → Nat
  | [] => 0
  | .tag _ :: rest => wordCount rest
  | _ :: rest => wordCount rest + 1

/-- The tags that the records define, in order. -/
def tagNames : Listing → List String
  | [] => []
  | .tag name :: rest => name :: tagNames rest
  | _ :: rest => tagNames rest

/-- The tags of a listing that begins at word `k`, each with the number of its word. -/
def offsets (k : Nat) : Listing → TagTable
  | [] => []
  | .tag name :: rest => (name, Int32.ofNat k) :: offsets k rest
  | _ :: rest => offsets (k + 1) rest

/-- The instruction becomes the word `w` under a table of tags. -/
def EncodesTo (table : TagTable) (i : Instruction) (w : Word) : Prop :=
  ∃ j, resolve table i = .ok j ∧ j.encode = .ok w

/-- The records stand in the words from word `k` on. -/
def Placed (table : TagTable) (words : List Word) : Nat → Listing → Prop
  | _, [] => True
  | k, .tag name :: rest => table.lookup name = some (Int32.ofNat k) ∧ Placed table words k rest
  | k, .data value :: rest => words[k]? = some value ∧ Placed table words (k + 1) rest
  | k, .instruction i :: rest =>
    (∃ w, EncodesTo table i w ∧ words[k]? = some w) ∧ Placed table words (k + 1) rest

@[simp] theorem wordCount_append (a b : Listing) : wordCount (a ++ b) = wordCount a + wordCount b := by
  induction a with
  | nil => simp [wordCount]
  | cons r a ih => cases r <;> simp [wordCount, ih] <;> omega

@[simp] theorem tagNames_append (a b : Listing) : tagNames (a ++ b) = tagNames a ++ tagNames b := by
  induction a with
  | nil => rfl
  | cons r a ih => cases r <;> simp [tagNames, ih]

theorem mem_tagNames {name : String} {l : Listing} : name ∈ tagNames l ↔ .tag name ∈ l := by
  induction l with
  | nil => simp [tagNames]
  | cons r l ih => cases r <;> simp [tagNames, ih]

theorem offsets_append (k : Nat) (a b : Listing) :
    offsets k (a ++ b) = offsets k a ++ offsets (k + wordCount a) b := by
  induction a generalizing k with
  | nil => rfl
  | cons r a ih => cases r <;> simp [offsets, wordCount, ih] <;> congr 1 <;> omega

theorem map_fst_offsets (k : Nat) (l : Listing) : (offsets k l).map Prod.fst = tagNames l := by
  induction l generalizing k with
  | nil => rfl
  | cons r l ih => cases r <;> simp [offsets, tagNames, ih]

theorem placed_append {table : TagTable} {words : List Word} {k : Nat} {a b : Listing} :
    Placed table words k (a ++ b) ↔
      Placed table words k a ∧ Placed table words (k + wordCount a) b := by
  induction a generalizing k with
  | nil => simp [Placed, wordCount]
  | cons r a ih =>
    cases r <;> simp only [List.cons_append, Placed, ih, wordCount, and_assoc, Nat.add_assoc,
      Nat.add_comm 1]

/-! ## Tags -/

theorem lookup_isSome_iff {table : TagTable} {name : String} :
    (table.lookup name).isSome ↔ name ∈ table.map Prod.fst := by
  rw [List.lookup_isSome_iff]
  simp

theorem lookup_of_mem {table : List (String × α)} (hn : (table.map Prod.fst).Nodup) {name : String}
    {a : α} (h : (name, a) ∈ table) : table.lookup name = some a := by
  induction table with
  | nil => cases h
  | cons p table ih =>
    obtain ⟨name', a'⟩ := p
    rw [List.map_cons, List.nodup_cons] at hn
    rcases List.mem_cons.mp h with h | h
    · cases h; simp
    · have hne : name ≠ name' := fun he => hn.1 (List.mem_map.mpr ⟨_, h, he⟩)
      rw [List.lookup_cons, beq_false_of_ne hne]
      exact ih hn.2 h

theorem tagsFrom_eq (table : TagTable) {k : Nat} {l : Listing}
    (h : (table.map Prod.fst ++ tagNames l).Nodup) :
    tagsFrom table (Int32.ofNat k) l = .ok (table ++ offsets k l) := by
  induction l generalizing table k with
  | nil => simp [tagsFrom, offsets]
  | cons r l ih =>
    cases r with
    | tag name =>
      have hnot : ¬ (table.lookup name).isSome := by
        rw [lookup_isSome_iff]
        intro hmem
        exact (List.nodup_append.mp h).2.2 name hmem name (by simp [tagNames]) rfl
      rw [tagsFrom, if_neg hnot, ih _ (by simpa [tagNames] using h)]
      simp [offsets]
    | instruction i | data v =>
      have hk : Int32.ofNat k + 1 = Int32.ofNat (k + 1) := (Int32.ofNat_add k 1).symm
      rw [tagsFrom, hk]
      · exact ih _ h
      · intro name; simp

theorem nodup_of_tagsFrom (table : TagTable) {table' : TagTable} {k : Word} {l : Listing}
    (hn : (table.map Prod.fst).Nodup) (h : tagsFrom table k l = .ok table') :
    (table.map Prod.fst ++ tagNames l).Nodup := by
  induction l generalizing table k with
  | nil => simpa [tagNames] using hn
  | cons r l ih =>
    cases r with
    | tag name =>
      rw [tagsFrom] at h
      split at h
      · cases h
      · next hnot =>
        rw [lookup_isSome_iff] at hnot
        have hn' : ((table ++ [(name, k)]).map Prod.fst).Nodup := by
          rw [List.map_append, List.nodup_append]
          refine ⟨hn, by simp, ?_⟩
          rintro a ha b hb rfl
          rw [List.map_singleton, List.mem_singleton] at hb
          rw [hb] at ha
          exact hnot ha
        simpa [tagNames] using ih _ hn' h
    | instruction i | data v =>
      rw [tagsFrom] at h
      · exact ih _ hn h
      · intro name; simp

/-! ## Words -/

theorem encodeWith_instruction {table : TagTable} {i : Instruction} {l : Listing}
    {words : List Word} :
    encodeWith table (.instruction i :: l) = .ok words ↔
      ∃ w ws, EncodesTo table i w ∧ encodeWith table l = .ok ws ∧ words = w :: ws := by
  rw [encodeWith]
  constructor
  · intro h
    obtain ⟨j, hj, h⟩ := ok_of_bind_eq_ok h
    obtain ⟨w, hw, h⟩ := ok_of_bind_eq_ok h
    obtain ⟨ws, hws, h⟩ := ok_of_bind_eq_ok h
    cases h
    exact ⟨w, ws, ⟨j, hj, hw⟩, hws, rfl⟩
  · rintro ⟨w, ws, ⟨j, hj, hw⟩, hws, rfl⟩
    simp only [hj, hw, hws, bind, Except.bind, pure, Except.pure]

/-- Encoding yields one word for each record that is not a tag, in place. -/
theorem placed_of_encodeWith {table : TagTable} {k : Nat} {l : Listing} (before : List Word)
    {ws : List Word} (h : encodeWith table l = .ok ws) (hk : before.length = k)
    (ht : ∀ name offset, (name, offset) ∈ offsets k l → table.lookup name = some offset) :
    Placed table (before ++ ws) k l ∧ ws.length = wordCount l := by
  induction l generalizing k before ws with
  | nil => cases h; exact ⟨trivial, rfl⟩
  | cons r l ih =>
    cases r with
    | tag name =>
      obtain ⟨hp, hl⟩ := ih before h hk fun n o hm => ht n o (List.mem_cons_of_mem _ hm)
      exact ⟨⟨ht name _ (List.mem_cons_self ..), hp⟩, hl⟩
    | data value =>
      rw [encodeWith] at h
      cases hws : encodeWith table l with
      | error e => rw [hws] at h; cases h
      | ok ws' =>
        rw [hws] at h
        cases h
        obtain ⟨hp, hl⟩ := ih (before ++ [value]) hws (by simp [hk]) ht
        rw [List.append_assoc] at hp
        exact ⟨⟨by simp [← hk], hp⟩, by simp [wordCount, hl]⟩
    | instruction i =>
      obtain ⟨w, ws', hw, hws, rfl⟩ := encodeWith_instruction.mp h
      obtain ⟨hp, hl⟩ := ih (before ++ [w]) hws (by simp [hk]) ht
      rw [List.append_assoc] at hp
      exact ⟨⟨⟨w, hw, by simp [← hk]⟩, hp⟩, by simp [wordCount, hl]⟩

theorem encodeWith_of_encodesTo {table : TagTable} {l : Listing}
    (h : ∀ i, .instruction i ∈ l → ∃ w, EncodesTo table i w) :
    ∃ words, encodeWith table l = .ok words := by
  induction l with
  | nil => exact ⟨[], rfl⟩
  | cons r l ih =>
    obtain ⟨ws, hws⟩ := ih fun i hi => h i (List.mem_cons_of_mem _ hi)
    cases r with
    | tag name => exact ⟨ws, hws⟩
    | data value => exact ⟨value :: ws, by rw [encodeWith, hws]; rfl⟩
    | instruction i =>
      obtain ⟨w, hw⟩ := h i (List.mem_cons_self ..)
      exact ⟨w :: ws, encodeWith_instruction.mpr ⟨w, ws, hw, hws, rfl⟩⟩

theorem encodesTo_of_encodeWith {table : TagTable} {l : Listing} {words : List Word}
    (h : encodeWith table l = .ok words) {i : Instruction} (hi : .instruction i ∈ l) :
    ∃ w, EncodesTo table i w := by
  induction l generalizing words with
  | nil => cases hi
  | cons r l ih =>
    cases r with
    | tag name => exact ih h (by simpa using hi)
    | data value =>
      rw [encodeWith] at h
      cases hws : encodeWith table l with
      | error e => rw [hws] at h; cases h
      | ok ws => exact ih hws (by simpa using hi)
    | instruction j =>
      obtain ⟨w, ws, hw, hws, -⟩ := encodeWith_instruction.mp h
      rcases List.mem_cons.mp hi with hi | hi
      · cases hi; exact ⟨w, hw⟩
      · exact ih hws hi

/-- Assembling puts every record in its place. -/
theorem placed_of_assemble {l : Listing} {words : List Word} (h : l.assemble = .ok words) :
    (tagNames l).Nodup ∧ Placed (offsets 0 l) words 0 l ∧ words.length = wordCount l := by
  obtain ⟨table, ht, hw⟩ := ok_of_bind_eq_ok h
  have hn : (tagNames l).Nodup := nodup_of_tagsFrom [] List.nodup_nil ht
  have he : table = offsets 0 l := by
    have := tagsFrom_eq [] (k := 0) (l := l) hn
    exact Except.ok.inj (ht.symm.trans this)
  rw [he] at hw
  obtain ⟨hp, hl⟩ := placed_of_encodeWith [] (k := 0) hw rfl fun name offset hm =>
    lookup_of_mem (by rw [map_fst_offsets]; exact hn) hm
  exact ⟨hn, hp, hl⟩

/-- What assembling asks for. -/
theorem assemble_isOk_iff {l : Listing} :
    (∃ words, l.assemble = .ok words) ↔
      (tagNames l).Nodup ∧ ∀ i, .instruction i ∈ l → ∃ w, EncodesTo (offsets 0 l) i w := by
  constructor
  · rintro ⟨words, h⟩
    obtain ⟨table, ht, hw⟩ := ok_of_bind_eq_ok h
    have hn : (tagNames l).Nodup := nodup_of_tagsFrom [] List.nodup_nil ht
    have := tagsFrom_eq [] (k := 0) (l := l) hn
    obtain rfl : table = offsets 0 l := Except.ok.inj (ht.symm.trans this)
    exact ⟨hn, fun i hi => encodesTo_of_encodeWith hw hi⟩
  · rintro ⟨hn, he⟩
    have ht : l.tags = .ok (offsets 0 l) := tagsFrom_eq [] (k := 0) hn
    obtain ⟨words, hw⟩ := encodeWith_of_encodesTo he
    exact ⟨words, by rw [assemble, ht]; exact hw⟩

end WordLisp.Listing

import WordLisp.Proofs.View.Basic

/-!
# Where a program lies

The words of a program that fits: the two instructions at the start, the routines, each behind the
size of its frame, and from `p.codeEnd` on the data. `p.place tag` is the word that a tag stands
for and `p.position a` the word at which the code begins that an activation has in front of it.

`Op.Allowed` says what an operation of a routine may refer to.
-/

namespace WordLisp

open Listing

/-- How many words a row of operations takes. -/
def Op.words (ops : List Op) : Nat := wordCount (Op.listing ops)

@[simp] theorem Op.words_append (a b : List Op) : Op.words (a ++ b) = Op.words a + Op.words b := by
  simp [Op.words]

theorem Op.words_tag (name : String) (ops : List Op) : Op.words (.tag name :: ops) = Op.words ops :=
  rfl

/-- Every operation but a tag is an instruction. -/
theorem Op.record_of_ne_tag {op : Op} (h : ∀ name, op ≠ .tag name) :
    ∃ i, op.record = .instruction i := by
  cases op with
  | tag name => exact absurd rfl (h name)
  | _ => exact ⟨_, rfl⟩

theorem Op.words_cons {op : Op} (h : ∀ name, op ≠ .tag name) (ops : List Op) :
    Op.words (op :: ops) = Op.words ops + 1 := by
  obtain ⟨i, hi⟩ := Op.record_of_ne_tag h
  simp [Op.words, hi, wordCount]

/-- The frame is far from the limits of the address space. -/
def Routine.Small (r : Routine) : Prop := r.frame.size < 2 ^ 18

namespace Program

def table (p : Program) : TagTable := offsets 0 p.listing

/-- The word that a tag stands for. -/
def place (p : Program) (tag : String) : Nat := ((p.table.lookup tag).getD 0).toNatClampNeg

/-- The first word of the code of a routine. -/
def entry (p : Program) (r : Routine) : Nat :=
  match r.name with
  | none => 0
  | some name => p.place name

/-- The word at which the code of an activation begins. -/
def position (p : Program) (a : Activation) : Nat :=
  p.entry a.routine + (Op.words a.routine.code - Op.words a.code)

/-- The first word of the data. -/
def codeEnd (p : Program) : Nat :=
  wordCount (Routine.boot.listing ++ p.routines.flatMap Routine.listing)

/-- The routine is one of the program, or the start. -/
def Has (p : Program) (r : Routine) : Prop := r = .boot ∨ r ∈ p.routines

/-- The word is the cell of a global. -/
def IsGlobalCell (p : Program) (k : Nat) : Prop := ∃ name ∈ p.globals.map Prod.fst, k = p.place name

end Program

/-- An instruction of a program is that of an operation of the start or of a routine. -/
theorem Program.exists_op_of_mem {p : Program} {i : Instruction} (h : .instruction i ∈ p.listing) :
    ∃ r, p.Has r ∧ ∃ op ∈ r.code, op.record = .instruction i := by
  unfold Program.listing at h
  rcases List.mem_append.mp h with h | h
  · exact ⟨.boot, .inl rfl, List.mem_map.mp h⟩
  rcases List.mem_append.mp h with h | h
  · obtain ⟨r, hr, h⟩ := List.mem_flatMap.mp h
    refine ⟨r, .inr hr, List.mem_map.mp ?_⟩
    unfold Routine.listing at h
    split at h
    · exact h
    · simp only [List.mem_cons, reduceCtorEq, false_or] at h
      exact h
  · simp [Generator.dataListing] at h

theorem Program.listing_of_routine {p : Program} {r : Routine} (h : r ∈ p.routines) :
    ∃ before after, p.listing = before ++ (r.listing ++ after) := by
  obtain ⟨rs, rs', hsplit⟩ := List.append_of_mem h
  refine ⟨Routine.boot.listing ++ rs.flatMap Routine.listing,
    rs'.flatMap Routine.listing ++ Generator.dataListing p.data, ?_⟩
  unfold Program.listing
  rw [hsplit, List.flatMap_append, List.flatMap_cons]
  simp

theorem Routine.listing_of_name {r : Routine} {name : String} (hn : r.name = some name) :
    r.listing = .data (Int32.ofNat r.frame.size) :: .tag name :: Op.listing r.code := by
  unfold Routine.listing
  rw [hn]

/-- An operand that the routine `r` may read. -/
def Operand.Readable (p : Program) (r : Routine) : Operand → Prop
  | .cell name => name ∈ p.data.map Prod.fst
  | .slot n => 1 ≤ n ∧ n ≤ r.frame.returnSlot

/-- An operand that the routine `r` may write: a global, a variable or an intermediate value of
its own, or an argument of a routine that it calls. -/
def Operand.Writable (p : Program) (r : Routine) : Operand → Prop
  | .cell name => name ∈ p.globals.map Prod.fst
  | .slot n => (1 ≤ n ∧ n < r.frame.returnSlot) ∨ (r.frame.size < n ∧ n < 2 ^ 19)

/-- What an operation of the routine `r` may refer to. -/
def Op.Allowed (p : Program) (r : Routine) : Op → Prop
  | .load x _ | .store x true => x.Readable p r
  | .store x false => x.Writable p r
  | .branch name | .jump name => .tag name ∈ r.code
  | .call name => ∃ r' ∈ p.routines, r'.name = some name ∧ r'.Small
  | .yield | .ret => r ∈ p.routines
  | .stop => r = .boot
  | .tag _ | .unary _ | .binary _ | .swap => True

/-- The operation reads the content of the operand. -/
def Op.Reads (op : Op) (x : Operand) : Prop := (∃ indirect, op = .load x indirect) ∨ op = .store x true

/-- The operation goes through the operand as a pointer. -/
def Op.Follows (op : Op) (x : Operand) : Prop := op = .load x true ∨ op = .store x true

theorem Op.Follows.reads {op : Op} {x : Operand} (h : op.Follows x) : op.Reads x :=
  h.imp_left fun h => ⟨true, h⟩

theorem Op.Reads.readable {op : Op} {x : Operand} {p : Program} {r : Routine} (h : op.Reads x)
    (ha : op.Allowed p r) : x.Readable p r := by
  rcases h with ⟨indirect, rfl⟩ | rfl <;> exact ha

theorem Op.Reads.ne_tag {op : Op} {x : Operand} (h : op.Reads x) (name : String) : op ≠ .tag name := by
  rcases h with ⟨indirect, rfl⟩ | rfl <;> simp

/-- The program is made as the generator makes it. -/
structure Program.WellFormed (p : Program) : Prop where
  named : ∀ r ∈ p.routines, ∃ name, r.name = some name
  ends : ∀ r, p.Has r → ∃ ops last, r.code = ops ++ [last] ∧ (last = .ret ∨ last = .stop)
  allowed : ∀ r, p.Has r → r.Small → ∀ op ∈ r.code, op.Allowed p r

/-- The program becomes these words, and they fit into the memory. -/
structure Program.Fits (p : Program) (words : List Word) : Prop where
  nodup : (tagNames p.listing).Nodup
  placed : Placed p.table words 0 p.listing
  length : words.length = wordCount p.listing
  le : words.length ≤ programCapacity

theorem Program.fits_of_assemble {p : Program} {words : List Word}
    (h : p.listing.assemble = .ok words) (hle : words.length ≤ programCapacity) : p.Fits words := by
  obtain ⟨hn, hp, hl⟩ := placed_of_assemble h
  exact ⟨hn, hp, hl, hle⟩

namespace Program.Fits

variable {p : Program} {words : List Word} (hf : p.Fits words)
include hf

/-! ## Tags -/

theorem place_eq {tag : String} {k : Nat} (h : p.table.lookup tag = some (Int32.ofNat k))
    (hk : k ≤ words.length) : p.place tag = k := by
  have hle := hf.le
  unfold programCapacity at hle
  unfold place
  rw [h, Option.getD_some, ← Int32.toNat_toInt, Int32.toInt_ofNat_of_lt (by omega)]
  exact Int.toNat_natCast k

theorem codeEnd_add : p.codeEnd + wordCount (Generator.dataListing p.data) = words.length := by
  rw [hf.length]
  unfold codeEnd listing
  rw [← List.append_assoc, wordCount_append _ (Generator.dataListing p.data)]

theorem codeEnd_le : p.codeEnd ≤ words.length := by
  have := hf.codeEnd_add
  omega

/-- A routine lies behind the size of its frame, at its tag. -/
theorem placed_routine {r : Routine} {name : String} (hr : r ∈ p.routines)
    (hn : r.name = some name) :
    0 < p.place name ∧ words[p.place name - 1]? = some (Int32.ofNat r.frame.size) ∧
      p.table.lookup name = some (Int32.ofNat (p.place name)) ∧
      Placed p.table words (p.place name) (Op.listing r.code) ∧
      p.place name + Op.words r.code ≤ p.codeEnd := by
  obtain ⟨before, after, hsplit⟩ := List.append_of_mem hr
  have hend := hf.codeEnd_le
  have hplaced := hf.placed
  unfold codeEnd at hend ⊢
  unfold listing at hplaced
  rw [hsplit, List.flatMap_append, List.flatMap_cons, Routine.listing_of_name hn] at hend hplaced ⊢
  simp only [placed_append, Placed] at hplaced
  obtain ⟨-, ⟨-, ⟨hsize, htag, hcode⟩, -⟩, -⟩ := hplaced
  simp only [wordCount_append, List.cons_append, wordCount] at hend ⊢
  have hp := hf.place_eq htag (by omega)
  rw [hp]
  refine ⟨by omega, ?_, htag, hcode, ?_⟩
  · rw [Nat.add_sub_cancel]; exact hsize
  · unfold Op.words; omega

theorem placed_boot : Placed p.table words 0 (Op.listing Routine.boot.code) ∧ 2 ≤ p.codeEnd := by
  refine ⟨(placed_append.mp hf.placed).1, ?_⟩
  unfold codeEnd
  rw [wordCount_append]
  exact Nat.le_add_right _ _

/-! ## Code -/

theorem placed_code (hw : p.WellFormed) {r : Routine} (hr : p.Has r) :
    Placed p.table words (p.entry r) (Op.listing r.code) ∧
      p.entry r + Op.words r.code ≤ p.codeEnd := by
  rcases hr with rfl | hr
  · obtain ⟨hp, hl⟩ := hf.placed_boot
    exact ⟨hp, hl⟩
  · obtain ⟨name, hn⟩ := hw.named r hr
    obtain ⟨-, -, -, hp, hl⟩ := hf.placed_routine hr hn
    unfold entry
    rw [hn]
    exact ⟨hp, hl⟩

theorem placed_suffix (hw : p.WellFormed) {a : Activation} (hr : p.Has a.routine)
    (hs : a.code <:+ a.routine.code) :
    Placed p.table words (p.position a) (Op.listing a.code) ∧
      p.position a + Op.words a.code ≤ p.codeEnd := by
  obtain ⟨hp, hl⟩ := hf.placed_code hw hr
  obtain ⟨before, hb⟩ := hs
  unfold position
  rw [← hb, Op.listing_append, placed_append] at hp
  rw [← hb, Op.words_append] at hl ⊢
  rw [Nat.add_sub_cancel]
  exact ⟨hp.2, by omega⟩

omit hf in
/-- The tag of a routine stands in front of its code. -/
theorem listing_of_mem {r : Routine} {name : String} (hr : r ∈ p.routines) (hn : r.name = some name) :
    ∃ before after, p.listing = before ++ .tag name :: (Op.listing r.code ++ after) := by
  obtain ⟨before, after, hl⟩ := Program.listing_of_routine hr
  refine ⟨before ++ [.data (Int32.ofNat r.frame.size)], after, ?_⟩
  rw [hl, Routine.listing_of_name hn]
  simp

theorem place_of_split {name : String} {before after : Listing}
    (h : p.listing = before ++ .tag name :: after) : p.place name = wordCount before := by
  have hp := hf.placed
  have hl := hf.length
  rw [h, wordCount_append] at hl
  rw [h, placed_append] at hp
  refine hf.place_eq (k := wordCount before) ?_ (by omega)
  rw [← Nat.zero_add (wordCount before)]
  exact hp.2.1

/-- The records in front of an activation fill the words up to its position. -/
theorem split (hw : p.WellFormed) {a : Activation} (hr : p.Has a.routine) {ops : List Op}
    (hcode : a.routine.code = ops ++ a.code) :
    ∃ before after, p.listing = before ++ (Op.listing ops ++ (Op.listing a.code ++ after)) ∧
      p.position a = wordCount before + Op.words ops := by
  have hpos : p.position a = p.entry a.routine + Op.words ops := by
    unfold position
    rw [hcode, Op.words_append, Nat.add_sub_cancel]
  rw [hpos]
  rcases hr with hboot | hr
  · have hcode' : Routine.boot.code = ops ++ a.code := by rw [← hcode, hboot]
    refine ⟨[], p.routines.flatMap Routine.listing ++ Generator.dataListing p.data, ?_,
      by rw [hboot]; rfl⟩
    show Op.listing Routine.boot.code ++ _ = _
    rw [hcode', Op.listing_append, List.append_assoc]
    rfl
  · obtain ⟨name, hn⟩ := hw.named _ hr
    obtain ⟨before, after, hl⟩ := listing_of_mem hr hn
    rw [hcode, Op.listing_append] at hl
    refine ⟨before ++ [.tag name], after, by rw [hl]; simp, ?_⟩
    unfold entry
    rw [hn, wordCount_append]
    exact congrArg (· + _) (hf.place_of_split hl)

omit hf in
theorem dropWhile_ne_of_mem {op : Op} {ops : List Op} (h : op ∈ ops) :
    ∃ rest, ops.dropWhile (· ≠ op) = op :: rest := by
  induction ops with
  | nil => cases h
  | cons o ops ih =>
    by_cases he : o = op
    · exact ⟨ops, by simp [he]⟩
    · obtain ⟨rest, hrest⟩ := ih ((List.mem_cons.mp h).resolve_left (Ne.symm he))
      exact ⟨rest, by rw [List.dropWhile_cons_of_pos (by simpa using he), hrest]⟩

/-- The code from a tag on begins at the place of the tag. -/
theorem position_target (hw : p.WellFormed) {a : Activation} (hr : p.Has a.routine) {name : String}
    (ht : .tag name ∈ a.routine.code) :
    p.position (a.goto (a.target name)) = p.place name ∧
      p.table.lookup name = some (Int32.ofNat (p.place name)) ∧ p.place name ≤ p.codeEnd ∧
      a.target name <:+ a.routine.code ∧ ∃ rest, a.target name = .tag name :: rest := by
  have hs : a.target name <:+ a.routine.code := List.dropWhile_suffix _
  obtain ⟨rest, hrest⟩ := dropWhile_ne_of_mem ht
  obtain ⟨hp, hl⟩ := hf.placed_suffix (a := a.goto (a.target name)) hw hr hs
  have hend := hf.codeEnd_le
  have hp : Placed p.table words (p.position (a.goto (a.target name)))
      (Op.listing (.tag name :: rest)) := by rw [← hrest]; exact hp
  have hpos := hf.place_eq hp.1 (by omega)
  rw [hpos]
  exact ⟨rfl, hp.1, by omega, hs, rest, hrest⟩

/-! ## Data -/

omit hf in
theorem placed_data {ps : List (String × Word)} {k i : Nat} {tag : String} {value : Word}
    {table : TagTable} (hp : Placed table words k (Generator.dataListing ps))
    (hi : ps[i]? = some (tag, value)) :
    table.lookup tag = some (Int32.ofNat (k + i)) ∧ words[k + i]? = some value := by
  induction ps generalizing k i with
  | nil => cases hi
  | cons q ps ih =>
    have hp : Placed table words k (.tag q.1 :: .data q.2 :: Generator.dataListing ps) := hp
    cases i with
    | zero => cases hi; exact ⟨hp.1, hp.2.1⟩
    | succ i =>
      rw [Nat.add_comm i, ← Nat.add_assoc]
      exact ih hp.2.2 hi

omit hf in
theorem wordCount_dataListing (ps : List (String × Word)) :
    wordCount (Generator.dataListing ps) = ps.length := by
  induction ps with
  | nil => rfl
  | cons q ps ih =>
    show wordCount (Generator.dataListing ps) + 1 = _
    rw [ih]
    rfl

/-- The data lie behind the code, in order. -/
theorem place_data {i : Nat} {tag : String} {value : Word} (hi : p.data[i]? = some (tag, value)) :
    p.place tag = p.codeEnd + i ∧ p.table.lookup tag = some (Int32.ofNat (p.place tag)) ∧
      words[p.place tag]? = some value := by
  have hp := hf.placed
  unfold listing at hp
  rw [← List.append_assoc, placed_append, Nat.zero_add] at hp
  obtain ⟨hl, hv⟩ := placed_data (k := p.codeEnd) hp.2 hi
  have hlen := hf.codeEnd_add
  rw [wordCount_dataListing] at hlen
  have hlt := (List.getElem?_eq_some_iff.mp hi).1
  have he : p.place tag = p.codeEnd + i := hf.place_eq hl (by omega)
  rw [he]
  exact ⟨rfl, hl, hv⟩

theorem place_inj {s t : String} (hs : s ∈ p.data.map Prod.fst) (ht : t ∈ p.data.map Prod.fst)
    (h : p.place s = p.place t) : s = t := by
  obtain ⟨⟨s, v⟩, hms, rfl⟩ := List.mem_map.mp hs
  obtain ⟨⟨t, w⟩, hmt, rfl⟩ := List.mem_map.mp ht
  obtain ⟨i, hi⟩ := List.mem_iff_getElem?.mp hms
  obtain ⟨j, hj⟩ := List.mem_iff_getElem?.mp hmt
  have hsi := (hf.place_data hi).1
  have htj := (hf.place_data hj).1
  simp only at h
  have : i = j := by omega
  rw [this, hj] at hi
  cases hi
  rfl

/-- A tag of the data has a word of its own. -/
theorem place_of_mem_data {tag : String} (h : tag ∈ p.data.map Prod.fst) :
    p.codeEnd ≤ p.place tag ∧ p.place tag < words.length ∧
      p.table.lookup tag = some (Int32.ofNat (p.place tag)) := by
  obtain ⟨⟨tag, v⟩, hm, rfl⟩ := List.mem_map.mp h
  obtain ⟨i, hi⟩ := List.mem_iff_getElem?.mp hm
  obtain ⟨he, hl, hv⟩ := hf.place_data hi
  exact ⟨by simp only; omega, (List.getElem?_eq_some_iff.mp hv).1, hl⟩

omit hf in
theorem mem_data_of_mem_globals {tag : String} (h : tag ∈ p.globals.map Prod.fst) :
    tag ∈ p.data.map Prod.fst := by
  unfold data
  rw [List.map_append]
  exact List.mem_append_left _ h

/-- No code lies in the cell of a global. -/
theorem not_isGlobalCell {k : Nat} (h : k < p.codeEnd) : ¬ p.IsGlobalCell k := by
  rintro ⟨name, hm, rfl⟩
  have := (hf.place_of_mem_data (mem_data_of_mem_globals hm)).1
  omega

/-! ## Routines -/

omit hf in
theorem tagNames_routine {r : Routine} {name : String} (hn : r.name = some name) :
    name ∈ tagNames r.listing := by
  unfold Routine.listing
  rw [hn]
  exact List.mem_cons_self ..

theorem nodup_routines : (tagNames (p.routines.flatMap Routine.listing)).Nodup := by
  have := hf.nodup
  unfold listing at this
  rw [tagNames_append, tagNames_append] at this
  exact (List.nodup_append.mp (List.nodup_append.mp this).2.1).1

/-- The tags in the code of a routine are different ones. -/
theorem nodup_code {r : Routine} (hr : r ∈ p.routines) : (tagNames (Op.listing r.code)).Nodup := by
  have hnd := hf.nodup_routines
  obtain ⟨before, after, hsplit⟩ := List.append_of_mem hr
  rw [hsplit, List.flatMap_append, List.flatMap_cons, tagNames_append, tagNames_append] at hnd
  have hr := (List.nodup_append.mp (List.nodup_append.mp hnd).2.1).1
  unfold Routine.listing at hr
  cases hname : r.name with
  | none => simpa only [hname] using hr
  | some name =>
    simp only [hname] at hr
    exact (List.nodup_cons.mp hr).2

/-- A routine is found by its name. -/
theorem find?_eq {r : Routine} {name : String} (hr : r ∈ p.routines) (hn : r.name = some name) :
    p.find? name = some r := by
  have hnd := hf.nodup_routines
  unfold find?
  generalize p.routines = rs at hr hnd
  induction rs with
  | nil => cases hr
  | cons q rs ih =>
    rw [List.flatMap_cons, tagNames_append, List.nodup_append] at hnd
    rcases List.mem_cons.mp hr with rfl | hr
    · rw [List.find?_cons_of_pos (by simpa using hn)]
    · have hne : q.name ≠ some name := by
        intro hq
        refine hnd.2.2 name (tagNames_routine hq) name ?_ rfl
        rw [mem_tagNames]
        exact List.mem_flatMap.mpr ⟨r, hr, mem_tagNames.mp (tagNames_routine hn)⟩
      rw [List.find?_cons_of_neg (by simpa using hne)]
      exact ih hr hnd.2.1

end Program.Fits

end WordLisp

import WordLisp.Machine.Terminal
import WordLisp.Proofs.Encoding
import WordLisp.Proofs.History

/-!
# What a terminal has been through

All that a terminal answers follows from the history of the reads, writes and mouse events since it
was new. `Follows` says this of each part of its state, and one operation keeps it.

Main statement: so it holds of the answers to the program, channel by channel, and of the picture on
the screen. The screen may be as large as to lie over the channels. Then what is written to a channel
for output is not painted, and what is painted on a channel for reading is not read from it.
-/

namespace WordLisp

/-! ## Colours -/

/-- The word with only its low 24 bits. -/
def Word.low24 (w : Word) : Word := ofBits (bits w % 0x1000000)

namespace Pixel

def black : Pixel := ⟨0, 0, 0⟩

theorem toWord_ofWord (w : Word) : (ofWord w).toWord = w.low24 := by
  unfold toWord ofWord Word.low24
  simp only [UInt8.toNat_ofNat']
  congr 1
  omega

theorem ofWord_low24 (w : Word) : ofWord w.low24 = ofWord w := by
  have hbits : Word.bits w.low24 = Word.bits w % 0x1000000 := Word.bits_ofBits (by omega)
  have hbyte {m n : Nat} (h : m % 2 ^ 8 = n % 2 ^ 8) : UInt8.ofNat m = UInt8.ofNat n := by
    apply UInt8.toNat.inj
    rw [UInt8.toNat_ofNat', UInt8.toNat_ofNat', h]
  unfold ofWord
  rw [hbits, hbyte (show Word.bits w % 0x1000000 / 0x10000 % 2 ^ 8 = Word.bits w / 0x10000 % 2 ^ 8 by omega),
    hbyte (show Word.bits w % 0x1000000 / 0x100 % 2 ^ 8 = Word.bits w / 0x100 % 2 ^ 8 by omega),
    hbyte (show Word.bits w % 0x1000000 % 2 ^ 8 = Word.bits w % 2 ^ 8 by omega)]

end Pixel

/-- The channels that are read or written as such. -/
def Channel.all : List Word :=
  [width, height, event, mouseDown, mouseX, mouseY, console, io]

namespace Terminal

/-! ## Histories of a terminal -/

/-- What can be done with a terminal, by the program and by the user. -/
inductive Operation where
  | read (address : Word)
  | write (address value : Word)
  | moveMouse (mouse : Mouse)
  deriving DecidableEq

namespace Operation

/-- What an operation sends out. -/
def sends? : Operation → Option Output
  | .write address value =>
    if address = Channel.console then some (.console value)
    else if address = Channel.io then some (.alert value)
    else none
  | _ => none

/-- The word that an operation writes to an address, which need not be a word itself. -/
def writes? (address : Int) : Operation → Option Word
  | .write target value => if target.toInt = address then some value else none
  | _ => none

def mouse? : Operation → Option Mouse
  | .moveMouse mouse => some mouse
  | _ => none

/-- The terminal that an operation leaves. -/
def next (t : Terminal) : Operation → Terminal
  | .read address => (Terminal.read address t).2
  | .write address value => Terminal.write address value t
  | .moveMouse mouse => t.moveMouse mouse

end Operation

def after (t : Terminal) (history : List Operation) : Terminal := history.foldl Operation.next t

/-- There has been a mouse event, and no look at the event channel since. -/
def EventPending (history : List Operation) : Prop :=
  ∃ earlier mouse later, history = earlier ++ .moveMouse mouse :: later ∧
    .read Channel.event ∉ later

/-- What is left of a word at an address when it is read again. -/
def shown (width height : Nat) (address : Int) (w : Word) : Word :=
  if 0 ≤ address ∧ address < width * height then w.low24 else w

theorem shown_zero (width height : Nat) (address : Int) : shown width height address 0 = 0 := by
  unfold shown
  split
  · rfl
  · rfl

theorem eventPending_concat {history : List Operation} {operation : Operation} :
    EventPending (history ++ [operation]) ↔
      (∃ mouse, operation = .moveMouse mouse) ∨
        EventPending history ∧ operation ≠ .read Channel.event := by
  constructor
  · rintro ⟨earlier, mouse, later, heq, hnot⟩
    -- The event is the last operation or comes before it.
    rcases List.eq_nil_or_concat later with rfl | ⟨later, last, rfl⟩
    · obtain ⟨-, h⟩ := List.append_inj' heq rfl
      exact .inl ⟨mouse, List.singleton_inj.mp h⟩
    · have heq : history ++ [operation] = (earlier ++ .moveMouse mouse :: later) ++ [last] := by
        simpa using heq
      obtain ⟨rfl, h⟩ := List.append_inj' heq rfl
      obtain rfl := List.singleton_inj.mp h
      simp only [List.concat_eq_append, List.mem_append, List.mem_singleton, not_or] at hnot
      exact .inr ⟨⟨earlier, mouse, later, rfl, hnot.1⟩, Ne.symm hnot.2⟩
  · rintro (⟨mouse, rfl⟩ | ⟨⟨earlier, mouse, later, rfl, hnot⟩, hne⟩)
    · exact ⟨history, mouse, [], rfl, List.not_mem_nil⟩
    · refine ⟨earlier, mouse, later ++ [operation], by simp, ?_⟩
      simp only [List.mem_append, List.mem_singleton, not_or]
      exact ⟨hnot, Ne.symm hne⟩

/-! ## What one operation does -/

section
variable (t : Terminal)

theorem snd_takeInput : t.takeInput.2 = { t with input := t.input.tail } := by
  obtain ⟨width, height, mouse, event, input, output, cells⟩ := t
  cases input <;> rfl

/-- Reading takes an event off or a word of input, and leaves all else. -/
theorem snd_read (address : Word) : (read address t).2 =
    if address = Channel.event then { t with event := false }
    else if address = Channel.io then { t with input := t.input.tail }
    else t := by
  unfold read
  by_cases hevent : address = Channel.event
  · subst hevent
    rfl
  · by_cases hio : address = Channel.io
    · subst hio
      exact t.snd_takeInput
    · simp only [if_neg hevent, if_neg hio]
      split_ifs <;> rfl

theorem cell_setCell (target value : Word) (address : Int) : (t.setCell target value).cell address =
    if target.toInt = address then shown t.width t.height address value else t.cell address := by
  have hscreen : t.OnScreen target ↔ 0 ≤ target.toInt ∧ target.toInt < t.width * t.height := by
    unfold OnScreen
    rw [Int32.le_iff_toInt_le, Int32.toInt_zero]
  unfold setCell cell shown
  rw [Std.HashMap.getD_insert]
  simp only [beq_iff_eq, hscreen, Pixel.toWord_ofWord]
  by_cases h : target.toInt = address
  · subst h
    rfl
  · rw [if_neg h, if_neg h]

section
variable (operation : Operation)

theorem size_next : (operation.next t).width = t.width ∧ (operation.next t).height = t.height := by
  cases operation with
  | read address =>
    simp only [Operation.next, snd_read]
    split_ifs <;> exact ⟨rfl, rfl⟩
  | write address value =>
    simp only [Operation.next, write]
    split_ifs <;> exact ⟨rfl, rfl⟩
  | moveMouse mouse => exact ⟨rfl, rfl⟩

theorem output_next :
    (operation.next t).output.toList = t.output.toList ++ operation.sends?.toList := by
  cases operation with
  | read address =>
    simp only [Operation.next, snd_read, Operation.sends?]
    split_ifs <;> simp
  | write address value =>
    simp only [Operation.next, write, Operation.sends?]
    split_ifs <;> simp [emit, setCell]
  | moveMouse mouse => simp [Operation.next, moveMouse, Operation.sends?]

theorem input_next : (operation.next t).input =
    t.input.drop (if operation = .read Channel.io then 1 else 0) := by
  cases operation with
  | read address =>
    simp only [Operation.next, snd_read, Operation.read.injEq]
    by_cases hio : address = Channel.io
    · subst hio
      simp [Channel.event, Channel.io]
    · simp only [if_neg hio]
      split_ifs <;> rfl
  | write address value =>
    simp only [Operation.next, write, reduceCtorEq, if_false]
    split_ifs <;> rfl
  | moveMouse mouse => rfl

theorem mouse_next : (operation.next t).mouse = operation.mouse?.getD t.mouse := by
  cases operation with
  | read address =>
    simp only [Operation.next, snd_read, Operation.mouse?]
    split_ifs <;> rfl
  | write address value =>
    simp only [Operation.next, write, Operation.mouse?]
    split_ifs <;> rfl
  | moveMouse mouse => rfl

theorem event_next : (operation.next t).event = true ↔
    (∃ mouse, operation = .moveMouse mouse) ∨ t.event = true ∧ operation ≠ .read Channel.event := by
  cases operation with
  | read address =>
    simp only [Operation.next, snd_read]
    split_ifs with hevent hio <;> simp [hevent]
  | write address value =>
    simp only [Operation.next, write]
    split_ifs <;> simp [emit, setCell]
  | moveMouse mouse => simp [Operation.next, moveMouse]

/-- A cell holds what was written to it last. Writes to the channels for output are not kept. -/
theorem cell_next {address : Int} (hconsole : address ≠ Channel.console.toInt)
    (hio : address ≠ Channel.io.toInt) : (operation.next t).cell address =
      ((operation.writes? address).map (shown t.width t.height address)).getD (t.cell address) := by
  cases operation with
  | read target =>
    simp only [Operation.next, snd_read, Operation.writes?]
    split_ifs <;> rfl
  | write target value =>
    have hconsole : target = Channel.console → target.toInt ≠ address := by
      rintro rfl
      exact hconsole.symm
    have hio : target = Channel.io → target.toInt ≠ address := by
      rintro rfl
      exact hio.symm
    simp only [Operation.next, write, Operation.writes?]
    by_cases htarget : target.toInt = address
    · rw [if_neg fun h => hconsole h htarget, if_neg fun h => hio h htarget, if_pos htarget,
        cell_setCell, if_pos htarget]
      rfl
    · rw [if_neg htarget]
      split_ifs
      · rfl
      · rfl
      · rw [cell_setCell, if_neg htarget]
        rfl
  | moveMouse mouse => rfl

theorem cell_console_next :
    (operation.next t).cell Channel.console.toInt = t.cell Channel.console.toInt := by
  cases operation with
  | read target =>
    simp only [Operation.next, snd_read]
    split_ifs <;> rfl
  | write target value =>
    simp only [Operation.next, write]
    split_ifs with hconsole hio
    · rfl
    · rfl
    · rw [cell_setCell, if_neg fun h => hconsole (Int32.toInt.inj h)]
  | moveMouse mouse => rfl

end

end

/-! ## What a history does -/

/-- Each part of the state of the terminal is what the history makes of a new one. -/
structure Follows (t : Terminal) (width height : Nat) (input : List Word)
    (history : List Operation) : Prop where
  size : t.width = width ∧ t.height = height
  output : t.output.toList = history.filterMap Operation.sends?
  input : t.input = input.drop (history.count (.read Channel.io))
  mouse : t.mouse = (latest Operation.mouse? history).getD {}
  event : t.event = true ↔ EventPending history
  console : t.cell Channel.console.toInt = 0
  cells : ∀ address, address ≠ Channel.console.toInt → address ≠ Channel.io.toInt →
    t.cell address =
      shown width height address ((latest (Operation.writes? address) history).getD 0)

namespace Follows

theorem new (width height : Nat) (input : List Word) :
    ({ width, height, input } : Terminal).Follows width height input [] where
  size := ⟨rfl, rfl⟩
  output := rfl
  input := rfl
  mouse := rfl
  event := by simp [EventPending]
  console := Std.HashMap.getD_empty
  cells := fun address _ _ => by
    rw [show (latest (Operation.writes? address) []).getD 0 = 0 from rfl, shown_zero]
    exact Std.HashMap.getD_empty

variable {t : Terminal} {width height : Nat} {input : List Word} {history : List Operation}

theorem next (h : t.Follows width height input history) (operation : Operation) :
    (operation.next t).Follows width height input (history ++ [operation]) where
  size := by
    obtain ⟨hwidth, hheight⟩ := t.size_next operation
    rw [hwidth, hheight]
    exact h.size
  output := by
    rw [output_next, h.output, List.filterMap_append]
    cases hs : operation.sends? <;> simp [hs]
  input := by
    rw [input_next, h.input, List.drop_drop, List.count_append, List.count_singleton]
    simp only [beq_iff_eq]
  mouse := by
    rw [mouse_next, h.mouse, latest_concat]
    cases operation.mouse? <;> rfl
  event := by rw [event_next, h.event, eventPending_concat]
  console := by rw [cell_console_next, h.console]
  cells := fun address hconsole hio => by
    rw [cell_next t operation hconsole hio, h.cells address hconsole hio, h.size.1, h.size.2,
      latest_concat]
    cases operation.writes? address <;> rfl

theorem after (width height : Nat) (input : List Word) (history : List Operation) :
    (Terminal.after { width, height, input } history).Follows width height input history :=
  foldl_invariant (P := fun t history => Follows t width height input history) (new width height input)
    (fun _ _ operation h => h.next operation) history

end Follows

/-! ## Answers -/

/-- What a terminal that was new before the history answers now. -/
structure Answers (t : Terminal) (width height : Nat) (input : List Word)
    (history : List Operation) : Prop where
  output : t.output.toList = history.filterMap Operation.sends?
  /-- The input is given out word by word, and is all zero after its end. -/
  read_io : (read Channel.io t).1 = input.getD (history.count (.read Channel.io)) 0
  read_event : (EventPending history → (read Channel.event t).1 = 1) ∧
    (¬ EventPending history → (read Channel.event t).1 = 0)
  read_mouseDown : (read Channel.mouseDown t).1 =
    Word.ofBool ((latest Operation.mouse? history).getD {}).down
  read_mouseX : (read Channel.mouseX t).1 = ((latest Operation.mouse? history).getD {}).x
  read_mouseY : (read Channel.mouseY t).1 = ((latest Operation.mouse? history).getD {}).y
  read_width : (read Channel.width t).1 = Int32.ofNat width
  read_height : (read Channel.height t).1 = Int32.ofNat height
  read_console : (read Channel.console t).1 = 0
  /-- The screen gives 24 bits back of what was written last, and a plain cell all. -/
  read_other : ∀ address ∉ Channel.all, (read address t).1 =
    shown width height address.toInt ((latest (Operation.writes? address.toInt) history).getD 0)
  pixel : ∀ x < width, ∀ y < height,
    ((y * width + x : Nat) : Int) ≠ Channel.console.toInt →
    ((y * width + x : Nat) : Int) ≠ Channel.io.toInt →
    t.pixel? x y =
      some (((latest (Operation.writes? (y * width + x : Nat)) history).map Pixel.ofWord).getD .black)

section
variable (t : Terminal)

theorem fst_read_io : (read Channel.io t).1 = t.input.headD 0 := by
  show t.takeInput.1 = _
  unfold takeInput
  cases t.input <;> rfl

theorem fst_read_other {address : Word} (h : address ∉ Channel.all) :
    (read address t).1 = t.cell address.toInt := by
  simp only [Channel.all, List.mem_cons, List.not_mem_nil, or_false, not_or] at h
  obtain ⟨hwidth, hheight, hevent, hdown, hx, hy, -, hio⟩ := h
  simp only [read, hwidth, hheight, hevent, hdown, hx, hy, hio, if_false]

end

theorem ofWord_shown (width height : Nat) (address : Int) (w : Word) :
    Pixel.ofWord (shown width height address w) = Pixel.ofWord w := by
  unfold shown
  split
  · exact Pixel.ofWord_low24 w
  · rfl

theorem Follows.pixel?_eq {t : Terminal} {width height : Nat} {input : List Word}
    {history : List Operation} (h : t.Follows width height input history) {x y : Nat} (hx : x < width)
    (hy : y < height) (hconsole : ((y * width + x : Nat) : Int) ≠ Channel.console.toInt)
    (hio : ((y * width + x : Nat) : Int) ≠ Channel.io.toInt) : t.pixel? x y =
      some (((latest (Operation.writes? (y * width + x : Nat)) history).map Pixel.ofWord).getD .black) := by
  obtain ⟨hwidth, hheight⟩ := h.size
  unfold pixel?
  rw [hwidth, hheight, if_pos ⟨hx, hy⟩, h.cells _ hconsole hio, ofWord_shown]
  cases latest (Operation.writes? (y * width + x : Nat)) history <;> rfl

end Terminal

/-- After any history a terminal answers as the history says, whatever its size and its input. -/
theorem terminal_answers (width height : Nat) (input : List Word) (history : List Terminal.Operation) :
    (Terminal.after { width, height, input } history).Answers width height input history := by
  have h := Terminal.Follows.after width height input history
  generalize Terminal.after { width, height, input } history = t at h ⊢
  have hevent : (Terminal.read Channel.event t).1 = Word.ofBool t.event := rfl
  refine
    { output := h.output
      read_io := ?_
      read_event := ⟨fun hpending => ?_, fun hnone => ?_⟩
      read_mouseDown := congrArg (fun mouse : Mouse => Word.ofBool mouse.down) h.mouse
      read_mouseX := congrArg Mouse.x h.mouse
      read_mouseY := congrArg Mouse.y h.mouse
      read_width := congrArg Int32.ofNat h.size.1
      read_height := congrArg Int32.ofNat h.size.2
      read_console := h.console
      read_other := fun address hother => ?_
      pixel := fun x hx y hy => h.pixel?_eq hx hy }
  · rw [t.fst_read_io, h.input, List.headD_eq_head?_getD, List.head?_drop,
      List.getD_eq_getElem?_getD]
  · rw [hevent, h.event.mpr hpending]
    rfl
  · rw [hevent, Bool.eq_false_iff.mpr (mt h.event.mp hnone)]
    rfl
  · have hne {channel : Word} (hmem : channel ∈ Channel.all) : address.toInt ≠ channel.toInt := by
      intro heq
      rw [Int32.toInt.inj heq] at hother
      exact hother hmem
    rw [t.fst_read_other hother]
    exact h.cells _ (hne (by decide)) (hne (by decide))

end WordLisp

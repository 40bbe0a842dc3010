import Std.Data.HashMap
import WordLisp.Machine.Device

/-!
# The terminal

The standard device: a screen, a mouse, a console and a queue of input words. They are reached
through channels, which are addresses near the upper end of those of the device. The lowest
`width * height` addresses are the screen, row by row, and keep the 24 bits of a colour. Every
other address is a plain cell.

The channels for reading and those for writing are not the same. A channel that is only read can
be written like any other address, which leaves what the channel reads as it is, and what is
written to a channel for output is not kept.
-/

namespace WordLisp

namespace Channel

def width : Word := 0x7FFFEE
def height : Word := 0x7FFFEF
/-- Whether a mouse event has come since the last look. -/
def event : Word := 0x7FFFF0
def mouseDown : Word := 0x7FFFF1
def mouseX : Word := 0x7FFFF2
def mouseY : Word := 0x7FFFF3
def console : Word := 0x7FFFFE
/-- Read for the next word of input, written for an alert. -/
def io : Word := 0x7FFFFF

end Channel

/-- A colour. -/
structure Pixel where
  red : UInt8
  green : UInt8
  blue : UInt8
  deriving DecidableEq, Repr

namespace Pixel

/-- The colour in the low 24 bits of a word. -/
def ofWord (w : Word) : Pixel where
  red := UInt8.ofNat (Word.bits w / 0x10000)
  green := UInt8.ofNat (Word.bits w / 0x100)
  blue := UInt8.ofNat (Word.bits w)

def toWord (p : Pixel) : Word :=
  Word.ofBits ((p.red.toNat * 0x100 + p.green.toNat) * 0x100 + p.blue.toNat)

end Pixel

structure Mouse where
  down : Bool := false
  x : Word := 0
  y : Word := 0
  deriving DecidableEq, Repr

/-- A word that the program has sent out. -/
inductive Output where
  | console (value : Word)
  | alert (value : Word)
  deriving DecidableEq, Repr

/-- The state of a terminal. -/
structure Terminal where
  width : Nat
  height : Nat
  mouse : Mouse := {}
  /-- A mouse event that the program has not noticed yet. -/
  event : Bool := false
  /-- The words that the input channel has still to give. -/
  input : List Word := []
  /-- What the program has sent out, in order. -/
  output : Array Output := #[]
  /-- The words written to the screen and to plain cells, by address. -/
  cells : Std.HashMap Int Word := {}

namespace Terminal

/-- The address belongs to the screen. -/
def OnScreen (t : Terminal) (address : Word) : Prop :=
  0 ≤ address ∧ address.toInt < t.width * t.height

instance (t : Terminal) (address : Word) : Decidable (t.OnScreen address) :=
  inferInstanceAs (Decidable (_ ∧ _))

/-- The word in the cell at an address. -/
def cell (t : Terminal) (address : Int) : Word := t.cells.getD address 0

/-- Changes a cell; on the screen only the colour of the word is kept. -/
def setCell (t : Terminal) (address value : Word) : Terminal :=
  let kept := if t.OnScreen address then (Pixel.ofWord value).toWord else value
  { t with cells := t.cells.insert address.toInt kept }

/-- Takes the next word of input, which is `0` when there is none. -/
def takeInput (t : Terminal) : Word × Terminal :=
  match t.input with
  | [] => (0, t)
  | word :: rest => (word, { t with input := rest })

def emit (t : Terminal) (output : Output) : Terminal :=
  { t with output := t.output.push output }

def read (address : Word) (t : Terminal) : Word × Terminal :=
  if address = Channel.width then (Int32.ofNat t.width, t)
  else if address = Channel.height then (Int32.ofNat t.height, t)
  else if address = Channel.event then (Word.ofBool t.event, { t with event := false })
  else if address = Channel.mouseDown then (Word.ofBool t.mouse.down, t)
  else if address = Channel.mouseX then (t.mouse.x, t)
  else if address = Channel.mouseY then (t.mouse.y, t)
  else if address = Channel.io then t.takeInput
  else (t.cell address.toInt, t)

def write (address value : Word) (t : Terminal) : Terminal :=
  if address = Channel.console then t.emit (.console value)
  else if address = Channel.io then t.emit (.alert value)
  else t.setCell address value

instance : Device Terminal := ⟨read, write⟩

/-- Records what the mouse does, for the program to notice. -/
def moveMouse (t : Terminal) (mouse : Mouse) : Terminal := { t with mouse, event := true }

/-- The colour on the screen in column `x` of row `y`. -/
def pixel? (t : Terminal) (x y : Nat) : Option Pixel :=
  if x < t.width ∧ y < t.height then some (Pixel.ofWord (t.cell (y * t.width + x : Nat)))
  else none

end Terminal

end WordLisp

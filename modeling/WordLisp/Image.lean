import WordLisp.Instruction.Encoding

/-!
# Images

An assembled program is a list of words. It is kept in a file as bytes, four to a word with the
most significant first.
-/

namespace WordLisp.Image

/-! ## Bytes -/

/-- The four bytes of a word, most significant first. -/
def wordBytes (w : Word) : List UInt8 :=
  let n := Word.bits w
  [UInt8.ofNat (n / 0x1000000), UInt8.ofNat (n / 0x10000), UInt8.ofNat (n / 0x100), UInt8.ofNat n]

/-- The word made of four bytes, most significant first. -/
def wordOfBytes (a b c d : UInt8) : Word :=
  Word.ofBits (((a.toNat * 0x100 + b.toNat) * 0x100 + c.toNat) * 0x100 + d.toNat)

def toBytes (words : List Word) : List UInt8 := words.flatMap wordBytes

/-- The words of a row of bytes, and nothing if some bytes are left over. -/
def wordsOfBytes? : List UInt8 → Option (List Word)
  | [] => some []
  | a :: b :: c :: d :: rest => (wordsOfBytes? rest).map (wordOfBytes a b c d :: ·)
  | _ => none

def ofBytes (bytes : List UInt8) : Except AssemblyError (List Word) :=
  match wordsOfBytes? bytes with
  | some words => .ok words
  | none => .error (.truncated bytes.length)

/-! ## Disassembly -/

/-- The instruction that a word encodes, or the word as data if it encodes none. -/
def wordText (w : Word) : String :=
  match Instruction.decode? w with
  | some i => i.text
  | none => ".word " ++ Word.text w

/-- A row of the disassembly: the offset, the pattern and the meaning of a word. -/
def rowText (offset : Nat) (w : Word) : String :=
  Numeral.hexPadded 6 offset ++ "  " ++ Numeral.hexPadded 8 (Word.bits w) ++ "  " ++
    wordText w ++ "\n"

/-- Each word of an image with the instruction that it encodes. -/
def disassembly (words : List Word) : String :=
  String.join (words.mapIdx rowText)

end WordLisp.Image

/-!
Text from UTF-8 bytes. Bytes that are no text become the replacement character, one for each longest
start of a character that is cut off or goes wrong.
-/
namespace ApiSchema.Text

def replacement : Char := Char.ofNat 0xFFFD

/-- How many bytes follow a first byte, its own bits, and the range of the byte after it. -/
structure Lead where
  more : Nat
  bits : Nat
  least : Nat
  greatest : Nat

def lead? (b : Nat) : Option Lead :=
  if 0xC2 ≤ b && b ≤ 0xDF then some ⟨1, b - 0xC0, 0x80, 0xBF⟩
  else if b == 0xE0 then some ⟨2, 0, 0xA0, 0xBF⟩
  else if b == 0xED then some ⟨2, 0xD, 0x80, 0x9F⟩
  else if 0xE1 ≤ b && b ≤ 0xEF then some ⟨2, b - 0xE0, 0x80, 0xBF⟩
  else if b == 0xF0 then some ⟨3, 0, 0x90, 0xBF⟩
  else if 0xF1 ≤ b && b ≤ 0xF3 then some ⟨3, b - 0xF0, 0x80, 0xBF⟩
  else if b == 0xF4 then some ⟨3, 4, 0x80, 0x8F⟩
  else none

/-- Decodes bytes; the pending character, if any, waits for more of them. -/
def decodeFrom : Option Lead → List Nat → List Char
  | none, [] => []
  | some _, [] => [replacement]
  | none, b :: rest => start b rest
  | some l, b :: rest =>
    if l.least ≤ b && b ≤ l.greatest then
      let bits := l.bits * 64 + (b - 0x80)
      if l.more ≤ 1 then Char.ofNat bits :: decodeFrom none rest
      else decodeFrom (some ⟨l.more - 1, bits, 0x80, 0xBF⟩) rest
    else replacement :: start b rest
where
  start (b : Nat) (rest : List Nat) : List Char :=
    if b < 0x80 then Char.ofNat b :: decodeFrom none rest
    else match lead? b with
      | some l => decodeFrom (some l) rest
      | none => replacement :: decodeFrom none rest

def ofBytes (bytes : List Nat) : String := String.ofList (decodeFrom none bytes)

def toBytes (s : String) : List Nat := s.toUTF8.toList.map UInt8.toNat

end ApiSchema.Text

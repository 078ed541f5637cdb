import ReleasePipeline.Text.Digit

/-! Texts in UTF-8 bytes. Main statement: reading what was written gives the text back. -/
namespace ReleasePipeline.Text

/-- What is wrong with the bytes at a place that UTF-8 does not admit. -/
inductive Utf8Fault where
  | startByte
  | continuationByte
  | endOfData
deriving DecidableEq, Repr

/-- The first place where bytes are not UTF-8: the positions `first ≤ i < stop`, of which the byte
at `first` is `byte`. -/
structure Utf8Error where
  byte : UInt8
  first : Nat
  stop : Nat
  fault : Utf8Fault
deriving DecidableEq, Repr

namespace Utf8Error

def reason : Utf8Fault → String
  | .startByte => "invalid start byte"
  | .continuationByte => "invalid continuation byte"
  | .endOfData => "unexpected end of data"

/-- The message names a single byte by its value and longer places by their ends. -/
def message (e : Utf8Error) : String :=
  if e.stop = e.first + 1 then
    s!"'utf-8' codec can't decode byte 0x{String.ofList (hexPadded 2 e.byte.toNat)} in position {e.first}: {reason e.fault}"
  else
    s!"'utf-8' codec can't decode bytes in position {e.first}-{e.stop - 1}: {reason e.fault}"

end Utf8Error

/-- The number of bytes after a start byte and the bounds of the first of them. -/
def utf8Tail? (b : UInt8) : Option (Nat × UInt8 × UInt8) :=
  if b < 0x80 then some (0, 0x80, 0xbf)
  else if 0xc2 ≤ b && b ≤ 0xdf then some (1, 0x80, 0xbf)
  else if b = 0xe0 then some (2, 0xa0, 0xbf)
  else if b = 0xed then some (2, 0x80, 0x9f)
  else if 0xe1 ≤ b && b ≤ 0xef then some (2, 0x80, 0xbf)
  else if b = 0xf0 then some (3, 0x90, 0xbf)
  else if b = 0xf4 then some (3, 0x80, 0x8f)
  else if 0xf1 ≤ b && b ≤ 0xf3 then some (3, 0x80, 0xbf)
  else none

/-- The fault in the bytes of one character after its start byte, with the number of bytes read
before it. -/
def utf8TailFault? (low high : UInt8) : (need read : Nat) → List UInt8 → Option (Nat × Utf8Fault)
  | 0, _, _ => none
  | _ + 1, read, [] => some (read, .endOfData)
  | need + 1, read, b :: bs =>
    if low ≤ b && b ≤ high then utf8TailFault? 0x80 0xbf need (read + 1) bs
    else some (read, .continuationByte)

/-- The first place from `pos` on where the bytes are not UTF-8. -/
def firstUtf8Fault (pos : Nat) (bytes : List UInt8) : Option Utf8Error :=
  match bytes with
  | [] => none
  | b :: rest =>
    match utf8Tail? b with
    | none => some ⟨b, pos, pos + 1, .startByte⟩
    | some (need, low, high) =>
      match utf8TailFault? low high need 0 rest with
      | some (read, fault) => some ⟨b, pos, pos + 1 + read, fault⟩
      | none => firstUtf8Fault (pos + 1 + need) (rest.drop need)
termination_by bytes.length

/-- The text that the bytes write, or the first place where they write none. -/
def decodeUtf8 (bytes : ByteArray) : Except Utf8Error String :=
  match String.fromUTF8? bytes with
  | some s => .ok s
  | none => .error ((firstUtf8Fault 0 bytes.toList).getD ⟨0, 0, 1, .startByte⟩)

theorem decodeUtf8_toUTF8 (s : String) : decodeUtf8 s.toUTF8 = .ok s := by
  have h : s.toUTF8.IsValidUTF8 := s.isValidUTF8
  simp only [decodeUtf8, String.fromUTF8?, h, ↓reduceDIte]
  rfl

end ReleasePipeline.Text

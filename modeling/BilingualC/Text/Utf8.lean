import BilingualC.Text.Quoted

/-!
# Reading bytes as text

Bytes that are well-formed UTF-8 give their characters. A byte that starts no well-formed sequence
gives the replacement character, and reading goes on with the byte after it.
-/

namespace BilingualC.Text

/-- The bits that a continuation byte carries. -/
def tailBits (b : UInt8) : Nat := b.toNat % 64

/-- Says whether a byte continues a sequence. -/
def isTail (b : UInt8) : Bool := 0x80 ≤ b.toNat && b.toNat ≤ 0xbf

/-- Says whether the second byte of a three-byte sequence suits its first byte. -/
def suitsThree (a b : UInt8) : Bool :=
  (if a.toNat == 0xe0 then 0xa0 else 0x80) ≤ b.toNat
    && b.toNat ≤ (if a.toNat == 0xed then 0x9f else 0xbf)

/-- Says whether the second byte of a four-byte sequence suits its first byte. -/
def suitsFour (a b : UInt8) : Bool :=
  (if a.toNat == 0xf0 then 0x90 else 0x80) ≤ b.toNat
    && b.toNat ≤ (if a.toNat == 0xf4 then 0x8f else 0xbf)

/-- The character of a two-byte sequence at the start of the bytes. -/
def twoBytes? : List UInt8 → Option Char
  | a :: b :: _ =>
    if 0xc2 ≤ a.toNat && a.toNat ≤ 0xdf && isTail b then
      some (Char.ofNat ((a.toNat - 0xc0) * 64 + tailBits b))
    else none
  | _ => none

/-- The character of a three-byte sequence at the start of the bytes. -/
def threeBytes? : List UInt8 → Option Char
  | a :: b :: c :: _ =>
    if 0xe0 ≤ a.toNat && a.toNat ≤ 0xef && suitsThree a b && isTail c then
      some (Char.ofNat (((a.toNat - 0xe0) * 64 + tailBits b) * 64 + tailBits c))
    else none
  | _ => none

/-- The character of a four-byte sequence at the start of the bytes. -/
def fourBytes? : List UInt8 → Option Char
  | a :: b :: c :: d :: _ =>
    if 0xf0 ≤ a.toNat && a.toNat ≤ 0xf4 && suitsFour a b && isTail c && isTail d then
      some (Char.ofNat ((((a.toNat - 0xf0) * 64 + tailBits b) * 64 + tailBits c) * 64 + tailBits d))
    else none
  | _ => none

/-- The first character of the bytes and the number of bytes it takes, if it is well formed. -/
def firstChar? (bytes : List UInt8) : Option (Char × Nat) :=
  match bytes with
  | [] => none
  | a :: _ =>
    if a.toNat < 0x80 then some (Char.ofNat a.toNat, 1)
    else match twoBytes? bytes, threeBytes? bytes, fourBytes? bytes with
      | some c, _, _ => some (c, 2)
      | _, some c, _ => some (c, 3)
      | _, _, some c => some (c, 4)
      | _, _, _ => none

/-- Reads bytes as characters. -/
def decodeUtf8 : List UInt8 → List Char
  | [] => []
  | a :: rest =>
    match firstChar? (a :: rest) with
    | some (c, width) => c :: decodeUtf8 (rest.drop (width - 1))
    | none => replacement :: decodeUtf8 rest
termination_by bytes => bytes.length
decreasing_by all_goals (simp only [List.length_cons, List.length_drop]; omega)

/-- Says whether bytes are well-formed UTF-8 throughout. -/
def isUtf8 : List UInt8 → Bool
  | [] => true
  | a :: rest =>
    match firstChar? (a :: rest) with
    | some (_, width) => isUtf8 (rest.drop (width - 1))
    | none => false
termination_by bytes => bytes.length
decreasing_by all_goals (simp only [List.length_cons, List.length_drop]; omega)

/-- Reads bytes as a text. -/
def textOfBytes (bytes : List UInt8) : String := String.ofList (decodeUtf8 bytes)

/-- The bytes of a text. -/
def bytesOfText (s : String) : List UInt8 := s.toUTF8.toList

end BilingualC.Text

import BilingualC.Text.Utf8

/-!
# Checksums

The 64-bit xxHash of a list of bytes with seed zero. Blocks of 32 bytes feed four lanes, the lanes
are merged, and the last bytes are taken in eight, four and one at a time.
-/

namespace BilingualC.Checksum

def prime1 : UInt64 := 11400714785074694791
def prime2 : UInt64 := 14029467366897019727
def prime3 : UInt64 := 1609587929392839161
def prime4 : UInt64 := 9650029242287828579
def prime5 : UInt64 := 2870177450012600261

def rotate (x : UInt64) (bits : UInt64) : UInt64 := (x <<< bits) ||| (x >>> (64 - bits))

/-- The number whose bytes are given, lowest byte first. -/
def littleEndian : List UInt8 → UInt64
  | [] => 0
  | b :: bytes => b.toUInt64 + 256 * littleEndian bytes

/-- Takes eight bytes into a lane. -/
def round (lane input : UInt64) : UInt64 := rotate (lane + input * prime2) 31 * prime1

/-- Merges a lane into the sum of all lanes. -/
def merge (sum lane : UInt64) : UInt64 := (sum ^^^ round 0 lane) * prime1 + prime4

/-- The state of the four lanes. -/
structure Lanes where
  a : UInt64
  b : UInt64
  c : UInt64
  d : UInt64

def Lanes.start : Lanes := ⟨prime1 + prime2, prime2, 0, 0 - prime1⟩

/-- The eight bytes at a place of a block. -/
def wordAt (bytes : List UInt8) (i : Nat) : UInt64 := littleEndian ((bytes.drop i).take 8)

/-- Takes a block of 32 bytes into the lanes. -/
def Lanes.take (l : Lanes) (block : List UInt8) : Lanes :=
  ⟨round l.a (wordAt block 0), round l.b (wordAt block 8), round l.c (wordAt block 16),
    round l.d (wordAt block 24)⟩

/-- Takes all whole blocks into the lanes and gives the bytes that are left. -/
def Lanes.takeAll (l : Lanes) (bytes : List UInt8) : Lanes × List UInt8 :=
  if bytes.length < 32 then (l, bytes) else (l.take bytes).takeAll (bytes.drop 32)
termination_by bytes.length
decreasing_by simp only [List.length_drop]; omega

/-- The sum of the lanes. -/
def Lanes.sum (l : Lanes) : UInt64 :=
  let all := rotate l.a 1 + rotate l.b 7 + rotate l.c 12 + rotate l.d 18
  merge (merge (merge (merge all l.a) l.b) l.c) l.d

/-- Takes in the bytes that fill no block. -/
def tail (h : UInt64) (bytes : List UInt8) : UInt64 :=
  if 8 ≤ bytes.length then
    tail (rotate (h ^^^ round 0 (wordAt bytes 0)) 27 * prime1 + prime4) (bytes.drop 8)
  else if 4 ≤ bytes.length then
    tail (rotate (h ^^^ (littleEndian (bytes.take 4) * prime1)) 23 * prime2 + prime3) (bytes.drop 4)
  else match bytes with
    | [] => h
    | b :: rest => tail (rotate (h ^^^ (b.toUInt64 * prime5)) 11 * prime1) rest
termination_by bytes.length
decreasing_by all_goals (simp only [List.length_drop, List.length_cons]; omega)

/-- Spreads the last bits over the whole sum. -/
def avalanche (h : UInt64) : UInt64 :=
  let h := (h ^^^ (h >>> 33)) * prime2
  let h := (h ^^^ (h >>> 29)) * prime3
  h ^^^ (h >>> 32)

/-- The checksum of bytes. -/
def ofBytes (bytes : List UInt8) : UInt64 :=
  let count := UInt64.ofNat bytes.length
  if bytes.length < 32 then avalanche (tail (prime5 + count) bytes)
  else
    let (lanes, rest) := Lanes.start.takeAll bytes
    avalanche (tail (lanes.sum + count) rest)

/-- The checksum of a text. -/
def ofText (s : String) : UInt64 := ofBytes (Text.bytesOfText s)

/-- A checksum in base sixteen without leading zeros. -/
def toHex (h : UInt64) : String := String.ofList (Nat.toDigits 16 h.toNat)

end BilingualC.Checksum

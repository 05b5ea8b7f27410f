import Mathlib
import BilingualC.Proofs.Image.Text

/-!
# Texts as bytes and back

Reading the bytes of a text gives the text again: `Text.decodeUtf8_bytesOfText`.
-/

namespace BilingualC.Text

theorem bytesOfText_eq (s : String) : bytesOfText s = s.toList.flatMap String.utf8EncodeChar := by
  rw [bytesOfText, ByteArray.toList, Image.toList_loop,
    List.reverse_nil, List.nil_append, List.drop_zero,
    String.toUTF8, ← String.utf8Encode_toList, List.utf8Encode, List.data_toByteArray]

/-- A character is no half of a pair, and not too large. -/
theorem toNat_valid (c : Char) : c.toNat < 0xd800 ∨ 0xdfff < c.toNat ∧ c.toNat < 0x110000 := c.valid

theorem toNat_ofNat {n : Nat} (small : n < 256) : (UInt8.ofNat n).toNat = n := by
  rw [UInt8.toNat_ofNat']
  exact Nat.mod_eq_of_lt small

theorem isTail_ofNat (n : Nat) : isTail (UInt8.ofNat (n % 64 + 128)) = true := by
  have here : (UInt8.ofNat (n % 64 + 128)).toNat = n % 64 + 128 := toNat_ofNat (by omega)
  simp only [isTail, here, Bool.and_eq_true, decide_eq_true_eq]
  omega

theorem tailBits_ofNat (n : Nat) : tailBits (UInt8.ofNat (n % 64 + 128)) = n % 64 := by
  rw [tailBits, toNat_ofNat (by omega)]
  omega

/-- The bytes of a character are read as that character. -/
theorem firstChar?_utf8EncodeChar (c : Char) (rest : List UInt8) :
    firstChar? (String.utf8EncodeChar c ++ rest) = some (c, (String.utf8EncodeChar c).length) := by
  have valid := toNat_valid c
  have same : Char.ofNat c.toNat = c := Char.ofNat_toNat c
  have value : c.val.toNat = c.toNat := rfl
  simp only [String.utf8EncodeChar, value]
  generalize c.toNat = n at *
  -- the four lengths in turn; the first byte rules out the shorter ones, and the bits that were
  -- split off add up to the number again
  split
  · have here : (UInt8.ofNat n).toNat = n := toNat_ofNat (by omega)
    simp only [List.cons_append, List.nil_append, firstChar?, here, same]
    rw [if_pos (by omega)]
    rfl
  · split
    · have first : (UInt8.ofNat (n / 64 % 32 + 192)).toNat = n / 64 % 32 + 192 :=
        toNat_ofNat (by omega)
      have two : twoBytes? (UInt8.ofNat (n / 64 % 32 + 192) :: UInt8.ofNat (n % 64 + 128) :: rest) =
        some c := by
        have whole : (n / 64 % 32 + 192 - 0xc0) * 64 + n % 64 = n := by omega
        simp only [twoBytes?, first, isTail_ofNat, tailBits_ofNat, whole, same]
        rw [if_pos (by simp; omega)]
      simp only [List.cons_append, List.nil_append, firstChar?, first, two]
      rw [if_neg (by omega)]
      rfl
    · split
      · have first : (UInt8.ofNat (n / 4096 % 16 + 224)).toNat = n / 4096 % 16 + 224 :=
          toNat_ofNat (by omega)
        have second : (UInt8.ofNat (n / 64 % 64 + 128)).toNat = n / 64 % 64 + 128 :=
          toNat_ofNat (by omega)
        have notTwo : twoBytes? (UInt8.ofNat (n / 4096 % 16 + 224) ::
            UInt8.ofNat (n / 64 % 64 + 128) :: UInt8.ofNat (n % 64 + 128) :: rest) = none := by
          simp only [twoBytes?, first]
          rw [if_neg (by simp)]
        have three : threeBytes? (UInt8.ofNat (n / 4096 % 16 + 224) ::
            UInt8.ofNat (n / 64 % 64 + 128) :: UInt8.ofNat (n % 64 + 128) :: rest) = some c := by
          have whole : ((n / 4096 % 16 + 224 - 0xe0) * 64 + n / 64 % 64) * 64 + n % 64 = n := by
            omega
          have suits : suitsThree (UInt8.ofNat (n / 4096 % 16 + 224))
            (UInt8.ofNat (n / 64 % 64 + 128)) = true := by
            simp only [suitsThree, first, second, Bool.and_eq_true, decide_eq_true_eq, beq_iff_eq]
            constructor <;> split <;> omega
          simp only [threeBytes?, first, suits, isTail_ofNat, tailBits_ofNat, whole, same]
          rw [if_pos (by simp; omega)]
        simp only [List.cons_append, List.nil_append, firstChar?, first, notTwo, three]
        rw [if_neg (by omega)]
        rfl
      · have first : (UInt8.ofNat (n / 262144 % 8 + 240)).toNat = n / 262144 % 8 + 240 :=
          toNat_ofNat (by omega)
        have second : (UInt8.ofNat (n / 4096 % 64 + 128)).toNat = n / 4096 % 64 + 128 :=
          toNat_ofNat (by omega)
        have notTwo :
            twoBytes? (UInt8.ofNat (n / 262144 % 8 + 240) :: UInt8.ofNat (n / 4096 % 64 + 128)
            :: UInt8.ofNat (n / 64 % 64 + 128) :: UInt8.ofNat (n % 64 + 128) :: rest) = none := by
          simp only [twoBytes?, first]
          rw [if_neg (by simp)]
        have notThree :
            threeBytes? (UInt8.ofNat (n / 262144 % 8 + 240) :: UInt8.ofNat (n / 4096 % 64 + 128)
            :: UInt8.ofNat (n / 64 % 64 + 128) :: UInt8.ofNat (n % 64 + 128) :: rest) = none := by
          simp only [threeBytes?, first]
          rw [if_neg (by simp)]
        have four :
            fourBytes? (UInt8.ofNat (n / 262144 % 8 + 240) :: UInt8.ofNat (n / 4096 % 64 + 128)
            :: UInt8.ofNat (n / 64 % 64 + 128) :: UInt8.ofNat (n % 64 + 128) :: rest) = some c := by
          have whole : (((n / 262144 % 8 + 240 - 0xf0) * 64 + n / 4096 % 64) * 64 + n / 64 % 64) *
            64 + n % 64 = n := by
            omega
          have suits : suitsFour (UInt8.ofNat (n / 262144 % 8 + 240))
            (UInt8.ofNat (n / 4096 % 64 + 128)) = true := by
            simp only [suitsFour, first, second, Bool.and_eq_true, decide_eq_true_eq, beq_iff_eq]
            constructor <;> split <;> omega
          simp only [fourBytes?, first, suits, isTail_ofNat, tailBits_ofNat, whole, same]
          rw [if_pos (by simp; omega)]
        simp only [List.cons_append, List.nil_append, firstChar?, first, notTwo, notThree, four]
        rw [if_neg (by omega)]
        rfl

/-- Reading the bytes of a text gives its characters. -/
theorem decodeUtf8_bytesOfText (s : String) : decodeUtf8 (bytesOfText s) = s.toList := by
  rw [bytesOfText_eq]
  induction s.toList with
  | nil => rw [List.flatMap_nil, decodeUtf8]
  | cons c cs ih =>
    have first := firstChar?_utf8EncodeChar c (cs.flatMap String.utf8EncodeChar)
    obtain ⟨b, more, bytes⟩ : ∃ b more, String.utf8EncodeChar c = b :: more :=
      List.exists_cons_of_ne_nil (String.utf8EncodeChar_ne_nil)
    rw [bytes] at first
    rw [List.flatMap_cons, bytes, List.cons_append, decodeUtf8.eq_2, ← List.cons_append, first]
    simp [ih]

end BilingualC.Text

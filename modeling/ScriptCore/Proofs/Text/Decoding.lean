import ScriptCore.Text.Utf8

/-!
# Reading what was written

The bytes of a string are read back as the string.  Between characters the reader meets a first
byte, which tells how many bytes are owed and bounds the next one, and then takes six bits from each
of them.  The bytes that are written for a character pass all these checks, whatever their number.

What is read of any bytes is a string, and the bytes of a string are UTF-8.  So bytes come back from
reading and writing exactly if they are UTF-8.

Main statements: `decodeLossy_encode` and `encode_decodeLossy_iff`.
-/

namespace ScriptCore.Utf8

section
variable {b : UInt8} {owed low high bits n : Nat} (rest : List UInt8)

/-- A first byte that begins a longer character. -/
theorem decodeFrom_first {p : Pending} (hb : b.toNat = n) (hlead : lead n = .begins p) :
    decodeFrom none (b :: rest) = decodeFrom (some p) rest := by
  simp only [decodeFrom, hb, hlead]

/-- A byte in the middle of a character. -/
theorem decodeFrom_middle (hb : b.toNat = n + 128) (hlow : low ≤ n + 128) (hhigh : n + 128 ≤ high) :
    decodeFrom (some ⟨owed + 2, low, high, bits⟩) (b :: rest) =
      decodeFrom (some ⟨owed + 1, 0x80, 0xBF, bits * 64 + n⟩) rest := by
  simp only [decodeFrom, hb]
  rw [if_pos ⟨hlow, hhigh⟩, if_neg (by omega), Nat.add_sub_cancel,
    show owed + 2 - 1 = owed + 1 from rfl]

/-- The last byte of a character. -/
theorem decodeFrom_last (hb : b.toNat = n + 128) (hlow : low ≤ n + 128) (hhigh : n + 128 ≤ high) :
    decodeFrom (some ⟨1, low, high, bits⟩) (b :: rest) =
      scalarOr (bits * 64 + n) :: decodeFrom none rest := by
  simp only [decodeFrom, hb]
  rw [if_pos ⟨hlow, hhigh⟩, if_pos (Nat.le_refl 1), Nat.add_sub_cancel]

end

/-- The number of a character is that of the character. -/
theorem scalarOr_toNat (c : Char) : scalarOr c.toNat = c := by
  have hvalid : c.toNat.isValidChar := c.valid
  rw [scalarOr, dif_pos hvalid]
  rfl

/-- The first byte of a character in two bytes. -/
theorem lead_two {n : Nat} (hlow : 0x80 ≤ n) (hhigh : n < 0x800) :
    lead (n / 64 + 192) = .begins ⟨1, 0x80, 0xBF, n / 64⟩ := by
  rw [lead, if_neg (by omega), if_neg (by omega), if_pos (by omega), Nat.add_sub_cancel]

/-- The first byte of a character in three bytes leaves room for the second one. -/
theorem lead_three {n : Nat} (hlow : 0x800 ≤ n) (hhigh : n < 0x10000)
    (hscalar : n < 0xD800 ∨ 0xDFFF < n) :
    ∃ low high, lead (n / 4096 + 224) = .begins ⟨2, low, high, n / 4096⟩ ∧
      low ≤ n / 64 % 64 + 128 ∧ n / 64 % 64 + 128 ≤ high := by
  rw [lead, if_neg (by omega), if_neg (by omega), if_neg (by omega)]
  by_cases he0 : n / 4096 = 0
  · exact ⟨0xA0, 0xBF, by simp [he0], by omega, by omega⟩
  · rw [if_neg (by omega)]
    by_cases hed : n / 4096 = 0xD
    · exact ⟨0x80, 0x9F, by simp [hed], by omega, by omega⟩
    · rw [if_neg (by omega), if_pos (by omega), Nat.add_sub_cancel]
      exact ⟨0x80, 0xBF, rfl, by omega, by omega⟩

/-- The first byte of a character in four bytes leaves room for the second one. -/
theorem lead_four {n : Nat} (hlow : 0x10000 ≤ n) (hhigh : n < 0x110000) :
    ∃ low high, lead (n / 262144 + 240) = .begins ⟨3, low, high, n / 262144⟩ ∧
      low ≤ n / 4096 % 64 + 128 ∧ n / 4096 % 64 + 128 ≤ high := by
  rw [lead, if_neg (by omega), if_neg (by omega), if_neg (by omega), if_neg (by omega),
    if_neg (by omega), if_neg (by omega)]
  by_cases hf0 : n / 262144 = 0
  · exact ⟨0x90, 0xBF, by simp [hf0], by omega, by omega⟩
  · rw [if_neg (by omega)]
    by_cases hf4 : n / 262144 = 4
    · exact ⟨0x80, 0x8F, by simp [hf4], by omega, by omega⟩
    · rw [if_pos (by omega), Nat.add_sub_cancel]
      exact ⟨0x80, 0xBF, rfl, by omega, by omega⟩

/-- The bytes of a character by its number. -/
theorem encodeChar_eq (c : Char) : String.utf8EncodeChar c =
    if c.toNat ≤ 0x7F then [UInt8.ofNat c.toNat]
    else if c.toNat ≤ 0x7FF then
      [UInt8.ofNat (c.toNat / 64 % 32 + 192), UInt8.ofNat (c.toNat % 64 + 128)]
    else if c.toNat ≤ 0xFFFF then
      [UInt8.ofNat (c.toNat / 4096 % 16 + 224), UInt8.ofNat (c.toNat / 64 % 64 + 128),
        UInt8.ofNat (c.toNat % 64 + 128)]
    else
      [UInt8.ofNat (c.toNat / 262144 % 8 + 240), UInt8.ofNat (c.toNat / 4096 % 64 + 128),
        UInt8.ofNat (c.toNat / 64 % 64 + 128), UInt8.ofNat (c.toNat % 64 + 128)] := rfl

/-- A small number as a byte. -/
theorem toNat_byte {n : Nat} (h : n < 256) : (UInt8.ofNat n).toNat = n := by
  rw [UInt8.toNat_ofNat', Nat.mod_eq_of_lt h]

/-- **A character is read back** from the bytes that are written for it. -/
theorem decodeFrom_encodeChar (c : Char) (rest : List UInt8) :
    decodeFrom none (String.utf8EncodeChar c ++ rest) = c :: decodeFrom none rest := by
  have hvalid : c.toNat < 0xD800 ∨ 0xDFFF < c.toNat ∧ c.toNat < 0x110000 := c.valid
  have hscalar {n : Nat} (hn : n = c.toNat) : scalarOr n = c := hn ▸ scalarOr_toNat c
  -- six bits of the number make a byte of their own
  have hsix (n : Nat) : (UInt8.ofNat (n % 64 + 128)).toNat = n % 64 + 128 := toNat_byte (by omega)
  rw [encodeChar_eq]
  split
  · have hbyte := toNat_byte (show c.toNat < 256 by omega)
    rw [List.singleton_append, decode_cons_ascii _ _ (by omega), hbyte, Char.ofNat_toNat]
  · split
    · rw [Nat.mod_eq_of_lt (show c.toNat / 64 < 32 by omega)]
      simp only [List.cons_append, List.nil_append]
      rw [decodeFrom_first _ (toNat_byte (by omega)) (lead_two (by omega) (by omega)),
        decodeFrom_last _ (hsix _) (by omega) (by omega), hscalar (by omega)]
    · split
      · obtain ⟨low, high, hlead, hlow, hhigh⟩ :=
          lead_three (n := c.toNat) (by omega) (by omega) (by omega)
        rw [Nat.mod_eq_of_lt (show c.toNat / 4096 < 16 by omega)]
        simp only [List.cons_append, List.nil_append]
        rw [decodeFrom_first _ (toNat_byte (by omega)) hlead,
          decodeFrom_middle _ (hsix _) hlow hhigh,
          decodeFrom_last _ (hsix _) (by omega) (by omega), hscalar (by omega)]
      · obtain ⟨low, high, hlead, hlow, hhigh⟩ :=
          lead_four (n := c.toNat) (by omega) (by omega)
        rw [Nat.mod_eq_of_lt (show c.toNat / 262144 < 8 by omega)]
        simp only [List.cons_append, List.nil_append]
        rw [decodeFrom_first _ (toNat_byte (by omega)) hlead,
          decodeFrom_middle _ (hsix _) hlow hhigh,
          decodeFrom_middle _ (hsix _) (by omega) (by omega),
          decodeFrom_last _ (hsix _) (by omega) (by omega), hscalar (by omega)]

/-- **A string is read back** from its bytes. -/
theorem decodeLossy_encode (s : String) : decodeLossy (encode s) = s := by
  have hchars : ∀ cs : List Char, decodeFrom none (cs.flatMap String.utf8EncodeChar) = cs := by
    intro cs
    induction cs with
    | nil => rfl
    | cons c cs ih => rw [List.flatMap_cons, decodeFrom_encodeChar, ih]
  rw [decodeLossy, encode, hchars, String.ofList_toList]

/-- The bytes of a string are UTF-8, and all byte lists that are UTF-8 are the bytes of a string. -/
theorem isValidUTF8_iff (bytes : List UInt8) :
    bytes.toByteArray.IsValidUTF8 ↔ ∃ s, bytes = encode s := by
  constructor
  · rintro ⟨chars, hbytes⟩
    refine ⟨String.ofList chars, ?_⟩
    rw [encode, String.toList_ofList]
    have hdata := congrArg (fun a => a.data.toList) hbytes
    simpa [List.utf8Encode] using hdata
  · rintro ⟨s, rfl⟩
    exact ⟨s.toList, rfl⟩

/-- **Bytes come back** from reading and writing exactly if they are UTF-8. -/
theorem encode_decodeLossy_iff (bytes : List UInt8) :
    encode (decodeLossy bytes) = bytes ↔ bytes.toByteArray.IsValidUTF8 := by
  rw [isValidUTF8_iff]
  constructor
  · intro h
    exact ⟨_, h.symm⟩
  · rintro ⟨s, rfl⟩
    rw [decodeLossy_encode]

end ScriptCore.Utf8

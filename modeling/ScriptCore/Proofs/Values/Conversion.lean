import ScriptCore.Proofs.Constants.Boxing
import ScriptCore.Proofs.Text.Decoding
import ScriptCore.Proofs.Values.Arithmetic
import ScriptCore.Proofs.Values.Slices

/-!
# Conversions at run time

A conversion gives a value that can be stored in a location of the target type, and converting it
once more changes nothing: numbers have been cut to the width or the precision of the kind, strings
and slices are what other values are turned into, and anything else is handed on if it fits.

An integer that is converted to an integer kind becomes its representative in the range of the kind.
A string that is converted to bytes and back is the same string.  A slice of bytes that is converted
to a string and back gives the same bytes if they are UTF-8, and no others do; but the nil slice,
which holds no bytes, is not converted to a string at all.

Main statements: `Heap.convert_settles` and `Heap.convert_lawful`.
-/

namespace ScriptCore

variable {t : TypeTable} {h h' : Heap} {v w : Value} {ty : Ty}

/-! ### Values that stay as they are -/

/-- Values into which others are turned when they are converted to a type of the kind. -/
inductive Kind.Settled (k : Kind) : Value → Prop
  | int (hk : k.category = .int) (x : Int64) : k.Settled (.int (narrowInt k x))
  | uint (hk : k.category = .uint) (x : UInt64) : k.Settled (.uint (narrowUint k x))
  | float (hk : k.category = .float) (x : Float) : k.Settled (.float (narrowFloat k x))
  | complex (hk : k.category = .complex) (re im : Float) :
      k.Settled (.complex (narrowFloat k re) (narrowFloat k im))
  | str (hk : k.category = .string) (s : String) : k.Settled (.str s)
  | slice (hk : k = .slice) (s : Slice) : k.Settled (.slice s)

namespace Kind.Settled

/-- They fit the type. -/
theorem fits (hv : (t.kind ty).Settled v) : t.fits v ty = true := by
  unfold TypeTable.fits
  cases hv with
  | slice hk s => rw [hk]
  | _ hk => revert hk; cases t.kind ty <;> simp [Kind.category]

/-- They are converted to themselves. -/
theorem convert (hv : (t.kind ty).Settled v) (h : Heap) : h.convert t v ty = .ok (v, h) := by
  have hfits := hv.fits
  unfold Heap.convert
  cases hv with
  | int hk x => simp only [hk, narrowInt_of_inRange hk (narrowInt_residue hk x).1]
  | uint hk x => simp only [hk, narrowUint_of_inRange hk (narrowUint_residue hk x).1]
  | float hk x => simp only [hk, narrowFloat_narrowFloat]
  | complex hk re im => simp only [hk, narrowFloat_narrowFloat]
  | str hk s => simp only [hk, hfits, if_true]
  | slice hk s => simp only [hk, Kind.category, hfits, if_true]

end Kind.Settled

/-- **A conversion lands in the target type**: its result fits the type and is converted to itself
from then on. -/
theorem Heap.convert_settles (hc : h.convert t v ty = .ok (w, h')) :
    t.fits w ty = true ∧ h'.convert t w ty = .ok (w, h') := by
  -- a result of a listed form, or the value itself, which fits
  have hcases : (t.kind ty).Settled w ∨ t.fits v ty = true ∧ (v, h) = (w, h') := by
    unfold Heap.convert at hc
    simp only at hc
    split at hc
    case h_1 hk | h_2 hk | h_3 hk => cases hc; exact .inl (.int hk _)
    case h_4 hk | h_5 hk | h_6 hk => cases hc; exact .inl (.uint hk _)
    case h_7 hk | h_8 hk | h_9 hk => cases hc; exact .inl (.float hk _)
    case h_10 hk => cases hc; exact .inl (.complex hk _ _)
    case h_11 hk => cases hc; exact .inl (.str hk _)
    case h_12 hk =>
      split at hc
      · cases hc; exact .inl (.str hk _)
      · cases hc
    case h_13 =>
      split at hc
      · rename_i hbytes
        cases hc; exact .inl (.slice hbytes.1 _)
      · split at hc
        · rename_i hfits
          exact .inr ⟨hfits, Except.ok.inj hc⟩
        · cases hc
    case h_14 =>
      split at hc
      · rename_i hfits
        exact .inr ⟨hfits, Except.ok.inj hc⟩
      · cases hc
  rcases hcases with hsettled | ⟨hfits, hsame⟩
  · exact ⟨hsettled.fits, hsettled.convert h'⟩
  · cases hsame
    exact ⟨hfits, hc⟩

/-! ### Integers -/

/-- A word has the same residue with a sign and without one. -/
theorem toInt_toInt64_modEq (x : UInt64) : x.toInt64.toInt ≡ x.toNat [ZMOD 2 ^ 64] := by
  change x.toBitVec.toInt ≡ x.toBitVec.toNat [ZMOD 2 ^ 64]
  rw [BitVec.toInt_eq_toNat_bmod]
  exact Int.bmod_emod

/-- A word without a sign as one with a sign. -/
theorem toInt64_eq_ofInt (x : UInt64) : x.toInt64 = Int64.ofInt x.toNat :=
  eq_ofInt (toInt_toInt64_modEq x)

/-- A word with a sign as one without a sign. -/
theorem toUInt64_eq_ofInt (x : Int64) : x.toUInt64 = UInt64.ofInt x.toInt :=
  eq_ofInt_uint (toInt_toInt64_modEq x.toUInt64).symm

/-- **An integer becomes its representative** in the range of the kind. -/
theorem Heap.convert_integer {k : Kind} {z : Int} (hv : k.Stands v z) (h : Heap)
    (hk : t.category ty = .int ∨ t.category ty = .uint) :
    h.convert t v ty = .ok ((t.kind ty).wrap z, h) := by
  unfold TypeTable.category at hk
  unfold Heap.convert
  rcases hk with hk | hk
  · rw [Kind.wrap, if_pos hk]
    cases hv with
    | signed => simp only [hk, Int64.ofInt_toInt]
    | unsigned => simp only [hk, toInt64_eq_ofInt]
  · rw [Kind.wrap, if_neg (by rw [hk]; decide)]
    cases hv with
    | signed => simp only [hk, toUInt64_eq_ofInt]
    | @unsigned x =>
        have hword : UInt64.ofInt x.toNat = x := (eq_ofInt_uint rfl).symm
        simp only [hk, hword]

/-! ### Text and bytes -/

namespace TypeTable

/-- Strings, of a type of their own or not. -/
def IsText (t : TypeTable) (ty : Ty) : Prop :=
  t.kind ty = .string

/-- Slices of bytes, of types of their own or not. -/
def IsBytes (t : TypeTable) (ty : Ty) : Prop :=
  t.kind ty = .slice ∧ ∃ e, t.elem? ty = some e ∧ t.kind e = .uint8

end TypeTable

namespace Heap

/-- A value of a type of byte slices holds the bytes of its slice; nil holds none. -/
inductive HoldsBytes (h : Heap) : Value → List UInt8 → Prop
  | nil : HoldsBytes h .nil []
  | slice {s : Slice} {bytes : List UInt8}
      (helems : h.elems s = bytes.map fun b => .uint b.toUInt64) : HoldsBytes h (.slice s) bytes

/-- The value is converted to one type, and what comes out to another, which gives `w`. -/
def ThereAndBack (t : TypeTable) (h : Heap) (v : Value) (there back : Ty) (w : Value)
    (h' : Heap) : Prop :=
  ∃ u h₁, h.convert t v there = .ok (u, h₁) ∧ h₁.convert t u back = .ok (w, h')

/-- The elements of a slice of bytes are read as the bytes. -/
theorem bytesOf?_map (bytes : List UInt8) :
    bytesOf? (bytes.map fun b => .uint b.toUInt64) = some bytes := by
  induction bytes with
  | nil => rfl
  | cons b bytes ih =>
      have hsmall : b.toUInt64 < 256 := by
        rw [UInt64.lt_iff_toNat_lt, UInt8.toNat_toUInt64]
        exact b.toNat_lt
      rw [List.map_cons, bytesOf?, if_pos hsmall, ih, Option.map_some, UInt8.toUInt8_toUInt64]

/-- The elements of a new slice. -/
theorem elems_sliceOf (h : Heap) (values : List Value) :
    (h.sliceOf values).2.elems (h.sliceOf values).1 = values := by
  rw [elems, sliceOf, newSlice_arrayOf]
  simp [newSlice]

/-- A slice of bytes becomes the string that is read of its bytes. -/
theorem convert_bytes {text : Ty} (htext : t.IsText text) {s : Slice} {bytes : List UInt8}
    (helems : h.elems s = bytes.map fun b => .uint b.toUInt64) :
    h.convert t (.slice s) text = .ok (.str (Utf8.decodeLossy bytes), h) := by
  unfold TypeTable.IsText at htext
  unfold convert
  simp only [htext, Kind.category, helems, bytesOf?_map]

/-- A string becomes a new slice of its bytes. -/
theorem convert_text {bytes : Ty} (hbytes : t.IsBytes bytes) (h : Heap) (s : String) :
    ∃ r h', h.convert t (.str s) bytes = .ok (.slice r, h') ∧
      h'.elems r = (Utf8.encode s).map fun b => .uint b.toUInt64 := by
  obtain ⟨hkind, e, helem, hbyte⟩ := hbytes
  refine ⟨_, _, ?_, h.elems_sliceOf _⟩
  unfold convert
  simp only [hkind, Kind.category, helem, Option.any_some, hbyte, beq_self_eq_true, and_self,
    if_true]

/-- **A string comes back** from its bytes. -/
theorem text_there_and_back {text bytes : Ty} (htext : t.IsText text) (hbytes : t.IsBytes bytes)
    (h : Heap) (s : String) : ∃ h', h.ThereAndBack t (.str s) bytes text (.str s) h' := by
  obtain ⟨r, h', hconvert, helems⟩ := convert_text hbytes h s
  refine ⟨h', _, _, hconvert, ?_⟩
  rw [convert_bytes htext helems, Utf8.decodeLossy_encode]

/-- **Bytes of a slice come back** from the string that they are converted to exactly if they are
UTF-8. -/
theorem bytes_there_and_back {text bytes : Ty} (htext : t.IsText text) (hbytes : t.IsBytes bytes)
    {content : List UInt8} (hv : h.HoldsBytes v content) (hnil : v ≠ .nil) :
    ∃ w h' content', h.ThereAndBack t v text bytes w h' ∧ h'.HoldsBytes w content' ∧
      (content' = content ↔ content.toByteArray.IsValidUTF8) := by
  cases hv with
  | nil => exact absurd rfl hnil
  | slice helems =>
      obtain ⟨r, h', hconvert, helems'⟩ := convert_text hbytes h (Utf8.decodeLossy content)
      exact ⟨_, h', _, ⟨_, _, convert_bytes htext helems, hconvert⟩, .slice helems',
        Utf8.encode_decodeLossy_iff content⟩

end Heap

/-! ### Conversions together -/

/-- **Conversions at run time are lawful.**  Their results fit the target type and are converted to
themselves; an integer that is converted to an integer kind becomes the one number in range with its
residue; a string comes back from bytes, and bytes from a string exactly if they are UTF-8, unless
they are those of the nil slice. -/
theorem Heap.convert_lawful (t : TypeTable) (h : Heap) (ty : Ty) :
    (∀ v w h', h.convert t v ty = .ok (w, h') →
      t.fits w ty = true ∧ h'.convert t w ty = .ok (w, h')) ∧
    (∀ k v z, Kind.Stands k v z → t.category ty = .int ∨ t.category ty = .uint →
      ∃ w r, h.convert t v ty = .ok (w, h) ∧ (t.kind ty).Stands w r ∧
        ∀ i, i = r ↔ (t.kind ty).InRange i ∧ i ≡ z [ZMOD 2 ^ (t.kind ty).bits]) ∧
    (∀ text bytes, t.IsText text → t.IsBytes bytes →
      (∀ s, ∃ h', h.ThereAndBack t (.str s) bytes text (.str s) h') ∧
      ∀ v content, h.HoldsBytes v content → v ≠ .nil →
        ∃ w h' content', h.ThereAndBack t v text bytes w h' ∧ h'.HoldsBytes w content' ∧
          (content' = content ↔ content.toByteArray.IsValidUTF8)) := by
  refine ⟨fun v w h' => convert_settles, fun k v z hv hk => ?_, fun text bytes htext hbytes =>
    ⟨text_there_and_back htext hbytes h, fun v content => bytes_there_and_back htext hbytes⟩⟩
  obtain ⟨r, hstands, hunique⟩ := stands_wrap hk z
  exact ⟨_, r, convert_integer hv h hk, hstands, hunique⟩

/-- Without any named types, and with an array that holds the two bytes of one character: 300 is
converted to eight bits, and a window on the first byte to a string and back. -/
theorem Heap.cut_character_lawful :
    let t := TypeTable.empty
    let h : Heap := ⟨#[#[.uint 0xC3, .uint 0xA9]], #[]⟩
    let int8 : Ty := .basic .int8
    let text : Ty := .basic .string
    let bytes : Ty := .slice (.basic .uint8)
    let first : Slice := ⟨0, 0, 1, 2⟩
    (h.convert t (.int 300) int8 = .ok (.int 44, h) ∧
      t.fits (.int 44) int8 = true ∧ h.convert t (.int 44) int8 = .ok (.int 44, h)) ∧
    (Kind.int64.Stands (.int 300) 300 ∧ t.category int8 = .int ∧
      ∃ w r, h.convert t (.int 300) int8 = .ok (w, h) ∧ (t.kind int8).Stands w r ∧
        ∀ i, i = r ↔ (t.kind int8).InRange i ∧ i ≡ 300 [ZMOD 2 ^ (t.kind int8).bits]) ∧
    (t.IsText text ∧ t.IsBytes bytes ∧
      (∃ h', h.ThereAndBack t (.str "é") bytes text (.str "é") h') ∧
      h.HoldsBytes (.slice first) [0xC3] ∧ Value.slice first ≠ .nil ∧
      ∃ w h' content', h.ThereAndBack t (.slice first) text bytes w h' ∧
        h'.HoldsBytes w content' ∧
        (content' = [0xC3] ↔ [0xC3].toByteArray.IsValidUTF8)) := by
  intro t h int8 text bytes first
  obtain ⟨hlands, hinteger, htexts⟩ := Heap.convert_lawful t h int8
  have hstands : Kind.int64.Stands (.int 300) 300 := .signed rfl (by decide)
  have htext : t.IsText text := rfl
  have hbytes : t.IsBytes bytes := ⟨rfl, .basic .uint8, rfl, rfl⟩
  have hholds : h.HoldsBytes (.slice first) [0xC3] := .slice rfl
  have hnil : Value.slice first ≠ .nil := nofun
  exact ⟨⟨rfl, hlands (.int 300) (.int 44) h rfl⟩,
    ⟨hstands, rfl, hinteger _ _ _ hstands (.inl rfl)⟩,
    htext, hbytes, (htexts text bytes htext hbytes).1 "é", hholds, hnil,
    (htexts text bytes htext hbytes).2 _ _ hholds hnil⟩

/-- But the nil slice, which a variable for byte slices holds before anything is stored in it, does
not come back from a string, although the bytes it holds are UTF-8. -/
theorem Heap.nil_bytes_refused :
    let t := TypeTable.empty
    let text : Ty := .basic .string
    let bytes : Ty := .slice (.basic .uint8)
    t.IsText text ∧ t.IsBytes bytes ∧ t.zero bytes = .nil ∧ t.fits .nil bytes = true ∧
      Heap.empty.HoldsBytes .nil [] ∧ [].toByteArray.IsValidUTF8 ∧
      Heap.empty.convert t .nil text = .error (.conversion "nil" "string") ∧
      ¬∃ w h', Heap.empty.ThereAndBack t .nil text bytes w h' := by
  refine ⟨rfl, ⟨rfl, _, rfl, rfl⟩, rfl, rfl, .nil, ⟨[], rfl⟩, rfl, ?_⟩
  rintro ⟨w, h', u, h₁, hthere, -⟩
  cases hthere

end ScriptCore

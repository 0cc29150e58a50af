/-!
# UTF-8 as a list of bytes

Strings of the language are sequences of Unicode scalar values whose length and elements are
counted in UTF-8 bytes.  This file holds the two directions:

* `encode` lists the bytes of a string;
* `decodeLossy` reads any byte list, one byte at a time; every maximal piece that cannot be
  completed to a character is read as the replacement character U+FFFD.

Main statement: `decode_cons_ascii`, the reader's equation on ASCII.
-/

namespace ScriptCore.Utf8

/-- The bytes of a string, in order. -/
def encode (s : String) : List UInt8 :=
  s.toList.flatMap String.utf8EncodeChar

/-- Number of bytes of a string. -/
def size (s : String) : Nat :=
  s.utf8ByteSize

/-- The character written for bytes that are not UTF-8. -/
def replacement : Char := Char.ofNat 0xFFFD

/-- The scalar value `n`, or the replacement character if there is none. -/
def scalarOr (n : Nat) : Char :=
  if h : n.isValidChar then Char.ofNatAux n h else replacement

/-- A character begun but not finished: `owed` bytes still to come, the next one between `low`
and `high`, and the bits read so far. -/
structure Pending where
  owed : Nat
  low : Nat
  high : Nat
  bits : Nat
deriving Repr, DecidableEq

/-- What a byte means between characters. -/
inductive Lead where
  | ascii (c : Char)
  | begins (p : Pending)
  | invalid

/-- Reading of a first byte: ASCII stands for itself, the bytes C2 to F4 begin a character of two
to four bytes, with the second byte's range cut so that overlong forms, surrogates and values
above U+10FFFF are refused. -/
def lead (b : Nat) : Lead :=
  if b < 0x80 then .ascii (Char.ofNat b)
  else if b < 0xC2 then .invalid
  else if b < 0xE0 then .begins ⟨1, 0x80, 0xBF, b - 0xC0⟩
  else if b = 0xE0 then .begins ⟨2, 0xA0, 0xBF, 0⟩
  else if b = 0xED then .begins ⟨2, 0x80, 0x9F, 0xD⟩
  else if b < 0xF0 then .begins ⟨2, 0x80, 0xBF, b - 0xE0⟩
  else if b = 0xF0 then .begins ⟨3, 0x90, 0xBF, 0⟩
  else if b < 0xF4 then .begins ⟨3, 0x80, 0xBF, b - 0xF0⟩
  else if b = 0xF4 then .begins ⟨3, 0x80, 0x8F, 4⟩
  else .invalid

/-- Read on from the state `pending`. -/
def decodeFrom : Option Pending → List UInt8 → List Char
  | none, [] => []
  | some _, [] => [replacement]
  | pending, b :: rest =>
    let between : List Char :=
      match lead b.toNat with
      | .ascii c => c :: decodeFrom none rest
      | .begins p => decodeFrom (some p) rest
      | .invalid => replacement :: decodeFrom none rest
    match pending with
    | none => between
    | some p =>
      if p.low ≤ b.toNat ∧ b.toNat ≤ p.high then
        let bits := p.bits * 64 + (b.toNat - 0x80)
        if p.owed ≤ 1 then scalarOr bits :: decodeFrom none rest
        else decodeFrom (some ⟨p.owed - 1, 0x80, 0xBF, bits⟩) rest
      else replacement :: between

/-- The string a byte list holds, with U+FFFD for every maximal piece that is not UTF-8. -/
def decodeLossy (bytes : List UInt8) : String :=
  String.ofList (decodeFrom none bytes)

/-- An ASCII byte between characters is that character. -/
theorem decode_cons_ascii (b : UInt8) (rest : List UInt8) (h : b.toNat < 0x80) :
    decodeFrom none (b :: rest) = Char.ofNat b.toNat :: decodeFrom none rest := by
  simp [decodeFrom, lead, h]

end ScriptCore.Utf8

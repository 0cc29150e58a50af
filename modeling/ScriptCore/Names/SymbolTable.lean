import ScriptCore.Text.Utf8

/-!
# Symbols for strings

A symbol is a 32-bit handle for a string: four bits of shard number, chosen by a hash of the first
eight bytes, and twenty-eight bits of position within the shard.  Each shard lists its strings in
the order in which they came and remembers where each of them stands; the table counts the strings
of all shards.

Main statements: `Symbol.shard_ofParts` and `Symbol.index_ofParts` (the parts of a handle come back
out of it) and `SymbolTable.tryIntern_known` (a known string is not added again).
-/

namespace ScriptCore

/-- Number of shards. -/
def shardCount : Nat := 16

/-- Largest position within a shard. -/
def maxLocal : Nat := 0x0FFFFFFF

/-- Handle of a string in 32 bits: four of the shard above twenty-eight of the position in it. -/
structure Symbol where
  bits : UInt32
deriving Repr, DecidableEq

namespace Symbol

/-- Handle of a position in a shard. -/
def ofParts (shard : Fin shardCount) (index : Nat) : Symbol :=
  ⟨(shard.val.toUInt32 <<< 28) ||| index.toUInt32⟩

/-- The handle as a number. -/
def raw (s : Symbol) : Nat :=
  s.bits.toNat

/-- Shard of a handle.  Four bits are left of it, so there is one for every handle. -/
def shard (s : Symbol) : Fin shardCount :=
  ⟨(s.bits >>> 28).toNat, by
    have hlt := s.bits.toNat_lt
    simp only [UInt32.toNat_shiftRight, shardCount]
    simp only [UInt32.reduceToNat, Nat.reduceMod, Nat.shiftRight_eq_div_pow, Nat.reducePow]
    omega⟩

/-- Position of a handle in its shard. -/
def index (s : Symbol) : Nat :=
  (s.bits &&& 0x0FFFFFFF).toNat

/-- The two parts of a handle do not overlap. -/
theorem raw_ofParts (shard : Fin shardCount) {index : Nat} (h : index ≤ maxLocal) :
    (ofParts shard index).raw = 0x10000000 * shard + index := by
  have hshard : shard.val < 16 := shard.isLt
  simp only [maxLocal] at h
  have hhigh : shard.val <<< 28 % 4294967296 = shard.val <<< 28 := by
    rw [Nat.shiftLeft_eq]
    omega
  calc (ofParts shard index).raw
      = shard.val <<< 28 % 4294967296 ||| index := by
        have hsmall : shard.val % 4294967296 = shard.val := by omega
        have hlow : index % 4294967296 = index := by omega
        simp [raw, ofParts, hsmall, hlow]
    _ = shard.val <<< 28 ||| index := by rw [hhigh]
    _ = shard.val <<< 28 + index := (Nat.shiftLeft_add_eq_or_of_lt (by omega) _).symm
    _ = 0x10000000 * shard + index := by rw [Nat.shiftLeft_eq]; omega

/-- The shard comes back out of a handle. -/
theorem shard_ofParts (shard : Fin shardCount) {index : Nat} (h : index ≤ maxLocal) :
    (ofParts shard index).shard = shard := by
  have hraw : (ofParts shard index).bits.toNat = _ := raw_ofParts shard h
  simp only [maxLocal] at h
  apply Fin.ext
  simp only [Symbol.shard, UInt32.toNat_shiftRight, hraw]
  simp only [UInt32.reduceToNat, Nat.reduceMod, Nat.shiftRight_eq_div_pow, Nat.reducePow]
  omega

/-- The position comes back out of a handle. -/
theorem index_ofParts (shard : Fin shardCount) {index : Nat} (h : index ≤ maxLocal) :
    (ofParts shard index).index = index := by
  have hraw : (ofParts shard index).bits.toNat = _ := raw_ofParts shard h
  simp only [maxLocal] at h
  have hmask : (ofParts shard index).index = (0x10000000 * shard + index) % 0x10000000 := by
    simp only [Symbol.index, UInt32.toNat_and, hraw]
    exact Nat.and_two_pow_sub_one_eq_mod _ 28
  rw [hmask]
  omega

end Symbol

/-- Rolling hash of the first eight bytes, in 32 bits. -/
def hashPrefix (s : String) : Nat :=
  ((Utf8.encode s).take 8).foldl (fun h b => (h * 31 + b.toNat) % UInt32.size) 0

/-- Shard of a string. -/
def shardOf (s : String) : Fin shardCount :=
  ⟨hashPrefix s % shardCount, Nat.mod_lt _ (by decide)⟩

/-- Strings in the order in which they came, and the position of each. -/
structure Shard where
  strings : Array String
  positions : List (String × Nat)
deriving Repr, DecidableEq

namespace Shard

/-- A shard without strings. -/
def empty : Shard :=
  ⟨#[], []⟩

/-- Position of a string. -/
def find? (sh : Shard) (s : String) : Option Nat :=
  sh.positions.lookup s

/-- Put a string at the end. -/
def push (sh : Shard) (s : String) : Shard :=
  ⟨sh.strings.push s, (s, sh.strings.size) :: sh.positions⟩

end Shard

/-- All shards, and the number of strings in them. -/
structure SymbolTable where
  shards : Vector Shard shardCount
  size : Nat
deriving Repr, DecidableEq

/-- A shard has no room for another string. -/
structure ShardOverflow where
  shard : Nat
  count : Nat
deriving Repr, DecidableEq

namespace SymbolTable

/-- The shard with a number. -/
def shard (t : SymbolTable) (i : Fin shardCount) : Shard :=
  t.shards[i]

/-- Symbol of a known string. -/
def get? (t : SymbolTable) (s : String) : Option Symbol :=
  ((t.shard (shardOf s)).find? s).map (Symbol.ofParts (shardOf s))

/-- String of a symbol, empty for a symbol the table never gave out. -/
def lookup (t : SymbolTable) (sym : Symbol) : String :=
  (t.shard sym.shard).strings.getD sym.index ""

/-- The table with one more string at the end of its shard. -/
def add (t : SymbolTable) (s : String) : SymbolTable where
  shards := t.shards.set (shardOf s) ((t.shard (shardOf s)).push s)
  size := t.size + 1

/-- Symbol of a string, which becomes known if its shard has room. -/
def tryIntern (t : SymbolTable) (s : String) : Except ShardOverflow (Symbol × SymbolTable) :=
  match t.get? s with
  | some sym => .ok (sym, t)
  | none =>
    let count := (t.shard (shardOf s)).strings.size
    if maxLocal < count then .error ⟨shardOf s, count⟩
    else .ok (.ofParts (shardOf s) count, t.add s)

/-- A table with the given strings added in order, as far as there is room. -/
def addAll (t : SymbolTable) (strings : List String) : SymbolTable :=
  strings.foldl (fun t s => match t.tryIntern s with | .ok (_, t') => t' | .error _ => t) t

/-- The table that knows only the empty string, whose symbol is zero. -/
def blank : SymbolTable where
  shards := (Vector.replicate shardCount .empty).set 0 (Shard.empty.push "")
  size := 1

/-- Identifiers every program may mention without declaring them. -/
def predeclared : List String := [
  "_", "iota", "nil", "true", "false", "init", "main",
  "bool", "int", "int8", "int16", "int32", "int64", "uint", "uint8", "uint16", "uint32",
  "uint64", "uintptr", "float32", "float64", "complex64", "complex128", "string",
  "byte", "rune", "error",
  "len", "make", "append", "delete"]

/-- The table every program starts from: the empty string and the predeclared identifiers. -/
def initial : SymbolTable :=
  blank.addAll predeclared

/-- Adding a string changes only its shard. -/
theorem shard_add (t : SymbolTable) (s : String) (i : Fin shardCount) :
    (t.add s).shard i = if i = shardOf s then (t.shard i).push s else t.shard i := by
  by_cases h : i = shardOf s
  · subst h
    simp [shard, add]
  · have hne : (shardOf s).val ≠ i.val := fun he => h (Fin.ext he.symm)
    simp [shard, add, h, Vector.getElem_set_ne, hne]

/-- A known string is not added again. -/
theorem tryIntern_known {t : SymbolTable} {s : String} {sym : Symbol} (h : t.get? s = some sym) :
    t.tryIntern s = .ok (sym, t) := by
  simp [tryIntern, h]

end SymbolTable

end ScriptCore

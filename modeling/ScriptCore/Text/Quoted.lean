import ScriptCore.Text.Hidden

/-!
# Quoted text

A string in quotation marks with escapes for the quote, the backslash, tab, line feed, carriage
return and NUL, and for every hidden character as its code point in braces.

Main statement: `quoteChar_plain`, a character that is neither special nor hidden stands for
itself.
-/

namespace ScriptCore.Text

/-- Lower case hexadecimal digits without leading zeros. -/
def hexDigits (n : Nat) : List Char :=
  Nat.toDigits 16 n

/-- A code point as an escape. -/
def codePointEscape (c : Char) : List Char :=
  ['\\', 'u', Char.ofNat 0x7B] ++ hexDigits c.toNat ++ [Char.ofNat 0x7D]

/-- One character of quoted text. -/
def quoteChar (c : Char) : List Char :=
  if c = '"' then ['\\', '"']
  else if c = '\\' then ['\\', '\\']
  else if c = '\t' then ['\\', 't']
  else if c = '\n' then ['\\', 'n']
  else if c = '\r' then ['\\', 'r']
  else if c = Char.ofNat 0 then ['\\', '0']
  else if isHidden c then codePointEscape c
  else [c]

/-- A string in quotation marks. -/
def quote (s : String) : String :=
  String.ofList ('"' :: s.toList.flatMap quoteChar ++ ['"'])

/-- A character that is neither special nor hidden stands for itself. -/
theorem quoteChar_plain {c : Char} (hq : c ≠ '"') (hb : c ≠ '\\') (hc : isHidden c = false) :
    quoteChar c = [c] := by
  have low : ∀ d : Char, isHidden d = true → c ≠ d := by
    intro d hd hcd
    rw [hcd, hd] at hc
    cases hc
  have ht := low '\t' (isHidden_of_lt_space (by decide))
  have hn := low '\n' (isHidden_of_lt_space (by decide))
  have hr := low '\r' (isHidden_of_lt_space (by decide))
  have h0 := low (Char.ofNat 0) (isHidden_of_lt_space (by decide))
  simp [quoteChar, hq, hb, ht, hn, hr, h0, hc]

end ScriptCore.Text

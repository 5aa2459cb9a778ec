import Chloride.Objects.Slice

/-!
# The methods of strings on bytes

What the methods of `src/runtime/objects/string/string.c` compute, as functions on the bytes of
their strings; the objects that hold the bytes are the subject of `Chloride.Objects.Strings`. The
functions of `<ctype.h>` are a parameter, because the program sets its locale from the environment.
-/

namespace Chloride

/-- The functions of `<ctype.h>` in the locale of the process. -/
structure CType where
  toupper : UInt8 → UInt8
  tolower : UInt8 → UInt8
  isprint : UInt8 → Bool

/-- The "C" locale. -/
def CType.ascii : CType where
  toupper c := if 97 ≤ c ∧ c ≤ 122 then c - 32 else c
  tolower c := if 65 ≤ c ∧ c ≤ 90 then c + 32 else c
  isprint c := 32 ≤ c ∧ c ≤ 126

/-- The byte of an ASCII character. -/
def byte (c : Char) : UInt8 := c.toNat.toUInt8

/-! ## Letter case -/

/-- The loop of `upper`. -/
def upperBytes (ctype : CType) (data : List UInt8) : List UInt8 := data.map ctype.toupper

/-- The loop of `lower`. -/
def lowerBytes (ctype : CType) (data : List UInt8) : List UInt8 := data.map ctype.tolower

/-- The loop of `title`. -/
def titleBytes (ctype : CType) (newWord : Bool) : List UInt8 → List UInt8
  | [] => []
  | c :: data =>
    if c = byte ' ' then c :: titleBytes ctype true data
    else if newWord then ctype.toupper c :: titleBytes ctype false data
    else ctype.tolower c :: titleBytes ctype false data

/-! ## Searching and building -/

/-- The counting loop of `replace`; `skip` is what is left of an occurrence. -/
def countOccurrences (old : List UInt8) : ℕ → List UInt8 → ℕ
  | _, [] => 0
  | skip + 1, _ :: data => countOccurrences old skip data
  | 0, c :: data =>
    if old.isPrefixOf (c :: data) then countOccurrences old (old.length - 1) data + 1
    else countOccurrences old 0 data

/-- The building loop of `replace`. -/
def replaceBytes (old new : List UInt8) : ℕ → List UInt8 → List UInt8
  | _, [] => []
  | skip + 1, _ :: data => replaceBytes old new skip data
  | 0, c :: data =>
    if old.isPrefixOf (c :: data) then new ++ replaceBytes old new (old.length - 1) data
    else c :: replaceBytes old new 0 data

/-- `SIZE_MAX`. -/
def sizeMax : ℕ := 2^64 - 1

/-- `repeat`. -/
def repeatBytes (self : List UInt8) (count : Int64) : Except ArErr (List UInt8) :=
  if count < 0 then
    .error ⟨"ValueError", s!"repeat count must be non-negative, got {count.toInt}"⟩
  else if count = 0 ∨ self.length = 0 then .ok []
  else if count.toInt.toNat > (sizeMax - 1) / self.length then
    .error ⟨"RuntimeError", "string too large"⟩
  else .ok (List.replicate count.toInt.toNat self).flatten

/-- The loop of `split`: the pieces, the first of which begins with `piece`. -/
def splitBytes (delim : List UInt8) : ℕ → ℕ → List UInt8 → List UInt8 → List (List UInt8)
  | _, _, piece, [] => [piece]
  | splits, skip + 1, piece, _ :: data => splitBytes delim splits skip piece data
  | splits, 0, piece, c :: data =>
    if splits ≠ 0 ∧ delim.isPrefixOf (c :: data) then
      piece :: splitBytes delim (splits - 1) (delim.length - 1) [] data
    else splitBytes delim splits 0 (piece ++ [c]) data

/-- `split`. -/
def split (self delim : List UInt8) (max : Option Int64) : Except ArErr (List (List UInt8)) :=
  if max.any (· < 0) then .error ⟨"ValueError", "max splits must be non-negative"⟩
  else if delim = [] then .error ⟨"ValueError", "empty separator"⟩
  else .ok (splitBytes delim ((max.map fun n => n.toInt.toNat).getD sizeMax) 0 [] self)

/-- `strip`. -/
def stripBytes (self chars : List UInt8) : List UInt8 :=
  if self = [] ∨ chars = [] then self
  else (self.dropWhile (· ∈ chars)).rdropWhile (· ∈ chars)

/-- `__getitem__` of a number. -/
def getitemBytes (self : List UInt8) (index : Int64) : Except ArErr (List UInt8) :=
  let index := if index < 0 then index.toInt + self.length else index.toInt
  if index ≥ self.length ∨ index < 0 then .error ⟨"IndexError", "index out of range"⟩
  else .ok ((self.drop index.toNat).take 1)

/-! ## Code points and quoting -/

/-- `decode_utf8`: how many bytes the first code point takes, and the code point. -/
def decodeUtf8 : List UInt8 → Option (ℕ × ℕ)
  | [] => none
  | s0 :: s =>
    let len := s.length + 1
    let rest (i : ℕ) : ℕ := (s.getD (i - 1) 0 &&& 0x3F).toNat
    if s0 < 0x80 then some (1, s0.toNat)
    else if s0 &&& 0xE0 = 0xC0 ∧ len ≥ 2 then
      some (2, ((s0 &&& 0x1F).toNat <<< 6) ||| rest 1)
    else if s0 &&& 0xF0 = 0xE0 ∧ len ≥ 3 then
      some (3, ((s0 &&& 0x0F).toNat <<< 12) ||| (rest 1 <<< 6) ||| rest 2)
    else if s0 &&& 0xF8 = 0xF0 ∧ len ≥ 4 then
      some (4, ((s0 &&& 0x07).toNat <<< 18) ||| (rest 1 <<< 12) ||| (rest 2 <<< 6) ||| rest 3)
    else none

/-- A digit of `%X`. -/
def hexDigit (n : ℕ) : UInt8 := if n < 10 then (48 + n).toUInt8 else (55 + n).toUInt8

/-- `"\\u%04X"` of a number below `2^16`. -/
def escapeU (n : ℕ) : List UInt8 :=
  [byte '\\', byte 'u', hexDigit (n / 4096 % 16), hexDigit (n / 256 % 16), hexDigit (n / 16 % 16),
    hexDigit (n % 16)]

/-- The loop of `c_quote_string`; `skip` is what is left of a code point. -/
def quoteBytes (ctype : CType) : ℕ → List UInt8 → List UInt8
  | _, [] => []
  | skip + 1, _ :: input => quoteBytes ctype skip input
  | 0, c :: input =>
    if c = byte '\n' then byte '\\' :: byte 'n' :: quoteBytes ctype 0 input
    else if c = byte '\t' then byte '\\' :: byte 't' :: quoteBytes ctype 0 input
    else if c = byte '\r' then byte '\\' :: byte 'r' :: quoteBytes ctype 0 input
    else if c = byte '\\' then byte '\\' :: byte '\\' :: quoteBytes ctype 0 input
    else if c = byte '"' then byte '\\' :: byte '"' :: quoteBytes ctype 0 input
    else if ctype.isprint c ∧ c < 0x80 then c :: quoteBytes ctype 0 input
    else
      match decodeUtf8 (c :: input) with
      | none => escapeU c.toNat ++ quoteBytes ctype 0 input
      | some (consumed, cp) =>
        if cp ≤ 0xFFFF then escapeU cp ++ quoteBytes ctype (consumed - 1) input
        else
          escapeU (0xD800 + (cp - 0x10000) / 2^10) ++ escapeU (0xDC00 + (cp - 0x10000) % 2^10) ++
            quoteBytes ctype (consumed - 1) input

/-- `c_quote_string`. -/
def cQuoteString (ctype : CType) (input : List UInt8) : List UInt8 :=
  byte '"' :: (quoteBytes ctype 0 input ++ [byte '"'])

/-- `char_chr`. -/
def charChr (codepoint : ℕ) : Option (List UInt8) :=
  if codepoint > 0x10FFFF then none
  else if codepoint ≤ 0x7F then some [codepoint.toUInt8]
  else if codepoint ≤ 0x7FF then
    some [(0xC0 ||| codepoint >>> 6).toUInt8, (0x80 ||| (codepoint &&& 0x3F)).toUInt8]
  else if codepoint ≤ 0xFFFF then
    some [(0xE0 ||| codepoint >>> 12).toUInt8, (0x80 ||| (codepoint >>> 6 &&& 0x3F)).toUInt8,
      (0x80 ||| (codepoint &&& 0x3F)).toUInt8]
  else
    some [(0xF0 ||| codepoint >>> 18).toUInt8, (0x80 ||| (codepoint >>> 12 &&& 0x3F)).toUInt8,
      (0x80 ||| (codepoint >>> 6 &&& 0x3F)).toUInt8, (0x80 ||| (codepoint &&& 0x3F)).toUInt8]

/-- `chr`: a negative number is one above all code points. The number of the error's text is never passed
to the conversion. -/
def chr (codepoint : Int64) : Except ArErr (List UInt8) :=
  match charChr codepoint.toUInt64.toNat with
  | none => .error ⟨"ValueError", "codepoint %lu is not a valid unicode codepoint"⟩
  | some data => .ok data

/-- `from_byte`. -/
def fromByte (n : Int64) : Except ArErr (List UInt8) :=
  if n < 0 ∨ n > 255 then .error ⟨"ValueError", "byte must be between 0 and 255"⟩
  else .ok [n.toInt.toNat.toUInt8]

example : split [97, 44, 44, 98] [44] none = .ok [[97], [], [98]] := by decide

example : cQuoteString CType.ascii [10, 0xF0, 0x9F, 0x98, 0x80] =
    [34, 92, 110, 92, 117, 68, 56, 51, 68, 92, 117, 68, 69, 48, 48, 34] := by decide

end Chloride

import Mathlib

/-!
# Number objects

The parts of `src/runtime/objects/number/number.c` that decide when two numbers are the same and
under which hash a number is filed: `__equal__`, and `__hash__` with its two hash functions. A
number object holds either a 64-bit integer or a GMP rational. The errors that the methods of the
built-in types raise are here as well.
-/

namespace Chloride

/-- An error: the name of its type and its message. -/
structure ArErr where
  type : String
  message : String
  deriving DecidableEq, Repr

/-- A GMP rational: a numerator and a positive denominator, in lowest terms or not. -/
structure Mpq where
  num : ℤ
  den : ℕ
  den_pos : 0 < den
  deriving DecidableEq

/-- The value of a number object (`struct as_number`): `is_int64` tells which of the two it is. -/
inductive Number where
  | i64 (n : Int64)
  | mpq (q : Mpq)
  deriving DecidableEq

/-- `mpq_to_int64`: the value of an integer that fits 64 bits. -/
def mpqToInt64 (q : Mpq) : Option Int64 :=
  if q.den = 1 ∧ Int64.minValue.toInt ≤ q.num ∧ q.num ≤ Int64.maxValue.toInt then
    some (Int64.ofInt q.num)
  else none

/-- `mpq_cmp(a, b) == 0`. -/
def mpqCmpZero (a b : Mpq) : Bool := a.num * b.den = b.num * a.den

/-- `mpq_cmp_ui(q, n, 1) == 0`, whose second argument is an unsigned number. -/
def mpqCmpUiZero (q : Mpq) (n : UInt64) : Bool := q.num = n.toNat * q.den

/-- `ARGON_NUMBER_TYPE___equal__` on two numbers. The comparison of a rational with an integer
takes the integer as unsigned. -/
def Number.equal : Number → Number → Bool
  | .i64 a, .i64 b => a = b
  | .mpq a, .mpq b => mpqCmpZero a b
  | .i64 a, .mpq b => mpqCmpUiZero b a.toUInt64
  | .mpq a, .i64 b => mpqCmpUiZero a b.toUInt64

/-- `mix64`. -/
def mix64 (x : UInt64) : UInt64 :=
  let x := x ^^^ (x >>> 33)
  let x := x * 0xff51afd7ed558ccd
  let x := x ^^^ (x >>> 33)
  let x := x * 0xc4ceb9fe1a85ec53
  x ^^^ (x >>> 33)

/-- The bytes of the absolute value, the most significant first: `mpz_export` with one-byte words
and order 1. Zero has none. -/
def mpzExport (z : ℤ) : List UInt8 := ((Nat.digits 256 z.natAbs).map UInt8.ofNat).reverse

/-- `hash_mpz`: FNV-1a over the bytes, complemented for a negative number and mixed. -/
def hashMpz (z : ℤ) : UInt64 :=
  let h := (mpzExport z).foldl (fun h b => (h ^^^ b.toUInt64) * 1099511628211) 1469598103934665603
  mix64 (if z < 0 then ~~~h else h)

/-- `hash_mpq`. -/
def hashMpq (q : Mpq) : UInt64 :=
  let hNum := hashMpz q.num
  let hDen := hashMpz q.den
  mix64 (hNum ^^^ (hDen + 0x9e3779b97f4a7c15 + (hNum <<< (6 : UInt64)) + (hNum >>> (2 : UInt64))))

/-- `ARGON_NUMBER_TYPE___hash__`. -/
def Number.hash : Number → UInt64
  | .i64 n => mix64 n.toUInt64
  | .mpq q => hashMpq q

/-- The inverse of `mix64`: the multipliers are inverted modulo `2^64`, and a shift by more than
half the width is undone by itself. -/
def unmix64 (x : UInt64) : UInt64 :=
  let x := x ^^^ (x >>> 33)
  let x := x * 0x9cb4b2f8129337db
  let x := x ^^^ (x >>> 33)
  let x := x * 0x4f74430c22a54005
  x ^^^ (x >>> 33)

/-- A shift by more than half the width is undone by itself. -/
theorem xor_shiftRight_xor_shiftRight (x : UInt64) :
    (x ^^^ (x >>> 33)) ^^^ ((x ^^^ (x >>> 33)) >>> 33) = x := by
  rw [← UInt64.toBitVec_inj]
  ext i hi
  have hout : x.toBitVec.getLsbD (33 + (33 + i)) = false := BitVec.getLsbD_of_ge _ _ (by omega)
  simp [hout]

/-- A multiplication is undone by one with the inverse of the factor. -/
theorem mul_mul_cancel {a b : UInt64} (h : a * b = 1) (y : UInt64) : y * a * b = y := by
  rw [UInt64.mul_assoc, h, UInt64.mul_one]

/-- Every 64-bit number is the mix of one. -/
theorem mix64_unmix64 (x : UInt64) : mix64 (unmix64 x) = x := by
  have hmul₁ := mul_mul_cancel (a := 0x4f74430c22a54005) (b := 0xff51afd7ed558ccd) (by decide)
  have hmul₂ := mul_mul_cancel (a := 0x9cb4b2f8129337db) (b := 0xc4ceb9fe1a85ec53) (by decide)
  simp only [mix64, unmix64, xor_shiftRight_xor_shiftRight, hmul₁, hmul₂]

theorem unmix64_mix64 (x : UInt64) : unmix64 (mix64 x) = x := by
  have hmul₁ := mul_mul_cancel (a := 0xff51afd7ed558ccd) (b := 0x4f74430c22a54005) (by decide)
  have hmul₂ := mul_mul_cancel (a := 0xc4ceb9fe1a85ec53) (b := 0x9cb4b2f8129337db) (by decide)
  simp only [mix64, unmix64, xor_shiftRight_xor_shiftRight, hmul₁, hmul₂]

/-- `mix64` is a permutation of the 64-bit numbers. -/
theorem mix64_bijective : Function.Bijective mix64 :=
  ⟨Function.LeftInverse.injective unmix64_mix64, Function.RightInverse.surjective mix64_unmix64⟩

/-- Every 64-bit hash is the hash of an integer. -/
theorem exists_i64_hash (h : UInt64) : ∃ n : Int64, (Number.i64 n).hash = h :=
  ⟨(unmix64 h).toInt64, by rw [Number.hash, UInt64.toUInt64_toInt64, mix64_unmix64]⟩

end Chloride

import Mathlib.Algebra.Group.Int
import BitcoinSv.Bytes

/-!
# OpenSSL's `BIGNUM`, as `bint` uses it

Source pin: src/src/big_int.cpp (every `BN_*` call). OpenSSL is not part of the
repository; its functions are modelled as OpenSSL 1.1.1 computes them, sign flag
included. A `BIGNUM` is its sign flag `neg` and its magnitude, the words
`d[0..top)` read as one number; `top` is recovered from the magnitude.
OpenSSL keeps a zero non-negative (`bn_check_top`); that is `Canonical`. The one
function here that can break it is `bin2bn` writing a zero into a negative number,
which keeps the old sign flag: the "negative zero" of `bint::operator&=`.

`bn_expand_internal` allocates at most `maxWords` words, so no `BIGNUM` holds more
(`Fits`), and every function below that asks `bn_wexpand` for room fails when it asks
for more: `BN_bin2bn`, `BN_uadd` (so `BN_add` and `BN_sub`), `BN_mul`, `BN_div`,
`BN_lshift` and `BN_dec2bn`, each with the words its source asks for. `toInt` and
`ofInt` relate canonical numbers to the integers they stand for; the arithmetic
functions refine integer operations on canonical operands wherever they succeed.
-/

namespace BitcoinSv.Openssl
open BitcoinSv.Bytes

/-- An OpenSSL `BIGNUM`: the sign flag and the magnitude. -/
structure Bignum where
  neg : Bool
  mag : Nat
  deriving DecidableEq, Repr

namespace Bignum

/-! ## Representation -/

/-- A freshly allocated `BIGNUM` (`BN_new`) and `BN_zero`. -/
def zero : Bignum := ⟨false, 0⟩

/-- The 64-bit words (`BN_BITS2`) a magnitude occupies. -/
def numWords (m : Nat) : Nat := (numBits m + 63) / 64

/-- `top`: the number of words the magnitude occupies. -/
def top (a : Bignum) : Nat := numWords a.mag

/-- OpenSSL's invariant (`bn_check_top`): zero is never negative. -/
def Canonical (a : Bignum) : Prop := a.neg = true → 0 < a.mag

instance (a : Bignum) : Decidable a.Canonical :=
  inferInstanceAs (Decidable (a.neg = true → 0 < a.mag))

/-- The integer a `BIGNUM` stands for. -/
def toInt (a : Bignum) : Int := if a.neg then -(a.mag : Int) else a.mag

/-- The canonical `BIGNUM` holding an integer. -/
def ofInt (z : Int) : Bignum := ⟨decide (z < 0), z.natAbs⟩

/-- `bn_correct_top`: a zero result loses its sign flag. -/
def correctTop (a : Bignum) : Bignum := if a.mag = 0 then zero else a

@[simp] theorem zero_neg : zero.neg = false := rfl
@[simp] theorem zero_mag : zero.mag = 0 := rfl

@[simp] theorem ofInt_neg (z : Int) : (ofInt z).neg = decide (z < 0) := rfl
@[simp] theorem ofInt_mag (z : Int) : (ofInt z).mag = z.natAbs := rfl

theorem canonical_iff (a : Bignum) : a.Canonical ↔ (a.neg = true → 0 < a.mag) := Iff.rfl

theorem canonical_zero : zero.Canonical := by simp [canonical_iff]

theorem canonical_of_pos {a : Bignum} (pos : 0 < a.mag) : a.Canonical := fun _ => pos

theorem canonical_of_nonneg {a : Bignum} (nonneg : a.neg = false) : a.Canonical := by
  simp [canonical_iff, nonneg]

theorem canonical_ofInt (z : Int) : (ofInt z).Canonical := by
  simp only [canonical_iff, ofInt_neg, ofInt_mag, decide_eq_true_eq]
  omega

theorem canonical_correctTop (a : Bignum) : (correctTop a).Canonical := by
  unfold correctTop
  split
  · exact canonical_zero
  · exact canonical_of_pos (Nat.pos_of_ne_zero ‹_›)

@[simp] theorem correctTop_of_ne_zero {a : Bignum} (nonzero : a.mag ≠ 0) : correctTop a = a :=
  if_neg nonzero

/-- `bn_correct_top` keeps the magnitude; only a zero's sign flag changes. -/
theorem correctTop_mag (a : Bignum) : (correctTop a).mag = a.mag := by
  unfold correctTop
  split
  · exact ‹a.mag = 0›.symm
  · rfl

/-- `bn_correct_top` sets no sign flag that was clear. -/
theorem neg_of_correctTop {a : Bignum} (negative : (correctTop a).neg = true) : a.neg = true := by
  unfold correctTop at negative
  split at negative
  · exact absurd negative (by decide)
  · exact negative

theorem correctTop_of_canonical {a : Bignum} (canonical : a.Canonical) : correctTop a = a := by
  unfold correctTop
  split
  · obtain ⟨neg, mag⟩ := a
    cases neg
    · simp_all [zero]
    · exact absurd (canonical rfl) (by simp_all)
  · rfl

@[simp] theorem toInt_ofInt (z : Int) : (ofInt z).toInt = z := by
  simp only [toInt, ofInt_neg, ofInt_mag, decide_eq_true_eq]
  split <;> omega

/-- A canonical number is the `ofInt` of its value: `ofInt` is onto the canonical ones. -/
theorem eq_ofInt_toInt {a : Bignum} (canonical : a.Canonical) : a = ofInt a.toInt := by
  obtain ⟨neg, mag⟩ := a
  cases neg
  · simp only [ofInt, toInt, Bool.false_eq_true, if_false, mk.injEq, Int.natAbs_ofNat, and_true]
    exact (decide_eq_false (by omega)).symm
  · have pos : 0 < mag := canonical rfl
    simp only [ofInt, toInt, if_true, mk.injEq, Int.natAbs_neg, Int.natAbs_ofNat, and_true]
    exact (decide_eq_true (by omega)).symm

theorem eq_ofInt_of {a : Bignum} {z : Int} (canonical : a.Canonical) (value : a.toInt = z) :
    a = ofInt z :=
  value ▸ eq_ofInt_toInt canonical

theorem toInt_correctTop (a : Bignum) : (correctTop a).toInt = a.toInt := by
  unfold correctTop toInt
  split <;> simp_all

theorem toInt_eq_zero {a : Bignum} : a.toInt = 0 ↔ a.mag = 0 := by
  unfold toInt
  split <;> omega

@[simp] theorem natAbs_toInt (a : Bignum) : a.toInt.natAbs = a.mag := by
  unfold toInt
  split <;> omega

/-! ## The word limit

`bn_expand_internal` refuses to allocate more than `INT_MAX / (4 * BN_BITS2)` words
(`BN_R_BIGNUM_TOO_LONG`), and every `BIGNUM` gets its words from it, so none ever has more.
`bn_wexpand(a, n)` therefore fails exactly when `n` is past that limit: below it, either
`a` has the room already or the allocation is granted (a failing allocation is not
modelled). -/

/-- `INT_MAX / (4 * BN_BITS2)` with 64-bit words: 8388607. -/
def maxWords : Nat := 2147483647 / (4 * 64)

/-- A number a `BIGNUM` can hold: at most `maxWords` words. -/
def Fits (a : Bignum) : Prop := a.top ≤ maxWords

instance (a : Bignum) : Decidable a.Fits := inferInstanceAs (Decidable (a.top ≤ maxWords))

theorem numWords_le_iff {m k : Nat} : numWords m ≤ k ↔ m < 2 ^ (64 * k) := by
  rw [← numBits_le_iff, numWords]
  omega

theorem lt_two_pow_numWords (m : Nat) : m < 2 ^ (64 * numWords m) := numWords_le_iff.1 le_rfl

theorem numWords_mono {m n : Nat} (le : m ≤ n) : numWords m ≤ numWords n :=
  numWords_le_iff.2 (Nat.lt_of_le_of_lt le (lt_two_pow_numWords n))

theorem numWords_eq_zero {m : Nat} : numWords m = 0 ↔ m = 0 := by
  rw [← Nat.le_zero, numWords_le_iff, Nat.mul_zero, Nat.pow_zero, Nat.lt_one_iff]

theorem fits_iff (a : Bignum) : a.Fits ↔ a.mag < 2 ^ (64 * maxWords) := numWords_le_iff

/-- Every number below `2 ^ 64`, a single word, is below the limit. -/
theorem lt_two_pow_maxWords {m : Nat} (small : m < 2 ^ 64) : m < 2 ^ (64 * maxWords) :=
  Nat.lt_of_lt_of_le small (Nat.pow_le_pow_right Nat.two_pos (by decide))

/-- A sum takes at most one word more than the wider operand: `BN_uadd`'s carry. -/
theorem numWords_add_le (x y : Nat) : numWords (x + y) ≤ max (numWords x) (numWords y) + 1 := by
  have hx := Nat.lt_of_lt_of_le (lt_two_pow_numWords x)
    (Nat.pow_le_pow_right Nat.two_pos (Nat.mul_le_mul_left 64 (le_max_left _ (numWords y))))
  have hy := Nat.lt_of_lt_of_le (lt_two_pow_numWords y)
    (Nat.pow_le_pow_right Nat.two_pos (Nat.mul_le_mul_left 64 (le_max_right (numWords x) _)))
  apply numWords_le_iff.2
  rw [Nat.mul_succ, Nat.pow_add]
  have : 2 ≤ 2 ^ 64 := Nat.le_self_pow (by decide) 2
  calc x + y < 2 ^ (64 * max (numWords x) (numWords y)) * 2 := by omega
    _ ≤ _ := Nat.mul_le_mul_left _ this

theorem numWords_mul_le (x y : Nat) : numWords (x * y) ≤ numWords x + numWords y := by
  apply numWords_le_iff.2
  rw [Nat.mul_add, Nat.pow_add]
  exact Nat.mul_lt_mul_of_lt_of_lt (lt_two_pow_numWords x) (lt_two_pow_numWords y)

theorem numWords_mul_two_pow_le (x n : Nat) : numWords (x * 2 ^ n) ≤ numWords x + n / 64 + 1 := by
  apply numWords_le_iff.2
  calc x * 2 ^ n < 2 ^ (64 * numWords x) * 2 ^ n :=
        Nat.mul_lt_mul_of_pos_right (lt_two_pow_numWords x) (Nat.two_pow_pos n)
    _ = 2 ^ (64 * numWords x + n) := (Nat.pow_add _ _ _).symm
    _ ≤ _ := Nat.pow_le_pow_right Nat.two_pos (by omega)

/-- A right shift by `n` bits frees `n / 64` whole words. -/
theorem numWords_div_two_pow_add_le (x n : Nat) (within : n / 64 ≤ numWords x) :
    numWords (x / 2 ^ n) + n / 64 ≤ numWords x := by
  have bound : numWords (x / 2 ^ n) ≤ numWords x - n / 64 := by
    apply numWords_le_iff.2
    rw [Nat.div_lt_iff_lt_mul (Nat.two_pow_pos n), ← Nat.pow_add]
    exact Nat.lt_of_lt_of_le (lt_two_pow_numWords x) (Nat.pow_le_pow_right Nat.two_pos (by omega))
  omega

theorem numWords_two_pow (k : Nat) : numWords (2 ^ k) = k / 64 + 1 := by
  have bits : numBits (2 ^ k) = k + 1 :=
    numBits_eq_of_bounds le_rfl (Nat.pow_lt_pow_right (by decide) (Nat.lt_succ_self k))
  rw [numWords, bits]
  omega

theorem numWords_or_le (x y : Nat) : numWords (x ||| y) ≤ max (numWords x) (numWords y) := by
  apply numWords_le_iff.2
  exact Nat.or_lt_two_pow
    (Nat.lt_of_lt_of_le (lt_two_pow_numWords x)
      (Nat.pow_le_pow_right Nat.two_pos (Nat.mul_le_mul_left 64 (le_max_left _ _))))
    (Nat.lt_of_lt_of_le (lt_two_pow_numWords y)
      (Nat.pow_le_pow_right Nat.two_pos (Nat.mul_le_mul_left 64 (le_max_right _ _))))

/-! ## Sign and comparison -/

/-- `BN_is_negative`. -/
def isNegative (a : Bignum) : Bool := a.neg

/-- `BN_is_zero`. -/
def isZero (a : Bignum) : Bool := decide (a.mag = 0)

/-- `BN_set_negative(a, b)`: the flag is set only on a non-zero number. -/
def setNegative (a : Bignum) (b : Bool) : Bignum := { a with neg := b && !a.isZero }

/-- `BN_set_word(a, w)`: the non-negative one-word number `w`. -/
def setWord (w : UInt64) : Bignum := ⟨false, w.toNat⟩

/-- `BN_cmp(a, b)`: by sign flag first, then by magnitude, reversed for negatives. -/
def cmp (a b : Bignum) : Int :=
  if a.neg != b.neg then (if a.neg then -1 else 1)
  else
    let gt : Int := if a.neg then -1 else 1
    if a.mag > b.mag then gt else if a.mag < b.mag then -gt else 0

@[simp] theorem setNegative_mag (a : Bignum) (b : Bool) : (a.setNegative b).mag = a.mag := rfl

theorem canonical_setNegative (a : Bignum) (b : Bool) : (a.setNegative b).Canonical := by
  simp only [canonical_iff, setNegative, isZero, Bool.and_eq_true, Bool.not_eq_true',
    decide_eq_false_iff_not]
  omega

theorem toInt_setNegative (a : Bignum) (b : Bool) :
    (a.setNegative b).toInt = if b = true ∧ a.mag ≠ 0 then -(a.mag : Int) else a.mag := by
  simp only [setNegative, toInt, isZero, Bool.and_eq_true, Bool.not_eq_true',
    decide_eq_false_iff_not, ne_eq]

theorem canonical_setWord (w : UInt64) : (setWord w).Canonical := canonical_of_nonneg rfl

theorem fits_setWord (w : UInt64) : (setWord w).Fits :=
  numWords_le_iff.2 (lt_two_pow_maxWords w.toNat_lt_size)

/-- On canonical numbers `BN_cmp` is the three-way comparison of the integers. -/
theorem cmp_eq {a b : Bignum} (ha : a.Canonical) (hb : b.Canonical) :
    cmp a b = if a.toInt < b.toInt then -1 else if a.toInt = b.toInt then 0 else 1 := by
  obtain ⟨an, am⟩ := a
  obtain ⟨bn, bm⟩ := b
  simp only [canonical_iff] at ha hb
  cases an <;> cases bn <;>
    simp only [cmp, toInt, bne_self_eq_false, Bool.false_eq_true, Bool.true_eq_false, ↓reduceIte,
      bne_iff_ne, ne_eq, not_true_eq_false, not_false_eq_true, forall_const] at ha hb ⊢ <;>
    split_ifs <;> omega

/-! ## Byte strings -/

/-- `BN_bn2bin`: the magnitude big-endian in `BN_num_bytes` bytes. -/
def bn2bin (a : Bignum) : List UInt8 := (toLE (numBytes a.mag) a.mag).reverse

/-- What `BN_bin2bn(s, len, ret)` leaves in an existing `ret` once `bn_wexpand` has given it
the words it asks for: leading zero bytes are skipped, and when nothing is left only
`top` is reset, so `ret` keeps its sign flag. -/
def bin2bnExpanded (s : List UInt8) (ret : Bignum) : Bignum :=
  match s.dropWhile (· == 0) with
  | [] => { ret with mag := 0 }
  | rest => ⟨false, fromBE rest⟩

/-- The words `BN_bin2bn` asks of `bn_wexpand`: `(n - 1) / BN_BYTES + 1` for the `n` bytes
left after the leading zeros, none when no byte is left. -/
def bin2bnWords (s : List UInt8) : Nat := ((s.dropWhile (· == 0)).length + 7) / 8

/-- `BN_bin2bn(s, len, ret)`: `NULL`, with `ret` untouched, when those words are refused. -/
def bin2bn (s : List UInt8) (ret : Bignum) : Option Bignum :=
  if maxWords < bin2bnWords s then none else some (bin2bnExpanded s ret)

@[simp] theorem length_bn2bin (a : Bignum) : (bn2bin a).length = numBytes a.mag := by
  simp [bn2bin]

@[simp] theorem reverse_bn2bin (a : Bignum) : (bn2bin a).reverse = toLE (numBytes a.mag) a.mag := by
  simp [bn2bin]

theorem fromBE_bn2bin (a : Bignum) : fromBE (bn2bin a) = a.mag := by
  rw [fromBE, reverse_bn2bin, fromLE_toLE, Nat.mod_eq_of_lt (lt_pow_numBytes _)]

private theorem fromBE_dropWhile_zero (s : List UInt8) :
    fromBE (s.dropWhile (· == 0)) = fromBE s := by
  induction s with
  | nil => rfl
  | cons b bs ih =>
    by_cases zero : b = 0
    · have drop : (b :: bs).dropWhile (· == 0) = bs.dropWhile (· == 0) := by
        simp [List.dropWhile_cons, zero]
      rw [drop, ih, fromBE, fromBE, List.reverse_cons, fromLE_append]
      simp [zero]
    · simp [List.dropWhile_cons, zero]

private theorem fromBE_eq_zero_iff (s : List UInt8) : fromBE s = 0 ↔ ∀ b ∈ s, b = 0 := by
  simp [fromBE, fromLE_eq_zero_iff]

/-- What is left after the leading zero bytes is empty or starts with a non-zero byte. -/
private theorem dropWhile_zero_cases (s : List UInt8) :
    s.dropWhile (· == 0) = [] ∨
      ∃ b rest, s.dropWhile (· == 0) = b :: rest ∧ b ≠ 0 := by
  cases h : s.dropWhile (· == 0) with
  | nil => exact .inl rfl
  | cons b rest =>
    refine .inr ⟨b, rest, rfl, ?_⟩
    simpa [h] using List.head_dropWhile_not (· == 0) s (by simp [h])

/-- What `BN_bin2bn` leaves in `ret` once it has the room: the value of the bytes,
non-negative, unless the bytes are all zero, where `ret` keeps its sign flag. -/
theorem bin2bnExpanded_eq (s : List UInt8) (ret : Bignum) :
    bin2bnExpanded s ret = if fromBE s = 0 then { ret with mag := 0 } else ⟨false, fromBE s⟩ := by
  unfold bin2bnExpanded
  rw [← fromBE_dropWhile_zero s]
  rcases dropWhile_zero_cases s with empty | ⟨b, rest, cons, nonzero⟩
  · rw [empty]
    rfl
  · rw [cons, if_neg (fromBE_cons_pos rest nonzero).ne']

/-- `BN_bin2bn` asks for the words of the value of the bytes. -/
theorem bin2bnWords_eq (s : List UInt8) : bin2bnWords s = numWords (fromBE s) := by
  unfold bin2bnWords
  rw [← fromBE_dropWhile_zero s]
  rcases dropWhile_zero_cases s with empty | ⟨b, rest, cons, nonzero⟩
  · rw [empty]
    rfl
  · have bytes := numBytes_fromLE_append_last rest.reverse b nonzero
    rw [List.length_reverse, ← List.reverse_cons, ← fromBE] at bytes
    rw [cons, numWords, List.length_cons, ← bytes, numBytes]
    omega

/-- `BN_bin2bn` fails exactly on a value of more than `maxWords` words. -/
theorem bin2bn_eq (s : List UInt8) (ret : Bignum) :
    bin2bn s ret = if 2 ^ (64 * maxWords) ≤ fromBE s then none else some (bin2bnExpanded s ret) := by
  rw [bin2bn, bin2bnWords_eq]
  exact if_congr (by rw [← Nat.not_le, numWords_le_iff, Nat.not_lt]) rfl rfl

/-! ## Arithmetic -/

/-- `BN_uadd(r, a, b)`: `|a| + |b|`, once `bn_wexpand(r, max + 1)` has given `r` the wider
operand's words and one for the carry. -/
def uadd (a b : Bignum) : Option Nat :=
  if maxWords < max a.top b.top + 1 then none else some (a.mag + b.mag)

/-- `BN_usub(r, a, b)` for `|a| ≥ |b|`: `|a| - |b|`, once `bn_wexpand(r, max)` has given `r`
the words of `a`. -/
def usub (a b : Bignum) : Option Nat :=
  if maxWords < a.top then none else some (a.mag - b.mag)

/-- `BN_add(r, a, b)`: `BN_uadd` for equal signs; otherwise `BN_usub` of the smaller
magnitude from the larger, with the larger's sign, and `BN_zero` for equal magnitudes. -/
def add (a b : Bignum) : Option Bignum :=
  if a.neg = b.neg then (uadd a b).map fun m => ⟨a.neg, m⟩
  else if a.mag > b.mag then (usub a b).map fun m => ⟨a.neg, m⟩
  else if a.mag < b.mag then (usub b a).map fun m => ⟨b.neg, m⟩
  else some zero

/-- `BN_sub(r, a, b)`: `BN_uadd` for different signs, with `a`'s sign; otherwise `BN_usub`
of the smaller magnitude from the larger, the sign flipped when `b`'s is the larger. -/
def sub (a b : Bignum) : Option Bignum :=
  if a.neg ≠ b.neg then (uadd a b).map fun m => ⟨a.neg, m⟩
  else if a.mag > b.mag then (usub a b).map fun m => ⟨a.neg, m⟩
  else if a.mag < b.mag then (usub b a).map fun m => ⟨!b.neg, m⟩
  else some zero

/-- The words `bn_mul_fixed_top` asks of `bn_wexpand` for non-zero operands of `al` and
`bl` words: 16 for two 8-word operands (`bn_mul_comba8`); for operands of at least
`BN_MULL_SIZE_NORMAL = 16` words differing by at most one, `4k` words with `k = 2j` and
`j` the largest power of two not above the longer operand, or `2k` when neither operand
is longer than `j` (`bn_mul_part_recursive`, `bn_mul_recursive`); otherwise `al + bl`
(`bn_mul_normal`). -/
def mulWords (al bl : Nat) : Nat :=
  if al = 8 ∧ bl = 8 then 16
  else if 16 ≤ al ∧ 16 ≤ bl ∧ al ≤ bl + 1 ∧ bl ≤ al + 1 then
    let j := 2 ^ (numBits (max al bl) - 1)
    if j < al ∨ j < bl then 4 * (2 * j) else 2 * (2 * j)
  else al + bl

/-- `BN_mul(r, a, b, ctx)`: a zero factor gives `BN_zero`; otherwise `NULL` when the words
`mulWords` counts are refused. -/
def mul (a b : Bignum) : Option Bignum :=
  if a.mag = 0 ∨ b.mag = 0 then some zero
  else if maxWords < mulWords a.top b.top then none
  else some ⟨xor a.neg b.neg, a.mag * b.mag⟩

/-- `BN_div(dv, rm, num, divisor, ctx)`: fails on a zero divisor, and when `bn_wexpand`
refuses what `bn_div_fixed_top` asks for: `num`'s words and one more for the normalising
`bn_lshift_fixed_top`, the divisor's words and one more for `tmp`. Otherwise the
quotient rounded toward zero and the remainder with the dividend's sign, each through
`bn_correct_top`. -/
def div (num divisor : Bignum) : Option (Bignum × Bignum) :=
  if divisor.mag = 0 then none
  else if maxWords < num.top + 1 ∨ maxWords < divisor.top + 1 then none
  else some (correctTop ⟨xor num.neg divisor.neg, num.mag / divisor.mag⟩,
    correctTop ⟨num.neg, num.mag % divisor.mag⟩)

/-- `BN_lshift(r, a, n)` for `n ≥ 0`: `bn_lshift_fixed_top` first asks `bn_wexpand` for
`a`'s words, `n / BN_BITS2` more and one for the bits shifted out of the top word. -/
def lshift (a : Bignum) (n : Nat) : Option Bignum :=
  if maxWords < a.top + n / 64 + 1 then none else some (correctTop ⟨a.neg, a.mag * 2 ^ n⟩)

/-- `BN_rshift(r, a, n)` for `n ≥ 0`: the magnitude is shifted, the sign kept. In place
(`r == a`) it asks for no room. -/
def rshift (a : Bignum) (n : Nat) : Bignum := correctTop ⟨a.neg, a.mag / 2 ^ n⟩

/-- `BN_mask_bits(a, n)`: fails for a negative `n` or one whose word is not in use. -/
def maskBits (a : Bignum) (n : Int) : Option Bignum :=
  if n < 0 ∨ a.top ≤ n.toNat / 64 then none
  else some (correctTop ⟨a.neg, a.mag % 2 ^ n.toNat⟩)

/-- `BN_clear_bit(a, n)`: a bit past the words in use is left alone without `bn_correct_top`. -/
def clearBit (a : Bignum) (n : Int) : Bignum :=
  if n < 0 ∨ a.top ≤ n.toNat / 64 then a
  else correctTop ⟨a.neg, if a.mag.testBit n.toNat then a.mag - 2 ^ n.toNat else a.mag⟩

/-- `BN_dec2bn`: an optional `-`, then the longest run of decimal digits. No digit, or
more than `INT_MAX / 4`, is an error, and so is a run for which `bn_expand(ret, i * 4)`,
four bits a digit rounded up to words, asks for more than `maxWords` (its own check
against `INT_MAX - BN_BITS2 + 1` bits is past that limit already); what follows the
digits is ignored; a zero is never made negative. -/
def dec2bn (s : List Char) : Option Bignum :=
  let neg := s.head? = some '-'
  let digits := (if neg then s.tail else s).takeWhile Char.isDigit
  if digits.length = 0 ∨ 2147483647 / 4 < digits.length then none
  else if maxWords < (4 * digits.length + 63) / 64 then none
  else
    let mag := digits.foldl (fun acc c => 10 * acc + (c.toNat - '0'.toNat)) 0
    some ⟨neg && mag != 0, mag⟩

/-! ## The integer operations they refine -/

/-- `BN_usub` asks for the words its first operand has already. -/
private theorem usub_of_fits {a : Bignum} (fits : a.Fits) (b : Bignum) :
    usub a b = some (a.mag - b.mag) :=
  if_neg (Nat.not_lt.2 fits)

/-- `BN_add` fails only in `BN_uadd`, on equal signs and a carry word past the limit, and
is integer addition from a canonical `a`. -/
theorem add_eq {a b : Bignum} (ha : a.Canonical) (fa : a.Fits) (fb : b.Fits) :
    add a b = if a.neg = b.neg ∧ maxWords < max a.top b.top + 1 then none
      else some (ofInt (a.toInt + b.toInt)) := by
  unfold add uadd
  rw [usub_of_fits fa, usub_of_fits fb]
  by_cases same : a.neg = b.neg
  · by_cases words : maxWords < max a.top b.top + 1
    · rw [if_pos same, if_pos words, if_pos ⟨same, words⟩]
      rfl
    · rw [if_pos same, if_neg words, if_neg (show ¬ (a.neg = b.neg ∧ _) from fun h => words h.2),
        Option.map_some']
      refine congrArg some
        (eq_ofInt_of (fun neg => Nat.lt_of_lt_of_le (ha neg) (Nat.le_add_right _ _)) ?_)
      obtain ⟨an, am⟩ := a
      obtain ⟨bn, bm⟩ := b
      dsimp only at same ⊢
      subst same
      cases an <;> simp [toInt]
      omega
  · rw [if_neg same, if_neg (show ¬ (a.neg = b.neg ∧ _) from fun h => same h.1)]
    obtain ⟨an, am⟩ := a
    obtain ⟨bn, bm⟩ := b
    dsimp only at same ⊢
    -- the smaller magnitude comes off the larger, which keeps its sign
    have value : ∀ r : Bignum, r.Canonical → r.toInt = toInt ⟨an, am⟩ + toInt ⟨bn, bm⟩ →
        some r = some (ofInt (toInt ⟨an, am⟩ + toInt ⟨bn, bm⟩)) :=
      fun r canonical sum => congrArg some (eq_ofInt_of canonical sum)
    split_ifs with larger smaller
    · refine value _ (canonical_of_pos (Nat.sub_pos_of_lt larger)) ?_
      cases an <;> cases bn <;> simp [toInt] at same ⊢ <;> omega
    · refine value _ (canonical_of_pos (Nat.sub_pos_of_lt smaller)) ?_
      cases an <;> cases bn <;> simp [toInt] at same ⊢ <;> omega
    · refine value _ canonical_zero ?_
      cases an <;> cases bn <;> simp [toInt, zero] at same ⊢ <;> omega

/-- `BN_sub` is `BN_add` with the sign flag of the second operand flipped. -/
theorem sub_eq_add (a b : Bignum) : sub a b = add a ⟨!b.neg, b.mag⟩ := by
  obtain ⟨an, am⟩ := a
  obtain ⟨bn, bm⟩ := b
  cases an <;> cases bn <;> rfl

/-- `BN_sub`, the same way: it fails only on different signs and a carry word past the
limit. -/
theorem sub_eq {a b : Bignum} (ha : a.Canonical) (fa : a.Fits) (fb : b.Fits) :
    sub a b = if a.neg ≠ b.neg ∧ maxWords < max a.top b.top + 1 then none
      else some (ofInt (a.toInt - b.toInt)) := by
  have flipped : (⟨!b.neg, b.mag⟩ : Bignum).toInt = -b.toInt := by
    unfold toInt
    cases b.neg <;> simp
  rw [sub_eq_add, add_eq ha fa (show (⟨!b.neg, b.mag⟩ : Bignum).Fits from fb), flipped,
    ← Int.sub_eq_add_neg]
  exact if_congr (by cases a.neg <;> cases b.neg <;> simp [top]) rfl rfl

/-- `BN_mul` needs no canonical operand, a negative zero factor counting as zero; it
fails only on non-zero factors whose `mulWords` are past the limit. -/
theorem mul_eq (a b : Bignum) :
    mul a b = if a.mag ≠ 0 ∧ b.mag ≠ 0 ∧ maxWords < mulWords a.top b.top then none
      else some (ofInt (a.toInt * b.toInt)) := by
  obtain ⟨an, am⟩ := a
  obtain ⟨bn, bm⟩ := b
  unfold mul
  by_cases zero : am = 0 ∨ bm = 0
  · rw [if_pos zero, if_neg (by simp only at zero ⊢; omega)]
    rcases zero with zero | zero
    · rw [show toInt ⟨an, am⟩ = 0 from toInt_eq_zero.2 zero, Int.zero_mul]
      rfl
    · rw [show toInt ⟨bn, bm⟩ = 0 from toInt_eq_zero.2 zero, Int.mul_zero]
      rfl
  · have nonzero : am ≠ 0 ∧ bm ≠ 0 := by omega
    rw [if_neg zero]
    simp only [nonzero.1, nonzero.2, ne_eq, not_false_eq_true, true_and]
    split
    · rfl
    · have pos : 0 < am * bm := Nat.mul_pos (Nat.pos_of_ne_zero nonzero.1) (Nat.pos_of_ne_zero nonzero.2)
      refine congrArg some (eq_ofInt_of (canonical_of_pos pos) ?_)
      cases an <;> cases bn <;> simp only [toInt, Bool.xor_false, Bool.xor_true, Bool.xor_self,
        Bool.not_false, if_true, if_false, Bool.false_eq_true, Int.natCast_mul, Int.neg_mul,
        Int.mul_neg, Int.neg_neg]

private theorem two_pow_nonneg (n : Nat) : (0 : Int) ≤ 2 ^ n :=
  Int.natCast_pow 2 n ▸ Int.natCast_nonneg _

private theorem neg_tmod (a b : Int) : (-a).tmod b = -a.tmod b := by
  have quotient := Int.tdiv_add_tmod (-a) b
  have whole := Int.tdiv_add_tmod a b
  rw [Int.neg_tdiv, Int.mul_neg] at quotient
  omega

/-- `BN_div` truncates toward zero: `Int.tdiv` and `Int.tmod`, the remainder taking the
dividend's sign; it fails when the dividend or the divisor has no word to spare. -/
theorem div_eq_ofInt (a : Bignum) {b : Bignum} (nonzero : b.mag ≠ 0) :
    div a b = if maxWords < a.top + 1 ∨ maxWords < b.top + 1 then none
      else some (ofInt (a.toInt.tdiv b.toInt), ofInt (a.toInt.tmod b.toInt)) := by
  rw [div, if_neg nonzero]
  split
  · rfl
  obtain ⟨an, am⟩ := a
  obtain ⟨bn, bm⟩ := b
  simp only [Option.some.injEq, Prod.mk.injEq]
  refine ⟨eq_ofInt_of (canonical_correctTop _) ?_, eq_ofInt_of (canonical_correctTop _) ?_⟩ <;>
    rw [toInt_correctTop] <;> cases an <;> cases bn <;>
    simp only [toInt, Bool.xor_false, Bool.false_xor, Bool.xor_true, Bool.true_xor, Bool.not_true,
      Bool.not_false, Bool.false_eq_true, ↓reduceIte, Int.neg_tdiv, Int.tdiv_neg, Int.neg_neg,
      ← Int.ofNat_tdiv, Int.tmod_neg, neg_tmod, ← Int.ofNat_tmod]

theorem div_eq_none {a b : Bignum} (zero : b.mag = 0) : div a b = none := if_pos zero

theorem lshift_eq_ofInt (a : Bignum) (n : Nat) :
    lshift a n = if maxWords < a.top + n / 64 + 1 then none else some (ofInt (a.toInt * 2 ^ n)) := by
  rw [lshift]
  split
  · rfl
  rw [eq_ofInt_toInt (canonical_correctTop _), toInt_correctTop]
  obtain ⟨negative, m⟩ := a
  cases negative <;> simp [toInt]

/-- `BN_rshift` shifts the magnitude: a negative number is rounded toward zero. -/
theorem rshift_eq_ofInt (a : Bignum) (n : Nat) : rshift a n = ofInt (a.toInt.tdiv (2 ^ n)) := by
  rw [rshift, eq_ofInt_toInt (canonical_correctTop _), toInt_correctTop]
  obtain ⟨negative, m⟩ := a
  have pow := Int.tdiv_eq_ediv (Int.natCast_nonneg m) (two_pow_nonneg n)
  cases negative <;> simp [toInt, Int.neg_tdiv, pow]

/-- `BN_mask_bits` keeps the low bits of the magnitude and the sign: `Int.tmod` by `2 ^ n`. -/
theorem maskBits_eq (a : Bignum) (n : Int) :
    maskBits a n = if n < 0 ∨ a.top ≤ n.toNat / 64 then none
      else some (ofInt (a.toInt.tmod (2 ^ n.toNat))) := by
  unfold maskBits
  split
  · rfl
  · rw [eq_ofInt_toInt (canonical_correctTop _), toInt_correctTop]
    obtain ⟨negative, m⟩ := a
    have pow := Int.tmod_eq_emod (Int.natCast_nonneg m) (two_pow_nonneg n.toNat)
    cases negative <;> simp [toInt, neg_tmod, pow]

/-! ## The canonical form -/

/-- A negative zero as the second operand does no harm. -/
theorem canonical_add {a b r : Bignum} (ha : a.Canonical) (added : add a b = some r) :
    r.Canonical := by
  unfold add uadd usub at added
  split_ifs at added <;> simp only [Option.map_some', Option.map_none', Option.some.injEq,
    reduceCtorEq] at added <;> subst added
  · exact fun negative => Nat.lt_of_lt_of_le (ha negative) (Nat.le_add_right _ _)
  all_goals first
    | exact canonical_zero
    | exact canonical_of_pos (Nat.sub_pos_of_lt ‹_›)

theorem canonical_sub {a b r : Bignum} (ha : a.Canonical) (subtracted : sub a b = some r) :
    r.Canonical :=
  canonical_add ha (sub_eq_add a b ▸ subtracted)

theorem canonical_mul {a b r : Bignum} (multiplied : mul a b = some r) : r.Canonical := by
  rw [mul_eq] at multiplied
  split_ifs at multiplied
  exact Option.some.inj multiplied ▸ canonical_ofInt _

theorem canonical_dec2bn {s : List Char} {r : Bignum} (parsed : dec2bn s = some r) :
    r.Canonical := by
  simp only [dec2bn] at parsed
  split_ifs at parsed <;> cases parsed <;>
    exact fun negative => Nat.pos_of_ne_zero (bne_iff_ne.1 (Bool.and_eq_true _ _ ▸ negative).2)

/-! ## Results that fit

Every result is a `BIGNUM` too: an operation that succeeds never leaves more than
`maxWords` words. Each operation's lemma rests on the word bounds above. -/

theorem fits_zero : zero.Fits := Nat.zero_le _

theorem fits_of_mag_le {a b : Bignum} (fits : b.Fits) (le : a.mag ≤ b.mag) : a.Fits :=
  Nat.le_trans (numWords_mono le) fits

/-- The power of two `bn_mul_fixed_top` takes as `j` lies in `(m / 2, m]`. -/
private theorem halfPow_bounds {m : Nat} (pos : 0 < m) :
    2 ^ (numBits m - 1) ≤ m ∧ m < 2 * 2 ^ (numBits m - 1) := by
  obtain ⟨k, bits⟩ : ∃ k, numBits m = k + 1 :=
    ⟨numBits m - 1, by have := numBits_eq_zero.not.2 pos.ne'; omega⟩
  have below := lt_two_pow_numBits m
  rw [bits, Nat.add_sub_cancel]
  rw [bits, Nat.pow_succ'] at below
  exact ⟨lt_numBits_iff.1 (by omega), below⟩

/-- `bn_mul_fixed_top` always asks for at least the words of both operands. -/
theorem add_le_mulWords (al bl : Nat) : al + bl ≤ mulWords al bl := by
  unfold mulWords
  dsimp only
  have left := le_max_left al bl
  have right := le_max_right al bl
  split_ifs with comba recursive longer
  · omega
  all_goals try have bounds := halfPow_bounds (m := max al bl) (by omega)
  all_goals omega

/-- ... and never more than eight times the longer operand. -/
theorem mulWords_le (al bl : Nat) : mulWords al bl ≤ 8 * max al bl := by
  unfold mulWords
  dsimp only
  have left := le_max_left al bl
  have right := le_max_right al bl
  split_ifs with comba recursive longer
  · omega
  all_goals try have bounds := halfPow_bounds (m := max al bl) (by omega)
  all_goals omega

/-- Two operands of the same length past `2 ^ 20` words take `bn_mul_part_recursive` or
`bn_mul_recursive` with `j ≥ 2 ^ 20`, and ask for `2 ^ 23` words or more: one past the
limit. -/
theorem maxWords_lt_mulWords {w : Nat} (long : 2 ^ 20 < w) : maxWords < mulWords w w := by
  have bits : 20 < numBits w := lt_numBits_iff.2 (Nat.le_of_lt long)
  have bounds := halfPow_bounds (m := w) (by omega)
  have big : 2 ^ 20 ≤ 2 ^ (numBits w - 1) := Nat.pow_le_pow_right (by decide) (by omega)
  unfold mulWords maxWords
  dsimp only
  rw [Nat.max_self, if_neg (by omega), if_pos (by omega)]
  split
  · omega
  · -- `w` is a power of two itself, so at least `2 ^ 21`
    have exact : 2 ^ (numBits w - 1) = w := by omega
    have bigger : 2 ^ 21 ≤ 2 ^ (numBits w - 1) := by
      refine Nat.pow_le_pow_right (by decide) ?_
      by_contra small
      have : numBits w = 21 := by omega
      rw [this] at exact
      omega
    omega

theorem fits_add {a b r : Bignum} (fa : a.Fits) (fb : b.Fits) (added : add a b = some r) :
    r.Fits := by
  unfold add uadd usub at added
  split_ifs at added <;> simp only [Option.map_some', Option.map_none', Option.some.injEq,
    reduceCtorEq] at added <;> subst added
  · exact Nat.le_trans (numWords_add_le _ _) (Nat.not_lt.1 ‹_›)
  all_goals first
    | exact fits_zero
    | exact fits_of_mag_le fa (Nat.sub_le _ _)
    | exact fits_of_mag_le fb (Nat.sub_le _ _)

theorem fits_sub {a b r : Bignum} (fa : a.Fits) (fb : b.Fits) (subtracted : sub a b = some r) :
    r.Fits :=
  fits_add fa (show (⟨!b.neg, b.mag⟩ : Bignum).Fits from fb) (sub_eq_add a b ▸ subtracted)

/-- A product `BN_mul` makes fits whatever its operands: it asked for its words first. -/
theorem fits_mul {a b r : Bignum} (multiplied : mul a b = some r) : r.Fits := by
  unfold mul at multiplied
  split_ifs at multiplied with zero words <;> cases multiplied
  · exact fits_zero
  · exact Nat.le_trans (numWords_mul_le _ _)
      (Nat.le_trans (add_le_mulWords _ _) (Nat.not_lt.1 words))

theorem fits_div {a b : Bignum} {p : Bignum × Bignum} (divided : div a b = some p) :
    p.1.Fits ∧ p.2.Fits := by
  unfold div at divided
  split_ifs at divided with zero words
  cases divided
  have fa : a.Fits := by unfold Fits; omega
  exact ⟨fits_of_mag_le fa (by rw [correctTop_mag]; exact Nat.div_le_self _ _),
    fits_of_mag_le fa (by rw [correctTop_mag]; exact Nat.mod_le _ _)⟩

theorem fits_lshift {a r : Bignum} {n : Nat} (shifted : lshift a n = some r) : r.Fits := by
  unfold lshift at shifted
  split_ifs at shifted with words
  cases shifted
  unfold Fits top
  rw [correctTop_mag]
  exact Nat.le_trans (numWords_mul_two_pow_le _ _) (Nat.not_lt.1 words)

theorem fits_rshift {a : Bignum} (fits : a.Fits) (n : Nat) : (rshift a n).Fits :=
  fits_of_mag_le fits (by rw [rshift, correctTop_mag]; exact Nat.div_le_self _ _)

theorem fits_maskBits {a r : Bignum} {n : Int} (fits : a.Fits) (masked : maskBits a n = some r) :
    r.Fits := by
  unfold maskBits at masked
  split_ifs at masked
  cases masked
  exact fits_of_mag_le fits (by rw [correctTop_mag]; exact Nat.mod_le _ _)

/-- `BN_dec2bn`'s loop over decimal digits stays below `10` to the number of digits. -/
private theorem foldl_digits_lt (ds : List Char) (digits : ∀ c ∈ ds, c.isDigit = true)
    (acc : Nat) :
    ds.foldl (fun acc c => 10 * acc + (c.toNat - '0'.toNat)) acc < (acc + 1) * 10 ^ ds.length := by
  induction ds generalizing acc with
  | nil => simp
  | cons c ds ih =>
    have digit : c.toNat - '0'.toNat < 10 := by
      have isDigit := digits c (List.mem_cons_self c ds)
      simp only [Char.isDigit, Bool.and_eq_true, decide_eq_true_eq] at isDigit
      have : c.val.toNat ≤ 57 := isDigit.2
      show c.val.toNat - 48 < 10
      omega
    rw [List.foldl_cons, List.length_cons, Nat.pow_succ]
    calc _ < (10 * acc + (c.toNat - '0'.toNat) + 1) * 10 ^ ds.length :=
          ih (fun c member => digits c (List.mem_cons_of_mem _ member)) _
      _ ≤ (acc + 1) * 10 * 10 ^ ds.length := Nat.mul_le_mul_right _ (by omega)
      _ = (acc + 1) * (10 ^ ds.length * 10) := by rw [Nat.mul_assoc, Nat.mul_comm 10]

/-- A number `BN_dec2bn` reads fits: `bn_expand` gave it four bits a digit. -/
theorem fits_dec2bn {s : List Char} {r : Bignum} (parsed : dec2bn s = some r) : r.Fits := by
  dsimp only [dec2bn] at parsed
  have digits := List.all_eq_true.1
    (List.all_takeWhile (p := Char.isDigit) (l := if s.head? = some '-' then s.tail else s))
  generalize (if s.head? = some '-' then s.tail else s).takeWhile Char.isDigit = ds at parsed digits
  split_ifs at parsed with length words
  cases parsed
  rw [fits_iff]
  have bound := foldl_digits_lt ds digits 0
  rw [Nat.zero_add, Nat.one_mul] at bound
  calc _ < 10 ^ ds.length := bound
    _ ≤ 16 ^ ds.length := Nat.pow_le_pow_left (by decide) _
    _ = 2 ^ (4 * ds.length) := by rw [Nat.pow_mul]
    _ ≤ 2 ^ (64 * maxWords) := Nat.pow_le_pow_right Nat.two_pos (by omega)

end Bignum

end BitcoinSv.Openssl

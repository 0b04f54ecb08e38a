import Mathlib.Data.BitVec
import BitcoinSv.Openssl.Mpi

/-!
# `bsv::bint`

Source pin: src/src/big_int.cpp:24-414. A `bint` owns an OpenSSL `BIGNUM` through
`value_`, which is null after a move or a failed `deserialize`; Note 2 calls such an
object not well formed. Member functions whose body asserts or dereferences `value_`
take the `BIGNUM` itself (a well-formed `bint`); `Bint` is the possibly null object,
used where the source tests for null (`empty()`) or may produce it.

Every `assert` of the source aborts (the build keeps assertions on): a function that
can fail one returns `Option`, `none` being the abort. `int` arguments are `Int`, the
fixed-width `int`, `int64_t` and `size_t` constructor arguments are `BitVec 32`,
`BitVec 64` and `UInt64`.

`bint::empty()` is declared in big_int.h, which is not under src/; `&=` and `|=` take
it as the parameter `EmptyTest`, with the two facts the source relies on.
The output functions are in `BitcoinSv.BigInt.Convert`. Not modelled: `swap` (pointer
exchange; assignment is modelled by its result, a copy).
-/

namespace BitcoinSv.BigInt
open BitcoinSv.Bytes BitcoinSv.Openssl

/-- A `bint` object: its `value_`. -/
structure Bint where
  value : Option Bignum
  deriving DecidableEq, Repr

/-- `bint()`: no `BIGNUM` at all. -/
def bint : Bint := ⟨none⟩

/-! ## Sign -/

/-- `is_negative(n)`: `BN_is_negative(n.value_.get()) == 1`. -/
def isNegative (n : Bignum) : Bool := n.isNegative

/-- `negate()`: clears the sign flag of a negative number, sets it otherwise. -/
def negate (self : Bignum) : Bignum :=
  if isNegative self then self.setNegative false else self.setNegative true

/-- The copy constructor: `BN_copy` of the other number, sign flag included. -/
def copy (other : Bignum) : Bignum := other

/-- Unary `operator-`: a copy, negated. -/
def neg (self : Bignum) : Bignum := negate (copy self)

/-- `abs(n)`. -/
def abs (n : Bignum) : Bignum := if isNegative n then neg n else n

/-! ## Constructors -/

/-- `bint(int i)`: `BN_set_word` of `-static_cast<long>(i)` and `BN_set_negative(1)` for
a negative `i`, `BN_set_word(i)` otherwise. -/
def fromInt (i : BitVec 32) : Bignum :=
  if i.toInt < 0 then (Bignum.setWord (UInt64.ofNat (-i.toInt).toNat)).setNegative true
  else Bignum.setWord (UInt64.ofNat i.toInt.toNat)

/-- `bint(int64_t i)`: asserts `i > INT64_MIN`, whose negation is out of range. -/
def fromInt64 (i : BitVec 64) : Option Bignum :=
  if i.toInt ≤ -2 ^ 63 then none
  else
    let negative := decide (i.toInt < 0)
    let value := Bignum.setWord (UInt64.ofNat (if negative then -i.toInt else i.toInt).toNat)
    some (if negative then value.setNegative true else value)

/-- `bint(size_t i)`. -/
def fromSizeT (i : UInt64) : Bignum := Bignum.setWord i

/-- `bint(const std::string& n)`: `BN_dec2bn` of the string, asserted to succeed. -/
def fromString (n : String) : Option Bignum := Bignum.dec2bn n.toList

/-! ## Arithmetic -/

/-- `operator+=`: `BN_add(value_, value_, other.value_)`, asserted to succeed. -/
def addAssign (self other : Bignum) : Option Bignum := Bignum.add self other

/-- `operator-=`: `BN_sub`, asserted to succeed. -/
def subAssign (self other : Bignum) : Option Bignum := Bignum.sub self other

/-- `operator*=`: `BN_mul`, asserted to succeed. -/
def mulAssign (self other : Bignum) : Option Bignum := Bignum.mul self other

/-- `operator/=`: `BN_div` into `value_` with a null remainder, asserted to succeed. -/
def divAssign (self other : Bignum) : Option Bignum := (Bignum.div self other).map Prod.fst

/-- `operator%=`: `BN_mod` into `value_`, asserted to succeed. -/
def modAssign (self other : Bignum) : Option Bignum := (Bignum.div self other).map Prod.snd

/-- `operator<<=(int n)`: nothing for `n ≤ 0`, else `BN_lshift`, asserted to succeed. -/
def shiftLeftAssign (self : Bignum) (n : Int) : Option Bignum :=
  if n ≤ 0 then some self else self.lshift n.toNat

/-- `operator>>=(int n)`: nothing for `n ≤ 0`, else `BN_rshift`. -/
def shiftRightAssign (self : Bignum) (n : Int) : Bignum :=
  if n ≤ 0 then self else self.rshift n.toNat

/-- `mask_bits(int n)`: `BN_mask_bits`, asserted to succeed. -/
def maskBits (self : Bignum) (n : Int) : Option Bignum := self.maskBits n

/-! ## Comparison and bytes -/

/-- `spaceship_operator(other)`: `BN_cmp`. -/
def spaceshipOperator (self other : Bignum) : Int := Bignum.cmp self other

/-- `operator<`. -/
def lt (a b : Bignum) : Bool := spaceshipOperator a b < 0

/-- `operator==`. -/
def eq (a b : Bignum) : Bool := spaceshipOperator a b == 0

/-- `size_bits()`: `BN_num_bits`. -/
def sizeBits (self : Bignum) : Nat := numBits self.mag

/-- `size_bytes()`: `BN_num_bytes`. -/
def sizeBytes (self : Bignum) : Nat := numBytes self.mag

/-- `to_bin()`: a buffer of `size_bytes()` bytes filled by `BN_bn2bin`. -/
def toBin (self : Bignum) : List UInt8 := self.bn2bin

/-- `lsb()`: the last byte of `to_bin()`, 0 for an empty buffer. -/
def lsb (self : Bignum) : UInt8 :=
  match toBin self with
  | [] => 0
  | buffer => buffer.getLast?.getD 0

/-! ## Bitwise operators -/

/-- The right operand of a compound assignment: `*this` itself, or another object. -/
inductive Operand where
  | self
  | other (b : Bint)

/-- `bint::empty()`, whose body is not under src/. `&=` and `|=` dereference a non-empty
`other`, so an object without a `BIGNUM` is empty; a non-zero number is not. -/
structure EmptyTest where
  empty : Bint → Bool
  empty_null : empty ⟨none⟩ = true
  nonempty_of_ne_zero : ∀ b : Bignum, b.mag ≠ 0 → empty ⟨some b⟩ = false

/-- `empty()` as a test for a null `value_`: one implementation with the two facts. -/
def nullEmpty : EmptyTest := ⟨fun b => b.value.isNone, rfl, fun _ _ => rfl⟩

/-- `std::transform` from `rbegin(first)` to `rend(first)` against `rbegin(second)`,
written over `first`. -/
def transformOverFirst (op : UInt8 → UInt8 → UInt8) (first second : List UInt8) : List UInt8 :=
  (List.zipWith op first.reverse second.reverse).reverse

/-- The same transform written over `second`, whose bytes above `first` stay. -/
def transformOverSecond (op : UInt8 → UInt8 → UInt8) (first second : List UInt8) :
    List UInt8 :=
  (List.zipWith op first.reverse second.reverse ++ second.reverse.drop first.length).reverse

/-- `operator&=`: byte-wise `&` over the shorter `to_bin()` buffer, read back into
`value_` by `BN_bin2bn`, negated when both operands are negative. The source ignores what
`BN_bin2bn` returns; its one failure, refusing the words, never happens here on numbers
that fit, since the buffer has no more significant bytes than an operand
(`bin2bn_andAssign`), so the read-back is `bin2bnExpanded`. -/
def andAssign (e : EmptyTest) (self : Bignum) : Operand → Option Bignum
  | .self => some self
  | .other other =>
    if e.empty other then some (copy (fromInt 0))
    else match other.value with
      | none => none
      | some o =>
        let negate := isNegative self && isNegative o
        let bytesOther := toBin o
        let bytesThis := toBin self
        let result :=
          if bytesOther.length ≤ bytesThis.length then
            Bignum.bin2bnExpanded (transformOverFirst (· &&& ·) bytesOther bytesThis) self
          else Bignum.bin2bnExpanded (transformOverFirst (· &&& ·) bytesThis bytesOther) self
        some (if negate then BigInt.negate result else result)

/-- `operator|=`: byte-wise `|` over the longer `to_bin()` buffer, read back into `value_`
by `BN_bin2bn`, negated when exactly one operand is negative. As for `&=`, the words
`BN_bin2bn` asks for are never refused on numbers that fit (`bin2bn_orAssign`). -/
def orAssign (e : EmptyTest) (self : Bignum) : Operand → Option Bignum
  | .self => some self
  | .other other =>
    if e.empty other then some self
    else match other.value with
      | none => none
      | some o =>
        let negate := (isNegative o && !isNegative self) || (isNegative self && !isNegative o)
        let bytesOther := toBin o
        let bytesThis := toBin self
        let result :=
          if bytesOther.length ≤ bytesThis.length then
            Bignum.bin2bnExpanded (transformOverSecond (· ||| ·) bytesOther bytesThis) self
          else Bignum.bin2bnExpanded (transformOverSecond (· ||| ·) bytesThis bytesOther) self
        some (if negate then BigInt.negate result else result)

/-! ## Spec lemmas -/

@[simp] theorem isNegative_eq (n : Bignum) : isNegative n = n.neg := rfl

@[simp] theorem negate_mag (self : Bignum) : (negate self).mag = self.mag := by
  unfold negate
  split <;> rfl

/-- `negate` flips the integer and always leaves a canonical number, even from a
negative zero. -/
theorem negate_eq_ofInt (self : Bignum) : negate self = Bignum.ofInt (-self.toInt) := by
  unfold negate
  refine Bignum.eq_ofInt_of (by split <;> exact Bignum.canonical_setNegative _ _) ?_
  obtain ⟨neg, mag⟩ := self
  cases neg
  · simp only [isNegative_eq, Bool.false_eq_true, if_false, Bignum.toInt_setNegative, true_and]
    simp only [Bignum.toInt, Bool.false_eq_true, if_false]
    split <;> omega
  · simp only [isNegative_eq, if_true, Bignum.toInt_setNegative, Bool.false_eq_true, false_and,
      if_false]
    simp only [Bignum.toInt, if_true]
    omega

@[simp] theorem word_toNat_ofNat (n : Nat) : (UInt64.ofNat n).toNat = n % 2 ^ 64 :=
  BitVec.toNat_ofNat n 64

theorem toInt_bounds {w : Nat} (i : BitVec (w + 1)) : -2 ^ w ≤ i.toInt ∧ i.toInt < 2 ^ w := by
  rw [BitVec.toInt_eq_toNat_cond]
  have fits := i.isLt
  have two : (2 : Nat) ^ (w + 1) = 2 * 2 ^ w := by rw [Nat.pow_succ, Nat.mul_comm]
  rw [two] at fits ⊢
  have cast : ((2 ^ w : Nat) : Int) = 2 ^ w := by push_cast; rfl
  split <;> push_cast <;> omega

/-- The shape both signed constructors share: `BN_set_word` of `|z|`, then
`BN_set_negative(1)` for a negative `z`, builds the canonical number of any `z` whose
magnitude fits a word. -/
private theorem setWord_abs {z : Int} (fits : z.natAbs < 2 ^ 64) :
    (if z < 0 then (Bignum.setWord (UInt64.ofNat (-z).toNat)).setNegative true
      else Bignum.setWord (UInt64.ofNat z.toNat)) = Bignum.ofInt z := by
  by_cases negative : z < 0
  · rw [if_pos negative]
    refine Bignum.eq_ofInt_of (Bignum.canonical_setNegative _ _) ?_
    rw [Bignum.toInt_setNegative]
    simp only [Bignum.setWord, word_toNat_ofNat, true_and]
    split <;> omega
  · rw [if_neg negative]
    refine Bignum.eq_ofInt_of (Bignum.canonical_setWord _) ?_
    simp only [Bignum.setWord, Bignum.toInt, word_toNat_ofNat, Bool.false_eq_true, if_false]
    omega

/-- `bint(int)` builds the canonical number of its argument. -/
theorem fromInt_eq_ofInt (i : BitVec 32) : fromInt i = Bignum.ofInt i.toInt := by
  have bounds := toInt_bounds i
  exact setWord_abs (by omega)

/-- `bint(int64_t)` aborts exactly on `INT64_MIN` and otherwise builds the canonical number. -/
theorem fromInt64_eq (i : BitVec 64) :
    fromInt64 i = if i.toInt = -2 ^ 63 then none else some (Bignum.ofInt i.toInt) := by
  have bounds := toInt_bounds i
  unfold fromInt64
  by_cases low : i.toInt = -2 ^ 63
  · simp only [low, le_refl, if_true]
  · rw [if_neg (by omega), if_neg low, ← setWord_abs (by omega)]
    by_cases negative : i.toInt < 0 <;>
      simp only [negative, decide_True, decide_False, if_true, if_false, Bool.false_eq_true]

@[simp] theorem fromInt_zero : fromInt 0 = Bignum.zero := rfl

end BitcoinSv.BigInt

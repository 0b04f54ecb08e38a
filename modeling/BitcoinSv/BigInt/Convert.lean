import BitcoinSv.BigInt.Bint
import BitcoinSv.Openssl.Convert

/-!
# `operator<<`, `to_string`, `to_long` and `to_size_t_limited`

Source pin: src/src/big_int.cpp:343-414. `operator<<` writes `BN_bn2dec` of `value_`, or
nothing for a null `value_`, and `to_string` is `operator<<` into an empty stream.
`to_long` goes through an `ASN1_INTEGER`, which it never frees (memory is not modelled),
and `to_size_t_limited` asserts that `to_long` is not negative. `long` is 64 bits wide, as
on Linux/GCC.

* `toString_eq`: the text is the decimal representation of the integer, so a negative
  zero prints as `0`; a non-zero number of `maxWords` words has none;
* `fromString_toString`: `bint(to_string(n))` gives the number back, a negative zero made
  non-negative, exactly up to `16 · maxWords` digits; from a null `n` the constructor's
  assert fails;
* `toLong_eq`, `toLong_eq_minus_one_iff`: `to_long` returns the number when it fits an
  `int64_t` and `-1` otherwise, so `-1` stands for both;
* `toSizeTLimited_eq`, `toSizeTLimited_fromSizeT`: `to_size_t_limited` returns the number
  exactly on its stated precondition `0 ≤ n ≤ INT64_MAX` and aborts elsewhere, so
  `bint(size_t)` comes back only below `2 ^ 63`;
* `toLong_fromInt64`: every `bint(int64_t)` comes back through `to_long`.
-/

namespace BitcoinSv.BigInt
open BitcoinSv.Openssl

/-- `to_str(bn)`: the text `BN_bn2dec` returns, `none` for its `NULL`. -/
def toStr (bn : Bignum) : Option (List Char) := Bignum.bn2dec bn

/-- `operator<<(os, n)`: the stream's text, then `to_str` of `value_` unless `value_` is
null. Inserting the null `const char*` of a failed `BN_bn2dec` into the stream is
undefined behaviour, `none` here. -/
def streamInsert (os : String) (n : Bint) : Option String :=
  match n.value with
  | none => some os
  | some v => (toStr v).map fun s => os ++ s.asString

/-- `to_string(n)`: `operator<<` into an empty `std::ostringstream`. -/
def toString (n : Bint) : Option String := streamInsert "" n

/-- `to_long(n)`: `ASN1_INTEGER_get(BN_to_ASN1_INTEGER(n.value_.get(), nullptr))`. -/
def toLong (n : Bignum) : Int := asn1IntegerGet (bnToAsn1Integer n)

/-- `to_size_t_limited(n)`: `to_long(n)`, asserted non-negative, cast to `size_t`. -/
def toSizeTLimited (n : Bignum) : Option UInt64 :=
  let i64 := toLong n
  if 0 ≤ i64 then some (UInt64.ofNat i64.toNat) else none

/-! ## Decimal text -/

/-- `to_string` writes the decimal representation of the integer, nothing for a null
`value_`, and has no defined result for a non-zero number of `Bignum.maxWords` words, whose
`BN_bn2dec` fails. -/
theorem toString_eq (n : Bint) (fits : ∀ v ∈ n.value, v.Fits) :
    toString n = match n.value with
      | none => some ""
      | some v => if v.mag ≠ 0 ∧ v.top = Bignum.maxWords then none else some v.toInt.repr := by
  obtain ⟨_ | v⟩ := n
  · rfl
  · simp only [toString, streamInsert, toStr, String.empty_append]
    exact Bignum.bn2dec_eq_repr (fits v rfl)

theorem toString_eq_minus_five : toString ⟨some (fromInt (-5))⟩ = some "-5" :=
  (toString_eq _ fun v member => by cases member; decide).trans (by decide)

/-- What `bint(const std::string&)` reads of a text `operator<<` wrote: the characters
themselves. -/
theorem fromString_append_asString (s : List Char) :
    fromString ("" ++ s.asString) = Bignum.dec2bn s := by
  rw [String.empty_append]
  rfl

/-- `bint(const std::string&)` reads `to_string(n)` back to `n`'s number, a negative zero
made non-negative, when it has at most `16 · maxWords` digits; a longer text, and the
empty text of a null `n`, fail the constructor's assert. -/
theorem fromString_toString (n : Bint) (words : ∀ v ∈ n.value, v.top < Bignum.maxWords) :
    (toString n).map fromString =
      some (n.value.bind fun v =>
        if v.mag < 10 ^ (16 * Bignum.maxWords) then some (Bignum.correctTop v) else none) := by
  obtain ⟨_ | v⟩ := n
  · rfl
  · rw [Option.some_bind, ← Bignum.dec2bn_bn2dec (words v rfl)]
    simp only [toString, streamInsert, toStr, Option.map_map, Function.comp_def,
      fromString_append_asString]

theorem fromString_toString_negative_zero :
    (toString ⟨some ⟨true, 0⟩⟩).map fromString = some (some Bignum.zero) := by
  rw [fromString_toString _ fun v member => by
      cases member
      exact (by decide : (⟨true, 0⟩ : Bignum).top < Bignum.maxWords),
    Option.some_bind, if_pos (pow_pos (by decide : 0 < 10) (16 * Bignum.maxWords))]
  rfl

/-! ## `to_long` and `to_size_t_limited` -/

/-- `to_long` returns the number when it fits an `int64_t` and `-1` otherwise; a negative
zero gives `0`. -/
theorem toLong_eq (n : Bignum) :
    toLong n = if -2 ^ 63 ≤ n.toInt ∧ n.toInt < 2 ^ 63 then n.toInt else -1 :=
  asn1IntegerGet_bnToAsn1Integer n

/-- A `-1` from `to_long` is either the number `-1` or a number out of range. -/
theorem toLong_eq_minus_one_iff (n : Bignum) :
    toLong n = -1 ↔ n.toInt = -1 ∨ ¬ (-2 ^ 63 ≤ n.toInt ∧ n.toInt < 2 ^ 63) := by
  rw [toLong, asn1IntegerGet_bnToAsn1Integer]
  split_ifs with fits
  · exact ⟨.inl, fun either => either.resolve_right (not_not.2 fits)⟩
  · exact ⟨fun _ => .inr fits, fun _ => rfl⟩

/-- `to_size_t_limited` returns the number exactly on its precondition `0 ≤ n ≤ INT64_MAX`
and fails its assert on every other number. -/
theorem toSizeTLimited_eq (n : Bignum) :
    toSizeTLimited n =
      if 0 ≤ n.toInt ∧ n.toInt < 2 ^ 63 then some (UInt64.ofNat n.toInt.toNat) else none := by
  simp only [toSizeTLimited, toLong, asn1IntegerGet_bnToAsn1Integer]
  split_ifs <;> first | rfl | omega

/-- A `bint(size_t)` comes back through `to_size_t_limited` below `2 ^ 63`; from `2 ^ 63`
on, `to_long` gives `-1` and the assert fails. -/
theorem toSizeTLimited_fromSizeT (i : UInt64) :
    toSizeTLimited (fromSizeT i) = if i.toNat < 2 ^ 63 then some i else none := by
  have small := i.toNat_lt_size
  simp only [toSizeTLimited, toLong, asn1IntegerGet_bnToAsn1Integer, fromSizeT, Bignum.setWord,
    Bignum.toInt, Bool.false_eq_true, if_false]
  by_cases fits : i.toNat < 2 ^ 63
  · have inRange : -2 ^ 63 ≤ (i.toNat : Int) ∧ (i.toNat : Int) < 2 ^ 63 := by omega
    rw [if_pos inRange, if_pos (Int.natCast_nonneg _), if_pos fits, Int.toNat_ofNat]
    exact congrArg some (UInt64.toNat.inj (by rw [word_toNat_ofNat]; omega))
  · have outOfRange : ¬ (-2 ^ 63 ≤ (i.toNat : Int) ∧ (i.toNat : Int) < 2 ^ 63) := by omega
    rw [if_neg outOfRange, if_neg fits]
    exact if_neg (by decide)

/-- Every `bint(int64_t)` comes back through `to_long`; `INT64_MIN` is refused by the
constructor. -/
theorem toLong_fromInt64 (i : BitVec 64) :
    (fromInt64 i).map toLong = if i.toInt = -2 ^ 63 then none else some i.toInt := by
  rw [fromInt64_eq]
  split_ifs with least
  · rfl
  · have bounds := toInt_bounds i
    simp only [Option.map_some', toLong, asn1IntegerGet_bnToAsn1Integer, Bignum.toInt_ofInt]
    exact congrArg some (if_pos bounds)

end BitcoinSv.BigInt

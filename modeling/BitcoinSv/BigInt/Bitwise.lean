import BitcoinSv.BigInt.Bint

/-!
# `operator&=` and `operator|=`

Source pin: src/src/big_int.cpp:190-269, with `to_bin` (333-342) and `negate` (314-321).
Both operators combine the `to_bin()` buffers byte by byte from their last, least
significant, bytes, read the combined buffer back into `value_` with `BN_bin2bn`, and
then negate by a sign rule.

* `fromBE_transformOverFirst_and`, `fromBE_transformOverSecond_or`: the two transforms
  compute `&` and `|` of the magnitudes, whichever buffer is longer;
* `andAssign_other`: `a &= b` is `s * (|a| & |b|)` with `s = -1` when both operands are
  negative, except when `a` is negative, `b` is not and `|a| & |b| = 0`: `BN_bin2bn`
  then keeps the sign flag of `value_` and the result is a negative zero;
* `andAssign_eq_spec_iff`, `canonical_andAssign_iff`: that exception is the only input
  where `&=` misses the law, and the only one where it leaves a non-canonical number;
* `orAssign_other`, `orAssign_eq_spec_iff`: `a |= b` is `s * (|a| | |b|)` with `s = -1`
  when exactly one operand is negative, which misses the law `s = -1` when either is
  negative exactly when both are;
* `andAssign_self_eq_copy`, `orAssign_self_eq_copy_iff`: the `this == &other` shortcut
  agrees with the general path on a copy for `&=`, and for `|=` only on non-negative
  numbers;
* `bin2bn_andAssign`, `bin2bn_orAssign`: the `BN_bin2bn` result both operators ignore
  is never a failure on numbers that fit;
* the failing inputs `-1 &= 2` and `-1 |= -1`.
-/

namespace BitcoinSv.BigInt
open BitcoinSv.Bytes BitcoinSv.Openssl Bignum

/-! ## The byte transforms -/

theorem fromBE_transformOverFirst_and (first second : List UInt8) :
    fromBE (transformOverFirst (· &&& ·) first second) = fromBE first &&& fromBE second := by
  simp only [transformOverFirst, fromBE, List.reverse_reverse, fromLE_zipWith_and]

theorem fromBE_transformOverSecond_or {first second : List UInt8}
    (shorter : first.length ≤ second.length) :
    fromBE (transformOverSecond (· ||| ·) first second) = fromBE first ||| fromBE second := by
  simp only [transformOverSecond, fromBE, List.reverse_reverse]
  rw [← List.length_reverse first]
  exact fromLE_zipWith_or _ _ (by simpa using shorter)

@[simp] theorem fromBE_toBin (n : Bignum) : fromBE (toBin n) = n.mag := fromBE_bn2bin n

/-- The law the two operators are meant to follow: the sign `s` times the magnitude. -/
def signed (negative : Bool) (m : Nat) : Bignum := ofInt (if negative then -(m : Int) else m)

/-- The law's number as a sign flag and a magnitude: never a negative zero. -/
theorem signed_eq (negative : Bool) (m : Nat) : signed negative m = ⟨negative && m != 0, m⟩ := by
  cases negative <;> simp only [signed, ofInt, Bool.false_eq_true, Bool.true_and, Bool.false_and,
    if_true, if_false, Int.natAbs_neg, Int.natAbs_ofNat, mk.injEq, and_true]
  · exact decide_eq_false (by omega)
  · rw [Bool.eq_iff_iff, decide_eq_true_iff, bne_iff_ne]
    omega

/-- The tail `&=` and `|=` share: `BN_bin2bn` of the magnitude `m` into `value_`, which keeps
its sign flag when `m = 0`, then `negate()` when `negative`. -/
theorem readBack_eq (self : Bignum) (m : Nat) (negative : Bool) :
    (if negative then negate (if m = 0 then { self with mag := 0 } else ⟨false, m⟩)
      else if m = 0 then { self with mag := 0 } else ⟨false, m⟩) =
      if m = 0 ∧ negative = false then ⟨self.neg, 0⟩ else signed negative m := by
  rw [signed_eq]
  by_cases zero : m = 0 <;> cases negative <;> simp [zero, negate, setNegative, isZero]

/-! ## The read-back never runs out of words

`&=` and `|=` ignore the `BN_bin2bn` result; the model reads back with `bin2bnExpanded`.
On operands that fit, the faithful `bin2bn` accepts the combined buffer and gives the
same number: `|a| & |b| ≤ |a|`, and `|a| | |b|` has no more bits than the longer one. -/

theorem bin2bn_andAssign {self : Bignum} (o ret : Bignum) (fits : self.Fits) :
    (if (toBin o).length ≤ (toBin self).length then
        bin2bn (transformOverFirst (· &&& ·) (toBin o) (toBin self)) ret
      else bin2bn (transformOverFirst (· &&& ·) (toBin self) (toBin o)) ret) =
    some (if (toBin o).length ≤ (toBin self).length then
        bin2bnExpanded (transformOverFirst (· &&& ·) (toBin o) (toBin self)) ret
      else bin2bnExpanded (transformOverFirst (· &&& ·) (toBin self) (toBin o)) ret) := by
  have small := (fits_iff self).1 fits
  simp only [bin2bn_eq, fromBE_transformOverFirst_and, fromBE_toBin,
    if_neg (Nat.not_le.2 (Nat.lt_of_le_of_lt Nat.and_le_right small)),
    if_neg (Nat.not_le.2 (Nat.lt_of_le_of_lt Nat.and_le_left small))]
  split <;> rfl

theorem bin2bn_orAssign {self o : Bignum} (ret : Bignum) (fits : self.Fits) (ofits : o.Fits) :
    (if (toBin o).length ≤ (toBin self).length then
        bin2bn (transformOverSecond (· ||| ·) (toBin o) (toBin self)) ret
      else bin2bn (transformOverSecond (· ||| ·) (toBin self) (toBin o)) ret) =
    some (if (toBin o).length ≤ (toBin self).length then
        bin2bnExpanded (transformOverSecond (· ||| ·) (toBin o) (toBin self)) ret
      else bin2bnExpanded (transformOverSecond (· ||| ·) (toBin self) (toBin o)) ret) := by
  have small : ∀ x y : Bignum, x.Fits → y.Fits → (toBin x).length ≤ (toBin y).length →
      ¬ 2 ^ (64 * maxWords) ≤ fromBE (transformOverSecond (· ||| ·) (toBin x) (toBin y)) :=
    fun x y xfits yfits shorter => by
      rw [fromBE_transformOverSecond_or shorter, fromBE_toBin, fromBE_toBin, Nat.not_le]
      exact Nat.or_lt_two_pow ((fits_iff x).1 xfits) ((fits_iff y).1 yfits)
  split
  · rw [bin2bn_eq, if_neg (small o self ofits fits ‹_›)]
  · rw [bin2bn_eq, if_neg (small self o fits ofits (by omega))]

/-! ## `&=` -/

/-- `a &= b` for a non-empty `b`: the law, but for the negative zero left by `BN_bin2bn`. -/
theorem andAssign_other (e : EmptyTest) (self o : Bignum) (nonempty : e.empty ⟨some o⟩ = false) :
    andAssign e self (.other ⟨some o⟩) =
      some (if self.neg = true ∧ o.neg = false ∧ self.mag &&& o.mag = 0 then ⟨true, 0⟩
        else signed (self.neg && o.neg) (self.mag &&& o.mag)) := by
  simp only [andAssign, nonempty, Bool.false_eq_true, if_false, bin2bnExpanded_eq,
    fromBE_transformOverFirst_and, fromBE_toBin, Nat.and_comm o.mag self.mag, ite_self,
    isNegative_eq, readBack_eq, Option.some.injEq]
  obtain ⟨neg, mag⟩ := self
  obtain ⟨oneg, omag⟩ := o
  rw [signed_eq]
  by_cases zero : mag &&& omag = 0 <;> cases neg <;> cases oneg <;> simp [zero]

/-- `&=` meets the law on every input but a negative `a`, a non-negative `b` and a zero
`|a| & |b|`. -/
theorem andAssign_eq_spec_iff (e : EmptyTest) (self o : Bignum)
    (nonempty : e.empty ⟨some o⟩ = false) :
    andAssign e self (.other ⟨some o⟩) = some (signed (self.neg && o.neg) (self.mag &&& o.mag)) ↔
      ¬ (self.neg = true ∧ o.neg = false ∧ self.mag &&& o.mag = 0) := by
  rw [andAssign_other e self o nonempty]
  by_cases bug : self.neg = true ∧ o.neg = false ∧ self.mag &&& o.mag = 0
  · obtain ⟨negative, nonneg, zero⟩ := bug
    simp [negative, nonneg, zero, signed, ofInt]
  · simp [bug]

theorem andAssign_spec_fails_minus_one_two :
    andAssign nullEmpty (fromInt (-1)) (.other ⟨some (fromInt 2)⟩) ≠ some (signed false 0) :=
  fun same => (andAssign_eq_spec_iff nullEmpty _ _ rfl).1 same (by decide)

/-- The only non-canonical result of `&=`, on any operands, is that negative zero. -/
theorem canonical_andAssign_iff (e : EmptyTest) (self o : Bignum)
    (nonempty : e.empty ⟨some o⟩ = false) :
    (∃ r, andAssign e self (.other ⟨some o⟩) = some r ∧ r.Canonical) ↔
      ¬ (self.neg = true ∧ o.neg = false ∧ self.mag &&& o.mag = 0) := by
  rw [andAssign_other e self o nonempty]
  by_cases bug : self.neg = true ∧ o.neg = false ∧ self.mag &&& o.mag = 0
  · simp [bug, canonical_iff]
  · simp [bug, signed, canonical_ofInt]

theorem canonical_andAssign_two_three :
    ∃ r, andAssign nullEmpty (fromInt 2) (.other ⟨some (fromInt 3)⟩) = some r ∧ r.Canonical :=
  (canonical_andAssign_iff nullEmpty _ _ rfl).2 (by decide)

/-! ## `|=` -/

/-- The buffer `|=` reads back into `value_`: the `|` of the magnitudes, whichever buffer is
longer. -/
theorem readBack_orAssign (self o : Bignum) :
    (if (toBin o).length ≤ (toBin self).length then
        bin2bnExpanded (transformOverSecond (· ||| ·) (toBin o) (toBin self)) self
      else bin2bnExpanded (transformOverSecond (· ||| ·) (toBin self) (toBin o)) self) =
      if self.mag ||| o.mag = 0 then { self with mag := 0 } else ⟨false, self.mag ||| o.mag⟩ := by
  have value : ∀ x y : Bignum, (toBin x).length ≤ (toBin y).length →
      fromBE (transformOverSecond (· ||| ·) (toBin x) (toBin y)) = x.mag ||| y.mag :=
    fun x y shorter => by rw [fromBE_transformOverSecond_or shorter, fromBE_toBin, fromBE_toBin]
  split
  · rw [bin2bnExpanded_eq, value _ _ ‹_›, Nat.or_comm]
  · rw [bin2bnExpanded_eq, value _ _ (by omega)]

/-- Whatever the signs, `|=` leaves the magnitude `|a| | |b|`. -/
theorem mag_orAssign (e : EmptyTest) (self o : Bignum) (nonempty : e.empty ⟨some o⟩ = false) :
    (orAssign e self (.other ⟨some o⟩)).map Bignum.mag = some (self.mag ||| o.mag) := by
  simp only [orAssign, nonempty, Bool.false_eq_true, if_false, readBack_orAssign, Option.map_some',
    Option.some.injEq]
  split
  · rw [negate_mag]
    split <;> simp_all
  · split <;> simp_all

/-- `a |= b` for a non-empty `b` and a canonical `a`: negated when exactly one operand is
negative. -/
theorem orAssign_other (e : EmptyTest) {self : Bignum} (o : Bignum) (canonical : self.Canonical)
    (nonempty : e.empty ⟨some o⟩ = false) :
    orAssign e self (.other ⟨some o⟩) = some (signed (self.neg != o.neg) (self.mag ||| o.mag)) := by
  simp only [orAssign, nonempty, Bool.false_eq_true, if_false, readBack_orAssign, isNegative_eq,
    readBack_eq, Option.some.injEq]
  obtain ⟨neg, mag⟩ := self
  obtain ⟨oneg, omag⟩ := o
  split
  · rename_i zero
    have : mag = 0 ∧ omag = 0 := or_eq_zero_iff.1 zero.1
    have : neg = false := by
      cases neg
      · rfl
      · exact absurd (canonical rfl) (by simp [this.1])
    cases oneg <;> simp_all [signed, ofInt]
  · cases neg <;> cases oneg <;> rfl

/-- From a canonical `a`, `|=` meets the law exactly when the operands are not both
negative. -/
theorem orAssign_eq_spec_iff (e : EmptyTest) {self : Bignum} (o : Bignum)
    (canonical : self.Canonical) (nonempty : e.empty ⟨some o⟩ = false) :
    orAssign e self (.other ⟨some o⟩) = some (signed (self.neg || o.neg) (self.mag ||| o.mag)) ↔
      ¬ (self.neg = true ∧ o.neg = true) := by
  rw [orAssign_other e o canonical nonempty, Option.some.injEq, signed_eq, signed_eq]
  obtain ⟨neg, mag⟩ := self
  obtain ⟨oneg, omag⟩ := o
  simp only [canonical_iff, Nat.pos_iff_ne_zero] at canonical
  cases neg <;> cases oneg <;> simp [canonical]

theorem orAssign_spec_fails_minus_one :
    orAssign nullEmpty (fromInt (-1)) (.other ⟨some (fromInt (-1))⟩) ≠ some (signed true 1) :=
  fun same => (orAssign_eq_spec_iff nullEmpty _ (by decide) rfl).1 same (by decide)

/-! ## The `this == &other` shortcut

Both operators return `*this` at once when `other` is the object itself. -/

/-- A canonical number that `empty()` calls empty is zero. -/
private theorem eq_zero_of_empty (e : EmptyTest) {self : Bignum} (canonical : self.Canonical)
    (empty : e.empty ⟨some self⟩ = true) : self = zero := by
  have mag : self.mag = 0 := Classical.byContradiction fun nonzero =>
    absurd (e.nonempty_of_ne_zero self nonzero) (by rw [empty]; decide)
  obtain ⟨neg, m⟩ := self
  simp only at mag
  subst mag
  cases neg
  · rfl
  · exact absurd (canonical rfl) (Nat.lt_irrefl 0)

/-- For `&=` the shortcut gives what the general path computes on a copy, for every
canonical number and whatever `empty()` says of zero. -/
theorem andAssign_self_eq_copy (e : EmptyTest) {self : Bignum} (canonical : self.Canonical) :
    andAssign e self .self = andAssign e self (.other ⟨some (copy self)⟩) := by
  cases empty : e.empty ⟨some self⟩
  · have mixed : ¬ (self.neg = true ∧ self.neg = false ∧ self.mag &&& self.mag = 0) :=
      fun ⟨negative, nonneg, _⟩ => absurd (negative.symm.trans nonneg) (by decide)
    rw [copy, andAssign_other e self self empty, if_neg mixed, Bool.and_self, Nat.and_self,
      signed_eq, andAssign, Option.some.injEq]
    obtain ⟨neg, mag⟩ := self
    cases neg
    · rfl
    · simp only [Bool.true_and, mk.injEq, and_true]
      exact (bne_iff_ne.2 (Nat.pos_iff_ne_zero.1 (canonical rfl))).symm
  · obtain rfl := eq_zero_of_empty e canonical empty
    simp only [andAssign, copy, empty, if_true, fromInt_zero]

theorem andAssign_self_eq_copy_minus_one :
    andAssign nullEmpty (fromInt (-1)) .self =
      andAssign nullEmpty (fromInt (-1)) (.other ⟨some (copy (fromInt (-1)))⟩) :=
  andAssign_self_eq_copy nullEmpty (by decide)

/-- For `|=` the shortcut differs from the general path on every negative number: `x |= x`
keeps `x`, while `x |= y` with `y` a copy of `x` gives `|x|`. -/
theorem orAssign_self_eq_copy_iff (e : EmptyTest) {self : Bignum} (canonical : self.Canonical) :
    orAssign e self .self = orAssign e self (.other ⟨some (copy self)⟩) ↔ self.neg = false := by
  cases empty : e.empty ⟨some self⟩
  · rw [copy, orAssign_other e self canonical empty, bne_self_eq_false, Nat.or_self, signed_eq,
      orAssign, Option.some.injEq, Bool.false_and]
    obtain ⟨neg, mag⟩ := self
    cases neg <;> simp
  · obtain rfl := eq_zero_of_empty e canonical empty
    simp only [orAssign, copy, empty, if_true, zero_neg, iff_true]

theorem orAssign_self_ne_copy_minus_one :
    orAssign nullEmpty (fromInt (-1)) .self ≠
      orAssign nullEmpty (fromInt (-1)) (.other ⟨some (copy (fromInt (-1)))⟩) :=
  fun same => absurd ((orAssign_self_eq_copy_iff nullEmpty (by decide)).1 same) (by decide)

/-! ## Failing inputs -/

/-- `bint{-1} &= bint{2}`: `1 & 2 = 0` is written into the negative `value_`, which keeps
its sign flag, and `2` is not negative, so nothing negates it: the result is a negative
zero, which compares below `bint{0}`. -/
theorem andAssign_minus_one_two (e : EmptyTest) :
    andAssign e (fromInt (-1)) (.other ⟨some (fromInt 2)⟩) = some ⟨true, 0⟩ ∧
      eq ⟨true, 0⟩ (fromInt 0) = false ∧ lt ⟨true, 0⟩ (fromInt 0) = true := by
  rw [andAssign_other e _ _ (e.nonempty_of_ne_zero _ (by decide))]
  decide

/-- `bint{-1} |= bint{-1}` on two objects gives `1`; the aliased `x |= x` keeps `-1`. -/
theorem orAssign_minus_one (e : EmptyTest) :
    orAssign e (fromInt (-1)) (.other ⟨some (fromInt (-1))⟩) = some (fromInt 1) ∧
      orAssign e (fromInt (-1)) .self = some (fromInt (-1)) := by
  rw [orAssign_other e _ (canonical_of_pos (by decide)) (e.nonempty_of_ne_zero _ (by decide))]
  exact ⟨by decide, rfl⟩

end BitcoinSv.BigInt

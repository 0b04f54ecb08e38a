import BitcoinSv.BigInt.Serialize
import BitcoinSv.BigInt.Bitwise

/-!
# `bint` as an integer

Source pin: src/src/big_int.cpp:24-188, 271-414. On canonical numbers every member of
`bint` is the `ofInt` of an integer operation: the `BN_*` calls refine `+`, `-`, `*`,
division and remainder truncated toward zero (`Int.tdiv`, `Int.tmod`), shifts by powers
of two, and `BN_cmp` is the integer comparison. Each `BN_*` call that asks
`bn_wexpand` for more than `maxWords` words fails instead, and the member's `assert`
aborts.

* `arithmetic_refines_int`, `shifts_refine_int`, `sign_operations_eq`,
  `spaceshipOperator_eq_compare`, `maskBits_refines_int`, `lsb_eq`: the members, one
  statement per group, with the words each one asks for;
* `mulAssign_aborts_of_long`: `*=` aborts on equal-length factors past `2 ^ 20` words
  even where their product fits;
* `Built`, `canonical_of_built`, `fits_of_built`: every number a program builds from the
  constructors and `deserialize` by any sequence of the other public operations is
  canonical and within the word limit, one step lemma per operation;
* `andAssign_not_canonical`, `deserialize_serialize_negative_zero`: `&=` is the exception,
  and its negative zero does not come back through `serialize` and `deserialize`;
* `divAssign_modAssign_recompose`, `shifts_maskBits_recompose`: how the members compose,
  division with remainder, and the shifts with `mask_bits`.
-/

namespace BitcoinSv.BigInt
open BitcoinSv.Bytes BitcoinSv.Openssl Bignum

/-! ## The members as integer operations -/

/-- `+=`, `-=`, `*=`, `/=` and `%=` from a canonical left operand, both operands fitting:
the integer operation, or an abort on the `BN_*` result's `assert` exactly where OpenSSL
refuses the words it asks for (a carry word past the limit, `mulWords` past it, no word
to spare for `BN_div`'s normalising shift) or the divisor is zero. -/
theorem arithmetic_refines_int {a b : Bignum} (ha : a.Canonical) (fa : a.Fits) (fb : b.Fits) :
    addAssign a b = (if a.neg = b.neg ∧ maxWords < max a.top b.top + 1 then none
        else some (ofInt (a.toInt + b.toInt))) ∧
      subAssign a b = (if a.neg ≠ b.neg ∧ maxWords < max a.top b.top + 1 then none
        else some (ofInt (a.toInt - b.toInt))) ∧
      mulAssign a b = (if a.mag ≠ 0 ∧ b.mag ≠ 0 ∧ maxWords < mulWords a.top b.top then none
        else some (ofInt (a.toInt * b.toInt))) ∧
      divAssign a b = (if b.toInt = 0 ∨ maxWords < a.top + 1 ∨ maxWords < b.top + 1 then none
        else some (ofInt (a.toInt.tdiv b.toInt))) ∧
      modAssign a b = (if b.toInt = 0 ∨ maxWords < a.top + 1 ∨ maxWords < b.top + 1 then none
        else some (ofInt (a.toInt.tmod b.toInt))) := by
  refine ⟨add_eq ha fa fb, sub_eq ha fa fb, mul_eq a b, ?_, ?_⟩ <;>
  · by_cases zero : b.mag = 0
    · simp [divAssign, modAssign, div_eq_none zero, toInt_eq_zero.2 zero]
    · simp only [divAssign, modAssign]
      rw [div_eq_ofInt a zero, if_congr (or_iff_right (mt toInt_eq_zero.1 zero)) rfl rfl]
      split <;> rfl

theorem arithmetic_refines_int_seven_minus_two :
    addAssign (fromInt 7) (fromInt (-2)) = some (ofInt 5) ∧
      subAssign (fromInt 7) (fromInt (-2)) = some (ofInt 9) ∧
      mulAssign (fromInt 7) (fromInt (-2)) = some (ofInt (-14)) ∧
      divAssign (fromInt 7) (fromInt (-2)) = some (ofInt (-3)) ∧
      modAssign (fromInt 7) (fromInt (-2)) = some (ofInt 1) := by
  have := arithmetic_refines_int (a := fromInt 7) (b := fromInt (-2)) (by decide) (by decide)
    (by decide)
  exact ⟨this.1.trans (by decide), this.2.1.trans (by decide), this.2.2.1.trans (by decide),
    this.2.2.2.1.trans (by decide), this.2.2.2.2.trans (by decide)⟩

/-- `*=` aborts on any two non-zero factors of the same length past `2 ^ 20` words,
although their product fits whenever they are at most half the limit:
`bn_mul_fixed_top` asks `bn_wexpand` for at least `2 ^ 23` words, one past `maxWords`. -/
theorem mulAssign_aborts_of_long {a b : Bignum} (nonzero : a.mag ≠ 0 ∧ b.mag ≠ 0)
    (same : a.top = b.top) (long : 2 ^ 20 < a.top) :
    mulAssign a b = none ∧ (2 * a.top ≤ maxWords → (ofInt (a.toInt * b.toInt)).Fits) := by
  refine ⟨?_, fun half => ?_⟩
  · rw [mulAssign, mul_eq, if_pos ⟨nonzero.1, nonzero.2, same ▸ maxWords_lt_mulWords long⟩]
  · show numWords (a.toInt * b.toInt).natAbs ≤ maxWords
    rw [Int.natAbs_mul, natAbs_toInt, natAbs_toInt]
    have product := numWords_mul_le a.mag b.mag
    unfold top at same half
    omega

theorem mulAssign_aborts_of_long_two_pow :
    mulAssign ⟨false, 2 ^ (64 * 2 ^ 20)⟩ ⟨false, 2 ^ (64 * 2 ^ 20)⟩ = none ∧
      (2 * (⟨false, 2 ^ (64 * 2 ^ 20)⟩ : Bignum).top ≤ maxWords →
        (ofInt ((⟨false, 2 ^ (64 * 2 ^ 20)⟩ : Bignum).toInt *
          (⟨false, 2 ^ (64 * 2 ^ 20)⟩ : Bignum).toInt)).Fits) :=
  mulAssign_aborts_of_long ⟨(Nat.two_pow_pos _).ne', (Nat.two_pow_pos _).ne'⟩ rfl
    (by rw [top, numWords_two_pow]; omega)

/-- `<<=` and `>>=` do nothing for `n ≤ 0`. Otherwise `>>=` divides by `2 ^ n` rounding
toward zero, and `<<=` multiplies by `2 ^ n` unless `BN_lshift` asks for more than
`maxWords` words: the number's, `n / 64` more and one for the bits shifted out of the
top word, whether the result needs that word or not. -/
theorem shifts_refine_int (a : Bignum) (n : Int) :
    shiftLeftAssign a n = (if n ≤ 0 then some a
        else if maxWords < a.top + n.toNat / 64 + 1 then none
        else some (ofInt (a.toInt * 2 ^ n.toNat))) ∧
      shiftRightAssign a n = (if n ≤ 0 then a else ofInt (a.toInt.tdiv (2 ^ n.toNat))) :=
  ⟨by rw [shiftLeftAssign, lshift_eq_ofInt], by rw [shiftRightAssign, rshift_eq_ofInt]⟩

/-- `negate`, unary `-` and `abs` on any number, a negative zero included: each result
is canonical. -/
theorem sign_operations_eq (a : Bignum) :
    negate a = ofInt (-a.toInt) ∧ neg a = ofInt (-a.toInt) ∧
      abs a = ofInt (a.toInt.natAbs : Int) := by
  refine ⟨negate_eq_ofInt a, negate_eq_ofInt a, ?_⟩
  obtain ⟨negative, m⟩ := a
  cases negative
  · simp [abs, ofInt, toInt, Int.natCast_nonneg]
  · simp [abs, neg, copy, negate_eq_ofInt, toInt]

/-- `spaceship_operator` is the three-way comparison of the integers, and `<` and `==`
are the integer ones, on canonical numbers. -/
theorem spaceshipOperator_eq_compare {a b : Bignum} (ha : a.Canonical) (hb : b.Canonical) :
    spaceshipOperator a b = (if a.toInt < b.toInt then -1 else if a.toInt = b.toInt then 0 else 1) ∧
      lt a b = decide (a.toInt < b.toInt) ∧ eq a b = decide (a.toInt = b.toInt) := by
  have three := cmp_eq ha hb
  refine ⟨three, ?_, ?_⟩
  · simp only [lt, spaceshipOperator, three]
    split_ifs <;> simp_all
  · simp only [eq, spaceshipOperator, three]
    split_ifs <;> simp_all
    omega

theorem spaceshipOperator_eq_compare_minus_one_two :
    spaceshipOperator (fromInt (-1)) (fromInt 2) = -1 ∧ lt (fromInt (-1)) (fromInt 2) = true ∧
      eq (fromInt (-1)) (fromInt 2) = false := by
  have := spaceshipOperator_eq_compare (a := fromInt (-1)) (b := fromInt 2) (by decide) (by decide)
  exact ⟨this.1.trans (by decide), this.2.1.trans (by decide), this.2.2.trans (by decide)⟩

/-- `mask_bits(n)` keeps the sign and the low `n` bits of the magnitude, and aborts for a
negative `n` or one past the words in use. -/
theorem maskBits_refines_int (a : Bignum) (n : Int) :
    maskBits a n = if n < 0 ∨ a.top ≤ n.toNat / 64 then none
      else some (ofInt (a.toInt.tmod (2 ^ n.toNat))) :=
  maskBits_eq a n

/-- `lsb()` is the low byte of the magnitude, `0` for zero. -/
theorem lsb_eq (a : Bignum) : lsb a = UInt8.ofNat a.mag := by
  unfold lsb
  split
  · rename_i empty
    have bytes : numBytes a.mag = 0 := by simpa [toBin] using congrArg List.length empty
    have : a.mag = 0 := numBits_eq_zero.1 (by unfold numBytes at bytes; omega)
    simp [this]
  · cases h : numBytes a.mag with
    | zero => simp_all [toBin, bn2bin]
    | succ w => simp [toBin, bn2bin, h, toLE]

/-! ## The canonical form and the word limit over any run -/

/-- The numbers a program builds with the public interface of `bint` but `&=`: the
constructors and `deserialize`, then any operation on numbers already built whose
`assert` holds. A copy or an assignment is the number itself. -/
inductive Built : Bignum → Prop
  | fromInt (i : BitVec 32) : Built (fromInt i)
  | fromInt64 {i : BitVec 64} {r : Bignum} : fromInt64 i = some r → Built r
  | fromSizeT (i : UInt64) : Built (fromSizeT i)
  | fromString {n : String} {r : Bignum} : fromString n = some r → Built r
  | deserialize {v : List UInt8} {r : Bignum} : (deserialize v).value = some r → Built r
  | addAssign {a b r : Bignum} : Built a → Built b → addAssign a b = some r → Built r
  | subAssign {a b r : Bignum} : Built a → Built b → subAssign a b = some r → Built r
  | mulAssign {a b r : Bignum} : Built a → Built b → mulAssign a b = some r → Built r
  | divAssign {a b r : Bignum} : Built a → Built b → divAssign a b = some r → Built r
  | modAssign {a b r : Bignum} : Built a → Built b → modAssign a b = some r → Built r
  | orAssign {e : EmptyTest} {a r : Bignum} {other : Operand} : Built a →
      (∀ b, other = .other ⟨some b⟩ → Built b) → orAssign e a other = some r → Built r
  | shiftLeftAssign {a r : Bignum} {n : Int} : Built a → shiftLeftAssign a n = some r → Built r
  | shiftRightAssign {a : Bignum} (n : Int) : Built a → Built (shiftRightAssign a n)
  | negate {a : Bignum} : Built a → Built (negate a)
  | neg {a : Bignum} : Built a → Built (neg a)
  | abs {a : Bignum} : Built a → Built (abs a)
  | maskBits {a r : Bignum} {n : Int} : Built a → maskBits a n = some r → Built r

/-- What `|=` returns: `a` itself, aliased or for an empty `other`, or the general path on
a non-empty `other`. -/
theorem orAssign_eq_some {e : EmptyTest} {a r : Bignum} {other : Operand}
    (result : orAssign e a other = some r) :
    r = a ∨ ∃ b, other = .other ⟨some b⟩ ∧ e.empty ⟨some b⟩ = false ∧
      orAssign e a (.other ⟨some b⟩) = some r := by
  cases other with
  | self => exact .inl (Option.some.inj result).symm
  | other ob =>
    cases empty : e.empty ob
    · obtain ⟨value⟩ := ob
      cases value with
      | none => simp [orAssign, empty] at result
      | some b => exact .inr ⟨b, rfl, empty, result⟩
    · simp only [orAssign, empty, if_true, Option.some.injEq] at result
      exact .inl result.symm

/-- `/=` and `%=` take the two results of one `BN_div`. -/
theorem divAssign_or_modAssign {a b r : Bignum}
    (divided : divAssign a b = some r ∨ modAssign a b = some r) :
    ∃ p, Bignum.div a b = some p ∧ (r = p.1 ∨ r = p.2) := by
  rcases divided with divided | divided <;>
    obtain ⟨p, made, rfl⟩ := Option.map_eq_some'.1 divided
  · exact ⟨p, made, .inl rfl⟩
  · exact ⟨p, made, .inr rfl⟩

theorem canonical_fromInt64 {i : BitVec 64} {r : Bignum} (made : fromInt64 i = some r) :
    r.Canonical := by
  rw [fromInt64_eq] at made
  split_ifs at made
  cases made
  exact canonical_ofInt _

/-- Both results of `BN_div` go through `bn_correct_top`. -/
theorem canonical_of_div {a b : Bignum} {p : Bignum × Bignum} (divided : Bignum.div a b = some p) :
    p.1.Canonical ∧ p.2.Canonical := by
  unfold Bignum.div at divided
  split_ifs at divided
  cases divided
  exact ⟨canonical_correctTop _, canonical_correctTop _⟩

theorem canonical_divAssign {a b r : Bignum}
    (divided : divAssign a b = some r ∨ modAssign a b = some r) : r.Canonical := by
  obtain ⟨p, made, quotient | remainder⟩ := divAssign_or_modAssign divided
  · exact quotient ▸ (canonical_of_div made).1
  · exact remainder ▸ (canonical_of_div made).2

theorem canonical_orAssign {e : EmptyTest} {a r : Bignum} {other : Operand}
    (ha : a.Canonical) (others : ∀ b, other = .other ⟨some b⟩ → b.Canonical)
    (result : orAssign e a other = some r) : r.Canonical := by
  rcases orAssign_eq_some result with rfl | ⟨b, rfl, empty, general⟩
  · exact ha
  · rw [orAssign_other e b ha empty, Option.some.injEq] at general
    exact general ▸ canonical_ofInt _

theorem canonical_shiftLeftAssign {a r : Bignum} {n : Int} (ha : a.Canonical)
    (shifted : shiftLeftAssign a n = some r) : r.Canonical := by
  unfold shiftLeftAssign Bignum.lshift at shifted
  split_ifs at shifted <;> cases shifted
  · exact ha
  · exact canonical_correctTop _

theorem canonical_shiftRightAssign {a : Bignum} (ha : a.Canonical) (n : Int) :
    (shiftRightAssign a n).Canonical := by
  unfold shiftRightAssign
  split
  · exact ha
  · exact canonical_correctTop _

theorem canonical_negate (a : Bignum) : (negate a).Canonical :=
  negate_eq_ofInt a ▸ canonical_ofInt _

theorem canonical_abs {a : Bignum} (ha : a.Canonical) : (abs a).Canonical := by
  unfold abs
  split
  · exact canonical_negate _
  · exact ha

theorem canonical_maskBits {a r : Bignum} {n : Int} (masked : maskBits a n = some r) :
    r.Canonical := by
  unfold maskBits Bignum.maskBits at masked
  split_ifs at masked
  cases masked
  exact canonical_correctTop _

/-- Every number built without `&=` is canonical, whatever the sequence of operations:
each operation keeps the invariant, from canonical operands or from any. -/
theorem canonical_of_built {a : Bignum} (built : Built a) : a.Canonical := by
  induction built with
  | fromInt i => exact fromInt_eq_ofInt i ▸ canonical_ofInt _
  | fromInt64 made => exact canonical_fromInt64 made
  | fromSizeT i => exact canonical_setWord i
  | fromString parsed => exact canonical_dec2bn parsed
  | deserialize decoded => exact canonical_mpi2bn decoded
  | addAssign _ _ added ha => exact canonical_add ha added
  | subAssign _ _ subtracted ha => exact canonical_sub ha subtracted
  | mulAssign _ _ multiplied => exact canonical_mul multiplied
  | divAssign _ _ divided => exact canonical_divAssign (.inl divided)
  | modAssign _ _ divided => exact canonical_divAssign (.inr divided)
  | orAssign _ _ result ha others => exact canonical_orAssign ha others result
  | shiftLeftAssign _ shifted ha => exact canonical_shiftLeftAssign ha shifted
  | shiftRightAssign n _ ha => exact canonical_shiftRightAssign ha n
  | negate => exact canonical_negate _
  | neg => exact canonical_negate _
  | abs _ ha => exact canonical_abs ha
  | maskBits _ masked => exact canonical_maskBits masked

/-- `(3 - 3) * -5`: the zero product of a negative factor is not negative. -/
theorem canonical_of_built_zero_product : Bignum.zero.Canonical :=
  canonical_of_built (.mulAssign
    (.subAssign (.fromInt 3) (.fromInt 3) (show subAssign (fromInt 3) (fromInt 3) = some zero by decide))
    (.fromInt (-5)) (show mulAssign zero (fromInt (-5)) = some zero by decide))

theorem fits_fromInt (i : BitVec 32) : (fromInt i).Fits := by
  have bounds := toInt_bounds i
  rw [fromInt_eq_ofInt, fits_iff, ofInt_mag]
  exact lt_two_pow_maxWords (by omega)

theorem fits_fromInt64 {i : BitVec 64} {r : Bignum} (made : fromInt64 i = some r) : r.Fits := by
  have bounds := toInt_bounds i
  rw [fromInt64_eq] at made
  split_ifs at made
  cases made
  rw [fits_iff, ofInt_mag]
  exact lt_two_pow_maxWords (by omega)

theorem fits_divAssign {a b r : Bignum}
    (divided : divAssign a b = some r ∨ modAssign a b = some r) : r.Fits := by
  obtain ⟨p, made, quotient | remainder⟩ := divAssign_or_modAssign divided
  · exact quotient ▸ (fits_div made).1
  · exact remainder ▸ (fits_div made).2

theorem fits_orAssign {e : EmptyTest} {a r : Bignum} {other : Operand} (fa : a.Fits)
    (others : ∀ b, other = .other ⟨some b⟩ → b.Fits) (result : orAssign e a other = some r) :
    r.Fits := by
  rcases orAssign_eq_some result with rfl | ⟨b, rfl, empty, general⟩
  · exact fa
  · have mag := mag_orAssign e a b empty
    rw [general, Option.map_some', Option.some.injEq] at mag
    show numWords r.mag ≤ maxWords
    rw [mag]
    exact Nat.le_trans (numWords_or_le _ _) (max_le fa (others b rfl))

theorem fits_shiftLeftAssign {a r : Bignum} {n : Int} (fa : a.Fits)
    (shifted : shiftLeftAssign a n = some r) : r.Fits := by
  unfold shiftLeftAssign at shifted
  split at shifted
  · exact Option.some.inj shifted ▸ fa
  · exact fits_lshift shifted

theorem fits_shiftRightAssign {a : Bignum} (fa : a.Fits) (n : Int) :
    (shiftRightAssign a n).Fits := by
  unfold shiftRightAssign
  split
  · exact fa
  · exact fits_rshift fa _

theorem fits_negate {a : Bignum} (fa : a.Fits) : (negate a).Fits :=
  fits_of_mag_le fa (negate_mag a).le

theorem fits_abs {a : Bignum} (fa : a.Fits) : (abs a).Fits := by
  unfold abs
  split
  · exact fits_negate fa
  · exact fa

/-- Every number built without `&=` fits OpenSSL's word limit: a step that would need more
words aborts instead, and no step makes a larger number from numbers that fit. -/
theorem fits_of_built {a : Bignum} (built : Built a) : a.Fits := by
  induction built with
  | fromInt i => exact fits_fromInt i
  | fromInt64 made => exact fits_fromInt64 made
  | fromSizeT i => exact fits_setWord i
  | fromString parsed => exact fits_dec2bn parsed
  | deserialize decoded => exact fits_mpi2bn decoded
  | addAssign _ _ added fa fb => exact fits_add fa fb added
  | subAssign _ _ subtracted fa fb => exact fits_sub fa fb subtracted
  | mulAssign _ _ multiplied => exact fits_mul multiplied
  | divAssign _ _ divided => exact fits_divAssign (.inl divided)
  | modAssign _ _ divided => exact fits_divAssign (.inr divided)
  | orAssign _ _ result fa others => exact fits_orAssign fa others result
  | shiftLeftAssign _ shifted fa => exact fits_shiftLeftAssign fa shifted
  | shiftRightAssign n _ fa => exact fits_shiftRightAssign fa n
  | negate _ fa => exact fits_negate fa
  | neg _ fa => exact fits_negate fa
  | abs _ fa => exact fits_abs fa
  | maskBits _ masked fa => exact fits_maskBits fa masked

theorem fits_of_built_zero_product : Bignum.zero.Fits :=
  fits_of_built (.mulAssign
    (.subAssign (.fromInt 3) (.fromInt 3) (show subAssign (fromInt 3) (fromInt 3) = some zero by decide))
    (.fromInt (-5)) (show mulAssign zero (fromInt (-5)) = some zero by decide))

/-- `&=` breaks the invariant from canonical operands: `bint{-1} &= bint{2}` is a
negative zero, which compares below `bint{0}` and not equal to it. -/
theorem andAssign_not_canonical (e : EmptyTest) :
    ∃ r, andAssign e (fromInt (-1)) (.other ⟨some (fromInt 2)⟩) = some r ∧ ¬ r.Canonical ∧
      r.mag = 0 ∧ lt r (fromInt 0) = true ∧ eq r (fromInt 0) = false := by
  refine ⟨⟨true, 0⟩, ?_, by decide, rfl, by decide, by decide⟩
  rw [andAssign_other e _ _ (e.nonempty_of_ne_zero _ (by decide))]
  decide

/-- That negative zero does not survive `serialize` and `deserialize`: `BN_bn2mpi` stores
its sign one byte past the vector `serialize()` allocated, the vector it returns is empty,
and it reads back as `bint{0}`, which is not `==` to it. -/
theorem deserialize_serialize_negative_zero (e : EmptyTest) :
    ∃ r, andAssign e (fromInt (-1)) (.other ⟨some (fromInt 2)⟩) = some r ∧
      serializeChecked r = none ∧ serialize r = [] ∧ deserialize (serialize r) = ⟨some zero⟩ ∧
      eq zero r = false := by
  refine ⟨⟨true, 0⟩, ?_, by decide, by decide, by decide, by decide⟩
  rw [andAssign_other e _ _ (e.nonempty_of_ne_zero _ (by decide))]
  decide

/-! ## How the members compose -/

/-- `/=` and `%=` by the same non-zero divisor recompose the dividend through `*=` and
`+=`, with a remainder whose magnitude is below the divisor's and whose sign, when set,
is the dividend's, as long as both operands are below an eighth of the word limit:
`BN_mul` may ask for up to eight times the longer operand's words (`mulWords_le`). -/
theorem divAssign_modAssign_recompose {a b : Bignum} (canonical : a.Canonical)
    (nonzero : b.mag ≠ 0) (small : 8 * max a.top b.top ≤ maxWords) :
    ∃ q r, divAssign a b = some q ∧ modAssign a b = some r ∧
      (mulAssign q b).bind (fun p => addAssign p r) = some a ∧ r.mag < b.mag ∧
      (r.neg = true → a.neg = true) := by
  have divisorWords : 0 < b.top := Nat.pos_of_ne_zero (numWords_eq_zero.not.2 nonzero)
  have left := le_max_left a.top b.top
  have right := le_max_right a.top b.top
  have words : ¬ (maxWords < a.top + 1 ∨ maxWords < b.top + 1) := by omega
  have quotient := div_eq_ofInt a nonzero
  rw [Bignum.div, if_neg nonzero, if_neg words, if_neg words, Option.some.injEq,
    Prod.mk.injEq] at quotient
  have below : a.mag % b.mag < b.mag := Nat.mod_lt _ (Nat.pos_of_ne_zero nonzero)
  refine ⟨correctTop ⟨xor a.neg b.neg, a.mag / b.mag⟩, correctTop ⟨a.neg, a.mag % b.mag⟩,
    by rw [divAssign, Bignum.div, if_neg nonzero, if_neg words]; rfl,
    by rw [modAssign, Bignum.div, if_neg nonzero, if_neg words]; rfl, ?_,
    by rw [correctTop_mag]; exact below, neg_of_correctTop⟩
  -- the words each step asks for: the quotient and the product are no longer than `a`,
  -- the remainder no longer than `b`
  have quotientWords : (correctTop ⟨xor a.neg b.neg, a.mag / b.mag⟩).top ≤ a.top :=
    numWords_mono (by rw [correctTop_mag]; exact Nat.div_le_self _ _)
  have productWords : (ofInt ((ofInt (a.toInt.tdiv b.toInt)).toInt * b.toInt)).top ≤ a.top := by
    refine numWords_mono ?_
    rw [ofInt_mag, Int.natAbs_mul, natAbs_toInt, natAbs_toInt, ← quotient.1, correctTop_mag]
    exact Nat.div_mul_le_self _ _
  have remainderWords : (ofInt (a.toInt.tmod b.toInt)).top ≤ b.top :=
    numWords_mono (by rw [← quotient.2, correctTop_mag]; exact Nat.le_of_lt below)
  have multiplied := mulWords_le (correctTop ⟨xor a.neg b.neg, a.mag / b.mag⟩).top b.top
  rw [mulAssign, mul_eq, if_neg (by omega), Option.some_bind, addAssign, quotient.1, quotient.2,
    add_eq (canonical_ofInt _) (Nat.le_trans productWords (by omega))
      (Nat.le_trans remainderWords (by omega)),
    if_neg (by omega), toInt_ofInt, toInt_ofInt, toInt_ofInt, Int.tdiv_add_tmod',
    ← eq_ofInt_toInt canonical]

theorem divAssign_modAssign_recompose_minus_seven_two :
    ∃ q r, divAssign (fromInt (-7)) (fromInt 2) = some q ∧
      modAssign (fromInt (-7)) (fromInt 2) = some r ∧
      (mulAssign q (fromInt 2)).bind (fun p => addAssign p r) = some (fromInt (-7)) ∧
      r.mag < (fromInt 2).mag ∧ (r.neg = true → (fromInt (-7)).neg = true) :=
  divAssign_modAssign_recompose (by decide) (by decide) (by decide)

/-- `<<= n` then `>>= n` gives the number back whenever `<<=` succeeds. `>>= n` then
`<<= n` drops the low `n` bits of the magnitude, sign kept, which are what `mask_bits(n)`
keeps, so `+=` of the two recomposes the number wherever `mask_bits` succeeds, as long as
the number has a word to spare for `BN_lshift`'s top word and `BN_uadd`'s carry. -/
theorem shifts_maskBits_recompose {a : Bignum} (canonical : a.Canonical) (n : Int) :
    (∀ b, shiftLeftAssign a n = some b → shiftRightAssign b n = a) ∧
      (a.top < maxWords → ∀ m, maskBits a n = some m →
        (shiftLeftAssign (shiftRightAssign a n) n).bind (fun s => addAssign s m) = some a) := by
  have power : (2 : Int) ^ n.toNat ≠ 0 := pow_ne_zero _ (by decide)
  have same := eq_ofInt_toInt canonical
  refine ⟨fun b shifted => ?_, fun spare m masked => ?_⟩
  · unfold shiftLeftAssign at shifted
    by_cases none : n ≤ 0
    · rw [if_pos none, Option.some.injEq] at shifted
      rw [← shifted, shiftRightAssign, if_pos none]
    · rw [if_neg none, lshift_eq_ofInt] at shifted
      split at shifted
      · cases shifted
      · rw [← Option.some.inj shifted, shiftRightAssign, if_neg none, rshift_eq_ofInt, toInt_ofInt,
          Int.mul_tdiv_cancel _ power, ← same]
  · have maskedMag : m.mag ≤ a.mag := by
      unfold maskBits Bignum.maskBits at masked
      split_ifs at masked
      cases masked
      rw [correctTop_mag]
      exact Nat.mod_le _ _
    rw [maskBits, maskBits_eq] at masked
    split_ifs at masked with failed
    cases masked
    by_cases none : n ≤ 0
    · have zero : n.toNat = 0 := by omega
      rw [shiftRightAssign, if_pos none, shiftLeftAssign, if_pos none, Option.some_bind, addAssign,
        add_eq canonical (Nat.le_of_lt spare) (Nat.le_trans (numWords_mono maskedMag)
          (Nat.le_of_lt spare)),
        if_neg (fun ⟨_, words⟩ => by have := numWords_mono maskedMag; unfold top at *; omega),
        toInt_ofInt, zero, pow_zero, Int.tmod_one, Int.add_zero, ← same]
    · -- `>>=` frees the `n / 64` words `<<=` asks for again
      have shiftedWords : (rshift a n.toNat).top + n.toNat / 64 ≤ a.top := by
        unfold top
        rw [rshift, correctTop_mag]
        exact numWords_div_two_pow_add_le _ _ (by unfold top at failed; omega)
      have backMag : (ofInt ((rshift a n.toNat).toInt * 2 ^ n.toNat)).mag ≤ a.mag := by
        rw [ofInt_mag, Int.natAbs_mul, natAbs_toInt, Int.natAbs_pow, rshift, correctTop_mag]
        exact Nat.div_mul_le_self _ _
      have backWords := numWords_mono backMag
      have maskWords := numWords_mono maskedMag
      unfold top at spare shiftedWords
      rw [shiftRightAssign, if_neg none, shiftLeftAssign, if_neg none, lshift_eq_ofInt,
        if_neg (by unfold top; omega), Option.some_bind, addAssign,
        add_eq (canonical_ofInt _) (by unfold Fits top; omega) (by unfold Fits top; omega),
        if_neg (by unfold top; omega), toInt_ofInt, toInt_ofInt, rshift_eq_ofInt, toInt_ofInt,
        Int.tdiv_add_tmod', ← same]

theorem shifts_maskBits_recompose_minus_five :
    (∀ b, shiftLeftAssign (fromInt (-5)) 1 = some b → shiftRightAssign b 1 = fromInt (-5)) ∧
      ((fromInt (-5)).top < maxWords → ∀ m, maskBits (fromInt (-5)) 1 = some m →
        (shiftLeftAssign (shiftRightAssign (fromInt (-5)) 1) 1).bind (fun s => addAssign s m) =
          some (fromInt (-5))) :=
  shifts_maskBits_recompose (by decide) 1

end BitcoinSv.BigInt

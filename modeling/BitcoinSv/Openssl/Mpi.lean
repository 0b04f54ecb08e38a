import BitcoinSv.Openssl.Bignum

/-!
# The MPI format: `BN_bn2mpi` and `BN_mpi2bn`

Source pin: src/src/big_int.cpp:416-445, where `serialize` and `deserialize` go through
OpenSSL's MPI format: a four-byte big-endian length, then the magnitude big-endian
with the sign in the top bit of its first byte (an extra zero byte makes room when
that bit is taken). `deserialize` builds the length header itself, with the same
four shifts and masks as `BN_bn2mpi`; both use `lengthHeader`.

* `mpiDecodeBody_eq`, `mpi2bn_lengthHeader`: a body behind its own length decodes to
  the sign bit and the magnitude with that bit cleared, a zero always non-negative, as
  long as `BN_bin2bn` accepts its `maxWords` words; a longer body decodes to null;
* `canonical_mpi2bn`, `fits_mpi2bn`: on any input whatever, `BN_mpi2bn` returns null or a
  canonical number that fits;
* `bn2mpi_eq`, `mpiBody_decodes`: `BN_bn2mpi` writes the header of its body, and on a
  canonical number the body decodes back to it;
* `lengthHeader_mod`, `mpi2bn_lengthHeader_take`: the header keeps the low 32 bits of a
  length, and `BN_mpi2bn` reads no byte past the length it holds;
* `runStores_bn2mpiStores`: `BN_bn2mpi` as the stores it makes into its buffer; on a
  buffer of the size it asks for they stay inside and leave `bn2mpi`, except on a
  negative zero.
-/

namespace BitcoinSv.Openssl
open BitcoinSv.Bytes

namespace Bignum

/-- The four bytes `(l >> 24) & 0xff`, `(l >> 16) & 0xff`, `(l >> 8) & 0xff`, `l & 0xff`. -/
def lengthHeader (l : Nat) : List UInt8 :=
  [UInt8.ofNat ((l >>> 24) &&& 0xff), UInt8.ofNat ((l >>> 16) &&& 0xff),
    UInt8.ofNat ((l >>> 8) &&& 0xff), UInt8.ofNat (l &&& 0xff)]

/-- The length field `d[0] << 24 | d[1] << 16 | d[2] << 8 | d[3]` of an MPI. -/
def headerLength : List UInt8 → Nat
  | d0 :: d1 :: d2 :: d3 :: _ =>
    d0.toNat <<< 24 ||| d1.toNat <<< 16 ||| d2.toNat <<< 8 ||| d3.toNat
  | _ => 0

/-- `ext`: one zero byte ahead of the magnitude when its top bit is set. -/
def mpiExt (a : Bignum) : Nat :=
  if 0 < numBits a.mag ∧ numBits a.mag &&& 0x07 = 0 then 1 else 0

/-- `d[4] |= 0x80`. On an empty body the write lands one past the buffer, whose
contents it leaves unchanged. -/
def setSignBit (body : List UInt8) : List UInt8 := body.modifyHead (· ||| 0x80)

/-- The bytes `BN_bn2mpi` writes after the header. -/
def mpiBody (a : Bignum) : List UInt8 :=
  let body := List.replicate (mpiExt a) 0 ++ bn2bin a
  if a.neg then setSignBit body else body

/-- `BN_bn2mpi(a, d)`: the bytes written into `d`. -/
def bn2mpi (a : Bignum) : List UInt8 :=
  lengthHeader ((numBits a.mag + 7) / 8 + mpiExt a) ++ mpiBody a

/-- `BN_bn2mpi(a, NULL)`: the buffer length it asks for. -/
def bn2mpiLength (a : Bignum) : Nat := (numBits a.mag + 7) / 8 + 4 + mpiExt a

/-- The tail of `BN_mpi2bn` once the length is checked: `BN_bin2bn` of the body into a
fresh `BIGNUM`, a null result when it fails, then the sign taken from the top bit of the
first byte and that bit cleared with `BN_clear_bit(a, BN_num_bits(a) - 1)`. -/
def mpiDecodeBody (body : List UInt8) : Option Bignum :=
  let neg := body.headD 0 &&& 0x80 != 0
  (bin2bn body zero).map fun b =>
    let a : Bignum := { b with neg := neg }
    if neg then clearBit a ((numBits a.mag : Int) - 1) else a

/-- `BN_mpi2bn(d, n, NULL)`: `none` (a null result) for fewer than four bytes, a set top
bit in the length, a length that disagrees with `n`, or a body `BN_bin2bn` refuses; a
zero length gives zero. -/
def mpi2bn (d : List UInt8) (n : Int) : Option Bignum :=
  if n < 4 ∨ d.headD 0 &&& 0x80 ≠ 0 then none
  else
    let len := headerLength d
    if (len : Int) + 4 ≠ n then none
    else if len = 0 then some zero
    else mpiDecodeBody ((d.drop 4).take len)

/-- The sign bit of an MPI body. -/
def mpiSign (body : List UInt8) : Bool := body.headD 0 &&& 0x80 != 0

/-- The magnitude of an MPI body: the body with its sign bit cleared, big-endian. -/
def mpiMagnitude (body : List UInt8) : Nat := fromBE (body.modifyHead (· &&& 0x7f))

/-! ## The length header -/

@[simp] theorem length_lengthHeader (l : Nat) : (lengthHeader l).length = 4 := rfl

private theorem shiftRight_and_0xff (x k : Nat) : (x >>> k) &&& 0xff = x / 2 ^ k % 256 := by
  rw [Nat.shiftRight_eq_div_pow]
  exact Nat.and_pow_two_sub_one_eq_mod _ 8

/-- Disjoint bit fields combine by `|` as by `+`. -/
private theorem or_eq_add (x y k : Nat) (aligned : x % 2 ^ k = 0) (small : y < 2 ^ k) :
    x ||| y = x + y := by
  have split := mul_two_pow_add_or k (x / 2 ^ k) 0 0 y (Nat.two_pow_pos k) small
  rw [Nat.mul_zero, Nat.zero_add, Nat.add_zero, Nat.or_zero, Nat.zero_or,
    Nat.mul_div_cancel' (Nat.dvd_of_mod_eq_zero aligned)] at split
  exact split

theorem headerLength_cons (d0 d1 d2 d3 : UInt8) (rest : List UInt8) :
    headerLength (d0 :: d1 :: d2 :: d3 :: rest) =
      d0.toNat * 2 ^ 24 + d1.toNat * 2 ^ 16 + d2.toNat * 2 ^ 8 + d3.toNat := by
  have h0 := byte_toNat_lt d0
  have h1 := byte_toNat_lt d1
  have h2 := byte_toNat_lt d2
  have h3 := byte_toNat_lt d3
  simp only [headerLength, Nat.shiftLeft_eq]
  rw [or_eq_add (d0.toNat * 2 ^ 24) (d1.toNat * 2 ^ 16) 24 (by omega) (by omega),
    or_eq_add (d0.toNat * 2 ^ 24 + d1.toNat * 2 ^ 16) (d2.toNat * 2 ^ 8) 16 (by omega) (by omega),
    or_eq_add (d0.toNat * 2 ^ 24 + d1.toNat * 2 ^ 16 + d2.toNat * 2 ^ 8) d3.toNat 8 (by omega)
      (by omega)]

/-- `BN_mpi2bn` reads back the length a header was built from. -/
theorem headerLength_lengthHeader {l : Nat} (fits : l < 2 ^ 32) (rest : List UInt8) :
    headerLength (lengthHeader l ++ rest) = l := by
  simp only [lengthHeader, List.cons_append, List.nil_append, headerLength_cons,
    byte_toNat_ofNat, shiftRight_and_0xff, Nat.pow_zero, Nat.div_one, Nat.mod_mod]
  rw [show (l &&& 0xff) = l % 256 from Nat.and_pow_two_sub_one_eq_mod _ 8]
  omega

/-- A length below `2 ^ 31` leaves the top bit of the header clear. -/
theorem lengthHeader_sign_clear {l : Nat} (fits : l < 2 ^ 31) (rest : List UInt8) :
    ¬ (lengthHeader l ++ rest).headD 0 &&& 0x80 ≠ 0 := by
  intro set
  apply set
  apply UInt8.toNat.inj
  simp only [lengthHeader, List.cons_append, List.headD_cons, byte_and_0x80, byte_toNat_ofNat,
    shiftRight_and_0xff, UInt8.toNat_zero]
  omega

/-- The header keeps only the low 32 bits of a length. -/
theorem lengthHeader_mod (l : Nat) : lengthHeader (l % 2 ^ 32) = lengthHeader l := by
  have low : ∀ x : Nat, x &&& 0xff = x % 256 := fun x => Nat.and_pow_two_sub_one_eq_mod x 8
  simp only [lengthHeader, shiftRight_and_0xff, low, List.cons.injEq, and_true]
  refine ⟨congrArg _ ?_, congrArg _ ?_, congrArg _ ?_, congrArg _ ?_⟩ <;> omega

/-- `BN_mpi2bn` reads no byte of the body past the length its header holds. -/
theorem mpi2bn_lengthHeader_take (l : Nat) (body : List UInt8) (n : Int) :
    mpi2bn (lengthHeader l ++ body) n = mpi2bn (lengthHeader l ++ body.take (l % 2 ^ 32)) n := by
  have length : ∀ rest, headerLength (lengthHeader l ++ rest) = l % 2 ^ 32 := fun rest => by
    rw [← lengthHeader_mod, headerLength_lengthHeader (Nat.mod_lt _ (by decide))]
  have head : ∀ rest, (lengthHeader l ++ rest).headD 0 = (lengthHeader l).headD 0 := fun _ => rfl
  simp only [mpi2bn, head, length, List.drop_left' (length_lengthHeader _), List.take_take,
    min_self]

/-! ## Decoding -/

private theorem fromBE_cons_eq (b : UInt8) (rest : List UInt8) :
    fromBE (b :: rest) = 2 ^ (8 * rest.length) * b.toNat + fromBE rest := by
  have pow : (256 : Nat) ^ rest.length = 2 ^ (8 * rest.length) := by rw [Nat.pow_mul]
  simp only [fromBE, List.reverse_cons, fromLE_append, fromLE_cons, fromLE_nil,
    List.length_reverse, pow, Nat.mul_zero, Nat.add_zero, Nat.zero_add, Nat.add_comm]

/-- A body whose first byte has its top bit set has exactly `8 · length` bits. -/
theorem numBits_fromBE_top_set {b : UInt8} (rest : List UInt8) (set : 128 ≤ b.toNat) :
    numBits (fromBE (b :: rest)) = 8 * rest.length + 8 := by
  have low : fromBE rest < 2 ^ (8 * rest.length) := by
    simpa [fromBE, Nat.pow_mul] using fromLE_lt rest.reverse
  have hb := byte_toNat_lt b
  rw [fromBE_cons_eq]
  apply numBits_eq_of_bounds
  · rw [Nat.pow_add]
    exact le_trans (Nat.mul_le_mul_left _ (by omega)) (Nat.le_add_right _ _)
  · rw [show 8 * rest.length + 7 + 1 = 8 * rest.length + 8 by omega, Nat.pow_add]
    calc 2 ^ (8 * rest.length) * b.toNat + fromBE rest
        < 2 ^ (8 * rest.length) * (b.toNat + 1) := by rw [Nat.mul_add]; omega
      _ ≤ 2 ^ (8 * rest.length) * 2 ^ 8 := Nat.mul_le_mul_left _ (by omega)

/-- Clearing the sign bit never raises the value of a body. -/
theorem mpiMagnitude_le (body : List UInt8) : mpiMagnitude body ≤ fromBE body := by
  cases body with
  | nil => exact le_rfl
  | cons b rest =>
    have cleared : (b &&& 0x7f).toNat ≤ b.toNat := by
      rw [byte_and_0x7f]
      exact Nat.mod_le _ _
    simp only [mpiMagnitude, List.modifyHead_cons, fromBE_cons_eq]
    exact Nat.add_le_add_right (Nat.mul_le_mul_left _ cleared) _

/-- The sign bit, read from `BN_num_bits` and `BN_clear_bit`: clearing the top bit of a
body whose first byte has it set leaves the body with that bit cleared. -/
private theorem clearBit_top (b : UInt8) (rest : List UInt8) (set : 128 ≤ b.toNat) :
    clearBit ⟨true, fromBE (b :: rest)⟩ ((numBits (fromBE (b :: rest)) : Int) - 1) =
      correctTop ⟨true, fromBE ((b &&& 0x7f) :: rest)⟩ := by
  have low : fromBE rest < 2 ^ (8 * rest.length) := by
    simpa [fromBE, Nat.pow_mul] using fromLE_lt rest.reverse
  have hb := byte_toNat_lt b
  obtain ⟨c, hc⟩ : ∃ c, b.toNat = c + 128 := ⟨b.toNat - 128, by omega⟩
  have cleared : fromBE ((b &&& 0x7f) :: rest) = fromBE (b :: rest) - 2 ^ (8 * rest.length + 7) := by
    simp only [fromBE_cons_eq, byte_and_0x7f, hc, Nat.pow_add]
    rw [show (c + 128) % 128 = c by omega, Nat.mul_add]
    omega
  have bits := numBits_fromBE_top_set rest set
  have tested : (fromBE (b :: rest)).testBit (8 * rest.length + 7) = true := by
    rw [fromBE_cons_eq, Nat.testBit_mul_pow_two_add _ low, if_neg (by omega),
      Nat.testBit_to_div_mod]
    simp only [Nat.add_sub_cancel_left, decide_eq_true_eq]
    omega
  simp only [clearBit, bits]
  rw [if_neg (by simp only [top, numWords, bits]; omega)]
  simp only [show (((8 * rest.length + 8 : Nat) : Int) - 1).toNat = 8 * rest.length + 7 by omega,
    tested, if_true, cleared]

/-- The body decodes to its sign bit and the rest of its bits, a zero always
non-negative, unless its value, the sign bit included, needs more than `maxWords`
words: `BN_bin2bn` then fails. -/
theorem mpiDecodeBody_eq (body : List UInt8) :
    mpiDecodeBody body = if 2 ^ (64 * maxWords) ≤ fromBE body then none
      else some (correctTop ⟨mpiSign body, mpiMagnitude body⟩) := by
  rw [mpiDecodeBody, bin2bn_eq]
  by_cases big : 2 ^ (64 * maxWords) ≤ fromBE body
  · rw [if_pos big, if_pos big]
    rfl
  rw [if_neg big, if_neg big, Option.map_some', Option.some.injEq]
  cases body with
  | nil => rfl
  | cons b rest =>
    simp only [List.headD_cons, byte_and_0x80_ne_zero, mpiSign, mpiMagnitude, List.modifyHead_cons]
    by_cases set : 128 ≤ b.toNat
    · have nonzero : fromBE (b :: rest) ≠ 0 :=
        (fromBE_cons_pos rest fun zero => by simp [zero] at set).ne'
      simp only [set, decide_True, if_true, bin2bnExpanded_eq, nonzero, if_false]
      exact clearBit_top b rest set
    · have same : b &&& 0x7f = b := UInt8.toNat.inj (by rw [byte_and_0x7f]; omega)
      simp only [set, decide_False, if_false, bin2bnExpanded_eq, same, Bool.false_eq_true]
      by_cases z : fromBE (b :: rest) = 0 <;> simp [z, correctTop, zero]

/-- `BN_mpi2bn` on a body behind its own length header (a length below `2 ^ 31 - 4`, so
that `n` fits an `int`): the sign bit and the rest of the body, or a null result when
the body's value needs more than `maxWords` words. -/
theorem mpi2bn_lengthHeader (body : List UInt8) (fits : body.length + 4 < 2 ^ 31) :
    mpi2bn (lengthHeader body.length ++ body) (body.length + 4) =
      if 2 ^ (64 * maxWords) ≤ fromBE body then none
      else some (correctTop ⟨mpiSign body, mpiMagnitude body⟩) := by
  have lenEq := headerLength_lengthHeader (l := body.length) (by omega) body
  have guard : ¬ (((body.length : Int) + 4 < 4) ∨
      (lengthHeader body.length ++ body).headD 0 &&& 0x80 ≠ 0) :=
    not_or.2 ⟨by omega, lengthHeader_sign_clear (by omega) body⟩
  rw [mpi2bn, if_neg guard]
  simp only [lenEq, ne_eq, not_true_eq_false, if_false, List.drop_left' (length_lengthHeader _),
    List.take_length, ← mpiDecodeBody_eq]
  cases body with
  | nil => rfl
  | cons b rest => simp

/-- Whatever the bytes and `n`, `BN_mpi2bn` never returns a negative zero. -/
theorem canonical_mpi2bn {d : List UInt8} {n : Int} {r : Bignum} (decoded : mpi2bn d n = some r) :
    r.Canonical := by
  simp only [mpi2bn, mpiDecodeBody_eq] at decoded
  split_ifs at decoded <;> cases decoded
  · exact canonical_zero
  · exact canonical_correctTop _

/-- Whatever the bytes and `n`, a number `BN_mpi2bn` returns fits a `BIGNUM`. -/
theorem fits_mpi2bn {d : List UInt8} {n : Int} {r : Bignum} (decoded : mpi2bn d n = some r) :
    r.Fits := by
  simp only [mpi2bn, mpiDecodeBody_eq] at decoded
  split_ifs at decoded with _ _ _ small <;> cases decoded
  · exact Nat.zero_le _
  · rw [fits_iff, correctTop_mag]
    exact Nat.lt_of_le_of_lt (mpiMagnitude_le _) (Nat.lt_of_not_le small)

/-! ## Encoding -/

@[simp] theorem length_mpiBody (a : Bignum) :
    (mpiBody a).length = (numBits a.mag + 7) / 8 + mpiExt a := by
  unfold mpiBody setSignBit
  split <;> simp [numBytes, Nat.add_comm]

theorem bn2mpi_eq (a : Bignum) : bn2mpi a = lengthHeader (mpiBody a).length ++ mpiBody a := by
  rw [bn2mpi, length_mpiBody]

/-- The big-endian magnitude of a non-zero number starts with its top byte `t ≠ 0`, and
`ext` is set exactly when `t` has its top bit set. -/
theorem bn2bin_top (a : Bignum) (pos : 0 < a.mag) :
    ∃ t rest, bn2bin a = t :: rest ∧ t ≠ 0 ∧ (mpiExt a = 1 ↔ 128 ≤ t.toNat) := by
  have nb : 0 < numBytes a.mag := by
    have := numBits_eq_zero.not.2 pos.ne'
    unfold numBytes
    omega
  obtain ⟨init, t, split⟩ : ∃ init t, toLE (numBytes a.mag) a.mag = init ++ [t] := by
    have nonempty : toLE (numBytes a.mag) a.mag ≠ [] :=
      List.ne_nil_of_length_pos (by simp only [length_toLE]; exact nb)
    exact ⟨_, _, (List.dropLast_append_getLast nonempty).symm⟩
  have value : fromLE (init ++ [t]) = a.mag := by
    rw [← split, fromLE_toLE, Nat.mod_eq_of_lt (lt_pow_numBytes _)]
  have len : init.length + 1 = numBytes a.mag := by
    simpa using congrArg List.length split.symm
  have nonzero : t ≠ 0 := by
    intro zero
    have low : a.mag < 256 ^ init.length := by
      rw [← value, zero, fromLE_append]
      simpa using fromLE_lt init
    have high : 2 ^ (numBits a.mag - 1) ≤ a.mag := by
      have := numBits_eq_zero.not.2 pos.ne'
      exact lt_numBits_iff.1 (by omega)
    have mono : 256 ^ init.length ≤ 2 ^ (numBits a.mag - 1) := by
      rw [show (256 : Nat) = 2 ^ 8 from rfl, ← Nat.pow_mul]
      exact Nat.pow_le_pow_right Nat.two_pos (by unfold numBytes at len; omega)
    omega
  have bits := numBits_fromLE_append_last init t nonzero
  rw [value] at bits
  have tb : numBits t.toNat ≤ 8 := numBits_le_iff.2 (byte_toNat_lt t)
  have tpos : 0 < numBits t.toNat :=
    Nat.pos_of_ne_zero (numBits_eq_zero.not.2 (byte_toNat_pos nonzero).ne')
  refine ⟨t, init.reverse, by rw [bn2bin, split]; simp, nonzero, ?_⟩
  have eight : numBits t.toNat = 8 ↔ 128 ≤ t.toNat := by
    constructor
    · intro h
      simpa using lt_numBits_iff.1 (show 7 < numBits t.toNat by omega)
    · intro h
      exact le_antisymm tb (lt_numBits_iff.2 (show 2 ^ 7 ≤ t.toNat by omega))
  simp only [mpiExt, bits, show (0x07 : Nat) = 2 ^ 3 - 1 from rfl, Nat.and_pow_two_sub_one_eq_mod]
  rw [← eight]
  split <;> omega

private theorem mpiExt_eq_zero {a : Bignum} (ne : mpiExt a ≠ 1) : mpiExt a = 0 := by
  unfold mpiExt at *
  split <;> simp_all

/-- `ext` is read off the top byte of the magnitude. -/
theorem mpiExt_of_bn2bin {a : Bignum} {t : UInt8} {rest : List UInt8}
    (hbin : bn2bin a = t :: rest) : mpiExt a = if 128 ≤ t.toNat then 1 else 0 := by
  have pos : 0 < a.mag := by
    have := congrArg List.length hbin
    rw [length_bn2bin, List.length_cons] at this
    exact Nat.pos_of_ne_zero fun zero => by simp [zero] at this
  obtain ⟨t', rest', hbin', _, ext⟩ := bn2bin_top a pos
  rw [hbin, List.cons.injEq] at hbin'
  rw [hbin'.1]
  split
  · exact ext.2 ‹_›
  · exact mpiExt_eq_zero fun one => ‹¬_› (ext.1 one)

/-- Big-endian bytes with a non-zero first byte are the `BN_bn2bin` of their value. -/
theorem bn2bin_fromBE (neg : Bool) {b : UInt8} (rest : List UInt8) (nonzero : b ≠ 0) :
    bn2bin ⟨neg, fromBE (b :: rest)⟩ = b :: rest := by
  have le : fromBE (b :: rest) = fromLE (rest.reverse ++ [b]) := by simp [fromBE]
  have len := numBytes_fromLE_append_last rest.reverse b nonzero
  rw [List.length_reverse] at len
  simp only [bn2bin, le, len]
  have := toLE_fromLE (rest.reverse ++ [b])
  simp only [List.length_append, List.length_reverse, List.length_singleton] at this
  rw [this]
  simp

/-- On a canonical number the MPI body decodes back to its sign and magnitude. -/
theorem mpiBody_decodes {a : Bignum} (canonical : a.Canonical) :
    mpiSign (mpiBody a) = a.neg ∧ mpiMagnitude (mpiBody a) = a.mag := by
  by_cases zero : a.mag = 0
  · have : a.neg = false := by
      cases h : a.neg
      · rfl
      · exact absurd (canonical h) (by omega)
    simp [mpiBody, this, mpiSign, mpiMagnitude, mpiExt, bn2bin, zero, fromBE,
      show (0 : UInt8) &&& 0x80 = 0 from rfl]
  · obtain ⟨t, rest, hbin, _, _⟩ := bn2bin_top a (Nat.pos_of_ne_zero zero)
    have ht := byte_toNat_lt t
    have whole : fromBE (t :: rest) = a.mag := hbin ▸ fromBE_bn2bin a
    have ext := mpiExt_of_bn2bin hbin
    unfold mpiBody mpiSign mpiMagnitude setSignBit
    rcases Nat.lt_or_ge t.toNat 128 with low | high
    · have keep : t &&& 0x7f = t := UInt8.toNat.inj (by rw [byte_and_0x7f]; omega)
      have drop : (t ||| 0x80) &&& 0x7f = t :=
        UInt8.toNat.inj (by rw [byte_and_0x7f, byte_or_0x80 low]; omega)
      cases a.neg <;> simp [ext, Nat.not_le.2 low, hbin, keep, drop, whole,
        byte_and_0x80_ne_zero, byte_or_0x80 low, low]
    · have cleared : (0 : UInt8) &&& 0x7f = 0 ∧ ((0 : UInt8) ||| 0x80) &&& 0x7f = 0 ∧
          (0 : UInt8) &&& 0x80 = 0 ∧ ((0 : UInt8) ||| 0x80) &&& 0x80 = 0x80 := by decide
      cases a.neg <;> simp [ext, high, hbin, whole, cleared]

end Bignum

/-! ## The stores of `BN_bn2mpi`

`BN_bn2mpi(a, d)` writes through a pointer into a buffer its caller sized. These are its
stores one by one, carried out with a bounds check, so that a store past the buffer is
an explicit failure. -/

/-- A store into the buffer: `d[i] = v`, or `d[i] |= v`. -/
inductive Store where
  | write (i : Nat) (v : UInt8)
  | orWrite (i : Nat) (v : UInt8)

/-- The stores of a byte string copied into the buffer from index `i` on, one byte after
another, as `BN_bn2bin` makes them. -/
def copyStores : Nat → List UInt8 → List Store
  | _, [] => []
  | i, b :: bs => .write i b :: copyStores (i + 1) bs

/-- The stores carried out on a buffer, in order: `none` at the first one outside it. -/
def runStores : List UInt8 → List Store → Option (List UInt8)
  | d, [] => some d
  | d, .write i v :: rest => if i < d.length then runStores (d.set i v) rest else none
  | d, .orWrite i v :: rest =>
    if i < d.length then runStores (d.set i (d.getD i 0 ||| v)) rest else none

theorem runStores_append (d : List UInt8) (first second : List Store) :
    runStores d (first ++ second) = (runStores d first).bind fun d' => runStores d' second := by
  induction first generalizing d with
  | nil => rfl
  | cons store first ih =>
    cases store <;> simp only [List.cons_append, runStores] <;> split <;> first | exact ih _ | rfl

/-- Copying `bs` over a region of its own length leaves `bs` there and the rest alone. -/
theorem runStores_copyStores (pre old post bs : List UInt8) (same : old.length = bs.length) :
    runStores (pre ++ old ++ post) (copyStores pre.length bs) = some (pre ++ bs ++ post) := by
  induction bs generalizing pre old with
  | nil => rw [List.length_eq_zero.1 same]; rfl
  | cons b bs ih =>
    obtain ⟨o, old, rfl⟩ := List.exists_cons_of_length_eq_add_one same
    have inside : pre.length < (pre ++ o :: old ++ post).length := by simp
    have written : (pre ++ o :: old ++ post).set pre.length b = pre ++ [b] ++ old ++ post := by
      simp [List.set_append_left, List.set_append_right]
    rw [copyStores, runStores, if_pos inside, written]
    simpa using ih (pre ++ [b]) old (by simpa using same)

namespace Bignum

/-- `BN_bn2mpi(a, d)` as the stores it makes, in order: the four length bytes, `d[4] = 0`
when `ext`, `BN_bn2bin(a, &d[4 + ext])`, and `d[4] |= 0x80` for a negative `a`. -/
def bn2mpiStores (a : Bignum) : List Store :=
  copyStores 0 (lengthHeader ((numBits a.mag + 7) / 8 + mpiExt a)) ++
    (if mpiExt a = 1 then [.write 4 0] else []) ++
    copyStores (4 + mpiExt a) (bn2bin a) ++
    (if a.neg then [.orWrite 4 0x80] else [])

/-- The stores of `BN_bn2mpi(a, d)` on a zeroed buffer of the `BN_bn2mpi(a, NULL)` bytes it
asks for stay inside it and leave the bytes of `bn2mpi a`, on every number but a negative
zero: there nothing follows the header, and `d[4] |= 0x80` lands one past the end. -/
theorem runStores_bn2mpiStores (a : Bignum) :
    runStores (List.replicate (bn2mpiLength a) 0) (bn2mpiStores a) =
      if a.neg = true ∧ a.mag = 0 then none else some (bn2mpi a) := by
  have num : (bn2bin a).length = (numBits a.mag + 7) / 8 := length_bn2bin a
  have ext : mpiExt a = 0 ∨ mpiExt a = 1 := by unfold mpiExt; split <;> simp
  set header := lengthHeader ((numBits a.mag + 7) / 8 + mpiExt a)
  have blank : List.replicate (bn2mpiLength a) (0 : UInt8) =
      [] ++ List.replicate 4 0 ++ (List.replicate (mpiExt a) 0 ++ List.replicate (bn2bin a).length 0) := by
    simp only [List.nil_append, List.append_replicate_replicate, bn2mpiLength, num]
    congr 1
    omega
  -- the header, then `d[4] = 0` over a zero, then the magnitude
  have body : runStores (List.replicate (bn2mpiLength a) 0)
      (copyStores 0 header ++ (if mpiExt a = 1 then [.write 4 0] else []) ++
        copyStores (4 + mpiExt a) (bn2bin a)) =
      some (header ++ (List.replicate (mpiExt a) 0 ++ bn2bin a)) := by
    have written := runStores_copyStores [] (List.replicate 4 0)
      (List.replicate (mpiExt a) 0 ++ List.replicate (bn2bin a).length 0) header (by simp [header])
    simp only [List.length_nil, List.nil_append] at written
    rw [blank, List.nil_append, runStores_append, runStores_append, written, Option.some_bind]
    have padded : runStores (header ++ (List.replicate (mpiExt a) 0 ++
        List.replicate (bn2bin a).length 0)) (if mpiExt a = 1 then [.write 4 0] else []) =
        some (header ++ List.replicate (mpiExt a) 0 ++ List.replicate (bn2bin a).length 0) := by
      rcases ext with zero | one
      · simp [zero, runStores]
      · simp [one, runStores, header, List.set_append_right]
    rw [padded, Option.some_bind]
    have := runStores_copyStores (header ++ List.replicate (mpiExt a) 0)
      (List.replicate (bn2bin a).length 0) [] (bn2bin a) (List.length_replicate _ _)
    simpa [header, Nat.add_comm] using this
  rw [bn2mpiStores, runStores_append, body, Option.some_bind, bn2mpi]
  cases neg : a.neg
  · simp [runStores, mpiBody, neg, header]
  by_cases zero : a.mag = 0
  · have none : mpiExt a = 0 := by simp [mpiExt, zero]
    simp [runStores, neg, zero, none, bn2bin, header]
  · have pos : 0 < (bn2bin a).length := by
      rw [num]
      have := numBits_eq_zero.not.2 zero
      omega
    obtain ⟨d, ds, cons⟩ := List.exists_cons_of_ne_nil
      (List.append_ne_nil_of_right_ne_nil (List.replicate (mpiExt a) 0) (List.ne_nil_of_length_pos pos))
    have four : header.length = 4 := length_lengthHeader _
    have inside : 4 < (header ++ d :: ds).length := by simp [four]
    have read : (header ++ d :: ds).getD 4 0 = d := by
      rw [List.getD_eq_getElem?_getD, List.getElem?_append_right (by omega), four, Nat.sub_self,
        List.getElem?_cons_zero]
      rfl
    have signed : (header ++ d :: ds).set 4 (d ||| 0x80) = header ++ (d ||| 0x80) :: ds := by
      rw [List.set_append_right _ _ (by omega), four]
      rfl
    simp only [neg, zero, cons, if_true, and_false, if_false, runStores, inside, read, signed,
      mpiBody, setSignBit, List.modifyHead_cons]

end Bignum

end BitcoinSv.Openssl

import Mathlib.Tactic.Ring
import BitcoinSv.BigInt.Bint

/-!
# `serialize` and `deserialize`

Source pin: src/src/big_int.cpp:416-445. `serialize` writes the MPI of the number and
keeps its body, reversed: the magnitude least significant byte first, the sign in the
top bit of the last byte (the script-number layout). `deserialize` puts a length header
in front of the reversed vector and hands it to `BN_mpi2bn`, passing the buffer's size
as an `int`.

* `deserialize_value`: a vector shorter than `2 ^ 31 - 4` bytes decodes to a canonical
  number holding its script-number value (`scriptNumValue`: the sign from the top bit of
  the last byte, the rest little-endian), non-minimal and negative-zero encodings
  included, as long as `BN_bin2bn` accepts its words; past `maxWords` words it decodes to
  a null `bint`, `deserialize_too_many_words`;
* `serialize_roundtrip`: the two directions of the round trip, exactly: a canonical
  number that fits comes back unless it is a negative number of `64 · maxWords` bits,
  and a minimal encoding comes back when its words are accepted;
* `deserialize_serialize_long`: a longer serialization no longer fits the `int` and
  decodes to a null `bint`;
* `deserialize_drop`: `deserialize` sees only the last `size mod 2 ^ 32` bytes;
* `serializeChecked_eq`: the stores of `serialize()` stay inside its vector and give
  `serialize`, except on a negative zero, where one lands past it;
* `minimallyEncoded_serialize`: every serialization is a minimal encoding.
-/

namespace BitcoinSv.BigInt
open BitcoinSv.Bytes BitcoinSv.Openssl Bignum

/-- `length_in_bytes`: the size of the MPI length header. -/
def lengthInBytes : Nat := 4

/-- `serialize()`: `BN_bn2mpi` into a buffer of the length it asks for, then the header
erased and the rest reversed. -/
def serialize (self : Bignum) : List UInt8 := ((bn2mpi self).drop lengthInBytes).reverse

/-- `deserialize(v)`: the size of `v` as a four-byte header, `v` reversed behind it, read by
`BN_mpi2bn` with `tmp.size()` converted to `int`. -/
def deserialize (v : List UInt8) : Bint :=
  let size := v.length
  let tmp := lengthHeader size ++ v.reverse
  ⟨mpi2bn tmp (BitVec.ofNat 32 tmp.length).toInt⟩

/-- The script-number value of a byte vector: 0 when empty, otherwise the sign read from
the top bit of the last byte times `Σ v'[i] · 256 ^ i`, `v'` being `v` with that bit
cleared. -/
def scriptNumValue (v : List UInt8) : Int :=
  if v = [] then 0
  else
    let v' := v.modifyLast (· &&& 0x7f)
    (if v.getLast?.getD 0 &&& 0x80 ≠ 0 then -1 else 1) *
      (((v'.enum.map fun p => p.2.toNat * 256 ^ p.1).sum : Nat) : Int)

/-- A minimal script-number encoding: empty, or its last byte has a bit besides the sign,
or the byte before it has its top bit set. -/
def MinimallyEncoded (v : List UInt8) : Prop :=
  v = [] ∨ v.getLast?.getD 0 &&& 0x7f ≠ 0 ∨
    (2 ≤ v.length ∧ v.getD (v.length - 2) 0 &&& 0x80 ≠ 0)

instance (v : List UInt8) : Decidable (MinimallyEncoded v) :=
  inferInstanceAs (Decidable (_ ∨ _ ∨ _))

/-! ## The two directions through the MPI body -/

theorem serialize_eq (self : Bignum) : serialize self = (mpiBody self).reverse := by
  rw [serialize, bn2mpi_eq]
  exact congrArg List.reverse (List.drop_left' (length_lengthHeader _))

theorem length_serialize (self : Bignum) :
    (serialize self).length = (numBits self.mag + 7) / 8 + mpiExt self := by
  rw [serialize_eq, List.length_reverse, length_mpiBody]

private theorem toInt_size {n : Nat} (fits : n < 2 ^ 31) : (BitVec.ofNat 32 n).toInt = n := by
  rw [BitVec.toInt_ofNat, Int.bmod]
  have : (n : Int) % ((2 ^ 32 : Nat) : Int) = n := Int.emod_eq_of_lt (by omega) (by omega)
  rw [this]
  split <;> omega

/-- Below `2 ^ 31 - 4` bytes `deserialize` is `BN_mpi2bn` of the reversed vector as a body:
a null `bint` when the vector, read as an unsigned little-endian number with its sign
bit, needs more than `maxWords` words. -/
theorem deserialize_eq {v : List UInt8} (fits : v.length < 2 ^ 31 - 4) :
    deserialize v = ⟨if 2 ^ (64 * maxWords) ≤ fromLE v then none
      else some (correctTop ⟨mpiSign v.reverse, mpiMagnitude v.reverse⟩)⟩ := by
  have body := mpi2bn_lengthHeader v.reverse (by rw [List.length_reverse]; omega)
  rw [List.length_reverse, fromBE, List.reverse_reverse] at body
  simp only [deserialize, List.length_append, length_lengthHeader, List.length_reverse]
  rw [toInt_size (by omega)]
  push_cast
  rw [Int.add_comm, body]

/-! ## Decoding -/

private theorem sum_enumFrom (l : List UInt8) (k : Nat) :
    ((l.enumFrom k).map fun p => p.2.toNat * 256 ^ p.1).sum = 256 ^ k * fromLE l := by
  induction l generalizing k with
  | nil => simp
  | cons b bs ih =>
    simp only [List.enumFrom_cons, List.map_cons, List.sum_cons, ih, fromLE_cons, Nat.pow_succ]
    ring

/-- `deserialize` of a vector shorter than `2 ^ 31 - 4` bytes: a canonical number holding
the vector's script-number value when the vector, read as an unsigned little-endian
number with its sign bit, is below `2 ^ (64 · maxWords)` (at most `8 · maxWords` bytes
once its trailing zero bytes are dropped), and a null `bint` otherwise. -/
theorem deserialize_value (v : List UInt8) (fits : v.length < 2 ^ 31 - 4) :
    (fromLE v < 2 ^ (64 * maxWords) →
      ∃ x, (deserialize v).value = some x ∧ x.Canonical ∧ x.toInt = scriptNumValue v) ∧
    (2 ^ (64 * maxWords) ≤ fromLE v → (deserialize v).value = none) := by
  rw [deserialize_eq fits]
  refine ⟨fun words => ?_, fun big => by rw [if_pos big]⟩
  rw [if_neg (Nat.not_le.2 words)]
  refine ⟨_, rfl, canonical_correctTop _, ?_⟩
  rw [toInt_correctTop]
  rcases List.eq_nil_or_concat v with rfl | ⟨init, b, rfl⟩
  · simp [toInt, mpiSign, mpiMagnitude, scriptNumValue, fromBE,
      show (0 : UInt8) &&& 0x80 = 0 from rfl]
  · have sum := sum_enumFrom (init ++ [b &&& 0x7f]) 0
    simp only [Nat.pow_zero, Nat.one_mul] at sum
    simp only [List.concat_eq_append, List.reverse_append, List.reverse_singleton,
      List.singleton_append, mpiSign, mpiMagnitude, List.headD_cons, List.modifyHead_cons,
      scriptNumValue, List.append_eq_nil, List.cons_ne_nil, and_false, if_false,
      List.modifyLast_append_one, List.getLast?_concat, Option.getD_some, List.enum, sum,
      fromBE, List.reverse_cons,
      List.reverse_reverse, toInt]
    cases (b &&& 0x80 != 0) <;> simp

theorem deserialize_value_negative_zero :
    ∃ x, (deserialize [0x00, 0x80]).value = some x ∧ x.Canonical ∧
      x.toInt = scriptNumValue [0x00, 0x80] :=
  (deserialize_value _ (by decide)).1 (lt_two_pow_maxWords (by decide))

/-- `8 · maxWords` zero bytes and a one are far below the `int` limit, yet `deserialize`
gives a null `bint` for them: the body is a one and `8 · maxWords` zero bytes, one byte
more than `maxWords` words, and `BN_bin2bn` refuses it. -/
theorem deserialize_too_many_words :
    (List.replicate (8 * maxWords) (0 : UInt8) ++ [1]).length < 2 ^ 31 - 4 ∧
      (deserialize (List.replicate (8 * maxWords) 0 ++ [1])).value = none := by
  have length : (List.replicate (8 * maxWords) (0 : UInt8) ++ [1]).length < 2 ^ 31 - 4 := by
    rw [List.length_append, List.length_replicate, List.length_singleton]
    decide
  have big : 2 ^ (64 * maxWords) ≤ fromLE (List.replicate (8 * maxWords) (0 : UInt8) ++ [1]) := by
    rw [fromLE_append, (fromLE_eq_zero_iff _).2 fun _ member => List.eq_of_mem_replicate member,
    List.length_replicate, Nat.zero_add, show fromLE [1] = 1 from rfl, Nat.mul_one,
      show (256 : Nat) = 2 ^ 8 from rfl, ← Nat.pow_mul]
    exact Nat.pow_le_pow_right Nat.two_pos (by omega)
  refine ⟨length, ?_⟩
  rw [deserialize_eq length, if_pos big]

/-! ## Past the `int` -/

/-- From `2 ^ 31 - 4` bytes on, `tmp.size()` wraps to a negative `int` and `BN_mpi2bn`
returns null. -/
theorem deserialize_serialize_long {v : List UInt8} (long : 2 ^ 31 - 4 ≤ v.length)
    (short : v.length < 2 ^ 32 - 4) : (deserialize v).value = none := by
  have negative : (BitVec.ofNat 32 (v.length + 4)).toInt < 4 := by
    rw [BitVec.toInt_ofNat, Int.bmod]
    have : ((v.length + 4 : Nat) : Int) % ((2 ^ 32 : Nat) : Int) = v.length + 4 :=
      Int.emod_eq_of_lt (by omega) (by omega)
    rw [this]
    split <;> omega
  simp only [deserialize, List.length_append, length_lengthHeader, List.length_reverse,
    Nat.add_comm 4, mpi2bn, negative, true_or, if_true]

/-- `deserialize` sees only the last `v.size() mod 2 ^ 32` bytes of `v`: the length header
keeps the low 32 bits of the size, `BN_mpi2bn` reads no further than that length, and
`tmp.size()` wraps the same way on its way to an `int`. A vector of `2 ^ 32` bytes reads
as zero whatever it holds. -/
theorem deserialize_drop (v : List UInt8) :
    deserialize v = deserialize (v.drop (v.length - v.length % 2 ^ 32)) := by
  have low := Nat.mod_le v.length (2 ^ 32)
  have kept : (v.drop (v.length - v.length % 2 ^ 32)).length = v.length % 2 ^ 32 := by
    rw [List.length_drop]
    omega
  have size : BitVec.ofNat 32 (4 + v.length % 2 ^ 32) = BitVec.ofNat 32 (4 + v.length) :=
    BitVec.eq_of_toNat_eq (by simp only [BitVec.toNat_ofNat]; omega)
  simp only [deserialize, List.length_append, length_lengthHeader, List.length_reverse, kept,
    size, lengthHeader_mod]
  rw [List.reverse_drop, mpi2bn_lengthHeader_take, mpi2bn_lengthHeader_take _ (List.take _ _),
    List.take_take, min_self, Nat.sub_sub_self low]

/-! ## Round trips -/

private theorem fromBE_replicate_zero_append (k : Nat) (l : List UInt8) :
    fromBE (List.replicate k 0 ++ l) = fromBE l := by
  induction k with
  | zero => rfl
  | succ k ih => rw [List.replicate_succ, List.cons_append, fromBE_zero_cons, ih]

/-- The body `BN_bn2mpi` writes for a canonical number that fits is accepted by
`BN_bin2bn` unless the number is negative with `64 · maxWords` bits: its sign then takes
a byte of its own, one past the limit. -/
theorem fromBE_mpiBody_lt_iff {x : Bignum} (canonical : x.Canonical) (fits : x.Fits) :
    fromBE (mpiBody x) < 2 ^ (64 * maxWords) ↔ ¬ (x.neg = true ∧ numBits x.mag = 64 * maxWords) := by
  have bound : numBits x.mag ≤ 64 * maxWords := numBits_le_iff.2 ((fits_iff x).1 fits)
  cases neg : x.neg
  · have value : fromBE (mpiBody x) = x.mag := by
      simp only [mpiBody, neg, Bool.false_eq_true, if_false, fromBE_replicate_zero_append,
        fromBE_bn2bin]
    simp only [value, Bool.false_eq_true, false_and, not_false_eq_true, iff_true]
    exact (fits_iff x).1 fits
  · have pos := canonical neg
    have sign := (mpiBody_decodes canonical).1
    rw [neg] at sign
    obtain ⟨c, rest, body⟩ : ∃ c rest, mpiBody x = c :: rest := by
      cases h : mpiBody x with
      | nil => rw [h] at sign; exact absurd sign (by decide)
      | cons c rest => exact ⟨c, rest, rfl⟩
    have set : 128 ≤ c.toNat := by
      rw [body, mpiSign, List.headD_cons, byte_and_0x80_ne_zero] at sign
      exact of_decide_eq_true sign
    have length := length_mpiBody x
    have nonzero := numBits_eq_zero.not.2 pos.ne'
    rw [body, List.length_cons] at length
    rw [body, ← numBits_le_iff, numBits_fromBE_top_set rest set]
    simp only [mpiExt, show (0x07 : Nat) = 2 ^ 3 - 1 from rfl, Nat.and_pow_two_sub_one_eq_mod]
      at length
    simp only [true_and]
    split at length <;> omega

/-- A canonical number that fits comes back from its own serialization, except a negative
number of `64 · maxWords` bits. -/
theorem deserialize_serialize_iff {x : Bignum} (canonical : x.Canonical) (fits : x.Fits) :
    deserialize (serialize x) = ⟨some x⟩ ↔ ¬ (x.neg = true ∧ numBits x.mag = 64 * maxWords) := by
  have short : (serialize x).length < 2 ^ 31 - 4 := by
    have bound : numBits x.mag ≤ 64 * maxWords := numBits_le_iff.2 ((fits_iff x).1 fits)
    have ext : mpiExt x ≤ 1 := by unfold mpiExt; split <;> simp
    rw [length_serialize]
    unfold maxWords at bound
    omega
  have value : fromLE (serialize x) = fromBE (mpiBody x) := by rw [serialize_eq]; rfl
  obtain ⟨sign, mag⟩ := mpiBody_decodes canonical
  rw [deserialize_eq short, value, ← fromBE_mpiBody_lt_iff canonical fits, serialize_eq,
    List.reverse_reverse, sign, mag, correctTop_of_canonical canonical]
  by_cases big : 2 ^ (64 * maxWords) ≤ fromBE (mpiBody x)
  · simp [big]
  · simp [big, Nat.lt_of_not_le big]

/-- An MPI body whose first byte has bits besides the sign, or whose second byte has its
top bit set, is the body `BN_bn2mpi` writes for the number it decodes to. -/
private theorem mpiBody_decode {b : UInt8} {rest : List UInt8}
    (minimal : b &&& 0x7f ≠ 0 ∨ rest.headD 0 &&& 0x80 ≠ 0) :
    mpiBody (correctTop ⟨mpiSign (b :: rest), mpiMagnitude (b :: rest)⟩) = b :: rest := by
  have hb := byte_toNat_lt b
  have low := byte_and_0x7f b
  have sign : mpiSign (b :: rest) = decide (128 ≤ b.toNat) := by
    simp [mpiSign, byte_and_0x80_ne_zero]
  by_cases top7 : b &&& 0x7f = 0
  · -- the sign has a byte of its own: the next one carries the top bit
    obtain ⟨c, rest, rfl⟩ : ∃ c rest', rest = c :: rest' := by
      cases rest with
      | nil => simp [top7, show (0 : UInt8) &&& 0x80 = 0 from rfl] at minimal
      | cons c rest' => exact ⟨c, rest', rfl⟩
    have hc : 128 ≤ c.toNat := by
      have := byte_toNat_pos (show c &&& 0x80 ≠ 0 by simpa [top7] using minimal)
      rw [byte_and_0x80] at this
      omega
    have nonzero : c ≠ 0 := fun zero => by simp [zero] at hc
    have hbin : ∀ neg, bn2bin ⟨neg, fromBE (c :: rest)⟩ = c :: rest :=
      fun neg => bn2bin_fromBE neg rest nonzero
    have ext : ∀ neg, mpiExt ⟨neg, fromBE (c :: rest)⟩ = 1 :=
      fun neg => by rw [mpiExt_of_bn2bin (hbin neg), if_pos hc]
    have mag : mpiMagnitude (b :: c :: rest) = fromBE (c :: rest) := by
      simp [mpiMagnitude, top7]
    rw [sign, mag, correctTop_of_ne_zero (fromBE_cons_pos rest nonzero).ne']
    rw [top7] at low
    by_cases high : 128 ≤ b.toNat
    · have : b = 0x80 := UInt8.toNat.inj (show b.toNat = 128 by rw [UInt8.toNat_zero] at low; omega)
      rw [decide_eq_true high, this]
      simp [mpiBody, hbin, ext, setSignBit, show (0 : UInt8) ||| 0x80 = 0x80 from rfl]
    · have : b = 0 := UInt8.toNat.inj (show b.toNat = 0 by rw [UInt8.toNat_zero] at low; omega)
      rw [decide_eq_false high, this]
      simp [mpiBody, hbin, ext]
  · -- the first byte holds the sign and the top bits of the magnitude
    have hbin : ∀ neg, bn2bin ⟨neg, fromBE ((b &&& 0x7f) :: rest)⟩ = (b &&& 0x7f) :: rest :=
      fun neg => bn2bin_fromBE neg rest top7
    have ext : ∀ neg, mpiExt ⟨neg, fromBE ((b &&& 0x7f) :: rest)⟩ = 0 :=
      fun neg => by rw [mpiExt_of_bn2bin (hbin neg), low, if_neg (by omega)]
    have mag : mpiMagnitude (b :: rest) = fromBE ((b &&& 0x7f) :: rest) := rfl
    rw [sign, mag, correctTop_of_ne_zero (fromBE_cons_pos rest top7).ne']
    by_cases high : 128 ≤ b.toNat
    · have back : (b &&& 0x7f) ||| 0x80 = b :=
        UInt8.toNat.inj (by rw [byte_or_0x80 (by omega), low]; omega)
      rw [decide_eq_true high]
      simp [mpiBody, hbin, ext, setSignBit, back]
    · have back : b &&& 0x7f = b := UInt8.toNat.inj (by rw [low]; omega)
      rw [back] at hbin ext ⊢
      rw [decide_eq_false high]
      simp [mpiBody, hbin, ext]

/-- A minimal encoding below `2 ^ 31 - 4` bytes whose words `BN_bin2bn` accepts is what its
decoded number serializes to. -/
theorem serialize_deserialize {v : List UInt8} (fits : v.length < 2 ^ 31 - 4)
    (minimal : MinimallyEncoded v) (words : fromLE v < 2 ^ (64 * maxWords)) :
    (deserialize v).value.map serialize = some v := by
  rw [deserialize_eq fits, if_neg (Nat.not_le.2 words)]
  dsimp only
  rw [Option.map_some', serialize_eq]
  rcases List.eq_nil_or_concat v with rfl | ⟨init, b, rfl⟩
  · simp [mpiSign, mpiMagnitude, fromBE, mpiBody, correctTop, bn2bin, mpiExt]
  · rw [List.concat_eq_append, List.reverse_append, List.reverse_singleton,
      List.singleton_append, mpiBody_decode, List.reverse_cons, List.reverse_reverse]
    unfold MinimallyEncoded at minimal
    rcases List.eq_nil_or_concat init with rfl | ⟨init', c, rfl⟩
    · simpa [show (0 : UInt8) &&& 0x80 = 0 from rfl] using minimal
    · simpa [List.getLast?_concat, List.getElem_append_right] using minimal

/-- The round trip both ways, exactly: a canonical number that fits comes back from its
serialization unless it is a negative number of `64 · maxWords` bits, and a minimal
encoding below `2 ^ 31 - 4` bytes is written back from the number it decodes to exactly
when `BN_bin2bn` accepts its words. -/
theorem serialize_roundtrip :
    (∀ x : Bignum, x.Canonical → x.Fits →
      (deserialize (serialize x) = ⟨some x⟩ ↔ ¬ (x.neg = true ∧ numBits x.mag = 64 * maxWords))) ∧
    (∀ v : List UInt8, v.length < 2 ^ 31 - 4 → MinimallyEncoded v →
      ((deserialize v).value.map serialize = some v ↔ fromLE v < 2 ^ (64 * maxWords))) := by
  refine ⟨fun _ canonical fits => deserialize_serialize_iff canonical fits,
    fun v fits minimal => ⟨fun back => Nat.lt_of_not_le fun big => ?_,
      serialize_deserialize fits minimal⟩⟩
  rw [deserialize_eq fits, if_pos big] at back
  cases back

theorem serialize_roundtrip_minus_one :
    deserialize (serialize (fromInt (-1))) = ⟨some (fromInt (-1))⟩ ∧
      (deserialize [0xff, 0x80]).value.map serialize = some [0xff, 0x80] :=
  ⟨(serialize_roundtrip.1 _ (by decide) (by decide)).2 (by decide),
    (serialize_roundtrip.2 _ (by decide) (by decide)).2 (lt_two_pow_maxWords (by decide))⟩

/-- The magnitude of a non-empty MPI body, its sign bit cleared, is below
`2 ^ (8 · length - 1)`. -/
private theorem mpiMagnitude_lt (b : UInt8) (rest : List UInt8) :
    mpiMagnitude (b :: rest) < 2 ^ (8 * rest.length + 7) := by
  have low := fromLE_lt rest.reverse
  have top : (b &&& 0x7f).toNat ≤ 127 := by rw [byte_and_0x7f]; omega
  have scaled := Nat.mul_le_mul_left (256 ^ rest.length) top
  have pow : 2 ^ (8 * rest.length + 7) = 256 ^ rest.length * 128 := by
    rw [Nat.pow_add, Nat.pow_mul]
  rw [List.length_reverse] at low
  simp only [mpiMagnitude, List.modifyHead_cons, fromBE, List.reverse_cons, fromLE_append,
    fromLE_cons, fromLE_nil, List.length_reverse, Nat.mul_zero, Nat.add_zero, pow]
  omega

/-- Reading a vector below `2 ^ 31 - 4` bytes whose words `BN_bin2bn` accepts, and writing
the number back, never makes it longer, and the number is read back from what was
written: `deserialize` followed by `serialize` normalises. -/
theorem serialize_deserialize_shorter {v : List UInt8} (fits : v.length < 2 ^ 31 - 4)
    (words : fromLE v < 2 ^ (64 * maxWords)) :
    ∃ x, (deserialize v).value = some x ∧ (serialize x).length ≤ v.length ∧
      deserialize (serialize x) = ⟨some x⟩ := by
  have magnitude : mpiMagnitude v.reverse < 2 ^ (64 * maxWords) :=
    Nat.lt_of_le_of_lt (mpiMagnitude_le _) (by rwa [fromBE, List.reverse_reverse])
  have shorter :
      (serialize (correctTop ⟨mpiSign v.reverse, mpiMagnitude v.reverse⟩)).length ≤ v.length := by
    rw [length_serialize, correctTop_mag, ← List.length_reverse v]
    cases v.reverse with
    | nil => simp [mpiMagnitude, fromBE, mpiExt, correctTop_mag]
    | cons b rest =>
      have bits := numBits_le_iff.2 (mpiMagnitude_lt b rest)
      have low : numBits (mpiMagnitude (b :: rest)) &&& 0x07 =
          numBits (mpiMagnitude (b :: rest)) % 8 := Nat.and_pow_two_sub_one_eq_mod _ 3
      simp only [mpiExt, correctTop_mag, low, List.length_cons]
      split <;> omega
  -- a negative result has a sign bit below the body's top, so fewer bits than the limit
  have notAtLimit : ¬ ((correctTop ⟨mpiSign v.reverse, mpiMagnitude v.reverse⟩).neg = true ∧
      numBits (correctTop ⟨mpiSign v.reverse, mpiMagnitude v.reverse⟩).mag = 64 * maxWords) := by
    rintro ⟨negative, atLimit⟩
    simp only [correctTop_mag] at atLimit
    have whole : fromBE v.reverse < 2 ^ (64 * maxWords) := by rwa [fromBE, List.reverse_reverse]
    cases body : v.reverse with
    | nil =>
      rw [body] at atLimit
      rw [show mpiMagnitude [] = 0 from rfl, numBits_zero] at atLimit
      unfold maxWords at atLimit
      omega
    | cons b rest =>
      rw [body] at negative atLimit whole
      have set : 128 ≤ b.toNat := by
        simpa [mpiSign, byte_and_0x80_ne_zero] using neg_of_correctTop negative
      have below := numBits_le_iff.2 (mpiMagnitude_lt b rest)
      have top := numBits_le_iff.2 whole
      rw [numBits_fromBE_top_set rest set] at top
      omega
  rw [deserialize_eq fits, if_neg (Nat.not_le.2 words)]
  refine ⟨_, rfl, shorter, (deserialize_serialize_iff (canonical_correctTop _) ?_).2 notAtLimit⟩
  rw [fits_iff, correctTop_mag]
  exact magnitude

theorem serialize_deserialize_shorter_negative_zero :
    ∃ x, (deserialize [0x00, 0x80]).value = some x ∧
      (serialize x).length ≤ [(0x00 : UInt8), 0x80].length ∧ deserialize (serialize x) = ⟨some x⟩ :=
  serialize_deserialize_shorter (by decide) (lt_two_pow_maxWords (by decide))

/-! ## The buffer of `serialize()` -/

/-- `serialize()` with each store `BN_bn2mpi` makes into `result` checked against the
`len` bytes the vector holds: `none` when one falls outside. -/
def serializeChecked (self : Bignum) : Option (List UInt8) :=
  (runStores (List.replicate (bn2mpiLength self) 0) (bn2mpiStores self)).map
    fun result => (result.drop lengthInBytes).reverse

/-- Every store of `serialize()` stays inside its vector, and the bytes it returns are
`serialize`, on every number but a negative zero: there `BN_bn2mpi(value_, NULL)` asks
for the four header bytes only, and `d[4] |= 0x80` writes one byte past them. -/
theorem serializeChecked_eq (self : Bignum) :
    serializeChecked self =
      if self.neg = true ∧ self.mag = 0 then none else some (serialize self) := by
  rw [serializeChecked, runStores_bn2mpiStores]
  split <;> rfl

/-! ## Minimal encodings -/

/-- A body whose first byte has bits besides the sign, or whose second byte has its top
bit set, reverses to a minimal encoding. -/
private theorem minimallyEncoded_reverse_cons {b : UInt8} {rest : List UInt8}
    (minimal : b &&& 0x7f ≠ 0 ∨ rest.headD 0 &&& 0x80 ≠ 0) :
    MinimallyEncoded (b :: rest).reverse := by
  unfold MinimallyEncoded
  rcases minimal with top | next
  · exact .inr (.inl (by simpa using top))
  cases rest with
  | nil => exact absurd next (by decide)
  | cons c rest =>
    have second : ((c :: rest).reverse ++ [b]).getD rest.length 0 = c := by
      rw [List.getD_eq_getElem?_getD, List.reverse_cons, List.append_assoc,
        List.getElem?_append_right (by simp), List.length_reverse, Nat.sub_self]
      rfl
    have index : ((c :: rest).reverse ++ [b]).length - 2 = rest.length := by simp
    refine .inr (.inr ⟨by simp, ?_⟩)
    rw [List.reverse_cons b, index, second]
    exact next

/-- `serialize()` writes a minimal encoding for every number, a negative zero included:
the magnitude's top byte is not zero, and when its top bit is set the sign has a byte of
its own. -/
theorem minimallyEncoded_serialize (x : Bignum) : MinimallyEncoded (serialize x) := by
  rw [serialize_eq]
  by_cases zero : x.mag = 0
  · left
    simp [mpiBody, mpiExt, bn2bin, zero, setSignBit]
  obtain ⟨t, rest, hbin, nonzero, ext⟩ := bn2bin_top x (Nat.pos_of_ne_zero zero)
  have ht := byte_toNat_lt t
  rw [mpiExt_of_bn2bin hbin] at ext
  unfold mpiBody
  rcases Nat.lt_or_ge t.toNat 128 with low | high
  · -- the top byte holds the sign bit too, and keeps its other bits
    have keep : t &&& 0x7f ≠ 0 := fun cleared => by
      have := byte_and_0x7f t
      rw [cleared, UInt8.toNat_zero] at this
      exact nonzero (UInt8.toNat.inj (by rw [UInt8.toNat_zero]; omega))
    have kept : (t ||| 0x80) &&& 0x7f ≠ 0 := by
      rwa [show (t ||| 0x80) &&& 0x7f = t &&& 0x7f from
        UInt8.toNat.inj (by rw [byte_and_0x7f, byte_and_0x7f, byte_or_0x80 low]; omega)]
    have none : mpiExt x = 0 := by rw [mpiExt_of_bn2bin hbin, if_neg (by omega)]
    cases x.neg <;> simp only [none, hbin, List.replicate_zero, List.nil_append, setSignBit,
      List.modifyHead_cons, if_true, Bool.false_eq_true, if_false] <;>
      exact minimallyEncoded_reverse_cons (.inl ‹_›)
  · -- the sign has a byte of its own, ahead of a top byte with its top bit set
    have set : (t :: rest).headD 0 &&& 0x80 ≠ 0 := fun cleared => by
      have := congrArg UInt8.toNat cleared
      rw [List.headD_cons, byte_and_0x80, UInt8.toNat_zero] at this
      omega
    have one : mpiExt x = 1 := by rw [mpiExt_of_bn2bin hbin, if_pos high]
    cases x.neg <;> simp only [one, hbin, List.replicate_one, List.singleton_append, setSignBit,
      List.modifyHead_cons, if_true, Bool.false_eq_true, if_false] <;>
      exact minimallyEncoded_reverse_cons (.inr set)

end BitcoinSv.BigInt

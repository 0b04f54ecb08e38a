import Mathlib.Data.Nat.Size
import Mathlib.Data.List.Basic

/-!
# Byte strings as `bint` and OpenSSL lay them out

Source pin: src/src/big_int.cpp:191-269 (byte-wise `&=`, `|=`), 333-342 (`to_bin`),
421-445 (`serialize`, `deserialize`).
A magnitude travels between a `BIGNUM` and a `std::vector<uint8_t>` big-endian
(`BN_bn2bin`, `BN_bin2bn`, the MPI body) or reversed, least significant byte first
(the script-number layout of `serialize`). Every layout is read through the
little-endian value `fromLE`; big-endian is its reverse. `numBits` is `BN_num_bits`
of a magnitude, written by structural recursion so that small cases evaluate, and
tied to Mathlib's `Nat.size` once.
-/

namespace BitcoinSv.Bytes

/-! ## `uint8_t` -/

@[simp] theorem byte_toNat_ofNat (n : Nat) : (UInt8.ofNat n).toNat = n % 256 :=
  BitVec.toNat_ofNat n 8

@[simp] theorem byte_ofNat_toNat (b : UInt8) : UInt8.ofNat b.toNat = b :=
  UInt8.toNat.inj (by simpa using Nat.mod_eq_of_lt b.toNat_lt_size)

@[simp] theorem byte_or_toNat (a b : UInt8) : (a ||| b).toNat = a.toNat ||| b.toNat :=
  BitVec.toNat_or ..

theorem byte_toNat_lt (b : UInt8) : b.toNat < 256 := b.toNat_lt_size

theorem byte_eq_iff_toNat (a b : UInt8) : a = b ↔ a.toNat = b.toNat :=
  ⟨congrArg _, UInt8.toNat.inj⟩

theorem byte_toNat_pos {b : UInt8} (nonzero : b ≠ 0) : 0 < b.toNat :=
  Nat.pos_of_ne_zero fun h => nonzero (UInt8.toNat.inj h)

/-- Below a power of two the low and high parts of a number combine bit by bit. -/
theorem mul_two_pow_add_and (i x y a b : Nat) (ha : a < 2 ^ i) (hb : b < 2 ^ i) :
    (2 ^ i * x + a) &&& (2 ^ i * y + b) = 2 ^ i * (x &&& y) + (a &&& b) := by
  apply Nat.eq_of_testBit_eq
  intro j
  simp only [Nat.testBit_and, Nat.testBit_mul_pow_two_add _ ha,
    Nat.testBit_mul_pow_two_add _ hb, Nat.testBit_mul_pow_two_add _ (Nat.and_lt_two_pow a hb)]
  split <;> rfl

theorem mul_two_pow_add_or (i x y a b : Nat) (ha : a < 2 ^ i) (hb : b < 2 ^ i) :
    (2 ^ i * x + a) ||| (2 ^ i * y + b) = 2 ^ i * (x ||| y) + (a ||| b) := by
  apply Nat.eq_of_testBit_eq
  intro j
  simp only [Nat.testBit_or, Nat.testBit_mul_pow_two_add _ ha,
    Nat.testBit_mul_pow_two_add _ hb, Nat.testBit_mul_pow_two_add _ (Nat.or_lt_two_pow ha hb)]
  split <;> rfl

@[simp] theorem or_eq_zero_iff {x y : Nat} : x ||| y = 0 ↔ x = 0 ∧ y = 0 := by
  refine ⟨fun zero => ?_, fun ⟨hx, hy⟩ => by rw [hx, hy]; rfl⟩
  have bits : ∀ i, x.testBit i = false ∧ y.testBit i = false := fun i => by
    simpa [Nat.testBit_or] using congrArg (Nat.testBit · i) zero
  exact ⟨Nat.eq_of_testBit_eq fun i => by simp [(bits i).1],
    Nat.eq_of_testBit_eq fun i => by simp [(bits i).2]⟩

/-- The sign bit `0x80` of a byte, as a number. -/
theorem and_0x80 (x : Nat) : x &&& 0x80 = 128 * (x / 128 % 2) := by
  have split := mul_two_pow_add_and 7 (x / 128) 1 (x % 128) 0 (Nat.mod_lt _ (by decide)) (by decide)
  have low : x / 128 &&& 1 = x / 128 % 2 := Nat.and_pow_two_sub_one_eq_mod _ 1
  simp only [Nat.and_zero, Nat.add_zero, low] at split
  rw [show 2 ^ 7 * (x / 128) + x % 128 = x by omega] at split
  exact split

theorem or_0x80 {x : Nat} (low : x < 128) : x ||| 0x80 = x + 128 := by
  have split := mul_two_pow_add_or 7 0 1 x 0 low (by decide)
  simpa [Nat.add_comm] using split

@[simp] theorem byte_and_0x80 (b : UInt8) : (b &&& 0x80).toNat = 128 * (b.toNat / 128 % 2) :=
  (UInt8.and_toNat b 0x80).trans (and_0x80 b.toNat)

@[simp] theorem byte_and_0x7f (b : UInt8) : (b &&& 0x7f).toNat = b.toNat % 128 :=
  (UInt8.and_toNat b 0x7f).trans (Nat.and_pow_two_sub_one_eq_mod b.toNat 7)

theorem byte_or_0x80 {b : UInt8} (low : b.toNat < 128) : (b ||| 0x80).toNat = b.toNat + 128 :=
  (byte_or_toNat b 0x80).trans (or_0x80 low)

/-- The sign test `b & 0x80` of a byte. -/
theorem byte_and_0x80_ne_zero (b : UInt8) : (b &&& 0x80 != 0) = decide (128 ≤ b.toNat) := by
  have hb := byte_toNat_lt b
  have value := byte_and_0x80 b
  by_cases top : 128 ≤ b.toNat
  · have : b &&& 0x80 ≠ 0 := fun zero => by
      rw [zero, UInt8.toNat_zero] at value
      omega
    simp [this, top]
  · have : b &&& 0x80 = 0 := UInt8.toNat.inj (by rw [value, UInt8.toNat_zero]; omega)
    simp [this, top]

/-! ## Values -/

/-- The value of a byte string read least significant byte first. -/
def fromLE : List UInt8 → Nat
  | [] => 0
  | b :: bs => b.toNat + 256 * fromLE bs

/-- The value of a byte string read most significant byte first, as `BN_bin2bn` does. -/
def fromBE (bs : List UInt8) : Nat := fromLE bs.reverse

/-- The `w` low-order bytes of `n`, least significant first. -/
def toLE : Nat → Nat → List UInt8
  | 0, _ => []
  | w + 1, n => UInt8.ofNat n :: toLE w (n / 256)

@[simp] theorem toLE_zero (n : Nat) : toLE 0 n = [] := rfl

@[simp] theorem fromLE_nil : fromLE [] = 0 := rfl

@[simp] theorem fromLE_cons (b : UInt8) (bs : List UInt8) :
    fromLE (b :: bs) = b.toNat + 256 * fromLE bs := rfl

@[simp] theorem length_toLE (w n : Nat) : (toLE w n).length = w := by
  induction w generalizing n with
  | zero => rfl
  | succ w ih => simp [toLE, ih]

theorem fromLE_append (xs ys : List UInt8) :
    fromLE (xs ++ ys) = fromLE xs + 256 ^ xs.length * fromLE ys := by
  induction xs with
  | nil => simp
  | cons b bs ih =>
    simp only [List.cons_append, fromLE_cons, ih, List.length_cons, Nat.pow_succ]
    rw [Nat.mul_add, ← Nat.mul_assoc, Nat.mul_comm 256 (256 ^ _)]
    omega

theorem fromLE_lt (bs : List UInt8) : fromLE bs < 256 ^ bs.length := by
  induction bs with
  | nil => simp
  | cons b bs ih =>
    have hb := byte_toNat_lt b
    rw [fromLE_cons, List.length_cons, Nat.pow_succ]
    omega

theorem fromLE_toLE (w n : Nat) : fromLE (toLE w n) = n % 256 ^ w := by
  induction w generalizing n with
  | zero => simp [toLE, Nat.mod_one]
  | succ w ih =>
    simp only [toLE, fromLE_cons, byte_toNat_ofNat, ih, Nat.pow_succ]
    rw [Nat.mul_comm (256 ^ w) 256, Nat.mod_mul]

theorem toLE_fromLE (bs : List UInt8) : toLE bs.length (fromLE bs) = bs := by
  induction bs with
  | nil => rfl
  | cons b bs ih =>
    have hb := byte_toNat_lt b
    have hdiv : (b.toNat + 256 * fromLE bs) / 256 = fromLE bs := by omega
    simp only [List.length_cons, toLE, fromLE_cons, hdiv, ih, List.cons.injEq, and_true]
    rw [byte_eq_iff_toNat, byte_toNat_ofNat]
    omega

theorem fromLE_eq_zero_iff (bs : List UInt8) : fromLE bs = 0 ↔ ∀ b ∈ bs, b = 0 := by
  induction bs with
  | nil => simp
  | cons b bs ih =>
    rw [fromLE_cons, List.forall_mem_cons, ← ih, byte_eq_iff_toNat, UInt8.toNat_zero]
    constructor <;> intro h <;> omega

@[simp] theorem fromBE_zero_cons (bs : List UInt8) : fromBE (0 :: bs) = fromBE bs := by
  simp [fromBE, fromLE_append]

theorem fromBE_cons_pos {b : UInt8} (bs : List UInt8) (nonzero : b ≠ 0) : 0 < fromBE (b :: bs) := by
  have := byte_toNat_pos nonzero
  simp only [fromBE, List.reverse_cons, fromLE_append, fromLE_cons, fromLE_nil]
  have : 0 < 256 ^ bs.reverse.length := Nat.pos_pow_of_pos _ (by decide)
  have : 0 < 256 ^ bs.reverse.length * (b.toNat + 256 * 0) :=
    Nat.mul_pos this (by omega)
  omega

/-! ## Bit length -/

/-- Bit length computed with `fuel` halvings. -/
def bitLength : Nat → Nat → Nat
  | 0, _ => 0
  | fuel + 1, n => if n = 0 then 0 else bitLength fuel (n / 2) + 1

/-- `BN_num_bits` of a magnitude: its number of significant bits, 0 for zero. -/
def numBits (n : Nat) : Nat := bitLength n n

/-- `BN_num_bytes`: `(BN_num_bits + 7) / 8`. -/
def numBytes (n : Nat) : Nat := (numBits n + 7) / 8

@[simp] theorem numBits_zero : numBits 0 = 0 := rfl

@[simp] theorem numBytes_zero : numBytes 0 = 0 := rfl

private theorem size_half_succ {n : Nat} (pos : 0 < n) : Nat.size n = Nat.size (n / 2) + 1 := by
  apply le_antisymm
  · rw [Nat.size_le, Nat.pow_succ]
    have := Nat.lt_size_self (n / 2)
    omega
  · rw [Nat.succ_le_iff, Nat.lt_size]
    rcases Nat.eq_zero_or_pos (Nat.size (n / 2)) with h | h
    · simpa [h] using pos
    · have := Nat.lt_size.1 (Nat.sub_lt h Nat.one_pos)
      rw [show Nat.size (n / 2) = Nat.size (n / 2) - 1 + 1 by omega, Nat.pow_succ]
      omega

private theorem bitLength_eq_size (fuel n : Nat) (enough : n ≤ fuel) :
    bitLength fuel n = Nat.size n := by
  induction fuel generalizing n with
  | zero => simp [bitLength, Nat.le_zero.1 enough]
  | succ fuel ih =>
    by_cases zero : n = 0
    · simp [bitLength, zero]
    · simp only [bitLength, zero, if_false]
      rw [ih (n / 2) (by omega), size_half_succ (Nat.pos_of_ne_zero zero)]

theorem numBits_eq_size (n : Nat) : numBits n = Nat.size n :=
  bitLength_eq_size n n le_rfl

theorem numBits_le_iff {n k : Nat} : numBits n ≤ k ↔ n < 2 ^ k := by
  rw [numBits_eq_size, Nat.size_le]

theorem lt_numBits_iff {n k : Nat} : k < numBits n ↔ 2 ^ k ≤ n := by
  rw [numBits_eq_size, Nat.lt_size]

@[simp] theorem numBits_eq_zero {n : Nat} : numBits n = 0 ↔ n = 0 := by
  rw [numBits_eq_size, Nat.size_eq_zero]

theorem lt_two_pow_numBits (n : Nat) : n < 2 ^ numBits n := numBits_le_iff.1 le_rfl

/-- The bit length is fixed by the two powers of two around the number. -/
theorem numBits_eq_of_bounds {n k : Nat} (lo : 2 ^ k ≤ n) (hi : n < 2 ^ (k + 1)) :
    numBits n = k + 1 :=
  le_antisymm (numBits_le_iff.2 hi) (lt_numBits_iff.2 lo)

theorem lt_pow_numBytes (n : Nat) : n < 256 ^ numBytes n := by
  have hle : numBits n ≤ 8 * numBytes n := by unfold numBytes; omega
  calc n < 2 ^ numBits n := lt_two_pow_numBits n
    _ ≤ 2 ^ (8 * numBytes n) := Nat.pow_le_pow_right Nat.two_pos hle
    _ = 256 ^ numBytes n := by rw [Nat.pow_mul]

/-- A byte string whose last byte is `b ≠ 0` has `8 · (length - 1) + numBits b` bits. -/
theorem numBits_fromLE_append_last (init : List UInt8) (b : UInt8) (nonzero : b ≠ 0) :
    numBits (fromLE (init ++ [b])) = 8 * init.length + numBits b.toNat := by
  have low : fromLE init < 2 ^ (8 * init.length) := by
    simpa [Nat.pow_mul] using fromLE_lt init
  have value : fromLE (init ++ [b]) = fromLE init + 2 ^ (8 * init.length) * b.toNat := by
    simp [fromLE_append, Nat.pow_mul]
  obtain ⟨k, hk⟩ : ∃ k, numBits b.toNat = k + 1 :=
    Nat.exists_eq_succ_of_ne_zero (numBits_eq_zero.not.2 (byte_toNat_pos nonzero).ne')
  have top : 2 ^ k ≤ b.toNat := lt_numBits_iff.1 (by omega)
  have hb : b.toNat < 2 ^ (k + 1) := hk ▸ lt_two_pow_numBits b.toNat
  rw [value, hk, ← Nat.add_assoc]
  apply numBits_eq_of_bounds
  · rw [Nat.pow_add]
    exact le_trans (Nat.mul_le_mul_left _ top) (Nat.le_add_left _ _)
  · rw [Nat.add_assoc, Nat.pow_add]
    calc fromLE init + 2 ^ (8 * init.length) * b.toNat
        < 2 ^ (8 * init.length) * (b.toNat + 1) := by rw [Nat.mul_add]; omega
      _ ≤ 2 ^ (8 * init.length) * 2 ^ (k + 1) := Nat.mul_le_mul_left _ hb

/-- A byte string with a non-zero last byte is as long as its value's `BN_num_bytes`. -/
theorem numBytes_fromLE_append_last (init : List UInt8) (b : UInt8) (nonzero : b ≠ 0) :
    numBytes (fromLE (init ++ [b])) = init.length + 1 := by
  have hb : numBits b.toNat ≤ 8 := numBits_le_iff.2 (byte_toNat_lt b)
  have pos : 0 < numBits b.toNat :=
    Nat.pos_of_ne_zero (numBits_eq_zero.not.2 (byte_toNat_pos nonzero).ne')
  unfold numBytes
  rw [numBits_fromLE_append_last init b nonzero]
  omega

/-! ## Byte-wise `&` and `|` -/

private theorem fromLE_cons_pow (b : UInt8) (bs : List UInt8) :
    fromLE (b :: bs) = 2 ^ 8 * fromLE bs + b.toNat := by
  simp only [fromLE_cons]
  omega

/-- `&` of two magnitudes, byte by byte from the least significant end: the longer
operand's extra high bytes meet zeros and drop out. -/
theorem fromLE_zipWith_and (xs ys : List UInt8) :
    fromLE (List.zipWith (· &&& ·) xs ys) = fromLE xs &&& fromLE ys := by
  induction xs generalizing ys with
  | nil => simp
  | cons x xs ih =>
    cases ys with
    | nil => simp
    | cons y ys =>
      simp only [List.zipWith_cons_cons, fromLE_cons_pow, UInt8.and_toNat, ih]
      rw [mul_two_pow_add_and 8 _ _ _ _ (byte_toNat_lt x) (byte_toNat_lt y)]

/-- `|` of two magnitudes when the result is written over the longer operand `ys`:
its bytes above the shorter operand are kept. -/
theorem fromLE_zipWith_or (xs ys : List UInt8) (shorter : xs.length ≤ ys.length) :
    fromLE (List.zipWith (· ||| ·) xs ys ++ ys.drop xs.length) = fromLE xs ||| fromLE ys := by
  induction xs generalizing ys with
  | nil => simp
  | cons x xs ih =>
    cases ys with
    | nil => simp at shorter
    | cons y ys =>
      have rest := ih ys (by simpa using shorter)
      simp only [List.zipWith_cons_cons, List.length_cons, List.drop_succ_cons,
        List.cons_append, fromLE_cons_pow, byte_or_toNat, rest]
      rw [mul_two_pow_add_or 8 _ _ _ _ (byte_toNat_lt x) (byte_toNat_lt y)]

end BitcoinSv.Bytes

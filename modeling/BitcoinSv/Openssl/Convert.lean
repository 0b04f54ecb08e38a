import Mathlib.Data.Nat.Digits
import BitcoinSv.Openssl.Bignum

/-!
# Decimal and ASN.1 INTEGER output (OpenSSL 1.1.1)

What `bint`'s output functions ask of OpenSSL: `BN_bn2dec` for `operator<<`, and
`BN_to_ASN1_INTEGER` followed by `ASN1_INTEGER_get` for `to_long`.

* `bn2dec_eq`, `bn2dec_eq_repr`: `BN_bn2dec`'s blocks of `BN_DEC_NUM` digits, printed
  most significant first, are the decimal representation of the integer, so a negative
  zero prints as `0`; its bounds on blocks and bytes never fail (`two_pow_le_ten_pow`),
  but a non-zero number of `maxWords` words gives `NULL`;
* `dec2bn_bn2dec`: `BN_dec2bn` reads the text back to the number with a negative zero
  made non-negative, exactly when it has at most `16 · maxWords` digits;
* `asn1IntegerGet_bnToAsn1Integer`: through an `ASN1_INTEGER`, a number comes back as
  itself when it fits an `int64_t`, and as `-1` otherwise.
-/

namespace BitcoinSv.Openssl
open BitcoinSv.Bytes

namespace Bignum

/-- `BN_DEC_NUM`: the decimal digits of one block. -/
def decNum : Nat := 19

/-- `BN_DEC_CONV`: `10 ^ BN_DEC_NUM`, the largest power of ten a 64-bit word holds. -/
def decConv : Nat := 10 ^ decNum

theorem one_lt_decConv : 1 < decConv := Nat.one_lt_pow (by decide) (by decide)

/-- The `while (!BN_is_zero(t))` loop of `BN_bn2dec`: `BN_div_word(t, BN_DEC_CONV)` into
the next of the `room` slots of `bn_data`, least significant block first. It fails once
the slots are taken, and when `BN_div_word`'s normalising `BN_lshift(a, a, 0)` asks
`bn_wexpand` for one word more than `maxWords`. -/
def divWordBlocks : Nat → Nat → Option (List Nat)
  | _, 0 => some []
  | 0, _ + 1 => none
  | room + 1, t + 1 =>
    if maxWords < numWords (t + 1) + 1 then none
    else (divWordBlocks room ((t + 1) / decConv)).map ((t + 1) % decConv :: ·)

/-- `BN_DEC_FMT2`, `%019lu`: a block's decimal digits zero-padded to `BN_DEC_NUM`. -/
def padBlock (b : Nat) : List Char :=
  List.replicate (decNum - (Nat.toDigits 10 b).length) '0' ++ Nat.toDigits 10 b

/-- The most significant block with `BN_DEC_FMT1`, `%lu`, every later one with
`BN_DEC_FMT2`. -/
def formatBlocks : List Nat → List (List Char)
  | [] => []
  | first :: rest => Nat.toDigits 10 first :: rest.map padBlock

/-- `BIO_snprintf(p, room, fmt, block)` for each formatted block in turn, `p` moving past
what was written: `-1`, here `none`, once a block and its terminating NUL do not fit the
room left. -/
def snprintfBlocks : Nat → List (List Char) → Option (List Char)
  | _, [] => some []
  | room, s :: rest =>
    if s.length < room then (snprintfBlocks (room - s.length) rest).map (s ++ ·) else none

/-- `BN_bn2dec(a)`: `num`, a bound on the decimal digits of `BN_num_bits(a)` bits, sizes
`bn_data` at `num / BN_DEC_NUM + 1` blocks and the text at `num + 3` bytes (the `int`
products stay below `INT_MAX` for every number that fits); `0` for zero; otherwise a
`-` for a negative number, then the blocks `BN_div_word` divides off, printed most
significant first. `NULL` when a step fails. -/
def bn2dec (a : Bignum) : Option (List Char) :=
  let i := numBits a.mag * 3
  let num := i / 10 + i / 1000 + 1 + 1
  let tbytes := num + 3
  let bnDataNum := num / decNum + 1
  if a.isZero then some ['0']
  else
    let sign := if a.isNegative then ['-'] else []
    (divWordBlocks bnDataNum a.mag).bind fun blocks =>
      (snprintfBlocks (tbytes - sign.length) (formatBlocks blocks.reverse)).map (sign ++ ·)

/-! ## The blocks of `BN_bn2dec` -/

/-- With a spare word and room for every block, the loop divides off the base-`10 ^ 19`
digits of the number. -/
theorem divWordBlocks_eq {room t : Nat} (spare : numWords t < maxWords)
    (enough : (Nat.digits decConv t).length ≤ room) :
    divWordBlocks room t = some (Nat.digits decConv t) := by
  induction room generalizing t with
  | zero =>
    cases t with
    | zero => simp only [divWordBlocks, Nat.digits_zero]
    | succ t => simp [Nat.digits_def' one_lt_decConv (by omega : 0 < t + 1)] at enough
  | succ room ih =>
    cases t with
    | zero => simp only [divWordBlocks, Nat.digits_zero]
    | succ t =>
      have digits := Nat.digits_def' one_lt_decConv (by omega : 0 < t + 1)
      rw [digits, List.length_cons] at enough
      rw [divWordBlocks, if_neg (by omega),
        ih (Nat.lt_of_le_of_lt (numWords_mono (Nat.div_le_self _ _)) spare) (by omega), digits]
      rfl

/-- A non-zero number of `maxWords` words has no word to spare: the first `BN_div_word`
fails. -/
theorem divWordBlocks_eq_none {room t : Nat} (nonzero : t ≠ 0) (full : maxWords ≤ numWords t) :
    divWordBlocks (room + 1) t = none := by
  obtain ⟨t, rfl⟩ : ∃ k, t = k + 1 := ⟨t - 1, by omega⟩
  rw [divWordBlocks, if_pos (by omega)]

private theorem digits_length_le {b t k : Nat} (base : 1 < b) (small : t < b ^ k) :
    (Nat.digits b t).length ≤ k := by
  rcases Nat.eq_zero_or_pos t with rfl | pos
  · simp
  · rw [Nat.digits_len b t base pos.ne']
    exact Nat.log_lt_of_lt_pow pos.ne' small

/-- `Nat.toDigits`, the digits `BIO_snprintf` writes, are Mathlib's decimal digits, most
significant first. -/
private theorem toDigitsCore_eq_digits (fuel n : Nat) (ds : List Char) (pos : 0 < n)
    (enough : n < fuel) :
    Nat.toDigitsCore 10 fuel n ds = ((Nat.digits 10 n).map Nat.digitChar).reverse ++ ds := by
  induction fuel generalizing n ds with
  | zero => omega
  | succ fuel ih =>
    rw [Nat.digits_def' (by decide) pos]
    simp only [Nat.toDigitsCore]
    split
    · rename_i last
      simp [last]
    · rw [ih _ _ (by omega) (by omega)]
      simp

theorem toDigits_eq_digits {n : Nat} (pos : 0 < n) :
    Nat.toDigits 10 n = ((Nat.digits 10 n).map Nat.digitChar).reverse := by
  rw [Nat.toDigits, toDigitsCore_eq_digits _ _ _ pos (Nat.lt_succ_self n), List.append_nil]

theorem length_toDigits_le_iff {n k : Nat} (pos : 0 < k) :
    (Nat.toDigits 10 n).length ≤ k ↔ n < 10 ^ k := by
  rcases Nat.eq_zero_or_pos n with rfl | npos
  · exact ⟨fun _ => Nat.pos_pow_of_pos k (by decide), fun _ => pos⟩
  · rw [toDigits_eq_digits npos, List.length_reverse, List.length_map,
      Nat.digits_len 10 n (by decide) npos.ne', Nat.lt_pow_iff_log_lt (by decide) npos.ne']
    omega

/-- A block `q` followed by a full block `r` in decimal: the digits of `q`, then those of
`r` padded to `BN_DEC_NUM`. -/
theorem toDigits_add_decConv_mul {q r : Nat} (pos : 0 < q) (block : r < decConv) :
    Nat.toDigits 10 (r + decConv * q) = Nat.toDigits 10 q ++ padBlock r := by
  have short : (Nat.digits 10 r).length ≤ decNum := digits_length_le (by decide) block
  have joined := Nat.digits_append_zeroes_append_digits (b := 10)
    (k := decNum - (Nat.digits 10 r).length) (n := r) (by decide) pos
  rw [Nat.add_sub_cancel' short] at joined
  rw [toDigits_eq_digits (Nat.lt_of_lt_of_le (Nat.mul_pos (Nat.zero_lt_of_lt one_lt_decConv) pos)
    (Nat.le_add_left (decConv * q) r)), decConv, ← joined,
    toDigits_eq_digits pos, padBlock]
  rcases Nat.eq_zero_or_pos r with rfl | rpos
  · simp only [Nat.digits_zero, List.nil_append, List.map_append, List.map_replicate,
      List.reverse_append, List.reverse_replicate, List.map_nil, List.reverse_nil,
      List.append_nil, List.length_nil, Nat.sub_zero]
    rfl
  · simp only [toDigits_eq_digits rpos, List.map_append, List.map_replicate, List.reverse_append,
      List.reverse_replicate, List.length_reverse, List.length_map, List.append_assoc]
    rfl

private theorem formatBlocks_append {blocks : List Nat} (nonempty : blocks ≠ []) (last : Nat) :
    formatBlocks (blocks ++ [last]) = formatBlocks blocks ++ [padBlock last] := by
  cases blocks with
  | nil => exact absurd rfl nonempty
  | cons first rest => simp [formatBlocks]

/-- Printed most significant first, the base-`10 ^ 19` digits of a non-zero number are
its decimal digits. -/
theorem join_formatBlocks {t : Nat} (pos : 0 < t) :
    (formatBlocks (Nat.digits decConv t).reverse).flatten = Nat.toDigits 10 t := by
  induction t using Nat.strong_induction_on with
  | _ t ih =>
    rw [Nat.digits_def' one_lt_decConv pos]
    rcases Nat.eq_zero_or_pos (t / decConv) with last | more
    · rw [last, Nat.digits_zero, Nat.mod_eq_of_lt ((Nat.div_eq_zero_iff (by decide)).1 last)]
      simp [formatBlocks]
    · have nonempty : (Nat.digits decConv (t / decConv)).reverse ≠ [] := by
        rw [Ne, List.reverse_eq_nil_iff, Nat.digits_eq_nil_iff_eq_zero]
        omega
      rw [List.reverse_cons, formatBlocks_append nonempty, List.flatten_append,
        ih _ (Nat.div_lt_self pos one_lt_decConv) more, List.flatten_singleton,
        ← toDigits_add_decConv_mul more (Nat.mod_lt _ (by decide)), Nat.mod_add_div]

theorem snprintfBlocks_eq (blocks : List (List Char)) {room : Nat}
    (fits : blocks.flatten.length < room) : snprintfBlocks room blocks = some blocks.flatten := by
  induction blocks generalizing room with
  | nil => rfl
  | cons s rest ih =>
    rw [List.flatten_cons, List.length_append] at fits
    rw [snprintfBlocks, if_pos (by omega), ih (by omega), Option.map_some', List.flatten_cons]

/-- `BN_bn2dec`'s bound on the digits of a `b`-bit number: `3b / 10 + 3b / 1000 + 2`
digits hold `2 ^ b`, as `0.303 > log₁₀ 2`. -/
theorem two_pow_le_ten_pow (b : Nat) : 2 ^ b ≤ 10 ^ (b * 3 / 10 + b * 3 / 1000 + 1 + 1) := by
  obtain ⟨s, t, r, rfl, tsmall, rsmall⟩ : ∃ s t r, b = 1000 * s + 10 * t + r ∧ t < 100 ∧ r < 10 :=
    ⟨b / 1000, b % 1000 / 10, b % 10, by omega, by omega, by omega⟩
  have thousands : 2 ^ (1000 * s) ≤ 10 ^ (303 * s) := by
    rw [Nat.pow_mul, Nat.pow_mul]
    exact Nat.pow_le_pow_left (by norm_num) s
  -- `1024 ^ t · 8 ≤ 100 · 1000 ^ t` for `t < 100`: the ratio grows with `t`
  have tens : 2 ^ (10 * t) * 8 ≤ 100 * 10 ^ (3 * t) := by
    have rest : 1024 ^ t * 1000 ^ (99 - t) ≤ 1024 ^ 99 :=
      calc 1024 ^ t * 1000 ^ (99 - t) ≤ 1024 ^ t * 1024 ^ (99 - t) :=
            Nat.mul_le_mul_left _ (Nat.pow_le_pow_left (by decide) _)
        _ = 1024 ^ 99 := by rw [← Nat.pow_add, Nat.add_sub_cancel' (by omega)]
    have top : 1024 ^ 99 * 8 ≤ 100 * 1000 ^ 99 := by norm_num
    have whole : 2 ^ (10 * t) * 8 * 1000 ^ (99 - t) ≤ 100 * 10 ^ (3 * t) * 1000 ^ (99 - t) :=
      calc 2 ^ (10 * t) * 8 * 1000 ^ (99 - t) = 1024 ^ t * 1000 ^ (99 - t) * 8 := by
            rw [Nat.pow_mul]; ring
        _ ≤ 1024 ^ 99 * 8 := Nat.mul_le_mul_right _ rest
        _ ≤ 100 * 1000 ^ 99 := top
        _ = 100 * 10 ^ (3 * t) * 1000 ^ (99 - t) := by
            rw [Nat.pow_mul, Nat.mul_assoc, ← Nat.pow_add, Nat.add_sub_cancel' (by omega)]
    exact Nat.le_of_mul_le_mul_right whole (Nat.pos_pow_of_pos _ (by decide))
  have units : ∀ r, r < 10 → 2 ^ r ≤ 8 * 10 ^ (r * 3 / 10) := by decide
  have scaled : 2 ^ (1000 * s + 10 * t + r) * 8 ≤ 10 ^ (303 * s + 3 * t + r * 3 / 10 + 2) * 8 :=
    calc 2 ^ (1000 * s + 10 * t + r) * 8 = 2 ^ (1000 * s) * (2 ^ (10 * t) * 8) * 2 ^ r := by
          rw [Nat.pow_add, Nat.pow_add]; ring
      _ ≤ 10 ^ (303 * s) * (100 * 10 ^ (3 * t)) * (8 * 10 ^ (r * 3 / 10)) :=
          Nat.mul_le_mul (Nat.mul_le_mul thousands tens) (units r rsmall)
      _ = 10 ^ (303 * s + 3 * t + r * 3 / 10 + 2) * 8 := by
          rw [Nat.pow_add, Nat.pow_add, Nat.pow_add]; ring
  exact Nat.le_trans (Nat.le_of_mul_le_mul_right scaled (by decide))
    (Nat.pow_le_pow_right (by decide) (by omega))

/-- `BN_bn2dec` writes the sign and the decimal digits of any number that fits, except a
non-zero one of `maxWords` words: `BN_div_word` cannot shift it in place. A negative
zero prints as `0`. -/
theorem bn2dec_eq {a : Bignum} (fits : a.Fits) :
    bn2dec a = if a.mag ≠ 0 ∧ a.top = maxWords then none
      else some ((if a.neg && a.mag != 0 then ['-'] else []) ++ Nat.toDigits 10 a.mag) := by
  unfold bn2dec
  dsimp only
  by_cases zero : a.mag = 0
  · simp [isZero, zero]
    rfl
  rw [if_neg (by simpa [isZero] using zero)]
  have pos := Nat.pos_of_ne_zero zero
  by_cases full : a.top = maxWords
  · rw [if_pos (show a.mag ≠ 0 ∧ a.top = maxWords from ⟨zero, full⟩),
      divWordBlocks_eq_none zero (by unfold top at full; omega), Option.none_bind]
  rw [if_neg (show ¬ (a.mag ≠ 0 ∧ a.top = maxWords) from fun atLimit => full atLimit.2)]
  have spare : a.top < maxWords := by unfold Fits at fits; omega
  have decimal : a.mag < 10 ^ (numBits a.mag * 3 / 10 + numBits a.mag * 3 / 1000 + 1 + 1) :=
    Nat.lt_of_lt_of_le (lt_two_pow_numBits _) (two_pow_le_ten_pow _)
  generalize count : numBits a.mag * 3 / 10 + numBits a.mag * 3 / 1000 + 1 + 1 = num
    at decimal ⊢
  have blocks : (Nat.digits decConv a.mag).length ≤ num / decNum + 1 := by
    refine digits_length_le one_lt_decConv (Nat.lt_of_lt_of_le decimal ?_)
    rw [decConv, ← Nat.pow_mul]
    exact Nat.pow_le_pow_right (by decide) (by unfold decNum; omega)
  have digits := (length_toDigits_le_iff (by omega)).2 decimal
  have room : ∀ sign : List Char, sign.length ≤ 1 →
      snprintfBlocks (num + 3 - sign.length) (formatBlocks (Nat.digits decConv a.mag).reverse) =
        some (Nat.toDigits 10 a.mag) := fun sign short => by
    rw [snprintfBlocks_eq _ (by rw [join_formatBlocks pos]; omega), join_formatBlocks pos]
  rw [divWordBlocks_eq spare blocks, Option.some_bind, room _ (by split <;> simp),
    Option.map_some']
  cases negative : a.neg <;> simp [isNegative, negative, zero]

/-- The text as a string: the decimal representation of the integer. -/
theorem bn2dec_eq_repr {a : Bignum} (fits : a.Fits) :
    (bn2dec a).map List.asString =
      if a.mag ≠ 0 ∧ a.top = maxWords then none else some a.toInt.repr := by
  rw [bn2dec_eq fits]
  split
  · rfl
  · obtain ⟨neg, _ | k⟩ := a
    · cases neg <;> rfl
    · cases neg <;> rfl

/-! ## Reading the digits back -/

private theorem digitChar_read : ∀ d, d < 10 →
    (Nat.digitChar d).isDigit = true ∧ (Nat.digitChar d).toNat - '0'.toNat = d := by
  decide

/-- With enough fuel, `BN_dec2bn`'s digit loop over the digits `Nat.toDigitsCore` puts in
front of `ds` continues from the number they stand for. -/
private theorem foldl_toDigitsCore (fuel n : Nat) (ds : List Char) (enough : n < fuel) :
    (Nat.toDigitsCore 10 fuel n ds).foldl (fun acc c => 10 * acc + (c.toNat - '0'.toNat)) 0 =
      ds.foldl (fun acc c => 10 * acc + (c.toNat - '0'.toNat)) n := by
  induction fuel generalizing n ds with
  | zero => omega
  | succ fuel ih =>
    have digit := (digitChar_read (n % 10) (Nat.mod_lt n (by decide))).2
    simp only [Nat.toDigitsCore]
    split
    · rw [List.foldl_cons, digit]
      congr 1
      omega
    · rw [ih _ _ (by omega), List.foldl_cons, digit]
      congr 1
      omega

private theorem isDigit_toDigitsCore (fuel n : Nat) (ds : List Char)
    (digits : ∀ c ∈ ds, c.isDigit = true) :
    ∀ c ∈ Nat.toDigitsCore 10 fuel n ds, c.isDigit = true := by
  induction fuel generalizing n ds with
  | zero => exact digits
  | succ fuel ih =>
    have cons : ∀ c ∈ Nat.digitChar (n % 10) :: ds, c.isDigit = true :=
      List.forall_mem_cons.2 ⟨(digitChar_read (n % 10) (Nat.mod_lt n (by decide))).1, digits⟩
    simp only [Nat.toDigitsCore]
    split
    · exact cons
    · exact ih _ _ cons

theorem isDigit_toDigits (m : Nat) : ∀ c ∈ Nat.toDigits 10 m, c.isDigit = true :=
  isDigit_toDigitsCore _ _ _ fun _ absurd => nomatch absurd

theorem foldl_toDigits (m : Nat) :
    (Nat.toDigits 10 m).foldl (fun acc c => 10 * acc + (c.toNat - '0'.toNat)) 0 = m :=
  foldl_toDigitsCore (m + 1) m [] (Nat.lt_succ_self m)

/-! ## Reading `BN_bn2dec`'s text back -/

/-- `BN_dec2bn` of an optional `-` and a non-empty run of decimal digits: its checks on
the number of digits come down to the one of `bn_expand`, four bits a digit within
`maxWords` words, and a zero is never made negative. -/
theorem dec2bn_digits (negative : Bool) {ds : List Char} (digits : ∀ c ∈ ds, c.isDigit = true)
    (nonempty : ds ≠ []) :
    dec2bn ((if negative then ['-'] else []) ++ ds) =
      if 16 * maxWords < ds.length then none
      else
        let mag := ds.foldl (fun acc c => 10 * acc + (c.toNat - '0'.toNat)) 0
        some ⟨negative && mag != 0, mag⟩ := by
  have whole : ds.takeWhile Char.isDigit = ds := List.takeWhile_eq_self_iff.2 digits
  have first : ds.head? ≠ some '-' := fun head =>
    absurd (digits '-' (List.mem_of_mem_head? head)) (by decide)
  have length : ds.length ≠ 0 := fun empty => nonempty (List.length_eq_zero.1 empty)
  cases negative <;>
    simp only [dec2bn, if_true, if_false, Bool.false_eq_true, List.singleton_append,
      List.nil_append, List.head?_cons, List.tail_cons, first, whole, decide_True, decide_False,
      Bool.true_and, Bool.false_and, maxWords] <;>
    split_ifs <;> first | rfl | omega

/-- `BN_dec2bn` reads the decimal text back to the number, a negative zero made
non-negative, exactly when `bn_expand` grants its four bits a digit: at most
`16 · maxWords` digits. A number of `maxWords` words has no text. -/
theorem dec2bn_bn2dec {a : Bignum} (words : a.top < maxWords) :
    (bn2dec a).map dec2bn =
      some (if a.mag < 10 ^ (16 * maxWords) then some (correctTop a) else none) := by
  have nonempty : Nat.toDigits 10 a.mag ≠ [] := by
    rcases Nat.eq_zero_or_pos a.mag with zero | pos
    · rw [zero]
      decide
    · rw [toDigits_eq_digits pos, Ne, List.reverse_eq_nil_iff, List.map_eq_nil_iff,
        Nat.digits_eq_nil_iff_eq_zero]
      omega
  have length := length_toDigits_le_iff (n := a.mag) (k := 16 * maxWords) (by unfold maxWords; omega)
  rw [bn2dec_eq (Nat.le_of_lt words), if_neg (by omega), Option.map_some', Option.some.injEq,
    dec2bn_digits _ (isDigit_toDigits a.mag) nonempty, foldl_toDigits]
  by_cases short : (Nat.toDigits 10 a.mag).length ≤ 16 * maxWords
  · rw [if_neg (Nat.not_lt.2 short), if_pos (length.1 short)]
    obtain ⟨neg, m⟩ := a
    by_cases zero : m = 0 <;> cases neg <;> simp [correctTop, zero, Bignum.zero]
  · rw [if_pos (Nat.lt_of_not_le short), if_neg (mt length.2 short)]

end Bignum

/-! ## `BN_to_ASN1_INTEGER` and `ASN1_INTEGER_get` -/

/-- An `ASN1_INTEGER`: whether its type carries `V_ASN1_NEG`, and its content octets. -/
structure Asn1Integer where
  neg : Bool
  data : List UInt8

/-- `BN_to_ASN1_INTEGER(bn, NULL)`: the type is negative only for a non-zero negative
number; the content is one zero octet for zero, `BN_bn2bin` otherwise. -/
def bnToAsn1Integer (bn : Bignum) : Asn1Integer :=
  ⟨bn.isNegative && !bn.isZero, if bn.isZero then [0] else Bignum.bn2bin bn⟩

/-- `asn1_get_uint64`: more than eight octets is too large; otherwise the loop
`r <<= 8; r |= b[i]` reads them big-endian. -/
def asn1GetUint64 (b : List UInt8) : Option Nat :=
  if 8 < b.length then none else some (fromBE b)

/-- `asn1_get_int64`: the magnitude must fit an `int64_t`, `2 ^ 63` only when negative. -/
def asn1GetInt64 (b : List UInt8) (neg : Bool) : Option Int :=
  match asn1GetUint64 b with
  | none => none
  | some r =>
    if neg then
      if r ≤ 2 ^ 63 - 1 then some (-(r : Int))
      else if r = 2 ^ 63 then some (-2 ^ 63)
      else none
    else if r ≤ 2 ^ 63 - 1 then some r
    else none

/-- `ASN1_INTEGER_get` with a 64-bit `long`: `-1` when `ASN1_INTEGER_get_int64` fails or
the value is outside `long`. The type check of `asn1_string_get_int64` always passes on
what `BN_to_ASN1_INTEGER` builds. -/
def asn1IntegerGet (a : Asn1Integer) : Int :=
  match asn1GetInt64 a.data a.neg with
  | none => -1
  | some r => if r > 2 ^ 63 - 1 ∨ r < -2 ^ 63 then -1 else r

/-- The content octets read back to the magnitude; there are more than eight exactly when
it is `2 ^ 64` or more. -/
theorem asn1GetUint64_bnToAsn1Integer (a : Bignum) :
    asn1GetUint64 (bnToAsn1Integer a).data = if a.mag < 2 ^ 64 then some a.mag else none := by
  have bits := @numBits_le_iff a.mag 64
  by_cases zero : a.mag = 0
  · simp only [bnToAsn1Integer, asn1GetUint64, Bignum.isZero, zero, decide_True, if_true]
    rfl
  · have data : (bnToAsn1Integer a).data = Bignum.bn2bin a :=
      if_neg (by simp only [Bignum.isZero, zero, decide_False, Bool.false_eq_true, not_false_eq_true])
    simp only [asn1GetUint64, data, Bignum.length_bn2bin, Bignum.fromBE_bn2bin, numBytes]
    by_cases fits : a.mag < 2 ^ 64
    · rw [if_neg (by have := bits.2 fits; omega), if_pos fits]
    · rw [if_pos (by have := mt bits.1 fits; omega), if_neg fits]

/-- `ASN1_INTEGER_get_int64` succeeds exactly on the numbers that fit an `int64_t`. -/
theorem asn1GetInt64_bnToAsn1Integer (a : Bignum) :
    asn1GetInt64 (bnToAsn1Integer a).data (bnToAsn1Integer a).neg =
      if -2 ^ 63 ≤ a.toInt ∧ a.toInt < 2 ^ 63 then some a.toInt else none := by
  rw [asn1GetInt64, asn1GetUint64_bnToAsn1Integer]
  obtain ⟨neg, mag⟩ := a
  simp only [bnToAsn1Integer, Bignum.isNegative, Bignum.isZero, Bignum.toInt]
  by_cases fits : mag < 2 ^ 64
  · rw [if_pos fits]
    cases neg
    · simp only [Bool.false_and, Bool.false_eq_true, if_false]
      split_ifs <;> first | rfl | omega
    · by_cases zero : mag = 0
      · simp only [zero, decide_True, Bool.not_true, Bool.and_false, Bool.false_eq_true, if_false,
          if_true]
        rfl
      · simp only [zero, decide_False, Bool.not_false, Bool.and_true, if_true]
        split_ifs <;> first | rfl | omega | exact congrArg some (by omega)
  · rw [if_neg fits]
    refine (if_neg ?_).symm
    cases neg <;> simp only [Bool.false_eq_true, if_false, if_true] <;> omega

/-- Through an `ASN1_INTEGER`, a number comes back as its integer when that fits an
`int64_t`, and as `-1` otherwise; a negative zero comes back as `0`. -/
theorem asn1IntegerGet_bnToAsn1Integer (a : Bignum) :
    asn1IntegerGet (bnToAsn1Integer a) =
      if -2 ^ 63 ≤ a.toInt ∧ a.toInt < 2 ^ 63 then a.toInt else -1 := by
  rw [asn1IntegerGet, asn1GetInt64_bnToAsn1Integer]
  split_ifs with fits
  · exact if_neg (by omega)
  · rfl

end BitcoinSv.Openssl

import Mathlib.Data.Int.Bitwise
import Mathlib.Data.Int.Range
import Mathlib.Data.List.GetD
import Mathlib.Data.Nat.Bitwise
import Safrn.Base.TwosComplement

/-!
# Binary strings of bytes

A binary string has its most significant bit first. The bits of bytes are those of the number that
the bytes stand for, and bytes can be cut from their bits again.
-/

namespace Safrn.Base

/-- The number that a binary string stands for. -/
def bitsValue : List Bool → ℕ
  | [] => 0
  | bit :: bits => bit.toNat * 2 ^ bits.length + bitsValue bits

/-- The bits of a byte. -/
def byteBits (byte : UInt8) : List Bool := (List.range 8).map fun j ↦ byte.toNat.testBit (7 - j)

/-- The bits of bytes. -/
def bytesBits (bytes : List UInt8) : List Bool := bytes.flatMap byteBits

/-- The bytes that a binary string of whole bytes is cut into. -/
def bitsBytes (bits : List Bool) : List UInt8 :=
  (List.range (bits.length / 8)).map fun i ↦
    UInt8.ofNat (bitsValue ((bits.drop (8 * i)).take 8))

/-- The number that bytes stand for. -/
def bytesValue : List UInt8 → ℕ
  | [] => 0
  | byte :: bytes => byte.toNat * 256 ^ bytes.length + bytesValue bytes

/-- The bit of the weight `2 ^ i` of bytes. -/
def bitAt (bytes : List UInt8) (i : ℕ) : Bool :=
  (bytes.getD (bytes.length - 1 - i / 8) 0).toNat.testBit (i % 8)

/-- The lowest bytes of an integer. -/
def integerBytes (n : ℕ) (x : ℤ) : List UInt8 := (signedBytes n x).map UInt8.ofBitVec

theorem bitsValue_append (bits bits' : List Bool) :
    bitsValue (bits ++ bits') = bitsValue bits * 2 ^ bits'.length + bitsValue bits' := by
  induction bits with
  | nil => rw [List.nil_append, bitsValue, Nat.zero_mul, Nat.zero_add]
  | cons bit bits ih =>
    rw [List.cons_append, bitsValue, bitsValue, ih, List.length_append, pow_add]
    ring

theorem bitsValue_lt (bits : List Bool) : bitsValue bits < 2 ^ bits.length := by
  induction bits with
  | nil => decide
  | cons bit bits ih =>
    have hbit : bit.toNat ≤ 1 := bit.toNat_le
    have hmul : bit.toNat * 2 ^ bits.length ≤ 1 * 2 ^ bits.length := Nat.mul_le_mul_right _ hbit
    rw [bitsValue, List.length_cons, pow_succ]
    omega

/-- Binary strings of one length are told apart by their number. -/
theorem bitsValue_injective {bits bits' : List Bool} (hlength : bits.length = bits'.length)
    (h : bitsValue bits = bitsValue bits') : bits = bits' := by
  induction bits generalizing bits' with
  | nil => exact (List.length_eq_zero_iff.mp hlength.symm).symm
  | cons bit bits ih =>
    cases bits' with
    | nil => cases hlength
    | cons bit' bits' =>
      have htail : bits.length = bits'.length := Nat.succ.inj hlength
      have hlt := bitsValue_lt bits
      have hlt' := bitsValue_lt bits'
      rw [bitsValue, bitsValue, ← htail] at h
      rw [← htail] at hlt'
      cases bit <;> cases bit' <;>
        simp only [Bool.toNat_false, Bool.toNat_true, Nat.zero_mul, Nat.one_mul] at h
      case false.false => rw [ih htail (by omega)]
      case true.true => rw [ih htail (by omega)]
      case false.true => omega
      case true.false => omega

@[simp] theorem length_byteBits (byte : UInt8) : (byteBits byte).length = 8 := by
  rw [byteBits, List.length_map, List.length_range]

theorem bitsValue_byteBits (byte : UInt8) : bitsValue (byteBits byte) = byte.toNat := by
  have hall : ∀ n < 256, bitsValue ((List.range 8).map fun j ↦ n.testBit (7 - j)) = n := by
    decide +kernel
  exact hall byte.toNat byte.toNat_lt

@[simp] theorem length_bytesBits (bytes : List UInt8) :
    (bytesBits bytes).length = 8 * bytes.length := by
  induction bytes with
  | nil => rfl
  | cons byte bytes ih =>
    rw [bytesBits, List.flatMap_cons, List.length_append, length_byteBits, List.length_cons,
      ← bytesBits, ih]
    ring

theorem pow_bytes (n : ℕ) : 256 ^ n = 2 ^ (8 * n) := by
  rw [pow_mul]
  norm_num

theorem bitsValue_bytesBits (bytes : List UInt8) :
    bitsValue (bytesBits bytes) = bytesValue bytes := by
  induction bytes with
  | nil => rfl
  | cons byte bytes ih =>
    rw [bytesBits, List.flatMap_cons, bitsValue_append, ← bytesBits, ih, bitsValue_byteBits,
      length_bytesBits, bytesValue, pow_bytes]

/-- Bytes are cut from their bits. -/
theorem bitsBytes_bytesBits (bytes : List UInt8) : bitsBytes (bytesBits bytes) = bytes := by
  have hlength (bytes : List UInt8) : (bytesBits bytes).length / 8 = bytes.length := by
    rw [length_bytesBits, Nat.mul_div_cancel_left _ (by decide)]
  rw [bitsBytes, hlength]
  induction bytes with
  | nil => rfl
  | cons byte bytes ih =>
    have hcons : bytesBits (byte :: bytes) = byteBits byte ++ bytesBits bytes := rfl
    have htail (i : ℕ) : (bytesBits (byte :: bytes)).drop (8 * (i + 1)) =
        (bytesBits bytes).drop (8 * i) := by
      rw [hcons, Nat.mul_add, Nat.add_comm, ← List.drop_drop,
        List.drop_left' (length_byteBits byte)]
    rw [List.length_cons, List.range_succ_eq_map, List.map_cons, List.map_map]
    refine congrArg₂ _ ?_ ?_
    · rw [Nat.mul_zero, List.drop_zero, hcons, List.take_left' (length_byteBits byte),
        bitsValue_byteBits, UInt8.ofNat_toNat]
    · refine Eq.trans (List.map_congr_left fun i _ ↦ ?_) ih
      simp only [Function.comp_apply, Nat.succ_eq_add_one, htail]

theorem bytesValue_lt (bytes : List UInt8) : bytesValue bytes < 2 ^ (8 * bytes.length) := by
  rw [← bitsValue_bytesBits, ← length_bytesBits]
  exact bitsValue_lt _

/-- Bytes are told apart by their number. -/
theorem bytesValue_injective {bytes bytes' : List UInt8} (hlength : bytes.length = bytes'.length)
    (h : bytesValue bytes = bytesValue bytes') : bytes = bytes' := by
  have hbits : bytesBits bytes = bytesBits bytes' := by
    apply bitsValue_injective
    · rw [length_bytesBits, length_bytesBits, hlength]
    · rw [bitsValue_bytesBits, bitsValue_bytesBits, h]
  rw [← bitsBytes_bytesBits bytes, hbits, bitsBytes_bytesBits]

/-- The bits of bytes are those of their number. -/
theorem bitAt_eq_testBit {bytes : List UInt8} {i : ℕ} (hi : i < 8 * bytes.length) :
    bitAt bytes i = (bytesValue bytes).testBit i := by
  induction bytes with
  | nil => simp at hi
  | cons byte bytes ih =>
    have hpow : byte.toNat * 256 ^ bytes.length = 2 ^ (8 * bytes.length) * byte.toNat := by
      rw [pow_bytes, Nat.mul_comm]
    rw [bytesValue, hpow, Nat.testBit_two_pow_mul_add _ (bytesValue_lt bytes)]
    rw [List.length_cons] at hi
    by_cases hlow : i < 8 * bytes.length
    · have hindex : (byte :: bytes).length - 1 - i / 8 = bytes.length - 1 - i / 8 + 1 := by
        rw [List.length_cons]
        omega
      rw [if_pos hlow, ← ih hlow, bitAt, bitAt, hindex, List.getD_cons_succ]
    · have hindex : (byte :: bytes).length - 1 - i / 8 = 0 := by
        rw [List.length_cons]
        omega
      have hbit : i - 8 * bytes.length = i % 8 := by omega
      rw [if_neg hlow, bitAt, hindex, List.getD_cons_zero, hbit]

@[simp] theorem length_integerBytes (n : ℕ) (x : ℤ) : (integerBytes n x).length = n := by
  rw [integerBytes, List.length_map, length_signedBytes]

/-- The bytes of an integer stand for its residue. -/
theorem bytesValue_integerBytes (n : ℕ) (x : ℤ) :
    (bytesValue (integerBytes n x) : ℤ) = x % 2 ^ (8 * n) := by
  have hvalue (bytes : List (BitVec 8)) :
      (bytesValue (bytes.map UInt8.ofBitVec) : ℤ) = unsignedValue bytes := by
    induction bytes with
    | nil => rfl
    | cons byte bytes ih =>
      rw [List.map_cons, bytesValue, unsignedValue, Nat.cast_add, ih, List.length_map]
      push_cast
      rfl
  rw [integerBytes, hvalue, unsignedValue_signedBytes, pow_mul]
  norm_num

theorem ofInt_add_mul (q m : ℤ) : BitVec.ofInt 8 (q + 256 * m) = BitVec.ofInt 8 q := by
  apply BitVec.eq_of_toInt_eq
  rw [BitVec.toInt_ofInt, BitVec.toInt_ofInt]
  exact Int.add_mul_bmod_self_left _ _ _

/-- Bytes that agree below their top bits agree once these are set. -/
theorem ofInt_or_signBit {q : ℤ} (hlo : -128 ≤ q) (hhi : q < 0) (m : ℤ) :
    UInt8.ofBitVec (BitVec.ofInt 8 (q + 128 * m)) ||| 128 = UInt8.ofBitVec (BitVec.ofInt 8 q) := by
  have hall : ∀ q : ℤ, -128 ≤ q → q < 0 → ∀ r : ℤ, 0 ≤ r → r < 2 →
      UInt8.ofBitVec (BitVec.ofInt 8 (q + 128 * r)) ||| 128 = UInt8.ofBitVec (BitVec.ofInt 8 q) := by
    decide +kernel
  have hsplit : q + 128 * m = q + 128 * (m % 2) + 256 * (m / 2) := by omega
  rw [hsplit, ofInt_add_mul]
  exact hall q hlo hhi (m % 2) (by omega) (by omega)

/-- The bytes of an integer are those of its residue. -/
theorem integerBytes_congr {n : ℕ} {x y : ℤ} (h : (256 : ℤ) ^ n ∣ x - y) :
    integerBytes n x = integerBytes n y := by
  induction n with
  | zero => rfl
  | succ n ih =>
    obtain ⟨m, hm⟩ := h
    have hx : x = y + 256 ^ n * (256 * m) := by
      rw [pow_succ] at hm
      linear_combination hm
    have hpow : (256 : ℤ) ^ n ≠ 0 := by positivity
    have hquotient : x / 256 ^ n = y / 256 ^ n + 256 * m := by
      rw [hx, Int.add_mul_ediv_left _ _ hpow]
    have hbyte : BitVec.ofInt 8 (x / 256 ^ n) = BitVec.ofInt 8 (y / 256 ^ n) := by
      rw [hquotient, ofInt_add_mul]
    have htail : integerBytes n x = integerBytes n y := ih ⟨256 * m, by rw [hx]; ring⟩
    rw [integerBytes, integerBytes, signedBytes, signedBytes, hbyte, List.map_cons, List.map_cons]
    exact congrArg _ htail

/-- The top bit of a negative integer can be set after the others are written. -/
theorem integerBytes_or_signBit {n : ℕ} {x y : ℤ} (hlo : -(128 * 256 ^ n) ≤ y) (hhi : y < 0)
    (h : (128 * 256 ^ n : ℤ) ∣ x - y) :
    ∃ byte bytes, integerBytes (n + 1) x = byte :: bytes ∧
      integerBytes (n + 1) y = (byte ||| 128) :: bytes := by
  obtain ⟨m, hm⟩ := h
  have hx : x = y + 256 ^ n * (128 * m) := by linear_combination hm
  have hpow : (0 : ℤ) < 256 ^ n := by positivity
  have hquotient : x / 256 ^ n = y / 256 ^ n + 128 * m := by
    rw [hx, Int.add_mul_ediv_left _ _ hpow.ne']
  have hlow : -128 ≤ y / 256 ^ n := by
    rw [Int.le_ediv_iff_mul_le hpow]
    omega
  have hhigh : y / 256 ^ n < 0 := by
    rw [Int.ediv_lt_iff_lt_mul hpow]
    omega
  refine ⟨UInt8.ofBitVec (BitVec.ofInt 8 (x / 256 ^ n)), integerBytes n x, rfl, ?_⟩
  have htail : integerBytes n y = integerBytes n x :=
    integerBytes_congr ⟨-(128 * m), by rw [hx]; ring⟩
  have hbyte : UInt8.ofBitVec (BitVec.ofInt 8 (x / 256 ^ n)) ||| 128 =
      UInt8.ofBitVec (BitVec.ofInt 8 (y / 256 ^ n)) := by
    rw [hquotient, ofInt_or_signBit hlow hhigh]
  rw [hbyte, ← htail]
  rfl

/-- The residue of an integer in two's complement. -/
theorem emod_two_pow_succ {n : ℕ} {x : ℤ} (hlo : -2 ^ n ≤ x) (hhi : x < 2 ^ n) :
    x % 2 ^ (n + 1) = if x < 0 then x + 2 ^ (n + 1) else x := by
  have hpow : (2 : ℤ) ^ (n + 1) = 2 * 2 ^ n := pow_succ' 2 n
  split
  case isTrue hneg =>
    rw [← Int.add_emod_right, Int.emod_eq_of_lt (by omega) (by omega)]
  case isFalse hneg => rw [Int.emod_eq_of_lt (by omega) (by omega)]

/-- The bits of the residue: the top one is the sign, the others are those of the number above the
minimum. -/
theorem testBit_emod_two_pow_succ {n : ℕ} {x : ℤ} (hlo : -2 ^ n ≤ x) (hhi : x < 2 ^ n) {i : ℕ}
    (hi : i < n + 1) :
    (x % 2 ^ (n + 1)).toNat.testBit i =
      if i = n then decide (x < 0)
      else if 0 ≤ x then x.toNat.testBit i
      else ((2 ^ n + x) % 2 ^ (n + 1)).toNat.testBit i := by
  have hpow : (2 : ℤ) ^ (n + 1) = 2 * 2 ^ n := pow_succ' 2 n
  have hcast : ((2 ^ n : ℕ) : ℤ) = 2 ^ n := Nat.cast_pow 2 n
  rw [emod_two_pow_succ hlo hhi]
  by_cases hneg : x < 0
  · have hsum : (x + 2 ^ (n + 1)).toNat = 2 ^ n + (2 ^ n + x).toNat := by omega
    have hlt : (2 ^ n + x).toNat < 2 ^ n := by omega
    rw [if_pos hneg, hsum]
    by_cases htop : i = n
    · rw [if_pos htop, htop, Nat.testBit_two_pow_add_eq, Nat.testBit_lt_two_pow hlt]
      simpa using hneg
    · rw [if_neg htop, if_neg (by omega), Nat.testBit_two_pow_add_gt (by omega),
        Int.emod_eq_of_lt (by omega) (by omega)]
  · rw [if_neg hneg, if_pos (not_lt.mp hneg)]
    split
    case isTrue htop =>
      have hlt : x.toNat < 2 ^ n := by omega
      rw [htop, Nat.testBit_lt_two_pow hlt, decide_eq_false hneg]
    case isFalse => rfl

/-! ### Bits of integers -/

/-- The residue has the low bits of an integer in two's complement. -/
theorem testBit_toNat_emod (x : ℤ) {k i : ℕ} (hi : i < k) :
    (x % 2 ^ k).toNat.testBit i = x.testBit i := by
  cases x with
  | ofNat m =>
    have hcast : ((m : ℤ) % 2 ^ k).toNat = m % 2 ^ k := by
      rw [← Int.toNat_natCast (m % 2 ^ k)]
      push_cast
      rfl
    rw [Int.ofNat_eq_natCast, hcast, Nat.testBit_mod_two_pow, decide_eq_true hi, Bool.true_and]
    rfl
  | negSucc m =>
    have hpow : 0 < 2 ^ k := by positivity
    have hlt : m % 2 ^ k < 2 ^ k := Nat.mod_lt m hpow
    have hcast : (Int.negSucc m % 2 ^ k).toNat = 2 ^ k - (m % 2 ^ k + 1) := by
      have hemod := Int.negSucc_emod m (b := 2 ^ k) (by positivity)
      have hmod : ((m % 2 ^ k : ℕ) : ℤ) = (m : ℤ) % 2 ^ k := by push_cast; rfl
      have hnat : ((2 ^ k : ℕ) : ℤ) = 2 ^ k := by push_cast; rfl
      omega
    rw [hcast, Nat.testBit_two_pow_sub_succ hlt, Nat.testBit_mod_two_pow]
    simp only [hi, decide_true, Bool.true_and, Int.testBit]

/-- Integers with the same residue have the same low bits. -/
theorem testBit_congr {x y : ℤ} {k i : ℕ} (h : x % 2 ^ k = y % 2 ^ k) (hi : i < k) :
    x.testBit i = y.testBit i := by
  rw [← testBit_toNat_emod x hi, ← testBit_toNat_emod y hi, h]

/-- Above its width, an unsigned number has no bits. -/
theorem testBit_of_lt {x : ℤ} {k i : ℕ} (hlo : 0 ≤ x) (hhi : x < 2 ^ k) (hi : k ≤ i) :
    x.testBit i = false := by
  obtain ⟨m, rfl⟩ := Int.eq_ofNat_of_zero_le hlo
  have hm : m < 2 ^ k := by exact_mod_cast hhi
  exact Nat.testBit_lt_two_pow (hm.trans_le (Nat.pow_le_pow_right (by decide) hi))

/-- From its width on, a number has the bit of its sign. -/
theorem testBit_of_bounds {x : ℤ} {k i : ℕ} (hlo : -2 ^ k ≤ x) (hhi : x < 2 ^ k) (hi : k ≤ i) :
    x.testBit i = decide (x < 0) := by
  by_cases hneg : x < 0
  · obtain ⟨m, rfl⟩ := Int.eq_negSucc_of_lt_zero hneg
    have hm : m < 2 ^ k := by
      have hnat : ((2 ^ k : ℕ) : ℤ) = 2 ^ k := by push_cast; rfl
      omega
    have hbit : m.testBit i = false :=
      Nat.testBit_lt_two_pow (hm.trans_le (Nat.pow_le_pow_right (by decide) hi))
    rw [decide_eq_true hneg, Int.testBit, hbit, Bool.not_false]
  · rw [decide_eq_false hneg, testBit_of_lt (not_lt.mp hneg) hhi hi]

/-- The bits of the lowest bytes of an integer are its low bits. -/
theorem bitAt_integerBytes {n i : ℕ} (x : ℤ) (hi : i < 8 * n) :
    bitAt (integerBytes n x) i = x.testBit i := by
  rw [bitAt_eq_testBit (by rwa [length_integerBytes]), ← testBit_toNat_emod x hi,
    ← bytesValue_integerBytes, Int.toNat_natCast]

/-- Further bytes of a number are those of its sign. -/
theorem integerBytes_add {n : ℕ} {x : ℤ} (hlo : -256 ^ n ≤ x) (hhi : x < 256 ^ n) (m : ℕ) :
    integerBytes (m + n) x =
      List.replicate m (if x < 0 then 255 else 0) ++ integerBytes n x := by
  induction m with
  | zero => rw [Nat.zero_add, List.replicate_zero, List.nil_append]
  | succ m ih =>
    have hpow : (0 : ℤ) < 256 ^ (m + n) := by positivity
    have hle : (256 : ℤ) ^ n ≤ 256 ^ (m + n) := pow_le_pow_right₀ (by norm_num) (by omega)
    have hbyte : UInt8.ofBitVec (BitVec.ofInt 8 (x / 256 ^ (m + n))) =
        if x < 0 then 255 else 0 := by
      split
      case isTrue hneg =>
        have hquotient : x / 256 ^ (m + n) = -1 := by
          apply le_antisymm
          · have hlt := Int.ediv_lt_iff_lt_mul hpow (a := x) (b := 0)
            omega
          · rw [Int.le_ediv_iff_mul_le hpow]
            omega
        rw [hquotient]
        rfl
      case isFalse hneg =>
        rw [Int.ediv_eq_zero_of_lt (by omega) (by omega)]
        rfl
    have hcons : integerBytes (m + 1 + n) x =
        UInt8.ofBitVec (BitVec.ofInt 8 (x / 256 ^ (m + n))) :: integerBytes (m + n) x := by
      rw [Nat.add_right_comm]
      rfl
    rw [hcons, hbyte, ih, List.replicate_succ, List.cons_append]

end Safrn.Base

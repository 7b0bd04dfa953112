import Mathlib.Data.Int.Log
import Mathlib.Data.Rat.Floor
import Safrn.Cuckoo.Table
import Safrn.Java.BigInteger

/-!
# The size of the subtables

Models the fields `subtableSize`, `subtableBits`, `xBits` and `rightBits` that the globals of both
servers derive from their configuration (`FrontServerGlobals.java:450-500`,
`BackServerGlobals.java:537-594`). The required size is rounded up to a power of two by clearing its
lowest bits one after another.
-/

namespace Safrn.Cuckoo

open Safrn.Java

/-! ## Floating point -/

/-- A `double`, without the sign of a zero. -/
inductive Double
  | nan
  | infinite (negative : Bool)
  | finite (x : ℚ)

/-- The nearest integer, the even one of two. -/
def roundHalfEven (x : ℚ) : ℤ :=
  let rest := x - ⌊x⌋
  if rest < 1 / 2 ∨ rest = 1 / 2 ∧ Even ⌊x⌋ then ⌊x⌋ else ⌊x⌋ + 1

namespace Double

/-- The nearest `double`: 53 bits from the highest one on, and none below `2^(-1074)`. -/
def ofRat (x : ℚ) : Double :=
  if x = 0 then finite 0
  else
    let unit : ℚ := 2 ^ max (Int.log 2 |x| - 52) (-1074)
    let nearest := roundHalfEven (x / unit) * unit
    if |nearest| < 2 ^ 1024 then finite nearest else infinite (x < 0)

/-- `x * k` for a positive `long` that is a `double`. -/
def scale (x : Double) (k : ℕ) : Double :=
  match x with
  | finite x => ofRat (x * k)
  | x => x

/-- `Math.round`. -/
def round : Double → BitVec 64
  | nan => 0
  | infinite negative => if negative then BitVec.intMin 64 else BitVec.intMax 64
  | finite x =>
    let rounded := ⌊x + 1 / 2⌋
    if rounded ≤ -2 ^ 63 then BitVec.intMin 64
    else if 2 ^ 63 ≤ rounded then BitVec.intMax 64
    else BitVec.ofInt 64 rounded

end Double

/-! ## The loop -/

/-- `n.and(n.subtract(BigInteger.ONE))`. -/
def clearLowest (n : BigInteger) : Except Status BigInteger := do
  n.and (← n.subtract .ONE)

theorem clearLowest_value {n m : BigInteger} (h : clearLowest n = .ok m) :
    m.value = Int.land n.value (n.value - 1) := by
  obtain ⟨less, hless, hand⟩ := bind_eq_ok.mp h
  rw [BigInteger.ofInt_eq_ok.mp hand, BigInteger.ofInt_eq_ok.mp hless]
  rfl

theorem zero_land (n : ℤ) : Int.land 0 n = 0 := by
  cases n with
  | ofNat b => exact congrArg Int.ofNat (Nat.zero_and b)
  | negSucc b =>
    apply congrArg Int.ofNat
    apply Nat.eq_of_testBit_eq
    simp [Nat.testBit_ldiff]

theorem land_natCast_sub_one (a : ℕ) : Int.land a (a - 1) = (a &&& (a - 1) : ℕ) := by
  cases a with
  | zero => exact zero_land _
  | succ b =>
    rw [show ((b + 1 : ℕ) : ℤ) - 1 = (b : ℕ) by simp]
    rfl

/-- A bit is cleared below zero as well, where this goes on up to the limit of the numbers. -/
theorem land_sub_one_lt {n : ℤ} (h : n ≠ 0) : Int.land n (n - 1) < n := by
  cases n with
  | ofNat a =>
    have hle : a &&& (a - 1) ≤ a - 1 := Nat.and_le_right
    have ha : a ≠ 0 := fun ha ↦ h (congrArg Int.ofNat ha)
    rw [Int.ofNat_eq_natCast, land_natCast_sub_one]
    omega
  | negSucc a =>
    have hle : a + 1 ≤ a ||| (a + 1) := Nat.right_le_or
    have hland : Int.land (Int.negSucc a) (Int.negSucc a - 1) = Int.negSucc (a ||| (a + 1)) := rfl
    rw [hland, Int.negSucc_eq, Int.negSucc_eq]
    omega

/-- The `do` loop. -/
def clearLoop (n : BigInteger) : Except Status BigInteger :=
  match _hm : clearLowest n with
  | .error status => .error status
  | .ok m =>
    match _hrest : clearLowest m with
    | .error status => .error status
    | .ok rest => if rest.signum ≠ 0 then clearLoop m else .ok m
termination_by (n.value + 2 ^ Integer.MAX_VALUE).toNat
decreasing_by
  have hn : n.value ≠ 0 := by
    intro hn
    have hm := clearLowest_value _hm
    rw [hn, zero_land] at hm
    have hrest := clearLowest_value _hrest
    rw [hm, zero_land] at hrest
    simp_all [BigInteger.signum]
  have hlt := clearLowest_value _hm ▸ land_sub_one_lt hn
  have hlimit := m.neg_limit_le
  generalize (2 : ℤ) ^ Integer.MAX_VALUE = limit at hlimit ⊢
  omega

/-- One round of the loop. -/
theorem clearLoop_eq {n m rest : BigInteger} (hm : clearLowest n = .ok m)
    (hrest : clearLowest m = .ok rest) :
    clearLoop n = if rest.signum ≠ 0 then clearLoop m else .ok m := by
  rw [clearLoop]
  split
  · simp_all
  · split <;> simp_all

/-- What the required size is rounded up to. -/
def roundUp (n : BigInteger) : Except Status BigInteger := do
  if (← clearLowest n).signum ≠ 0 then
    (← clearLoop n).multiply (.valueOf 2)
  else return n

/-! ## The globals -/

/-- The fields of the globals. -/
structure Sizing where
  subtableSize : BigInteger
  subtableBits : ℤ
  xBits : ℤ
  rightBits : ℤ

/-- `k`. -/
def k : ℕ := 1000000000

/-- The first value of `n`: the bound, scaled by the slop. -/
def requiredSize (incomeSizeBound : BigInteger) (hashSlop : Double) : Except Status BigInteger := do
  let product ← incomeSizeBound.multiply (.valueOf (hashSlop.scale k).round)
  product.divide (.valueOf (BitVec.ofNat 64 k))

/-- The fields of either server. -/
def sizing (incomeSizeBound : BigInteger) (hashSlop : Double) : Except Status Sizing := do
  let n ← requiredSize incomeSizeBound hashSlop
  let subtableSize ← roundUp n
  let subtableBits : ℤ := subtableSize.bitLength - 1
  let xBits := 31
  let rightBits := xBits - subtableBits
  if rightBits ≤ 0 then .error (.failure "")
  else return ⟨subtableSize, subtableBits, xBits, rightBits⟩

/-- The fields of `FrontServerGlobals`. -/
def FrontServerGlobals.sizing : BigInteger → Double → Except Status Sizing := Cuckoo.sizing

/-- The fields of `BackServerGlobals`. -/
def BackServerGlobals.sizing : BigInteger → Double → Except Status Sizing := Cuckoo.sizing

/-! ## Rounding up -/

/-- What is not a power of two keeps its highest bit. -/
theorem log2_and_sub_one {a : ℕ} (h0 : a ≠ 0) (h : ¬a.isPowerOfTwo) :
    a &&& (a - 1) ≠ 0 ∧ (a &&& (a - 1)).log2 = a.log2 := by
  have hge : 2 ^ a.log2 ≤ a &&& (a - 1) :=
    Nat.ge_two_pow_of_testBit (Nat.and_sub_one_testBit_log2 h0 h)
  have hle : a &&& (a - 1) ≤ a := Nat.and_le_left
  have hne : a &&& (a - 1) ≠ 0 := Nat.pos_iff_ne_zero.mp (lt_of_lt_of_le (Nat.two_pow_pos _) hge)
  exact ⟨hne, (Nat.log2_eq_iff hne).mpr ⟨hge, lt_of_le_of_lt hle Nat.lt_log2_self⟩⟩

theorem clearLowest_natCast {n : BigInteger} {a : ℕ} (h : n.value = a) :
    ∃ m, clearLowest n = .ok m ∧ m.value = (a &&& (a - 1) : ℕ) := by
  obtain ⟨less, hless⟩ : ∃ less, n.subtract .ONE = .ok less := by
    by_cases h0 : a = 0
    · apply BigInteger.exists_ofInt .ONE
      rw [h, h0]
      decide
    · apply BigInteger.exists_ofInt n
      rw [h]
      change ((a : ℤ) - 1).natAbs ≤ (a : ℤ).natAbs
      omega
  have hvalue : Int.land n.value less.value = (a &&& (a - 1) : ℕ) := by
    rw [BigInteger.ofInt_eq_ok.mp hless, h]
    exact land_natCast_sub_one a
  obtain ⟨m, hm⟩ : ∃ m, n.and less = .ok m := by
    apply BigInteger.exists_ofInt n
    rw [hvalue, h]
    exact Nat.and_le_left
  refine ⟨m, ?_, (BigInteger.ofInt_eq_ok.mp hm).trans hvalue⟩
  rw [clearLowest, hless]
  exact hm

/-- The loop leaves the highest bit of what is not a power of two. -/
theorem clearLoop_natCast (a : ℕ) : ∀ n : BigInteger, n.value = a → a ≠ 0 → ¬a.isPowerOfTwo →
    ∃ m, clearLoop n = .ok m ∧ m.value = (2 ^ a.log2 : ℕ) := by
  induction a using Nat.strongRecOn with
  | _ a ih =>
    intro n hn h0 hpow
    obtain ⟨hne, hlog⟩ := log2_and_sub_one h0 hpow
    obtain ⟨m, hm, hmv⟩ := clearLowest_natCast hn
    obtain ⟨rest, hrest, hrestv⟩ := clearLowest_natCast hmv
    rw [clearLoop_eq hm hrest, BigInteger.signum, hrestv, ← hlog]
    by_cases hm2 : (a &&& (a - 1)).isPowerOfTwo
    · obtain ⟨j, hj⟩ := hm2
      rw [if_neg, hj, Nat.log2_two_pow, ← hj]
      · exact ⟨m, rfl, hmv⟩
      · rw [(Nat.and_sub_one_eq_zero_iff_isPowerOfTwo hne).mpr ⟨j, hj⟩]
        decide
    · have hlt : a &&& (a - 1) < a :=
        lt_of_le_of_lt Nat.and_le_right (Nat.sub_lt (Nat.pos_of_ne_zero h0) Nat.one_pos)
      rw [if_pos]
      · exact ih _ hlt m hmv hne hm2
      · rw [ne_eq, Int.sign_eq_zero_iff_zero, Nat.cast_eq_zero,
          Nat.and_sub_one_eq_zero_iff_isPowerOfTwo hne]
        exact hm2

/-- Below zero the loop ends at the limit of the numbers only. -/
theorem clearLoop_ne_ok (n : BigInteger) (h : n.value < 0) (m : BigInteger) :
    clearLoop n ≠ .ok m := by
  fun_induction clearLoop n with
  | case1 n status hm => simp
  | case2 n l hm status hrest => simp
  | case3 n l hm rest hrest hsign ih =>
    have hl := clearLowest_value hm ▸ land_sub_one_lt h.ne
    exact ih (hl.trans h)
  | case4 n l hm rest hrest hsign =>
    have hl := clearLowest_value hm ▸ land_sub_one_lt h.ne
    have hr := clearLowest_value hrest ▸ land_sub_one_lt (hl.trans h).ne
    exact absurd (Int.sign_eq_zero_iff_zero.mp (not_not.mp hsign)) (hr.trans (hl.trans h)).ne

/-- The powers of two that have room for a number. -/
def powersFrom (n : ℤ) : Set ℤ := {x | n ≤ x ∧ ∃ j : ℕ, x = 2 ^ j}

/-- A power of two is the least with room for what is above its half. -/
theorem isLeast_powersFrom {a j : ℕ} (hle : a ≤ 2 ^ j) (hlt : ∀ i < j, 2 ^ i < a) :
    IsLeast (powersFrom a) (2 ^ j) := by
  constructor
  · exact ⟨by exact_mod_cast hle, j, rfl⟩
  · rintro x ⟨hx, i, rfl⟩
    have hx : a ≤ 2 ^ i := by exact_mod_cast hx
    have hji : j ≤ i := by
      by_contra hij
      exact absurd (hlt i (by omega)) (by omega)
    exact_mod_cast Nat.pow_le_pow_right Nat.two_pos hji

theorem roundUp_of_pos {n m : BigInteger} (h : 0 < n.value) (hm : roundUp n = .ok m) :
    IsLeast (powersFrom n.value) m.value := by
  obtain ⟨a, ha⟩ := Int.eq_ofNat_of_zero_le h.le
  have h0 : a ≠ 0 := by omega
  obtain ⟨rest, hrest, hrestv⟩ := clearLowest_natCast ha
  obtain ⟨rest', hrest', hm⟩ := bind_eq_ok.mp hm
  obtain rfl : rest = rest' := Except.ok.inj (hrest.symm.trans hrest')
  rw [ha]
  by_cases hpow : a.isPowerOfTwo
  · rw [(Nat.and_sub_one_eq_zero_iff_isPowerOfTwo h0).mpr hpow] at hrestv
    rw [BigInteger.signum, hrestv] at hm
    obtain rfl : n = m := Except.ok.inj hm
    obtain ⟨j, rfl⟩ := hpow
    rw [ha]
    push_cast
    exact isLeast_powersFrom le_rfl fun i hi ↦ Nat.pow_lt_pow_right Nat.one_lt_two hi
  · obtain ⟨highest, hhighest, hvalue⟩ := clearLoop_natCast a n ha h0 hpow
    rw [if_pos, hhighest] at hm
    · have hdouble := BigInteger.ofInt_eq_ok.mp hm
      have hlt : 2 ^ a.log2 < a :=
        lt_of_le_of_ne (Nat.log2_self_le h0) fun heq ↦ hpow ⟨a.log2, heq.symm⟩
      rw [hdouble, hvalue]
      push_cast
      change IsLeast _ ((2 : ℤ) ^ a.log2 * 2)
      rw [← pow_succ]
      apply isLeast_powersFrom Nat.lt_log2_self.le
      intro i hi
      exact lt_of_le_of_lt (Nat.pow_le_pow_right Nat.two_pos (Nat.le_of_lt_succ hi)) hlt
    · rw [BigInteger.signum, hrestv, ne_eq, Int.sign_eq_zero_iff_zero, Nat.cast_eq_zero,
        Nat.and_sub_one_eq_zero_iff_isPowerOfTwo h0]
      exact hpow

theorem roundUp_of_neg {n : BigInteger} (h : n.value < 0) (m : BigInteger) :
    roundUp n ≠ .ok m := by
  intro hm
  obtain ⟨rest, hrest, hm⟩ := bind_eq_ok.mp hm
  have hlt := clearLowest_value hrest ▸ land_sub_one_lt h.ne
  rw [if_pos] at hm
  · obtain ⟨highest, hhighest, -⟩ := bind_eq_ok.mp hm
    exact clearLoop_ne_ok n h highest hhighest
  · rw [BigInteger.signum, ne_eq, Int.sign_eq_zero_iff_zero]
    exact (hlt.trans h).ne

theorem roundUp_of_small {n : BigInteger} (h : n.value = 0 ∨ n.value = 1) : roundUp n = .ok n := by
  obtain ⟨a, ha, hand⟩ : ∃ a : ℕ, n.value = a ∧ a &&& (a - 1) = 0 := by
    rcases h with h | h
    · exact ⟨0, h, rfl⟩
    · exact ⟨1, h, rfl⟩
  obtain ⟨rest, hrest, hrestv⟩ := clearLowest_natCast ha
  rw [roundUp, hrest]
  change (if rest.signum ≠ 0 then _ else Except.ok n) = _
  rw [if_neg]
  rw [BigInteger.signum, hrestv, hand]
  decide

/-! ## The globals -/

/-- The fields fit the required size and the hashes of the tables. -/
structure Sized (s : Sizing) (required : ℤ) : Prop where
  least : IsLeast (powersFrom required) s.subtableSize.value
  subtableBits_bounds : 1 ≤ s.subtableBits ∧ s.subtableBits ≤ 30
  rightBits_bounds : 1 ≤ s.rightBits ∧ s.rightBits ≤ 30
  hashParams : ∀ hashCiphers, ∃ p : HashParams, p.hashCiphers = hashCiphers ∧
    p.subtableBits = s.subtableBits ∧ p.xBits = s.xBits ∧ p.rightBits = s.rightBits ∧
    p.subtableSize = s.subtableSize.value

/-- The fields of a power of two. -/
theorem bitLength_of_two_pow {n : BigInteger} {j : ℕ} (h : n.value = 2 ^ j) :
    n.bitLength = j + 1 := by
  rw [BigInteger.bitLength, h, if_neg (not_lt.mpr (by positivity))]
  exact Nat.size_pow

theorem sizing_eq_ok {incomeSizeBound : BigInteger} {hashSlop : Double} {s : Sizing} :
    sizing incomeSizeBound hashSlop = .ok s ↔ ∃ n subtableSize,
      requiredSize incomeSizeBound hashSlop = .ok n ∧ roundUp n = .ok subtableSize ∧
      subtableSize.bitLength < 32 ∧
      s = ⟨subtableSize, subtableSize.bitLength - 1, 31, 31 - (subtableSize.bitLength - 1)⟩ := by
  simp only [sizing, bind_eq_ok]
  constructor
  · rintro ⟨n, hn, subtableSize, hsize, hs⟩
    split at hs
    · contradiction
    · exact ⟨n, subtableSize, hn, hsize, by omega, (Except.ok.inj hs).symm⟩
  · rintro ⟨n, subtableSize, hn, hsize, hlt, rfl⟩
    refine ⟨n, hn, subtableSize, hsize, ?_⟩
    rw [if_neg (by omega)]
    rfl

/-- What the globals accept from two on is sized. -/
theorem sized_of_two_le {n subtableSize : BigInteger} (hn : 2 ≤ n.value)
    (hsize : roundUp n = .ok subtableSize) (hlt : subtableSize.bitLength < 32) :
    Sized ⟨subtableSize, subtableSize.bitLength - 1, 31, 31 - (subtableSize.bitLength - 1)⟩
      n.value := by
  have hleast := roundUp_of_pos (by omega) hsize
  obtain ⟨hle, j, hj⟩ := hleast.1
  have hbits := bitLength_of_two_pow hj
  have hj0 : j ≠ 0 := by
    rintro rfl
    rw [hj] at hle
    omega
  refine ⟨hleast, ?_, ?_, fun hashCiphers ↦ ?_⟩
  · dsimp only
    omega
  · dsimp only
    omega
  refine ⟨⟨j, 31, hashCiphers, by omega, by omega, by decide, by decide, by omega⟩, rfl, ?_, rfl,
    ?_, ?_⟩
  · simp [hbits]
  · simp only [HashParams.rightBits, hbits]
    omega
  · rw [HashParams.subtableSize_eq, hj]
    push_cast
    rfl

/-- For one configuration, both servers have the same fields, and those accepted are sized. -/
def SizesTables (incomeSizeBound : BigInteger) (hashSlop : Double) : Prop :=
  FrontServerGlobals.sizing incomeSizeBound hashSlop =
    BackServerGlobals.sizing incomeSizeBound hashSlop ∧
  ∀ s, FrontServerGlobals.sizing incomeSizeBound hashSlop = .ok s →
    ∃ n, requiredSize incomeSizeBound hashSlop = .ok n ∧ Sized s n.value

/-- A required size of zero or one is accepted, with less than one bit. -/
theorem not_sizesTables {incomeSizeBound : BigInteger} {hashSlop : Double} {n : BigInteger}
    (hn : requiredSize incomeSizeBound hashSlop = .ok n) (hsmall : n.value = 0 ∨ n.value = 1) :
    ¬SizesTables incomeSizeBound hashSlop := by
  rintro ⟨-, hsized⟩
  have hbits : n.bitLength ≤ 1 := by
    rcases hsmall with h | h <;> (rw [BigInteger.bitLength, h]; decide)
  obtain ⟨m, -, hm⟩ := hsized _
    (sizing_eq_ok.mpr ⟨n, n, hn, roundUp_of_small hsmall, by omega, rfl⟩)
  have hone := hm.subtableBits_bounds.1
  change (1 : ℤ) ≤ n.bitLength - 1 at hone
  omega

/-- The fields are sized exactly if the required size is neither zero nor one. -/
theorem sizesTables_iff (incomeSizeBound : BigInteger) (hashSlop : Double) :
    SizesTables incomeSizeBound hashSlop ↔
      ∀ n, requiredSize incomeSizeBound hashSlop = .ok n → n.value ≠ 0 ∧ n.value ≠ 1 := by
  constructor
  · intro h n hn
    by_contra hnot
    exact not_sizesTables hn (by omega) h
  · intro hlarge
    refine ⟨rfl, fun s hs ↦ ?_⟩
    obtain ⟨n, subtableSize, hn, hsize, hlt, rfl⟩ := sizing_eq_ok.mp hs
    refine ⟨n, hn, ?_⟩
    rcases lt_or_ge n.value 0 with hneg | hpos
    · exact absurd hsize (roundUp_of_neg hneg _)
    · have hne := hlarge n hn
      exact sized_of_two_le (by omega) hsize hlt

/-- A bound of one row is accepted, with a subtable of one cell. -/
theorem not_sizesTables_one : ¬SizesTables .ONE (.finite 1) := by
  have hround : ((Double.finite 1).scale k).round = 1000000000 := by decide +kernel
  have hproduct : BigInteger.ONE.multiply (.valueOf 1000000000) = .ok (.valueOf 1000000000) :=
    BigInteger.ofInt_eq_ok.mpr (by decide)
  have hn : requiredSize .ONE (.finite 1) = .ok .ONE := by
    rw [requiredSize, hround]
    refine bind_eq_ok.mpr ⟨_, hproduct, ?_⟩
    rw [BigInteger.divide, if_neg (by decide)]
    exact BigInteger.ofInt_eq_ok.mpr (by decide)
  exact not_sizesTables hn (.inr rfl)

end Safrn.Cuckoo

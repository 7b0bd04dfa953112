import Mathlib.Data.Nat.Log
import Mathlib.Order.Bounds.Basic
import Mathlib.SetTheory.Cardinal.Finite
import Safrn.Base.Binary
import Safrn.Base.Loop

/-!
# Numbers below a modulus from random bytes

Models both overloads of `RandomInModulus` of `Util/random_utils.cpp:82-186`. As many random bytes
as the bits of the modulus need are masked to these bits, and are drawn again until their number is
below the modulus.
-/

namespace Safrn.Util

open Safrn.Base

/-- The type of a modulus, `uint32_t` or `uint64_t`. -/
inductive ModulusType
  | uint32
  | uint64
deriving DecidableEq

/-- The bits of the type. -/
def ModulusType.width : ModulusType → ℕ
  | .uint32 => 32
  | .uint64 => 64

/-- The variables of the loop that counts the bits of the modulus. -/
@[ext] structure Sizing where
  bits : ℕ
  temp : ℕ
  mask : ℕ
deriving DecidableEq

namespace Sizing

def start : Sizing := ⟨1, 2, 1⟩

/-- A round of the loop. `temp` has 64 bits in both overloads, `mask` is of the modulus' type. -/
def next (w : ℕ) (s : Sizing) : Sizing :=
  ⟨s.bits + 1, s.temp * 2 % 2 ^ 64, s.mask * 2 % 2 ^ w ||| 1⟩

/-- The loop. -/
def grow (w modulus : ℕ) (s : Sizing) : Sizing :=
  if s.temp < modulus ∧ s.bits < w then grow w modulus (s.next w) else s
termination_by w - s.bits
decreasing_by
  have hbits : (s.next w).bits = s.bits + 1 := rfl
  omega

/-- The variables once `b` bits are counted. -/
def counted (b : ℕ) : Sizing := ⟨b, 2 ^ b % 2 ^ 64, 2 ^ b - 1⟩

theorem counted_one : counted 1 = start := rfl

theorem next_counted {w b : ℕ} (hb : b < w) : (counted b).next w = counted (b + 1) := by
  have hpos : 0 < 2 ^ b := by positivity
  have hsucc : 2 ^ (b + 1) = 2 * 2 ^ b := pow_succ' 2 b
  have hle : 2 ^ (b + 1) ≤ 2 ^ w := Nat.pow_le_pow_right (by decide) hb
  have hmask : (2 ^ b - 1) * 2 % 2 ^ w ||| 1 = 2 ^ (b + 1) - 1 := by
    have hmod : (2 ^ b - 1) * 2 % 2 ^ w = 2 ^ 1 * (2 ^ b - 1) := by
      rw [Nat.mod_eq_of_lt (by omega)]
      ring
    rw [hmod, ← Nat.two_pow_add_eq_or_of_lt (by decide)]
    omega
  ext
  · rfl
  · change 2 ^ b % 2 ^ 64 * 2 % 2 ^ 64 = 2 ^ (b + 1) % 2 ^ 64
    rw [Nat.mod_mul_mod, pow_succ 2 b]
  · exact hmask

/-- The loop stops at the bits that the modulus needs. -/
theorem grow_counted {w modulus b : ℕ} (hw : w ≤ 64) (hb : b ≤ w) (hlow : 2 ^ (b - 1) < modulus)
    (hmod : modulus < 2 ^ w) : grow w modulus (counted b) = counted (Nat.clog 2 modulus) := by
  have hclog : b ≤ Nat.clog 2 modulus := by
    have hlt := (Nat.lt_clog_iff_pow_lt (by decide)).mpr hlow
    omega
  rw [grow]
  split
  case isTrue hgo =>
    have hlow' : 2 ^ b < modulus := by
      have htemp : 2 ^ b % 2 ^ 64 = 2 ^ b :=
        Nat.mod_eq_of_lt (Nat.pow_lt_pow_right (by decide) (hgo.2.trans_le hw))
      exact htemp ▸ hgo.1
    have hbw : b < w := hgo.2
    rw [next_counted hbw]
    exact grow_counted hw hbw hlow' hmod
  case isFalse hstop =>
    have hle : modulus ≤ 2 ^ b := by
      by_cases hbw : b < w
      · have htemp : 2 ^ b % 2 ^ 64 = 2 ^ b :=
          Nat.mod_eq_of_lt (Nat.pow_lt_pow_right (by decide) (hbw.trans_le hw))
        have hnot : ¬ 2 ^ b % 2 ^ 64 < modulus := fun h ↦ hstop ⟨h, hbw⟩
        rw [htemp] at hnot
        exact not_lt.mp hnot
      · rw [show b = w by omega]
        exact hmod.le
    rw [le_antisymm hclog (Nat.clog_le_of_le_pow hle)]
termination_by w - b

end Sizing

/-- The variables after the loop for a modulus. -/
def sizing (T : ModulusType) (modulus : ℕ) : Sizing := Sizing.start.grow T.width modulus

/-- `bytes`: what the bits of a modulus fill. -/
def bytesFor (bits : ℕ) : ℕ := bits / 8 + if bits % 8 > 0 then 1 else 0

/-- The number that random bytes stand for, the first one lowest. -/
def assembled (w : ℕ) (buffer : List UInt8) : ℕ :=
  forRange (fun random i ↦ random ||| (buffer.getD (i + 1) 0).toNat <<< (8 * (i + 1)) % 2 ^ w)
    (buffer.length - 1) (buffer.headD 0).toNat

/-- What `RandomInModulus` comes to on the random bytes drawn so far: it may draw more. -/
inductive Drawn
  | fatal
  | waiting
  | value (random : ℕ)
deriving DecidableEq

/-- The loop that draws. -/
def drawLoop (w mask modulus : ℕ) : List (List UInt8) → Drawn
  | [] => .waiting
  | buffer :: draws =>
    let random := assembled w buffer &&& mask
    if random ≥ modulus then drawLoop w mask modulus draws else .value random

/-- `RandomInModulus` over the strings that `RandomBytes` yields. Only the overload for `uint64_t`
refuses zero. -/
def randomInModulus (T : ModulusType) (modulus : ℕ) (draws : List (List UInt8)) : Drawn :=
  if T = .uint64 ∧ modulus = 0 then .fatal
  else if modulus = 1 then .value 0
  else drawLoop T.width (sizing T modulus).mask modulus draws

/-- The length of the strings that are drawn; none are for the modulus one. -/
def drawnBytes (T : ModulusType) (modulus : ℕ) : ℕ :=
  if modulus = 1 then 0 else bytesFor (sizing T modulus).bits

/-! ### The variables of the loop -/

/-- The least number of bits in which a modulus' residues fit. -/
theorem isLeast_clog (modulus : ℕ) : IsLeast {k | modulus ≤ 2 ^ k} (Nat.clog 2 modulus) :=
  ⟨Nat.le_pow_clog (by decide) modulus, fun _ hk ↦ Nat.clog_le_of_le_pow hk⟩

theorem ModulusType.width_le (T : ModulusType) : T.width ≤ 64 := by
  cases T <;> decide

theorem sizing_eq {T : ModulusType} {modulus : ℕ} (h1 : 1 < modulus)
    (hmod : modulus < 2 ^ T.width) : sizing T modulus = Sizing.counted (Nat.clog 2 modulus) := by
  have hwidth : 1 ≤ T.width := by cases T <;> decide
  rw [sizing, ← Sizing.counted_one]
  exact Sizing.grow_counted T.width_le hwidth (by simpa using h1) hmod

theorem clog_le_width {T : ModulusType} {modulus : ℕ} (hmod : modulus < 2 ^ T.width) :
    Nat.clog 2 modulus ≤ T.width :=
  Nat.clog_le_of_le_pow hmod.le

theorem le_bytesFor (bits : ℕ) : bits ≤ 8 * bytesFor bits := by
  rw [bytesFor]
  split <;> omega

theorem bytesFor_le {T : ModulusType} {bits : ℕ} (hbits : bits ≤ T.width) :
    8 * bytesFor bits ≤ T.width := by
  rw [bytesFor]
  cases T <;> simp only [ModulusType.width] at hbits ⊢ <;> split <;> omega

/-! ### The numbers that strings stand for -/

theorem bytesValue_take_succ {buffer : List UInt8} {i : ℕ} (hi : i < buffer.length) :
    bytesValue (buffer.take (i + 1)).reverse =
      2 ^ (8 * i) * (buffer.getD i 0).toNat + bytesValue (buffer.take i).reverse := by
  have hlength : (buffer.take i).reverse.length = i := by
    rw [List.length_reverse, List.length_take, Nat.min_eq_left hi.le]
  rw [List.take_succ_eq_append_getElem hi, List.reverse_append, List.reverse_singleton,
    List.singleton_append, bytesValue, hlength, pow_bytes, Nat.mul_comm, List.getD_eq_getElem _ _ hi]

theorem bytesValue_take_lt {buffer : List UInt8} {i : ℕ} (hi : i ≤ buffer.length) :
    bytesValue (buffer.take i).reverse < 2 ^ (8 * i) := by
  have hlt := bytesValue_lt (buffer.take i).reverse
  rwa [List.length_reverse, List.length_take, Nat.min_eq_left hi] at hlt

/-- The number is read with the first byte lowest. -/
theorem assembled_eq {w : ℕ} {buffer : List UInt8} (hw : 8 * buffer.length ≤ w) :
    assembled w buffer = bytesValue buffer.reverse := by
  cases buffer with
  | nil => rfl
  | cons byte buffer =>
    have hloop : assembled w (byte :: buffer) =
        bytesValue ((byte :: buffer).take (buffer.length + 1)).reverse := by
      refine forRange_invariant
        (fun i random ↦ random = bytesValue ((byte :: buffer).take (i + 1)).reverse) ?_ ?_
      · rw [bytesValue_take_succ (by simp)]
        simp [bytesValue]
      · intro i hi random hrandom
        rw [List.length_cons, Nat.add_sub_cancel] at hi
        have hindex : i + 1 < (byte :: buffer).length := by simpa using hi
        have hlt : random < 2 ^ (8 * (i + 1)) := hrandom ▸ bytesValue_take_lt hindex.le
        have hshift : ((byte :: buffer).getD (i + 1) 0).toNat <<< (8 * (i + 1)) % 2 ^ w =
            2 ^ (8 * (i + 1)) * ((byte :: buffer).getD (i + 1) 0).toNat := by
          have hbyte := ((byte :: buffer).getD (i + 1) 0).toNat_lt
          have hpow : 2 ^ (8 * (i + 1)) * 2 ^ 8 ≤ 2 ^ w := by
            rw [← pow_add]
            exact Nat.pow_le_pow_right (by decide) (by omega)
          rw [Nat.shiftLeft_eq, Nat.mul_comm]
          apply Nat.mod_eq_of_lt
          exact (Nat.mul_lt_mul_of_pos_left hbyte (by positivity)).trans_le hpow
        rw [hshift, Nat.or_comm, ← Nat.two_pow_add_eq_or_of_lt hlt, bytesValue_take_succ hindex,
          hrandom]
    rw [hloop, List.take_of_length_le (by simp)]

/-- A number that fits is that of its bytes. -/
theorem bytesValue_integerBytes_of_lt {n x : ℕ} (hx : x < 2 ^ (8 * n)) :
    bytesValue (integerBytes n x) = x := by
  have hvalue := bytesValue_integerBytes n x
  have hlt : (x : ℤ) < 2 ^ (8 * n) := by exact_mod_cast hx
  rw [Int.emod_eq_of_lt (Int.natCast_nonneg x) hlt] at hvalue
  exact_mod_cast hvalue

/-- Each residue is that of the same number of strings of a length. -/
theorem card_residue {n k v : ℕ} (hk : k ≤ 8 * n) (hv : v < 2 ^ k) :
    Nat.card {buffer : List UInt8 // buffer.length = n ∧ bytesValue buffer.reverse % 2 ^ k = v} =
      2 ^ (8 * n - k) := by
  have hpow : 2 ^ (8 * n) = 2 ^ k * 2 ^ (8 * n - k) := by rw [← pow_add, Nat.add_sub_of_le hk]
  have hlt (q : Fin (2 ^ (8 * n - k))) : v + 2 ^ k * q < 2 ^ (8 * n) := by
    rw [hpow]
    have hle : 2 ^ k * ((q : ℕ) + 1) ≤ 2 ^ k * 2 ^ (8 * n - k) := Nat.mul_le_mul_left _ q.isLt
    rw [Nat.mul_add, Nat.mul_one] at hle
    omega
  have hvalue (q : Fin (2 ^ (8 * n - k))) :
      bytesValue (integerBytes n (v + 2 ^ k * q : ℕ)) = v + 2 ^ k * q :=
    bytesValue_integerBytes_of_lt (hlt q)
  let string (q : Fin (2 ^ (8 * n - k))) :
      {buffer : List UInt8 // buffer.length = n ∧ bytesValue buffer.reverse % 2 ^ k = v} :=
    ⟨(integerBytes n (v + 2 ^ k * q : ℕ)).reverse,
      by rw [List.length_reverse, length_integerBytes],
      by rw [List.reverse_reverse, hvalue, Nat.add_mul_mod_self_left, Nat.mod_eq_of_lt hv]⟩
  have hbijective : Function.Bijective string := by
    constructor
    · intro q q' heq
      have hstring : (integerBytes n (v + 2 ^ k * q : ℕ)).reverse =
          (integerBytes n (v + 2 ^ k * q' : ℕ)).reverse := congrArg Subtype.val heq
      have hsum : v + 2 ^ k * (q : ℕ) = v + 2 ^ k * q' := by
        rw [← hvalue q, ← hvalue q', List.reverse_injective hstring]
      exact Fin.ext (Nat.eq_of_mul_eq_mul_left (by positivity) (Nat.add_left_cancel hsum))
    · rintro ⟨buffer, hlength, hresidue⟩
      have hbound : bytesValue buffer.reverse < 2 ^ (8 * n) := by
        have hlt := bytesValue_lt buffer.reverse
        rwa [List.length_reverse, hlength] at hlt
      have hquotient : bytesValue buffer.reverse / 2 ^ k < 2 ^ (8 * n - k) := by
        rw [Nat.div_lt_iff_lt_mul (by positivity), Nat.mul_comm, ← hpow]
        exact hbound
      have hsplit : v + 2 ^ k * (bytesValue buffer.reverse / 2 ^ k) = bytesValue buffer.reverse := by
        rw [← hresidue]
        exact Nat.mod_add_div _ _
      refine ⟨⟨_, hquotient⟩, Subtype.ext ?_⟩
      change (integerBytes n (v + 2 ^ k * (bytesValue buffer.reverse / 2 ^ k) : ℕ)).reverse = buffer
      rw [hsplit]
      have hbytes : integerBytes n (bytesValue buffer.reverse : ℕ) = buffer.reverse := by
        apply bytesValue_injective
        · rw [length_integerBytes, List.length_reverse, hlength]
        · exact bytesValue_integerBytes_of_lt hbound
      rw [hbytes, List.reverse_reverse]
  rw [← Nat.card_eq_of_bijective string hbijective, Nat.card_fin]

/-! ### What is drawn -/

section

variable {T : ModulusType} {modulus : ℕ}

theorem randomInModulus_one (T : ModulusType) (draws : List (List UInt8)) :
    randomInModulus T 1 draws = .value 0 := by
  rw [randomInModulus, if_neg (fun h ↦ Nat.one_ne_zero h.2), if_pos rfl]

theorem randomInModulus_of_one_lt (h1 : 1 < modulus) (hmod : modulus < 2 ^ T.width)
    (draws : List (List UInt8)) :
    randomInModulus T modulus draws =
      drawLoop T.width (2 ^ Nat.clog 2 modulus - 1) modulus draws := by
  rw [randomInModulus, if_neg (by omega), if_neg (by omega), sizing_eq h1 hmod]
  rfl

/-- What leaves the loop is below the modulus. -/
theorem drawLoop_lt {w mask v : ℕ} {draws : List (List UInt8)}
    (h : drawLoop w mask modulus draws = .value v) : v < modulus := by
  induction draws with
  | nil => cases h
  | cons buffer draws ih =>
    rw [drawLoop] at h
    split at h
    case isTrue => exact ih h
    case isFalse hlt =>
      cases h
      exact not_le.mp hlt

/-- A string whose number is below the modulus ends the loop after any others. -/
theorem drawLoop_append_ne_waiting {w mask : ℕ} {buffer : List UInt8}
    (hbuffer : drawLoop w mask modulus [buffer] ≠ .waiting) (draws : List (List UInt8)) :
    drawLoop w mask modulus (draws ++ [buffer]) ≠ .waiting := by
  induction draws with
  | nil => exact hbuffer
  | cons buffer' draws ih =>
    rw [List.cons_append, drawLoop]
    split
    case isTrue => exact ih
    case isFalse => simp

theorem drawLoop_ne_fatal (w mask modulus : ℕ) (draws : List (List UInt8)) :
    drawLoop w mask modulus draws ≠ .fatal := by
  induction draws with
  | nil => simp [drawLoop]
  | cons buffer draws ih =>
    rw [drawLoop]
    split
    case isTrue => exact ih
    case isFalse => simp

/-- One string yields its residue if this is below the modulus. -/
theorem drawLoop_single_iff {k v w : ℕ} {buffer : List UInt8} (hw : 8 * buffer.length ≤ w) :
    drawLoop w (2 ^ k - 1) modulus [buffer] = .value v ↔
      bytesValue buffer.reverse % 2 ^ k = v ∧ v < modulus := by
  rw [drawLoop, assembled_eq hw, Nat.and_two_pow_sub_one_eq_mod]
  split
  case isTrue hge =>
    constructor
    · intro h
      cases h
    · rintro ⟨rfl, hlt⟩
      omega
  case isFalse hlt =>
    constructor
    · intro h
      cases h
      exact ⟨rfl, not_le.mp hlt⟩
    · rintro ⟨rfl, -⟩
      rfl

theorem le_drawnBytes (hmod : modulus < 2 ^ T.width) :
    Nat.clog 2 modulus ≤ 8 * drawnBytes T modulus := by
  rcases Nat.lt_or_ge 1 modulus with h1 | h1
  · rw [drawnBytes, if_neg (by omega), sizing_eq h1 hmod]
    exact le_bytesFor _
  · rw [Nat.clog_of_right_le_one h1]
    exact Nat.zero_le _

theorem drawnBytes_le (h1 : 1 < modulus) (hmod : modulus < 2 ^ T.width) :
    8 * drawnBytes T modulus ≤ T.width := by
  rw [drawnBytes, if_neg (by omega), sizing_eq h1 hmod]
  exact bytesFor_le (clog_le_width hmod)

/-- Each number below the modulus comes from the same number of strings. -/
theorem card_randomInModulus {v : ℕ} (hmod : modulus < 2 ^ T.width) (hv : v < modulus) :
    Nat.card {buffer : List UInt8 // buffer.length = drawnBytes T modulus ∧
        randomInModulus T modulus [buffer] = .value v} =
      2 ^ (8 * drawnBytes T modulus - Nat.clog 2 modulus) := by
  have hpow : v < 2 ^ Nat.clog 2 modulus := hv.trans_le (Nat.le_pow_clog (by decide) modulus)
  rw [← card_residue (le_drawnBytes hmod) hpow]
  refine Nat.card_congr (Equiv.subtypeEquivRight fun buffer ↦ and_congr_right fun hlength ↦ ?_)
  rcases Nat.lt_or_ge 1 modulus with h1 | h1
  · rw [randomInModulus_of_one_lt h1 hmod,
      drawLoop_single_iff (by rw [hlength]; exact drawnBytes_le h1 hmod), and_iff_left hv]
  · obtain rfl : modulus = 1 := by omega
    obtain rfl : v = 0 := by omega
    rw [randomInModulus_one, Nat.clog_one_right, pow_zero, Nat.mod_one]
    exact iff_of_true rfl rfl

theorem randomInModulus_lt (h1 : 1 ≤ modulus) (hmod : modulus < 2 ^ T.width)
    {draws : List (List UInt8)} {v : ℕ} (h : randomInModulus T modulus draws = .value v) :
    v < modulus := by
  rcases Nat.lt_or_ge 1 modulus with h1 | h1
  · rw [randomInModulus_of_one_lt h1 hmod] at h
    exact drawLoop_lt h
  · obtain rfl : modulus = 1 := by omega
    rw [randomInModulus_one] at h
    cases h
    exact Nat.one_pos

/-- Some string ends the loop, however many were drawn before. -/
theorem exists_ends (h1 : 1 ≤ modulus) (hmod : modulus < 2 ^ T.width) :
    ∃ buffer, buffer.length = drawnBytes T modulus ∧
      ∀ draws, ∃ v, randomInModulus T modulus (draws ++ [buffer]) = .value v := by
  have hcard := card_randomInModulus hmod h1
  have hpos : 0 < 2 ^ (8 * drawnBytes T modulus - Nat.clog 2 modulus) := by positivity
  obtain ⟨buffer, hlength, hvalue⟩ := (Nat.card_pos_iff.mp (hcard ▸ hpos)).1
  refine ⟨buffer, hlength, fun draws ↦ ?_⟩
  rcases Nat.lt_or_ge 1 modulus with h1 | h1
  · rw [randomInModulus_of_one_lt h1 hmod] at hvalue ⊢
    have hends : drawLoop T.width (2 ^ Nat.clog 2 modulus - 1) modulus (draws ++ [buffer]) ≠
        .waiting := drawLoop_append_ne_waiting (by rw [hvalue]; simp) draws
    cases hdrawn : drawLoop T.width (2 ^ Nat.clog 2 modulus - 1) modulus (draws ++ [buffer]) with
    | fatal => exact absurd hdrawn (drawLoop_ne_fatal _ _ _ _)
    | waiting => exact absurd hdrawn hends
    | value v => exact ⟨v, rfl⟩
  · obtain rfl : modulus = 1 := by omega
    exact ⟨0, randomInModulus_one T _⟩

/-- **Rejection sampling.** The mask has the least number of bits in which the numbers below the
modulus fit, what is drawn is below the modulus, and each number below it comes from the same
number of strings of random bytes; so a string that ends the loop always exists. -/
theorem randomInModulus_uniform (T : ModulusType) (modulus : ℕ) (h1 : 1 ≤ modulus)
    (hmod : modulus < 2 ^ T.width) :
    ∃ k, IsLeast {k | modulus ≤ 2 ^ k} k ∧
      (if modulus = 1 then ∀ draws, randomInModulus T modulus draws = .value 0
        else (sizing T modulus).mask = 2 ^ k - 1) ∧
      (∀ draws v, randomInModulus T modulus draws = .value v → v < modulus) ∧
      (∀ v < modulus,
        Nat.card {buffer : List UInt8 // buffer.length = drawnBytes T modulus ∧
          randomInModulus T modulus [buffer] = .value v} = 2 ^ (8 * drawnBytes T modulus - k)) ∧
      ∃ buffer, buffer.length = drawnBytes T modulus ∧
        ∀ draws, ∃ v, randomInModulus T modulus (draws ++ [buffer]) = .value v := by
  refine ⟨_, isLeast_clog modulus, ?_, fun _ _ ↦ randomInModulus_lt h1 hmod,
    fun v hv ↦ card_randomInModulus hmod hv, exists_ends h1 hmod⟩
  split
  case isTrue hone =>
    intro draws
    rw [hone, randomInModulus_one]
  case isFalse hone => rw [sizing_eq (by omega) hmod, Sizing.counted]

/-- The boundaries of `uint64_t`. -/
theorem randomInModulus_uniform_max :
    1 ≤ 2 ^ 64 - 1 ∧ 2 ^ 64 - 1 < 2 ^ ModulusType.uint64.width ∧
      ∃ k, IsLeast {k | 2 ^ 64 - 1 ≤ 2 ^ k} k ∧
        (if 2 ^ 64 - 1 = 1 then ∀ draws, randomInModulus .uint64 (2 ^ 64 - 1) draws = .value 0
          else (sizing .uint64 (2 ^ 64 - 1)).mask = 2 ^ k - 1) ∧
        (∀ draws v, randomInModulus .uint64 (2 ^ 64 - 1) draws = .value v → v < 2 ^ 64 - 1) ∧
        (∀ v < 2 ^ 64 - 1,
          Nat.card {buffer : List UInt8 // buffer.length = drawnBytes .uint64 (2 ^ 64 - 1) ∧
            randomInModulus .uint64 (2 ^ 64 - 1) [buffer] = .value v} =
              2 ^ (8 * drawnBytes .uint64 (2 ^ 64 - 1) - k)) ∧
        ∃ buffer, buffer.length = drawnBytes .uint64 (2 ^ 64 - 1) ∧
          ∀ draws, ∃ v, randomInModulus .uint64 (2 ^ 64 - 1) (draws ++ [buffer]) = .value v :=
  ⟨by decide, by decide, randomInModulus_uniform .uint64 (2 ^ 64 - 1) (by decide) (by decide)⟩

end

end Safrn.Util

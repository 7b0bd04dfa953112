import Mathlib.Data.List.ReduceOption
import Safrn.Stats.FixedPoint
import Safrn.Stats.MomentPowers
import Safrn.Stats.MomentsReceiver
import Safrn.Stats.OneVariable
import Safrn.Stats.Peers

/-!
# The sums and means of a moment query

Models the moment types (`JSON/Query/MomentType.cpp:16-39`), the moduli of `MomentsInfo`
(`dataowner/MomentsInfo.cpp:14-45`) and the stages of `Moments::handleComplete` from
`awaitingZipAdjacent` on (`dataowner/Moments.cpp:480-605`). Sums are lifted to `endModulus` with
their sign; the division that follows takes residues and knows no sign.
-/

namespace Safrn.Stats

open Safrn.Base

/-- `MomentType::Enum_t`. -/
inductive MomentType
  | count
  | mean
  | variance
  | skew
  | kurtosis
  deriving DecidableEq

namespace MomentType

/-- The highest moment of a type, the value of the enumerator. -/
def value : MomentType → ℕ
  | count => 0
  | mean => 1
  | variance => 2
  | skew => 3
  | kurtosis => 4

/-- `typeMap`. -/
def typeMap : List (String × MomentType) :=
  [("count", count), ("mean", mean), ("variance", variance), ("skew", skew), ("kurtosis", kurtosis)]

/-- `valueFromString`; `none` stands for the exception of `at`. -/
def valueFromString (string : String) : Option MomentType :=
  typeMap.lookup (string.map Char.toLower)

end MomentType

/-- What the shares of some parties add up to. -/
def opened (q : ℕ) (parties : List Identity) (share : Identity → ℕ) : ZMod q :=
  (parties.map fun p ↦ (share p : ZMod q)).sum

/-- The fields of `Moments` and its `MomentsInfo` that the stages use, the data owners, and the
functions of the library: `zipAdjacent p o` are the payload columns of both parties' lists, first
those of the party that has the data. -/
structure MomentsFronctocol where
  nextPrime : ℕ → ℕ
  bitsOfPrecision : ℕ
  maxIntersectionSize : ℕ
  type : MomentType
  includeZerothMoment : Bool
  dataVertical : ℕ
  dataowners : List Identity
  modAdd : ℕ → ℕ → ℕ → ℕ
  zipAdjacent : Identity → Identity → List (List ℕ × List ℕ)
  modConvUp : ℕ → (Identity → ℕ) → Identity → ℕ
  divide : ℕ → (Identity → ℕ) → (Identity → ℕ) → Identity → ℕ

namespace MomentsFronctocol

variable (M : MomentsFronctocol)

/-- `highest_moment`. -/
def highestMoment : ℕ := M.type.value

theorem highestMoment_le : M.highestMoment ≤ 4 := by
  rw [highestMoment]
  cases M.type <;> decide

theorem highestMoment_pos_iff : 1 ≤ M.highestMoment ↔ M.type ≠ .count := by
  rw [highestMoment]
  cases M.type <;> decide

theorem highestMoment_eq_four_iff : M.highestMoment = 4 ↔ M.type = .kurtosis := by
  rw [highestMoment]
  cases M.type <;> decide

/-- `startModulus`. The logarithm, for which the code uses `double`, is taken exactly. -/
def startModulus : ℕ :=
  M.nextPrime (1 <<< (2 + 3 * M.bitsOfPrecision + Nat.clog 2 M.maxIntersectionSize))

/-- `endModulus`. -/
def endModulus : ℕ :=
  M.nextPrime (1 <<< (2 + 4 * M.bitsOfPrecision + Nat.clog 2 M.maxIntersectionSize))

/-- `zippedAdjacentPairs` of one party. -/
def zippedAdjacentPairs (self other : Identity) : List (List ℕ) :=
  if self.vertical = M.dataVertical then (M.zipAdjacent self other).map Prod.fst
  else (M.zipAdjacent other self).map Prod.snd

/-- The innermost loop of the sums. -/
def addPayload (sums : ℕ → ℕ) (cols : List ℕ) : ℕ → ℕ :=
  fun i ↦ M.modAdd (sums i) (cols.getD i 0) M.startModulus

/-- `powerSumsStartModulus`. -/
def powerSumsStartModulus (self : Identity) : ℕ → ℕ :=
  (crossParties M.dataowners self).foldl
    (fun sums other ↦ (M.zippedAdjacentPairs self other).foldl M.addPayload sums) fun _ ↦ 0

/-- `powerSums`. -/
def powerSums (i : ℕ) : Identity → ℕ := M.modConvUp i fun self ↦ M.powerSumsStartModulus self i

/-- `expectationOfNthPow[i]`, for `i` from 1 on; `1 << bitsOfPrecision` is an `int`. -/
def expectationOfNthPow (i : ℕ) : Option (Identity → ℕ) :=
  (shiftInt M.bitsOfPrecision).map fun factor ↦
    M.divide i (fun self ↦ M.powerSums i self * factor) (M.powerSums 0)

/-- What each data owner sends to the recipients. -/
def messages : Option (Identity → List ℕ) := do
  let expectations ← (List.range M.highestMoment).mapM fun i ↦ M.expectationOfNthPow (i + 1)
  return fun self ↦ (if M.includeZerothMoment then [M.powerSums 0 self] else []) ++
    expectations.map fun expectation ↦ expectation self

/-! ## The joined data set -/

/-- The payload columns of a row with a value. -/
def rowPayload (x : ℚ) : Option (List ℕ) :=
  (convertDoubleToLargeNum x M.bitsOfPrecision M.startModulus).bind fun res ↦
    dataPayload M.highestMoment [res]

/-- What column `i` holds where two adjacent rows match with a value, or do not match. -/
def Holds (row : Option ℚ) (i : ℕ) (res : ZMod M.startModulus) : Prop :=
  match row with
  | none => res = 0
  | some x => ∀ cols, M.rowPayload x = some cols → res = (cols.getD i 0 : ℕ)

variable (joined : Identity → Identity → List (Option ℚ))

/-- The joined rows of all pairs of data owners, by the values of the data's vertical. -/
def joinedRows : List ℚ :=
  (M.dataowners.filter fun p ↦ p.vertical = M.dataVertical).flatMap fun p ↦
    (crossParties M.dataowners p).flatMap fun o ↦ (joined p o).reduceOption

/-- `ZipAdjacent` leaves the payload of matching rows and zeros; `ModConvUp` keeps numbers within
half the modulus, with their sign; `Divide` rounds the quotient of the residues down. -/
structure Ideal : Prop where
  nodup : M.dataowners.Nodup
  verticals : ∃ other, other ≠ M.dataVertical ∧
    ∀ p ∈ M.dataowners, p.vertical = M.dataVertical ∨ p.vertical = other
  nextPrime : ∀ k, k ≤ M.nextPrime k ∧ (M.nextPrime k).Prime
  modAdd : ∀ a b m, M.modAdd a b m = (a + b) % m
  zipAdjacent : ∀ p ∈ M.dataowners, p.vertical = M.dataVertical →
    ∀ o ∈ crossParties M.dataowners p, List.Forall₂ (fun shares row ↦
      ∀ i ≤ M.highestMoment, M.Holds row i (shares.1.getD i 0 + shares.2.getD i 0))
        (M.zipAdjacent p o) (joined p o)
  modConvUp : ∀ i x (s : ℤ), 2 * |s| < M.startModulus →
    opened M.startModulus M.dataowners x = s →
      opened M.endModulus M.dataowners (M.modConvUp i x) = s
  divide : ∀ i x y (a b : ℕ), a < M.endModulus → 0 < b → b < M.endModulus →
    opened M.endModulus M.dataowners x = a → opened M.endModulus M.dataowners y = b →
      opened M.endModulus M.dataowners (M.divide i x y) = (a / b : ℕ)

end MomentsFronctocol

/-- The sum of the powers of some values, as they are read. -/
def powerSum (b : ℕ) (rows : List ℚ) (j : ℕ) : ℤ := (rows.map fun x ↦ fixedPoint x b ^ j).sum

theorem powerSum_cons (b : ℕ) (x : ℚ) (rows : List ℚ) (j : ℕ) :
    powerSum b (x :: rows) j = fixedPoint x b ^ j + powerSum b rows j := by
  simp [powerSum]

theorem powerSum_flatMap {α : Type} (b : ℕ) (l : List α) (f : α → List ℚ) (j : ℕ) :
    powerSum b (l.flatMap f) j = (l.map fun a ↦ powerSum b (f a) j).sum := by
  induction l with
  | nil => rfl
  | cons a l ih =>
    rw [List.map_cons, List.sum_cons, ← ih]
    simp [powerSum]

namespace MomentsFronctocol

variable (M : MomentsFronctocol)

/-- The sums are within half the moduli. -/
def SumsFit (rows : List ℚ) (j : ℕ) : Prop :=
  2 * |powerSum M.bitsOfPrecision rows j| < M.startModulus ∧
    2 * |powerSum M.bitsOfPrecision rows j * 2 ^ M.bitsOfPrecision| < M.endModulus

/-- The recipients open the `slot`-th number of all messages as a mean of the `j`-th powers. -/
def OpensMean (rows : List ℚ) (messages : Identity → List ℕ) (slot j : ℕ) : Prop :=
  ∃ e : ℤ, 2 * |e| < M.endModulus ∧
    opened M.endModulus M.dataowners (fun p ↦ (messages p).getD slot 0) = e ∧
    |(e / 2 ^ ((j + 1) * M.bitsOfPrecision) : ℚ) - powerSum M.bitsOfPrecision rows j /
      2 ^ (j * M.bitsOfPrecision) / rows.length| ≤ 1 / 2 ^ M.bitsOfPrecision

/-- The sums fit, the payload is written, and if any rows are joined then the recipients get their
number, where they should, and the means of the powers. -/
structure Correct (rows : List ℚ) : Prop where
  sums : ∀ j ≤ M.highestMoment, M.SumsFit rows j
  payloads : ∀ x ∈ rows, (M.rowPayload x).isSome
  means : rows ≠ [] → ∃ messages, M.messages = some messages ∧
    (∀ p, (messages p).length = M.highestMoment + M.includeZerothMoment.toNat) ∧
    (M.includeZerothMoment → opened M.endModulus M.dataowners (fun p ↦ (messages p).getD 0 0) =
      (rows.length : ℕ)) ∧
    ∀ j < M.highestMoment,
      M.OpensMean rows messages (M.includeZerothMoment.toNat + j) (j + 1)

/-! ## The sums -/

variable {M}

theorem opened_mul (q : ℕ) (parties : List Identity) (x : Identity → ℕ) (c : ℕ) :
    opened q parties (fun p ↦ x p * c) = opened q parties x * c := by
  simp [opened, List.sum_map_mul_right]

/-- Column `i` of all rows of the list that a party has sorted with another. -/
private def columnSum (M : MomentsFronctocol) (i : ℕ) (self other : Identity) :
    ZMod M.startModulus :=
  ((M.zippedAdjacentPairs self other).map fun cols ↦
    ((cols.getD i 0 : ℕ) : ZMod M.startModulus)).sum

section

variable (hadd : ∀ a b m, M.modAdd a b m = (a + b) % m)

include hadd

private theorem cast_foldl_addPayload (i : ℕ) (list : List (List ℕ)) (sums : ℕ → ℕ) :
    ((list.foldl M.addPayload sums i : ℕ) : ZMod M.startModulus) =
      sums i + (list.map fun cols ↦ ((cols.getD i 0 : ℕ) : ZMod M.startModulus)).sum := by
  induction list generalizing sums with
  | nil => simp
  | cons cols list ih =>
    rw [List.foldl_cons, ih, addPayload, hadd, ZMod.natCast_mod, List.map_cons, List.sum_cons,
      Nat.cast_add, add_assoc]

private theorem cast_powerSumsStartModulus (i : ℕ) (self : Identity) :
    (M.powerSumsStartModulus self i : ZMod M.startModulus) =
      ((crossParties M.dataowners self).map (M.columnSum i self)).sum := by
  have hfold : ∀ (others : List Identity) (sums : ℕ → ℕ),
      ((others.foldl (fun sums other ↦ (M.zippedAdjacentPairs self other).foldl M.addPayload sums)
        sums i : ℕ) : ZMod M.startModulus) =
          sums i + (others.map (M.columnSum i self)).sum := by
    intro others
    induction others with
    | nil => simp
    | cons other others ih =>
      intro sums
      rw [List.foldl_cons, ih, cast_foldl_addPayload hadd, List.map_cons, List.sum_cons,
        columnSum, add_assoc]
  rw [powerSumsStartModulus, hfold]
  simp

end

/-- The columns of a row are the powers of what is read. -/
theorem cast_rowPayload (hk : 1 ≤ M.highestMoment) {x : ℚ} {cols : List ℕ}
    (hx : M.rowPayload x = some cols) {i : ℕ} (hi : i ≤ M.highestMoment) :
    ((cols.getD i 0 : ℕ) : ZMod M.startModulus) = ((fixedPoint x M.bitsOfPrecision ^ i : ℤ)) := by
  obtain ⟨res, hres, hcols⟩ := Option.bind_eq_some_iff.mp hx
  rw [dataPayload_eq hk] at hcols
  obtain rfl := Option.some.inj hcols
  rw [List.getD_eq_getElem?_getD, getElem?_powersTo hi le_rfl, Option.getD_some, Nat.cast_pow,
    cast_convertDoubleToLargeNum hres, Int.cast_pow]

variable {joined : Identity → Identity → List (Option ℚ)}

/-- Both parties of a pair hold shares of the powers of the joined values. -/
private theorem columnSum_add (hk : 1 ≤ M.highestMoment) {p o : Identity}
    (hp : p.vertical = M.dataVertical) (ho : o.vertical ≠ M.dataVertical) {i : ℕ}
    (hi : i ≤ M.highestMoment)
    (hzip : List.Forall₂ (fun shares row ↦ ∀ i ≤ M.highestMoment,
      M.Holds row i (shares.1.getD i 0 + shares.2.getD i 0)) (M.zipAdjacent p o) (joined p o))
    (hpayload : ∀ x ∈ (joined p o).reduceOption, (M.rowPayload x).isSome) :
    M.columnSum i p o + M.columnSum i o p =
      (powerSum M.bitsOfPrecision (joined p o).reduceOption i : ℤ) := by
  rw [columnSum, columnSum, zippedAdjacentPairs, zippedAdjacentPairs, if_pos hp, if_neg ho,
    List.map_map, List.map_map]
  generalize M.zipAdjacent p o = list at hzip
  generalize joined p o = rows at hzip hpayload
  induction hzip with
  | nil => simp [powerSum]
  | @cons shares row list rows hrow _ ih =>
    have hentry := hrow i hi
    cases row with
    | none =>
      rw [List.reduceOption_cons_of_none] at hpayload ⊢
      rw [← ih hpayload, List.map_cons, List.map_cons, List.sum_cons, List.sum_cons,
        add_add_add_comm]
      simpa [Holds] using hentry
    | some x =>
      rw [List.reduceOption_cons_of_some] at hpayload ⊢
      obtain ⟨cols, hcols⟩ := Option.isSome_iff_exists.mp (hpayload x (by simp))
      rw [powerSum_cons, Int.cast_add, ← ih fun y hy ↦ hpayload y (by simp [hy]), List.map_cons,
        List.map_cons, List.sum_cons, List.sum_cons, add_add_add_comm, ← cast_rowPayload hk hcols hi]
      congr 1
      exact hentry cols hcols

/-- The shares of all data owners add up to the sum of the powers. -/
theorem opened_powerSumsStartModulus (h : M.Ideal joined) (hk : 1 ≤ M.highestMoment)
    (hpayload : ∀ x ∈ M.joinedRows joined, (M.rowPayload x).isSome) {i : ℕ}
    (hi : i ≤ M.highestMoment) :
    opened M.startModulus M.dataowners (fun self ↦ M.powerSumsStartModulus self i) =
      (powerSum M.bitsOfPrecision (M.joinedRows joined) i : ℤ) := by
  obtain ⟨other, hne, hverticals⟩ := h.verticals
  rw [opened]
  simp only [cast_powerSumsStartModulus h.modAdd i]
  rw [sum_crossParties h.nodup hne hverticals, joinedRows, powerSum_flatMap, Int.cast_list_sum,
    List.map_map]
  congr 1
  apply List.map_congr_left
  intro p hp
  obtain ⟨hp, hvertical⟩ := List.mem_filter.mp hp
  have hvertical : p.vertical = M.dataVertical := by simpa using hvertical
  rw [Function.comp_apply, powerSum_flatMap, Int.cast_list_sum, List.map_map]
  congr 1
  apply List.map_congr_left
  intro o ho
  have hcross : o.vertical ≠ M.dataVertical := hvertical ▸ (mem_crossParties.mp ho).2
  apply columnSum_add hk hvertical hcross hi (h.zipAdjacent p hp hvertical o ho)
  intro x hx
  apply hpayload
  simp only [joinedRows, List.mem_flatMap, List.mem_filter, decide_eq_true_eq]
  exact ⟨p, ⟨hp, hvertical⟩, o, ho, hx⟩

/-! ## The bounds of the sums -/

section

variable {rows : List ℚ} (habs : ∀ x ∈ rows, |x| ≤ 1)

include habs

theorem abs_powerSum_le (b j : ℕ) : |powerSum b rows j| ≤ rows.length * 2 ^ (j * b) := by
  induction rows with
  | nil => simp [powerSum]
  | cons x rows ih =>
    have hx : |fixedPoint x b ^ j| ≤ 2 ^ (j * b) := by
      rw [abs_pow, mul_comm, pow_mul]
      exact pow_le_pow_left₀ (abs_nonneg _) (abs_fixedPoint_le (habs x (by simp)) b) j
    have hrows := ih fun y hy ↦ habs y (by simp [hy])
    calc |powerSum b (x :: rows) j| = |fixedPoint x b ^ j + powerSum b rows j| := by
          rw [powerSum_cons]
      _ ≤ |fixedPoint x b ^ j| + |powerSum b rows j| := abs_add_le _ _
      _ ≤ 2 ^ (j * b) + rows.length * 2 ^ (j * b) := add_le_add hx hrows
      _ = (x :: rows).length * 2 ^ (j * b) := by
          rw [List.length_cons]
          push_cast
          ring

end

theorem powerSum_zero (b : ℕ) (rows : List ℚ) : powerSum b rows 0 = rows.length := by
  simp [powerSum]

/-- Even powers have no sign. -/
theorem powerSum_nonneg (b : ℕ) (rows : List ℚ) {j : ℕ} (hj : Even j) : 0 ≤ powerSum b rows j := by
  apply List.sum_nonneg
  intro z hz
  obtain ⟨x, -, rfl⟩ := List.mem_map.mp hz
  exact hj.pow_nonneg _

section

variable (hnext : ∀ k, k ≤ M.nextPrime k ∧ (M.nextPrime k).Prime) {n : ℕ}
  (hn : n ≤ M.maxIntersectionSize)

include hnext hn

private theorem le_modulus (bits : ℕ) :
    4 * (n * 2 ^ bits) ≤ M.nextPrime (1 <<< (2 + bits + Nat.clog 2 M.maxIntersectionSize)) ∧
      4 * 2 ^ bits ≤ M.nextPrime (1 <<< (2 + bits + Nat.clog 2 M.maxIntersectionSize)) := by
  have hclog : n ≤ 2 ^ Nat.clog 2 M.maxIntersectionSize :=
    hn.trans (Nat.le_pow_clog Nat.one_lt_two _)
  have hone : 1 ≤ 2 ^ Nat.clog 2 M.maxIntersectionSize := Nat.one_le_two_pow
  have hmod := (hnext (1 <<< (2 + bits + Nat.clog 2 M.maxIntersectionSize))).1
  have hshape : 1 <<< (2 + bits + Nat.clog 2 M.maxIntersectionSize) =
      4 * (2 ^ Nat.clog 2 M.maxIntersectionSize * 2 ^ bits) := by
    rw [Nat.one_shiftLeft]
    ring
  rw [hshape] at hmod ⊢
  constructor
  · exact (Nat.mul_le_mul_left 4 (Nat.mul_le_mul_right _ hclog)).trans hmod
  · calc 4 * 2 ^ bits = 4 * (1 * 2 ^ bits) := by rw [one_mul]
      _ ≤ 4 * (2 ^ Nat.clog 2 M.maxIntersectionSize * 2 ^ bits) :=
          Nat.mul_le_mul_left 4 (Nat.mul_le_mul_right _ hone)
      _ ≤ _ := hmod

/-- Up to the third powers the sums fit. -/
theorem sumsFit_of_le_three {rows : List ℚ} (habs : ∀ x ∈ rows, |x| ≤ 1)
    (hlength : rows.length = n) {j : ℕ} (hj : j ≤ 3) : M.SumsFit rows j := by
  let b := M.bitsOfPrecision
  have hstart : 4 * (n * 2 ^ (3 * b)) ≤ M.startModulus ∧ 4 * 2 ^ (3 * b) ≤ M.startModulus :=
    le_modulus hnext hn (3 * b)
  have hend : 4 * (n * 2 ^ (4 * b)) ≤ M.endModulus ∧ 4 * 2 ^ (4 * b) ≤ M.endModulus :=
    le_modulus hnext hn (4 * b)
  have hbound : |powerSum b rows j| ≤ n * 2 ^ (3 * b) := by
    calc |powerSum b rows j| ≤ rows.length * 2 ^ (j * b) := abs_powerSum_le habs b j
      _ ≤ n * 2 ^ (3 * b) := by
        rw [hlength]
        exact_mod_cast Nat.mul_le_mul_left n
          (Nat.pow_le_pow_right Nat.zero_lt_two (Nat.mul_le_mul_right b hj))
  have hshift : |powerSum b rows j * 2 ^ b| ≤ n * 2 ^ (4 * b) := by
    calc |powerSum b rows j * 2 ^ b| = |powerSum b rows j| * 2 ^ b := by
          rw [abs_mul, abs_of_pos (by positivity : (0 : ℤ) < 2 ^ b)]
      _ ≤ n * 2 ^ (3 * b) * 2 ^ b := mul_le_mul_of_nonneg_right hbound (by positivity)
      _ = n * 2 ^ (4 * b) := by ring
  have hpos : 0 < 2 ^ (3 * b) := by positivity
  have hpos' : 0 < 2 ^ (4 * b) := by positivity
  zify at hstart hend hpos hpos'
  constructor
  · show 2 * |powerSum b rows j| < _
    omega
  · show 2 * |powerSum b rows j * 2 ^ b| < _
    omega

end

/-- The payload of a value is written when there is a moment. -/
theorem isSome_rowPayload (hnext : ∀ k, k ≤ M.nextPrime k ∧ (M.nextPrime k).Prime)
    (hk : 1 ≤ M.highestMoment) {x : ℚ} (hx : |x| ≤ 1) : (M.rowPayload x).isSome := by
  have hmod := (le_modulus hnext (Nat.zero_le _) (3 * M.bitsOfPrecision)).2
  have hpow : 2 ^ M.bitsOfPrecision ≤ 2 ^ (3 * M.bitsOfPrecision) :=
    Nat.pow_le_pow_right Nat.zero_lt_two (by omega)
  have hfits : |x| * 2 ^ M.bitsOfPrecision < (M.startModulus : ℚ) / 2 := by
    have hle : (4 * 2 ^ M.bitsOfPrecision : ℚ) ≤ M.startModulus := by
      exact_mod_cast (Nat.mul_le_mul_left 4 hpow).trans hmod
    have hpos : (0 : ℚ) < 2 ^ M.bitsOfPrecision := by positivity
    nlinarith
  have hword : ⌊|x| + (1 / 2) ^ (1 + M.bitsOfPrecision)⌋₊ < 2 ^ 64 := by
    rw [Nat.floor_lt (by positivity)]
    have hhalf : ((1 : ℚ) / 2) ^ (1 + M.bitsOfPrecision) ≤ 1 :=
      pow_le_one₀ (by norm_num) (by norm_num)
    calc |x| + (1 / 2) ^ (1 + M.bitsOfPrecision) ≤ 1 + 1 := add_le_add hx hhalf
      _ < ((2 ^ 64 : ℕ) : ℚ) := by norm_num
  rw [rowPayload, convertDoubleToLargeNum_of_fits hfits hword, Option.bind_some,
    dataPayload_eq hk]
  rfl

/-! ## The means -/

/-- `expectationOfNthPow[i]` when the precision is one of an `int`. -/
private def mean (M : MomentsFronctocol) (i : ℕ) : Identity → ℕ :=
  M.divide i (fun self ↦ M.powerSums i self * 2 ^ M.bitsOfPrecision) (M.powerSums 0)

private theorem messages_eq (hb : M.bitsOfPrecision < 31) :
    M.messages = some fun self ↦ (if M.includeZerothMoment then [M.powerSums 0 self] else []) ++
      (List.range M.highestMoment).map fun i ↦ M.mean (i + 1) self := by
  have hmean (i : ℕ) : M.expectationOfNthPow i = some (M.mean i) := by
    rw [expectationOfNthPow, shiftInt, if_pos hb, Nat.one_shiftLeft]
    rfl
  have hrange : (List.range M.highestMoment).mapM (fun i ↦ M.expectationOfNthPow (i + 1)) =
      some ((List.range M.highestMoment).map fun i ↦ M.mean (i + 1)) := by
    simp only [hmean]
    exact List.mapM_pure
  rw [messages, hrange]
  simp [Function.comp_def]

private theorem messages_eq_none (hb : ¬M.bitsOfPrecision < 31) (hk : 1 ≤ M.highestMoment) :
    M.messages = none := by
  obtain ⟨k, hk⟩ : ∃ k, M.highestMoment = k + 1 := ⟨M.highestMoment - 1, by omega⟩
  rw [messages, hk, List.range_succ_eq_map, List.mapM_cons, expectationOfNthPow, shiftInt,
    if_neg hb]
  rfl

/-- The numbers of each message. -/
private theorem exists_messages (hb : M.bitsOfPrecision < 31) :
    ∃ messages, M.messages = some messages ∧
      (∀ p, (messages p).length = M.highestMoment + M.includeZerothMoment.toNat) ∧
      (M.includeZerothMoment → ∀ p, (messages p).getD 0 0 = M.powerSums 0 p) ∧
      ∀ j < M.highestMoment, ∀ p,
        (messages p).getD (M.includeZerothMoment.toNat + j) 0 = M.mean (j + 1) p := by
  refine ⟨_, messages_eq hb, ?_, ?_, ?_⟩
  · intro p
    cases M.includeZerothMoment <;> simp
  · intro hinclude p
    simp [hinclude]
  · intro j hj p
    cases M.includeZerothMoment
    · simp [List.getD_eq_getElem?_getD, hj]
    · rw [Bool.toNat_true, Nat.add_comm]
      simp [List.getD_eq_getElem?_getD, hj]

/-- The error of a mean, without the scales. -/
private theorem abs_mean_sub_le_iff {b j m : ℕ} (hm : 0 < m) (e s : ℤ) :
    |(e / 2 ^ ((j + 1) * b) : ℚ) - s / 2 ^ (j * b) / m| ≤ 1 / 2 ^ b ↔
      |e * m - s * 2 ^ b| ≤ m * 2 ^ (j * b) := by
  have hb : (0 : ℚ) < 2 ^ b := by positivity
  have hscale : (0 : ℚ) < m * 2 ^ ((j + 1) * b) := by positivity
  have hsplit : (e / 2 ^ ((j + 1) * b) : ℚ) - s / 2 ^ (j * b) / m =
      (e * m - s * 2 ^ b) / (m * 2 ^ ((j + 1) * b)) := by
    field_simp
    ring
  rw [hsplit, abs_div, abs_of_pos hscale, div_le_div_iff₀ hscale hb, one_mul]
  have hright : (m * 2 ^ ((j + 1) * b) : ℚ) = m * 2 ^ (j * b) * 2 ^ b := by ring
  rw [hright, mul_le_mul_iff_left₀ hb]
  exact_mod_cast Iff.rfl

/-- Two numbers within half the modulus that have the same residue. -/
private theorem eq_of_cast_eq {q : ℕ} {e t : ℤ} (he : 2 * |e| < q) (ht : 2 * |t| < q)
    (h : (e : ZMod q) = t) : e = t := by
  have hdvd : (q : ℤ) ∣ t - e := (ZMod.intCast_eq_intCast_iff_dvd_sub e t q).mp h
  have hlt : |t - e| < q := by
    have := abs_sub t e
    omega
  exact (sub_eq_zero.mp (Int.eq_zero_of_abs_lt_dvd hdvd hlt)).symm

private theorem signedResidue_of_nonneg {q : ℕ} {z : ℤ} (hz : 0 ≤ z) (hzq : 2 * |z| < q) :
    (signedResidue q z : ℤ) = z := by
  rw [abs_of_nonneg hz] at hzq
  rw [signedResidue, Int.emod_eq_of_lt hz (by omega), Int.toNat_of_nonneg hz]

private theorem signedResidue_of_neg {q : ℕ} {z : ℤ} (hz : z < 0) (hzq : 2 * |z| < q) :
    (signedResidue q z : ℤ) = z + q := by
  rw [abs_of_neg hz] at hzq
  have hsum : 0 ≤ z + q := by omega
  rw [signedResidue, ← Int.add_emod_right, Int.emod_eq_of_lt hsum (by omega),
    Int.toNat_of_nonneg hsum]

/-- The rounded quotient of the residue is the mean exactly when there is no sign or nothing to
divide. -/
private theorem quotient_close_iff {q b j m : ℕ} {s : ℤ} (hm : 0 < m) (hj : j ≤ 4)
    (hfit : 2 * |s * 2 ^ b| < q) (hq : 4 * (m * 2 ^ (4 * b)) ≤ q) :
    (∃ e : ℤ, 2 * |e| < q ∧ ((signedResidue q (s * 2 ^ b) / m : ℕ) : ZMod q) = e ∧
      |(e / 2 ^ ((j + 1) * b) : ℚ) - s / 2 ^ (j * b) / m| ≤ 1 / 2 ^ b) ↔ 0 ≤ s ∨ m = 1 := by
  simp only [abs_mean_sub_le_iff hm]
  have hpow : 1 ≤ 2 ^ (j * b) := Nat.one_le_two_pow
  have hb : (0 : ℤ) < 2 ^ b := by positivity
  generalize hN : s * 2 ^ b = N at hfit
  generalize hR : signedResidue q N = R
  have hdiv := Nat.div_add_mod R m
  have hmod := Nat.mod_lt R hm
  rw [Nat.mul_comm] at hdiv
  generalize R / m = t at hdiv
  constructor
  · rintro ⟨e, he, hcast, hclose⟩
    by_contra hcon
    have hneg : N < 0 := hN ▸ Int.mul_neg_of_neg_of_pos (by omega) hb
    have hres := signedResidue_of_neg hneg hfit
    rw [hR] at hres
    -- The quotient of a residue near the modulus stays below half the modulus.
    have htwice : t * 2 ≤ t * m := Nat.mul_le_mul_left _ (by omega)
    obtain rfl : e = (t : ℤ) := by
      apply eq_of_cast_eq he
      · rw [abs_of_nonneg (Int.natCast_nonneg t)]
        omega
      · rw [← hcast, Int.cast_natCast]
    have hscale : m * 2 ^ (j * b) ≤ m * 2 ^ (4 * b) :=
      Nat.mul_le_mul_left m (Nat.pow_le_pow_right Nat.zero_lt_two (Nat.mul_le_mul_right b hj))
    have hunit : m * 1 ≤ m * 2 ^ (4 * b) := Nat.mul_le_mul_left m Nat.one_le_two_pow
    have herror := (le_abs_self _).trans hclose
    zify at hdiv hmod hscale hunit hq
    omega
  · intro hsign
    rcases le_or_gt 0 N with hpos | hneg
    · have hres := signedResidue_of_nonneg hpos hfit
      rw [hR] at hres
      have hle : t * 1 ≤ t * m := Nat.mul_le_mul_left t hm
      rw [abs_of_nonneg hpos] at hfit
      have hunit : m * 1 ≤ m * 2 ^ (j * b) := Nat.mul_le_mul_left m hpow
      zify at hdiv hmod hle hunit
      refine ⟨t, ?_, (Int.cast_natCast t).symm, ?_⟩
      · rw [abs_of_nonneg (Int.natCast_nonneg t)]
        omega
      · rw [abs_le]
        omega
    · have hs : s < 0 := by
        by_contra hcon
        have : 0 ≤ N := hN ▸ mul_nonneg (not_lt.mp hcon) hb.le
        omega
      obtain rfl : m = 1 := by omega
      have hres := signedResidue_of_neg hneg hfit
      rw [hR] at hres
      have ht : (t : ℤ) = N + q := by omega
      refine ⟨N, hfit, ?_, ?_⟩
      · rw [← Int.cast_natCast, ht]
        simp
      · simp

theorem cast_signedResidue {q : ℕ} (hq : 0 < q) (z : ℤ) : (signedResidue q z : ZMod q) = z := by
  have hnonneg : 0 ≤ z % q := Int.emod_nonneg z (by omega)
  rw [signedResidue, ← Int.cast_natCast, Int.toNat_of_nonneg hnonneg, ZMod.intCast_mod]

theorem signedResidue_lt {q : ℕ} (hq : 0 < q) (z : ℤ) : signedResidue q z < q := by
  have hlt := Int.emod_lt_of_pos z (by omega : (0 : ℤ) < q)
  have hnonneg : 0 ≤ z % q := Int.emod_nonneg z (by omega)
  rw [signedResidue]
  omega

section

variable (h : M.Ideal joined) (hk : 1 ≤ M.highestMoment)
  (habs : ∀ x ∈ M.joinedRows joined, |x| ≤ 1)
  (hlength : (M.joinedRows joined).length ≤ M.maxIntersectionSize)

include h hk habs

/-- The sums are lifted with their sign. -/
private theorem opened_powerSums {i : ℕ} (hi : i ≤ M.highestMoment)
    (hfit : M.SumsFit (M.joinedRows joined) i) :
    opened M.endModulus M.dataowners (M.powerSums i) =
      (powerSum M.bitsOfPrecision (M.joinedRows joined) i : ℤ) :=
  h.modConvUp i _ _ hfit.1 (opened_powerSumsStartModulus h hk
    (fun x hx ↦ isSome_rowPayload h.nextPrime hk (habs x hx)) hi)

include hlength

private theorem opened_count :
    opened M.endModulus M.dataowners (M.powerSums 0) = ((M.joinedRows joined).length : ℕ) := by
  have hfit := sumsFit_of_le_three h.nextPrime hlength habs rfl (Nat.zero_le 3)
  rw [opened_powerSums h hk habs (Nat.zero_le _) hfit, powerSum_zero, Int.cast_natCast]

/-- What the means of a data set with rows open to. -/
private theorem opened_mean (hne : 0 < (M.joinedRows joined).length) {i : ℕ}
    (hi : i ≤ M.highestMoment) (hfit : M.SumsFit (M.joinedRows joined) i) :
    opened M.endModulus M.dataowners (M.mean i) = (signedResidue M.endModulus
      (powerSum M.bitsOfPrecision (M.joinedRows joined) i * 2 ^ M.bitsOfPrecision) /
        (M.joinedRows joined).length : ℕ) := by
  have hq : 0 < M.endModulus := (h.nextPrime _).2.pos
  have hcount := (sumsFit_of_le_three h.nextPrime hlength habs rfl (Nat.zero_le 3)).2
  have hlt : (M.joinedRows joined).length < M.endModulus := by
    have hunit : (M.joinedRows joined).length * 1 ≤
        (M.joinedRows joined).length * 2 ^ M.bitsOfPrecision :=
      Nat.mul_le_mul_left _ Nat.one_le_two_pow
    rw [powerSum_zero, abs_of_nonneg (by positivity)] at hcount
    zify at hunit
    omega
  apply h.divide i _ _ _ _ (signedResidue_lt hq _) hne hlt _ (opened_count h hk habs hlength)
  rw [opened_mul, opened_powerSums h hk habs hi hfit, cast_signedResidue hq]
  push_cast
  rfl

/-- A mean of a data set with rows is right exactly when the sum has no sign, or there is one row
only. -/
private theorem opensMean_iff (hne : 0 < (M.joinedRows joined).length)
    {messages : Identity → List ℕ} {slot j : ℕ} (hj : j + 1 ≤ M.highestMoment)
    (hslot : ∀ p, (messages p).getD slot 0 = M.mean (j + 1) p)
    (hfit : M.SumsFit (M.joinedRows joined) (j + 1)) :
    M.OpensMean (M.joinedRows joined) messages slot (j + 1) ↔
      0 ≤ powerSum M.bitsOfPrecision (M.joinedRows joined) (j + 1) ∨
        (M.joinedRows joined).length = 1 := by
  have hq := (le_modulus h.nextPrime hlength (4 * M.bitsOfPrecision)).1
  rw [OpensMean]
  simp only [hslot]
  rw [← quotient_close_iff hne (hj.trans M.highestMoment_le) hfit.2 hq,
    ← opened_mean h hk habs hlength hne hj hfit]

end

variable (M) in
/-- The fourth powers fit where they are asked for; and if any rows are joined, a moment is asked
for, the precision is one of an `int`, and no sum has a sign, unless there is one row only. -/
structure Supported (rows : List ℚ) : Prop where
  fourth : M.type = .kurtosis → 2 * powerSum M.bitsOfPrecision rows 4 < M.startModulus ∧
    2 * (powerSum M.bitsOfPrecision rows 4 * 2 ^ M.bitsOfPrecision) < M.endModulus
  type : rows ≠ [] → M.type ≠ .count
  precision : rows ≠ [] → M.bitsOfPrecision < 31
  sign : rows ≠ [] → ∀ j ≤ M.highestMoment,
    0 ≤ powerSum M.bitsOfPrecision rows j ∨ rows.length = 1

theorem sumsFit_four_iff (rows : List ℚ) : M.SumsFit rows 4 ↔
    2 * powerSum M.bitsOfPrecision rows 4 < M.startModulus ∧
      2 * (powerSum M.bitsOfPrecision rows 4 * 2 ^ M.bitsOfPrecision) < M.endModulus := by
  have hsum := powerSum_nonneg M.bitsOfPrecision rows (by decide : Even 4)
  rw [SumsFit, abs_of_nonneg hsum, abs_of_nonneg (by positivity)]

private theorem supported_of_correct (h : M.Ideal joined)
    (habs : ∀ x ∈ M.joinedRows joined, |x| ≤ 1)
    (hlength : (M.joinedRows joined).length ≤ M.maxIntersectionSize)
    (hcorrect : M.Correct (M.joinedRows joined)) : M.Supported (M.joinedRows joined) := by
  have hcount : M.joinedRows joined ≠ [] → 1 ≤ M.highestMoment := by
    intro hne
    by_contra hzero
    obtain ⟨x, hx⟩ := List.exists_mem_of_ne_nil _ hne
    obtain ⟨cols, hcols⟩ := Option.isSome_iff_exists.mp (hcorrect.payloads x hx)
    obtain ⟨res, -, hrow⟩ := Option.bind_eq_some_iff.mp hcols
    rw [Nat.lt_one_iff.mp (not_le.mp hzero), dataPayload_zero] at hrow
    contradiction
  have hprecision : M.joinedRows joined ≠ [] → M.bitsOfPrecision < 31 := by
    intro hne
    by_contra hb
    obtain ⟨messages, hrun, -⟩ := hcorrect.means hne
    rw [messages_eq_none hb (hcount hne)] at hrun
    contradiction
  refine ⟨?_, fun hne ↦ M.highestMoment_pos_iff.mp (hcount hne), hprecision, ?_⟩
  · intro htype
    rw [← sumsFit_four_iff]
    apply hcorrect.sums
    rw [M.highestMoment_eq_four_iff.mpr htype]
  · intro hne j hj
    cases j with
    | zero =>
      rw [powerSum_zero]
      exact .inl (Int.natCast_nonneg _)
    | succ j =>
      obtain ⟨messages, hrun, -, -, hslots⟩ := exists_messages (hprecision hne)
      obtain ⟨messages', hrun', -, -, hmeans⟩ := hcorrect.means hne
      obtain rfl : messages = messages' := Option.some.inj (hrun.symm.trans hrun')
      exact (opensMean_iff h (hcount hne) habs hlength (List.length_pos_of_ne_nil hne) hj
        (hslots j hj) (hcorrect.sums _ hj)).mp (hmeans j hj)

/-- The sums fit and the means are right exactly for the data sets that are supported. -/
theorem correct_iff (h : M.Ideal joined) (habs : ∀ x ∈ M.joinedRows joined, |x| ≤ 1)
    (hlength : (M.joinedRows joined).length ≤ M.maxIntersectionSize) :
    M.Correct (M.joinedRows joined) ↔ M.Supported (M.joinedRows joined) := by
  constructor
  · exact supported_of_correct h habs hlength
  · intro hsupported
    have hsums : ∀ j ≤ M.highestMoment, M.SumsFit (M.joinedRows joined) j := by
      intro j hj
      rcases Nat.lt_or_ge 3 j with hj' | hj'
      · have hle := M.highestMoment_le
        obtain rfl : j = 4 := by omega
        exact (sumsFit_four_iff _).mpr
          (hsupported.fourth (M.highestMoment_eq_four_iff.mp (by omega)))
      · exact sumsFit_of_le_three h.nextPrime hlength habs rfl hj'
    have hk : M.joinedRows joined ≠ [] → 1 ≤ M.highestMoment :=
      fun hne ↦ M.highestMoment_pos_iff.mpr (hsupported.type hne)
    refine ⟨hsums, ?_, ?_⟩
    · intro x hx
      exact isSome_rowPayload h.nextPrime (hk (List.ne_nil_of_mem hx)) (habs x hx)
    · intro hne
      obtain ⟨messages, hrun, hlen, hzeroth, hslots⟩ :=
        exists_messages (hsupported.precision hne)
      refine ⟨messages, hrun, hlen, ?_, ?_⟩
      · intro hinclude
        simp only [hzeroth hinclude]
        exact opened_count h (hk hne) habs hlength
      · intro j hj
        exact (opensMean_iff h (hk hne) habs hlength (List.length_pos_of_ne_nil hne) hj
          (hslots j hj) (hsums _ hj)).mpr (hsupported.sign hne _ hj)

/-! ## Two data owners -/

/-- The data owner with the data, and one of the other vertical. -/
def pair : List Identity := [⟨0, 0⟩, ⟨1, 1⟩]

/-- A number that the first data owner holds. -/
def held (value : ℕ) (self : Identity) : ℕ := if self.orgId = 0 then value else 0

/-- What the shares of both add up to. -/
def total (x : Identity → ℕ) : ℕ := x ⟨0, 0⟩ + x ⟨1, 1⟩

/-- The number within half the modulus. -/
def lifted (p res : ℕ) : ℤ := if 2 * (res % p) < p then (res % p : ℕ) else (res % p : ℕ) - (p : ℤ)

theorem opened_pair (q : ℕ) (x : Identity → ℕ) : opened q pair x = (total x : ℕ) := by
  simp [opened, pair, total]

theorem opened_held (q value : ℕ) : opened q pair (held value) = value := by
  simp [opened, pair, held]

variable {nextPrime : ℕ → ℕ} (hnext : ∀ k, k ≤ nextPrime k ∧ (nextPrime k).Prime)

/-- A run for at most four rows, with the functions of the library on what is shared. -/
def paired (nextPrime : ℕ → ℕ) (type : MomentType) (values : List ℚ) : MomentsFronctocol :=
  let M : MomentsFronctocol := {
    nextPrime := nextPrime
    bitsOfPrecision := 5
    maxIntersectionSize := 4
    type := type
    includeZerothMoment := true
    dataVertical := 0
    dataowners := pair
    modAdd := fun a b m ↦ (a + b) % m
    zipAdjacent := fun _ _ ↦ []
    modConvUp := fun _ _ ↦ held 0
    divide := fun _ _ _ ↦ held 0 }
  { M with
    zipAdjacent := fun _ _ ↦ values.map fun x ↦ ((M.rowPayload x).getD [], [])
    modConvUp := fun _ x ↦ held (signedResidue M.endModulus (lifted M.startModulus (total x)))
    divide := fun _ x y ↦ held (total x % M.endModulus / (total y % M.endModulus)) }

/-- All values are joined. -/
def allJoined (values : List ℚ) (_ _ : Identity) : List (Option ℚ) := values.map some

theorem joinedRows_paired (nextPrime : ℕ → ℕ) (type : MomentType) (values : List ℚ) :
    (paired nextPrime type values).joinedRows (allJoined values) = values := by
  have hreduce : (values.map some).reduceOption = values := by
    simp [List.reduceOption]
  simp [joinedRows, paired, pair, allJoined, crossParties, hreduce]

private theorem lifted_eq {p res : ℕ} {s : ℤ} (hs : 2 * |s| < p) (h : (res : ZMod p) = s) :
    lifted p res = s := by
  have hpos : 0 < p := by
    have := abs_nonneg s
    omega
  have hres : res % p = signedResidue p s := by
    rw [← cast_signedResidue hpos, ZMod.natCast_eq_natCast_iff'] at h
    rw [h, Nat.mod_eq_of_lt (signedResidue_lt hpos s)]
  rw [lifted, hres]
  rcases le_or_gt 0 s with hnonneg | hneg
  · have hsigned := signedResidue_of_nonneg hnonneg hs
    rw [abs_of_nonneg hnonneg] at hs
    rw [if_pos (by omega), hsigned]
  · have hsigned := signedResidue_of_neg hneg hs
    rw [abs_of_neg hneg] at hs
    rw [if_neg (by omega), hsigned, add_sub_cancel_right]

private theorem total_mod {q a : ℕ} (ha : a < q) {x : Identity → ℕ} (hx : opened q pair x = a) :
    total x % q = a := by
  rw [opened_pair, ZMod.natCast_eq_natCast_iff'] at hx
  rw [hx, Nat.mod_eq_of_lt ha]

include hnext in
theorem paired_ideal (type : MomentType) (values : List ℚ) :
    (paired nextPrime type values).Ideal (allJoined values) where
  nodup := (by decide : pair.Nodup)
  verticals := ⟨1, Nat.one_ne_zero, (by decide : ∀ p ∈ pair, p.vertical = 0 ∨ p.vertical = 1)⟩
  nextPrime := hnext
  modAdd := fun _ _ _ ↦ rfl
  zipAdjacent := by
    intro p _ _ o _
    show List.Forall₂ _ (values.map _) (values.map some)
    rw [List.forall₂_map_left_iff, List.forall₂_map_right_iff, List.forall₂_same]
    intro x _ i _ cols hcols
    have hshare : ((paired nextPrime type values).rowPayload x).getD [] = cols := by
      rw [hcols, Option.getD_some]
    subst hshare
    exact (congrArg (_ + ·) Nat.cast_zero).trans (add_zero _)
  modConvUp := by
    intro i x s hs hx
    have hx : opened (paired nextPrime type values).startModulus pair x = s := hx
    rw [opened_pair] at hx
    show opened _ pair (held (signedResidue (paired nextPrime type values).endModulus
      (lifted (paired nextPrime type values).startModulus (total x)))) = _
    have hq : 0 < (paired nextPrime type values).endModulus := (hnext _).2.pos
    rw [opened_held, lifted_eq hs hx, cast_signedResidue hq]
  divide := by
    intro i x y a b ha hb hbq hx hy
    show opened _ pair (held (total x % (paired nextPrime type values).endModulus /
      (total y % (paired nextPrime type values).endModulus))) = _
    rw [opened_held, total_mod ha hx, total_mod hbq hy]

/-- The variance of two values without a sign. -/
theorem correct_variance : (paired leastPrime .variance [1 / 2, 1]).Correct [1 / 2, 1] := by
  have hrows := joinedRows_paired leastPrime .variance [1 / 2, 1]
  have h := correct_iff (paired_ideal leastPrime_spec .variance [1 / 2, 1])
  rw [hrows] at h
  have hsums : ∀ j ≤ 2, 0 ≤ powerSum 5 [1 / 2, 1] j := by decide +kernel
  exact (h (by norm_num) (by decide : 2 ≤ 4)).mpr
    { fourth := nofun
      type := fun _ ↦ nofun
      precision := fun _ ↦ (by decide : 5 < 31)
      sign := fun _ j hj ↦ .inl (hsums j hj) }

/-- The mean of two values of -1 is not the quotient of the residue of their sum. -/
theorem not_correct_negative :
    (paired leastPrime .mean [-1, -1]).Ideal (allJoined [-1, -1]) ∧
      (paired leastPrime .mean [-1, -1]).joinedRows (allJoined [-1, -1]) = [-1, -1] ∧
      ¬(paired leastPrime .mean [-1, -1]).Correct [-1, -1] := by
  have hrows := joinedRows_paired leastPrime .mean [-1, -1]
  have hideal := paired_ideal leastPrime_spec .mean [-1, -1]
  refine ⟨hideal, hrows, ?_⟩
  intro hcorrect
  have h := supported_of_correct hideal
  rw [hrows] at h
  have hsigns := (h (by norm_num) (by decide : 2 ≤ 4) hcorrect).sign (by decide) 1 (le_refl 1)
  have hsum : powerSum 5 [-1, -1] 1 = -64 := by decide +kernel
  have hpos : 0 ≤ powerSum 5 [-1, -1] 1 := hsigns.resolve_right (by decide)
  omega

end MomentsFronctocol

end Safrn.Stats

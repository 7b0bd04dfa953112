import Safrn.Base.IntFormat
import Safrn.Base.Sharing
import Safrn.Base.Xor

/-!
# Shares modulo two are converted to shares modulo a number

Models `core/examples/src/main/cpp/Mod2ToModpExamples.cpp`. The parties share each bit of a number
by exclusive or. The dealer shares random bits `z` in the same way and, modulo `p`, the two values
that the bit may contribute, in the order that `z` says. The parties publish the exclusive or of
their shares, and each adds up the values selected by it. Overflows of signed numbers, shifts by 64
or more and reads outside a vector are undefined; as an error that is thrown, they end the run.
-/

namespace Safrn.Mpc

open Safrn.Base

/-- `Bitset_t`: the bytes are zero or one. -/
abbrev Bitset := List (BitVec 8)

/-- `YValuePair_t`, of `uint64_t`. -/
abbrev YValuePair := ℕ × ℕ

/-- `ZYSet_t`. -/
structure ZYSet where
  z : Bitset
  ys : List YValuePair

/-- `ZsYs_t`: a bitset and a list of pairs for each party. -/
structure ZsYs where
  zs : List Bitset
  ys : List (List YValuePair)

/-- What `RAND_bytes` returns: bytes for each bitset, and for each party and bit two numbers. -/
structure Draws where
  mod2 : ℕ → ℕ → BitVec 8
  z : ℕ → BitVec 8
  zShare : ℕ → ℕ → BitVec 8
  y : ℕ → ℕ → ℕ × ℕ

/-! ### Shares of bits -/

def extractBit (byteBuffer : ℕ → BitVec 8) (bitNumber : ℕ) : Bool :=
  byteBuffer (bitNumber / 8) &&& (1#8 <<< (bitNumber % 8)) != 0#8

def getRandomNumberBitField (bits : ℕ) (randomBytes : ℕ → BitVec 8) : Bitset :=
  (List.range bits).map fun j ↦ (BitVec.ofBool (extractBit randomBytes j)).setWidth 8

/-- "Mismatched bitfield sizes." -/
def xor2BitFields (A B : Bitset) : Option Bitset :=
  if A.length ≠ B.length then none else some (List.zipWith (· ^^^ ·) A B)

/-- The first party has the exclusive or of `x` and the shares of the others. -/
def generateMod2Shares (bitsPerShare partyCount : ℕ) (x : Bitset) (draw : ℕ → ℕ → BitVec 8) :
    Option (List Bitset) :=
  -- "Incorrect party count."
  if partyCount < 2 then none
  else do
    let others := (List.range (partyCount - 1)).map fun it ↦
      getRandomNumberBitField bitsPerShare (draw (it + 1))
    let front ← others.foldlM xor2BitFields x
    return front :: others

/-! ### Correlated randomness -/

/-- `int64_t`. -/
def int64 : IntFormat := ⟨64, true, IntFormat.sixtyFour_pos⟩

/-- `generateRandomModPValue`. -/
def generateRandomModPValue (p drawn : ℕ) : Option ℕ := if p = 0 then none else some (drawn % p)

/-- `(ModPValue_t)0x1 << j`. -/
def shiftedOne (j : ℕ) : Option ℕ := if j < 64 then some (2 ^ j) else none

def generateZYSet (c : ℕ) (draw : ℕ → BitVec 8) : Option ZYSet := do
  let z := getRandomNumberBitField c draw
  let ys ← (List.range c).mapM fun j ↦ do
    let one ← shiftedOne j
    let bit ← z[j]?
    return if bit = 0#8 then (0, one) else (one, 0)
  return ⟨z, ys⟩

/-- A signed number, unless there is an overflow. -/
def signedResult (v : ℤ) : Option ℤ := if int64.Holds v then some v else none

def calculateModPValueFromSumPlusX (p sum x : ℕ) : Option ℕ := do
  let difference ← signedResult (int64.wrap p - int64.wrap sum)
  let result ← signedResult (difference + int64.wrap x)
  if int64.wrap p = 0 ∨ (int64.wrap p = -1 ∧ result = int64.lower) then none
  else
    let resultMod := result.tmod (int64.wrap p)
    return ((if resultMod < 0 then resultMod + int64.wrap p else resultMod) % 2 ^ 64).toNat

/-- The pairs of the other parties are added up. -/
def generateFirstPartyModPSharePair (p : ℕ) (x : YValuePair) (j : ℕ)
    (ys : List (List YValuePair)) : Option YValuePair := do
  let sum ← ys.tail.foldlM (fun (sum : ℕ × ℕ) y ↦ do
    let pair ← y[j]?
    return ((sum.1 + pair.1) % 2 ^ 64, (sum.2 + pair.2) % 2 ^ 64)) (0, 0)
  return (← calculateModPValueFromSumPlusX p sum.1 x.1,
    ← calculateModPValueFromSumPlusX p sum.2 x.2)

def generateModPCorrelatedRandomness (partyCount p c : ℕ) (r : Draws) : Option ZsYs :=
  -- "Incorrect party count."
  if partyCount < 2 then none
  else do
    let x ← generateZYSet c r.z
    let zs ← generateMod2Shares c partyCount x.z r.zShare
    let others ← (List.range (partyCount - 1)).mapM fun it ↦ (List.range c).mapM fun j ↦ do
      return (← generateRandomModPValue p (r.y (it + 1) j).1,
        ← generateRandomModPValue p (r.y (it + 1) j).2)
    let front ← (List.range c).mapM fun j ↦ do
      generateFirstPartyModPSharePair p (← x.ys[j]?) j ([] :: others)
    return ⟨zs, front :: others⟩

/-! ### The conversion -/

/-- `b_shares`, which the parties publish. -/
def bShares (mod2Shares : List Bitset) (modpShares : ZsYs) (partyCount : ℕ) :
    Option (List Bitset) :=
  (List.range partyCount).mapM fun it ↦ do
    xor2BitFields (← mod2Shares[it]?) (← modpShares.zs[it]?)

/-- `b_final`. -/
def bFinal (bs : List Bitset) (partyCount j : ℕ) : Option (BitVec 8) :=
  (List.range partyCount).foldlM (fun b it ↦ do return b ^^^ (← (← bs[it]?)[j]?)) 0#8

/-- A round of the loop over the bits: each party adds the value that is selected. -/
def addSelected (ys : List (List YValuePair)) (partyCount j : ℕ) (b : BitVec 8) (sums : List ℕ) :
    Option (List ℕ) :=
  (List.range partyCount).mapM fun it ↦ do
    let y ← (← ys[it]?)[j]?
    return ((← sums[it]?) + if b = 0#8 then y.1 else y.2) % 2 ^ 64

def calculateModPForm (mod2Shares : List Bitset) (modpShares : ZsYs) (c partyCount p : ℕ) :
    Option (List ℕ) := do
  let bs ← bShares mod2Shares modpShares partyCount
  let sums ← (List.range c).foldlM (fun sums j ↦ do
    addSelected modpShares.ys partyCount j (← bFinal bs partyCount j) sums)
    (List.replicate partyCount 0)
  if p = 0 then none else return sums.map (· % p)

/-- What the parties hold: their shares, what they publish, and what they come to. -/
structure Conversion where
  mod2Shares : List Bitset
  modpShares : ZsYs
  bs : List Bitset
  sums : List ℕ

/-- `ConvertMod2ToModPExample`, with any constants. -/
def convertMod2ToModP (partyCount p c : ℕ) (x : Bitset) (r : Draws) : Option Conversion := do
  let mod2Shares ← generateMod2Shares c partyCount x r.mod2
  let modpShares ← generateModPCorrelatedRandomness partyCount p c r
  let bs ← bShares mod2Shares modpShares partyCount
  let sums ← calculateModPForm mod2Shares modpShares c partyCount p
  return ⟨mod2Shares, modpShares, bs, sums⟩

/-! ### Vectors of a known size -/

section Vectors

variable {α β : Type} {n c : ℕ}

theorem getElem?_row (f : ℕ → α) {j : ℕ} (hj : j < n) :
    ((List.range n).map f)[j]? = some (f j) := by
  rw [List.getElem?_map, List.getElem?_range hj, Option.map_some]

theorem row_succ (f : ℕ → α) :
    (List.range (n + 1)).map f = f 0 :: (List.range n).map fun k ↦ f (k + 1) := by
  rw [List.range_succ_eq_map, List.map_cons, List.map_map]
  rfl

theorem mapM_row {f : ℕ → Option α} {g : ℕ → α} (h : ∀ j < n, f j = some (g j)) :
    (List.range n).mapM f = some ((List.range n).map g) := by
  have hall : ∀ l : List ℕ, (∀ j ∈ l, f j = some (g j)) → l.mapM f = some (l.map g) := by
    intro l
    induction l with
    | nil => exact fun _ ↦ rfl
    | cons j l ih =>
      intro hl
      obtain ⟨hj, hl⟩ := List.forall_mem_cons.mp hl
      rw [List.mapM_cons, hj, ih hl]
      rfl
  exact hall _ fun j hj ↦ h j (List.mem_range.mp hj)

/-- A loop whose states are known. -/
theorem foldlM_range {f : β → ℕ → Option β} (s : ℕ → β)
    (h : ∀ k < n, f (s k) k = some (s (k + 1))) : (List.range n).foldlM f (s 0) = some (s n) := by
  induction n with
  | zero => rfl
  | succ n ih =>
    rw [List.range_succ, List.foldlM_append, ih fun k hk ↦ h k (Nat.lt_succ_of_lt hk),
      Option.bind_eq_bind, Option.bind_some, List.foldlM_cons, h n (Nat.lt_succ_self n)]
    rfl

theorem xor2BitFields_row (f g : ℕ → BitVec 8) :
    xor2BitFields ((List.range c).map f) ((List.range c).map g) =
      some ((List.range c).map fun j ↦ f j ^^^ g j) := by
  rw [xor2BitFields, if_neg (by simp), List.zipWith_map, List.zipWith_self]

theorem xorOver_range_zero (f : ℕ → BitVec 8) : xorOver (Finset.range 0) f = 0#8 :=
  xorOver_empty f

theorem xorOver_range_succ (f : ℕ → BitVec 8) :
    xorOver (Finset.range (n + 1)) f = xorOver (Finset.range n) f ^^^ f n := by
  rw [Finset.range_add_one, xorOver_insert Finset.notMem_range_self, BitVec.xor_comm]

theorem xorOver_range_succ_first (f : ℕ → BitVec 8) :
    xorOver (Finset.range (n + 1)) f = f 0 ^^^ xorOver (Finset.range n) fun k ↦ f (k + 1) := by
  induction n with
  | zero => rw [xorOver_range_succ, xorOver_range_zero, xorOver_range_zero, BitVec.xor_comm]
  | succ n ih =>
    rw [xorOver_range_succ, ih, BitVec.xor_assoc,
      ← xorOver_range_succ (n := n) fun k ↦ f (k + 1)]

end Vectors

/-! ### The shares of bits in closed form -/

/-- The bit of a bitset drawn. -/
def drawnBit (draw : ℕ → BitVec 8) (j : ℕ) : BitVec 8 :=
  (BitVec.ofBool (extractBit draw j)).setWidth 8

theorem drawnBit_cases (draw : ℕ → BitVec 8) (j : ℕ) : drawnBit draw j = 0#8 ∨
    drawnBit draw j = 1#8 := by
  rw [drawnBit]
  cases extractBit draw j with
  | false => exact .inl rfl
  | true => exact .inr rfl

/-- The bit that a party holds. -/
def share (n : ℕ) (x : ℕ → BitVec 8) (draw : ℕ → ℕ → BitVec 8) : ℕ → ℕ → BitVec 8
  | 0, j => x j ^^^ xorOver (Finset.range (n - 1)) fun k ↦ drawnBit (draw (k + 1)) j
  | it + 1, j => drawnBit (draw (it + 1)) j

section Mod2

variable {n c : ℕ} {x : ℕ → BitVec 8} {draw : ℕ → ℕ → BitVec 8}

theorem generateMod2Shares_eq (hn : 2 ≤ n) :
    generateMod2Shares c n ((List.range c).map x) draw =
      some ((List.range n).map fun it ↦ (List.range c).map (share n x draw it)) := by
  obtain ⟨m, rfl⟩ : ∃ m, n = m + 1 := ⟨n - 1, by omega⟩
  let front (k : ℕ) : Bitset := (List.range c).map fun j ↦
    x j ^^^ xorOver (Finset.range k) fun i ↦ drawnBit (draw (i + 1)) j
  have hfront : (List.range m).foldlM (fun front it ↦ xor2BitFields front
      (getRandomNumberBitField c (draw (it + 1)))) (front 0) = some (front m) := by
    refine foldlM_range front fun k _ ↦ ?_
    simp only [front, getRandomNumberBitField]
    refine (xor2BitFields_row _ _).trans (congrArg some (List.map_congr_left fun j _ ↦ ?_))
    rw [xorOver_range_succ, BitVec.xor_assoc]
    rfl
  have hzero : front 0 = (List.range c).map x := by
    refine List.map_congr_left fun j _ ↦ ?_
    rw [xorOver_range_zero, BitVec.xor_zero]
  rw [hzero] at hfront
  rw [generateMod2Shares, if_neg (by omega), row_succ]
  simp only [Nat.add_sub_cancel, List.foldlM_map, hfront, Option.bind_eq_bind, Option.bind_some,
    Option.pure_def]
  rfl

/-- The shares of a bit make the bit. -/
theorem xorOver_share (hn : 2 ≤ n) (j : ℕ) :
    xorOver (Finset.range n) (fun it ↦ share n x draw it j) = x j := by
  obtain ⟨m, rfl⟩ : ∃ m, n = m + 1 := ⟨n - 1, by omega⟩
  rw [xorOver_range_succ_first]
  simp only [share, Nat.add_sub_cancel]
  rw [BitVec.xor_assoc, BitVec.xor_self, BitVec.xor_zero]

end Mod2

/-! ### The shares modulo a number in closed form -/

/-- The share of the first party. -/
def firstShare (p sum x : ℕ) : ℕ := (((p : ℤ) - sum + x) % p).toNat

section Mod

variable {p sum x : ℕ}

theorem wrap_int64 {a : ℕ} (h : a < 2 ^ 63) : int64.wrap a = a := by
  refine (IntFormat.wrap_eq_self_iff).mpr ⟨?_, ?_⟩
  · exact (IntFormat.lower_nonpos int64).trans (Int.natCast_nonneg a)
  · change (a : ℤ) < 2 ^ 63
    exact_mod_cast h

theorem signedResult_eq {v : ℤ} (hlow : -2 ^ 63 ≤ v) (hhigh : v < 2 ^ 63) :
    signedResult v = some v :=
  if_pos ⟨hlow, hhigh⟩

theorem emod_eq_tmod {a b : ℤ} (hb : 0 < b) :
    (if a.tmod b < 0 then a.tmod b + b else a.tmod b) = a % b := by
  have hle := Int.emod_nonneg a hb.ne'
  have hlt := Int.emod_lt_of_pos a hb
  rw [Int.tmod_eq_emod]
  split <;> split <;> omega

theorem calculateModPValueFromSumPlusX_eq (hp : 0 < p) (hsum : sum < 2 ^ 63)
    (hx : p + x < 2 ^ 63) :
    calculateModPValueFromSumPlusX p sum x = some (firstShare p sum x) := by
  have hwrap : int64.wrap p = p := wrap_int64 (by omega)
  have hpos : (0 : ℤ) < p := Int.natCast_pos.mpr hp
  have hlt := Int.emod_lt_of_pos ((p : ℤ) - sum + x) hpos
  have hnonneg := Int.emod_nonneg ((p : ℤ) - sum + x) hpos.ne'
  have hbound : ((p : ℤ) - sum + x) % p < 2 ^ 64 := by omega
  rw [calculateModPValueFromSumPlusX, hwrap, wrap_int64 hsum,
    wrap_int64 (show x < 2 ^ 63 by omega), signedResult_eq (by omega) (by omega)]
  simp only [Option.bind_eq_bind, Option.bind_some]
  rw [signedResult_eq (by omega) (by omega), Option.bind_some, if_neg (by omega),
    emod_eq_tmod hpos, Int.emod_eq_of_lt hnonneg hbound]
  rfl

theorem firstShare_lt (hp : 0 < p) : firstShare p sum x < p := by
  have hpos : (0 : ℤ) < p := Int.natCast_pos.mpr hp
  have hlt := Int.emod_lt_of_pos ((p : ℤ) - sum + x) hpos
  have hnonneg := Int.emod_nonneg ((p : ℤ) - sum + x) hpos.ne'
  rw [firstShare]
  omega

theorem cast_firstShare (hp : 0 < p) : (firstShare p sum x : ZMod p) = x - sum := by
  have hnonneg := Int.emod_nonneg ((p : ℤ) - sum + x) (Int.natCast_pos.mpr hp).ne'
  have hcast : ((firstShare p sum x : ℤ) : ZMod p) = (((p : ℤ) - sum + x : ℤ) : ZMod p) := by
    rw [firstShare, Int.toNat_of_nonneg hnonneg, ZMod.intCast_mod]
  rw [Int.cast_natCast] at hcast
  rw [hcast]
  push_cast
  rw [ZMod.natCast_self]
  ring

end Mod

/-- The values that bit `j` may contribute, in the order that the bit of `z` says. -/
def contribution (z : BitVec 8) (j : ℕ) : YValuePair := if z = 0#8 then (0, 2 ^ j) else (2 ^ j, 0)

/-- The pair that a party holds. -/
def pairOf (n p : ℕ) (z : ℕ → BitVec 8) (draw : ℕ → ℕ → ℕ × ℕ) : ℕ → ℕ → YValuePair
  | 0, j =>
    (firstShare p (∑ k ∈ Finset.range (n - 1), (draw (k + 1) j).1 % p) (contribution (z j) j).1,
      firstShare p (∑ k ∈ Finset.range (n - 1), (draw (k + 1) j).2 % p) (contribution (z j) j).2)
  | it + 1, j => ((draw (it + 1) j).1 % p, (draw (it + 1) j).2 % p)

/-- The numbers are small enough for the machine. -/
structure Fits (n p c : ℕ) : Prop where
  parties : 2 ≤ n
  modulus : 0 < p
  difference : p + 2 ^ c ≤ 2 ^ 63
  sum : (n - 1) * (p - 1) < 2 ^ 63
  selected : c * (p - 1) < 2 ^ 64

section ModShares

variable {n p c : ℕ} {z : ℕ → BitVec 8} {draw : ℕ → ℕ → ℕ × ℕ}

theorem contribution_le (z : BitVec 8) {j : ℕ} (hj : j < c) :
    (contribution z j).1 < 2 ^ c ∧ (contribution z j).2 < 2 ^ c := by
  have hlt : 2 ^ j < 2 ^ c := Nat.pow_lt_pow_right (by decide) hj
  have hpos : 0 < 2 ^ c := Nat.zero_lt_of_lt hlt
  rw [contribution]
  split
  case isTrue => exact ⟨hpos, hlt⟩
  case isFalse => exact ⟨hlt, hpos⟩

theorem Fits.bits (h : Fits n p c) : c < 63 := by
  by_contra hle
  have hpow : 2 ^ 63 ≤ 2 ^ c := Nat.pow_le_pow_right (by decide) (by omega)
  have hpos := h.modulus
  have hdiff := h.difference
  omega

/-- Sums of residues do not go over. -/
theorem sum_mod_le (hp : 0 < p) (m : ℕ) (f : ℕ → ℕ) :
    ∑ k ∈ Finset.range m, f k % p ≤ m * (p - 1) := by
  have hle : ∀ k ∈ Finset.range m, f k % p ≤ p - 1 := fun k _ ↦ Nat.le_sub_one_of_lt
    (Nat.mod_lt (f k) hp)
  refine (Finset.sum_le_card_nsmul _ _ _ hle).trans (Nat.le_of_eq ?_)
  rw [Finset.card_range, smul_eq_mul]

theorem Fits.sum_lt (h : Fits n p c) {m : ℕ} (hm : m ≤ n - 1) (f : ℕ → ℕ) :
    ∑ k ∈ Finset.range m, f k % p < 2 ^ 63 :=
  (sum_mod_le h.modulus m f).trans_lt ((Nat.mul_le_mul_right _ hm).trans_lt h.sum)

/-- The loop over the pairs of the other parties. -/
theorem foldlM_pairs (h : Fits n p c) {j : ℕ} (hj : j < c) :
    (List.range (n - 1)).foldlM (fun (sum : ℕ × ℕ) it ↦
      (((List.range c).map (pairOf n p z draw (it + 1)))[j]?).bind fun pair ↦
        some ((sum.1 + pair.1) % 2 ^ 64, (sum.2 + pair.2) % 2 ^ 64)) (0, 0) =
      some (∑ i ∈ Finset.range (n - 1), (draw (i + 1) j).1 % p,
        ∑ i ∈ Finset.range (n - 1), (draw (i + 1) j).2 % p) := by
  refine foldlM_range (fun k ↦ (∑ i ∈ Finset.range k, (draw (i + 1) j).1 % p,
    ∑ i ∈ Finset.range k, (draw (i + 1) j).2 % p)) fun k hk ↦ ?_
  have hfirst := h.sum_lt (show k + 1 ≤ n - 1 from hk) fun i ↦ (draw (i + 1) j).1
  have hsecond := h.sum_lt (show k + 1 ≤ n - 1 from hk) fun i ↦ (draw (i + 1) j).2
  rw [getElem?_row _ hj, Option.bind_some]
  simp only [pairOf]
  rw [← Finset.sum_range_succ, ← Finset.sum_range_succ, Nat.mod_eq_of_lt (by omega),
    Nat.mod_eq_of_lt (by omega)]

/-- The two values of the first party. -/
theorem firstShares_eq (hp : 0 < p) (sum x : ℕ × ℕ) (hfirst : sum.1 < 2 ^ 63 ∧ p + x.1 < 2 ^ 63)
    (hsecond : sum.2 < 2 ^ 63 ∧ p + x.2 < 2 ^ 63) :
    ((calculateModPValueFromSumPlusX p sum.1 x.1).bind fun first ↦
      (calculateModPValueFromSumPlusX p sum.2 x.2).bind fun second ↦ some (first, second)) =
      some (firstShare p sum.1 x.1, firstShare p sum.2 x.2) := by
  rw [calculateModPValueFromSumPlusX_eq hp hfirst.1 hfirst.2, Option.bind_some,
    calculateModPValueFromSumPlusX_eq hp hsecond.1 hsecond.2, Option.bind_some]

/-- The pair of the first party. -/
theorem generateFirstPartyModPSharePair_eq (h : Fits n p c) {j : ℕ} (hj : j < c) :
    generateFirstPartyModPSharePair p (contribution (z j) j) j ([] :: (List.range (n - 1)).map
      fun it ↦ (List.range c).map (pairOf n p z draw (it + 1))) = some (pairOf n p z draw 0 j) := by
  obtain ⟨hone, htwo⟩ := contribution_le (z j) hj
  have hdiff := h.difference
  have hfirst : p + (contribution (z j) j).1 < 2 ^ 63 := by omega
  have hsecond : p + (contribution (z j) j).2 < 2 ^ 63 := by omega
  rw [generateFirstPartyModPSharePair, List.tail_cons, List.foldlM_map]
  simp only [Option.bind_eq_bind, Option.pure_def]
  rw [foldlM_pairs (z := z) h hj, Option.bind_some, pairOf]
  exact firstShares_eq h.modulus _ _ ⟨h.sum_lt le_rfl _, hfirst⟩ ⟨h.sum_lt le_rfl _, hsecond⟩

theorem generateZYSet_eq (hc : c < 63) (draw : ℕ → BitVec 8) : generateZYSet c draw =
    some ⟨(List.range c).map (drawnBit draw),
      (List.range c).map fun j ↦ contribution (drawnBit draw j) j⟩ := by
  have hys : (List.range c).mapM (fun j ↦ (shiftedOne j).bind fun one ↦
      ((getRandomNumberBitField c draw)[j]?).bind fun bit ↦
        some (if bit = 0#8 then (0, one) else (one, 0))) =
      some ((List.range c).map fun j ↦ contribution (drawnBit draw j) j) := by
    refine mapM_row fun j hj ↦ ?_
    rw [shiftedOne, if_pos (by omega), Option.bind_some, getRandomNumberBitField,
      getElem?_row _ hj]
    rfl
  simp only [generateZYSet, Option.bind_eq_bind, Option.pure_def, hys, Option.bind_some]
  rfl

theorem generateModPCorrelatedRandomness_eq (h : Fits n p c) (r : Draws) :
    generateModPCorrelatedRandomness n p c r = some
      ⟨(List.range n).map fun it ↦ (List.range c).map (share n (drawnBit r.z) r.zShare it),
        (List.range n).map fun it ↦ (List.range c).map (pairOf n p (drawnBit r.z) r.y it)⟩ := by
  have hn := h.parties
  have hp : p ≠ 0 := h.modulus.ne'
  have hothers : (List.range (n - 1)).mapM (fun it ↦ (List.range c).mapM fun j ↦
      (generateRandomModPValue p (r.y (it + 1) j).1).bind fun first ↦
        (generateRandomModPValue p (r.y (it + 1) j).2).bind fun second ↦ some (first, second)) =
      some ((List.range (n - 1)).map fun it ↦
        (List.range c).map (pairOf n p (drawnBit r.z) r.y (it + 1))) := by
    refine mapM_row fun it _ ↦ mapM_row fun j _ ↦ ?_
    simp only [generateRandomModPValue, if_neg hp, Option.bind_some, pairOf]
  have hfront : (List.range c).mapM (fun j ↦
      (((List.range c).map fun j ↦ contribution (drawnBit r.z j) j)[j]?).bind fun x ↦
        generateFirstPartyModPSharePair p x j ([] :: (List.range (n - 1)).map fun it ↦
          (List.range c).map (pairOf n p (drawnBit r.z) r.y (it + 1)))) =
      some ((List.range c).map (pairOf n p (drawnBit r.z) r.y 0)) := by
    refine mapM_row fun j hj ↦ ?_
    rw [getElem?_row _ hj, Option.bind_some]
    exact generateFirstPartyModPSharePair_eq h hj
  rw [generateModPCorrelatedRandomness, if_neg (by omega), generateZYSet_eq h.bits]
  simp only [Option.bind_eq_bind, Option.bind_some, generateMod2Shares_eq hn, Option.pure_def,
    hothers, hfront]
  obtain ⟨m, rfl⟩ : ∃ m, n = m + 1 := ⟨n - 1, by omega⟩
  rw [Nat.add_sub_cancel,
    row_succ fun it ↦ (List.range c).map (pairOf (m + 1) p (drawnBit r.z) r.y it)]

/-- The pairs of a bit add up to what it may contribute. -/
theorem sum_pairOf (hn : 2 ≤ n) (hp : 0 < p) (j : ℕ) :
    (∑ it ∈ Finset.range n, ((pairOf n p z draw it j).1 : ZMod p)) = (contribution (z j) j).1 ∧
      (∑ it ∈ Finset.range n, ((pairOf n p z draw it j).2 : ZMod p)) =
        (contribution (z j) j).2 := by
  obtain ⟨m, rfl⟩ : ∃ m, n = m + 1 := ⟨n - 1, by omega⟩
  rw [Finset.sum_range_succ', Finset.sum_range_succ']
  simp only [pairOf, Nat.add_sub_cancel, cast_firstShare hp, Nat.cast_sum]
  exact ⟨by ring, by ring⟩

end ModShares

/-! ### The conversion in closed form -/

/-- The value of a pair that the published bit selects. -/
def selected (b : BitVec 8) (y : YValuePair) : ℕ := if b = 0#8 then y.1 else y.2

theorem selected_le {p : ℕ} {b : BitVec 8} {y : YValuePair} (h : y.1 < p ∧ y.2 < p) :
    selected b y ≤ p - 1 := by
  rw [selected]
  split <;> omega

section Closed

variable {n p c : ℕ} {x z : ℕ → BitVec 8} {X Z : ℕ → ℕ → BitVec 8} {Y : ℕ → ℕ → YValuePair}

theorem pairOf_lt {draw : ℕ → ℕ → ℕ × ℕ} (hp : 0 < p) (it j : ℕ) :
    (pairOf n p z draw it j).1 < p ∧ (pairOf n p z draw it j).2 < p := by
  cases it with
  | zero => exact ⟨firstShare_lt hp, firstShare_lt hp⟩
  | succ it => exact ⟨Nat.mod_lt _ hp, Nat.mod_lt _ hp⟩

theorem bShares_eq {ys : List (List YValuePair)} :
    bShares ((List.range n).map fun it ↦ (List.range c).map (X it))
      ⟨(List.range n).map fun it ↦ (List.range c).map (Z it), ys⟩ n =
      some ((List.range n).map fun it ↦ (List.range c).map fun j ↦ X it j ^^^ Z it j) := by
  refine mapM_row fun it hit ↦ ?_
  simp only [getElem?_row _ hit, Option.bind_eq_bind, Option.bind_some]
  exact xor2BitFields_row _ _

theorem bFinal_eq {j : ℕ} (hj : j < c) :
    bFinal ((List.range n).map fun it ↦ (List.range c).map (X it)) n j =
      some (xorOver (Finset.range n) fun it ↦ X it j) := by
  rw [bFinal, ← xorOver_range_zero fun it ↦ X it j]
  refine foldlM_range (fun k ↦ xorOver (Finset.range k) fun it ↦ X it j) fun k hk ↦ ?_
  simp only [getElem?_row _ hk, Option.bind_eq_bind, Option.bind_some, getElem?_row _ hj,
    Option.pure_def, xorOver_range_succ]

theorem addSelected_eq {sums : ℕ → ℕ} {j : ℕ} {b : BitVec 8} (hj : j < c)
    (hsum : ∀ it < n, sums it + selected b (Y it j) < 2 ^ 64) :
    addSelected ((List.range n).map fun it ↦ (List.range c).map (Y it)) n j b
      ((List.range n).map sums) =
      some ((List.range n).map fun it ↦ sums it + selected b (Y it j)) := by
  refine mapM_row fun it hit ↦ ?_
  simp only [getElem?_row _ hit, Option.bind_eq_bind, Option.bind_some, getElem?_row _ hj,
    Option.pure_def]
  exact congrArg some (Nat.mod_eq_of_lt (hsum it hit))

/-- What a party comes to. -/
def sumOf (p c : ℕ) (b : ℕ → BitVec 8) (y : ℕ → YValuePair) : ℕ :=
  (∑ j ∈ Finset.range c, selected (b j) (y j)) % p

theorem calculateModPForm_eq (h : Fits n p c) (hY : ∀ it j, (Y it j).1 < p ∧ (Y it j).2 < p) :
    calculateModPForm ((List.range n).map fun it ↦ (List.range c).map (X it))
      ⟨(List.range n).map fun it ↦ (List.range c).map (Z it),
        (List.range n).map fun it ↦ (List.range c).map (Y it)⟩ c n p =
      some ((List.range n).map fun it ↦
        sumOf p c (fun j ↦ xorOver (Finset.range n) fun it ↦ X it j ^^^ Z it j) (Y it)) := by
  let b (j : ℕ) : BitVec 8 := xorOver (Finset.range n) fun it ↦ X it j ^^^ Z it j
  let sums (k : ℕ) : List ℕ := (List.range n).map fun it ↦
    ∑ j ∈ Finset.range k, selected (b j) (Y it j)
  have hsums : (List.range c).foldlM (fun sums j ↦
      (bFinal ((List.range n).map fun it ↦ (List.range c).map fun j ↦ X it j ^^^ Z it j) n j).bind
        fun b ↦ addSelected ((List.range n).map fun it ↦ (List.range c).map (Y it)) n j b sums)
      (sums 0) = some (sums c) := by
    refine foldlM_range sums fun k hk ↦ ?_
    rw [bFinal_eq hk, Option.bind_some]
    refine (addSelected_eq hk fun it _ ↦ ?_).trans (congrArg some ?_)
    · rw [← Finset.sum_range_succ fun j ↦ selected (b j) (Y it j)]
      have hle : ∑ j ∈ Finset.range (k + 1), selected (b j) (Y it j) ≤ (k + 1) * (p - 1) := by
        refine (Finset.sum_le_card_nsmul _ _ _ fun j _ ↦ selected_le (hY it j)).trans
          (Nat.le_of_eq ?_)
        rw [Finset.card_range, smul_eq_mul]
      have hmul : (k + 1) * (p - 1) ≤ c * (p - 1) := Nat.mul_le_mul_right _ hk
      have hselected := h.selected
      omega
    · refine List.map_congr_left fun it _ ↦ ?_
      exact (Finset.sum_range_succ (fun j ↦ selected (b j) (Y it j)) k).symm
  have hzero : sums 0 = List.replicate n 0 := by
    simp [sums, List.map_const']
  rw [hzero] at hsums
  simp only [calculateModPForm, bShares_eq, Option.bind_eq_bind, Option.bind_some, hsums,
    Option.pure_def, if_neg h.modulus.ne', sums, List.map_map]
  rfl

/-- What the parties hold at the end. -/
theorem convertMod2ToModP_eq (h : Fits n p c) (r : Draws) :
    convertMod2ToModP n p c ((List.range c).map x) r = some
      ⟨(List.range n).map fun it ↦ (List.range c).map (share n x r.mod2 it),
        ⟨(List.range n).map fun it ↦ (List.range c).map (share n (drawnBit r.z) r.zShare it),
          (List.range n).map fun it ↦ (List.range c).map (pairOf n p (drawnBit r.z) r.y it)⟩,
        (List.range n).map fun it ↦ (List.range c).map fun j ↦
          share n x r.mod2 it j ^^^ share n (drawnBit r.z) r.zShare it j,
        (List.range n).map fun it ↦ sumOf p c (fun j ↦ x j ^^^ drawnBit r.z j)
          (pairOf n p (drawnBit r.z) r.y it)⟩ := by
  have hsums := calculateModPForm_eq (X := share n x r.mod2)
    (Z := share n (drawnBit r.z) r.zShare) (Y := pairOf n p (drawnBit r.z) r.y) h
    (pairOf_lt h.modulus)
  simp only [xorOver_xor, xorOver_share h.parties] at hsums
  simp only [convertMod2ToModP, Option.bind_eq_bind, generateMod2Shares_eq h.parties,
    generateModPCorrelatedRandomness_eq h, bShares_eq, hsums, Option.bind_some, Option.pure_def]

end Closed

/-! ### The shares add up to the number -/

/-- A number from its bits, the lowest one first. -/
def numberOf : Bitset → ℕ
  | [] => 0
  | b :: bs => b.toNat + 2 * numberOf bs

/-- A bitset holds `c` bits. -/
structure Bits (c : ℕ) (x : Bitset) : Prop where
  length : x.length = c
  bit : ∀ b ∈ x, b = 0#8 ∨ b = 1#8

section Number

variable {n p c : ℕ} {x : Bitset}

theorem numberOf_row (f : ℕ → BitVec 8) :
    numberOf ((List.range c).map f) = ∑ j ∈ Finset.range c, (f j).toNat * 2 ^ j := by
  induction c generalizing f with
  | zero => rfl
  | succ c ih =>
    rw [row_succ, numberOf, ih, Finset.sum_range_succ', Finset.mul_sum, pow_zero, mul_one,
      add_comm]
    congr 1
    exact Finset.sum_congr rfl fun j _ ↦ by ring

theorem Bits.row (hx : Bits c x) : x = (List.range c).map fun j ↦ x.getD j 0#8 := by
  refine List.ext_getElem? fun j ↦ ?_
  cases Nat.lt_or_ge j c with
  | inl hlt =>
    have hlt' : j < x.length := hx.length.symm ▸ hlt
    rw [getElem?_row _ hlt, List.getD_eq_getElem?_getD, List.getElem?_eq_getElem hlt']
    rfl
  | inr hge =>
    rw [List.getElem?_eq_none (hx.length.symm ▸ hge), List.getElem?_eq_none (by simpa using hge)]

theorem Bits.getD_cases (hx : Bits c x) (j : ℕ) : x.getD j 0#8 = 0#8 ∨ x.getD j 0#8 = 1#8 := by
  rw [List.getD_eq_getElem?_getD]
  cases hj : x[j]? with
  | none => exact .inl rfl
  | some b => exact hx.bit b (List.mem_of_getElem? hj)

/-- The published bit selects what the bit of the number contributes. -/
theorem selected_contribution {b z : BitVec 8} (hb : b = 0#8 ∨ b = 1#8) (hz : z = 0#8 ∨ z = 1#8)
    (j : ℕ) : selected (b ^^^ z) (contribution z j) = b.toNat * 2 ^ j := by
  rcases hb with rfl | rfl <;> rcases hz with rfl | rfl <;> simp [selected, contribution]

theorem cast_sumOf (b : ℕ → BitVec 8) (y : ℕ → YValuePair) :
    (sumOf p c b y : ZMod p) = ∑ j ∈ Finset.range c, (selected (b j) (y j) : ZMod p) := by
  rw [sumOf, ZMod.natCast_mod, Nat.cast_sum]

theorem sum_selected {z : ℕ → BitVec 8} {draw : ℕ → ℕ → ℕ × ℕ} (h : Fits n p c) (b : BitVec 8)
    (j : ℕ) : ∑ it ∈ Finset.range n, (selected b (pairOf n p z draw it j) : ZMod p) =
      selected b (contribution (z j) j) := by
  by_cases hb : b = 0#8
  · simp only [selected, if_pos hb]
    exact (sum_pairOf h.parties h.modulus j).1
  · simp only [selected, if_neg hb]
    exact (sum_pairOf h.parties h.modulus j).2

theorem sum_row (f : ℕ → ℕ) : ((List.range n).map f).sum = ∑ it ∈ Finset.range n, f it := by
  induction n with
  | zero => rfl
  | succ n ih => rw [List.range_succ, List.map_append, List.sum_append, ih, Finset.sum_range_succ,
      List.map_singleton, List.sum_singleton]

/-- The conversion ends, and the sums of the parties are shares of the number modulo `p`. -/
theorem sum_convertMod2ToModP (h : Fits n p c) (hx : Bits c x) (r : Draws) :
    ∃ t, convertMod2ToModP n p c x r = some t ∧ t.sums.length = n ∧ (∀ s ∈ t.sums, s < p) ∧
      t.sums.sum % p = numberOf x % p := by
  have hconvert := convertMod2ToModP_eq (x := fun j ↦ x.getD j 0#8) h r
  rw [← hx.row] at hconvert
  refine ⟨_, hconvert, by simp, ?_, ?_⟩
  · intro s hs
    obtain ⟨it, -, rfl⟩ := List.mem_map.mp hs
    exact Nat.mod_lt _ h.modulus
  · have hnumber : numberOf x = ∑ j ∈ Finset.range c, (x.getD j 0#8).toNat * 2 ^ j := by
      rw [← numberOf_row, ← hx.row]
    rw [hnumber, sum_row]
    refine (ZMod.natCast_eq_natCast_iff' _ _ p).mp ?_
    rw [Nat.cast_sum, Nat.cast_sum]
    simp only [cast_sumOf]
    rw [Finset.sum_comm]
    refine Finset.sum_congr rfl fun j _ ↦ ?_
    rw [sum_selected h, selected_contribution (hx.getD_cases j) (drawnBit_cases r.z j)]

/-- The constants of `ConvertMod2ToModPExample`. -/
theorem fits_two_nineteen : Fits 2 19 4 := by constructor <;> norm_num

theorem bits_eleven : Bits 4 [1#8, 1#8, 0#8, 1#8] := ⟨rfl, by decide⟩

/-- Bytes and numbers that may be drawn. -/
def someDraws : Draws :=
  ⟨fun _ _ ↦ 90#8, fun _ ↦ 6#8, fun _ _ ↦ 3#8, fun it j ↦ (it + 5 * j, 7 + j)⟩

theorem sum_convertMod2ToModP_eleven : ∃ t,
    convertMod2ToModP 2 19 4 [1#8, 1#8, 0#8, 1#8] someDraws = some t ∧ t.sums.length = 2 ∧
      (∀ s ∈ t.sums, s < 19) ∧ t.sums.sum % 19 = 11 :=
  sum_convertMod2ToModP fits_two_nineteen bits_eleven someDraws

end Number

/-! ### What one party alone cannot know

The draws are changed so that all parties but one see the same, for another number. The change
undoes itself, so that it takes uniform draws to uniform draws. -/

/-- Bytes with the first `c` bits changed where `δ` says so. -/
def flip (c : ℕ) (δ : ℕ → Bool) (bytes : ℕ → BitVec 8) (i : ℕ) : BitVec 8 :=
  bytes i ^^^ (BitVec.ofBoolListLE ((List.range 8).map fun b ↦
    decide (8 * i + b < c) && δ (8 * i + b))).setWidth 8

/-- A residue that is moved by what `a` and `a'` differ in. -/
def moved (p a a' y : ℕ) : ℕ := (y + (p - a % p) + a') % p

/-- The draws with the bits of `z` and the shares of party `k` changed. -/
def hide (p c k : ℕ) (δ : ℕ → Bool) (r : Draws) : Draws where
  mod2 it := if it = k then flip c δ (r.mod2 it) else r.mod2 it
  z := flip c δ r.z
  zShare it := if it = k then flip c δ (r.zShare it) else r.zShare it
  y it j := if it = k then
      (moved p (contribution (drawnBit r.z j) j).1 (contribution (drawnBit (flip c δ r.z) j) j).1
          (r.y it j).1,
        moved p (contribution (drawnBit r.z j) j).2 (contribution (drawnBit (flip c δ r.z) j) j).2
          (r.y it j).2)
    else r.y it j

/-- The numbers drawn for the pairs are residues. -/
def Draws.Below (p : ℕ) (r : Draws) : Prop := ∀ it j, (r.y it j).1 < p ∧ (r.y it j).2 < p

/-- Two runs are the same to all parties but `k`, and publish the same. -/
structure SameBut (k : ℕ) (t t' : Conversion) : Prop where
  mod2Shares : ∀ it ≠ k, t.mod2Shares[it]? = t'.mod2Shares[it]?
  zs : ∀ it ≠ k, t.modpShares.zs[it]? = t'.modpShares.zs[it]?
  ys : ∀ it ≠ k, t.modpShares.ys[it]? = t'.modpShares.ys[it]?
  bs : t.bs = t'.bs
  sums : ∀ it ≠ k, t.sums[it]? = t'.sums[it]?

section Hide

variable {n p c k : ℕ} {δ : ℕ → Bool}

theorem flip_flip (bytes : ℕ → BitVec 8) : flip c δ (flip c δ bytes) = bytes := by
  funext i
  rw [flip, flip, BitVec.xor_assoc, BitVec.xor_self, BitVec.xor_zero]

theorem extractBit_eq (bytes : ℕ → BitVec 8) (j : ℕ) :
    extractBit bytes j = (bytes (j / 8)).getLsbD (j % 8) := by
  have hlt : j % 8 < 8 := Nat.mod_lt j (by decide)
  rw [extractBit, Bool.eq_iff_iff, bne_iff_ne, ne_eq, BitVec.eq_of_getLsbD_eq_iff]
  constructor
  · intro h
    by_contra hbit
    refine h fun i hi ↦ ?_
    by_cases hij : i = j % 8
    · rw [hij]
      simp [hbit]
    · have hne : ¬(i - j % 8 = 0 ∧ ¬i < j % 8) := by omega
      simp only [BitVec.getLsbD_and, BitVec.getLsbD_shiftLeft, BitVec.getLsbD_one]
      grind
  · intro h hzero
    have hbit := hzero (j % 8) hlt
    rw [BitVec.getLsbD_and, h, BitVec.getLsbD_shiftLeft] at hbit
    simp [hlt] at hbit

/-- The bit of `δ`, as a byte. -/
def bitOf (δ : ℕ → Bool) (j : ℕ) : BitVec 8 := (BitVec.ofBool (δ j)).setWidth 8

theorem drawnBit_flip {j : ℕ} (hj : j < c) (bytes : ℕ → BitVec 8) :
    drawnBit (flip c δ bytes) j = drawnBit bytes j ^^^ bitOf δ j := by
  have hindex : 8 * (j / 8) + j % 8 = j := Nat.div_add_mod j 8
  have hlt : j % 8 < 8 := Nat.mod_lt j (by decide)
  have hextract : extractBit (flip c δ bytes) j = (extractBit bytes j ^^ δ j) := by
    rw [extractBit_eq, extractBit_eq, flip, BitVec.getLsbD_xor, BitVec.getLsbD_setWidth,
      BitVec.getLsbD_ofBoolListLE, List.getD_eq_getElem?_getD, getElem?_row _ hlt, hindex]
    simp only [hj, hlt, decide_true, Bool.true_and, Option.getD_some]
  rw [drawnBit, drawnBit, bitOf, hextract]
  cases extractBit bytes j <;> cases δ j <;> rfl

theorem xor_cancel (a b d : BitVec 8) : a ^^^ d ^^^ (b ^^^ d) = a ^^^ b := by
  rw [BitVec.xor_assoc, BitVec.xor_comm b, ← BitVec.xor_assoc d, BitVec.xor_self, BitVec.zero_xor]

/-- The share of party `k` takes up the change of the bit. -/
theorem share_flip (hk : k < n) {j : ℕ} (hj : j < c) {x x' : ℕ → BitVec 8}
    (hx : x' j = x j ^^^ bitOf δ j) (draw : ℕ → ℕ → BitVec 8) (it : ℕ) :
    share n x' (fun it ↦ if it = k then flip c δ (draw it) else draw it) it j =
      share n x draw it j ^^^ if it = k then bitOf δ j else 0#8 := by
  have hdrawn : ∀ i, drawnBit (if i + 1 = k then flip c δ (draw (i + 1)) else draw (i + 1)) j =
      drawnBit (draw (i + 1)) j ^^^ if i + 1 = k then bitOf δ j else 0#8 := by
    intro i
    split
    · exact drawnBit_flip hj _
    · rw [BitVec.xor_zero]
  cases it with
  | succ i => exact hdrawn i
  | zero =>
    simp only [share, hdrawn, xorOver_xor, hx]
    cases k with
    | zero =>
      rw [xorOver_zero (f := fun i ↦ if i + 1 = 0 then bitOf δ j else 0#8)
        fun i _ ↦ if_neg (by omega), BitVec.xor_zero, if_pos rfl, BitVec.xor_assoc,
        BitVec.xor_comm (bitOf δ j), BitVec.xor_assoc]
    | succ k =>
      have hmem : k ∈ Finset.range (n - 1) := Finset.mem_range.mpr (by omega)
      rw [xorOver_eq_single (f := fun i ↦ if i + 1 = k + 1 then bitOf δ j else 0#8) hmem
        fun i _ hi ↦ if_neg (by omega), if_pos rfl, if_neg (by omega), BitVec.xor_zero,
        xor_cancel]

theorem moved_lt (hp : 0 < p) (a a' y : ℕ) : moved p a a' y < p := Nat.mod_lt _ hp

theorem cast_moved (hp : 0 < p) (a a' y : ℕ) : (moved p a a' y : ZMod p) = y - a + a' := by
  have hle : a % p ≤ p := (Nat.mod_lt a hp).le
  rw [moved, ZMod.natCast_mod]
  push_cast
  rw [Nat.cast_sub hle, ZMod.natCast_self, ZMod.natCast_mod]
  ring

/-- Residues are the same when they are so modulo `p`. -/
theorem eq_of_cast_eq {a b : ℕ} (ha : a < p) (hb : b < p) (h : (a : ZMod p) = b) : a = b := by
  have hmod := (ZMod.natCast_eq_natCast_iff' a b p).mp h
  rwa [Nat.mod_eq_of_lt ha, Nat.mod_eq_of_lt hb] at hmod

theorem moved_moved (hp : 0 < p) {y : ℕ} (hy : y < p) (a a' : ℕ) :
    moved p a' a (moved p a a' y) = y := by
  refine eq_of_cast_eq (moved_lt hp _ _ _) hy ?_
  rw [cast_moved hp, cast_moved hp]
  ring

theorem hide_hide (hp : 0 < p) {r : Draws} (hr : r.Below p) :
    hide p c k δ (hide p c k δ r) = r := by
  have hif : ∀ (it : ℕ) (bytes : ℕ → BitVec 8),
      (if it = k then flip c δ (if it = k then flip c δ bytes else bytes)
        else if it = k then flip c δ bytes else bytes) = bytes := by
    intro it bytes
    by_cases hit : it = k
    · rw [if_pos hit, if_pos hit, flip_flip]
    · rw [if_neg hit, if_neg hit]
  obtain ⟨mod2, z, zShare, y⟩ := r
  simp only [hide, hif, flip_flip, Draws.mk.injEq, true_and]
  funext it j
  by_cases hit : it = k
  · simp only [if_pos hit]
    rw [moved_moved hp (hr it j).1, moved_moved hp (hr it j).2]
  · simp only [if_neg hit]

theorem below_hide (hp : 0 < p) {r : Draws} (hr : r.Below p) : (hide p c k δ r).Below p := by
  intro it j
  simp only [hide]
  split
  · exact ⟨moved_lt hp _ _ _, moved_lt hp _ _ _⟩
  · exact hr it j

/-- What the first party computes from the moved residue is what it was. -/
theorem firstShare_moved (hp : 0 < p) {m i : ℕ} (hi : i < m) {f f' : ℕ → ℕ} {a a' : ℕ}
    (hf : f' i = moved p a a' (f i)) (hf' : ∀ l ≠ i, f' l = f l) :
    firstShare p (∑ l ∈ Finset.range m, f' l % p) a' =
      firstShare p (∑ l ∈ Finset.range m, f l % p) a := by
  refine eq_of_cast_eq (firstShare_lt hp) (firstShare_lt hp) ?_
  have hsum : ∑ l ∈ Finset.range m, (f' l : ZMod p) =
      ∑ l ∈ Finset.range m, (f l : ZMod p) + (a' - a) := by
    have hmem : i ∈ Finset.range m := Finset.mem_range.mpr hi
    rw [← Finset.add_sum_erase _ _ hmem, ← Finset.add_sum_erase _ (fun l ↦ (f l : ZMod p)) hmem, hf,
      cast_moved hp, Finset.sum_congr rfl fun l hl ↦ by rw [hf' l (Finset.ne_of_mem_erase hl)]]
    ring
  rw [cast_firstShare hp, cast_firstShare hp]
  push_cast
  simp only [ZMod.natCast_mod, hsum]
  ring

/-- The pairs of the other parties stay. -/
theorem pairOf_hide (hp : 0 < p) (hk : k < n) (r : Draws) {it : ℕ} (hit : it ≠ k) (j : ℕ) :
    pairOf n p (drawnBit (hide p c k δ r).z) (hide p c k δ r).y it j =
      pairOf n p (drawnBit r.z) r.y it j := by
  cases it with
  | succ i => simp only [pairOf, hide, if_neg hit]
  | zero =>
    obtain ⟨i, rfl⟩ := Nat.exists_eq_succ_of_ne_zero (Ne.symm hit)
    have hi : i < n - 1 := by omega
    rw [pairOf, pairOf]
    refine Prod.ext (firstShare_moved hp hi ?_ ?_) (firstShare_moved hp hi ?_ ?_)
    · simp only [hide, if_pos]
    · intro l hl
      simp only [hide, if_neg (show l + 1 ≠ i + 1 by omega)]
    · simp only [hide, if_pos]
    · intro l hl
      simp only [hide, if_neg (show l + 1 ≠ i + 1 by omega)]

theorem getElem?_row_congr {α : Type} {f g : ℕ → α} {it : ℕ} (h : it < n → f it = g it) :
    ((List.range n).map f)[it]? = ((List.range n).map g)[it]? := by
  cases Nat.lt_or_ge it n with
  | inl hlt => rw [getElem?_row f hlt, getElem?_row g hlt, h hlt]
  | inr hge =>
    rw [List.getElem?_eq_none (by simpa using hge), List.getElem?_eq_none (by simpa using hge)]

theorem bits_six : Bits 4 [0#8, 1#8, 1#8, 0#8] := ⟨rfl, by decide⟩

end Hide

end Safrn.Mpc

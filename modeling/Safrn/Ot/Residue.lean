import Safrn.Java.BigInteger
import Safrn.Ot.Slots

/-!
# Cells of residues

Models `ResidueOtCell.java:83-142,271-610`. A residue is stored as many bytes as `Rand.residueSize`
says for the modulus, the most significant one first. `Rand` is not part of the sources:
`residueSize` is a parameter, and so is what each call of `Rand.modular` delivers.
-/

namespace Safrn.Ot

open Safrn.Base Safrn.Java BlobOtCell

namespace ResidueOtCell

/-! ### Operations -/

/-- `computeBlobSize`. -/
def computeBlobSize (residueSize : BigInteger → Int) (modulus : Option BigInteger) :
    Except Status Int :=
  match modulus with
  | none => .error (.nullPointer "modulus == null")
  | some modulus =>
    if modulus.signum < 0 then .error (.invalidArgument "modulus < 0")
    else if modulus.signum = 0 then .error (.invalidArgument "modulus == 0")
    else .ok (residueSize modulus)

/-- The constructor. -/
def new (residueSize : BigInteger → Int) (party : Party) (otCount : Int)
    (modulus : Option BigInteger) : Except Status BlobOtCell := do
  BlobOtCell.new party otCount (← computeBlobSize residueSize modulus)

/-- The checks of a value. -/
def residueCheck (modulus value : BigInteger) (_ : BlobOtCell) : Option Status :=
  if value.signum < 0 then some (.invalidArgument "value < 0")
  else if modulus.value ≤ value.value then some (.invalidArgument "value >= this.modulus")
  else none

/-- The array `y`: the bytes of the value without its sign byte, at the end of the blob. -/
def residueBytes (blobSize : Nat) (value : BigInteger) : Except Status (List UInt8) :=
  let x := value.toByteArray
  let i := if x.length = 1 ∨ x.head? ≠ some 0#8 then 0 else 1
  if blobSize < x.length - i then .error .indexOutOfBoundsException
  else .ok ((List.replicate (blobSize - (x.length - i)) 0#8 ++ x.drop i).map UInt8.ofBitVec)

/-- `setSValue`; a null reference stands for zero. -/
def setSValue (modulus : BigInteger) (otIndex pairIndex : Int) (value : Option BigInteger) :
    CellM Unit := do
  let value := value.getD .ZERO
  check (residueCheck modulus value)
  let c ← get
  match residueBytes c.blobSize value with
  | .error e => throw e
  | .ok y => Ot.setSValue otIndex pairIndex (some y) 0

/-- `setUValue`; a null reference stands for zero. -/
def setUValue (modulus : BigInteger) (otIndex : Int) (value : Option BigInteger) : CellM Unit := do
  let value := value.getD .ZERO
  check (residueCheck modulus value)
  let c ← get
  match residueBytes c.blobSize value with
  | .error e => throw e
  | .ok y => Ot.setUValue otIndex (some y) 0

section

variable (draw : Nat → Nat → Nat → UInt8)

/-- `buffer[i].position(j)` and then `n` bytes of `Rand.modular`; `draw i j k` is byte `k` of the
call at offset `j` of buffer `i`. -/
def modular (i j n : Int) : BufferM Unit := fill (fun i q ↦ draw i j.toNat (q - j.toNat)) i j n

/-- `buffer[i].position(j)` and then all remaining bytes. -/
def modularRest (i j : Int) : BufferM Unit :=
  fillRest (fun i q ↦ draw i j.toNat (q - j.toNat)) i j

/-- `for (; i != iEnd; ++i)` fill buffer `i`. -/
def modularBetween (iEnd : Int) : Nat → Int → BufferM Unit
  | 0, _ => throw .indexOutOfBoundsException
  | n + 1, i =>
    if i = iEnd then pure ()
    else do
      modularRest draw i 0
      modularBetween iEnd n (i + 1)

/-- Fill the positions from `p0` to `p1` with residues. -/
def modularRange (p0 p1 : Int) : BufferM Unit := do
  let (i0, j0) ← located p0
  let (i1, j1) ← located p1
  if i0 = i1 then modular draw i0 j0 (j1 - j0 + 1)
  else do
    modularRest draw i0 j0
    let B ← get
    modularBetween draw i1 (B.capacity.length + 1) (i0 + 1)
    modular draw i1 0 (j1 + 1)

/-- `randomize`. -/
def randomize (freshB : Nat → Nat → UInt8) (otOffset otLength : Int) : CellM Unit := do
  check (randomizeCheck otOffset otLength)
  let c ← get
  onB (fillRange freshB (otOffset.tdiv 8) ((otOffset + otLength - 1).tdiv 8))
  onS (modularRange draw (otOffset * 2 * c.blobSize)
    ((otOffset + otLength) * 2 * c.blobSize - 1))
  selectRange otLength.toNat otOffset

end

/-! ### The bytes of a residue -/

theorem bigInteger_map (bytes : List (BitVec 8)) :
    (bigInteger (bytes.map UInt8.ofBitVec) : ℤ) = unsignedValue bytes := by
  have hfold : ∀ n : Nat,
      (((bytes.map UInt8.ofBitVec).foldl (fun n byte ↦ 256 * n + byte.toNat) n : Nat) : ℤ) =
        n * 256 ^ bytes.length + unsignedValue bytes := by
    induction bytes with
    | nil => intro n; simp [unsignedValue]
    | cons byte bytes ih =>
      intro n
      have hbyte : (UInt8.ofBitVec byte).toNat = byte.toNat := rfl
      rw [List.map_cons, List.foldl_cons, ih, unsignedValue, List.length_cons, hbyte]
      push_cast
      ring
  have hzero := hfold 0
  rw [Nat.cast_zero, zero_mul, zero_add] at hzero
  exact hzero

/-- A zero byte in front does not count. -/
theorem bigInteger_cons_zero (bytes : List UInt8) : bigInteger (0 :: bytes) = bigInteger bytes := rfl

/-- The bytes without the sign byte have the value, and there are no more of them than needed. -/
theorem drop_toByteArray {size : Nat} {value : BigInteger} (hsize : 0 < size)
    (h0 : 0 ≤ value.value) (hlt : value.value < 256 ^ size) (i : Nat)
    (hi : i = if value.toByteArray.length = 1 ∨ value.toByteArray.head? ≠ some 0#8 then 0 else 1) :
    value.toByteArray.length - i ≤ size ∧
      unsignedValue (value.toByteArray.drop i) = value.value := by
  have hbits : value.bitLength ≤ 8 * size := by
    have hpow : (256 : ℤ) ^ size = ((2 ^ (8 * size) : ℕ) : ℤ) := by
      rw [pow_mul]
      push_cast
      rfl
    rw [BigInteger.bitLength, if_neg (by omega)]
    exact Nat.size_le.mpr (by omega)
  have hvalue : unsignedValue value.toByteArray = value.value := by
    have hhi := value.value_bounds.2
    rw [BigInteger.toByteArray, unsignedValue_signedBytes]
    apply Int.emod_eq_of_lt h0
    rw [pow_succ]
    omega
  have hlength := value.length_toByteArray
  split at hi
  · next hsign =>
    subst hi
    rw [List.drop_zero, Nat.sub_zero]
    refine ⟨?_, hvalue⟩
    by_contra hlong
    -- the sign byte is the only one that does not fit
    have hdiv : value.bitLength / 8 = size := by omega
    rcases hsign with hone | hhead
    · omega
    · apply hhead
      rw [BigInteger.toByteArray, hdiv, signedBytes, List.head?_cons,
        Int.ediv_eq_zero_of_lt h0 hlt]
      rfl
  · next hsign =>
    subst hi
    rw [not_or, not_not] at hsign
    obtain ⟨tail, htail⟩ := List.head?_eq_some_iff.mp hsign.2
    refine ⟨by omega, ?_⟩
    rw [htail, unsignedValue, BitVec.toNat_zero, Nat.cast_zero, zero_mul, zero_add] at hvalue
    rw [htail]
    exact hvalue

/-- A value that fits is stored in the blob. -/
theorem residueBytes_ok {size : Nat} {value : BigInteger} (hsize : 0 < size)
    (h0 : 0 ≤ value.value) (hlt : value.value < 256 ^ size) :
    ∃ bytes, residueBytes size value = .ok bytes ∧ bytes.length = size ∧
      (bigInteger bytes : ℤ) = value.value := by
  obtain ⟨hle, hvalue⟩ := drop_toByteArray hsize h0 hlt _ rfl
  refine ⟨_, if_neg (Nat.not_lt.mpr hle), ?_, ?_⟩
  · rw [List.length_map, List.length_append, List.length_replicate, List.length_drop]
    omega
  · rw [bigInteger_map, unsignedValue_replicate_append]
    exact hvalue

end ResidueOtCell

end Safrn.Ot

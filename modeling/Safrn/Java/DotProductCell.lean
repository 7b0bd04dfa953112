import Mathlib.Data.List.Induction
import Mathlib.Logic.Function.Basic
import Safrn.Base.Blocks
import Safrn.Java.BigInteger

/-!
# The values of a dot product cell

Models the constructor, `getAbBig`, `setAb` and `close` of `DotProductCell.java:188-387`. The values
are kept in a mapped file, in an array of machine integers or in an array of big integers. A new
file is filled with zeros.
-/

namespace Safrn.Java

open Safrn.Base

/-- A `MappedByteBuffer` whose limit is its capacity. -/
structure MappedByteBuffer where
  bytes : List (BitVec 8)
  position : ℕ

namespace MappedByteBuffer

/-- `position(newPosition)`. -/
def setPosition (buf : MappedByteBuffer) (newPosition : ℤ) : Except Status MappedByteBuffer :=
  if newPosition < 0 ∨ buf.bytes.length < newPosition then .error .illegalArgumentException
  else .ok { buf with position := newPosition.toNat }

/-- `put(src)`. -/
def put (buf : MappedByteBuffer) (src : List (BitVec 8)) : Except Status MappedByteBuffer :=
  if buf.position + src.length ≤ buf.bytes.length then
    .ok ⟨overwrite buf.position src buf.bytes, buf.position + src.length⟩
  else .error .bufferOverflowException

/-- `put((byte)0)`, so many times. -/
def putZeros : ℕ → MappedByteBuffer → Except Status MappedByteBuffer
  | 0, buf => .ok buf
  | n + 1, buf => (buf.put [0#8]).bind (putZeros n)

/-- `get(dst)` for an array of `n` bytes. -/
def get (buf : MappedByteBuffer) (n : ℕ) : Except Status (List (BitVec 8) × MappedByteBuffer) :=
  if buf.position + n ≤ buf.bytes.length then
    .ok ((buf.bytes.drop buf.position).take n, { buf with position := buf.position + n })
  else .error .bufferUnderflowException

end MappedByteBuffer

/-- `a[i]`. -/
def getArray {α : Type} (a : List α) (i : BitVec 32) : Except Status α :=
  if i.toInt < 0 then .error .indexOutOfBoundsException
  else match a[i.toInt.toNat]? with
    | none => .error .indexOutOfBoundsException
    | some x => .ok x

/-- `a[i] = x`. -/
def setArray {α : Type} (a : List α) (i : BitVec 32) (x : α) : Except Status (List α) :=
  if 0 ≤ i.toInt ∧ i.toInt < a.length then .ok (a.set i.toInt.toNat x)
  else .error .indexOutOfBoundsException

/-- `new T[n]`. -/
def newArray {α : Type} (n : BitVec 32) (x : α) : Except Status (List α) :=
  if n.toInt < 0 then .error .negativeArraySizeException
  else .ok (List.replicate n.toInt.toNat x)

/-- The one of the fields `abBig`, `abFileMap`, `abInt` and `abLong` that is not null. -/
inductive Ab
  | abBig (abBig : List BigInteger)
  | abFile (abFileMap : MappedByteBuffer)
  | abInt (abInt : List (BitVec 32))
  | abLong (abLong : List (BitVec 64))
  | closed

structure DotProductCell where
  ab : Ab
  abLength : BitVec 32
  abMaxSize : ℕ
  rz : BigInteger

namespace DotProductCell

/-- The file of a new cell. -/
def newFile (groupSizeBound : BitVec 32) (abMaxSize : ℕ) : Except Status MappedByteBuffer :=
  if groupSizeBound.toInt > (Integer.MAX_VALUE / abMaxSize : ℕ) then .error .limitExceeded
  else
    let n := groupSizeBound * BitVec.ofNat 32 abMaxSize
    if n.toInt < 0 then .error .ioException
    else .ok ⟨List.replicate n.toInt.toNat 0#8, 0⟩

/-- How a new cell keeps its values. -/
def newAb (groupSizeBound : BitVec 32) (modulus : BigInteger) (useFilesForLargeMemory : Bool)
    (abMaxSize : ℕ) : Except Status Ab :=
  if useFilesForLargeMemory then (newFile groupSizeBound abMaxSize).map .abFile
  else if modulus.value ≤ Integer.MAX_VALUE then (newArray groupSizeBound 0).map .abInt
  else if modulus.value ≤ Long.MAX_VALUE then (newArray groupSizeBound 0).map .abLong
  else (newArray groupSizeBound .ZERO).map .abBig

/-- `DotProductCell(groupSizeBound, modulus, useFilesForLargeMemory)`. -/
def new (groupSizeBound : BitVec 32) (modulus : BigInteger) (useFilesForLargeMemory : Bool) :
    Except Status DotProductCell := do
  let abMaxValue ← modulus.subtract .ONE
  let abMaxSize := abMaxValue.toByteArray.length
  let ab ← newAb groupSizeBound modulus useFilesForLargeMemory abMaxSize
  return ⟨ab, groupSizeBound, abMaxSize, .ZERO⟩

/-- `close`. -/
def close (cell : DotProductCell) : DotProductCell :=
  match cell.ab with
  | .abFile _ => { cell with ab := .closed }
  | _ => cell

/-- `getAbBig`, which moves the position of the file. -/
def getAbBig (cell : DotProductCell) (i : BitVec 32) :
    Except Status (BigInteger × DotProductCell) :=
  match cell.ab with
  | .abBig abBig => do
    let x ← getArray abBig i
    return (x, cell)
  | .abFile abFileMap => do
    let abFileMap ← abFileMap.setPosition (i * BitVec.ofNat 32 cell.abMaxSize).toInt
    let (b, abFileMap) ← abFileMap.get cell.abMaxSize
    let x ← BigInteger.ofBytes b
    return (x, { cell with ab := .abFile abFileMap })
  | .abInt abInt => do
    let x ← getArray abInt i
    return (.valueOf (x.signExtend 64), cell)
  | .abLong abLong => do
    let x ← getArray abLong i
    return (.valueOf x, cell)
  | .closed => .error .missingCase

/-- `setAb`. -/
def setAb (cell : DotProductCell) (i : BitVec 32) (x : BigInteger) : Except Status DotProductCell :=
  match cell.ab with
  | .abBig abBig => do
    let abBig ← setArray abBig i x
    return { cell with ab := .abBig abBig }
  | .abFile abFileMap => do
    let b := x.toByteArray
    let abFileMap ← abFileMap.setPosition (i * BitVec.ofNat 32 cell.abMaxSize).toInt
    -- the counter wraps around when there are more bytes than `abMaxSize`
    let abFileMap ← abFileMap.putZeros (BitVec.ofInt 32 (cell.abMaxSize - b.length)).toNat
    let abFileMap ← abFileMap.put b
    return { cell with ab := .abFile abFileMap }
  | .abInt abInt => do
    let abInt ← setArray abInt i x.intValue
    return { cell with ab := .abInt abInt }
  | .abLong abLong => do
    let abLong ← setArray abLong i x.longValue
    return { cell with ab := .abLong abLong }
  | .closed => .error .missingCase

/-- The operations on a cell. -/
inductive Op
  | setAb (i : BitVec 32) (x : BigInteger)
  | getAbBig (i : BitVec 32)

def step (cell : DotProductCell) : Op → Except Status DotProductCell
  | .setAb i x => cell.setAb i x
  | .getAbBig i => (cell.getAbBig i).map Prod.snd

/-- The operations, one after the other. -/
def run : DotProductCell → List Op → Except Status DotProductCell
  | cell, [] => .ok cell
  | cell, op :: ops => (cell.step op).bind fun cell ↦ run cell ops

end DotProductCell

/-! ## Arrays -/

section Arrays

variable {α β : Type} {n i : BitVec 32} {f : β → α} {m : ℕ → β}

/-- The elements of an array that holds values `m`. -/
def arrayOf (f : β → α) (m : ℕ → β) (n : BitVec 32) : List α :=
  (List.range n.toInt.toNat).map fun i ↦ f (m i)

theorem newArray_eq (hn : 0 ≤ n.toInt) (x : β) :
    newArray n (f x) = .ok (arrayOf f (fun _ ↦ x) n) := by
  rw [newArray, if_neg (by omega), arrayOf, List.map_const', List.length_range]

theorem getArray_arrayOf (h0 : 0 ≤ i.toInt) (hi : i.toInt < n.toInt) :
    getArray (arrayOf f m n) i = .ok (f (m i.toInt.toNat)) := by
  have hget : (arrayOf f m n)[i.toInt.toNat]? = some (f (m i.toInt.toNat)) := by
    rw [arrayOf, List.getElem?_map, List.getElem?_range (by omega), Option.map_some]
  rw [getArray, if_neg (by omega), hget]

theorem setArray_arrayOf (h0 : 0 ≤ i.toInt) (hi : i.toInt < n.toInt) (x : β) :
    setArray (arrayOf f m n) i (f x) =
      .ok (arrayOf f (Function.update m i.toInt.toNat x) n) := by
  have hset : (arrayOf f m n).set i.toInt.toNat (f x) =
      arrayOf f (Function.update m i.toInt.toNat x) n := by
    apply List.ext_getElem
    · simp [arrayOf]
    · intro k hk hk'
      simp only [arrayOf, List.getElem_set, List.getElem_map, List.getElem_range]
      by_cases hki : k = i.toInt.toNat
      · rw [if_pos hki.symm, hki, Function.update_self]
      · rw [if_neg (Ne.symm hki), Function.update_of_ne hki]
  have hlength : i.toInt < (arrayOf f m n).length := by
    simp only [arrayOf, List.length_map, List.length_range]
    omega
  rw [setArray, if_pos ⟨h0, hlength⟩, hset]

end Arrays

/-! ## Files -/

namespace MappedByteBuffer

/-- Zeros and then bytes are written. -/
theorem putZeros_put {buf : MappedByteBuffer} {n : ℕ} {src : List (BitVec 8)}
    (h : buf.position + (n + src.length) ≤ buf.bytes.length) :
    ∃ buf', buf.putZeros n = .ok buf' ∧
      buf'.put src = .ok ⟨overwrite buf.position (List.replicate n 0#8 ++ src) buf.bytes,
        buf.position + (n + src.length)⟩ := by
  induction n generalizing buf with
  | zero =>
    refine ⟨buf, rfl, ?_⟩
    rw [List.replicate_zero, List.nil_append, Nat.zero_add]
    exact if_pos (by omega)
  | succ n ih =>
    have hone : buf.position + [0#8].length ≤ buf.bytes.length := by
      simp only [List.length_singleton]
      omega
    have hput : buf.put [0#8] =
        .ok ⟨overwrite buf.position [0#8] buf.bytes, buf.position + [0#8].length⟩ := if_pos hone
    have hrest : buf.position + [0#8].length + (n + src.length) ≤
        (overwrite buf.position [0#8] buf.bytes).length := by
      rw [length_overwrite hone]
      simp only [List.length_singleton]
      omega
    obtain ⟨buf', hzeros, hsrc⟩ := @ih ⟨overwrite buf.position [0#8] buf.bytes, _⟩ hrest
    refine ⟨buf', ?_, ?_⟩
    · rw [putZeros, hput]
      exact hzeros
    · rw [hsrc]
      simp only [Except.ok.injEq, mk.injEq]
      constructor
      · exact overwrite_overwrite hone
      · simp only [List.length_singleton]
        omega

/-- A position within the file. -/
theorem setPosition_eq {buf : MappedByteBuffer} {p : ℕ} (h : p ≤ buf.bytes.length) :
    buf.setPosition p = .ok { buf with position := p } := by
  rw [setPosition, if_neg (by omega), Int.toNat_natCast]

end MappedByteBuffer

/-- A product of `int` values that is none too large. -/
theorem toInt_mul_ofNat {i : BitVec 32} {size : ℕ} (h0 : 0 ≤ i.toInt)
    (hsize : size ≤ Integer.MAX_VALUE) (h : i.toInt.toNat * size ≤ Integer.MAX_VALUE) :
    (i * BitVec.ofNat 32 size).toInt = (i.toInt.toNat * size : ℕ) := by
  have hmax : Integer.MAX_VALUE = 2147483647 := rfl
  have hsize : (BitVec.ofNat 32 size).toInt = size := by
    rw [BitVec.toInt_eq_toNat_bmod, BitVec.toNat_ofNat, Nat.mod_eq_of_lt (by omega)]
    exact Int.bmod_eq_of_le (by omega) (by omega)
  have hcast : i.toInt * size = (i.toInt.toNat * size : ℕ) := by
    rw [Nat.cast_mul, Int.toNat_of_nonneg h0]
  rw [BitVec.toInt_mul, hsize, hcast]
  exact Int.bmod_eq_of_le (by omega) (by omega)

namespace DotProductCell

variable {modulus abMaxValue x : BigInteger} {n i : BitVec 32} {m : ℕ → BigInteger}
  {cell : DotProductCell}

/-- A value of a cell. -/
def Fits (modulus x : BigInteger) : Prop :=
  0 ≤ x.value ∧ (x.value = 0 ∨ x.value < modulus.value)

/-- The values `m`, as they are kept. -/
def Holds (modulus : BigInteger) (n : BitVec 32) (m : ℕ → BigInteger) (abMaxSize : ℕ) : Ab → Prop
  | .abBig abBig => abBig = arrayOf (fun x ↦ x) m n
  | .abFile abFileMap => n.toInt.toNat * abMaxSize ≤ Integer.MAX_VALUE ∧
      abFileMap.bytes.length = n.toInt.toNat * abMaxSize ∧
      ∀ i < n.toInt.toNat, block abMaxSize i abFileMap.bytes = signedBytes abMaxSize (m i).value
  | .abInt abInt => modulus.value ≤ Integer.MAX_VALUE ∧ abInt = arrayOf BigInteger.intValue m n
  | .abLong abLong => modulus.value ≤ Long.MAX_VALUE ∧ abLong = arrayOf BigInteger.longValue m n
  | .closed => False

/-- The cell keeps the values `m`. -/
structure Represents (modulus : BigInteger) (n : BitVec 32) (m : ℕ → BigInteger)
    (cell : DotProductCell) : Prop where
  fits : ∀ i, Fits modulus (m i)
  abMaxSize : ∃ abMaxValue, modulus.subtract .ONE = .ok abMaxValue ∧
    cell.abMaxSize = abMaxValue.toByteArray.length
  holds : Holds modulus n m cell.abMaxSize cell.ab

/-! ## Sizes -/

private theorem subtract_one (h : modulus.subtract .ONE = .ok abMaxValue) :
    abMaxValue.value = modulus.value - 1 := by
  rw [BigInteger.subtract, BigInteger.ofInt] at h
  split at h
  · cases h
    rfl
  · cases h

/-- A value has no more bytes than the greatest one. -/
theorem Fits.length_le (hx : Fits modulus x) (h : modulus.subtract .ONE = .ok abMaxValue) :
    x.toByteArray.length ≤ abMaxValue.toByteArray.length := by
  have hvalue := subtract_one h
  obtain ⟨h0, hzero | hlt⟩ := hx
  · have hx : x.bitLength = 0 := by simp [BigInteger.bitLength, hzero]
    rw [BigInteger.length_toByteArray, BigInteger.length_toByteArray, hx]
    omega
  · have hle := BigInteger.bitLength_le (y := abMaxValue) h0 (by omega)
    rw [BigInteger.length_toByteArray, BigInteger.length_toByteArray]
    omega

/-- A value is read back from the bytes of the greatest one. -/
theorem Fits.ofBytes_signedBytes (hx : Fits modulus x)
    (h : modulus.subtract .ONE = .ok abMaxValue) :
    BigInteger.ofBytes (signedBytes abMaxValue.toByteArray.length x.value) = .ok x := by
  have hvalue := subtract_one h
  have hpow : (0 : ℤ) < 128 * 256 ^ (abMaxValue.bitLength / 8) := by positivity
  have hhi : x.value < 128 * 256 ^ (abMaxValue.bitLength / 8) := by
    have hmax := abMaxValue.value_bounds.2
    obtain ⟨h0, hzero | hlt⟩ := hx <;> omega
  have hlo : -(128 * 256 ^ (abMaxValue.bitLength / 8)) ≤ x.value := by
    have h0 := hx.1
    omega
  have hne : signedBytes (abMaxValue.bitLength / 8 + 1) x.value ≠ [] := List.cons_ne_nil _ _
  rw [BigInteger.length_toByteArray, BigInteger.ofBytes, if_neg hne,
    signedValue_signedBytes hlo hhi, BigInteger.ofInt_value]

/-! ## The operations keep the values -/

theorem fits_zero : Fits modulus .ZERO := ⟨Int.le_refl 0, .inl rfl⟩

/-- A new file is filled with zeros. -/
theorem holds_newFile {f : MappedByteBuffer} (hn : 0 ≤ n.toInt)
    (h : newFile n abMaxValue.toByteArray.length = .ok f) :
    Holds modulus n (fun _ ↦ .ZERO) abMaxValue.toByteArray.length (.abFile f) := by
  have hmax := abMaxValue.length_toByteArray_le
  have hpos : 0 < abMaxValue.toByteArray.length :=
    List.length_pos_iff.mpr abMaxValue.toByteArray_ne_nil
  generalize abMaxValue.toByteArray.length = size at h hmax hpos
  rw [newFile] at h
  split at h
  · cases h
  · next hle =>
    have hfits : n.toInt.toNat * size ≤ Integer.MAX_VALUE :=
      (Nat.le_div_iff_mul_le hpos).mp (by omega)
    simp only [toInt_mul_ofNat hn hmax hfits, Int.toNat_natCast] at h
    rw [if_neg (by omega)] at h
    obtain rfl := Except.ok.inj h
    refine ⟨hfits, List.length_replicate, fun i hi ↦ ?_⟩
    have hblock : i * size + size ≤ n.toInt.toNat * size := by
      rw [← Nat.succ_mul]
      exact Nat.mul_le_mul_right size hi
    have hzero := signedBytes_of_lt (n := 0) (x := 0) (Int.le_refl 0) (by decide) size
    rw [block_replicate hblock, BigInteger.ZERO]
    simpa [signedBytes] using hzero.symm

/-- A new cell keeps zeros. -/
theorem Represents.of_new {useFilesForLargeMemory : Bool} (hn : 0 ≤ n.toInt)
    (h : new n modulus useFilesForLargeMemory = .ok cell) :
    Represents modulus n (fun _ ↦ .ZERO) cell := by
  obtain ⟨abMaxValue, hsub, h⟩ := bind_eq_ok.mp h
  obtain ⟨ab, hab, h⟩ := bind_eq_ok.mp h
  obtain rfl := Except.ok.inj h
  refine ⟨fun i ↦ fits_zero, ⟨abMaxValue, hsub, rfl⟩, ?_⟩
  rw [newAb] at hab
  split at hab
  · obtain ⟨f, hf, rfl⟩ := map_eq_ok.mp hab
    exact holds_newFile hn hf
  · split at hab
    · next hmodulus =>
      obtain ⟨a, ha, rfl⟩ := map_eq_ok.mp hab
      rw [show (0 : BitVec 32) = BigInteger.ZERO.intValue from rfl, newArray_eq hn] at ha
      exact ⟨hmodulus, (Except.ok.inj ha).symm⟩
    · split at hab
      · next hmodulus =>
        obtain ⟨a, ha, rfl⟩ := map_eq_ok.mp hab
        rw [show (0 : BitVec 64) = BigInteger.ZERO.longValue from rfl, newArray_eq hn] at ha
        exact ⟨hmodulus, (Except.ok.inj ha).symm⟩
      · obtain ⟨a, ha, rfl⟩ := map_eq_ok.mp hab
        rw [newArray_eq (f := fun x ↦ x) hn] at ha
        exact (Except.ok.inj ha).symm

/-- A cell is made unless it needs too large a file. -/
theorem exists_new_iff {useFilesForLargeMemory : Bool} (hn : 0 ≤ n.toInt)
    (hsub : modulus.subtract .ONE = .ok abMaxValue) :
    (∃ cell, new n modulus useFilesForLargeMemory = .ok cell) ↔
      (useFilesForLargeMemory = true →
        n.toInt ≤ (Integer.MAX_VALUE / abMaxValue.toByteArray.length : ℕ)) := by
  have hmax := abMaxValue.length_toByteArray_le
  have hpos : 0 < abMaxValue.toByteArray.length :=
    List.length_pos_iff.mpr abMaxValue.toByteArray_ne_nil
  simp only [new, hsub, ok_bind, bind_eq_ok]
  generalize abMaxValue.toByteArray.length = size at hmax hpos
  cases useFilesForLargeMemory with
  | false =>
    refine ⟨fun _ h ↦ by simp at h, fun _ ↦ ?_⟩
    simp only [newAb, Bool.false_eq_true, if_false, newArray, if_neg (show ¬ n.toInt < 0 by omega)]
    split
    · exact ⟨_, _, rfl, rfl⟩
    · split <;> exact ⟨_, _, rfl, rfl⟩
  | true =>
    simp only [newAb, if_true, newFile, forall_const]
    constructor
    · rintro ⟨cell, ab, hab, -⟩
      obtain ⟨f, hf, -⟩ := map_eq_ok.mp hab
      by_contra hgt
      rw [if_pos (by omega)] at hf
      cases hf
    · intro hle
      have hfits : n.toInt.toNat * size ≤ Integer.MAX_VALUE :=
        (Nat.le_div_iff_mul_le hpos).mp (by omega)
      rw [if_neg (by omega), toInt_mul_ofNat hn hmax hfits, if_neg (by omega)]
      exact ⟨_, _, rfl, rfl⟩

/-- The place of a value in the file. -/
private theorem place_le (size : ℕ) (h0 : 0 ≤ i.toInt) (hi : i.toInt < n.toInt) :
    i.toInt.toNat * size + size ≤ n.toInt.toNat * size := by
  rw [← Nat.succ_mul]
  exact Nat.mul_le_mul_right size (by omega)

theorem Fits.update (hfits : ∀ i, Fits modulus (m i)) (hx : Fits modulus x) (k : ℕ) :
    ∀ i, Fits modulus (Function.update m k x i) := by
  intro i
  by_cases hik : i = k
  · rw [hik, Function.update_self]
    exact hx
  · rw [Function.update_of_ne hik]
    exact hfits i

/-- The file after the bytes of a value are written to its place. -/
theorem holds_writeFile {f : MappedByteBuffer} {size : ℕ}
    (hholds : Holds modulus n m size (.abFile f)) (h0 : 0 ≤ i.toInt) (hi : i.toInt < n.toInt)
    (hx : 0 ≤ x.value) (hle : x.toByteArray.length ≤ size) :
    ∃ f₁ f₂ f₃, f.setPosition (i * BitVec.ofNat 32 size).toInt = .ok f₁ ∧
      f₁.putZeros (BitVec.ofInt 32 (size - x.toByteArray.length)).toNat = .ok f₂ ∧
      f₂.put x.toByteArray = .ok f₃ ∧
      Holds modulus n (Function.update m i.toInt.toNat x) size (.abFile f₃) := by
  obtain ⟨hmax, hlength, hblocks⟩ := hholds
  have hplace := place_le size h0 hi
  have hint : Integer.MAX_VALUE = 2147483647 := rfl
  have hposition : f.setPosition (i * BitVec.ofNat 32 size).toInt =
      .ok ⟨f.bytes, i.toInt.toNat * size⟩ := by
    rw [toInt_mul_ofNat h0 (by omega) (by omega), MappedByteBuffer.setPosition_eq (by omega)]
  have hzeros : (BitVec.ofInt 32 (size - x.toByteArray.length)).toNat =
      size - x.toByteArray.length := by
    rw [BitVec.toNat_ofInt, Int.emod_eq_of_lt (by omega) (by omega)]
    omega
  have hfit : i.toInt.toNat * size + (size - x.toByteArray.length + x.toByteArray.length) ≤
      f.bytes.length := by omega
  have hlast : i.toInt.toNat * size + size ≤ f.bytes.length := by omega
  have hbytes : i.toInt.toNat * size + (signedBytes size x.value).length ≤ f.bytes.length := by
    rwa [length_signedBytes]
  obtain ⟨f₂, hf₂, hput⟩ := @MappedByteBuffer.putZeros_put ⟨f.bytes, _⟩ _ _ hfit
  rw [BigInteger.replicate_append_toByteArray hx hle] at hput
  refine ⟨_, f₂, _, hposition, by rw [hzeros, hf₂], hput, hmax, ?_, fun j hj ↦ ?_⟩
  · rw [length_overwrite hbytes, hlength]
  · rw [block_overwrite (length_signedBytes size x.value) hlast]
    by_cases hji : j = i.toInt.toNat
    · rw [if_pos hji, hji, Function.update_self]
    · rw [if_neg hji, Function.update_of_ne hji, hblocks j hj]

/-- `setAb` replaces the value at its index. -/
theorem Represents.setAb (h : Represents modulus n m cell) (h0 : 0 ≤ i.toInt)
    (hi : i.toInt < n.toInt) (hx : Fits modulus x) :
    ∃ cell', cell.setAb i x = .ok cell' ∧
      Represents modulus n (Function.update m i.toInt.toNat x) cell' := by
  obtain ⟨hfits, hsize, hholds⟩ := h
  have hfits := hx.update hfits i.toInt.toNat
  rw [DotProductCell.setAb]
  match hab : cell.ab with
  | .abBig a =>
    rw [hab] at hholds
    obtain rfl := hholds
    refine ⟨{ cell with ab := .abBig _ }, ?_, hfits, hsize, rfl⟩
    dsimp only
    rw [setArray_arrayOf (f := fun x ↦ x) h0 hi]
    rfl
  | .abFile f =>
    rw [hab] at hholds
    obtain ⟨abMaxValue, hsub, heq⟩ := hsize
    have hle := hx.length_le hsub
    rw [← heq] at hle
    obtain ⟨f₁, f₂, f₃, hposition, hzeros, hput, hholds⟩ := holds_writeFile hholds h0 hi hx.1 hle
    refine ⟨{ cell with ab := .abFile f₃ }, ?_, hfits, ⟨abMaxValue, hsub, heq⟩, hholds⟩
    simp only [hposition, ok_bind, hzeros, hput]
    rfl
  | .abInt a =>
    rw [hab] at hholds
    obtain ⟨hmodulus, rfl⟩ := hholds
    refine ⟨{ cell with ab := .abInt _ }, ?_, hfits, hsize, hmodulus, rfl⟩
    dsimp only
    rw [setArray_arrayOf h0 hi]
    rfl
  | .abLong a =>
    rw [hab] at hholds
    obtain ⟨hmodulus, rfl⟩ := hholds
    refine ⟨{ cell with ab := .abLong _ }, ?_, hfits, hsize, hmodulus, rfl⟩
    dsimp only
    rw [setArray_arrayOf h0 hi]
    rfl
  | .closed =>
    rw [hab] at hholds
    exact hholds.elim

/-- A machine integer stands for the value that it was made from. -/
private theorem intValue_eq (hx : Fits modulus x) (h : modulus.value ≤ Integer.MAX_VALUE) :
    BigInteger.valueOf (x.intValue.signExtend 64) = x := by
  have hint : Integer.MAX_VALUE = 2147483647 := rfl
  apply BigInteger.ext
  simp only [BigInteger.valueOf, BigInteger.intValue]
  rw [BitVec.toInt_signExtend_of_le (by decide), BitVec.toInt_ofInt]
  obtain ⟨h0, hzero | hlt⟩ := hx <;> exact Int.bmod_eq_of_le (by omega) (by omega)

private theorem longValue_eq (hx : Fits modulus x) (h : modulus.value ≤ Long.MAX_VALUE) :
    BigInteger.valueOf x.longValue = x := by
  have hlong : Long.MAX_VALUE = 9223372036854775807 := rfl
  apply BigInteger.ext
  simp only [BigInteger.valueOf, BigInteger.longValue]
  rw [BitVec.toInt_ofInt]
  obtain ⟨h0, hzero | hlt⟩ := hx <;> exact Int.bmod_eq_of_le (by omega) (by omega)

/-- The bytes of a value are read from its place in the file. -/
theorem holds_readFile {f : MappedByteBuffer} {size : ℕ}
    (hholds : Holds modulus n m size (.abFile f)) (h0 : 0 ≤ i.toInt) (hi : i.toInt < n.toInt) :
    ∃ f₁ f₂, f.setPosition (i * BitVec.ofNat 32 size).toInt = .ok f₁ ∧
      f₁.get size = .ok (signedBytes size (m i.toInt.toNat).value, f₂) ∧
      Holds modulus n m size (.abFile f₂) := by
  obtain ⟨hmax, hlength, hblocks⟩ := hholds
  have hplace := place_le size h0 hi
  have hposition : f.setPosition (i * BitVec.ofNat 32 size).toInt =
      .ok ⟨f.bytes, i.toInt.toNat * size⟩ := by
    rw [toInt_mul_ofNat h0 (by omega) (by omega), MappedByteBuffer.setPosition_eq (by omega)]
  refine ⟨_, ⟨f.bytes, i.toInt.toNat * size + size⟩, hposition, ?_, hmax, hlength, hblocks⟩
  rw [MappedByteBuffer.get, if_pos (by dsimp only; omega), ← hblocks _ (by omega)]
  rfl

/-- `getAbBig` returns the value at its index and keeps all values. -/
theorem Represents.getAbBig (h : Represents modulus n m cell) (h0 : 0 ≤ i.toInt)
    (hi : i.toInt < n.toInt) :
    ∃ cell', cell.getAbBig i = .ok (m i.toInt.toNat, cell') ∧ Represents modulus n m cell' := by
  obtain ⟨hfits, hsize, hholds⟩ := h
  rw [DotProductCell.getAbBig]
  match hab : cell.ab with
  | .abBig a =>
    rw [hab] at hholds
    obtain rfl := hholds
    refine ⟨cell, ?_, hfits, hsize, by rw [hab]; rfl⟩
    dsimp only
    rw [getArray_arrayOf h0 hi]
    rfl
  | .abFile f =>
    rw [hab] at hholds
    obtain ⟨abMaxValue, hsub, heq⟩ := hsize
    obtain ⟨f₁, f₂, hposition, hget, hholds⟩ := holds_readFile hholds h0 hi
    have hread := (hfits i.toInt.toNat).ofBytes_signedBytes hsub
    rw [← heq] at hread
    refine ⟨{ cell with ab := .abFile f₂ }, ?_, hfits, ⟨abMaxValue, hsub, heq⟩, hholds⟩
    simp only [hposition, ok_bind, hget, hread]
    rfl
  | .abInt a =>
    rw [hab] at hholds
    obtain ⟨hmodulus, rfl⟩ := hholds
    refine ⟨cell, ?_, hfits, hsize, by rw [hab]; exact ⟨hmodulus, rfl⟩⟩
    simp only [getArray_arrayOf h0 hi, ok_bind, intValue_eq (hfits _) hmodulus]
    rfl
  | .abLong a =>
    rw [hab] at hholds
    obtain ⟨hmodulus, rfl⟩ := hholds
    refine ⟨cell, ?_, hfits, hsize, by rw [hab]; exact ⟨hmodulus, rfl⟩⟩
    simp only [getArray_arrayOf h0 hi, ok_bind, longValue_eq (hfits _) hmodulus]
    rfl
  | .closed =>
    rw [hab] at hholds
    exact hholds.elim

/-! ## Runs -/

/-- The operation is within the cell, and sets a value below the modulus. -/
def Op.Valid (modulus : BigInteger) (n : BitVec 32) : Op → Prop
  | .setAb i x => 0 ≤ i.toInt ∧ i.toInt < n.toInt ∧ 0 ≤ x.value ∧ x.value < modulus.value
  | .getAbBig i => 0 ≤ i.toInt ∧ i.toInt < n.toInt

/-- The value last set at index `k`, or zero. -/
def lastSet (k : ℕ) (ops : List Op) : BigInteger :=
  ops.foldl (fun x op ↦ match op with
    | .setAb i y => if i.toInt.toNat = k then y else x
    | .getAbBig _ => x) .ZERO

/-- The values after an operation. -/
def Op.after (m : ℕ → BigInteger) : Op → ℕ → BigInteger
  | .setAb i x => Function.update m i.toInt.toNat x
  | .getAbBig _ => m

theorem Represents.step {op : Op} (h : Represents modulus n m cell) (hop : op.Valid modulus n) :
    ∃ cell', cell.step op = .ok cell' ∧ Represents modulus n (op.after m) cell' := by
  cases op with
  | setAb i x =>
    obtain ⟨h0, hi, hx0, hx⟩ := hop
    exact h.setAb h0 hi ⟨hx0, .inr hx⟩
  | getAbBig i =>
    obtain ⟨cell', hget, h⟩ := h.getAbBig hop.1 hop.2
    exact ⟨cell', by rw [DotProductCell.step, hget]; rfl, h⟩

theorem Represents.run {ops : List Op} (h : Represents modulus n m cell)
    (hops : ∀ op ∈ ops, op.Valid modulus n) :
    ∃ cell', cell.run ops = .ok cell' ∧ Represents modulus n (ops.foldl Op.after m) cell' := by
  induction ops generalizing cell m with
  | nil => exact ⟨cell, rfl, h⟩
  | cons op ops ih =>
    obtain ⟨cell₁, hstep, h₁⟩ := h.step (hops op List.mem_cons_self)
    obtain ⟨cell₂, hrun, h₂⟩ := ih h₁ fun op hop ↦ hops op (List.mem_cons_of_mem _ hop)
    refine ⟨cell₂, ?_, h₂⟩
    rw [DotProductCell.run, hstep]
    exact hrun

/-- The values after all operations are those last set. -/
theorem foldl_after (ops : List Op) (k : ℕ) :
    ops.foldl Op.after (fun _ ↦ .ZERO) k = lastSet k ops := by
  induction ops using List.reverseRecOn with
  | nil => rfl
  | append_singleton ops op ih =>
    rw [lastSet, List.foldl_append, List.foldl_append, ← lastSet]
    simp only [List.foldl_cons, List.foldl_nil]
    cases op with
    | setAb i x =>
      simp only [Op.after, Function.update_apply, ih, eq_comm]
    | getAbBig i => exact ih

/-- However a new cell keeps its values, after any sequence of operations it returns at each index
the value that was last set there. -/
theorem run_getAbBig {useFilesForLargeMemory : Bool}
    (hnew : new n modulus useFilesForLargeMemory = .ok cell) {ops : List Op}
    (hops : ∀ op ∈ ops, op.Valid modulus n) :
    ∃ cell', cell.run ops = .ok cell' ∧ ∀ i : BitVec 32, 0 ≤ i.toInt → i.toInt < n.toInt →
      ∃ cell'', cell'.getAbBig i = .ok (lastSet i.toInt.toNat ops, cell'') := by
  by_cases hn : 0 ≤ n.toInt
  · obtain ⟨cell', hrun, h⟩ := (Represents.of_new hn hnew).run hops
    refine ⟨cell', hrun, fun i h0 hi ↦ ?_⟩
    obtain ⟨cell'', hget, -⟩ := h.getAbBig h0 hi
    rw [foldl_after] at hget
    exact ⟨cell'', hget⟩
  · -- there is no index
    have hempty : ops = [] := by
      apply List.eq_nil_iff_forall_not_mem.mpr
      intro op hop
      have hvalid := hops op hop
      cases op <;> simp only [Op.Valid] at hvalid <;> omega
    subst hempty
    exact ⟨cell, rfl, fun i h0 hi ↦ by omega⟩

/-- What a small cell in a file returns. -/
theorem run_getAbBig_small :
    ∃ cell, new 2#32 ⟨200, by decide⟩ true = .ok cell ∧ ∃ cell',
      cell.run [.setAb 0#32 ⟨199, by decide⟩, .setAb 1#32 ⟨128, by decide⟩, .getAbBig 0#32,
        .setAb 0#32 ⟨7, by decide⟩] = .ok cell' ∧
      (∃ cell'', cell'.getAbBig 0#32 = .ok (⟨7, by decide⟩, cell'')) ∧
      ∃ cell'', cell'.getAbBig 1#32 = .ok (⟨128, by decide⟩, cell'') := by
  have hops : ∀ op ∈ [Op.setAb 0#32 ⟨199, by decide⟩, .setAb 1#32 ⟨128, by decide⟩, .getAbBig 0#32,
      .setAb 0#32 ⟨7, by decide⟩], op.Valid ⟨200, by decide⟩ 2#32 := by
    simp [Op.Valid]
  have hnew : ∃ cell, new 2#32 ⟨200, by decide⟩ true = .ok cell := ⟨_, rfl⟩
  obtain ⟨cell, hnew⟩ := hnew
  obtain ⟨cell', hrun, hget⟩ := run_getAbBig hnew hops
  exact ⟨cell, hnew, cell', hrun, hget 0#32 (by decide) (by decide),
    hget 1#32 (by decide) (by decide)⟩

end DotProductCell

end Safrn.Java

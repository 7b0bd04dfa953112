import Safrn.Base.BitField

/-!
# Cuckoo table cells and hashes

Models the fields and the hash of `CuckooTable.java:200-320,852-1049`. A Java `int` that the
table reads as an unsigned pattern is the `Nat` of that pattern. The four ciphers are a
parameter: nothing below depends on which block each of them produces.
-/

namespace Safrn.Cuckoo

open Safrn.Base

/-- `CuckooTable.NULL_XR`, the content of an empty cell. -/
def NULL_XR : Nat := 1

/-- The parameters of a table, with the bounds its constructor checks; `CuckooTable.java:212-249`.
`hashCiphers wa` is `doFinal` of the cipher keyed with `wa` on one 16-byte block. -/
structure HashParams where
  subtableBits : Nat
  xBits : Nat
  hashCiphers : Nat → (Fin 16 → UInt8) → Fin 16 → UInt8
  one_le_subtableBits : 1 ≤ subtableBits
  subtableBits_le : subtableBits ≤ 30
  two_le_xBits : 2 ≤ xBits
  xBits_le : xBits ≤ 32
  subtableBits_lt_xBits : subtableBits < xBits

namespace HashParams

variable (p : HashParams)

/-- The number of low bits of an element that a cell stores. -/
def rightBits : Nat := p.xBits - p.subtableBits

/-- The number of cells of one subtable. -/
def subtableSize : Nat := 1 <<< p.subtableBits

/-- The block that `f` encrypts: twelve zero bytes, then `xR` in big-endian order. -/
def block (xR : Nat) : Fin 16 → UInt8 := fun i ↦
  if i.val < 12 then 0 else UInt8.ofNat (xR >>> (8 * (15 - i.val)))

/-- The round function; `CuckooTable.java:852-907`. -/
def f (wa xR : Nat) : Nat :=
  let a := p.hashCiphers wa (block xR)
  let b := (a 0).toNat <<< 24 ||| (a 1).toNat <<< 16 ||| (a 2).toNat <<< 8 ||| (a 3).toNat <<< 0
  b &&& (p.subtableSize - 1)

/-- The cell index of an element in subtable `wa`; `CuckooTable.java:920-955`. -/
def hash (wa xL xR : Nat) : Nat := xL ^^^ p.f wa xR

/-- The high part of an element; `CuckooTable.java:968-981`. -/
def splitL (x : Nat) : Nat := x >>> p.rightBits

/-- The low part of an element; `CuckooTable.java:994-1007`. -/
def splitR (x : Nat) : Nat := x &&& ((1 <<< p.rightBits) - 1)

/-- The element stored as `xR` in cell `hwax` of subtable `wa`; `CuckooTable.java:1020-1049`. -/
def unhash (wa hwax xR : Nat) : Nat :=
  ((hwax ^^^ p.f wa xR) <<< p.rightBits) % 2 ^ 32 ||| xR

/-- The range check of an element, as the builds and the splits make it. -/
def inRange (x : Nat) : Bool := (x >>> (p.xBits - 1)) >>> 1 == 0

/-- The cell of an element in subtable `vc`. -/
def cell (vc x : Nat) : Nat := p.hash vc (p.splitL x) (p.splitR x)

/-- The element bits split into the cell index and the stored bits. -/
theorem subtableBits_add_rightBits : p.subtableBits + p.rightBits = p.xBits := by
  have := p.subtableBits_lt_xBits
  simp only [rightBits]
  omega

/-- At least one bit of an element is stored. -/
theorem rightBits_pos : 0 < p.rightBits := by
  have := p.subtableBits_lt_xBits
  simp only [rightBits]
  omega

/-- A stored part has at most 31 bits. -/
theorem rightBits_le : p.rightBits ≤ 31 := by
  have h₁ := p.one_le_subtableBits
  have h₂ := p.xBits_le
  simp only [rightBits]
  omega

/-- The subtable size is a power of two. -/
theorem subtableSize_eq : p.subtableSize = 2 ^ p.subtableBits := Nat.one_shiftLeft _

/-- A subtable has a cell. -/
theorem subtableSize_pos : 0 < p.subtableSize := by
  rw [subtableSize_eq]
  exact Nat.two_pow_pos _

/-- The range check accepts exactly the patterns of `xBits` bits. -/
theorem inRange_iff (x : Nat) : p.inRange x = true ↔ x < 2 ^ p.xBits := by
  have h := p.two_le_xBits
  have hx : p.xBits - 1 + 1 = p.xBits := by omega
  rw [inRange, beq_iff_eq, ← Nat.shiftRight_add, hx, shiftRight_eq_zero_iff]

/-- The round function gives a cell index. -/
theorem f_lt (wa xR : Nat) : p.f wa xR < 2 ^ p.subtableBits := and_mask_lt _ _

/-- The stored part of an element fits in its bits, as the checks of `hash` ask. -/
theorem splitR_lt (x : Nat) : p.splitR x < 2 ^ p.rightBits := and_mask_lt _ _

/-- The high part of an element in range fits in its bits, as the checks of `hash` ask. -/
theorem splitL_lt {x : Nat} (hx : x < 2 ^ p.xBits) : p.splitL x < 2 ^ p.subtableBits := by
  apply shiftRight_lt
  rwa [p.subtableBits_add_rightBits]

/-- The cell of an element in range is a cell of the subtable. -/
theorem cell_lt (vc : Nat) {x : Nat} (hx : x < 2 ^ p.xBits) : p.cell vc x < p.subtableSize := by
  rw [subtableSize_eq]
  exact Nat.xor_lt_two_pow (p.splitL_lt hx) (p.f_lt _ _)

/-- Unhashing undoes hashing for every element in range. -/
theorem unhash_cell (vc : Nat) {x : Nat} (hx : x < 2 ^ p.xBits) :
    p.unhash vc (p.cell vc x) (p.splitR x) = x := by
  have hl : p.splitL x <<< p.rightBits < 2 ^ 32 := by
    have h := p.splitL_lt hx
    have hb : 2 ^ p.subtableBits * 2 ^ p.rightBits ≤ 2 ^ 32 := by
      rw [← Nat.pow_add, p.subtableBits_add_rightBits]
      exact Nat.pow_le_pow_right (by decide) p.xBits_le
    rw [Nat.shiftLeft_eq]
    exact lt_of_lt_of_le (Nat.mul_lt_mul_of_pos_right h (Nat.two_pow_pos _)) hb
  rw [unhash, cell, hash, Nat.xor_xor_cancel_right, Nat.mod_eq_of_lt hl]
  exact pack_split x p.rightBits

/-- Two elements in range that share a cell and its content are equal. -/
theorem eq_of_cell_eq (vc : Nat) {x y : Nat} (hx : x < 2 ^ p.xBits) (hy : y < 2 ^ p.xBits)
    (hc : p.cell vc x = p.cell vc y) (hr : p.splitR x = p.splitR y) : x = y := by
  rw [← p.unhash_cell vc hx, ← p.unhash_cell vc hy, hc, hr]

/-- An even element is stored as an even part. -/
theorem splitR_even {x : Nat} (hx : x % 2 = 0) : p.splitR x % 2 = 0 := by
  obtain ⟨k, hk⟩ : ∃ k, p.rightBits = k + 1 := ⟨p.rightBits - 1, by have := p.rightBits_pos; omega⟩
  rw [splitR, and_mask, hk, Nat.pow_succ, Nat.mul_comm, Nat.mod_mul_right_mod, hx]

/-- An even element is never stored as the empty cell. -/
theorem splitR_ne_null {x : Nat} (hx : x % 2 = 0) : p.splitR x ≠ NULL_XR := by
  have h := p.splitR_even hx
  intro he
  rw [he] at h
  exact absurd h (by decide)

end HashParams
end Safrn.Cuckoo

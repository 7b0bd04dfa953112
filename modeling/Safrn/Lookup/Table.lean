import Safrn.Base.Loop
import Safrn.Base.Xor
import Mathlib.Algebra.BigOperators.Group.Finset.Basic
import Mathlib.Algebra.BigOperators.Intervals

/-!
# The dealer's material for one table lookup

Models `dealer/RandomTableLookup.h:35-83` and `RandomTableLookupInfo::generate` of
`dealer/RandomTableLookup.cpp:116-164`. The dealer draws a rotation `r` below the table size
and shares it additively; it shares the unit vector of `r` over exclusive or.

The draws of `randomModP` and `randomBytes` are parameters.
-/

namespace Safrn.Lookup

open Safrn.Base

/-- `Boolean_t`. -/
abbrev Byte := BitVec 8

/-- `RandomTableLookupInfo`. Indexes into the table are shared modulo `rModulus`, so they are
residues; the table is a `std::vector`, so its length fits in `PTRDIFF_MAX`. -/
structure RandomTableLookupInfo where
  rModulus : Nat
  tableSize : Nat
  tableSize_le_rModulus : tableSize ≤ rModulus
  tableSize_lt : tableSize < 2 ^ 63

namespace RandomTableLookupInfo

variable (info : RandomTableLookupInfo)

/-- `RandomTableLookup`: one party's shares. -/
structure RandomTableLookup where
  r : Nat
  u : Fin info.tableSize → Byte
  r_lt : r < info.rModulus

/-- `ff::mpc::modSub` of residues. -/
def modSub (a b modulus : Nat) : Nat := (modulus + a - b) % modulus

/-- What the dealer draws for one further party. -/
structure Draw where
  r : Nat
  u : Fin info.tableSize → Byte
  r_lt : r < info.rModulus

variable {info}

/-- The further party's shares: its bytes are cut down to bits. -/
def Draw.share (draw : info.Draw) : info.RandomTableLookup :=
  ⟨draw.r, fun j ↦ draw.u j &&& 0x01, draw.r_lt⟩

/-- The original instance. -/
def original (originalR : Fin info.tableSize) : info.RandomTableLookup where
  r := originalR
  u j := if j = originalR then 0x01 else 0x00
  r_lt := Nat.lt_of_lt_of_le originalR.isLt info.tableSize_le_rModulus

/-- Take one further party's shares away from the original's. -/
def RandomTableLookup.split (orig : info.RandomTableLookup) (draw : info.Draw) :
    info.RandomTableLookup where
  r := modSub orig.r draw.r info.rModulus
  u j := orig.u j ^^^ (draw.u j &&& 0x01)
  r_lt := Nat.mod_lt _ (Nat.zero_lt_of_lt orig.r_lt)

/-- `generate`: the shares of each party, the first of which keeps what is left of the
original. -/
def generate (nParties : Nat) (originalR : Fin info.tableSize) (draws : Nat → info.Draw) :
    Nat → info.RandomTableLookup
  | 0 => forRange (fun orig i ↦ orig.split (draws (i + 1))) (nParties - 1) (original originalR)
  | i + 1 => (draws (i + 1)).share

variable {originalR : Fin info.tableSize} {draws : Nat → info.Draw}

theorem modSub_add {a b modulus : Nat} (ha : a < modulus) (hb : b < modulus) :
    (modSub a b modulus + b) % modulus = a := by
  rw [modSub, Nat.mod_add_mod, Nat.sub_add_cancel (by omega), Nat.add_mod_left,
    Nat.mod_eq_of_lt ha]

private theorem bit_cases (b : Byte) : b &&& 0x01#8 = 0#8 ∨ b &&& 0x01#8 = 1#8 := by
  have h := BitVec.toNat_and b 1#8
  rw [BitVec.toNat_ofNat, Nat.mod_eq_of_lt (by decide), Nat.and_one_is_mod] at h
  rcases Nat.mod_two_eq_zero_or_one b.toNat with h0 | h1
  · exact .inl (BitVec.eq_of_toNat_eq (by rw [h, h0]; rfl))
  · exact .inr (BitVec.eq_of_toNat_eq (by rw [h, h1]; rfl))

/-- What is left after `n` parties, together with their shares, is the original. -/
structure SplitOk (originalR : Fin info.tableSize) (draws : Nat → info.Draw) (n : Nat)
    (orig : info.RandomTableLookup) : Prop where
  r : (orig.r + ∑ i ∈ Finset.range n, (draws (i + 1)).r) % info.rModulus = originalR
  bit : ∀ j, orig.u j = 0#8 ∨ orig.u j = 1#8
  u : ∀ j, orig.u j ^^^ xorOver (Finset.range n) (fun i ↦ (draws (i + 1)).share.u j) =
    if j = originalR then 1#8 else 0#8

private theorem splitOk_original : SplitOk originalR draws 0 (original originalR) where
  r := by
    rw [Finset.range_zero, Finset.sum_empty, Nat.add_zero]
    exact Nat.mod_eq_of_lt (original originalR).r_lt
  bit j := by
    by_cases hj : j = originalR
    · exact .inr (if_pos hj)
    · exact .inl (if_neg hj)
  u j := by
    rw [Finset.range_zero, xorOver_empty, BitVec.xor_zero]
    rfl

/-- Taking away one more party's shares keeps the reconstruction. -/
theorem SplitOk.split {n : Nat} {orig : info.RandomTableLookup}
    (h : SplitOk originalR draws n orig) :
    SplitOk originalR draws (n + 1) (orig.split (draws (n + 1))) where
  r := by
    have hsplit : (orig.split (draws (n + 1))).r =
        modSub orig.r (draws (n + 1)).r info.rModulus := rfl
    rw [hsplit, Finset.sum_range_succ, Nat.add_comm (∑ _ ∈ _, _), ← Nat.add_assoc,
      Nat.add_mod, modSub_add orig.r_lt (draws (n + 1)).r_lt, Nat.add_mod_mod, h.r]
  bit j := by
    have hsplit : (orig.split (draws (n + 1))).u j =
        orig.u j ^^^ ((draws (n + 1)).u j &&& 0x01#8) := rfl
    rw [hsplit]
    rcases h.bit j with h0 | h1 <;> rcases bit_cases ((draws (n + 1)).u j) with hd0 | hd1
    · rw [h0, hd0]; exact .inl rfl
    · rw [h0, hd1]; exact .inr rfl
    · rw [h1, hd0]; exact .inr rfl
    · rw [h1, hd1]; exact .inl rfl
  u j := by
    have hsplit : (orig.split (draws (n + 1))).u j = orig.u j ^^^ (draws (n + 1)).share.u j := rfl
    rw [hsplit, Finset.range_add_one, xorOver_insert Finset.notMem_range_self,
      BitVec.xor_assoc, ← BitVec.xor_assoc ((draws (n + 1)).share.u j), BitVec.xor_self,
      BitVec.zero_xor, h.u j]

/-- The loop keeps the reconstruction. -/
theorem splitOk_loop (n : Nat) : SplitOk originalR draws n
    (forRange (fun orig i ↦ orig.split (draws (i + 1))) n (original originalR)) :=
  forRange_invariant (SplitOk originalR draws) splitOk_original fun _ _ _ h ↦ h.split

private theorem range_eq_insert_zero {n : Nat} (hn : 0 < n) :
    Finset.range n = insert 0 ((Finset.range (n - 1)).map ⟨(· + 1), Nat.succ_injective⟩) := by
  obtain ⟨m, rfl⟩ := Nat.exists_eq_succ_of_ne_zero (Nat.ne_of_gt hn)
  exact Finset.range_add_one' m

/-- The shares of the rotation add up to it. -/
theorem sum_generate {nParties : Nat} (hn : 0 < nParties) :
    (∑ i ∈ Finset.range nParties, (generate nParties originalR draws i).r) % info.rModulus =
      originalR := by
  obtain ⟨n, rfl⟩ := Nat.exists_eq_succ_of_ne_zero (Nat.ne_of_gt hn)
  rw [Finset.sum_range_succ', Nat.add_comm]
  exact (splitOk_loop n).r

/-- Every byte of every share is a bit. -/
theorem generate_bit (nParties i : Nat) (j : Fin info.tableSize) :
    (generate nParties originalR draws i).u j = 0#8 ∨
      (generate nParties originalR draws i).u j = 1#8 := by
  cases i with
  | zero => exact (splitOk_loop (nParties - 1)).bit j
  | succ i => exact bit_cases _

/-- The shares of the unit vector combine to it. -/
theorem xorOver_generate {nParties : Nat} (hn : 0 < nParties) (j : Fin info.tableSize) :
    xorOver (Finset.range nParties) (fun i ↦ (generate nParties originalR draws i).u j) =
      if j = originalR then 1#8 else 0#8 := by
  obtain ⟨n, rfl⟩ := Nat.exists_eq_succ_of_ne_zero (Nat.ne_of_gt hn)
  rw [range_eq_insert_zero hn, xorOver_insert (by simp)]
  have hmap : xorOver ((Finset.range (n.succ - 1)).map ⟨(· + 1), Nat.succ_injective⟩)
      (fun i ↦ (generate n.succ originalR draws i).u j) =
        xorOver (Finset.range n) fun i ↦ (draws (i + 1)).share.u j := Finset.fold_map
  rw [hmap]
  exact (splitOk_loop n).u j

end RandomTableLookupInfo
end Safrn.Lookup

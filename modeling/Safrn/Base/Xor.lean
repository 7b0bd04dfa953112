import Mathlib.Data.Finset.Fold
import Mathlib.Data.Fintype.Basic
import Mathlib.Data.Fintype.Fin

/-!
# The exclusive or over a finite set

Boolean secret sharing keeps a value as the exclusive or of the parties' shares. `xorOver` is
that reconstruction; it distributes over exclusive or, two of them exchange, and a shared bit
selects like the bit.
-/

namespace Safrn.Base

variable {ι κ : Type*} {w : Nat}

/-- The exclusive or of the values of the set's elements. -/
def xorOver (s : Finset ι) (f : ι → BitVec w) : BitVec w := s.fold (· ^^^ ·) 0#w f

theorem xorOver_empty (f : ι → BitVec w) : xorOver ∅ f = 0#w := Finset.fold_empty

theorem xorOver_insert [DecidableEq ι] {s : Finset ι} {a : ι} (ha : a ∉ s) (f : ι → BitVec w) :
    xorOver (insert a s) f = f a ^^^ xorOver s f := Finset.fold_insert ha

theorem xorOver_congr {s : Finset ι} {f g : ι → BitVec w} (h : ∀ a ∈ s, f a = g a) :
    xorOver s f = xorOver s g := Finset.fold_congr h

/-- The shares of two values, combined share by share, are shares of the combined value. -/
theorem xorOver_xor (s : Finset ι) (f g : ι → BitVec w) :
    xorOver s (fun a ↦ f a ^^^ g a) = xorOver s f ^^^ xorOver s g := by
  have h : s.fold (fun x y : BitVec w ↦ x ^^^ y) (0#w ^^^ 0#w) (fun a ↦ f a ^^^ g a) =
      xorOver s f ^^^ xorOver s g := Finset.fold_op_distrib
  rwa [BitVec.xor_zero] at h

/-- Shares that are all zero are shares of zero. -/
theorem xorOver_zero {s : Finset ι} {f : ι → BitVec w} (h : ∀ a ∈ s, f a = 0#w) :
    xorOver s f = 0#w := by
  classical
  induction s using Finset.induction with
  | empty => exact xorOver_empty f
  | insert a s ha ih =>
    rw [xorOver_insert ha, h a (Finset.mem_insert_self a s),
      ih fun b hb ↦ h b (Finset.mem_insert_of_mem hb), BitVec.xor_zero]

/-- Two reconstructions exchange. -/
theorem xorOver_comm (s : Finset ι) (t : Finset κ) (f : ι → κ → BitVec w) :
    xorOver s (fun a ↦ xorOver t (f a)) = xorOver t fun b ↦ xorOver s fun a ↦ f a b := by
  classical
  induction s using Finset.induction with
  | empty =>
    rw [xorOver_empty]
    exact (xorOver_zero fun b _ ↦ xorOver_empty _).symm
  | insert a s ha ih =>
    rw [xorOver_insert ha, ih, ← xorOver_xor]
    exact xorOver_congr fun b _ ↦ (xorOver_insert ha fun a ↦ f a b).symm

/-- Only one element contributes. -/
theorem xorOver_eq_single [DecidableEq ι] {s : Finset ι} {f : ι → BitVec w} {a : ι} (ha : a ∈ s)
    (h : ∀ b ∈ s, b ≠ a → f b = 0#w) : xorOver s f = f a := by
  rw [← Finset.insert_erase ha, xorOver_insert (Finset.notMem_erase a s),
    xorOver_zero fun b hb ↦ h b (Finset.mem_of_mem_erase hb) (Finset.ne_of_mem_erase hb),
    BitVec.xor_zero]

/-- A shared bit selects a value: the shares of the bit that are one contribute it. -/
theorem xorOver_select {s : Finset ι} {v : Nat} {bit : ι → BitVec (v + 1)} (x : BitVec w)
    (h : ∀ a ∈ s, bit a = 0#(v + 1) ∨ bit a = 1#(v + 1)) :
    (xorOver s bit = 0#(v + 1) ∨ xorOver s bit = 1#(v + 1)) ∧
      xorOver s (fun a ↦ if bit a = 1#(v + 1) then x else 0#w) =
        if xorOver s bit = 1#(v + 1) then x else 0#w := by
  classical
  have h01 : 0#(v + 1) ≠ 1#(v + 1) := by
    intro h
    have := congrArg BitVec.toNat h
    simp at this
  induction s using Finset.induction with
  | empty =>
    rw [xorOver_empty, xorOver_empty, if_neg h01]
    exact ⟨.inl rfl, rfl⟩
  | insert a s ha ih =>
    obtain ⟨hb, hx⟩ := ih fun b hb ↦ h b (Finset.mem_insert_of_mem hb)
    rw [xorOver_insert ha, xorOver_insert ha, hx]
    rcases h a (Finset.mem_insert_self a s) with ha0 | ha1 <;> rcases hb with hs0 | hs1
    · rw [ha0, hs0, BitVec.xor_zero, if_neg h01, BitVec.xor_zero]
      exact ⟨.inl rfl, rfl⟩
    · rw [ha0, hs1, BitVec.zero_xor, if_neg h01, if_pos rfl, BitVec.zero_xor]
      exact ⟨.inr rfl, rfl⟩
    · rw [ha1, hs0, BitVec.xor_zero, if_neg h01, if_pos rfl, BitVec.xor_zero]
      exact ⟨.inr rfl, rfl⟩
    · rw [ha1, hs1, BitVec.xor_self, if_neg h01, if_pos rfl, BitVec.xor_self]
      exact ⟨.inl rfl, rfl⟩

/-- A loop that accumulates an exclusive or computes it. -/
theorem foldl_xor {n : Nat} (f : Fin n → κ → BitVec w) (a : κ → BitVec w) (k : κ) :
    Fin.foldl n (fun out i k ↦ out k ^^^ f i k) a k =
      a k ^^^ xorOver Finset.univ fun i ↦ f i k := by
  induction n with
  | zero => rw [Fin.foldl_zero, Finset.univ_eq_empty, xorOver_empty, BitVec.xor_zero]
  | succ n ih =>
    have hlast : xorOver Finset.univ (fun i ↦ f i k) =
        f (Fin.last n) k ^^^ xorOver Finset.univ fun i : Fin n ↦ f i.castSucc k := by
      rw [xorOver, Fin.univ_castSuccEmb, Finset.fold_cons, Finset.fold_map]
      rfl
    rw [Fin.foldl_succ_last, ih, hlast, BitVec.xor_assoc, BitVec.xor_comm (xorOver _ _)]

end Safrn.Base

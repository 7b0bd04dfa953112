import Mathlib.Algebra.BigOperators.Group.Finset.Basic
import Safrn.Cuckoo.ResultSet

/-!
# Sums over matching cells

A comparison cell by cell finds every common element in exactly one cell, and nothing else. So a
sum over the cells with equal contents is the sum over the common elements.
-/

namespace Safrn.Cuckoo

namespace HashParams

variable {p : HashParams} {A B : Nat → Nat → Nat} {X Y : List Nat}

/-- Cell `c` of all four subtables. -/
def contentAt (p : HashParams) (T : Nat → Nat → Nat) (c : Nat) : Nat :=
  T (c / p.subtableSize) (c % p.subtableSize)

private theorem number_div {vc h : Nat} (hh : h < p.subtableSize) :
    (vc * p.subtableSize + h) / p.subtableSize = vc := by
  rw [Nat.mul_comm, Nat.mul_add_div p.subtableSize_pos, Nat.div_eq_of_lt hh, Nat.add_zero]

private theorem number_mod {vc h : Nat} (hh : h < p.subtableSize) :
    (vc * p.subtableSize + h) % p.subtableSize = h := by
  rw [Nat.mul_comm, Nat.mul_add_mod, Nat.mod_eq_of_lt hh]

theorem subtable_lt {c : Nat} (hc : c < 4 * p.subtableSize) : c / p.subtableSize < 4 :=
  (Nat.div_lt_iff_lt_mul p.subtableSize_pos).mpr hc

theorem cell_mod_lt (p : HashParams) (c : Nat) : c % p.subtableSize < p.subtableSize :=
  Nat.mod_lt _ p.subtableSize_pos

/-- The cell where both tables hold a common element. -/
private theorem Placement.exists_cell (hP : p.Placement A B X Y) {x : Nat} (hx : x ∈ X)
    (hxY : x ∈ Y) : ∃ c < 4 * p.subtableSize,
      c % p.subtableSize = p.cell (c / p.subtableSize) x ∧ p.contentAt A c = p.splitR x ∧
        p.contentAt B c = p.splitR x ∧ p.splitR x ≠ NULL_XR := by
  obtain ⟨⟨vc, h⟩, ⟨hvc, hh, hcell, hA, hB, hne⟩, -⟩ := hP.common x hx hxY
  dsimp only at hvc hh hcell hA hB
  have hlt : vc * p.subtableSize + h < 4 * p.subtableSize := by
    calc vc * p.subtableSize + h < vc * p.subtableSize + p.subtableSize :=
          Nat.add_lt_add_left hh _
      _ = (vc + 1) * p.subtableSize := (Nat.succ_mul _ _).symm
      _ ≤ 4 * p.subtableSize := Nat.mul_le_mul_right _ hvc
  refine ⟨vc * p.subtableSize + h, hlt, ?_, ?_, ?_, hne⟩
  · rw [number_div hh, number_mod hh, hcell]
  · rw [contentAt, number_div hh, number_mod hh, hA]
  · rw [contentAt, number_div hh, number_mod hh, hB]

/-- The matching cells, each with a weight that only depends on its element, add up to the
weights of the common elements. -/
theorem Placement.sum_matches (hP : p.Placement A B X Y) (hX : X.Nodup)
    (hadm : ∀ x ∈ X, p.Admissible x) {M : Type} [AddCommMonoid M] (f : Nat → M) :
    ∑ c ∈ Finset.range (4 * p.subtableSize),
        (if p.contentAt A c = p.contentAt B c ∧ p.contentAt A c ≠ NULL_XR then
          f (p.unhash (c / p.subtableSize) (c % p.subtableSize) (p.contentAt A c)) else 0) =
      ((X.filter (· ∈ Y)).map f).sum := by
  have hcell : ∀ x : {x // x ∈ X.filter (· ∈ Y)}, ∃ c < 4 * p.subtableSize,
      c % p.subtableSize = p.cell (c / p.subtableSize) x ∧ p.contentAt A c = p.splitR x ∧
        p.contentAt B c = p.splitR x ∧ p.splitR x ≠ NULL_XR := fun x ↦ by
    obtain ⟨hx, hxY⟩ := List.mem_filter.mp x.2
    exact hP.exists_cell hx (of_decide_eq_true hxY)
  choose cellOf hlt hmod hA hB hne using hcell
  have hunhash : ∀ x : {x // x ∈ X.filter (· ∈ Y)}, p.unhash (cellOf x / p.subtableSize)
      (cellOf x % p.subtableSize) (p.contentAt A (cellOf x)) = x := fun x ↦ by
    rw [hmod x, hA x]
    exact p.unhash_cell _ (hadm _ (List.mem_of_mem_filter x.2)).1
  rw [← Finset.sum_filter, ← List.sum_toFinset f (hX.filter _)]
  symm
  refine Finset.sum_bij (fun x hx ↦ cellOf ⟨x, List.mem_toFinset.mp hx⟩) ?_ ?_ ?_ ?_
  · intro x hx
    rw [Finset.mem_filter, Finset.mem_range]
    refine ⟨hlt _, ?_, ?_⟩
    · rw [hA, hB]
    · rw [hA]
      exact hne _
  · intro x hx y hy hxy
    have hx' := hunhash ⟨x, List.mem_toFinset.mp hx⟩
    have hy' := hunhash ⟨y, List.mem_toFinset.mp hy⟩
    rw [hxy] at hx'
    exact hx'.symm.trans hy'
  · -- a matching cell holds a common element, in the one cell where both hold it
    intro c hc
    obtain ⟨hrange, heq, hused⟩ := Finset.mem_filter.mp hc
    have hc4 := subtable_lt (Finset.mem_range.mp hrange)
    have hmodc := cell_mod_lt p c
    obtain ⟨x, hx, hxY, hcx, hAx⟩ :=
      (hP.equal _ hc4 _ hmodc heq).resolve_left hused
    have hmem : x ∈ X.filter (· ∈ Y) := List.mem_filter.mpr ⟨hx, decide_eq_true hxY⟩
    refine ⟨x, List.mem_toFinset.mpr hmem, ?_⟩
    obtain ⟨c', -, huniq⟩ := hP.common x hx hxY
    have h₁ := huniq (c / p.subtableSize, c % p.subtableSize)
      ⟨hc4, hmodc, hcx.symm, hAx, (heq.symm.trans hAx : p.contentAt B c = _), hAx ▸ hused⟩
    have h₂ := huniq (cellOf ⟨x, hmem⟩ / p.subtableSize, cellOf ⟨x, hmem⟩ % p.subtableSize)
      ⟨subtable_lt (hlt _), cell_mod_lt p _, hmod ⟨x, hmem⟩, hA ⟨x, hmem⟩, hB ⟨x, hmem⟩,
        hne ⟨x, hmem⟩⟩
    obtain ⟨hdiv, hmod'⟩ := Prod.mk.inj (h₂.trans h₁.symm)
    rw [← Nat.div_add_mod' (cellOf ⟨x, hmem⟩) p.subtableSize, hdiv, hmod', Nat.div_add_mod']
  · intro x hx
    exact (congrArg f (hunhash ⟨x, List.mem_toFinset.mp hx⟩)).symm

end HashParams
end Safrn.Cuckoo

import Mathlib.Algebra.BigOperators.Group.Finset.Sigma

/-!
# Data owners and the parties of the other verticals

Models the identities of the data owners (`shared/src/main/cpp/Identity.h:44-48`) and what
`setupCrossParties` computes from `forEachDataowner` (`dataowner/Regression.cpp:168-181`,
`dataowner/Moments.cpp:150-163`): a data owner exchanges shares with those of the other verticals,
and numbers them in the order of the peer set.
-/

namespace Safrn.Stats

/-- The identity of a data owner. -/
structure Identity where
  orgId : Nat
  vertical : Nat
  deriving DecidableEq

/-- The data owners of the other verticals. -/
def crossParties (dataowners : List Identity) (self : Identity) : List Identity :=
  dataowners.filter fun other ↦ other.vertical ≠ self.vertical

/-- `indexOfCrossParties[other]`. -/
def indexOfCrossParties (dataowners : List Identity) (self other : Identity) : Nat :=
  if other ∈ crossParties dataowners self then (crossParties dataowners self).idxOf other else 0

variable {dataowners : List Identity} {self other : Identity}

theorem mem_crossParties :
    other ∈ crossParties dataowners self ↔ other ∈ dataowners ∧ other.vertical ≠ self.vertical := by
  simp [crossParties]

theorem indexOfCrossParties_lt (h : other ∈ crossParties dataowners self) :
    indexOfCrossParties dataowners self other < (crossParties dataowners self).length := by
  rw [indexOfCrossParties, if_pos h]
  exact List.idxOf_lt_length_of_mem h

theorem getElem?_indexOfCrossParties (h : other ∈ crossParties dataowners self) :
    (crossParties dataowners self)[indexOfCrossParties dataowners self other]? = some other := by
  rw [indexOfCrossParties, if_pos h]
  exact List.getElem?_idxOf h

/-- Two parties have different numbers. -/
theorem indexOfCrossParties_inj {other' : Identity} (h : other ∈ crossParties dataowners self)
    (h' : other' ∈ crossParties dataowners self)
    (heq : indexOfCrossParties dataowners self other =
      indexOfCrossParties dataowners self other') : other = other' := by
  have hget := getElem?_indexOfCrossParties h
  rw [heq, getElem?_indexOfCrossParties h'] at hget
  exact (Option.some.inj hget).symm

/-- A sum over all parties and their cross parties counts every pair from both sides. -/
theorem sum_crossParties {M : Type} [AddCommMonoid M] (hnodup : dataowners.Nodup)
    {dv nonDv : Nat} (hne : nonDv ≠ dv)
    (hverticals : ∀ self ∈ dataowners, self.vertical = dv ∨ self.vertical = nonDv)
    (share : Identity → Identity → M) :
    (dataowners.map fun self ↦ ((crossParties dataowners self).map (share self)).sum).sum =
      ((dataowners.filter fun p ↦ p.vertical = dv).map fun p ↦
        ((crossParties dataowners p).map fun o ↦ share p o + share o p).sum).sum := by
  let owners := dataowners.toFinset
  have hcross : ∀ (self : Identity) (f : Identity → M),
      ((crossParties dataowners self).map f).sum =
        ∑ other ∈ owners, if other.vertical ≠ self.vertical then f other else 0 := by
    intro self f
    rw [crossParties, ← List.sum_toFinset f (hnodup.filter _), List.toFinset_filter,
      Finset.sum_filter]
    simp only [decide_eq_true_eq, owners]
  have hdv : ∀ f : Identity → M, ((dataowners.filter fun p ↦ p.vertical = dv).map f).sum =
      ∑ p ∈ owners, if p.vertical = dv then f p else 0 := by
    intro f
    rw [← List.sum_toFinset f (hnodup.filter _), List.toFinset_filter, Finset.sum_filter]
    simp only [decide_eq_true_eq, owners]
  simp only [hcross, hdv, ← List.sum_toFinset _ hnodup]
  calc ∑ self ∈ owners, ∑ other ∈ owners,
        (if other.vertical ≠ self.vertical then share self other else 0)
      = ∑ self ∈ owners, ∑ other ∈ owners,
          ((if self.vertical = dv ∧ other.vertical ≠ dv then share self other else 0) +
            if other.vertical = dv ∧ self.vertical ≠ dv then share self other else 0) := by
        apply Finset.sum_congr rfl
        intro self hself
        apply Finset.sum_congr rfl
        intro other hother
        rcases hverticals self (List.mem_toFinset.mp hself) with hs | hs <;>
          rcases hverticals other (List.mem_toFinset.mp hother) with ho | ho <;>
          simp [hs, ho, hne, hne.symm]
    _ = (∑ self ∈ owners, ∑ other ∈ owners,
          if self.vertical = dv ∧ other.vertical ≠ dv then share self other else 0) +
        ∑ self ∈ owners, ∑ other ∈ owners,
          if self.vertical = dv ∧ other.vertical ≠ dv then share other self else 0 := by
        simp only [Finset.sum_add_distrib]
        congr 1
        exact Finset.sum_comm
    _ = ∑ p ∈ owners, if p.vertical = dv then
          ∑ o ∈ owners, if o.vertical ≠ p.vertical then share p o + share o p else 0
          else 0 := by
        rw [← Finset.sum_add_distrib]
        apply Finset.sum_congr rfl
        intro p _
        rw [← Finset.sum_add_distrib]
        split
        · next hp =>
          apply Finset.sum_congr rfl
          intro o _
          by_cases ho : o.vertical = dv
          · simp [hp, ho]
          · simp [hp, ho]
        · next hp => simp [hp]

end Safrn.Stats

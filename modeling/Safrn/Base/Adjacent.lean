import Mathlib.Data.Fin.Tuple.Sort
import Mathlib.Data.Prod.Lex

/-!
# Neighbours in a sorted list

A list that is sorted by a key is a permutation of its positions along which the keys grow. Two
positions with nothing between their keys become neighbours, and every two positions can be made
neighbours where only ties stand between them.
-/

namespace Safrn.Base

variable {n : Nat} {α : Type} [LinearOrder α] {key : Fin n → α} {σ : Equiv.Perm (Fin n)}

/-- In the order `σ`, `j` comes right after `i`. -/
def Adjacent (σ : Equiv.Perm (Fin n)) (i j : Fin n) : Prop :=
  ∃ (t : Nat) (h : t + 1 < n), σ ⟨t, Nat.lt_of_succ_lt h⟩ = i ∧ σ ⟨t + 1, h⟩ = j

/-- Positions with nothing between their keys are neighbours. -/
theorem adjacent_of_between (hσ : Monotone (key ∘ σ)) {i j : Fin n} (hlt : key i < key j)
    (hbetween : ∀ p, key i ≤ key p → key p ≤ key j → p = i ∨ p = j) : Adjacent σ i j := by
  have hi : σ (σ.symm i) = i := σ.apply_symm_apply i
  have hj : σ (σ.symm j) = j := σ.apply_symm_apply j
  have hpos : σ.symm i < σ.symm j := by
    apply lt_of_not_ge
    intro hle
    have hkey : key (σ (σ.symm j)) ≤ key (σ (σ.symm i)) := hσ hle
    rw [hi, hj] at hkey
    exact absurd hlt (not_lt_of_ge hkey)
  have hlast : (σ.symm j).val < n := (σ.symm j).isLt
  have hpos' : (σ.symm i).val < (σ.symm j).val := hpos
  let next : Fin n := ⟨(σ.symm i).val + 1, by omega⟩
  have hnext : σ next = i ∨ σ next = j := by
    apply hbetween
    · have hkey : key (σ (σ.symm i)) ≤ key (σ next) := by
        apply hσ
        exact Nat.le_succ _
      rwa [hi] at hkey
    · have hkey : key (σ next) ≤ key (σ (σ.symm j)) := by
        apply hσ
        exact hpos'
      rwa [hj] at hkey
  refine ⟨(σ.symm i).val, next.isLt, hi, ?_⟩
  rcases hnext with h | h
  · -- the position after that of `i` holds another element
    have heq : next = σ.symm i := by rw [← h, σ.symm_apply_apply]
    have hval : (σ.symm i).val + 1 = (σ.symm i).val := congrArg Fin.val heq
    omega
  · exact h

/-- The tie-break that puts `i` last and `j` first among their equals. -/
private def tie (i j p : Fin n) : Nat := if p = i then 2 else if p = j then 0 else 1

/-- When no key lies strictly between those of two positions, some sorted order makes them
neighbours. -/
theorem exists_adjacent {i j : Fin n} (hlt : key i < key j)
    (hbetween : ∀ p, ¬ (key i < key p ∧ key p < key j)) :
    ∃ σ : Equiv.Perm (Fin n), Monotone (key ∘ σ) ∧ Adjacent σ i j := by
  let tied (p : Fin n) : α ×ₗ Nat := toLex (key p, tie i j p)
  have hsort : Monotone (tied ∘ Tuple.sort tied) := Tuple.monotone_sort tied
  have hfst : ∀ p q, tied p ≤ tied q → key p ≤ key q := by
    intro p q h
    rcases Prod.Lex.toLex_le_toLex.mp h with h | h
    · exact le_of_lt h
    · exact le_of_eq h.1
  refine ⟨Tuple.sort tied, fun p q h ↦ hfst _ _ (hsort h), adjacent_of_between hsort ?_ ?_⟩
  · exact Prod.Lex.toLex_lt_toLex.mpr (.inl hlt)
  · intro p hi hj
    have hcases : key p = key i ∨ key p = key j := by
      have hle₁ := hfst _ _ hi
      have hle₂ := hfst _ _ hj
      by_contra hne
      rw [not_or] at hne
      exact hbetween p ⟨lt_of_le_of_ne hle₁ (Ne.symm hne.1), lt_of_le_of_ne hle₂ hne.2⟩
    rcases hcases with h | h
    · left
      rcases Prod.Lex.toLex_le_toLex.mp hi with hlt' | ⟨-, htie⟩
      · exact absurd h (ne_of_gt hlt')
      · by_contra hne
        have htop : tie i j i = 2 := if_pos rfl
        have hlow : tie i j p ≤ 1 := by
          rw [tie, if_neg hne]
          split <;> omega
        have htie' : tie i j i ≤ tie i j p := htie
        omega
    · right
      rcases Prod.Lex.toLex_le_toLex.mp hj with hlt' | ⟨-, htie⟩
      · exact absurd h (ne_of_lt hlt')
      · by_contra hne
        have hij : j ≠ i := by
          rintro rfl
          exact lt_irrefl _ hlt
        have hbottom : tie i j j = 0 := by rw [tie, if_neg hij, if_pos rfl]
        have hhigh : 1 ≤ tie i j p := by
          rw [tie, if_neg hne]
          split <;> omega
        have htie' : tie i j p ≤ tie i j j := htie
        omega

/-! ## Two key columns -/

section

variable {β : Type} [LinearOrder β] {first : Fin n → α} {second : Fin n → β}

/-- The rows agree in the first column, and the second column grows. -/
def Ascends (first : Fin n → α) (second : Fin n → β) (i j : Fin n) : Prop :=
  first i = first j ∧ second i < second j

/-- The lexicographic key. -/
def lexKey (first : Fin n → α) (second : Fin n → β) (p : Fin n) : α ×ₗ β :=
  toLex (first p, second p)

theorem Ascends.lexKey_lt {i j : Fin n} (h : Ascends first second i j) :
    lexKey first second i < lexKey first second j :=
  Prod.Lex.toLex_lt_toLex.mpr (.inr h)

/-- What lies between two rows that agree in the first column agrees with them. -/
theorem Ascends.between {i j p : Fin n} (h : Ascends first second i j)
    (hi : lexKey first second i ≤ lexKey first second p)
    (hj : lexKey first second p ≤ lexKey first second j) :
    first p = first i ∧ second i ≤ second p ∧ second p ≤ second j := by
  rcases Prod.Lex.toLex_le_toLex.mp hi with hi | ⟨hi, hi'⟩
  · rcases Prod.Lex.toLex_le_toLex.mp hj with hj | ⟨hj, -⟩
    · exact absurd (lt_trans hi hj) (by simp [h.1])
    · exact absurd (hj.trans h.1.symm) (ne_of_gt hi)
  · rcases Prod.Lex.toLex_le_toLex.mp hj with hj | ⟨-, hj'⟩
    · exact absurd (hi.symm.trans h.1) (ne_of_lt hj)
    · exact ⟨hi.symm, hi', hj'⟩

/-- The least row above `i` among those that agree with it. -/
private theorem Ascends.exists_next {i j : Fin n} (h : Ascends first second i j) :
    ∃ p, Ascends first second i p ∧ second p ≤ second j ∧
      ∀ q, ¬ (lexKey first second i < lexKey first second q ∧
        lexKey first second q < lexKey first second p) := by
  classical
  let above : Finset (Fin n) := Finset.univ.filter fun q ↦ Ascends first second i q
  have hmem : j ∈ above := by simp [above, h]
  obtain ⟨p, hp, hmin⟩ := above.exists_min_image second ⟨j, hmem⟩
  have hasc : Ascends first second i p := by simpa [above] using hp
  refine ⟨p, hasc, hmin j hmem, ?_⟩
  rintro q ⟨hi, hq⟩
  obtain ⟨hfirst, -, -⟩ := hasc.between (le_of_lt hi) (le_of_lt hq)
  have hsecond : second i < second q := by
    rcases Prod.Lex.toLex_lt_toLex.mp hi with hlt | ⟨-, hlt⟩
    · exact absurd hfirst (ne_of_gt hlt)
    · exact hlt
  have hle : second p ≤ second q :=
    hmin q (Finset.mem_filter.mpr ⟨Finset.mem_univ q, hfirst.symm, hsecond⟩)
  rcases Prod.Lex.toLex_lt_toLex.mp hq with hlt | ⟨-, hlt⟩
  · exact absurd (hfirst.trans hasc.1) (ne_of_lt hlt)
  · exact absurd hlt (not_lt_of_ge hle)

/-- Neighbours of every sorted order that ascend are a low and a high row if and only if all rows
that ascend are, whether they are neighbours or not. -/
theorem forall_adjacent_iff {low high : Fin n → Prop} (hdisjoint : ∀ p, low p → ¬ high p) :
    (∀ σ : Equiv.Perm (Fin n), Monotone (lexKey first second ∘ σ) →
      ∀ i j, Adjacent σ i j → Ascends first second i j → low i ∧ high j) ↔
    ∀ i j, Ascends first second i j → low i ∧ high j := by
  constructor
  · intro h
    have hnext : ∀ i p, Ascends first second i p → (∀ q, ¬ (lexKey first second i <
        lexKey first second q ∧ lexKey first second q < lexKey first second p)) →
          low i ∧ high p := by
      intro i p hasc hbetween
      obtain ⟨σ, hσ, hadj⟩ := exists_adjacent hasc.lexKey_lt hbetween
      exact h σ hσ i p hadj hasc
    intro i j hasc
    obtain ⟨p, hip, hpj, hbetween⟩ := hasc.exists_next
    have hp := hnext i p hip hbetween
    rcases lt_or_eq_of_le hpj with hlt | heq
    · -- a row between `i` and `j` would be high for `i` and low for what follows it
      have hpj : Ascends first second p j := ⟨hip.1.symm.trans hasc.1, hlt⟩
      obtain ⟨q, hpq, -, hbetween'⟩ := hpj.exists_next
      exact absurd hp.2 (hdisjoint p (hnext p q hpq hbetween').1)
    · have hkey : lexKey first second p = lexKey first second j := by
        rw [lexKey, lexKey, heq, ← hip.1, hasc.1]
      apply hnext i j hasc
      rwa [← hkey]
  · intro h σ _ i j _ hasc
    exact h i j hasc

end

end Safrn.Base

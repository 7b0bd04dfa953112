import Mathlib.Algebra.Group.Nat.Defs
import Mathlib.Data.List.Basic
import Mathlib.Data.List.Forall2

/-!
# Cross joins in order

The rows of a cross join correspond to those of another one where the factors do; they are in the
lexicographic order of their keys when every factor is in the order of its keys; and rows that are
sorted without duplicates are determined by their members.
-/

namespace Safrn.Base

variable {α : Type}

/-- All ways to choose one row of each factor; the first factor varies slowest. -/
def crossJoin : List (List α) → List (List α)
  | [] => [[]]
  | rows :: factors => rows.flatMap fun row ↦ (crossJoin factors).map (row :: ·)

theorem length_crossJoin (factors : List (List α)) :
    (crossJoin factors).length = (factors.map List.length).prod := by
  induction factors with
  | nil => rfl
  | cons rows factors ih =>
    rw [crossJoin, List.length_flatMap, List.map_cons, List.prod_cons, ← ih]
    simp only [List.length_map]
    rw [List.map_const', List.sum_replicate_nat]

/-- Lists that are related to one list are related through it. -/
theorem forall₂_join {β γ : Type} {R : α → β → Prop} {S : α → γ → Prop} {as : List α} {bs : List β}
    {cs : List γ} (hR : List.Forall₂ R as bs) (hS : List.Forall₂ S as cs) :
    List.Forall₂ (fun b c ↦ ∃ a ∈ as, R a b ∧ S a c) bs cs := by
  induction hR generalizing cs with
  | nil =>
    cases hS
    exact .nil
  | cons hr _ ih =>
    cases hS with
    | cons hs hS =>
      apply List.Forall₂.cons ⟨_, List.mem_cons_self, hr, hs⟩
      exact (ih hS).imp fun _ _ ⟨a, ha, h⟩ ↦ ⟨a, List.mem_cons_of_mem _ ha, h⟩

/-- Three lists that are related place by place. -/
inductive Forall₃ {ι α β : Type} (R : ι → α → β → Prop) : List ι → List α → List β → Prop
  | nil : Forall₃ R [] [] []
  | cons {i : ι} {a : α} {b : β} {is : List ι} {as : List α} {bs : List β} (head : R i a b)
      (tail : Forall₃ R is as bs) : Forall₃ R (i :: is) (a :: as) (b :: bs)

/-- What two lists have to do with a third one relates them to each other. -/
theorem Forall₃.join {ι β γ : Type} {R : ι → α → β → Prop} {S : ι → α → γ → Prop}
    {T : ι → β → γ → Prop} (hT : ∀ i a b c, R i a b → S i a c → T i b c) {is : List ι}
    {as : List α} {bs : List β} {cs : List γ} (hR : Forall₃ R is as bs) (hS : Forall₃ S is as cs) :
    Forall₃ T is bs cs := by
  induction hR generalizing cs with
  | nil =>
    cases hS
    exact .nil
  | cons hr _ ih =>
    cases hS with
    | cons hs hS => exact .cons (hT _ _ _ _ hr hs) (ih hS)

/-- Factors that correspond row by row are joined to rows that correspond place by place. -/
theorem forall₃_crossJoin {ι β : Type} {R : ι → α → β → Prop} {f : ι → List α} {g : ι → List β}
    {is : List ι} (h : ∀ i ∈ is, List.Forall₂ (R i) (f i) (g i)) :
    List.Forall₂ (Forall₃ R is) (crossJoin (is.map f)) (crossJoin (is.map g)) := by
  induction is with
  | nil => exact .cons .nil .nil
  | cons i is ih =>
    rw [List.map_cons, List.map_cons, crossJoin, crossJoin]
    apply List.rel_flatMap (h i List.mem_cons_self)
    intro a b hab
    rw [List.forall₂_map_left_iff, List.forall₂_map_right_iff]
    exact (ih fun j hj ↦ h j (List.mem_cons_of_mem i hj)).imp fun _ _ hrest ↦ .cons hab hrest

/-- Factors in the order of their keys are joined in the lexicographic order of the keys. -/
theorem pairwise_crossJoin {κ : Type} [LT κ] (key : α → κ) {factors : List (List α)}
    (h : ∀ rows ∈ factors, rows.Pairwise fun a b ↦ key a < key b) :
    (crossJoin factors).Pairwise fun c c' ↦ c.map key < c'.map key := by
  induction factors with
  | nil => exact List.pairwise_singleton _ _
  | cons rows factors ih =>
    have hrest := ih fun rows' hrows' ↦ h rows' (List.mem_cons_of_mem _ hrows')
    rw [crossJoin, List.pairwise_flatMap]
    constructor
    · intro row _
      rw [List.pairwise_map]
      apply hrest.imp
      intro c c' hlt
      exact List.cons_lt_cons_iff.mpr (.inr ⟨rfl, hlt⟩)
    · apply (h rows List.mem_cons_self).imp
      intro a b hlt c hc c' hc'
      obtain ⟨x, -, rfl⟩ := List.mem_map.mp hc
      obtain ⟨x', -, rfl⟩ := List.mem_map.mp hc'
      exact List.cons_lt_cons_iff.mpr (.inl hlt)

/-- Lists that are strictly sorted and have the same members are equal. -/
theorem eq_of_pairwise_of_mem_iff {R : α → α → Prop} (hasymm : ∀ a b, R a b → ¬ R b a)
    {xs ys : List α} (hx : xs.Pairwise R) (hy : ys.Pairwise R) (h : ∀ a, a ∈ xs ↔ a ∈ ys) :
    xs = ys := by
  have hne : ∀ {a b}, R a b → a ≠ b := by
    rintro a _ hab rfl
    exact hasymm a a hab hab
  have hperm : xs.Perm ys := (List.perm_ext_iff_of_nodup (hx.imp hne) (hy.imp hne)).mpr h
  exact hperm.eq_of_pairwise (fun a b _ _ hab hba ↦ absurd hba (hasymm a b hab)) hx hy

end Safrn.Base

import Mathlib.Data.List.Basic

/-!
# Maps ordered by a comparator

The entries of a map in the order of their keys, as `std::map` keeps them: a key is found by its
lower bound, and two keys of which neither is less than the other are one key. The comparator is
a parameter; where it orders all keys in use, the map holds one entry for each key.
-/

namespace Safrn.Base

namespace OrderedMap

variable {κ ν : Type} (lt : κ → κ → Bool)

/-- The entries before the lower bound of a key. -/
def below (m : List (κ × ν)) (k : κ) : List (κ × ν) := m.takeWhile fun e ↦ lt e.1 k

/-- The entries from the lower bound of a key on. -/
def above (m : List (κ × ν)) (k : κ) : List (κ × ν) := m.dropWhile fun e ↦ lt e.1 k

/-- The value at the lower bound, unless the key is less than the one there. -/
def find? (m : List (κ × ν)) (k : κ) : Option ν :=
  match above lt m k with
  | [] => none
  | e :: _ => if lt k e.1 then none else some e.2

/-- Put an entry at the lower bound of its key, unless the key is found. -/
def insert (m : List (κ × ν)) (k : κ) (v : ν) : List (κ × ν) :=
  match find? lt m k with
  | some _ => m
  | none => below lt m k ++ (k, v) :: above lt m k

/-- Remove the entries from the lower bound of a key to its upper bound. -/
def erase (m : List (κ × ν)) (k : κ) : List (κ × ν) :=
  below lt m k ++ (above lt m k).dropWhile fun e ↦ !lt k e.1

/-- The comparator is a strict total order on some keys. -/
structure OrdersOn (S : κ → Prop) : Prop where
  irrefl : ∀ a, S a → lt a a = false
  trans : ∀ a b c, S a → S b → S c → lt a b = true → lt b c = true → lt a c = true
  total : ∀ a b, S a → S b → a ≠ b → lt a b = true ∨ lt b a = true

/-- The keys are among those in use, and ascend. -/
structure WF (S : κ → Prop) (m : List (κ × ν)) : Prop where
  keys : ∀ e ∈ m, S e.1
  sorted : m.Pairwise fun e e' ↦ lt e.1 e'.1 = true

variable {lt} {S : κ → Prop} {m : List (κ × ν)} {e : κ × ν} {k : κ} {v : ν}

theorem wf_nil : WF lt S ([] : List (κ × ν)) := ⟨nofun, List.Pairwise.nil⟩

theorem WF.tail (h : WF lt S (e :: m)) : WF lt S m :=
  ⟨fun e' he ↦ h.keys e' (List.mem_cons_of_mem e he), (List.pairwise_cons.mp h.sorted).2⟩

theorem WF.head_lt (h : WF lt S (e :: m)) : ∀ e' ∈ m, lt e.1 e'.1 = true :=
  (List.pairwise_cons.mp h.sorted).1

/-- A key is not less than an equal one. -/
theorem OrdersOn.ne (h : OrdersOn lt S) {a b : κ} (ha : S a) (hlt : lt a b = true) : a ≠ b := by
  intro hab
  subst hab
  simp [h.irrefl a ha] at hlt

/-- A key that is not greater than the first entry's is not among the later ones. -/
private theorem notMem_tail (ho : OrdersOn lt S) (h : WF lt S (e :: m)) (hk : S k)
    (hle : lt k e.1 = true ∨ k = e.1) : ∀ e' ∈ m, e'.1 ≠ k := by
  intro e' he
  have hlt := h.head_lt e' he
  apply Ne.symm
  apply ho.ne hk
  rcases hle with hke | rfl
  · exact ho.trans k e.1 e'.1 hk (h.keys e List.mem_cons_self) (h.tail.keys e' he) hke hlt
  · exact hlt

/-- A lookup finds the entry of the key. -/
theorem find?_eq_some_iff (ho : OrdersOn lt S) (h : WF lt S m) (hk : S k) :
    find? lt m k = some v ↔ (k, v) ∈ m := by
  induction m with
  | nil => simp [find?, above]
  | cons e m ih =>
    have he := h.keys e List.mem_cons_self
    cases hek : lt e.1 k with
    | true =>
      have hne := ho.ne he hek
      have hfind : find? lt (e :: m) k = find? lt m k := by simp [find?, above, hek]
      rw [hfind, ih h.tail, List.mem_cons]
      constructor
      · exact Or.inr
      · rintro (rfl | hm)
        · exact absurd rfl hne
        · exact hm
    | false =>
      cases hke : lt k e.1 with
      | true =>
        have hnot := notMem_tail ho h hk (.inl hke)
        have hne := ho.ne hk hke
        have hfind : find? lt (e :: m) k = none := by simp [find?, above, hek, hke]
        rw [hfind]
        constructor
        · nofun
        · intro hm
          rcases List.mem_cons.mp hm with rfl | hm
          · exact absurd rfl hne
          · exact absurd rfl (hnot _ hm)
      | false =>
        have heq : k = e.1 := by
          by_contra hne
          rcases ho.total k e.1 hk he hne with h' | h'
          · simp [h'] at hke
          · simp [h'] at hek
        have hnot := notMem_tail ho h hk (.inr heq)
        have hfind : find? lt (e :: m) k = some e.2 := by simp [find?, above, hek, hke]
        rw [hfind]
        constructor
        · intro hv
          apply List.mem_cons.mpr
          left
          rw [heq, ← Option.some.inj hv]
        · intro hm
          rcases List.mem_cons.mp hm with heq' | hm
          · rw [← heq']
          · exact absurd rfl (hnot _ hm)

/-- A key is found when it has an entry. -/
theorem find?_eq_none_iff (ho : OrdersOn lt S) (h : WF lt S m) (hk : S k) :
    find? lt m k = none ↔ ∀ e ∈ m, e.1 ≠ k := by
  constructor
  · rintro hnone e he rfl
    rw [(find?_eq_some_iff ho h hk).mpr he] at hnone
    cases hnone
  · intro hnot
    cases hf : find? lt m k with
    | none => rfl
    | some v => exact absurd rfl (hnot _ ((find?_eq_some_iff ho h hk).mp hf))

theorem mem_below_or_above (lt : κ → κ → Bool) (m : List (κ × ν)) (k : κ) (e : κ × ν) :
    e ∈ m ↔ e ∈ below lt m k ∨ e ∈ above lt m k := by
  rw [← List.mem_append, below, above, List.takeWhile_append_dropWhile]

theorem mem_below {e : κ × ν} (he : e ∈ below lt m k) : lt e.1 k = true := by
  have h := List.all_eq_true.mp List.all_takeWhile e he
  simpa using h

/-- The entries from the lower bound on are not less than the key. -/
theorem mem_above (ho : OrdersOn lt S) (h : WF lt S m) (hk : S k) {e : κ × ν}
    (he : e ∈ above lt m k) : lt e.1 k = false := by
  induction m with
  | nil => cases he
  | cons e₀ m ih =>
    cases hek : lt e₀.1 k with
    | true =>
      apply ih h.tail
      simpa [above, hek] using he
    | false =>
      have hm : e ∈ e₀ :: m := by simpa [above, hek] using he
      rcases List.mem_cons.mp hm with rfl | hm
      · exact hek
      · cases hlt : lt e.1 k with
        | false => rfl
        | true =>
          have hlt₀ := ho.trans e₀.1 e.1 k (h.keys e₀ List.mem_cons_self) (h.tail.keys e hm) hk
            (h.head_lt e hm) hlt
          simp [hek] at hlt₀

/-- A map after an insertion. -/
theorem mem_insert (hnone : find? lt m k = none) (e : κ × ν) :
    e ∈ insert lt m k v ↔ e = (k, v) ∨ e ∈ m := by
  rw [insert, hnone]
  rw [mem_below_or_above lt m k e, List.mem_append, List.mem_cons]
  tauto

theorem insert_of_some {v' : ν} (hsome : find? lt m k = some v') : insert lt m k v = m := by
  simp [insert, hsome]

theorem wf_insert (ho : OrdersOn lt S) (h : WF lt S m) (hk : S k) : WF lt S (insert lt m k v) := by
  cases hf : find? lt m k with
  | some v' => rwa [insert_of_some hf]
  | none =>
    have hnot := (find?_eq_none_iff ho h hk).mp hf
    constructor
    · intro e he
      rcases (mem_insert hf e).mp he with rfl | he
      · exact hk
      · exact h.keys e he
    · simp only [insert, hf]
      apply List.pairwise_append.mpr
      refine ⟨h.sorted.sublist (List.takeWhile_sublist _), ?_, ?_⟩
      · apply List.pairwise_cons.mpr
        refine ⟨?_, h.sorted.sublist (List.dropWhile_sublist _)⟩
        intro e he
        have hem := (mem_below_or_above lt m k e).mpr (.inr he)
        rcases ho.total k e.1 hk (h.keys e hem) (Ne.symm (hnot e hem)) with hlt | hlt
        · exact hlt
        · simp [mem_above ho h hk he] at hlt
      · intro e he e' he'
        have hlt := mem_below he
        rcases List.mem_cons.mp he' with rfl | he'
        · exact hlt
        · have hsplit := h.sorted
          rw [← List.takeWhile_append_dropWhile (p := fun e ↦ lt e.1 k) (l := m)] at hsplit
          exact (List.pairwise_append.mp hsplit).2.2 e he e' he'

/-- A map after an erasure. -/
theorem mem_erase (ho : OrdersOn lt S) (h : WF lt S m) (hk : S k) (e : κ × ν) :
    e ∈ erase lt m k ↔ e.1 ≠ k ∧ e ∈ m := by
  induction m with
  | nil => simp [erase, below, above]
  | cons e₀ m ih =>
    have he₀ := h.keys e₀ List.mem_cons_self
    cases hek : lt e₀.1 k with
    | true =>
      have hne := ho.ne he₀ hek
      have herase : erase lt (e₀ :: m) k = e₀ :: erase lt m k := by
        simp [erase, below, above, hek]
      rw [herase, List.mem_cons, List.mem_cons, ih h.tail]
      constructor
      · rintro (rfl | ⟨hk', hm⟩)
        · exact ⟨hne, .inl rfl⟩
        · exact ⟨hk', .inr hm⟩
      · rintro ⟨hk', rfl | hm⟩
        · exact .inl rfl
        · exact .inr ⟨hk', hm⟩
    | false =>
      cases hke : lt k e₀.1 with
      | true =>
        have hnot := notMem_tail ho h hk (.inl hke)
        have herase : erase lt (e₀ :: m) k = e₀ :: m := by
          simp [erase, below, above, hek, hke]
        rw [herase]
        constructor
        · intro hm
          refine ⟨?_, hm⟩
          rcases List.mem_cons.mp hm with rfl | hm
          · exact Ne.symm (ho.ne hk hke)
          · exact hnot e hm
        · exact And.right
      | false =>
        have heq : k = e₀.1 := by
          by_contra hne
          rcases ho.total k e₀.1 hk he₀ hne with h' | h'
          · simp [h'] at hke
          · simp [h'] at hek
        have hnot := notMem_tail ho h hk (.inr heq)
        -- all later entries are greater, so the erasure stops right behind the first one
        have hrest : (m.dropWhile fun e ↦ !lt k e.1) = m := by
          cases m with
          | nil => rfl
          | cons e₁ m =>
            have hlt := h.head_lt e₁ List.mem_cons_self
            simp [heq, hlt]
        have herase : erase lt (e₀ :: m) k = m := by
          simp [erase, below, above, hek, hke, hrest]
        rw [herase, List.mem_cons]
        constructor
        · intro hm
          exact ⟨hnot e hm, .inr hm⟩
        · rintro ⟨hne, rfl | hm⟩
          · exact absurd heq.symm hne
          · exact hm

theorem erase_sublist (m : List (κ × ν)) (k : κ) : (erase lt m k).Sublist m := by
  have hrest : ((above lt m k).dropWhile fun e ↦ !lt k e.1).Sublist (above lt m k) :=
    List.dropWhile_sublist _
  have h := (List.Sublist.refl (below lt m k)).append hrest
  rw [below, above, List.takeWhile_append_dropWhile] at h
  exact h

theorem wf_erase (h : WF lt S m) (k : κ) : WF lt S (erase lt m k) :=
  ⟨fun e he ↦ h.keys e ((erase_sublist m k).subset he), h.sorted.sublist (erase_sublist m k)⟩

end OrderedMap
end Safrn.Base

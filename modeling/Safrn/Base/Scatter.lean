import Mathlib.Data.List.Basic
import Safrn.Base.Loop

/-!
# Loops in which the last assignment counts

A loop that assigns the counter to a variable whenever a condition holds leaves the last counter for
which it does; and a loop that assigns values to the places of a list leaves in each place the value
of the last round that goes there.
-/

namespace Safrn.Base

/-- The last number below `n` with a property. -/
def lastBelow (p : Nat → Bool) (n : Nat) : Option Nat :=
  forRange (fun last i ↦ if p i then some i else last) n none

theorem lastBelow_succ (p : Nat → Bool) (n : Nat) :
    lastBelow p (n + 1) = if p n then some n else lastBelow p n := rfl

theorem lastBelow_eq_none_iff {p : Nat → Bool} {n : Nat} :
    lastBelow p n = none ↔ ∀ i < n, p i = false := by
  induction n with
  | zero => simp [lastBelow, forRange]
  | succ n ih =>
    rw [lastBelow_succ, Nat.forall_lt_succ_right, ← ih]
    split
    · next hp => simp [hp]
    · next hp => simp [hp]

theorem lastBelow_eq_some_iff {p : Nat → Bool} {n i : Nat} :
    lastBelow p n = some i ↔ i < n ∧ p i = true ∧ ∀ j, i < j → j < n → p j = false := by
  induction n with
  | zero => simp [lastBelow, forRange]
  | succ n ih =>
    rw [lastBelow_succ]
    split
    · next hp =>
      rw [Option.some_inj]
      constructor
      · rintro rfl
        exact ⟨Nat.lt_succ_self _, hp, fun j hj hjn ↦ by omega⟩
      · rintro ⟨hi, -, hlast⟩
        by_contra hne
        have hfalse := hlast n (by omega) (Nat.lt_succ_self n)
        rw [hp] at hfalse
        contradiction
    · next hp =>
      rw [ih]
      constructor
      · rintro ⟨hi, hpi, hlast⟩
        refine ⟨by omega, hpi, fun j hij hj ↦ ?_⟩
        rcases Nat.lt_succ_iff_lt_or_eq.mp hj with hj | rfl
        · exact hlast j hij hj
        · simpa using hp
      · rintro ⟨hi, hpi, hlast⟩
        have hne : i ≠ n := fun heq ↦ hp (heq ▸ hpi)
        exact ⟨by omega, hpi, fun j hij hj ↦ hlast j hij (by omega)⟩

/-- Only the property below `n` matters. -/
theorem lastBelow_congr {p q : Nat → Bool} {n : Nat} (h : ∀ i < n, p i = q i) :
    lastBelow p n = lastBelow q n := by
  induction n with
  | zero => rfl
  | succ n ih =>
    rw [lastBelow_succ, lastBelow_succ, h n (Nat.lt_succ_self n),
      ih fun i hi ↦ h i (Nat.lt_succ_of_lt hi)]

/-- The last position of a value in a list. -/
def lastIdxOf {α : Type} [DecidableEq α] (l : List α) (a : α) : Option Nat :=
  lastBelow (fun i ↦ l[i]? = some a) l.length

theorem lastIdxOf_isSome_iff {α : Type} [DecidableEq α] {l : List α} {a : α} :
    (lastIdxOf l a).isSome ↔ a ∈ l := by
  rw [Option.isSome_iff_ne_none, lastIdxOf, ne_eq, lastBelow_eq_none_iff, List.mem_iff_getElem?]
  constructor
  · intro h
    by_contra hnot
    apply h
    intro i _
    simpa using fun heq ↦ hnot ⟨i, heq⟩
  · rintro ⟨i, hi⟩ h
    have hfalse := h i (List.getElem?_eq_some_iff.mp hi).1
    simp [hi] at hfalse

theorem getElem?_of_lastIdxOf {α : Type} [DecidableEq α] {l : List α} {a : α} {i : Nat}
    (h : lastIdxOf l a = some i) : l[i]? = some a := by
  simpa using (lastBelow_eq_some_iff.mp h).2.1

/-! ## Scattering -/

variable {β : Type}

/-- One round: the value, if the round has a place, is assigned there. -/
def put (place : Nat → Option Nat) (value : Nat → Option β) (l : List β) (i : Nat) :
    Option (List β) :=
  match place i with
  | none => some l
  | some j => (value i).map fun v ↦ l.set j v

/-- What a place of the list holds after `n` rounds. -/
def scattered (place : Nat → Option Nat) (value : Nat → Option β) (n : Nat) (l : List β)
    (j : Nat) : Option β :=
  match lastBelow (fun i ↦ place i = some j) n with
  | none => l[j]?
  | some i => value i

/-- The loop succeeds exactly when all rounds with a place have a value. -/
theorem forRangeM_put_isSome_iff {place : Nat → Option Nat} {value : Nat → Option β} {n : Nat}
    {l : List β} : (forRangeM (put place value) n l).isSome ↔
      ∀ i < n, (place i).isSome → (value i).isSome := by
  induction n with
  | zero => simp [forRangeM]
  | succ n ih =>
    rw [Nat.forall_lt_succ_right, ← ih, forRangeM]
    cases forRangeM (put place value) n l with
    | none => simp
    | some l' => cases hplace : place n <;> simp [put, hplace]

/-- After the loop each place holds the value of the last round that goes there. -/
theorem forRangeM_put {place : Nat → Option Nat} {value : Nat → Option β} {n : Nat}
    {l l' : List β} (h : forRangeM (put place value) n l = some l') :
    l'.length = l.length ∧ ∀ j < l.length, l'[j]? = scattered place value n l j := by
  apply forRangeM_some (fun n l' ↦ l'.length = l.length ∧
    ∀ j < l.length, l'[j]? = scattered place value n l j) _ _ h
  · exact ⟨rfl, fun j _ ↦ rfl⟩
  · rintro i - t t' ⟨hlength, hget⟩ hput
    rw [put] at hput
    split at hput
    · next hplace =>
      obtain rfl := Option.some.inj hput
      refine ⟨hlength, fun j hj ↦ ?_⟩
      rw [hget j hj, scattered, scattered, lastBelow_succ]
      simp [hplace]
    · next k hplace =>
      obtain ⟨v, hv, rfl⟩ := Option.map_eq_some_iff.mp hput
      refine ⟨by rw [List.length_set, hlength], fun j hj ↦ ?_⟩
      rw [List.getElem?_set, scattered, lastBelow_succ]
      by_cases hkj : k = j
      · subst hkj
        simp [hplace, hv, hlength, hj]
      · have hne : ¬place i = some j := by simpa [hplace] using hkj
        simp [hkj, hne, hget j hj, scattered]

/-- A loop that carries two independent states is two loops. -/
theorem forRangeM_prod {σ τ : Type} {f : σ × τ → Nat → Option (σ × τ)} {g : σ → Nat → Option σ}
    {h : τ → Nat → Option τ}
    (hf : ∀ s t i, f (s, t) i = (g s i).bind fun s' ↦ (h t i).map fun t' ↦ (s', t')) (n : Nat)
    (s : σ) (t : τ) : forRangeM f n (s, t) =
      (forRangeM g n s).bind fun s' ↦ (forRangeM h n t).map fun t' ↦ (s', t') := by
  induction n with
  | zero => rfl
  | succ n ih =>
    rw [forRangeM, ih, forRangeM, forRangeM]
    cases forRangeM g n s with
    | none => rfl
    | some s' =>
      cases forRangeM h n t with
      | none => simp
      | some t' => simp [hf]

end Safrn.Base

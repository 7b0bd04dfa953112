import Mathlib.Data.List.Forall2
import Mathlib.Data.Nat.ModEq
import Safrn.Base.Loop
import Safrn.Stats.Payload

/-!
# The powers of an observation

Models the payload columns that `setupMoments` writes (`StartupMoments.cpp:143-166`): on the
vertical of the data the powers of the value that `readCSV` has put into the only column, on the
other one zeros. The powers are formed without reduction.
-/

namespace Safrn.Stats

open Safrn.Base

/-- `cols[i] = v`; `none` when the vector has no such column. -/
def assignCol (cols : List Nat) (i v : Nat) : Option (List Nat) :=
  if i < cols.length then some (cols.set i v) else none

/-- `cols[j + 1] = cols[1] * cols[j]`, for `j = k + 1`. -/
def nextPower (cols : List Nat) (k : Nat) : Option (List Nat) := do
  let x ← cols[1]?
  let y ← cols[k + 1]?
  assignCol cols (k + 2) (x * y)

/-- The columns of an observation of the data's vertical. -/
def dataPayload (moment : Nat) (cols : List Nat) : Option (List Nat) := do
  let cols := resize (moment + 1) cols
  let x ← cols[0]?
  let cols ← assignCol cols 1 x
  let cols ← assignCol cols 0 1
  forRangeM nextPower (moment - 1) cols

/-- The payload columns that `setupMoments` writes for the values read from one table. -/
def momentPayloads (isDataVertical : Bool) (moment : Nat) (rows : List (List Nat)) :
    Option (List (List Nat)) :=
  if isDataVertical then rows.mapM (dataPayload moment)
  else some (rows.map (resize (moment + 1)))

/-- The powers up to some exponent, and zeros. -/
def powersTo (moment x done : Nat) : List Nat :=
  (List.range (moment + 1)).map fun j ↦ if j ≤ done then x ^ j else 0

@[simp] theorem length_powersTo (moment x done : Nat) :
    (powersTo moment x done).length = moment + 1 := by
  simp [powersTo]

theorem getElem?_powersTo {moment x done j : Nat} (hj : j ≤ done) (hdone : done ≤ moment) :
    (powersTo moment x done)[j]? = some (x ^ j) := by
  have hlt : j < moment + 1 := by omega
  simp [powersTo, List.getElem?_range hlt, hj]

/-- Assigning the next power to its column. -/
theorem assignCol_powersTo {moment x done : Nat} (hdone : done < moment) :
    assignCol (powersTo moment x done) (done + 1) (x ^ (done + 1)) =
      some (powersTo moment x (done + 1)) := by
  rw [assignCol, if_pos (by rw [length_powersTo]; omega)]
  congr 1
  apply List.ext_getElem?
  intro j
  rw [List.getElem?_set]
  by_cases hj : j < moment + 1
  · simp only [powersTo, List.length_map, List.length_range, List.getElem?_map,
      List.getElem?_range hj, Option.map_some]
    by_cases heq : done + 1 = j
    · subst heq
      simp [hj]
    · have hiff : j ≤ done ↔ j ≤ done + 1 := by omega
      simp [heq, hiff]
  · have hout : ¬ done + 1 = j := by omega
    simp [powersTo, hout, hj]

theorem nextPower_powersTo {moment x done : Nat} (hpos : 1 ≤ done) (hdone : done < moment) :
    nextPower (powersTo moment x done) (done - 1) = some (powersTo moment x (done + 1)) := by
  obtain ⟨k, rfl⟩ : ∃ k, done = k + 1 := ⟨done - 1, by omega⟩
  rw [nextPower, Nat.add_sub_cancel, getElem?_powersTo (by omega) hdone.le,
    getElem?_powersTo le_rfl hdone.le]
  show assignCol _ (k + 1 + 1) (x ^ 1 * x ^ (k + 1)) = _
  rw [← pow_add, Nat.add_comm 1]
  exact assignCol_powersTo hdone

/-- From one moment on, the columns are the powers. -/
theorem dataPayload_eq {moment : Nat} (hm : 1 ≤ moment) (x : Nat) :
    dataPayload moment [x] = some (powersTo moment x moment) := by
  obtain ⟨m, rfl⟩ : ∃ m, moment = m + 1 := ⟨moment - 1, by omega⟩
  have hstart : powersTo (m + 1) x 1 = 1 :: x :: List.replicate m 0 := by
    apply List.ext_getElem?
    intro j
    match j with
    | 0 => simp [powersTo]
    | 1 => simp [powersTo]
    | j + 2 =>
      by_cases hj : j < m
      · simp [powersTo, hj]
      · simp [powersTo, hj]
  have hloop : ∃ cols, forRangeM nextPower m (powersTo (m + 1) x 1) = some cols ∧
      cols = powersTo (m + 1) x (m + 1) := by
    apply forRangeM_invariant fun i cols ↦ cols = powersTo (m + 1) x (i + 1)
    · rfl
    · rintro i hi _ rfl
      exact ⟨_, nextPower_powersTo (by omega) (by omega), rfl⟩
  obtain ⟨cols, hrun, rfl⟩ := hloop
  rw [← hrun, hstart]
  simp [dataPayload, resize, assignCol, List.replicate_succ]

/-- Without a moment there is no column for the value. -/
theorem dataPayload_zero (x : Nat) : dataPayload 0 [x] = none := by
  simp [dataPayload, resize, assignCol]

/-! ## Canonical powers -/

/-- What the payload columns should be: the powers of each value, reduced. -/
def PowersCanonical (startModulus moment : Nat) (xs : List Nat) : Prop :=
  ∃ table, momentPayloads true moment (xs.map fun x ↦ [x]) = some table ∧
    List.Forall₂ (fun x cols ↦ cols.length = moment + 1 ∧ ∀ j ≤ moment,
      cols.getD j 0 ≡ x ^ j [MOD startModulus] ∧ cols.getD j 0 < startModulus) xs table

theorem momentPayloads_eq {moment : Nat} (hm : 1 ≤ moment) (xs : List Nat) :
    momentPayloads true moment (xs.map fun x ↦ [x]) =
      some (xs.map fun x ↦ powersTo moment x moment) := by
  rw [momentPayloads, if_pos rfl, List.mapM_map]
  induction xs with
  | nil => rfl
  | cons x xs ih => simp [dataPayload_eq hm, ih]

/-- The columns are canonical exactly when there is a column for the value and no power of a
value reaches the modulus. -/
theorem powersCanonical_iff {startModulus : Nat} (hmod : 1 < startModulus) (moment : Nat)
    (xs : List Nat) :
    PowersCanonical startModulus moment xs ↔
      ∀ x ∈ xs, 1 ≤ moment ∧ x ^ moment < startModulus := by
  have hcol : ∀ {x j}, j ≤ moment → (powersTo moment x moment).getD j 0 = x ^ j := by
    intro x j hj
    rw [List.getD_eq_getElem?_getD, getElem?_powersTo hj le_rfl, Option.getD_some]
  constructor
  · rintro ⟨table, hrun, htable⟩ x hx
    rcases Nat.eq_zero_or_pos moment with rfl | hm
    · cases xs with
      | nil => simp at hx
      | cons y ys => simp [momentPayloads, dataPayload_zero] at hrun
    · rw [momentPayloads_eq hm] at hrun
      obtain rfl := Option.some.inj hrun
      rw [List.forall₂_map_right_iff, List.forall₂_same] at htable
      obtain ⟨-, hpowers⟩ := htable x hx
      have hlt := (hpowers moment le_rfl).2
      rw [hcol le_rfl] at hlt
      exact ⟨hm, hlt⟩
  · intro h
    cases xs with
    | nil => exact ⟨[], rfl, .nil⟩
    | cons y ys =>
      have hm : 1 ≤ moment := (h y (by simp)).1
      refine ⟨_, momentPayloads_eq hm _, ?_⟩
      rw [List.forall₂_map_right_iff, List.forall₂_same]
      intro x hx
      refine ⟨length_powersTo _ _ _, fun j hj ↦ ?_⟩
      rw [hcol hj]
      refine ⟨Nat.ModEq.refl _, ?_⟩
      rcases Nat.eq_zero_or_pos x with rfl | hpos
      · have hle := Nat.pow_le_pow_left (Nat.zero_le 1) j
        rw [one_pow] at hle
        exact hle.trans_lt hmod
      · exact (Nat.pow_le_pow_right hpos hj).trans_lt (h x hx).2

/-- Squares of small numbers. -/
theorem powersCanonical_small : PowersCanonical 262147 2 [32, 5] :=
  (powersCanonical_iff (by decide) 2 [32, 5]).mpr (by decide)

/-- The square of the residue of -1, at the default precision and for two rows. -/
theorem not_powersCanonical_negative : ¬PowersCanonical 262147 2 [262115] := by
  rintro ⟨table, hrun, htable⟩
  rw [momentPayloads_eq (by decide)] at hrun
  obtain rfl := Option.some.inj hrun
  rw [List.forall₂_map_right_iff, List.forall₂_same] at htable
  have hlt := ((htable 262115 (by simp)).2 2 le_rfl).2
  rw [List.getD_eq_getElem?_getD, getElem?_powersTo le_rfl le_rfl, Option.getD_some] at hlt
  omega

end Safrn.Stats

import Mathlib.Data.Nat.ModEq
import Safrn.Stats.Exchange
import Safrn.Stats.Payload

/-!
# What shared lists stand for

Two lists of shares stand for the list of the sums of their columns, modulo the moduli of the keys
and of the payloads, and of the exclusive or of the rest. The lists of a regression
(`dataowner/Regression.cpp:87-249`) stand for the lists of both parties; those of the moments
(`dataowner/Moments.cpp:113-232`) do so only when the masks of the keys, which are drawn below
`startModulus`, happen to lie below `keyModulus`.
-/

namespace Safrn.Stats

open Safrn.Base

/-- `modSub` subtracts a canonical number. -/
def IsModSub (modSub : Nat → Nat → Nat → Nat) : Prop :=
  ∀ a b m, b < m → modSub a b m < m ∧ (modSub a b m + b) % m = a % m

/-- Subtraction of residues. -/
def residueSub (a b m : Nat) : Nat := (a + (m - b % m)) % m

theorem isModSub_residueSub : IsModSub residueSub := by
  intro a b m hb
  unfold residueSub
  constructor
  · exact Nat.mod_lt _ (by omega)
  · rw [Nat.mod_eq_of_lt hb, Nat.mod_add_mod, Nat.add_assoc, Nat.sub_add_cancel (Nat.le_of_lt hb),
      Nat.add_mod_right]

section

variable (info : ListInfo)

/-- The row of which two rows are the shares. -/
def reconstructRow (row₁ row₂ : Observation) : Observation where
  keyCols := List.zipWith (fun x y ↦ (x + y) % info.keyModulus) row₁.keyCols row₂.keyCols
  arithmeticPayloadCols := List.zipWith (fun x y ↦ (x + y) % info.startModulus)
    row₁.arithmeticPayloadCols row₂.arithmeticPayloadCols
  xorPayloadCols := List.zipWith (fun x y ↦ x ^^^ y) row₁.xorPayloadCols row₂.xorPayloadCols

/-- The columns of a row that are shared, as far as their shares determine them. -/
def reduceRow (row : Observation) : Observation where
  keyCols := (row.keyCols.take info.numKeyCols).map (· % info.keyModulus)
  arithmeticPayloadCols :=
    (row.arithmeticPayloadCols.take info.numArithmeticPayloadCols).map (· % info.startModulus)
  xorPayloadCols := row.xorPayloadCols.take info.numXorPayloadCols

/-- Two lists are shares of a list of rows. -/
structure Reconstructs (list₁ list₂ rows : List Observation) : Prop where
  length₁ : list₁.length = rows.length
  length₂ : list₂.length = rows.length
  rows : List.zipWith (reconstructRow info) list₁ list₂ = rows.map (reduceRow info)

/-- Every share is less than its modulus. -/
structure Canonical (sharedList : List Observation) : Prop where
  keyCols : ∀ row ∈ sharedList, ∀ x ∈ row.keyCols, x < info.keyModulus
  arithmeticPayloadCols : ∀ row ∈ sharedList, ∀ x ∈ row.arithmeticPayloadCols,
    x < info.startModulus

end

section

variable {modSub : Nat → Nat → Nat → Nat} {info : ListInfo} {keyMaskModulus : Nat}
  {draws : Draws info keyMaskModulus}

/-- The first columns, each after `f`. -/
private theorem map_take {α β : Type} (f : α → β) {cols : List α} {n : Nat} (d : α)
    (h : n ≤ cols.length) :
    (cols.take n).map f = (List.range n).map fun k ↦ f (cols.getD k d) := by
  apply List.ext_getElem
  · simp [h]
  · intro k hk _
    simp only [List.length_map, List.length_take] at hk
    have hlt : k < cols.length := by omega
    simp [hlt]

theorem reconstructRow_comm (row₁ row₂ : Observation) :
    reconstructRow info row₁ row₂ = reconstructRow info row₂ row₁ := by
  unfold reconstructRow
  rw [List.zipWith_comm_of_comm (fun x y ↦ by rw [Nat.add_comm]),
    List.zipWith_comm_of_comm (l := row₁.arithmeticPayloadCols) (fun x y ↦ by rw [Nat.add_comm]),
    List.zipWith_comm_of_comm (l := row₁.xorPayloadCols) BitVec.xor_comm]

/-- What is kept of a row and its masks stand for the row. -/
theorem reconstructRow_keptRow (hsub : IsModSub modSub) {row : Observation}
    (h : WellFormed info row) {i j : Nat}
    (hkey : ∀ k < info.numKeyCols, draws.key i j k < info.keyModulus) :
    reconstructRow info (keptRow modSub info draws i j row) (maskRow info draws i j) =
      reduceRow info row := by
  unfold reconstructRow keptRow maskRow reduceRow
  simp only [List.zipWith_map, List.zipWith_self]
  congr 1
  · rw [map_take _ 0 h.keyCols]
    apply List.map_congr_left
    intro k hk
    exact (hsub _ _ _ (hkey k (List.mem_range.mp hk))).2
  · rw [map_take _ 0 h.arithmeticPayloadCols]
    apply List.map_congr_left
    intro k _
    exact (hsub _ _ _ (draws.arithmetic_lt i j k)).2
  · rw [← List.map_id (row.xorPayloadCols.take _), map_take _ 0 h.xorPayloadCols]
    apply List.map_congr_left
    intro k _
    rw [BitVec.xor_assoc, BitVec.xor_self, BitVec.xor_zero]
    rfl

/-- The kept half and the masks stand for the first rows of the own list. -/
theorem reconstruct_kept (hsub : IsModSub modSub) {ownList : List Observation}
    (hlen : info.maxListSize ≤ ownList.length) (h : ∀ row ∈ ownList, WellFormed info row) {i : Nat}
    (hkey : ∀ j < info.maxListSize, ∀ k < info.numKeyCols, draws.key i j k < info.keyModulus) :
    List.zipWith (reconstructRow info) (kept modSub info draws i ownList) (masks info draws i) =
      (ownList.take info.maxListSize).map (reduceRow info) := by
  rw [kept, masks, List.zipWith_map, List.zipWith_self, map_take _ default hlen]
  apply List.map_congr_left
  intro j hj
  have hj := List.mem_range.mp hj
  have hlt : j < ownList.length := by omega
  have hmem : ownList.getD j default ∈ ownList := by
    rw [List.getD_eq_getElem?_getD, List.getElem?_eq_getElem hlt]
    exact List.getElem_mem hlt
  exact reconstructRow_keptRow hsub (h _ hmem) (hkey j hj)

/-! ## Canonical shares -/

theorem canonical_append {list₁ list₂ : List Observation} :
    Canonical info (list₁ ++ list₂) ↔ Canonical info list₁ ∧ Canonical info list₂ := by
  constructor
  · intro h
    constructor
    · constructor
      · intro row hrow
        exact h.keyCols row (List.mem_append_left _ hrow)
      · intro row hrow
        exact h.arithmeticPayloadCols row (List.mem_append_left _ hrow)
    · constructor
      · intro row hrow
        exact h.keyCols row (List.mem_append_right _ hrow)
      · intro row hrow
        exact h.arithmeticPayloadCols row (List.mem_append_right _ hrow)
  · intro ⟨h₁, h₂⟩
    constructor
    · intro row hrow
      exact (List.mem_append.mp hrow).elim (h₁.keyCols row) (h₂.keyCols row)
    · intro row hrow
      exact (List.mem_append.mp hrow).elim (h₁.arithmeticPayloadCols row)
        (h₂.arithmeticPayloadCols row)

/-- The masks of the payloads are canonical, so those of the keys decide. -/
theorem canonical_masks {i : Nat} :
    Canonical info (masks info draws i) ↔
      ∀ j < info.maxListSize, ∀ k < info.numKeyCols, draws.key i j k < info.keyModulus := by
  constructor
  · intro h j hj k hk
    apply h.keyCols (maskRow info draws i j) (List.mem_map.mpr ⟨j, List.mem_range.mpr hj, rfl⟩)
    exact List.mem_map.mpr ⟨k, List.mem_range.mpr hk, rfl⟩
  · intro hkey
    constructor
    · intro row hrow y hy
      obtain ⟨j, hj, rfl⟩ := List.mem_map.mp hrow
      obtain ⟨k, hk, rfl⟩ := List.mem_map.mp hy
      exact hkey j (List.mem_range.mp hj) k (List.mem_range.mp hk)
    · intro row hrow y hy
      obtain ⟨j, -, rfl⟩ := List.mem_map.mp hrow
      obtain ⟨k, -, rfl⟩ := List.mem_map.mp hy
      exact draws.arithmetic_lt i j k

theorem canonical_kept (hsub : IsModSub modSub) (ownList : List Observation) {i : Nat}
    (hkey : ∀ j < info.maxListSize, ∀ k < info.numKeyCols, draws.key i j k < info.keyModulus) :
    Canonical info (kept modSub info draws i ownList) := by
  constructor
  · intro row hrow y hy
    obtain ⟨j, hj, rfl⟩ := List.mem_map.mp hrow
    obtain ⟨k, hk, rfl⟩ := List.mem_map.mp hy
    exact (hsub _ _ _ (hkey j (List.mem_range.mp hj) k (List.mem_range.mp hk))).1
  · intro row hrow y hy
    obtain ⟨j, -, rfl⟩ := List.mem_map.mp hrow
    obtain ⟨k, -, rfl⟩ := List.mem_map.mp hy
    exact (hsub _ _ _ (draws.arithmetic_lt i j k)).1

end

/-! ## The lists of two parties -/

namespace Exchange

variable (modSub : Nat → Nat → Nat → Nat) {info : ListInfo} {keyMaskModulus : Nat}
  (compute : Draws info keyMaskModulus → Nat → List Observation → Option (List Observation))
  (x : Exchange info keyMaskModulus)

/-- The masks that one party draws for the keys it shares with another are canonical. -/
def KeyMasksReduced (self other : Identity) : Prop :=
  ∀ j < info.maxListSize, ∀ k < info.numKeyCols,
    (x.draws self).key (indexOfCrossParties x.dataowners self other) j k < info.keyModulus

/-- In the end two parties hold canonical shares of the rows. -/
def HoldShares (p q : Identity) (rows : List Observation) : Prop :=
  ∃ finalP finalQ listP listQ, x.sharedLists modSub compute p = some finalP ∧
    x.sharedLists modSub compute q = some finalQ ∧
    finalP[indexOfCrossParties x.dataowners p q]? = some listP ∧
    finalQ[indexOfCrossParties x.dataowners q p]? = some listQ ∧
    Reconstructs info listP listQ rows ∧ Canonical info listP ∧ Canonical info listQ

variable {modSub compute x} {lists : Identity → List Observation} {p q : Identity}

theorem length_held (lists : Identity → List Observation) (p q : Identity) :
    (x.held modSub lists p q).length = 2 * info.maxListSize := by
  unfold held
  split <;> simp only [List.length_append, length_kept, length_masks] <;> omega

/-- The lists in question are the held ones. -/
theorem holdShares_iff_held (h : x.Padded compute lists) (hp : p ∈ x.dataowners)
    (hq : q ∈ x.dataowners) (hne : q.vertical ≠ p.vertical) (rows : List Observation) :
    x.HoldShares modSub compute p q rows ↔
      Reconstructs info (x.held modSub lists p q) (x.held modSub lists q p) rows ∧
        Canonical info (x.held modSub lists p q) ∧ Canonical info (x.held modSub lists q p) := by
  obtain ⟨finalP, hrunP, hgetP⟩ : ∃ final, x.sharedLists modSub compute p = some final ∧ _ :=
    sharedLists_eq h hp
  obtain ⟨finalQ, hrunQ, hgetQ⟩ : ∃ final, x.sharedLists modSub compute q = some final ∧ _ :=
    sharedLists_eq h hq
  have hP := hgetP q (mem_crossParties.mpr ⟨hq, hne⟩)
  have hQ := hgetQ p (mem_crossParties.mpr ⟨hp, hne.symm⟩)
  constructor
  · rintro ⟨finalP', finalQ', listP, listQ, hrunP', hrunQ', hP', hQ', hshares⟩
    cases hrunP.symm.trans hrunP'
    cases hrunQ.symm.trans hrunQ'
    cases hP.symm.trans hP'
    cases hQ.symm.trans hQ'
    exact hshares
  · intro hshares
    exact ⟨finalP, finalQ, _, _, hrunP, hrunQ, hP, hQ, hshares⟩

/-- The party that holds the data comes first. -/
theorem reconstructs_held (hsub : IsModSub modSub) (h : x.Padded compute lists)
    (hp : p ∈ x.dataowners) (hq : q ∈ x.dataowners) (hpv : p.vertical = info.dataVertical)
    (hqv : q.vertical ≠ info.dataVertical) (hkeyP : x.KeyMasksReduced p q)
    (hkeyQ : x.KeyMasksReduced q p) :
    Reconstructs info (x.held modSub lists p q) (x.held modSub lists q p)
      ((lists p).take info.maxListSize ++ (lists q).take info.maxListSize) := by
  have hlen : ((lists p).take info.maxListSize ++ (lists q).take info.maxListSize).length =
      2 * info.maxListSize := by
    have hlenP := h.length p hp
    have hlenQ := h.length q hq
    rw [List.length_append, List.length_take, List.length_take]
    omega
  refine ⟨by rw [length_held, hlen], by rw [length_held, hlen], ?_⟩
  rw [held, held, if_pos hpv, if_neg hqv, List.zipWith_append (by rw [length_kept, length_masks]),
    List.map_append]
  congr 1
  · exact reconstruct_kept hsub (h.length p hp) (h.wellFormed p hp) hkeyP
  · rw [List.zipWith_comm_of_comm reconstructRow_comm]
    exact reconstruct_kept hsub (h.length q hq) (h.wellFormed q hq) hkeyQ

theorem canonical_held_iff (hsub : IsModSub modSub) :
    Canonical info (x.held modSub lists p q) ∧ Canonical info (x.held modSub lists q p) ↔
      x.KeyMasksReduced p q ∧ x.KeyMasksReduced q p := by
  have hheld : ∀ p q, Canonical info (x.held modSub lists p q) ↔
      Canonical info (kept modSub info (x.draws p) (indexOfCrossParties x.dataowners p q)
        (lists p)) ∧ x.KeyMasksReduced q p := by
    intro p q
    unfold held KeyMasksReduced
    rw [← (canonical_masks : Canonical info (masks info (x.draws q) _) ↔ _)]
    split
    · rw [canonical_append]
    · rw [canonical_append, and_comm]
  rw [hheld, hheld]
  constructor
  · intro ⟨⟨_, hq⟩, _, hp⟩
    exact ⟨hp, hq⟩
  · intro ⟨hp, hq⟩
    exact ⟨⟨canonical_kept hsub _ hp, hq⟩, canonical_kept hsub _ hq, hp⟩

end Exchange
end Safrn.Stats

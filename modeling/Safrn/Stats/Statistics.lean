import Safrn.Stats.Reconstruct

/-!
# The shared lists of a regression and of the moments

`Regression` computes the payload vectors, pads the list and draws the masks of the keys below
`keyModulus` (`dataowner/Regression.cpp:87-249`). `Moments` pads the list as it is and draws the
masks of the keys below `startModulus`, but subtracts them modulo `keyModulus`
(`dataowner/Moments.cpp:113-232`).
-/

namespace Safrn.Stats

open Safrn.Base

/-! ## Regression -/

/-- The fields of a `Regression` that its lists depend on. -/
structure Regression where
  info : RegressionInfo
  verticalDv : Nat
  keyModulus : Nat
  maxListSize : Nat
  numXorPayloadCols : Nat

namespace Regression

variable (modMul : Nat → Nat → Nat → Nat) (r : Regression)

/-- The column counts and moduli of the shared lists. -/
def listInfo : ListInfo where
  maxListSize := r.maxListSize
  numKeyCols := 2
  numArithmeticPayloadCols := r.info.payloadLength
  numXorPayloadCols := r.numXorPayloadCols
  dataVertical := r.verticalDv
  keyModulus := r.keyModulus
  startModulus := r.info.startModulus

/-- The payload vector of one observation. -/
def computePayloadVector (selfVertical : Nat) (o : Observation) : Option Observation :=
  (if selfVertical = r.verticalDv then
    computePayloadVectorDv modMul r.info o.arithmeticPayloadCols
  else computePayloadVectorNonDv modMul r.info o.arithmeticPayloadCols).map fun cols ↦
    { o with arithmeticPayloadCols := cols }

/-- `computePayloadVectorAndPadList`. -/
def computePayloadVectorAndPadList (draws : Draws r.listInfo r.keyModulus) (selfVertical : Nat)
    (rows : List Observation) : Option (List Observation) := do
  let elements ← rows.mapM (r.computePayloadVector modMul selfVertical)
  some (padList r.listInfo draws elements)

/-- A row as it is read from the file of a data owner. -/
structure ReadRow (vertical : Nat) (row : Observation) : Prop where
  keyCols : 2 ≤ row.keyCols.length
  arithmeticPayloadCols : row.arithmeticPayloadCols.length =
    if vertical = r.verticalDv then r.info.verticalDvNumIvs + 1 else r.info.verticalNonDvNumIvs
  xorPayloadCols : r.numXorPayloadCols ≤ row.xorPayloadCols.length

variable {r}

private theorem mapM_wellFormed {info : ListInfo} {f : Observation → Option Observation}
    {rows : List Observation}
    (h : ∀ row ∈ rows, ∃ row', f row = some row' ∧ WellFormed info row') :
    ∃ elements, rows.mapM f = some elements ∧ elements.length = rows.length ∧
      ∀ row ∈ elements, WellFormed info row := by
  induction rows with
  | nil => exact ⟨[], rfl, rfl, by simp⟩
  | cons row rows ih =>
    obtain ⟨row', hrow, hwf⟩ := h row List.mem_cons_self
    obtain ⟨elements, hrun, hlen, hall⟩ := ih fun row hrow ↦ h row (List.mem_cons_of_mem _ hrow)
    refine ⟨row' :: elements, ?_, by simp [hlen], ?_⟩
    · simp [List.mapM_cons, hrow, hrun]
    · intro row hmem
      rcases List.mem_cons.mp hmem with rfl | hmem
      · exact hwf
      · exact hall row hmem

private theorem computePayloadVector_wellFormed {vertical : Nat} {row : Observation}
    (h : r.ReadRow vertical row) :
    ∃ row', r.computePayloadVector modMul vertical row = some row' ∧
      WellFormed r.listInfo row' := by
  have hcols : ∃ cols, (if vertical = r.verticalDv then
      computePayloadVectorDv modMul r.info row.arithmeticPayloadCols
      else computePayloadVectorNonDv modMul r.info row.arithmeticPayloadCols) = some cols ∧
      cols.length = r.info.payloadLength := by
    have hlen := h.arithmeticPayloadCols
    split at hlen
    · next hv =>
      obtain ⟨hle, hrun⟩ := computePayloadVectorDv_eq modMul hlen
      rw [if_pos hv]
      refine ⟨_, hrun, ?_⟩
      rw [List.length_append, List.length_replicate]
      omega
    · next hv =>
      obtain ⟨hle, hrun⟩ := computePayloadVectorNonDv_eq modMul hlen
      rw [if_neg hv]
      refine ⟨_, hrun, ?_⟩
      rw [List.length_append, List.length_replicate]
      omega
  obtain ⟨cols, hrun, hlen⟩ := hcols
  refine ⟨{ row with arithmeticPayloadCols := cols }, ?_, ?_⟩
  · rw [computePayloadVector, hrun, Option.map_some]
  · exact ⟨h.keyCols, Nat.le_of_eq hlen.symm, h.xorPayloadCols⟩

/-- Every constructor computes the payload vectors of all rows. -/
private theorem exists_padded (x : Exchange r.listInfo r.keyModulus)
    (hrows : ∀ self ∈ x.dataowners, ∀ row ∈ x.rows self, r.ReadRow self.vertical row) :
    ∃ payload : Identity → List Observation,
      (∀ self ∈ x.dataowners,
        (x.rows self).mapM (r.computePayloadVector modMul self.vertical) = some (payload self) ∧
          (payload self).length = (x.rows self).length) ∧
      x.Padded (r.computePayloadVectorAndPadList modMul)
        fun self ↦ padList r.listInfo (x.draws self) (payload self) := by
  have hpayload : ∀ self ∈ x.dataowners, ∃ elements,
      (x.rows self).mapM (r.computePayloadVector modMul self.vertical) = some elements ∧
        elements.length = (x.rows self).length ∧ ∀ row ∈ elements, WellFormed r.listInfo row :=
    fun self hself ↦ mapM_wellFormed fun row hrow ↦
      computePayloadVector_wellFormed modMul (hrows self hself row hrow)
  choose! payload hrun hlen hwf using hpayload
  refine ⟨payload, fun self hself ↦ ⟨hrun self hself, hlen self hself⟩, ?_⟩
  constructor
  · intro self hself
    simp only [computePayloadVectorAndPadList, hrun self hself, Option.bind_eq_bind,
      Option.bind_some]
  · intro self _
    rw [length_padList]
    exact Nat.le_max_right _ _
  · intro self hself
    exact wellFormed_padList (hwf self hself)

/-- In the end the two parties hold canonical shares of the first `maxListSize` rows of both padded
lists. A list that is not longer is shared whole, the rows of a longer one are cut off; padding rows
have a payload of zeros and canonical keys. -/
theorem holdShares (r : Regression) (modMul modSub : Nat → Nat → Nat → Nat)
    (hsub : IsModSub modSub) (x : Exchange r.listInfo r.keyModulus)
    (hrows : ∀ self ∈ x.dataowners, ∀ row ∈ x.rows self, r.ReadRow self.vertical row) :
    ∃ payload : Identity → List Observation,
      (∀ self ∈ x.dataowners,
        (x.rows self).mapM (r.computePayloadVector modMul self.vertical) = some (payload self) ∧
          (payload self <+: (padList r.listInfo (x.draws self) (payload self)).take r.maxListSize ↔
            (x.rows self).length ≤ r.maxListSize)) ∧
      (∀ self ∈ x.dataowners, ∀ row ∈ padding r.listInfo (x.draws self) (payload self),
        (∀ key ∈ row.keyCols, key < r.keyModulus) ∧ (∀ v ∈ row.arithmeticPayloadCols, v = 0) ∧
          ∀ b ∈ row.xorPayloadCols, b = 0) ∧
      ∀ p ∈ x.dataowners, ∀ q ∈ x.dataowners, p.vertical = r.verticalDv →
        q.vertical ≠ r.verticalDv →
        x.HoldShares modSub (r.computePayloadVectorAndPadList modMul) p q
          ((padList r.listInfo (x.draws p) (payload p)).take r.maxListSize ++
            (padList r.listInfo (x.draws q) (payload q)).take r.maxListSize) := by
  obtain ⟨payload, hpayload, hpadded⟩ := exists_padded modMul x hrows
  refine ⟨payload, ?_, ?_, ?_⟩
  · intro self hself
    obtain ⟨hrun, hlen⟩ := hpayload self hself
    refine ⟨hrun, ?_⟩
    rw [← hlen]
    constructor
    · intro hprefix
      have hle := hprefix.length_le
      rw [List.length_take] at hle
      omega
    · intro hle
      rw [padList, List.take_append, List.take_of_length_le hle]
      exact List.prefix_append _ _
  · intro self _ row hrow
    obtain ⟨j, -, rfl⟩ := List.mem_map.mp hrow
    refine ⟨?_, ?_, ?_⟩
    · intro key hkey
      obtain ⟨k, -, rfl⟩ := List.mem_map.mp hkey
      exact (x.draws self).padKey_lt j k
    · intro v hv
      exact (List.mem_replicate.mp hv).2
    · intro b hb
      exact (List.mem_replicate.mp hb).2
  · intro p hp q hq hpv hqv
    -- the masks of the keys are drawn below the modulus of the keys
    have hkeys : ∀ self other, x.KeyMasksReduced self other :=
      fun self other j _ k _ ↦ (x.draws self).key_lt _ j k
    rw [Exchange.holdShares_iff_held hpadded hp hq (hpv ▸ hqv)]
    exact ⟨Exchange.reconstructs_held hsub hpadded hp hq hpv hqv (hkeys p q) (hkeys q p),
      (Exchange.canonical_held_iff hsub).mpr ⟨hkeys p q, hkeys q p⟩⟩

/-- One independent variable on each side, lists of one row, and two parties. -/
def small : Regression := ⟨⟨1, 1, 7⟩, 0, 11, 1, 0⟩

/-- The first padding key is 5, all other draws are 0. -/
def smallDraws : Draws small.listInfo small.keyModulus where
  padKey _ k := if k = 0 then 5 else 0
  key _ _ _ := 0
  arithmetic _ _ _ := 0
  xor _ _ _ := 0
  padKey_lt := by
    intro j k
    show (if k = 0 then 5 else 0) < 11
    split <;> omega
  key_lt := fun _ _ _ ↦ by decide
  arithmetic_lt := fun _ _ _ ↦ by decide

/-- The party of the dependent variable and the other one, with these rows. -/
def smallExchange (rowsDv rowsNonDv : List Observation) :
    Exchange small.listInfo small.keyModulus where
  dataowners := [⟨0, 0⟩, ⟨1, 1⟩]
  rows self := if self.vertical = 0 then rowsDv else rowsNonDv
  draws _ := smallDraws
  arrivals self := crossParties [⟨0, 0⟩, ⟨1, 1⟩] self
  nodup := by decide
  arrivals_perm _ := List.Perm.refl _

theorem holdShares_small :
    let x := smallExchange [⟨[5, 0], [2, 5], []⟩] [⟨[5, 1], [3], []⟩]
    let compute := small.computePayloadVectorAndPadList fun x y m ↦ x * y % m
    ∃ payload : Identity → List Observation,
      x.HoldShares residueSub compute ⟨0, 0⟩ ⟨1, 1⟩
        ((padList small.listInfo smallDraws (payload ⟨0, 0⟩)).take 1 ++
          (padList small.listInfo smallDraws (payload ⟨1, 1⟩)).take 1) := by
  obtain ⟨payload, -, -, hshares⟩ := holdShares small (fun x y m ↦ x * y % m) residueSub
    isModSub_residueSub (smallExchange [⟨[5, 0], [2, 5], []⟩] [⟨[5, 1], [3], []⟩]) (by
      intro self hself row hrow
      have hself : self = ⟨0, 0⟩ ∨ self = ⟨1, 1⟩ := by simpa [smallExchange] using hself
      rcases hself with rfl | rfl
      · obtain rfl : row = ⟨[5, 0], [2, 5], []⟩ := by simpa [smallExchange] using hrow
        constructor <;> decide
      · obtain rfl : row = ⟨[5, 1], [3], []⟩ := by simpa [smallExchange] using hrow
        constructor <;> decide)
  exact ⟨payload, hshares ⟨0, 0⟩ (by decide) ⟨1, 1⟩ (by decide) rfl (by decide)⟩

/-- A list of two rows is longer than the shared list has room for, and the key of the padding row
of the other party is that of a real row. -/
theorem holdShares_overlong :
    let x := smallExchange [⟨[5, 0], [2, 5], []⟩, ⟨[6, 0], [1, 1], []⟩] []
    let compute := small.computePayloadVectorAndPadList fun x y m ↦ x * y % m
    (∃ listP listQ, compute (x.draws ⟨0, 0⟩) 0 (x.rows ⟨0, 0⟩) = some listP ∧
      compute (x.draws ⟨1, 1⟩) 1 (x.rows ⟨1, 1⟩) = some listQ ∧
      ¬ x.HoldShares residueSub compute ⟨0, 0⟩ ⟨1, 1⟩ (listP ++ listQ)) ∧
    ∃ row ∈ padding small.listInfo (x.draws ⟨1, 1⟩) (x.rows ⟨1, 1⟩), ∃ real ∈ x.rows ⟨0, 0⟩,
      row.keyCols = real.keyCols := by
  refine ⟨⟨_, _, rfl, rfl, ?_⟩, ?_⟩
  · rintro ⟨finalP, finalQ, listP, listQ, hP, -, hlistP, -, hrows, -, -⟩
    have hlen := hrows.length₁
    cases hP
    cases hlistP
    exact absurd hlen (by decide)
  · exact ⟨_, List.mem_cons_self, _, List.mem_cons_self, rfl⟩

end Regression

/-! ## Moments -/

/-- The fields of a `Moments` that its lists depend on. -/
structure Moments where
  dataVertical : Nat
  payloadLength : Nat
  keyModulus : Nat
  startModulus : Nat
  maxListSize : Nat

namespace Moments

variable (m : Moments)

/-- The column counts and moduli of the shared lists. -/
def listInfo : ListInfo where
  maxListSize := m.maxListSize
  numKeyCols := 2
  numArithmeticPayloadCols := m.payloadLength
  numXorPayloadCols := 0
  dataVertical := m.dataVertical
  keyModulus := m.keyModulus
  startModulus := m.startModulus

/-- `computePayloadVectorAndPadList`; the payload vectors are those that were read. -/
def computePayloadVectorAndPadList (draws : Draws m.listInfo m.startModulus) (_selfVertical : Nat)
    (rows : List Observation) : Option (List Observation) :=
  some (padList m.listInfo draws rows)

/-- The two parties hold canonical shares of both padded lists if and only if the lists fit and all
masks of the keys, although drawn below `startModulus`, lie below `keyModulus`. -/
theorem holdShares_iff (m : Moments) (modSub : Nat → Nat → Nat → Nat) (hsub : IsModSub modSub)
    (x : Exchange m.listInfo m.startModulus)
    (hrows : ∀ self ∈ x.dataowners, ∀ row ∈ x.rows self, WellFormed m.listInfo row)
    (p q : Identity) (hp : p ∈ x.dataowners) (hq : q ∈ x.dataowners)
    (hpv : p.vertical = m.dataVertical) (hqv : q.vertical ≠ m.dataVertical) :
    x.HoldShares modSub m.computePayloadVectorAndPadList p q
        (padList m.listInfo (x.draws p) (x.rows p) ++ padList m.listInfo (x.draws q) (x.rows q)) ↔
      ((x.rows p).length ≤ m.maxListSize ∧ (x.rows q).length ≤ m.maxListSize) ∧
        x.KeyMasksReduced p q ∧ x.KeyMasksReduced q p := by
  have hpadded : x.Padded m.computePayloadVectorAndPadList
      fun self ↦ padList m.listInfo (x.draws self) (x.rows self) := by
    constructor
    · intro self _
      rfl
    · intro self _
      rw [length_padList]
      exact Nat.le_max_right _ _
    · intro self hself
      exact wellFormed_padList (hrows self hself)
  have hmax : m.listInfo.maxListSize = m.maxListSize := rfl
  rw [Exchange.holdShares_iff_held hpadded hp hq (hpv ▸ hqv), Exchange.canonical_held_iff hsub]
  constructor
  · intro ⟨hrec, hkeys⟩
    have hlen := hrec.length₁
    rw [Exchange.length_held, List.length_append, length_padList, length_padList] at hlen
    exact ⟨by omega, hkeys⟩
  · intro ⟨⟨hlenP, hlenQ⟩, hkeyP, hkeyQ⟩
    have hrec := Exchange.reconstructs_held hsub hpadded hp hq hpv hqv hkeyP hkeyQ
    rw [List.take_of_length_le (by rw [length_padList]; omega),
      List.take_of_length_le (by rw [length_padList]; omega)] at hrec
    exact ⟨hrec, hkeyP, hkeyQ⟩

/-- Two payload columns, and lists of one row. -/
def small : Moments := ⟨0, 2, 7, 11, 1⟩

/-- All draws are 0, apart from the mask of the first key. -/
def smallDraws (mask : Fin 11) : Draws small.listInfo small.startModulus where
  padKey _ _ := 0
  key _ _ k := if k = 0 then mask else 0
  arithmetic _ _ _ := 0
  xor _ _ _ := 0
  padKey_lt := fun _ _ ↦ by decide
  key_lt := by
    intro i j k
    show (if k = 0 then mask.val else 0) < 11
    split <;> omega
  arithmetic_lt := fun _ _ _ ↦ by decide

/-- The party that holds the data and the other one, with one row each. -/
def smallExchange (mask : Fin 11) : Exchange small.listInfo small.startModulus where
  dataowners := [⟨0, 0⟩, ⟨1, 1⟩]
  rows self := [⟨[5, self.vertical], [1, 3], []⟩]
  draws _ := smallDraws mask
  arrivals self := crossParties [⟨0, 0⟩, ⟨1, 1⟩] self
  nodup := by decide
  arrivals_perm _ := List.Perm.refl _

theorem holdShares_iff_small :
    let x := smallExchange 3
    x.HoldShares residueSub small.computePayloadVectorAndPadList ⟨0, 0⟩ ⟨1, 1⟩
        [⟨[5, 0], [1, 3], []⟩, ⟨[5, 1], [1, 3], []⟩] ↔
      (1 ≤ 1 ∧ 1 ≤ 1) ∧ x.KeyMasksReduced ⟨0, 0⟩ ⟨1, 1⟩ ∧ x.KeyMasksReduced ⟨1, 1⟩ ⟨0, 0⟩ :=
  holdShares_iff small residueSub isModSub_residueSub (smallExchange 3) (by
    intro self _ row hrow
    obtain rfl : row = ⟨[5, self.vertical], [1, 3], []⟩ := by simpa [smallExchange] using hrow
    constructor <;> simp [small, listInfo]) ⟨0, 0⟩ ⟨1, 1⟩ (by decide) (by decide) rfl (by decide)

/-- The mask 8 is drawn below `startModulus`, which is 11, and sent as it is, although `keyModulus`
is 7. -/
theorem holdShares_largeMask :
    ¬ (smallExchange 8).HoldShares residueSub small.computePayloadVectorAndPadList
      ⟨0, 0⟩ ⟨1, 1⟩ [⟨[5, 0], [1, 3], []⟩, ⟨[5, 1], [1, 3], []⟩] := by
  rintro ⟨finalP, finalQ, listP, listQ, hP, -, hlistP, -, -, hcanonical, -⟩
  cases hP
  cases hlistP
  have hlt := hcanonical.keyCols ⟨[8, 0], [0, 0], []⟩ (by decide) 8 (by decide)
  exact absurd hlt (by decide)

end Moments

end Safrn.Stats

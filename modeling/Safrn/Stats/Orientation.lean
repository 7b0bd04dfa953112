import Safrn.Base.Adjacent
import Safrn.Stats.Gram
import Safrn.Stats.Statistics

/-!
# The order inside a matched pair of observations

`readCSV` appends the index of the vertical to the columns that the query joins on
(`StartupUtils.cpp:148-187`); the first two key columns of the padded lists of a data owner of the
dependent variable and of one of the other vertical are sorted together (`SISOSort`), and every
row and its successor are compared (`ZipAdjacent`). The columns of a matching pair go to
`RegressionPayloadCompute` in their order in the list (`dataowner/Regression.cpp:430-620`), which
takes the first for the row of the other vertical and the second for that of the dependent
variable.
-/

namespace Safrn.Stats

open Safrn.Base
open RegressionInfo (Opens Shared)

/-- The numbers that `readCSV` takes from a line of the file, with the intercept that
`setupRegression` inserts. -/
structure Record where
  keys : List Nat
  payloads : List Nat
  deriving Inhabited

/-- The observation that `readCSV` makes of a line. -/
def readCsvRow (vertical : Nat) (record : Record) : Observation where
  keyCols := record.keys ++ [vertical]
  arithmeticPayloadCols := record.payloads
  xorPayloadCols := []

namespace Regression

/-- The data owners of a regression over two verticals, with the lines that each has read, its
draws, and the order in which its reductions complete. -/
structure Query (r : Regression) where
  dataowners : List Identity
  records : Identity → List Record
  draws : Identity → Draws r.listInfo r.keyModulus
  completions : Identity → List Identity
  verticalNonDv : Nat
  numJoinOns : Nat
  nodup : dataowners.Nodup
  completions_perm : ∀ self, (completions self).Perm (crossParties dataowners self)
  verticals_ne : verticalNonDv ≠ r.verticalDv
  vertical_eq : ∀ self ∈ dataowners, self.vertical = r.verticalDv ∨ self.vertical = verticalNonDv
  numJoinOns_pos : 0 < numJoinOns
  keys_length : ∀ self ∈ dataowners, ∀ record ∈ records self, record.keys.length = numJoinOns
  payloads_length : ∀ self ∈ dataowners, ∀ record ∈ records self, record.payloads.length =
    if self.vertical = r.verticalDv then r.info.verticalDvNumIvs + 1
    else r.info.verticalNonDvNumIvs

namespace Query

variable {r : Regression} (q : r.Query)

/-- The observations of one data owner. -/
def rows (self : Identity) : List Observation := (q.records self).map (readCsvRow self.vertical)

section

variable (modMul : Nat → Nat → Nat → Nat)

/-- `ownList` of one data owner after `computePayloadVectorAndPadList`. -/
def ownList (self : Identity) : List Observation :=
  (r.computePayloadVectorAndPadList modMul (q.draws self) self.vertical (q.rows self)).getD []

/-- The row of the list that `p`, of the vertical of the dependent variable, and `o` sort: those
of `o` stand in its second half. -/
def combinedRow (p o : Identity) (i : Fin (2 * r.maxListSize)) : Observation :=
  if i.val < r.maxListSize then (q.ownList modMul p).getD i.val default
  else (q.ownList modMul o).getD (i.val - r.maxListSize) default

end

/-- The keys of a row of the padded list. -/
def paddedKeys (self : Identity) (j : Nat) : List Nat :=
  ((padList r.listInfo (q.draws self) (q.rows self)).getD j default).keyCols

/-- The keys of a row of the combined list. -/
def combinedKeys (p o : Identity) (i : Fin (2 * r.maxListSize)) : List Nat :=
  if i.val < r.maxListSize then q.paddedKeys p i.val
  else q.paddedKeys o (i.val - r.maxListSize)

/-- The first key column, as it is shared. -/
def firstKey (p o : Identity) (i : Fin (2 * r.maxListSize)) : Nat :=
  (q.combinedKeys p o i).getD 0 0 % r.keyModulus

/-- The second key column, as it is shared. -/
def secondKey (p o : Identity) (i : Fin (2 * r.maxListSize)) : Nat :=
  (q.combinedKeys p o i).getD 1 0 % r.keyModulus

/-- Two rows match when their first keys are equal and their second keys, the flags of the
verticals, grow. -/
def Matching (p o : Identity) : Fin (2 * r.maxListSize) → Fin (2 * r.maxListSize) → Prop :=
  Ascends (q.firstKey p o) (q.secondKey p o)

instance (p o : Identity) (i j : Fin (2 * r.maxListSize)) : Decidable (q.Matching p o i j) :=
  inferInstanceAs (Decidable (_ ∧ _))

/-- A row of the vertical of the dependent variable. -/
def IsDvRow (i : Fin (2 * r.maxListSize)) : Prop := i.val < r.maxListSize

/-- A row of the other vertical. -/
def IsNonDvRow (i : Fin (2 * r.maxListSize)) : Prop := r.maxListSize ≤ i.val

instance (i : Fin (2 * r.maxListSize)) : Decidable (IsDvRow i) :=
  inferInstanceAs (Decidable (i.val < r.maxListSize))

instance (i : Fin (2 * r.maxListSize)) : Decidable (IsNonDvRow i) :=
  inferInstanceAs (Decidable (r.maxListSize ≤ i.val))

/-- The pairs of data owners that sort their lists together. -/
structure CrossPair (p o : Identity) : Prop where
  dv : p ∈ q.dataowners
  nonDv : o ∈ q.dataowners
  dv_vertical : p.vertical = r.verticalDv
  nonDv_vertical : o.vertical ≠ r.verticalDv

/-- Whenever two rows of the lists of two data owners agree in the first key column, the row with
the smaller second key column is one of the other vertical, and the one with the greater is one of
the vertical of the dependent variable. -/
def Aligned : Prop :=
  ∀ p o, q.CrossPair p o → ∀ i j, q.Matching p o i j → IsNonDvRow i ∧ IsDvRow j

/-! ## A run of the sort and of the comparisons -/

variable (modMul : Nat → Nat → Nat → Nat)

/-- The payload that `ZipAdjacent` passes on: zeros unless the rows match. -/
def passed (p o : Identity) (i j row : Fin (2 * r.maxListSize)) : List Nat :=
  if q.Matching p o i j then (q.combinedRow modMul p o row).arithmeticPayloadCols
  else List.replicate r.info.payloadLength 0

/-- What the sort, the comparisons and the multiplications of two data owners compute: the order of
the combined list, the shares of the payloads of each row and its successor, where `false` is the
data owner of the dependent variable, and the shares of the products. -/
structure Run where
  order : Identity → Identity → Equiv.Perm (Fin (2 * r.maxListSize))
  zipped : Identity → Identity → Nat → Bool → List Nat × List Nat
  multiply : Identity → Identity → Nat → Nat → (Bool → Nat) → (Bool → Nat) → Bool → Nat
  sorted : ∀ p o, Monotone (lexKey (q.firstKey p o) (q.secondKey p o) ∘ order p o)
  zipped_shared : ∀ p o, q.CrossPair p o → ∀ t i j (h : t + 1 < 2 * r.maxListSize),
    order p o ⟨t, Nat.lt_of_succ_lt h⟩ = i → order p o ⟨t + 1, h⟩ = j →
      Shared r.info.startModulus (fun b ↦ (zipped p o t b).1) (q.passed modMul p o i j i) ∧
        Shared r.info.startModulus (fun b ↦ (zipped p o t b).2) (q.passed modMul p o i j j)
  multiply_opens : ∀ p o t slot x y, Opens r.info.startModulus (multiply p o t slot x y)
    ((x false + x true) * (y false + y true))

variable {q modMul}

/-- The first observation of every matching pair is one of the other vertical, the second one of
the vertical of the dependent variable. -/
def Run.Oriented (run : q.Run modMul) : Prop :=
  ∀ p o, q.CrossPair p o → ∀ i j, Adjacent (run.order p o) i j → q.Matching p o i j →
    IsNonDvRow i ∧ IsDvRow j

/-- All payloads with one party. -/
private def wholeShares (cols : List Nat) (b : Bool) : List Nat :=
  bif b then List.replicate cols.length 0 else cols

private theorem shared_wholeShares (m : Nat) (cols : List Nat) :
    Shared m (wholeShares cols) cols := by
  constructor
  · intro b
    cases b
    · rfl
    · exact List.length_replicate
  · intro k hk
    have hzero : (wholeShares cols true).getD k 0 = 0 := by
      simp [wholeShares, List.getD_eq_getElem?_getD, hk]
    show (wholeShares cols false).getD k 0 + (wholeShares cols true).getD k 0 ≡ _ [MOD m]
    rw [hzero]
    exact Nat.ModEq.refl _

/-- Every sorted order of a combined list is that of some run. -/
private theorem exists_run (q : r.Query) (modMul : Nat → Nat → Nat → Nat) {p o : Identity}
    {σ : Equiv.Perm (Fin (2 * r.maxListSize))}
    (hσ : Monotone (lexKey (q.firstKey p o) (q.secondKey p o) ∘ σ)) :
    ∃ run : q.Run modMul, run.order p o = σ := by
  let order (p' o' : Identity) : Equiv.Perm (Fin (2 * r.maxListSize)) :=
    if p' = p ∧ o' = o then σ else Tuple.sort (lexKey (q.firstKey p' o') (q.secondKey p' o'))
  let rowAt (p' o' : Identity) (t : Nat) : List Nat × List Nat :=
    if h : t + 1 < 2 * r.maxListSize then
      let i := order p' o' ⟨t, Nat.lt_of_succ_lt h⟩
      let j := order p' o' ⟨t + 1, h⟩
      (q.passed modMul p' o' i j i, q.passed modMul p' o' i j j)
    else ([], [])
  refine ⟨{
    order
    zipped := fun p' o' t b ↦ (wholeShares (rowAt p' o' t).1 b, wholeShares (rowAt p' o' t).2 b)
    multiply := fun _ _ _ _ x y b ↦ bif b then 0 else (x false + x true) * (y false + y true)
    sorted := ?_
    zipped_shared := ?_
    multiply_opens := fun _ _ _ _ _ _ ↦ Nat.ModEq.refl _ }, if_pos ⟨rfl, rfl⟩⟩
  · intro p' o'
    by_cases heq : p' = p ∧ o' = o
    · obtain ⟨rfl, rfl⟩ := heq
      simp only [order, and_self, ↓reduceIte]
      exact hσ
    · simp only [order, if_neg heq]
      exact Tuple.monotone_sort _
  · rintro p' o' - t i j h rfl rfl
    simp only [rowAt, dif_pos h]
    exact ⟨shared_wholeShares _ _, shared_wholeShares _ _⟩

/-- Whatever sorted order the sort produces, all matching pairs are in the order that
`RegressionPayloadCompute` takes them in, if and only if the lists are aligned. -/
theorem forall_oriented_iff (q : r.Query) (modMul : Nat → Nat → Nat → Nat) :
    (∀ run : q.Run modMul, run.Oriented) ↔ q.Aligned := by
  have hdisjoint : ∀ i : Fin (2 * r.maxListSize), IsNonDvRow i → ¬ IsDvRow i :=
    fun i h ↦ Nat.not_lt_of_le h
  constructor
  · intro h p o hpair
    apply (forall_adjacent_iff hdisjoint).mp
    intro σ hσ i j hadj hmatching
    obtain ⟨run, rfl⟩ := exists_run q modMul hσ
    exact h run p o hpair i j hadj hmatching
  · intro h run p o hpair i j _ hmatching
    exact h p o hpair i j hmatching

end Query
end Regression
end Safrn.Stats

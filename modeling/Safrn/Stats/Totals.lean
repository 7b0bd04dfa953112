import Mathlib.Algebra.BigOperators.ModEq
import Safrn.Stats.Joined

/-!
# The Gram data of the joined rows

Every party adds up its shares of the outputs of `RegressionPayloadCompute` over the rows of the
list and over the parties of the other vertical (`awaitingZipReduce`,
`dataowner/Regression.cpp:608-660`). When matching pairs are in the order that
`RegressionPayloadCompute` takes them in, the totals of all parties open to the sums of products
over the rows that the query joins.
-/

namespace Safrn.Stats

open Safrn.Base
open RegressionInfo (Opens Shared)

namespace Regression

/-- The number of sums. -/
def numEntries (r : Regression) : Nat :=
  r.info.numIvs * r.info.numIvs + r.info.numIvs + 3

namespace Query

variable {r : Regression} {q : r.Query} {modMul : Nat → Nat → Nat → Nat}

namespace Run

variable (run : q.Run modMul)

/-- `RegressionPayloadCompute` of two data owners for row `t` of their list and its successor. -/
def payloadCompute (p o : Identity) (t : Nat) : Option (Bool → Output) :=
  r.info.payloadCompute (run.multiply p o t) (fun b ↦ (run.zipped p o t b).1)
    (fun b ↦ (run.zipped p o t b).2)

/-- `payloadShares.elements[t]` of one data owner. -/
def element (self other : Identity) (t : Nat) : Option Output :=
  if self.vertical = r.verticalDv then (run.payloadCompute self other t).map fun out ↦ out false
  else (run.payloadCompute other self t).map fun out ↦ out true

/-- The stage `awaitingZipReduce` for the reduction with `other`. -/
def awaitingZipReduce (self : Identity) (vector : List Nat) (other : Identity) :
    Option (List Nat) :=
  forRangeM (fun vector i ↦ do
    let element ← run.element self other i
    forRangeM (fun vector j ↦ do
      let value ← vector[j]?
      let share ← element.cols[j]?
      some (vector.set j ((value + share) % r.info.startModulus))) r.numEntries vector)
    (r.maxListSize * 2 - 1) vector

/-- `startModulusPayloadVector` of one data owner when its last reduction has completed. -/
def startModulusPayloadVector (self : Identity) : Option (List Nat) :=
  ((q.completions self).foldlM (run.awaitingZipReduce self)
    (List.replicate r.numEntries 0)).map fun vector ↦
      vector.map fun value ↦ value % r.info.startModulus

end Run

/-! ## The Gram data -/

variable (q) in
/-- The products of the variables of line `a` of `o` and line `b` of `p`. -/
def rowEntry (p o : Identity) (a b slot : Nat) : Nat :=
  let u := ((q.records o).getD a default).payloads
  let v := ((q.records p).getD b default).payloads
  r.info.productEntry (r.info.independent u v) (v.getD r.info.verticalDvNumIvs 0) 1 slot

variable (q) in
/-- The sum of the products over the joined lines of two data owners. -/
def pairGram (p o : Identity) (slot : Nat) : Nat :=
  ∑ a ∈ Finset.range r.maxListSize, ∑ b ∈ Finset.range r.maxListSize,
    if q.Joined p o a b then q.rowEntry p o a b slot else 0

variable (q) in
/-- The sum of the products over all joined lines. -/
def joinedGram (slot : Nat) : Nat :=
  ((q.dataowners.filter fun p ↦ p.vertical = r.verticalDv).map fun p ↦
    ((crossParties q.dataowners p).map fun o ↦ q.pairGram p o slot).sum).sum

/-- The totals of all data owners add up to the Gram data of the joined rows. -/
def Run.SumsGram (run : q.Run modMul) : Prop :=
  ∃ vectors : Identity → List Nat,
    (∀ self ∈ q.dataowners, run.startModulusPayloadVector self = some (vectors self)) ∧
      ∀ slot < r.numEntries, (q.dataowners.map fun self ↦ (vectors self).getD slot 0).sum ≡
        q.joinedGram slot [MOD r.info.startModulus]

/-! ## Adding up shares -/

/-- The vector holds these values. -/
private def Holds (m n : Nat) (vector : List Nat) (value : Nat → Nat) : Prop :=
  vector.length = n ∧ ∀ j < n, vector.getD j 0 ≡ value j [MOD m]

private theorem addShares_holds {m n : Nat} {vector cols : List Nat} {value share : Nat → Nat}
    (h : Holds m n vector value) (hcols : ∀ j < n, cols[j]? = some (share j)) :
    ∃ vector', forRangeM (fun vector j ↦ do
        let value ← vector[j]?
        let share ← cols[j]?
        some (vector.set j ((value + share) % m))) n vector = some vector' ∧
      Holds m n vector' fun j ↦ value j + share j := by
  have hloop : ∃ vector', forRangeM (fun (vector : List Nat) j ↦ do
        let value ← vector[j]?
        let share ← cols[j]?
        some (vector.set j ((value + share) % m))) n vector = some vector' ∧
      Holds m n vector' fun j ↦ value j + if j < n then share j else 0 := by
    apply forRangeM_invariant fun k vector' ↦
      Holds m n vector' fun j ↦ value j + if j < k then share j else 0
    · simpa using h
    · rintro k hk vector' ⟨hlen, hvalue⟩
      have hlt : k < vector'.length := by omega
      have hget : vector'[k]? = some (vector'.getD k 0) := by simp [hlt]
      refine ⟨vector'.set k ((vector'.getD k 0 + share k) % m), ?_, ?_, ?_⟩
      · rw [hget, hcols k hk]
        rfl
      · rw [List.length_set, hlen]
      · intro j hj
        have hj' : vector'.getD j 0 ≡ value j + (if j < k then share j else 0) [MOD m] :=
          hvalue j hj
        beta_reduce
        by_cases hjk : j = k
        · subst hjk
          have hset : (vector'.set j ((vector'.getD j 0 + share j) % m)).getD j 0 =
              (vector'.getD j 0 + share j) % m := by
            rw [List.getD_eq_getElem?_getD, List.getElem?_set_self hlt, Option.getD_some]
          rw [if_neg (Nat.lt_irrefl j), Nat.add_zero] at hj'
          rw [hset, if_pos (Nat.lt_succ_self j)]
          exact (Nat.mod_modEq _ _).trans (hj'.add_right _)
        · have hset : (vector'.set k ((vector'.getD k 0 + share k) % m)).getD j 0 =
              vector'.getD j 0 := by
            rw [List.getD_eq_getElem?_getD, List.getElem?_set_ne (Ne.symm hjk),
              List.getD_eq_getElem?_getD]
          have hiff : j < k + 1 ↔ j < k := by omega
          simp only [hset, hiff]
          exact hj'
  obtain ⟨vector', hrun, hlen, hvalue⟩ := hloop
  refine ⟨vector', hrun, hlen, ?_⟩
  intro j hj
  have hj' : vector'.getD j 0 ≡ value j + (if j < n then share j else 0) [MOD m] := hvalue j hj
  rwa [if_pos hj] at hj'

/-- One reduction adds the shares of all rows. -/
private theorem awaitingZipReduce_holds {run : q.Run modMul} {self other : Identity}
    {vector : List Nat} {value : Nat → Nat} {share : Nat → Nat → Nat}
    (h : Holds r.info.startModulus r.numEntries vector value)
    (helement : ∀ t < r.maxListSize * 2 - 1, ∃ element, run.element self other t = some element ∧
      ∀ j < r.numEntries, element.cols[j]? = some (share t j)) :
    ∃ vector', run.awaitingZipReduce self vector other = some vector' ∧
      Holds r.info.startModulus r.numEntries vector' fun j ↦
        value j + ∑ t ∈ Finset.range (r.maxListSize * 2 - 1), share t j := by
  apply forRangeM_invariant fun k vector' ↦
    Holds r.info.startModulus r.numEntries vector' fun j ↦
      value j + ∑ t ∈ Finset.range k, share t j
  · simpa using h
  · intro k hk vector' hvector'
    obtain ⟨element, hrun, hcols⟩ := helement k hk
    obtain ⟨vector'', hrun', hholds⟩ := addShares_holds hvector' hcols
    refine ⟨vector'', ?_, ?_⟩
    · rw [hrun, Option.bind_eq_bind, Option.bind_some, hrun']
    · simpa only [Finset.sum_range_succ, Nat.add_assoc] using hholds

/-- The reductions add the shares of all parties, in whatever order they complete. -/
private theorem foldlM_awaitingZipReduce {run : q.Run modMul} {self : Identity}
    (share : Identity → Nat → Nat → Nat) (others : List Identity) {vector : List Nat}
    {value : Nat → Nat} (h : Holds r.info.startModulus r.numEntries vector value)
    (helement : ∀ other ∈ others, ∀ t < r.maxListSize * 2 - 1,
      ∃ element, run.element self other t = some element ∧
        ∀ j < r.numEntries, element.cols[j]? = some (share other t j)) :
    ∃ vector', others.foldlM (run.awaitingZipReduce self) vector = some vector' ∧
      Holds r.info.startModulus r.numEntries vector' fun j ↦ value j +
        (others.map fun other ↦
          ∑ t ∈ Finset.range (r.maxListSize * 2 - 1), share other t j).sum := by
  induction others generalizing vector value with
  | nil => exact ⟨vector, rfl, by simpa using h⟩
  | cons other others ih =>
    obtain ⟨vector₁, hrun₁, h₁⟩ :=
      awaitingZipReduce_holds h (helement other List.mem_cons_self)
    obtain ⟨vector₂, hrun₂, h₂⟩ :=
      ih h₁ fun other hother ↦ helement other (List.mem_cons_of_mem _ hother)
    refine ⟨vector₂, ?_, ?_⟩
    · rw [List.foldlM_cons, hrun₁, Option.bind_eq_bind, Option.bind_some, hrun₂]
    · simpa only [List.map_cons, List.sum_cons, Nat.add_assoc] using h₂

/-! ## One pair of data owners -/

/-- The products that row `t` of the list and its successor contribute. -/
def Run.passedEntry (run : q.Run modMul) (p o : Identity) (t slot : Nat) : Nat :=
  if h : t + 1 < 2 * r.maxListSize then
    let i := run.order p o ⟨t, Nat.lt_of_succ_lt h⟩
    let j := run.order p o ⟨t + 1, h⟩
    if q.Matching p o i j then q.rowEntry p o (i.val - r.maxListSize) j.val slot else 0
  else 0

variable (modMul) in
/-- The payload of a line in the combined list. -/
private theorem combinedRow_payload {p o : Identity} (hpair : q.CrossPair p o)
    {i j : Fin (2 * r.maxListSize)} (hi : IsNonDvRow i) (hj : IsDvRow j) {u v : Record}
    (hu : (q.records o)[i.val - r.maxListSize]? = some u)
    (hv : (q.records p)[j.val]? = some v) :
    (q.combinedRow modMul p o i).arithmeticPayloadCols = payloadVector (r := r) modMul o u ∧
      (q.combinedRow modMul p o j).arithmeticPayloadCols =
        payloadVector (r := r) modMul p v := by
  have hlt := i.isLt
  have hi' : ¬ i.val < r.maxListSize := Nat.not_lt_of_le hi
  have hj' : j.val < r.maxListSize := hj
  constructor
  · rw [combinedRow, if_neg hi', ownList_record hpair.nonDv (by omega) hu]
    rfl
  · rw [combinedRow, if_pos hj', ownList_record hpair.dv hj' hv]
    rfl

/-- What `ZipAdjacent` passes on has the columns of one observation, or of zeros. -/
private theorem payloadCompute_passed
    (hmod : ∀ x y, modMul x y r.info.startModulus ≡ x * y [MOD r.info.startModulus])
    (h : q.WellPosed) (haligned : q.Aligned) (run : q.Run modMul) {p o : Identity}
    (hpair : q.CrossPair p o) {t : Nat} (ht : t < r.maxListSize * 2 - 1) :
    ∃ out, run.payloadCompute p o t = some out ∧ ∀ slot < r.numEntries,
      ∃ share : Bool → Nat, (∀ b, (out b).cols[slot]? = some (share b)) ∧
        Opens r.info.startModulus share (run.passedEntry p o t slot) := by
  have hlt : t + 1 < 2 * r.maxListSize := by omega
  generalize hi : run.order p o ⟨t, Nat.lt_of_succ_lt hlt⟩ = i
  generalize hj : run.order p o ⟨t + 1, hlt⟩ = j
  obtain ⟨h₁, h₂⟩ := run.zipped_shared p o hpair t i j hlt hi hj
  simp only [Run.passedEntry, dif_pos hlt, hi, hj]
  unfold passed at h₁ h₂
  split at h₁
  · next hmatching =>
    rw [if_pos hmatching] at h₂
    obtain ⟨hnonDv, hdv, u, hu, v, hv, -⟩ := h.joined_of_matching haligned hpair hmatching
    have hulen := q.payloads_length o hpair.nonDv u (List.mem_of_getElem? hu)
    have hvlen := q.payloads_length p hpair.dv v (List.mem_of_getElem? hv)
    rw [if_neg hpair.nonDv_vertical] at hulen
    rw [if_pos hpair.dv_vertical] at hvlen
    obtain ⟨hpayloadU, hpayloadV⟩ := combinedRow_payload modMul hpair hnonDv hdv hu hv
    rw [hpayloadU, payloadVector, if_neg hpair.nonDv_vertical] at h₁
    rw [hpayloadV, payloadVector, if_pos hpair.dv_vertical] at h₂
    obtain ⟨out, _, _, _, _, _, hrun, hopens⟩ := RegressionInfo.payloadCompute_columns
      (run.multiply_opens p o t) (RegressionInfo.columns_layout _ _ hmod hulen hvlen) h₁ h₂
    refine ⟨out, hrun, fun slot hslot ↦ ?_⟩
    have hu' : (q.records o).getD (i.val - r.maxListSize) default = u := by
      rw [List.getD_eq_getElem?_getD, hu, Option.getD_some]
    have hv' : (q.records p).getD j.val default = v := by
      rw [List.getD_eq_getElem?_getD, hv, Option.getD_some]
    rw [if_pos hmatching, rowEntry, hu', hv']
    exact hopens.slot hslot
  · next hmatching =>
    rw [if_neg hmatching] at h₂
    obtain ⟨out, _, _, _, _, _, hrun, hopens⟩ := RegressionInfo.payloadCompute_columns
      (run.multiply_opens p o t) (RegressionInfo.columns_zeros r.info) h₁ h₂
    refine ⟨out, hrun, fun slot hslot ↦ ?_⟩
    rw [if_neg hmatching, ← RegressionInfo.productEntry_zero r.info slot]
    exact hopens.slot hslot

/-- Row `t` of the list is line `a` of the other vertical, and its successor is line `b`. -/
private def At (run : q.Run modMul) (p o : Identity) (t : Nat) (pair : Nat × Nat) : Prop :=
  ∃ h : t + 1 < 2 * r.maxListSize,
    (run.order p o ⟨t, Nat.lt_of_succ_lt h⟩).val = r.maxListSize + pair.1 ∧
      (run.order p o ⟨t + 1, h⟩).val = pair.2

/-- The lines at a joined pair of positions. -/
private theorem at_unique {run : q.Run modMul} {p o : Identity} {t t' : Nat}
    {pair : Nat × Nat} (h : At run p o t pair) (h' : At run p o t' pair) : t = t' := by
  obtain ⟨hlt, hi, -⟩ := h
  obtain ⟨hlt', hi', -⟩ := h'
  have heq := (run.order p o).injective (Fin.ext (hi.trans hi'.symm))
  exact congrArg Fin.val heq

/-- Joined lines are neighbours in the sorted list. -/
private theorem exists_at (h : q.WellPosed) (haligned : q.Aligned) (run : q.Run modMul)
    {p o : Identity} (hpair : q.CrossPair p o) {a b : Nat} (ha : a < r.maxListSize)
    (hb : b < r.maxListSize) (hjoined : q.Joined p o a b) : ∃ t, At run p o t (a, b) := by
  let i : Fin (2 * r.maxListSize) := ⟨r.maxListSize + a, by omega⟩
  let j : Fin (2 * r.maxListSize) := ⟨b, by omega⟩
  have hi : IsNonDvRow i := Nat.le_add_right _ _
  have hj : IsDvRow j := hb
  have hsub : i.val - r.maxListSize = a := Nat.add_sub_cancel_left _ _
  have hmatching : q.Matching p o i j :=
    h.matching_of_joined haligned hpair hi hj (by rwa [hsub])
  have hadj : Adjacent (run.order p o) i j := by
    apply adjacent_of_between (run.sorted p o) (Ascends.lexKey_lt hmatching)
    intro c hic hcj
    obtain ⟨hkey, -, -⟩ := Ascends.between hmatching hic hcj
    by_contra hne
    rw [not_or] at hne
    -- a third row with this key would stand on both sides
    rcases h.joined_of_firstKey hpair (Ne.symm hne.1) hkey.symm with ⟨-, hc, -⟩ | ⟨hi', -, -⟩
    · rcases h.joined_of_firstKey hpair hne.2 (hkey.trans hmatching.1) with ⟨hc', -, -⟩ | ⟨-, hj', -⟩
      · exact absurd hc (Nat.not_lt_of_le hc')
      · exact absurd hj (Nat.not_lt_of_le hj')
    · exact absurd hi' (Nat.not_lt_of_le hi)
  obtain ⟨t, ht, hti, htj⟩ := hadj
  exact ⟨t, ht, by rw [hti], by rw [htj]⟩

open Classical in
/-- What one position contributes, as a sum over all pairs of lines. -/
private theorem passedEntry_eq (h : q.WellPosed) (haligned : q.Aligned) (run : q.Run modMul)
    {p o : Identity} (hpair : q.CrossPair p o) {t : Nat} (ht : t < r.maxListSize * 2 - 1)
    (slot : Nat) :
    run.passedEntry p o t slot =
      ∑ pair ∈ Finset.range r.maxListSize ×ˢ Finset.range r.maxListSize,
        if At run p o t pair ∧ q.Joined p o pair.1 pair.2 then
          q.rowEntry p o pair.1 pair.2 slot else 0 := by
  have hlt : t + 1 < 2 * r.maxListSize := by omega
  unfold Run.passedEntry
  rw [dif_pos hlt]
  generalize hi : run.order p o ⟨t, Nat.lt_of_succ_lt hlt⟩ = i
  generalize hj : run.order p o ⟨t + 1, hlt⟩ = j
  have hat : ∀ pair, At run p o t pair ↔ i.val = r.maxListSize + pair.1 ∧ j.val = pair.2 := by
    intro pair
    rw [← hi, ← hj]
    exact ⟨fun ⟨_, h⟩ ↦ h, fun h ↦ ⟨hlt, h⟩⟩
  dsimp only
  split
  · next hmatching =>
    obtain ⟨hnonDv, hdv, hjoined⟩ := h.joined_of_matching haligned hpair hmatching
    have hnonDv' : r.maxListSize ≤ i.val := hnonDv
    have hdv' : j.val < r.maxListSize := hdv
    have hilt := i.isLt
    rw [Finset.sum_eq_single (i.val - r.maxListSize, j.val)]
    · rw [if_pos ⟨(hat _).mpr ⟨by omega, rfl⟩, hjoined⟩]
    · rintro ⟨a, b⟩ - hab
      apply if_neg
      rintro ⟨hab', -⟩
      obtain ⟨ha, hb⟩ := (hat _).mp hab'
      apply hab
      rw [Prod.mk.injEq]
      exact ⟨by omega, hb.symm⟩
    · intro hmem
      exact absurd (Finset.mem_product.mpr
        ⟨Finset.mem_range.mpr (by omega), Finset.mem_range.mpr hdv'⟩) hmem
  · next hmatching =>
    symm
    apply Finset.sum_eq_zero
    rintro ⟨a, b⟩ hab
    obtain ⟨ha, hb⟩ := Finset.mem_product.mp hab
    apply if_neg
    rintro ⟨hab', hjoined⟩
    obtain ⟨hia, hjb⟩ := (hat _).mp hab'
    have hnonDv : IsNonDvRow i := by
      show r.maxListSize ≤ i.val
      omega
    have hdv : IsDvRow j := by
      show j.val < r.maxListSize
      rw [hjb]
      exact Finset.mem_range.mp hb
    apply hmatching
    apply h.matching_of_joined haligned hpair hnonDv hdv
    rwa [hia, hjb, Nat.add_sub_cancel_left]

/-- All positions of the list together contribute the products of the joined lines. -/
private theorem sum_passedEntry (h : q.WellPosed) (haligned : q.Aligned) (run : q.Run modMul)
    {p o : Identity} (hpair : q.CrossPair p o) (slot : Nat) :
    ∑ t ∈ Finset.range (r.maxListSize * 2 - 1), run.passedEntry p o t slot =
      q.pairGram p o slot := by
  have hgram : q.pairGram p o slot =
      ∑ pair ∈ Finset.range r.maxListSize ×ˢ Finset.range r.maxListSize,
        if q.Joined p o pair.1 pair.2 then q.rowEntry p o pair.1 pair.2 slot else 0 := by
    rw [Finset.sum_product]
    rfl
  classical
  rw [Finset.sum_congr rfl fun t ht ↦
    passedEntry_eq h haligned run hpair (Finset.mem_range.mp ht) slot, Finset.sum_comm, hgram]
  apply Finset.sum_congr rfl
  rintro ⟨a, b⟩ hab
  obtain ⟨ha, hb⟩ := Finset.mem_product.mp hab
  dsimp only
  split
  · next hjoined =>
    obtain ⟨t, ht⟩ := exists_at h haligned run hpair (Finset.mem_range.mp ha)
      (Finset.mem_range.mp hb) hjoined
    rw [Finset.sum_eq_single t]
    · rw [if_pos ⟨ht, hjoined⟩]
    · rintro t' - hne
      apply if_neg
      rintro ⟨ht', -⟩
      exact hne (at_unique ht' ht)
    · intro hmem
      obtain ⟨hlt, -⟩ := ht
      exact absurd (Finset.mem_range.mpr (by omega)) hmem
  · next hjoined =>
    apply Finset.sum_eq_zero
    intro t _
    exact if_neg fun hat ↦ hjoined hat.2

/-! ## All data owners -/

/-- The share of one data owner in the output for row `t` of the list that it has sorted with
another. -/
private def partyShare (run : q.Run modMul) (self other : Identity) (t slot : Nat) : Nat :=
  ((run.element self other t).map fun out ↦ out.cols.getD slot 0).getD 0

/-- The shares of both data owners of a pair open to what the position contributes. -/
private theorem partyShare_opens
    (hmod : ∀ x y, modMul x y r.info.startModulus ≡ x * y [MOD r.info.startModulus])
    (h : q.WellPosed) (haligned : q.Aligned) (run : q.Run modMul) {p o : Identity}
    (hpair : q.CrossPair p o) {t : Nat} (ht : t < r.maxListSize * 2 - 1) :
    (∃ element, run.element p o t = some element ∧
      ∀ slot < r.numEntries, element.cols[slot]? = some (partyShare run p o t slot)) ∧
    (∃ element, run.element o p t = some element ∧
      ∀ slot < r.numEntries, element.cols[slot]? = some (partyShare run o p t slot)) ∧
    ∀ slot < r.numEntries, partyShare run p o t slot + partyShare run o p t slot ≡
      run.passedEntry p o t slot [MOD r.info.startModulus] := by
  obtain ⟨out, hrun, hshares⟩ := payloadCompute_passed hmod h haligned run hpair ht
  have hp : run.element p o t = some (out false) := by
    rw [Run.element, if_pos hpair.dv_vertical, hrun, Option.map_some]
  have ho : run.element o p t = some (out true) := by
    rw [Run.element, if_neg hpair.nonDv_vertical, hrun, Option.map_some]
  have hget : ∀ {self other : Identity} {b : Bool}, run.element self other t = some (out b) →
      ∀ slot < r.numEntries, (out b).cols[slot]? = some (partyShare run self other t slot) := by
    intro self other b helement slot hslot
    obtain ⟨share, hshare, -⟩ := hshares slot hslot
    rw [partyShare, helement, Option.map_some, Option.getD_some, List.getD_eq_getElem?_getD,
      hshare b, Option.getD_some]
  refine ⟨⟨_, hp, hget hp⟩, ⟨_, ho, hget ho⟩, ?_⟩
  intro slot hslot
  obtain ⟨share, hshare, hopens⟩ := hshares slot hslot
  have hfalse := (hshare false).symm.trans (hget hp slot hslot)
  have htrue := (hshare true).symm.trans (hget ho slot hslot)
  rw [← Option.some.inj hfalse, ← Option.some.inj htrue]
  exact hopens

/-- Aligned and well-posed lists: the totals open to the Gram data. -/
theorem sumsGram_of_aligned
    (hmod : ∀ x y, modMul x y r.info.startModulus ≡ x * y [MOD r.info.startModulus])
    (h : q.WellPosed) (haligned : q.Aligned) (run : q.Run modMul) : run.SumsGram := by
  have hsides : ∀ {self other : Identity}, self ∈ q.dataowners →
      other ∈ crossParties q.dataowners self → q.CrossPair self other ∨ q.CrossPair other self := by
    intro self other hself hother
    obtain ⟨hmem, hne⟩ := mem_crossParties.mp hother
    rcases q.vertical_eq self hself with hs | hs
    · exact .inl ⟨hself, hmem, hs, fun ho ↦ hne (ho.trans hs.symm)⟩
    · rcases q.vertical_eq other hmem with ho | ho
      · exact .inr ⟨hmem, hself, ho, fun hs' ↦ hne (ho.trans hs'.symm)⟩
      · exact absurd (ho.trans hs.symm) hne
  have hvector : ∀ self ∈ q.dataowners, ∃ vector,
      run.startModulusPayloadVector self = some vector ∧ ∀ slot < r.numEntries,
        vector.getD slot 0 ≡ ((crossParties q.dataowners self).map fun other ↦
          ∑ t ∈ Finset.range (r.maxListSize * 2 - 1), partyShare run self other t slot).sum
            [MOD r.info.startModulus] := by
    intro self hself
    have hstart : Holds r.info.startModulus r.numEntries (List.replicate r.numEntries 0)
        fun _ ↦ 0 := by
      refine ⟨List.length_replicate, fun j hj ↦ ?_⟩
      simp [List.getD_eq_getElem?_getD, hj, Nat.ModEq.refl]
    have helement : ∀ other ∈ q.completions self, ∀ t < r.maxListSize * 2 - 1,
        ∃ element, run.element self other t = some element ∧
          ∀ slot < r.numEntries, element.cols[slot]? = some (partyShare run self other t slot) := by
      intro other hother t ht
      have hmem := (q.completions_perm self).mem_iff.mp hother
      rcases hsides hself hmem with hpair | hpair
      · exact (partyShare_opens hmod h haligned run hpair ht).1
      · exact (partyShare_opens hmod h haligned run hpair ht).2.1
    obtain ⟨vector, hrun, hlen, hvalue⟩ :=
      foldlM_awaitingZipReduce (partyShare run self) (q.completions self) hstart helement
    refine ⟨vector.map fun value ↦ value % r.info.startModulus, ?_, ?_⟩
    · rw [Run.startModulusPayloadVector, hrun, Option.map_some]
    · intro slot hslot
      have hlt : slot < vector.length := by omega
      have hperm := ((q.completions_perm self).map fun other ↦
        ∑ t ∈ Finset.range (r.maxListSize * 2 - 1), partyShare run self other t slot).sum_eq
      have hget : (vector.map fun value ↦ value % r.info.startModulus).getD slot 0 =
          vector.getD slot 0 % r.info.startModulus := by
        simp [List.getD_eq_getElem?_getD, hlt]
      rw [hget, ← hperm]
      have hslotValue := hvalue slot hslot
      simp only [Nat.zero_add] at hslotValue
      exact (Nat.mod_modEq _ _).trans hslotValue
  choose! vectors hrun hvalue using hvector
  refine ⟨vectors, hrun, ?_⟩
  intro slot hslot
  calc (q.dataowners.map fun self ↦ (vectors self).getD slot 0).sum
      ≡ (q.dataowners.map fun self ↦ ((crossParties q.dataowners self).map fun other ↦
          ∑ t ∈ Finset.range (r.maxListSize * 2 - 1),
            partyShare run self other t slot).sum).sum [MOD r.info.startModulus] :=
        Nat.ModEq.listSum_map fun self hself ↦ hvalue self hself slot hslot
    _ = ((q.dataowners.filter fun p ↦ p.vertical = r.verticalDv).map fun p ↦
          ((crossParties q.dataowners p).map fun o ↦
            (∑ t ∈ Finset.range (r.maxListSize * 2 - 1), partyShare run p o t slot) +
              ∑ t ∈ Finset.range (r.maxListSize * 2 - 1),
                partyShare run o p t slot).sum).sum :=
        sum_crossParties q.nodup q.verticals_ne q.vertical_eq _
    _ ≡ q.joinedGram slot [MOD r.info.startModulus] := by
        apply Nat.ModEq.listSum_map
        intro p hp
        obtain ⟨hmem, hvertical⟩ := List.mem_filter.mp hp
        apply Nat.ModEq.listSum_map
        intro o ho
        obtain ⟨homem, hne⟩ := mem_crossParties.mp ho
        have hpv : p.vertical = r.verticalDv := of_decide_eq_true hvertical
        have hpair : q.CrossPair p o := ⟨hmem, homem, hpv, fun hov ↦ hne (hov.trans hpv.symm)⟩
        rw [← Finset.sum_add_distrib, ← sum_passedEntry h haligned run hpair]
        apply Nat.ModEq.sum
        intro t ht
        exact (partyShare_opens hmod h haligned run hpair (Finset.mem_range.mp ht)).2.2 slot hslot

/-- Every run passes on the row of the other vertical first and the row of the dependent variable's
vertical second, and sums the Gram data of well-posed lists, if and only if the lists are
aligned. -/
theorem passesInOrder_iff (r : Regression) (q : r.Query) (modMul : Nat → Nat → Nat → Nat)
    (hmod : ∀ x y, modMul x y r.info.startModulus ≡ x * y [MOD r.info.startModulus]) :
    (∀ run : q.Run modMul, run.Oriented ∧ (q.WellPosed → run.SumsGram)) ↔ q.Aligned := by
  constructor
  · intro h
    exact (forall_oriented_iff q modMul).mp fun run ↦ (h run).1
  · intro haligned run
    exact ⟨(forall_oriented_iff q modMul).mpr haligned run,
      fun h ↦ sumsGram_of_aligned hmod h haligned run⟩

/-- One independent variable on each side, and lists of one row. -/
def oneRow (verticalDv : Nat) : Regression := ⟨⟨1, 1, 7⟩, verticalDv, 11, 1, 0⟩

/-- All draws are 0; the lists are full, so that nothing is padded. -/
def oneRowDraws (verticalDv : Nat) :
    Draws (oneRow verticalDv).listInfo (oneRow verticalDv).keyModulus where
  padKey _ _ := 0
  key _ _ _ := 0
  arithmetic _ _ _ := 0
  xor _ _ _ := 0
  padKey_lt := fun _ _ ↦ by simp [listInfo, oneRow]
  key_lt := fun _ _ _ ↦ by simp [oneRow]
  arithmetic_lt := fun _ _ _ ↦ by simp [listInfo, oneRow]

/-- Two data owners, each with one line with the key 5. -/
def sameKey (verticalDv verticalNonDv : Nat) (hne : verticalNonDv ≠ verticalDv) :
    (oneRow verticalDv).Query where
  dataowners := [⟨0, verticalDv⟩, ⟨1, verticalNonDv⟩]
  records self := if self.vertical = verticalDv then [⟨[5], [2, 3]⟩] else [⟨[5], [4]⟩]
  draws _ := oneRowDraws verticalDv
  completions self := crossParties [⟨0, verticalDv⟩, ⟨1, verticalNonDv⟩] self
  verticalNonDv
  numJoinOns := 1
  nodup := by simp
  completions_perm _ := List.Perm.refl _
  verticals_ne := hne
  vertical_eq := by simp [oneRow]
  numJoinOns_pos := Nat.one_pos
  keys_length := by
    intro self _ record hrecord
    split at hrecord <;> simp_all
  payloads_length := by
    intro self _ record hrecord
    split at hrecord <;> simp_all [oneRow]

theorem passesInOrder_nonDvFirst :
    (sameKey 1 0 (by decide)).Aligned ∧
      ∀ run : (sameKey 1 0 (by decide)).Run (fun x y m ↦ x * y % m),
        run.Oriented ∧ ((sameKey 1 0 (by decide)).WellPosed → run.SumsGram) := by
  have haligned : (sameKey 1 0 (by decide)).Aligned := by
    rintro p o ⟨hp, ho, hpv, hov⟩ i j hmatching
    have hp' : p = ⟨0, 1⟩ ∨ p = ⟨1, 0⟩ := by simpa [sameKey] using hp
    have ho' : o = ⟨0, 1⟩ ∨ o = ⟨1, 0⟩ := by simpa [sameKey] using ho
    rcases hp' with rfl | rfl <;> rcases ho' with rfl | rfl
    · exact absurd rfl hov
    · revert i j
      decide
    · exact absurd rfl hov
    · exact absurd hpv (by decide)
  exact ⟨haligned, (passesInOrder_iff (oneRow 1) (sameKey 1 0 (by decide))
    (fun x y m ↦ x * y % m) (fun x y ↦ Nat.mod_modEq (x * y) 7)).mpr haligned⟩

/-- When the dependent variable's vertical has the index 0, its row comes first. -/
theorem passesInOrder_dvFirst :
    ¬ ∀ run : (sameKey 0 1 (by decide)).Run (fun x y m ↦ x * y % m),
      run.Oriented ∧ ((sameKey 0 1 (by decide)).WellPosed → run.SumsGram) := by
  intro h
  have haligned := (forall_oriented_iff (sameKey 0 1 (by decide)) fun x y m ↦ x * y % m).mp
    fun run ↦ (h run).1
  have hmatching : (sameKey 0 1 (by decide)).Matching ⟨0, 0⟩ ⟨1, 1⟩ ⟨0, by decide⟩
      ⟨1, by decide⟩ := by decide
  have hpair : (sameKey 0 1 (by decide)).CrossPair ⟨0, 0⟩ ⟨1, 1⟩ := by
    constructor <;> simp [sameKey, oneRow]
  obtain ⟨hfirst, -⟩ := haligned ⟨0, 0⟩ ⟨1, 1⟩ hpair _ _ hmatching
  exact absurd hfirst (by show ¬ 1 ≤ 0; decide)

end Query
end Regression
end Safrn.Stats

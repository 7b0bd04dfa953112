import Safrn.Stats.Orientation

/-!
# The rows that a regression joins

The rows of the padded lists are the lines that the data owners have read, with their payload
vectors, and padding. Where the lists are as the join assumes them, the rows with equal keys are
the lines that the query joins, one from each side, and their order in the sorted list is that of
the indices of the verticals.
-/

namespace Safrn.Stats

open Safrn.Base
namespace Regression.Query

variable {r : Regression} (q : r.Query) (modMul : Nat → Nat → Nat → Nat)

/-! ## The rows of the lists -/

/-- The payload vector of a line. -/
def payloadVector (self : Identity) (record : Record) : List Nat :=
  let cols := if self.vertical = r.verticalDv then layoutDv modMul r.info record.payloads
    else layoutNonDv modMul r.info record.payloads
  cols ++ List.replicate (r.info.payloadLength - cols.length) 0

/-- The row of the own list that a line becomes. -/
def recordRow (self : Identity) (record : Record) : Observation :=
  { readCsvRow self.vertical record with
    arithmeticPayloadCols := payloadVector (r := r) modMul self record }

variable {q} {modMul}

private theorem mapM_eq_map {α β : Type} {f : α → Option β} {g : α → β} {xs : List α}
    (h : ∀ x ∈ xs, f x = some (g x)) : xs.mapM f = some (xs.map g) := by
  induction xs with
  | nil => rfl
  | cons x xs ih =>
    have hrest := ih fun x hx ↦ h x (List.mem_cons_of_mem _ hx)
    simp [List.mapM_cons, h x List.mem_cons_self, hrest]

private theorem computePayloadVector_record {self : Identity} (hself : self ∈ q.dataowners)
    {record : Record} (hrecord : record ∈ q.records self) :
    r.computePayloadVector modMul self.vertical (readCsvRow self.vertical record) =
      some (recordRow (r := r) modMul self record) := by
  have hlen := q.payloads_length self hself record hrecord
  unfold computePayloadVector recordRow payloadVector
  split at hlen
  · next hv =>
    rw [if_pos hv, if_pos hv, readCsvRow, (computePayloadVectorDv_eq modMul hlen).2]
    rfl
  · next hv =>
    rw [if_neg hv, if_neg hv, readCsvRow, (computePayloadVectorNonDv_eq modMul hlen).2]
    rfl

theorem ownList_eq {self : Identity} (hself : self ∈ q.dataowners) :
    q.ownList modMul self = padList r.listInfo (q.draws self)
      ((q.records self).map (recordRow (r := r) modMul self)) := by
  have hrun : (q.rows self).mapM (r.computePayloadVector modMul self.vertical) =
      some ((q.records self).map (recordRow (r := r) modMul self)) := by
    rw [rows, List.mapM_map]
    apply mapM_eq_map
    intro record hrecord
    exact computePayloadVector_record hself hrecord
  rw [ownList, computePayloadVectorAndPadList, hrun]
  rfl

private theorem getD_padList {info : ListInfo} {keyMaskModulus : Nat}
    (draws : Draws info keyMaskModulus) (rows : List Observation) {j : Nat}
    (hj : j < info.maxListSize) :
    (padList info draws rows).getD j default =
      if h : j < rows.length then rows.get ⟨j, h⟩ else padRow info draws (j - rows.length) := by
  rw [padList, List.getD_eq_getElem?_getD]
  split
  · next h => simp [List.getElem?_append_left, h]
  · next h =>
    have hlt : j - rows.length < info.maxListSize - rows.length := by omega
    rw [List.getElem?_append_right (by omega)]
    simp [padding, hlt]

/-- The row of a line. -/
theorem ownList_record {self : Identity} (hself : self ∈ q.dataowners) {j : Nat}
    (hj : j < r.maxListSize) {record : Record} (hrecord : (q.records self)[j]? = some record) :
    (q.ownList modMul self).getD j default = recordRow (r := r) modMul self record := by
  obtain ⟨hlt, hget⟩ := List.getElem?_eq_some_iff.mp hrecord
  rw [ownList_eq hself, getD_padList (q.draws self) _ hj, dif_pos (by rwa [List.length_map])]
  simp [hget]

private theorem paddedKeys_record {self : Identity} {j : Nat} (hj : j < r.maxListSize)
    {record : Record} (hrecord : (q.records self)[j]? = some record) :
    q.paddedKeys self j = record.keys ++ [self.vertical] := by
  obtain ⟨hlt, hget⟩ := List.getElem?_eq_some_iff.mp hrecord
  rw [paddedKeys, getD_padList (q.draws self) _ hj, dif_pos (by rwa [rows, List.length_map])]
  simp [rows, hget, readCsvRow]

private theorem paddedKeys_padding {self : Identity} {j : Nat} (hj : j < r.maxListSize)
    (hle : (q.records self).length ≤ j) :
    q.paddedKeys self j =
      (List.range 2).map ((q.draws self).padKey (j - (q.records self).length)) := by
  rw [paddedKeys, getD_padList (q.draws self) _ hj, dif_neg (by rw [rows, List.length_map]; omega),
    rows, List.length_map]
  rfl

/-- The keys that are sorted are those of the rows of the lists. -/
theorem combinedRow_keyCols {p o : Identity} (hpair : q.CrossPair p o)
    (i : Fin (2 * r.maxListSize)) :
    (q.combinedRow modMul p o i).keyCols = q.combinedKeys p o i := by
  have hown : ∀ self ∈ q.dataowners, ∀ j < r.maxListSize,
      ((q.ownList modMul self).getD j default).keyCols = q.paddedKeys self j := by
    intro self hself j hj
    by_cases hlt : j < (q.records self).length
    · have hrecord := List.getElem?_eq_getElem hlt
      rw [ownList_record hself hj hrecord, paddedKeys_record hj hrecord]
      rfl
    · rw [paddedKeys_padding hj (Nat.le_of_not_lt hlt), ownList_eq hself,
        getD_padList (q.draws self) _ hj, dif_neg (by rwa [List.length_map]), List.length_map]
      rfl
  have hi := i.isLt
  rw [combinedRow, combinedKeys]
  split
  · next hlt => exact hown p hpair.dv _ hlt
  · exact hown o hpair.nonDv _ (by omega)

/-! ## The joined rows -/

variable (q) in
/-- The lists are as the join assumes them: the rows are joined on one column, whose values and the
indices of the verticals are reduced, no data owner has two rows with the same key, and the key of
a padding row is that of no other row. -/
structure WellPosed : Prop where
  maxListSize_pos : 0 < r.maxListSize
  numJoinOns : q.numJoinOns = 1
  vertical_lt : ∀ self ∈ q.dataowners, self.vertical < r.keyModulus
  key_lt : ∀ self ∈ q.dataowners, ∀ record ∈ q.records self, ∀ key ∈ record.keys,
    key < r.keyModulus
  unique : ∀ self ∈ q.dataowners, ((q.records self).map Record.keys).Nodup
  fresh : ∀ self ∈ q.dataowners, ∀ other ∈ q.dataowners, ∀ j < r.maxListSize,
    ∀ j' < r.maxListSize, (q.records self).length ≤ j → (self, j) ≠ (other, j') →
      (q.paddedKeys self j).getD 0 0 ≠ (q.paddedKeys other j').getD 0 0

variable (q) in
/-- Line `a` of `o` and line `b` of `p` have equal keys. -/
def Joined (p o : Identity) (a b : Nat) : Prop :=
  ∃ u ∈ (q.records o)[a]?, ∃ v ∈ (q.records p)[b]?, u.keys = v.keys

instance (p o : Identity) (a b : Nat) : Decidable (q.Joined p o a b) :=
  inferInstanceAs (Decidable (∃ u ∈ (q.records o)[a]?, ∃ v ∈ (q.records p)[b]?, u.keys = v.keys))

namespace WellPosed

/-- A key column is one number below the modulus. -/
private theorem record_keys (h : q.WellPosed) {self : Identity} (hself : self ∈ q.dataowners)
    {record : Record} (hrecord : record ∈ q.records self) :
    ∃ key, record.keys = [key] ∧ key < r.keyModulus := by
  have hlen := q.keys_length self hself record hrecord
  rw [h.numJoinOns] at hlen
  obtain ⟨key, hkey⟩ := List.length_eq_one_iff.mp hlen
  exact ⟨key, hkey, h.key_lt self hself record hrecord key (by simp [hkey])⟩

private theorem paddedKeys_lt (h : q.WellPosed) {self : Identity} (hself : self ∈ q.dataowners)
    {j : Nat} (hj : j < r.maxListSize) : (q.paddedKeys self j).getD 0 0 < r.keyModulus := by
  by_cases hlt : j < (q.records self).length
  · rw [paddedKeys_record hj (List.getElem?_eq_getElem hlt)]
    obtain ⟨key, hkeys, hkey⟩ := h.record_keys hself (List.getElem_mem hlt)
    rw [hkeys]
    exact hkey
  · rw [paddedKeys_padding hj (Nat.le_of_not_lt hlt)]
    exact (q.draws self).padKey_lt _ 0

/-- Two rows with the same key are lines of two data owners. -/
private theorem joined_of_key (h : q.WellPosed) {self other : Identity}
    (hself : self ∈ q.dataowners) (hother : other ∈ q.dataowners) {j j' : Nat}
    (hj : j < r.maxListSize) (hj' : j' < r.maxListSize) (hne : (self, j) ≠ (other, j'))
    (hkey : (q.paddedKeys self j).getD 0 0 = (q.paddedKeys other j').getD 0 0) :
    self ≠ other ∧ q.Joined other self j j' := by
  have hlt : j < (q.records self).length := by
    apply Nat.lt_of_not_le
    intro hle
    exact h.fresh self hself other hother j hj j' hj' hle hne hkey
  have hlt' : j' < (q.records other).length := by
    apply Nat.lt_of_not_le
    intro hle
    exact h.fresh other hother self hself j' hj' j hj hle hne.symm hkey.symm
  rw [paddedKeys_record hj (List.getElem?_eq_getElem hlt),
    paddedKeys_record hj' (List.getElem?_eq_getElem hlt')] at hkey
  obtain ⟨key, hkeys, -⟩ := h.record_keys hself (List.getElem_mem hlt)
  obtain ⟨key', hkeys', -⟩ := h.record_keys hother (List.getElem_mem hlt')
  have heq : (q.records self)[j].keys = (q.records other)[j'].keys := by
    rw [hkeys, hkeys'] at hkey ⊢
    simpa using hkey
  refine ⟨?_, _, List.getElem?_eq_getElem hlt, _, List.getElem?_eq_getElem hlt', heq⟩
  rintro rfl
  apply hne
  have hinjective := List.nodup_iff_injective_get.mp (h.unique self hself)
  have hindex : (⟨j, by rwa [List.length_map]⟩ : Fin ((q.records self).map Record.keys).length) =
      ⟨j', by rwa [List.length_map]⟩ := by
    apply hinjective
    simpa only [List.get_eq_getElem, List.getElem_map] using heq
  rw [Fin.mk.inj_iff.mp hindex]

/-- The data owner and the row of its list at a position of the combined list. -/
private def place (p o : Identity) (i : Fin (2 * r.maxListSize)) : Identity × Nat :=
  if i.val < r.maxListSize then (p, i.val) else (o, i.val - r.maxListSize)

private theorem place_spec {p o : Identity} (hpair : q.CrossPair p o)
    (i : Fin (2 * r.maxListSize)) :
    (place (r := r) p o i).1 ∈ q.dataowners ∧ (place (r := r) p o i).2 < r.maxListSize ∧
      q.combinedKeys p o i = q.paddedKeys (place (r := r) p o i).1 (place (r := r) p o i).2 := by
  have hi := i.isLt
  unfold place combinedKeys
  split
  · next hlt => exact ⟨hpair.dv, hlt, rfl⟩
  · exact ⟨hpair.nonDv, by show i.val - r.maxListSize < _; omega, rfl⟩

private theorem place_injective {p o : Identity} (hpair : q.CrossPair p o) :
    Function.Injective (place (r := r) p o) := by
  have hne : p ≠ o := fun h ↦ hpair.nonDv_vertical (h ▸ hpair.dv_vertical)
  intro i j hij
  unfold place at hij
  split at hij <;> split at hij <;> simp only [Prod.mk.injEq] at hij
  · exact Fin.ext hij.2
  · exact absurd hij.1 hne
  · exact absurd hij.1.symm hne
  · exact Fin.ext (by omega)

private theorem combinedKeys_eq (h : q.WellPosed) {p o : Identity} (hpair : q.CrossPair p o)
    (i : Fin (2 * r.maxListSize)) :
    q.firstKey p o i = (q.combinedKeys p o i).getD 0 0 := by
  obtain ⟨hmem, hlt, hkeys⟩ := place_spec hpair i
  rw [firstKey, hkeys, Nat.mod_eq_of_lt (h.paddedKeys_lt hmem hlt)]

/-- Two rows of a combined list with the same key are joined lines of the two sides. -/
theorem joined_of_firstKey (h : q.WellPosed) {p o : Identity} (hpair : q.CrossPair p o)
    {i j : Fin (2 * r.maxListSize)} (hne : i ≠ j) (hkey : q.firstKey p o i = q.firstKey p o j) :
    (IsNonDvRow i ∧ IsDvRow j ∧ q.Joined p o (i.val - r.maxListSize) j.val) ∨
      (IsDvRow i ∧ IsNonDvRow j ∧ q.Joined p o (j.val - r.maxListSize) i.val) := by
  obtain ⟨hmem, hlt, hkeys⟩ := place_spec hpair i
  obtain ⟨hmem', hlt', hkeys'⟩ := place_spec hpair j
  rw [h.combinedKeys_eq hpair, h.combinedKeys_eq hpair, hkeys, hkeys'] at hkey
  obtain ⟨howners, hjoined⟩ := h.joined_of_key hmem hmem' hlt hlt'
    (fun heq ↦ hne (place_injective hpair heq)) hkey
  unfold place at howners hjoined
  split at howners <;> split at howners
  · exact absurd rfl howners
  · next hi hj =>
    obtain ⟨u, hu, v, hv, huv⟩ := by simpa only [if_pos hi, if_neg hj] using hjoined
    exact .inr ⟨hi, Nat.le_of_not_lt hj, v, hv, u, hu, huv.symm⟩
  · next hi hj =>
    have hjoined := by simpa only [if_neg hi, if_pos hj] using hjoined
    exact .inl ⟨Nat.le_of_not_lt hi, hj, hjoined⟩
  · exact absurd rfl howners

/-- The keys of two joined lines in the combined list. -/
theorem keys_of_joined (h : q.WellPosed) {p o : Identity} (hpair : q.CrossPair p o)
    {i j : Fin (2 * r.maxListSize)} (hi : IsNonDvRow i) (hj : IsDvRow j)
    (hjoined : q.Joined p o (i.val - r.maxListSize) j.val) :
    q.firstKey p o i = q.firstKey p o j ∧ q.secondKey p o i = q.verticalNonDv ∧
      q.secondKey p o j = r.verticalDv := by
  obtain ⟨u, hu, v, hv, huv⟩ := hjoined
  have hlt := i.isLt
  have hi' : ¬ i.val < r.maxListSize := Nat.not_lt_of_le hi
  have hkeysI : q.combinedKeys p o i = u.keys ++ [o.vertical] := by
    rw [combinedKeys, if_neg hi', paddedKeys_record (by omega) hu]
  have hkeysJ : q.combinedKeys p o j = v.keys ++ [p.vertical] := by
    have hj' : j.val < r.maxListSize := hj
    rw [combinedKeys, if_pos hj', paddedKeys_record hj' hv]
  obtain ⟨key, hkey, -⟩ := h.record_keys hpair.nonDv (List.mem_of_getElem? hu)
  rw [huv] at hkey
  have ho : o.vertical = q.verticalNonDv :=
    (q.vertical_eq o hpair.nonDv).resolve_left hpair.nonDv_vertical
  have hoMod : o.vertical % r.keyModulus = o.vertical :=
    Nat.mod_eq_of_lt (h.vertical_lt o hpair.nonDv)
  have hpMod : p.vertical % r.keyModulus = p.vertical :=
    Nat.mod_eq_of_lt (h.vertical_lt p hpair.dv)
  rw [firstKey, firstKey, secondKey, secondKey, hkeysI, hkeysJ, huv, hkey]
  refine ⟨rfl, ?_, ?_⟩
  · rw [← ho, ← hoMod]
    simp
  · rw [← hpair.dv_vertical, ← hpMod]
    simp

/-- Well-posed lists are aligned when the other vertical has the smaller index, and otherwise only
where nothing is joined. -/
theorem aligned_iff (h : q.WellPosed) :
    q.Aligned ↔ q.verticalNonDv < r.verticalDv ∨
      ∀ p o, q.CrossPair p o → ∀ a < r.maxListSize, ∀ b < r.maxListSize, ¬ q.Joined p o a b := by
  constructor
  · intro haligned
    by_contra hcon
    rw [not_or] at hcon
    obtain ⟨hle, hjoined⟩ := hcon
    simp only [not_forall, not_not] at hjoined
    obtain ⟨p, o, hpair, a, ha, b, hb, hjoined⟩ := hjoined
    let i : Fin (2 * r.maxListSize) := ⟨r.maxListSize + a, by omega⟩
    let j : Fin (2 * r.maxListSize) := ⟨b, by omega⟩
    have hi : IsNonDvRow i := Nat.le_add_right _ _
    have hsub : i.val - r.maxListSize = a := Nat.add_sub_cancel_left _ _
    obtain ⟨hfirst, hsecondI, hsecondJ⟩ :=
      h.keys_of_joined hpair hi (show IsDvRow j from hb) (by rwa [hsub])
    have hlt : r.verticalDv < q.verticalNonDv :=
      Nat.lt_of_le_of_ne (Nat.le_of_not_lt hle) q.verticals_ne.symm
    -- the row of the dependent variable's vertical comes first
    obtain ⟨hwrong, -⟩ := haligned p o hpair j i ⟨hfirst.symm, by rwa [hsecondI, hsecondJ]⟩
    exact absurd hb (Nat.not_lt_of_le hwrong)
  · intro hcases p o hpair i j hmatching
    have hne : i ≠ j := by
      rintro rfl
      exact lt_irrefl _ hmatching.2
    have hi := i.isLt
    have hj := j.isLt
    rcases h.joined_of_firstKey hpair hne hmatching.1 with ⟨hi', hj', hjoined⟩ |
      ⟨hi', hj', hjoined⟩
    · exact ⟨hi', hj'⟩
    · rcases hcases with hlt | hnone
      · obtain ⟨-, hsecondJ, hsecondI⟩ := h.keys_of_joined hpair hj' hi' hjoined
        have hgrows := hmatching.2
        rw [hsecondI, hsecondJ] at hgrows
        omega
      · exact absurd hjoined (hnone p o hpair _ (by omega) _ hi')

/-- The matching pairs of aligned lists are joined lines. -/
theorem joined_of_matching (h : q.WellPosed) (haligned : q.Aligned) {p o : Identity}
    (hpair : q.CrossPair p o) {i j : Fin (2 * r.maxListSize)} (hmatching : q.Matching p o i j) :
    IsNonDvRow i ∧ IsDvRow j ∧ q.Joined p o (i.val - r.maxListSize) j.val := by
  obtain ⟨hi, hj⟩ := haligned p o hpair i j hmatching
  have hne : i ≠ j := by
    rintro rfl
    exact lt_irrefl _ hmatching.2
  rcases h.joined_of_firstKey hpair hne hmatching.1 with ⟨-, -, hjoined⟩ | ⟨hi', -, -⟩
  · exact ⟨hi, hj, hjoined⟩
  · exact absurd hi' (Nat.not_lt_of_le hi)

/-- Joined lines of aligned lists match. -/
theorem matching_of_joined (h : q.WellPosed) (haligned : q.Aligned) {p o : Identity}
    (hpair : q.CrossPair p o) {i j : Fin (2 * r.maxListSize)} (hi : IsNonDvRow i)
    (hj : IsDvRow j) (hjoined : q.Joined p o (i.val - r.maxListSize) j.val) :
    q.Matching p o i j := by
  have hilt := i.isLt
  have hlt : q.verticalNonDv < r.verticalDv := by
    rcases h.aligned_iff.mp haligned with hlt | hnone
    · exact hlt
    · exact absurd hjoined (hnone p o hpair _ (by omega) _ hj)
  obtain ⟨hfirst, hsecondI, hsecondJ⟩ := h.keys_of_joined hpair hi hj hjoined
  exact ⟨hfirst, by rwa [hsecondI, hsecondJ]⟩

end WellPosed

end Regression.Query
end Safrn.Stats

import Safrn.Psi.Handlers

/-!
# The shares add up to the sum over the common identifiers

Every configuration that the two servers reach, however the bytes are cut, satisfies the facts of
the message that is on its way; from each of them the servers can finish, and where they have
finished their shares add up to the sum over the identifiers that they have in common.
-/

namespace Safrn.Psi

open Safrn.Base Safrn.Cuckoo HashParams

variable {P : Session} {s : ServerS} {u : ServerU}

/-! ## The weights of the matching cells -/

private theorem toNat_lt_of_nonneg {a : BitVec 32} (ha : 0 ≤ a.toInt) : 2 * a.toNat < 2 ^ 32 := by
  have hlt := a.isLt
  rw [BitVec.toInt_eq_toNat_cond] at ha
  split at ha
  · assumption
  · omega

/-- No two identifiers that are not negative have one element. -/
private theorem element_injective {a b : BitVec 32} (ha : 0 ≤ a.toInt) (hb : 0 ≤ b.toInt)
    (h : element a = element b) : a = b := by
  have ha' := toNat_lt_of_nonneg ha
  have hb' := toNat_lt_of_nonneg hb
  rw [element, element, BitVec.toNat_mul, BitVec.toNat_mul,
    show (2 : BitVec 32).toNat = 2 from rfl] at h
  exact BitVec.eq_of_toNat_eq (by omega)

/-- S has the values of all its cells. -/
theorem Built.valued (h : Built P s u) {row col : Nat} (hrow : row < P.globals.rowCount)
    (hcol : col < P.globals.wColumnCount) :
    P.globals.Valued s.cuckooTable (s.dvMaps col) := by
  intro c hc hused
  have hcell := (h.placement row hrow).aliceCells _ (subtable_lt hc) _ (cell_mod_lt _ c)
  obtain ⟨x, ⟨hx, hcx, hstore⟩, -⟩ := hcell.resolve_left hused
  have hunhash : P.globals.hashParams.unhash (c / P.globals.subtableSize)
      (c % P.globals.subtableSize) (P.globals.xR s.cuckooTable c) = x := by
    rw [Stores, hcx] at hstore
    rw [show P.globals.xR s.cuckooTable c = _ from hstore]
    rw [show c % P.globals.subtableSize = _ from hcx.symm]
    exact unhash_cell _ _ (h.admissible x hx).1
  obtain ⟨a, ha, rfl⟩ := List.mem_map.mp hx
  rw [h.params, hunhash, h.dvMaps a ha col hcol]
  rfl

/-- The weights of the matching cells add up to the sum over the common identifiers. -/
theorem Built.sum_weight (h : Built P s u) {row col : Nat} (hrow : row < P.globals.rowCount)
    (hcol : col < P.globals.wColumnCount) :
    ∑ c ∈ Finset.range P.globals.cellCount,
        (if P.globals.xR s.cuckooTable c = P.globals.xR (u.cuckooTable row) c then
          P.globals.weight s.cuckooTable (s.dvMaps col) c else 0) = P.commonSum row col := by
  let f (x : Nat) : Int := (s.dvMaps col x).elim 0 fun dv ↦ 1 + dv * 2 ^ 32
  have hsum := (h.placement row hrow).sum_matches h.nodup h.admissible f
  have hleft : ∀ c, (if P.globals.xR s.cuckooTable c = P.globals.xR (u.cuckooTable row) c then
      P.globals.weight s.cuckooTable (s.dvMaps col) c else 0) =
      if P.globals.hashParams.contentAt s.cuckooTable.subtables c =
          P.globals.hashParams.contentAt (u.cuckooTable row).subtables c ∧
          P.globals.hashParams.contentAt s.cuckooTable.subtables c ≠ NULL_XR then
        f (P.globals.hashParams.unhash (c / P.globals.subtableSize)
          (c % P.globals.subtableSize)
          (P.globals.hashParams.contentAt s.cuckooTable.subtables c)) else 0 := by
    intro c
    rw [Globals.weight, h.params]
    show (if P.globals.hashParams.contentAt s.cuckooTable.subtables c =
      P.globals.hashParams.contentAt (u.cuckooTable row).subtables c then
        (if P.globals.hashParams.contentAt s.cuckooTable.subtables c = NULL_XR then 0 else f _)
        else 0) = _
    by_cases heq : P.globals.hashParams.contentAt s.cuckooTable.subtables c =
      P.globals.hashParams.contentAt (u.cuckooTable row).subtables c
    · by_cases hnull : P.globals.hashParams.contentAt s.cuckooTable.subtables c = NULL_XR
      · rw [if_pos heq, if_pos hnull, if_neg fun hc ↦ hc.2 hnull]
      · rw [if_pos heq, if_neg hnull, if_pos ⟨heq, hnull⟩]
        rfl
    · rw [if_neg heq, if_neg fun hc ↦ heq hc.1]
  have hright : (((elements P.rows).filter (· ∈ (P.groups row).map element)).map f).sum =
      P.commonSum row col := by
    rw [Session.commonSum, elements, List.filter_map, List.map_map]
    have hfilter : P.rows.filter ((fun x ↦ decide (x ∈ (P.groups row).map element)) ∘
        fun a ↦ element a.id) = P.rows.filter fun a ↦ a.id ∈ P.groups row := by
      refine List.filter_congr fun a ha ↦ decide_eq_decide.mpr ⟨fun hmem ↦ ?_, fun hmem ↦ ?_⟩
      · obtain ⟨id, hid, heq⟩ := List.mem_map.mp hmem
        rwa [← element_injective (P.groups_nonneg row hrow id hid) (P.rows_nonneg a ha) heq]
      · exact List.mem_map_of_mem hmem
    rw [hfilter]
    refine congrArg _ (List.map_congr_left fun a ha ↦ ?_)
    show (s.dvMaps col (element a.id)).elim 0 _ = _
    rw [h.dvMaps a (List.mem_of_mem_filter ha) col hcol]
    rfl
  rw [← hright, ← hsum]
  exact Finset.sum_congr rfl fun c _ ↦ hleft c

/-! ## The last two handlers -/

/-- The cells of the share matrix before `i` are done, the others are as at the start. -/
private structure ProductInv (P : Session) (s₀ : ServerS) (u : ServerU) (i : Nat) (s : ServerS) :
    Prop where
  done : ∀ row col, col < P.globals.wColumnCount → row < P.globals.rowCount →
    row * P.globals.wColumnCount + col < i →
    (∀ n < P.globals.cellCount * 2, P.globals.IsResidue (s.maskedv row col n)) ∧
    ∀ maskedv : Nat → Int, (∀ n < P.globals.cellCount * 2, maskedv n = s.maskedv row col n) →
      s.iwOt row col 0 0 + P.globals.unmask (u.PSIShare_U row) maskedv (u.gwOt row col).u ≡
        P.commonSum row col [ZMOD P.globals.modulus]
  iwOt : ∀ row col, col < P.globals.wColumnCount → i ≤ row * P.globals.wColumnCount + col →
    s.iwOt row col = s₀.iwOt row col
  cuckooTable : s.cuckooTable = s₀.cuckooTable
  dvMaps : s.dvMaps = s₀.dvMaps
  PSIShare_S : s.PSIShare_S = s₀.PSIShare_S

private theorem set₂_self {α : Type} (a : Nat → Nat → α) (row col : Nat) (v : α) :
    set₂ a row col v row col = v := by
  rw [set₂, Function.update_self, Function.update_self]

private theorem set₂_of_ne {α : Type} (a : Nat → Nat → α) {row col row' col' : Nat} (v : α)
    (h : row' = row → col' ≠ col) : set₂ a row col v row' col' = a row' col' := by
  rw [set₂]
  by_cases hr : row' = row
  · subst hr
    rw [Function.update_self, Function.update_of_ne (h rfl)]
  · rw [Function.update_of_ne hr]

/-- Cells with different numbers are different. -/
private theorem number_inj {w row col row' col' : Nat} (hc : col < w) (hc' : col' < w)
    (h : row * w + col = row' * w + col') : row = row' ∧ col = col' := by
  have hw : 0 < w := Nat.zero_lt_of_lt hc
  have hdiv : ∀ r c, c < w → (r * w + c) / w = r := fun r c hc ↦ by
    rw [Nat.mul_comm, Nat.mul_add_div hw, Nat.div_eq_of_lt hc, Nat.add_zero]
  have hrow : row = row' := by rw [← hdiv row col hc, h, hdiv row' col' hc']
  subst hrow
  exact ⟨rfl, Nat.add_left_cancel h⟩

/-- From `yselbits` to `maskedv`. -/
theorem I_G_M_YI_3_ok (h : Built P s u) (hshared : MatchShared P s u)
    (y : Nat → Nat → Nat → Nat) (hrecv : ∀ row < P.globals.rowCount,
      ∀ col < P.globals.wColumnCount, ∀ n < P.globals.cellCount,
        y row col n = P.globals.yselbits (u.PSIShare_U row) (P.wOt row col).b n) :
    ∃ s', P.I_G_M_YI_3 s y = some s' ∧ MaskedvSent P s' u := by
  have hrun : ∃ s', P.I_G_M_YI_3 s y = some s' ∧
      ProductInv P s u (P.globals.rowCount * P.globals.wColumnCount) s' := by
    refine forGridM_invariant (ProductInv P s u)
      ⟨fun _ _ _ _ h ↦ absurd h (Nat.not_lt_zero _), fun _ _ _ _ ↦ rfl, rfl, rfl, rfl⟩ ?_
    intro row hrow col hcol t hI
    have hiw : t.iwOt row col = (P.wOt row col).s := by
      rw [hI.iwOt row col hcol (Nat.le_refl _), h.iwOt]
    obtain ⟨m, hm, hres, hsum⟩ := Globals.mask_unmask (h.valued hrow hcol)
      (P.wOt_dealt row hrow col hcol) (fun c hc ↦ (hshared row hrow c hc).1)
      (fun c hc ↦ (hshared row hrow c hc).2) (hrecv row hrow col hcol) (P.r row col)
    rw [h.sum_weight hrow hcol] at hsum
    let t' : ServerS := { t with
      maskedv := set₂ t.maskedv row col m.maskedv
      iwOt := set₂ t.iwOt row col (set₂ (t.iwOt row col) 0 0 (m.out_S % P.globals.modulus)) }
    refine ⟨t', ?_, ?_⟩
    · have hmask : P.globals.mask t.cuckooTable (t.dvMaps col) (t.PSIShare_S row) (y row col)
          (t.iwOt row col) (P.r row col) = some m := by
        rw [hI.cuckooTable, hI.dvMaps, hI.PSIShare_S, hiw, hm]
      rw [hmask]
      rfl
    · refine ⟨fun row' col' hc' hr' hlt ↦ ?_, fun row' col' hc' hle ↦ ?_, hI.cuckooTable,
        hI.dvMaps, hI.PSIShare_S⟩
      · by_cases heq : row' * P.globals.wColumnCount + col' =
          row * P.globals.wColumnCount + col
        · obtain ⟨rfl, rfl⟩ := number_inj hc' hcol heq
          have hmv : t'.maskedv row' col' = m.maskedv := set₂_self ..
          have hout : t'.iwOt row' col' 0 0 = m.out_S % P.globals.modulus := by
            show set₂ t.iwOt row' col' _ row' col' 0 0 = _
            rw [set₂_self, set₂_self]
          rw [hmv, hout]
          refine ⟨hres, fun maskedv hmask ↦ ?_⟩
          have hu : (u.gwOt row' col').u = (P.wOt row' col').u :=
            congrArg Receiver.u (congrFun (congrFun h.gwOt row') col')
          rw [hu]
          exact ((Int.mod_modEq _ _).add_right _).trans (hsum maskedv hmask)
        · have hne : row' = row → col' ≠ col := fun hr hc ↦ heq (by rw [hr, hc])
          have hmv : t'.maskedv row' col' = t.maskedv row' col' := set₂_of_ne _ _ hne
          have hiw' : t'.iwOt row' col' = t.iwOt row' col' := set₂_of_ne _ _ hne
          rw [hmv, hiw']
          exact hI.done row' col' hc' hr' (by omega)
      · have hne : row' = row → col' ≠ col := fun hr hc ↦ by
          rw [hr, hc] at hle
          omega
        have hiw' : t'.iwOt row' col' = t.iwOt row' col' := set₂_of_ne _ _ hne
        rw [hiw']
        exact hI.iwOt row' col' hc' (by omega)
  obtain ⟨s', hs', hI⟩ := hrun
  refine ⟨s', hs', fun row hrow col hcol ↦ hI.done row col hcol hrow ?_⟩
  calc row * P.globals.wColumnCount + col
      < row * P.globals.wColumnCount + P.globals.wColumnCount := Nat.add_lt_add_left hcol _
    _ = (row + 1) * P.globals.wColumnCount := (Nat.succ_mul _ _).symm
    _ ≤ P.globals.rowCount * P.globals.wColumnCount := Nat.mul_le_mul_right _ hrow

/-- From `maskedv` to the shares. -/
theorem G_I_M_YI_4_ok (hsent : MaskedvSent P s u) (maskedv : Nat → Nat → Nat → Int)
    (hrecv : ∀ row < P.globals.rowCount, ∀ col < P.globals.wColumnCount,
      ∀ n < P.globals.cellCount * 2, maskedv row col n = s.maskedv row col n) :
    SharesOk P s (P.G_I_M_YI_4 u maskedv) := by
  intro row hrow col hcol
  have hsum := (hsent row hrow col hcol).2 (maskedv row col) (hrecv row hrow col hcol)
  have hout : ((P.G_I_M_YI_4 u maskedv).gwOt row col).u 0 =
      P.globals.unmask (u.PSIShare_U row) (maskedv row col) (u.gwOt row col).u %
        P.globals.modulus := by
    simp only [Session.G_I_M_YI_4, Function.update_self]
  rw [hout]
  exact ((Int.mod_modEq _ _).add_left _).trans hsum

end Safrn.Psi

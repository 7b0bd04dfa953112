import Safrn.Psi.Builds

/-!
# What each handler makes of the arrays it receives

The facts that hold while each of the six messages is on its way, and for each handler the step
from the facts of its message to those of the next one. The arrays a handler receives agree with
the arrays that were sent, within their length.
-/

namespace Safrn.Psi

open Safrn.Base Safrn.Cuckoo Safrn.Garbled

namespace Globals

variable {g : Globals}

/-- An index of a packed array names a cell and a position. -/
theorem exists_index {width n : Nat} (hn : n < g.cellCount * width) :
    ∃ c < g.cellCount, ∃ k < width, n = c * width + k := by
  have hw : 0 < width := Nat.pos_of_ne_zero fun h ↦ by
    rw [h, Nat.mul_zero] at hn
    exact Nat.not_lt_zero n hn
  exact ⟨n / width, (Nat.div_lt_iff_lt_mul hw).mpr hn, n % width, Nat.mod_lt n hw,
    (Nat.div_add_mod' n width).symm⟩

theorem selbits_lt {table : CuckooTable} {ot : OtCell Nat} {valid : Nat → Prop}
    (hot : ot.Dealt (g.cellCount * g.rightBits) valid) {n : Nat}
    (hn : n < g.cellCount * g.rightBits) : g.selbits table ot.b n < 2 := by
  obtain ⟨c, hc, k, hk, rfl⟩ := exists_index hn
  rw [selbits_get hc hk]
  exact xor_lt_two (hot.bit _ hn) (bit_lt _ _)

theorem cselbits_lt {C_U : Nat → Nat} {ot : OtCell Nat} {valid : Nat → Prop}
    (hot : ot.Dealt (g.cellCount * 5) valid) {n : Nat} (hn : n < g.cellCount * 5) :
    g.cselbits C_U ot.b n < 2 := by
  obtain ⟨c, hc, k, hk, rfl⟩ := exists_index hn
  rw [cselbits_get hc hk]
  exact xor_lt_two (hot.bit _ hn) (bit_lt _ _)

theorem sendsec_lt (table : CuckooTable) (aBytes : Nat → Nat → UInt8) (s : Nat → Nat → Nat)
    (selbits : Nat → Nat) {n : Nat} (hn : n < g.cellCount * g.rightBits * 2) :
    (g.blind table aBytes s selbits).sendsec n < 256 := by
  have hn' : n / 2 < g.cellCount * g.rightBits := (Nat.div_lt_iff_lt_mul (by decide)).mpr hn
  obtain ⟨c, hc, k, hk, hidx⟩ := exists_index hn'
  rw [← Nat.div_add_mod' n 2, hidx, blind_sendsec hc hk (Nat.mod_lt n (by decide)), hidden]
  exact Nat.lt_of_lt_of_le (Nat.mod_lt _ (by decide)) (by decide)

theorem maskLabels_lt (C_S cs : Nat → Nat) (s : Nat → Nat → Nat) (csendsec : Nat → Nat) {n : Nat}
    (hn : n < g.cellCount * 5 * 2) : g.maskLabels C_S cs s csendsec n < 256 := by
  have hn' : n / 2 < g.cellCount * 5 := (Nat.div_lt_iff_lt_mul (by decide)).mpr hn
  obtain ⟨c, hc, k, hk, hidx⟩ := exists_index hn'
  rw [← Nat.div_add_mod' n 2, hidx, maskLabels_get hc hk (Nat.mod_lt n (by decide))]
  exact Nat.mod_lt _ (by decide)

end Globals

/-! ## The facts of each message -/

variable (P : Session) (s : ServerS) (u : ServerU)

/-- S and U have the same content in a cell. -/
def Match (row c : Nat) : Prop :=
  P.globals.xR s.cuckooTable c = P.globals.xR (u.cuckooTable row) c

instance (row c : Nat) : Decidable (Match P s u row c) := inferInstanceAs (Decidable (_ = _))

/-- `selbits` hides U's cells. -/
def SelbitsSent : Prop := ∀ row < P.globals.rowCount,
  u.selbits row = P.globals.selbits (u.cuckooTable row) (P.sOt row).b

/-- `sendsec` and `C_S` come from the `selbits` that U sent. -/
def SendsecSent : Prop := ∀ row < P.globals.rowCount, ∃ z : Nat → Nat,
  (∀ n < P.globals.cellCount * P.globals.rightBits,
    z n = P.globals.selbits (u.cuckooTable row) (P.sOt row).b n) ∧
  s.sendsec row = (P.globals.blind s.cuckooTable (P.aBytes row) (P.sOt row).s z).sendsec ∧
  s.C_S row = (P.globals.blind s.cuckooTable (P.aBytes row) (P.sOt row).s z).C_S

/-- The circuits of each row are made. -/
def CircuitsMade : Prop := ∀ row < P.globals.rowCount, ∃ mk,
  MakerInv P.globals.cellCount mk ∧ s.PSIShare_S row = mk.outflip ∧
    s.csendsec row = mk.stufftosend

/-- The five-bit sums agree where the cells do. -/
def Summed : Prop := ∀ row < P.globals.rowCount, ∀ c < P.globals.cellCount,
  s.C_S row c < 32 ∧ u.C_U row c < 32 ∧ (s.C_S row c = u.C_U row c ↔ Match P s u row c)

/-- `cselbits` hides U's sums. -/
def CselbitsSent : Prop := ∀ row < P.globals.rowCount,
  u.cselbits row = P.globals.cselbits (u.C_U row) (P.uOt row).b

/-- `csendsec` hides the labels of the circuits under the `cselbits` that U sent. -/
def CsendsecSent : Prop := ∀ row < P.globals.rowCount, ∃ mk, ∃ cs : Nat → Nat,
  MakerInv P.globals.cellCount mk ∧ s.PSIShare_S row = mk.outflip ∧
  (∀ n < P.globals.cellCount * 5, cs n = P.globals.cselbits (u.C_U row) (P.uOt row).b n) ∧
  s.csendsec row = P.globals.maskLabels (s.C_S row) cs (P.uOt row).s mk.stufftosend

/-- The two servers share which cells match. -/
def MatchShared : Prop := ∀ row < P.globals.rowCount, ∀ c < P.globals.cellCount,
  s.PSIShare_S row c < 2 ∧
    u.PSIShare_U row c = s.PSIShare_S row c ^^^ (if Match P s u row c then 1 else 0)

/-- `yselbits` hides U's shares of the matches. -/
def YselbitsSent : Prop := ∀ row < P.globals.rowCount, ∀ col < P.globals.wColumnCount,
  u.yselbits row col = P.globals.yselbits (u.PSIShare_U row) (P.wOt row col).b

/-- `maskedv` holds residues, and with them U's share will be what S's share lacks. -/
def MaskedvSent : Prop := ∀ row < P.globals.rowCount, ∀ col < P.globals.wColumnCount,
  (∀ n < P.globals.cellCount * 2, P.globals.IsResidue (s.maskedv row col n)) ∧
  ∀ maskedv : Nat → Int, (∀ n < P.globals.cellCount * 2, maskedv n = s.maskedv row col n) →
    s.iwOt row col 0 0 + P.globals.unmask (u.PSIShare_U row) maskedv (u.gwOt row col).u ≡
      P.commonSum row col [ZMOD P.globals.modulus]

/-- The shares add up to the sum over the common identifiers. -/
def SharesOk : Prop := ∀ row < P.globals.rowCount, ∀ col < P.globals.wColumnCount,
  s.iwOt row col 0 0 + (u.gwOt row col).u 0 ≡ P.commonSum row col [ZMOD P.globals.modulus]

/-! ## The handlers -/

variable {P s u}

/-- The contents of S's cells have `rightBits` bits. -/
theorem Built.xR_lt_S (h : Built P s u) {row c : Nat} (hrow : row < P.globals.rowCount)
    (hc : c < P.globals.cellCount) :
    P.globals.xR s.cuckooTable c < 2 ^ P.globals.rightBits := by
  have hcell := (h.placement row hrow).aliceCells _ (HashParams.subtable_lt hc) _
    (HashParams.cell_mod_lt _ c)
  have hone : 1 < 2 ^ P.globals.rightBits :=
    Nat.one_lt_two_pow (Nat.ne_of_gt P.globals.hashParams.rightBits_pos)
  rcases hcell with hnull | ⟨x, ⟨-, hcell, hstore⟩, -⟩
  · exact (show P.globals.xR s.cuckooTable c = 1 from hnull) ▸ hone
  · rw [HashParams.Stores, hcell] at hstore
    exact (show P.globals.xR s.cuckooTable c = _ from hstore) ▸
      P.globals.hashParams.splitR_lt x

/-- The contents of U's cells have `rightBits` bits. -/
theorem Built.xR_lt_U (h : Built P s u) {row c : Nat} (hrow : row < P.globals.rowCount)
    (hc : c < P.globals.cellCount) :
    P.globals.xR (u.cuckooTable row) c < 2 ^ P.globals.rightBits := by
  have hcell := (h.placement row hrow).bobCells _ (HashParams.subtable_lt hc) _
    (HashParams.cell_mod_lt _ c)
  have hone : 1 < 2 ^ P.globals.rightBits :=
    Nat.one_lt_two_pow (Nat.ne_of_gt P.globals.hashParams.rightBits_pos)
  rcases hcell with hnull | ⟨x, ⟨-, hcell, hstore⟩, -⟩
  · exact (show P.globals.xR (u.cuckooTable row) c = 1 from hnull) ▸ hone
  · rw [HashParams.Stores, hcell] at hstore
    exact (show P.globals.xR (u.cuckooTable row) c = _ from hstore) ▸
      P.globals.hashParams.splitR_lt x

/-- The fields that making circuits leaves alone. -/
private structure MakeInv (P : Session) (s₀ : ServerS) (row : Nat) (s : ServerS) : Prop where
  made : ∀ i < row, ∃ mk, MakerInv P.globals.cellCount mk ∧ s.PSIShare_S i = mk.outflip ∧
    s.csendsec i = mk.stufftosend
  isOt : s.isOt = s₀.isOt
  iuOt : s.iuOt = s₀.iuOt
  iwOt : s.iwOt = s₀.iwOt
  cuckooTable : s.cuckooTable = s₀.cuckooTable
  dvMaps : s.dvMaps = s₀.dvMaps
  sendsec : s.sendsec = s₀.sendsec
  C_S : s.C_S = s₀.C_S

private theorem makeRows_ok (P : Session) (s₀ : ServerS) :
    ∃ s, forRangeM (fun s row ↦
      (makeFullEqualityCircuits (P.randbuf row) P.globals.cellCount newMaker).map fun mk ↦
        { s with
          PSIShare_S := Function.update s.PSIShare_S row mk.outflip
          csendsec := Function.update s.csendsec row mk.stufftosend }) P.globals.rowCount s₀ =
        some s ∧ MakeInv P s₀ P.globals.rowCount s := by
  refine forRangeM_invariant (MakeInv P s₀)
    ⟨fun i hi ↦ absurd hi (Nat.not_lt_zero i), rfl, rfl, rfl, rfl, rfl, rfl, rfl⟩ ?_
  intro row _ s hI
  obtain ⟨mk, hmk, hinv⟩ := makeCircuits_ok (P.randbuf row) P.globals.cellCount
    P.globals.cellCount newMaker
  have hmk' : makeFullEqualityCircuits (P.randbuf row) P.globals.cellCount newMaker = some mk := hmk
  let s' : ServerS := { s with
    PSIShare_S := Function.update s.PSIShare_S row mk.outflip
    csendsec := Function.update s.csendsec row mk.stufftosend }
  refine ⟨s', by rw [hmk']; rfl, fun i hi ↦ ?_, hI.isOt, hI.iuOt, hI.iwOt, hI.cuckooTable,
    hI.dvMaps, hI.sendsec, hI.C_S⟩
  by_cases heq : i = row
  · subst heq
    exact ⟨mk, hinv, Function.update_self .., Function.update_self ..⟩
  · obtain ⟨mk', hinv', hps, hcs⟩ := hI.made i (by omega)
    exact ⟨mk', hinv', (Function.update_of_ne heq ..).trans hps,
      (Function.update_of_ne heq ..).trans hcs⟩

/-- From `selbits` to `sendsec`. -/
theorem I_G_M_YI_1_ok (h : Built P s u) (z : Nat → Nat → Nat)
    (hz : ∀ row < P.globals.rowCount, ∀ n < P.globals.cellCount * P.globals.rightBits,
      z row n = P.globals.selbits (u.cuckooTable row) (P.sOt row).b n) :
    ∃ s', P.I_G_M_YI_1 s z = some s' ∧ Built P s' u ∧ SendsecSent P s' u ∧ CircuitsMade P s' := by
  let s₁ : ServerS := { s with
    sendsec := fun row ↦
      (P.globals.blind s.cuckooTable (P.aBytes row) (s.isOt row) (z row)).sendsec
    C_S := fun row ↦ (P.globals.blind s.cuckooTable (P.aBytes row) (s.isOt row) (z row)).C_S }
  obtain ⟨s', hrun, hI⟩ := makeRows_ok P s₁
  have htable : s'.cuckooTable = s.cuckooTable := hI.cuckooTable
  refine ⟨s', hrun, ?_, fun row hrow ↦ ⟨z row, hz row hrow, ?_, ?_⟩, hI.made⟩
  · exact ⟨htable ▸ h.params, fun row hrow ↦ htable ▸ h.placement row hrow, h.nodup,
      h.admissible, h.admissible_groups, hI.dvMaps ▸ h.dvMaps, hI.isOt.trans h.isOt,
      hI.iuOt.trans h.iuOt, hI.iwOt.trans h.iwOt, h.gsOt, h.guOt, h.gwOt⟩
  · rw [hI.sendsec, htable]
    show (P.globals.blind s.cuckooTable (P.aBytes row) (s.isOt row) (z row)).sendsec = _
    rw [h.isOt]
  · rw [hI.C_S, htable]
    show (P.globals.blind s.cuckooTable (P.aBytes row) (s.isOt row) (z row)).C_S = _
    rw [h.isOt]

/-- From `sendsec` to `cselbits`. -/
theorem G_I_M_YI_2_ok (h : Built P s u) (hsent : SendsecSent P s u)
    (sendsec : Nat → Nat → Nat) (hrecv : ∀ row < P.globals.rowCount,
      ∀ n < P.globals.cellCount * P.globals.rightBits * 2, sendsec row n = s.sendsec row n) :
    Built P s (P.G_I_M_YI_2 u sendsec) ∧ Summed P s (P.G_I_M_YI_2 u sendsec) ∧
      CselbitsSent P (P.G_I_M_YI_2 u sendsec) := by
  refine ⟨⟨h.params, h.placement, h.nodup, h.admissible, h.admissible_groups, h.dvMaps, h.isOt,
    h.iuOt, h.iwOt, h.gsOt, h.guOt, h.gwOt⟩, fun row hrow c hc ↦ ?_, fun row hrow ↦ ?_⟩
  · obtain ⟨z, hz, hsec, hC⟩ := hsent row hrow
    have hu : (u.gsOt row).u = (P.sOt row).u := congrArg Receiver.u (congrFun h.gsOt row)
    have hC_U : (P.G_I_M_YI_2 u sendsec).C_U row =
        P.globals.unblind (u.cuckooTable row) (sendsec row) (P.sOt row).u := by
      show P.globals.unblind (u.cuckooTable row) (sendsec row) (u.gsOt row).u = _
      rw [hu]
    have hsendsec : ∀ n < P.globals.cellCount * (P.globals.rightBits * 2), sendsec row n =
        (P.globals.blind s.cuckooTable (P.aBytes row) (P.sOt row).s z).sendsec n := by
      intro n hn
      rw [← Nat.mul_assoc] at hn
      rw [hrecv row hrow n hn, hsec]
    have hot := P.sOt_dealt row hrow
    refine ⟨?_, ?_, ?_⟩
    · rw [hC, Globals.blind_C_S hc]
      exact Nat.mod_lt _ (by decide)
    · rw [hC_U, Globals.C_U_eq hot hz hsendsec hc]
      exact Nat.mod_lt _ (by decide)
    · rw [hC_U, hC]
      exact Globals.C_U_eq_C_S_iff hot hz hsendsec (h.xR_lt_S hrow hc) (h.xR_lt_U hrow hc) hc
  · have hb : (u.guOt row).b = (P.uOt row).b := congrArg Receiver.b (congrFun h.guOt row)
    show P.globals.cselbits ((P.G_I_M_YI_2 u sendsec).C_U row) (u.guOt row).b = _
    rw [hb]

/-- From `cselbits` to `csendsec`. -/
theorem I_G_M_YI_2_ok (h : Built P s u) (hmade : CircuitsMade P s) (cs : Nat → Nat → Nat)
    (hrecv : ∀ row < P.globals.rowCount, ∀ n < P.globals.cellCount * 5,
      cs row n = P.globals.cselbits (u.C_U row) (P.uOt row).b n) :
    Built P (P.I_G_M_YI_2 s cs) u ∧ CsendsecSent P (P.I_G_M_YI_2 s cs) u := by
  refine ⟨⟨h.params, h.placement, h.nodup, h.admissible, h.admissible_groups, h.dvMaps, h.isOt,
    h.iuOt, h.iwOt, h.gsOt, h.guOt, h.gwOt⟩, fun row hrow ↦ ?_⟩
  obtain ⟨mk, hmk, hflip, hlabels⟩ := hmade row hrow
  refine ⟨mk, cs row, hmk, hflip, hrecv row hrow, ?_⟩
  show P.globals.maskLabels (s.C_S row) (cs row) (s.iuOt row) (s.csendsec row) = _
  rw [hlabels, h.iuOt]
  rfl

/-- The rows of the evaluator's loop. -/
private theorem evaluateRows_get (P : Session) (u : ServerU) (csendsec : Nat → Nat → Nat)
    {row : Nat} (hrow : row < P.globals.rowCount) : ∃ insec,
      (P.evaluateRows u csendsec).2 row = (evaluateFullEqualityCircuits
        (P.globals.insec (u.C_U row) (csendsec row) (u.guOt row).u insec) P.globals.cellCount
        newEvaluator).output := by
  refine (forRange_invariant (fun n (st : (Nat → Nat) × (Nat → Nat → Nat)) ↦
    ∀ row < n, ∃ insec, st.2 row = (evaluateFullEqualityCircuits
      (P.globals.insec (u.C_U row) (csendsec row) (u.guOt row).u insec) P.globals.cellCount
      newEvaluator).output) (fun i hi ↦ absurd hi (Nat.not_lt_zero i)) ?_) row hrow
  intro i _ st hI j hj
  by_cases heq : j = i
  · subst heq
    exact ⟨st.1, Function.update_self ..⟩
  · obtain ⟨insec, hj⟩ := hI j (by omega)
    exact ⟨insec, (Function.update_of_ne heq ..).trans hj⟩

/-- From `csendsec` to `yselbits`. -/
theorem G_I_M_YI_3_ok (h : Built P s u) (hsum : Summed P s u) (hsent : CsendsecSent P s u)
    (csendsec : Nat → Nat → Nat) (hrecv : ∀ row < P.globals.rowCount,
      ∀ n < P.globals.cellCount * 5 * 2, csendsec row n = s.csendsec row n) :
    Built P s (P.G_I_M_YI_3 u csendsec) ∧ MatchShared P s (P.G_I_M_YI_3 u csendsec) ∧
      YselbitsSent P (P.G_I_M_YI_3 u csendsec) := by
  refine ⟨⟨h.params, h.placement, h.nodup, h.admissible, h.admissible_groups, h.dvMaps, h.isOt,
    h.iuOt, h.iwOt, h.gsOt, h.guOt, h.gwOt⟩, fun row hrow c hc ↦ ?_, fun row _ col _ ↦ ?_⟩
  · obtain ⟨mk, cs, hmk, hflip, hcs, hlabels⟩ := hsent row hrow
    obtain ⟨insec, hout⟩ := evaluateRows_get P u csendsec hrow
    obtain ⟨hS, hU, hiff⟩ := hsum row hrow c hc
    have hu : (u.guOt row).u = (P.uOt row).u := congrArg Receiver.u (congrFun h.guOt row)
    have hlab : ∀ n < P.globals.cellCount * (5 * 2), csendsec row n =
        P.globals.maskLabels (s.C_S row) cs (P.uOt row).s mk.stufftosend n := by
      intro n hn
      rw [← Nat.mul_assoc] at hn
      rw [hrecv row hrow n hn, hlabels]
    obtain ⟨hlt, heq⟩ := Globals.PSIShare_eq hmk (P.uOt_dealt row hrow) hcs hlab insec
      newEvaluator hc hS hU
    refine ⟨hflip ▸ hlt, ?_⟩
    show (P.evaluateRows u csendsec).2 row c = _
    rw [hout, hu, heq, hflip, if_congr hiff rfl rfl]
    rfl
  · have hb : (u.gwOt row col).b = (P.wOt row col).b :=
      congrArg Receiver.b (congrFun (congrFun h.gwOt row) col)
    show P.globals.yselbits ((P.G_I_M_YI_3 u csendsec).PSIShare_U row) (u.gwOt row col).b = _
    rw [hb]

end Safrn.Psi

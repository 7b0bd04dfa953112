import Safrn.Psi.Result

/-!
# Runs of the private set intersection

Each handler takes the facts of its message to those of the next, so they hold in every
configuration that a run reaches. From each of them the servers can finish, and where they have
finished their shares add up to the sum over the common identifiers.
-/

namespace Safrn.Psi

open Safrn.Base Safrn.Cuckoo

variable {P : Session} {s : ServerS} {u : ServerU}

/-- The facts that hold while a message is on its way. -/
def Facts (P : Session) (s : ServerS) (u : ServerU) : Stage → Prop
  | .selbits => Built P s u ∧ SelbitsSent P u
  | .sendsec => Built P s u ∧ SendsecSent P s u ∧ CircuitsMade P s
  | .cselbits => Built P s u ∧ Summed P s u ∧ CselbitsSent P u ∧ CircuitsMade P s
  | .csendsec => Built P s u ∧ Summed P s u ∧ CsendsecSent P s u
  | .yselbits => Built P s u ∧ MatchShared P s u ∧ YselbitsSent P u
  | .maskedv => MaskedvSent P s u
  | .finished => SharesOk P s u

/-- The number of messages that are still to be handled. -/
def Stage.left : Stage → Nat
  | .selbits => 6
  | .sendsec => 5
  | .cselbits => 4
  | .csendsec => 3
  | .yselbits => 2
  | .maskedv => 1
  | .finished => 0

/-- The facts of the message on its way, where the receiver is in its buffers, and that nothing
else is on the wires. -/
structure Inv (P : Session) (c : Config) : Prop where
  facts : Facts P c.s c.u c.stage
  filling : Filling.Of (P.message c.s c.u c.stage) c.filling (c.wires c.stage.receiver)
  idle : ∀ q, q ≠ c.stage.receiver → c.wires q = []

theorem message_length (P : Session) (s : ServerS) (u : ServerU) (stage : Stage) :
    (P.message s u stage).map List.length = P.capacities stage := by
  cases stage with
  | selbits => exact P.bigBitArray.sent_length ..
  | sendsec => exact P.bigByteArray.sent_length ..
  | cselbits => exact P.bigBitArray.sent_length ..
  | csendsec => exact P.bigByteArray.sent_length ..
  | yselbits => exact P.bigBitArray.sent_length ..
  | maskedv => exact P.bigResidueArray.sent_length ..
  | finished => rfl

/-- A message that is sent over idle wires. -/
private theorem inv_send {wires : Party → List UInt8} {stage : Stage}
    (hfacts : Facts P s u stage) (hwires : ∀ q, wires q = []) :
    Inv P (P.send s u wires stage) where
  facts := hfacts
  filling := by
    have hwire : (P.send s u wires stage).wires stage.receiver =
        (P.message s u stage).flatten := by
      show Function.update wires _ _ _ = _
      rw [Function.update_self, hwires, List.nil_append]
    show Filling.Of (P.message s u stage) (Filling.start (P.capacities stage))
      ((P.send s u wires stage).wires stage.receiver)
    rw [hwire, ← message_length P s u]
    exact Filling.of_start _
  idle q hq := (Function.update_of_ne hq ..).trans (hwires q)

/-! ## The received arrays -/

private theorem number_lt {row col : Nat} (hrow : row < P.globals.rowCount)
    (hcol : col < P.globals.wColumnCount) :
    row * P.globals.wColumnCount + col < P.arrayCount := by
  calc row * P.globals.wColumnCount + col
      < row * P.globals.wColumnCount + P.globals.wColumnCount := Nat.add_lt_add_left hcol _
    _ = (row + 1) * P.globals.wColumnCount := (Nat.succ_mul _ _).symm
    _ ≤ P.arrayCount := Nat.mul_le_mul_right _ hrow

/-- Arrays by row and column, sent as one sequence and received by row and column. -/
private theorem byColumn_received {α : Type} {valid : α → Prop} (cls : BigArray valid) {len : Nat}
    {arrays : Nat → Nat → Nat → α} {row col n : Nat} (hrow : row < P.globals.rowCount)
    (hcol : col < P.globals.wColumnCount) (hvalid : ∀ i < len, valid (arrays row col i))
    (hn : n < len) :
    P.byColumn (cls.received len (cls.sent P.arrayCount len (P.flat arrays))) row col n =
      arrays row col n := by
  have hdiv : (row * P.globals.wColumnCount + col) / P.globals.wColumnCount = row := by
    rw [Nat.mul_comm, Nat.mul_add_div (Nat.zero_lt_of_lt hcol), Nat.div_eq_of_lt hcol,
      Nat.add_zero]
  have hmod : (row * P.globals.wColumnCount + col) % P.globals.wColumnCount = col := by
    rw [Nat.mul_comm, Nat.mul_add_mod, Nat.mod_eq_of_lt hcol]
  have hflat : P.flat arrays (row * P.globals.wColumnCount + col) = arrays row col := by
    rw [Session.flat, hdiv, hmod]
  rw [Session.byColumn, cls.received_sent (number_lt hrow hcol) (by rwa [hflat]) hn, hflat]

/-- The receiver of a complete message handles it, and the facts of the next one hold. -/
private theorem handle_ok {c : Config} (hfacts : Facts P c.s c.u c.stage)
    (hfull : c.filling.full = P.message c.s c.u c.stage) (hwires : ∀ q, c.wires q = [])
    (hstage : c.stage ≠ .finished) :
    ∃ c', P.handle c = some c' ∧ Inv P c' ∧ c'.stage.left < c.stage.left := by
  obtain ⟨s, u, stage, ⟨full, part, todo⟩, wires⟩ := c
  dsimp only at hfacts hfull hwires hstage
  subst hfull
  cases stage with
  | selbits =>
    obtain ⟨hbuilt, hsent⟩ := hfacts
    obtain ⟨s', hrun, hbuilt', hsent', hmade⟩ := I_G_M_YI_1_ok hbuilt
      (P.bigBitArray.received _ (P.message s u .selbits)) fun row hrow n hn ↦ by
        rw [Session.message, P.bigBitArray.received_sent hrow (fun i hi ↦ ?_) hn,
          hsent row hrow]
        rw [hsent row hrow]
        exact Globals.selbits_lt (P.sOt_dealt row hrow) hi
    refine ⟨P.send s' u wires .sendsec, ?_, inv_send ⟨hbuilt', hsent', hmade⟩ hwires,
      Nat.lt_succ_self _⟩
    show Option.map _ (P.I_G_M_YI_1 s _) = _
    rw [hrun]
    rfl
  | sendsec =>
    obtain ⟨hbuilt, hsent, hmade⟩ := hfacts
    obtain ⟨hbuilt', hsum, hsent'⟩ := G_I_M_YI_2_ok hbuilt hsent
      (P.bigByteArray.received _ (P.message s u .sendsec)) fun row hrow n hn ↦ by
        rw [Session.message]
        refine P.bigByteArray.received_sent hrow (fun i hi ↦ ?_) hn
        obtain ⟨z, -, hsec, -⟩ := hsent row hrow
        rw [hsec]
        exact Globals.sendsec_lt _ _ _ _ hi
    exact ⟨_, rfl, inv_send ⟨hbuilt', hsum, hsent', hmade⟩ hwires, Nat.lt_succ_self _⟩
  | cselbits =>
    obtain ⟨hbuilt, hsum, hsent, hmade⟩ := hfacts
    obtain ⟨hbuilt', hsent'⟩ := I_G_M_YI_2_ok hbuilt hmade
      (P.bigBitArray.received _ (P.message s u .cselbits)) fun row hrow n hn ↦ by
        rw [Session.message, P.bigBitArray.received_sent hrow (fun i hi ↦ ?_) hn,
          hsent row hrow]
        rw [hsent row hrow]
        exact Globals.cselbits_lt (P.uOt_dealt row hrow) hi
    exact ⟨_, rfl, inv_send ⟨hbuilt', hsum, hsent'⟩ hwires, Nat.lt_succ_self _⟩
  | csendsec =>
    obtain ⟨hbuilt, hsum, hsent⟩ := hfacts
    obtain ⟨hbuilt', hshared, hsent'⟩ := G_I_M_YI_3_ok hbuilt hsum hsent
      (P.bigByteArray.received _ (P.message s u .csendsec)) fun row hrow n hn ↦ by
        rw [Session.message]
        refine P.bigByteArray.received_sent hrow (fun i hi ↦ ?_) hn
        obtain ⟨mk, cs, -, -, -, hlab⟩ := hsent row hrow
        rw [hlab]
        exact Globals.maskLabels_lt _ _ _ _ hi
    exact ⟨_, rfl, inv_send ⟨hbuilt', hshared, hsent'⟩ hwires, Nat.lt_succ_self _⟩
  | yselbits =>
    obtain ⟨hbuilt, hshared, hsent⟩ := hfacts
    have hbit : ∀ row < P.globals.rowCount, ∀ col < P.globals.wColumnCount,
        ∀ i < P.globals.cellCount, u.yselbits row col i < 2 := by
      intro row hrow col hcol i hi
      obtain ⟨hS, hU⟩ := hshared row hrow i hi
      rw [hsent row hrow col hcol, Globals.yselbits_get hi, hU]
      refine xor_lt_two ((P.wOt_dealt row hrow col hcol).bit i hi) (xor_lt_two hS ?_)
      split <;> decide
    obtain ⟨s', hrun, hsent'⟩ := I_G_M_YI_3_ok hbuilt hshared
      (P.byColumn (P.bigBitArray.received _ (P.message s u .yselbits)))
      fun row hrow col hcol n hn ↦ by
        rw [Session.message, byColumn_received P.bigBitArray hrow hcol (hbit row hrow col hcol) hn,
          hsent row hrow col hcol]
    refine ⟨P.send s' u wires .maskedv, ?_, inv_send hsent' hwires, Nat.lt_succ_self _⟩
    show Option.map _ (P.I_G_M_YI_3 s _) = _
    rw [hrun]
    rfl
  | maskedv =>
    have hshares := G_I_M_YI_4_ok hfacts
      (P.byColumn (P.bigResidueArray.received _ (P.message s u .maskedv)))
      fun row hrow col hcol n hn ↦ by
        rw [Session.message]
        exact byColumn_received P.bigResidueArray hrow hcol (hfacts row hrow col hcol).1 hn
    exact ⟨_, rfl, inv_send hshares hwires, Nat.lt_succ_self _⟩
  | finished => exact absurd rfl hstage

/-! ## Steps and runs -/

/-- What has arrived is read, and the facts still hold. -/
private theorem read_ok {c : Config} (hI : Inv P c) (n : Nat) :
    ∃ d, P.step c n = (if d.filling.todo = [] then P.handle d else some d) ∧ Inv P d ∧
      d.stage = c.stage ∧
      ((c.wires c.stage.receiver).length ≤ n → d.filling.todo = []) := by
  obtain ⟨hfacts, hfilling, hidle⟩ := hI
  rw [← List.take_append_drop n (c.wires c.stage.receiver)] at hfilling
  obtain ⟨hof, hleft, hdone⟩ := hfilling.read
  let filling := (c.filling.read ((c.wires c.stage.receiver).take n)).1
  let wires := Function.update c.wires c.stage.receiver ((c.wires c.stage.receiver).drop n)
  let d : Config := { c with filling, wires }
  have hwire : wires c.stage.receiver = (c.wires c.stage.receiver).drop n :=
    Function.update_self ..
  refine ⟨d, ?_, ⟨hfacts, ?_, fun q hq ↦ ?_⟩, rfl, fun hn ↦ hdone (List.drop_eq_nil_of_le hn)⟩
  · rw [Session.step]
    dsimp only
    rw [hleft, List.nil_append]
  · show Filling.Of _ filling (wires c.stage.receiver)
    rw [hwire]
    exact hof
  · exact (Function.update_of_ne hq ..).trans (hidle q hq)

/-- When all arrays are full, nothing is on the wires. -/
private theorem wires_eq_nil {c : Config} (hI : Inv P c) (htodo : c.filling.todo = []) (q : Party) :
    c.wires q = [] := by
  by_cases hq : q = c.stage.receiver
  · subst hq
    exact (hI.filling.full htodo).2
  · exact hI.idle q hq

theorem inv_step {c c' : Config} {n : Nat} (hI : Inv P c) (h : P.step c n = some c') :
    Inv P c' := by
  obtain ⟨d, hstep, hId, -, -⟩ := read_ok hI n
  rw [hstep] at h
  split at h
  · next htodo =>
    have hstage : d.stage ≠ .finished := fun hstage ↦ by
      rw [Session.handle, hstage] at h
      cases h
    obtain ⟨c'', hrun, hI', -⟩ :=
      handle_ok hId.facts (hId.filling.full htodo).1 (wires_eq_nil hId htodo) hstage
    exact Option.some.inj (hrun.symm.trans h) ▸ hI'
  · exact Option.some.inj h ▸ hId

theorem inv_init {c : Config} (h : P.Init c) : Inv P c := by
  obtain ⟨s, u, hs, hu, rfl⟩ := h
  exact inv_send (Session.built_of_init hs hu) fun _ ↦ rfl

theorem inv_reachable {c : Config} (h : P.machine.Reachable c) : Inv P c :=
  h.invariant (fun _ ↦ inv_init) fun _ _ _ ↦ inv_step

/-- When all of a message arrives, its receiver handles it. -/
private theorem step_whole {c : Config} (hI : Inv P c) (hstage : c.stage ≠ .finished) :
    ∃ c', P.step c (c.wires c.stage.receiver).length = some c' ∧ Inv P c' ∧
      c'.stage.left < c.stage.left := by
  obtain ⟨d, hstep, hId, hsame, hdone⟩ := read_ok hI (c.wires c.stage.receiver).length
  have htodo := hdone (Nat.le_refl _)
  obtain ⟨c', hrun, hI', hlt⟩ :=
    handle_ok hId.facts (hId.filling.full htodo).1 (wires_eq_nil hId htodo) (hsame ▸ hstage)
  exact ⟨c', hstep.trans ((if_pos htodo).trans hrun), hI', hsame ▸ hlt⟩

/-- The servers can finish. -/
theorem exists_finished {c : Config} (hI : Inv P c) :
    ∃ ns c', P.machine.Run c ns c' ∧ c'.stage = .finished := by
  induction hk : c.stage.left using Nat.strong_induction_on generalizing c with
  | _ k ih =>
    by_cases hstage : c.stage = .finished
    · exact ⟨[], c, .nil c, hstage⟩
    · obtain ⟨c', hrun, hI', hlt⟩ := step_whole hI hstage
      obtain ⟨ns, c'', hr, hfin⟩ := ih _ (hk ▸ hlt) hI' rfl
      exact ⟨_ :: ns, c'', .cons hrun hr, hfin⟩

/-- From every configuration that a run reaches the servers can finish, however the bytes are
cut, and where they have finished their shares add up to the sum over the common identifiers. -/
theorem Session.shares_sum (P : Session) {c : Config} (hc : P.machine.Reachable c) :
    (∃ ns c', P.machine.Run c ns c' ∧ c'.stage = .finished) ∧
      (c.stage = .finished → ∀ row < P.globals.rowCount, ∀ col < P.globals.wColumnCount,
        out_S c row col + out_U c row col ≡ P.commonSum row col [ZMOD P.globals.modulus]) := by
  have hI := inv_reachable hc
  refine ⟨exists_finished hI, fun hstage ↦ ?_⟩
  have hfacts := hI.facts
  rw [hstage] at hfacts
  exact hfacts

/-! ## A small session -/

/-- Byte `j` of an array of bits. -/
private def packedByte (array : Nat → Nat) (j : Nat) : UInt8 :=
  .ofBitVec (BitVec.cast (by rw [List.length_ofFn]) (BitVec.ofBoolListLE
    (List.ofFn fun k : Fin 8 ↦ decide (array (j * 8 + k) = 1))))

/-- Eight bits to the byte. -/
def packedBits : BigArray fun v : Nat ↦ v < 2 where
  capacities len := [(len + 7) / 8]
  getBuffers len array := [List.ofFn fun j : Fin ((len + 7) / 8) ↦ packedByte array j]
  getValue _ buffers i := ((buffers.flatten.getD (i / 8) 0).toBitVec.getLsbD (i % 8)).toNat
  length_getBuffers len array := by rw [List.map_singleton, List.length_ofFn]
  getValue_getBuffers len array hvalid i hi := by
    have hbyte : i / 8 < (len + 7) / 8 := by omega
    have hbit : (packedByte array (i / 8)).toBitVec.getLsbD (i % 8) = decide (array i = 1) := by
      rw [packedByte, BitVec.getLsbD_cast, BitVec.getLsbD_ofBoolListLE, List.getD_eq_getElem _ _
        (by rw [List.length_ofFn]; exact Nat.mod_lt i (by decide)), List.getElem_ofFn]
      dsimp only
      rw [Nat.div_add_mod' i 8]
    rw [List.flatten_singleton, List.getD_eq_getElem _ _ (by rwa [List.length_ofFn]),
      List.getElem_ofFn, hbit]
    rcases Nat.lt_succ_iff_lt_or_eq.mp (hvalid i hi) with hzero | hone
    · rw [Nat.lt_one_iff.mp hzero]
      rfl
    · rw [hone]
      rfl

/-- One byte to the element. -/
def oneByteEach {α : Type} (valid : α → Prop) (toByte : α → UInt8) (ofByte : UInt8 → α)
    (h : ∀ v, valid v → ofByte (toByte v) = v) : BigArray valid where
  capacities len := [len]
  getBuffers len array := [List.ofFn fun i : Fin len ↦ toByte (array i)]
  getValue _ buffers i := ofByte (buffers.flatten.getD i 0)
  length_getBuffers len array := by rw [List.map_singleton, List.length_ofFn]
  getValue_getBuffers len array hvalid i hi := by
    rw [List.flatten_singleton, List.getD_eq_getElem _ _ (by rwa [List.length_ofFn]),
      List.getElem_ofFn]
    exact h _ (hvalid i hi)

/-- One row and one column, modulo 97, over the parameters of `smallTable`. -/
def smallGlobals : Globals where
  hashParams := smallTable.toHashParams
  modulus := 97
  rowCount := 1
  wColumnCount := 1
  modulus_pos := by decide

/-- Material for transfers modulo `m`. -/
def smallOt (α : Type) (toElement : Nat → α) (m : Nat) : OtCell α where
  s n e := toElement ((n + 3 * e) % m)
  b n := n % 2
  u n := toElement ((n + 3 * (n % 2)) % m)

theorem smallOt_dealt {α : Type} (toElement : Nat → α) (m otCount : Nat)
    {valid : α → Prop} (h : ∀ v, valid (toElement (v % m))) :
    (smallOt α toElement m).Dealt otCount valid where
  bit n _ := Nat.mod_lt n (by decide)
  selected _ _ := rfl
  value n _ e _ := h (n + 3 * e)

/-- S has the identifiers 0, 1 and 4, U the identifiers 1 and 2. -/
def smallSession : Session where
  globals := smallGlobals
  bigBitArray := packedBits
  bigByteArray := oneByteEach _ UInt8.ofNat UInt8.toNat fun v hv ↦ UInt8.toNat_ofNat_of_lt' hv
  bigResidueArray := oneByteEach _ (fun v ↦ UInt8.ofNat v.toNat) (fun b ↦ b.toNat) fun v hv ↦ by
    have hlt : v < 97 := hv.2
    rw [UInt8.toNat_ofNat_of_lt' (show v.toNat < 256 by omega), Int.toNat_of_nonneg hv.1]
  sOt _ := smallOt Nat id 32
  uOt _ := smallOt Nat id 256
  wOt _ _ := smallOt Int Nat.cast 97
  rows := [⟨0, fun _ ↦ 10⟩, ⟨1, fun _ ↦ 20⟩, ⟨4, fun _ ↦ 30⟩]
  groups _ := [1, 2]
  aBytes _ c k := UInt8.ofNat (3 * c + k)
  randbuf _ c k := UInt8.ofNat (5 * c + k)
  r _ _ c := c
  sOt_dealt _ _ := smallOt_dealt id 32 _ fun v ↦ Nat.mod_lt v (by decide)
  uOt_dealt _ _ := smallOt_dealt id 256 _ fun v ↦ Nat.mod_lt v (by decide)
  wOt_dealt _ _ _ _ := smallOt_dealt Nat.cast 97 _ fun v ↦
    ⟨Int.natCast_nonneg _, Int.ofNat_lt.mpr (Nat.mod_lt v (by decide))⟩
  rows_nonneg := by simp
  groups_nonneg := by simp

/-- The two servers of the small session finish with shares of `1 + 20 * 2 ^ 32`. -/
theorem shares_sum_smallSession : ∃ c, smallSession.machine.Reachable c ∧ c.stage = .finished ∧
    Session.out_S c 0 0 + Session.out_U c 0 0 ≡ 1 + 20 * 2 ^ 32 [ZMOD 97] := by
  obtain ⟨s, hs⟩ : ∃ s, smallSession.I_G_M_YI_0 smallSession.newServerS = some s :=
    Option.isSome_iff_exists.mp (by rfl)
  obtain ⟨u, hu⟩ : ∃ u, smallSession.G_I_M_YI_1 smallSession.newServerU = some u :=
    Option.isSome_iff_exists.mp (by rfl)
  have hstart : smallSession.machine.Reachable (smallSession.send s u (fun _ ↦ []) .selbits) :=
    ⟨_, [], ⟨s, u, hs, hu, rfl⟩, .nil _⟩
  obtain ⟨ns, c, hrun, hfin⟩ := (Session.shares_sum smallSession hstart).1
  have hc : smallSession.machine.Reachable c := ⟨_, ns, ⟨s, u, hs, hu, rfl⟩, hrun⟩
  exact ⟨c, hc, hfin, (Session.shares_sum smallSession hc).2 hfin 0 (by decide) 0 (by decide)⟩

end Safrn.Psi

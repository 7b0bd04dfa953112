import Mathlib.Algebra.BigOperators.Group.List.Basic
import Mathlib.Data.List.Nodup
import Mathlib.Data.Nat.ModEq
import Safrn.Base.Machine

/-!
# A secret is shared

Models `Share` (`dataowner/Share.cpp:26-92`). The sharer sends each other data owner a random
number and subtracts it from what it keeps; a data owner keeps what it receives. Shares are 32-bit
numbers, and the sum that is reduced may not fit; the shares of bits are bytes, and always do.
-/

namespace Safrn.Stats

open Safrn.Base

variable {ι : Type} [DecidableEq ι]

/-- What the parties of a run have in common: the data owners in the order of `forEachDataowner`,
what the sharer keeps when it sends a share, and the draw for each peer. -/
structure Share (ι : Type) where
  dataowners : List ι
  sharer : ι
  keep : ℕ → ℕ → ℕ
  randomModP : ι → ℕ

/-- The shares of the parties, and the messages that are sent but not received. -/
structure ShareState (ι : Type) where
  myShare : ι → ℕ
  initialised : ι → Bool
  completed : ι → Bool
  messages : List (ι × ℕ)

/-- What a party or the network does next. -/
inductive ShareAction (ι : Type)
  | init (self : ι)
  | deliver (i : ℕ)

namespace Share

/-- `SmallNum`, that is `uint32_t`. The difference is no more than the modulus and fits. -/
def keepSmallNum (modulus myShare sendShare : ℕ) : ℕ :=
  (myShare + (modulus - sendShare)) % 2 ^ 32 % modulus

/-- `Boolean_t`, that is `uint8_t`. -/
def keepBoolean (myShare sendShare : ℕ) : ℕ :=
  (myShare + sendShare) % 2 ^ 8 % 2

variable (S : Share ι)

/-- The body of `forEachDataowner` in `init`. -/
def sendShare (sent : ℕ × List (ι × ℕ)) (peer : ι) : ℕ × List (ι × ℕ) :=
  if peer = S.sharer then sent
  else (S.keep sent.1 (S.randomModP peer), sent.2 ++ [(peer, S.randomModP peer)])

/-- `init`. -/
def init (s : ShareState ι) (self : ι) : ShareState ι :=
  let initialised := Function.update s.initialised self true
  if self = S.sharer then
    let sent := S.dataowners.foldl S.sendShare (s.myShare self, [])
    { myShare := Function.update s.myShare self sent.1
      initialised := initialised
      completed := Function.update s.completed self true
      messages := s.messages ++ sent.2 }
  else { s with initialised := initialised }

/-- `handleReceive`. -/
def handleReceive (s : ShareState ι) (self : ι) (share : ℕ) : ShareState ι :=
  if self ≠ S.sharer then
    { s with
      myShare := Function.update s.myShare self share
      completed := Function.update s.completed self true }
  else s

/-- Each party is initialised once; a message that is under way can arrive at any time. -/
def step (s : ShareState ι) : ShareAction ι → Option (ShareState ι)
  | .init self => if s.initialised self then none else some (S.init s self)
  | .deliver i => s.messages[i]?.map fun message ↦
      S.handleReceive { s with messages := s.messages.eraseIdx i } message.1 message.2

/-- The sharer starts with the secret. -/
def machine (secret : ℕ) : Machine (ShareState ι) (ShareAction ι) :=
  .ofStep (fun s ↦ s.myShare S.sharer = secret ∧ s.messages = [] ∧
    ∀ p, s.initialised p = false ∧ s.completed p = false) S.step

/-- All that the sharer sent is received. -/
def Delivered (s : ShareState ι) : Prop := s.initialised S.sharer = true ∧ s.messages = []

/-! ### What the parties hold -/

/-- The peers that are sent a share. -/
def others : List ι := S.dataowners.filter (· ≠ S.sharer)

/-- What the sharer is left with. -/
def kept (secret : ℕ) : ℕ :=
  S.others.foldl (fun share peer ↦ S.keep share (S.randomModP peer)) secret

variable {S}

private theorem foldl_sendShare (peers : List ι) (sent : ℕ × List (ι × ℕ)) :
    peers.foldl S.sendShare sent =
      ((peers.filter (· ≠ S.sharer)).foldl
          (fun share peer ↦ S.keep share (S.randomModP peer)) sent.1,
        sent.2 ++ (peers.filter (· ≠ S.sharer)).map fun peer ↦ (peer, S.randomModP peer)) := by
  induction peers generalizing sent with
  | nil => simp
  | cons peer peers ih =>
    rw [List.foldl_cons, ih]
    by_cases hpeer : peer = S.sharer
    · simp [sendShare, hpeer]
    · simp [sendShare, hpeer]

/-- What holds at any time: a share that is sent is under way or received. -/
structure Inv (S : Share ι) (secret : ℕ) (s : ShareState ι) : Prop where
  before (h : s.initialised S.sharer = false) : s.myShare S.sharer = secret ∧ s.messages = []
  kept (h : s.initialised S.sharer = true) : s.myShare S.sharer = S.kept secret
  sent (h : s.initialised S.sharer = true) (p : ι) (hp : p ∈ S.others) :
    (p, S.randomModP p) ∈ s.messages ∨ s.myShare p = S.randomModP p ∧ s.completed p = true
  drawn (message : ι × ℕ) (hmessage : message ∈ s.messages) :
    message.1 ≠ S.sharer ∧ message.2 = S.randomModP message.1

variable {secret : ℕ} {s t : ShareState ι}

private theorem inv_init (h : S.Inv secret s) {self : ι} (hself : s.initialised self = false) :
    S.Inv secret (S.init s self) := by
  by_cases heq : self = S.sharer
  · subst heq
    obtain ⟨hshare, hmessages⟩ := h.before hself
    simp only [init, ↓reduceIte, foldl_sendShare, hshare, hmessages]
    refine ⟨?_, ?_, ?_, ?_⟩
    · simp
    · simp [Share.kept, others]
    · intro _ p hp
      left
      simpa [others] using hp
    · intro message hmessage
      obtain ⟨p, hp, rfl⟩ := List.mem_map.mp (by simpa only [List.nil_append] using hmessage)
      exact ⟨by simpa using (List.mem_filter.mp hp).2, rfl⟩
  · have hsharer : Function.update s.initialised self true S.sharer = s.initialised S.sharer :=
      Function.update_of_ne (Ne.symm heq) _ _
    simp only [init, if_neg heq]
    exact ⟨fun hs ↦ h.before (hsharer ▸ hs), fun hs ↦ h.kept (hsharer ▸ hs),
      fun hs ↦ h.sent (hsharer ▸ hs), h.drawn⟩

private theorem inv_deliver (h : S.Inv secret s) {i : ℕ} {message : ι × ℕ}
    (hmessage : s.messages[i]? = some message) :
    S.Inv secret (S.handleReceive { s with messages := s.messages.eraseIdx i }
      message.1 message.2) := by
  obtain ⟨hpeer, hdraw⟩ := h.drawn message (List.mem_of_getElem? hmessage)
  simp only [handleReceive, if_pos hpeer]
  refine ⟨fun hs ↦ ?_, fun hs ↦ ?_, fun hs p hp ↦ ?_, fun m hm ↦ ?_⟩
  · rw [(h.before hs).2] at hmessage
    simp at hmessage
  · simp only [Function.update_of_ne hpeer.symm]
    exact h.kept hs
  · by_cases hpm : p = message.1
    · right
      simp [hpm, hdraw]
    · simp only [Function.update_of_ne hpm]
      apply (h.sent hs p hp).imp_left
      intro hmem
      obtain ⟨j, hj⟩ := List.mem_iff_getElem?.mp hmem
      apply List.mem_eraseIdx_iff_getElem?.mpr
      refine ⟨j, ?_, hj⟩
      rintro rfl
      rw [hmessage] at hj
      cases hj
      exact hpm rfl
  · exact h.drawn m (List.mem_of_mem_eraseIdx hm)

theorem Inv.step (h : S.Inv secret s) {a : ShareAction ι} (hstep : S.step s a = some t) :
    S.Inv secret t := by
  cases a with
  | init self =>
    obtain ⟨hself, heq⟩ := Option.ite_none_left_eq_some.mp hstep
    cases heq
    exact inv_init h (Bool.eq_false_iff.mpr hself)
  | deliver i =>
    obtain ⟨message, hmessage, rfl⟩ := Option.map_eq_some_iff.mp hstep
    exact inv_deliver h hmessage

/-- Whatever the order of the deliveries. -/
theorem inv_of_reachable (h : (S.machine secret).Reachable s) : S.Inv secret s := by
  apply h.invariant
  · rintro s ⟨hshare, hmessages, hstart⟩
    refine ⟨fun _ ↦ ⟨hshare, hmessages⟩, fun hs ↦ ?_, fun hs ↦ ?_, fun m hm ↦ ?_⟩
    · rw [(hstart S.sharer).1] at hs
      cases hs
    · rw [(hstart S.sharer).1] at hs
      cases hs
    · rw [hmessages] at hm
      cases hm
  · intro s a t hs
    exact hs.step

/-- What the parties hold when everything is delivered. -/
theorem delivered_myShare (h : (S.machine secret).Reachable s) (hdelivered : S.Delivered s) :
    s.myShare S.sharer = S.kept secret ∧
      ∀ p ∈ S.others, s.myShare p = S.randomModP p ∧ s.completed p = true := by
  have hinv := inv_of_reachable h
  refine ⟨hinv.kept hdelivered.1, fun p hp ↦ ?_⟩
  apply (hinv.sent hdelivered.1 p hp).resolve_left
  rw [hdelivered.2]
  exact List.not_mem_nil

private theorem handleReceive_fields (self : ι) (share : ℕ) :
    (S.handleReceive s self share).messages = s.messages ∧
      (S.handleReceive s self share).initialised = s.initialised := by
  unfold handleReceive
  split <;> exact ⟨rfl, rfl⟩

/-- Everything can be delivered. -/
private theorem exists_run_delivered (secret : ℕ) (hs : s.initialised S.sharer = true) :
    ∃ as t, (S.machine secret).Run s as t ∧ S.Delivered t := by
  generalize hmessages : s.messages = messages
  induction messages generalizing s with
  | nil => exact ⟨[], s, .nil s, hs, hmessages⟩
  | cons message messages ih =>
    let next := S.handleReceive { s with messages := s.messages.eraseIdx 0 } message.1 message.2
    have hstep : S.step s (.deliver 0) = some next := by
      simp [step, hmessages, next]
    have hfields := handleReceive_fields (S := S)
      (s := { s with messages := s.messages.eraseIdx 0 }) message.1 message.2
    have hinit : next.initialised S.sharer = true := by
      rw [hfields.2]
      exact hs
    have hrest : next.messages = messages := by
      rw [hfields.1, hmessages]
      rfl
    obtain ⟨as, t, hrun, hdelivered⟩ := ih hinit hrest
    exact ⟨_, t, .cons hstep hrun, hdelivered⟩

theorem exists_delivered (S : Share ι) (secret : ℕ) :
    ∃ s, (S.machine secret).Reachable s ∧ S.Delivered s := by
  let start : ShareState ι := ⟨fun _ ↦ secret, fun _ ↦ false, fun _ ↦ false, []⟩
  have hstep : S.step start (.init S.sharer) = some (S.init start S.sharer) := rfl
  have hinit : (S.init start S.sharer).initialised S.sharer = true := by
    simp [init]
  obtain ⟨as, t, hrun, hdelivered⟩ := exists_run_delivered secret hinit
  exact ⟨t, ⟨start, _, ⟨rfl, rfl, fun _ ↦ ⟨rfl, rfl⟩⟩, .cons hstep hrun⟩, hdelivered⟩

/-! ### What the shares add up to -/

private theorem perm_sharer_others (hnodup : S.dataowners.Nodup)
    (hsharer : S.sharer ∈ S.dataowners) :
    S.dataowners.Perm (S.sharer :: S.others) := by
  have hfilter := List.filter_append_perm (· = S.sharer) S.dataowners
  have hone : S.dataowners.filter (· = S.sharer) = [S.sharer] := by
    rw [List.filter_eq, hnodup.count, if_pos hsharer]
    rfl
  rw [hone] at hfilter
  simpa [others] using hfilter.symm

/-- The sum of all shares when everything is delivered. -/
theorem delivered_sum (hnodup : S.dataowners.Nodup) (hsharer : S.sharer ∈ S.dataowners)
    (h : (S.machine secret).Reachable s) (hdelivered : S.Delivered s) :
    (S.dataowners.map s.myShare).sum = S.kept secret + (S.others.map S.randomModP).sum := by
  obtain ⟨hself, hrest⟩ := delivered_myShare h hdelivered
  rw [((perm_sharer_others hnodup hsharer).map _).sum_eq, List.map_cons, List.sum_cons, hself]
  congr 2
  apply List.map_congr_left
  intro p hp
  exact (hrest p hp).1

theorem delivered_lt {q : ℕ} (hkept : S.kept secret < q) (hdraws : ∀ p, S.randomModP p < q)
    (h : (S.machine secret).Reachable s) (hdelivered : S.Delivered s) (p : ι)
    (hp : p ∈ S.dataowners) : s.myShare p < q := by
  obtain ⟨hself, hrest⟩ := delivered_myShare h hdelivered
  by_cases hps : p = S.sharer
  · rwa [hps, hself]
  · rw [(hrest p (List.mem_filter.mpr ⟨hp, by simpa using hps⟩)).1]
    exact hdraws p

/-! ### Bits -/

/-- The protocol for bits. -/
def boolean (dataowners : List ι) (sharer : ι) (draws : ι → ℕ) : Share ι :=
  ⟨dataowners, sharer, keepBoolean, draws⟩

omit [DecidableEq ι] in
private theorem foldl_keepBoolean (peers : List ι) (draws : ι → ℕ) {share : ℕ} (hshare : share < 2)
    (hdraws : ∀ p, draws p < 2) :
    let kept := peers.foldl (fun share peer ↦ keepBoolean share (draws peer)) share
    kept < 2 ∧ kept + (peers.map draws).sum ≡ share [MOD 2] := by
  induction peers generalizing share with
  | nil => exact ⟨hshare, rfl⟩
  | cons peer peers ih =>
    have hdraw := hdraws peer
    have hkeep : keepBoolean share (draws peer) = (share + draws peer) % 2 := by
      unfold keepBoolean
      omega
    obtain ⟨hlt, hmod⟩ := ih (by omega : keepBoolean share (draws peer) < 2)
    refine ⟨hlt, ?_⟩
    simp only [List.foldl_cons, List.map_cons, List.sum_cons]
    unfold Nat.ModEq at hmod ⊢
    omega

/-- Shares of bits are bits, and add up to the secret, however they are delivered. -/
theorem boolean_delivered {dataowners : List ι} (hnodup : dataowners.Nodup) {sharer : ι}
    (hsharer : sharer ∈ dataowners) {draws : ι → ℕ} (hdraws : ∀ p, draws p < 2)
    (hsecret : secret < 2) (h : ((boolean dataowners sharer draws).machine secret).Reachable s)
    (hdelivered : (boolean dataowners sharer draws).Delivered s) :
    (∀ p ∈ dataowners, s.myShare p < 2) ∧ (dataowners.map s.myShare).sum % 2 = secret := by
  obtain ⟨hlt, hmod⟩ := foldl_keepBoolean (boolean dataowners sharer draws).others draws hsecret
    hdraws
  refine ⟨delivered_lt hlt hdraws h hdelivered, ?_⟩
  have hsum : (dataowners.map s.myShare).sum = _ := delivered_sum hnodup hsharer h hdelivered
  rw [hsum]
  exact Nat.mod_eq_of_modEq hmod hsecret

/-! ### Numbers -/

/-- The protocol for numbers. -/
def smallNum (dataowners : List ι) (sharer : ι) (modulus : ℕ) (draws : ι → ℕ) : Share ι :=
  ⟨dataowners, sharer, keepSmallNum modulus, draws⟩

/-- What is kept and what is sent, added up. -/
def total (modulus : ℕ) (draws : ι → ℕ) (peers : List ι) (share : ℕ) : ℕ :=
  peers.foldl (fun share peer ↦ keepSmallNum modulus share (draws peer)) share +
    (peers.map draws).sum

variable {modulus share : ℕ} {draws : ι → ℕ}

omit [DecidableEq ι] in
theorem total_cons (peer : ι) (peers : List ι) :
    total modulus draws (peer :: peers) share =
      draws peer + total modulus draws peers (keepSmallNum modulus share (draws peer)) := by
  simp only [total, List.foldl_cons, List.map_cons, List.sum_cons]
  omega

omit [DecidableEq ι] in
private theorem total_congr {draws' : ι → ℕ} {peers : List ι}
    (h : ∀ p ∈ peers, draws p = draws' p) :
    total modulus draws peers share = total modulus draws' peers share := by
  induction peers generalizing share with
  | nil => rfl
  | cons peer peers ih =>
    rw [total_cons, total_cons, h peer List.mem_cons_self,
      ih fun p hp ↦ h p (List.mem_cons_of_mem _ hp)]

theorem keepSmallNum_lt (hm : 0 < modulus) (share draw : ℕ) :
    keepSmallNum modulus share draw < modulus :=
  Nat.mod_lt _ hm

/-- The sum fits. -/
private theorem keepSmallNum_modEq {draw : ℕ} (hdraw : draw ≤ modulus)
    (hfits : share + (modulus - draw) < 2 ^ 32) :
    draw + keepSmallNum modulus share draw ≡ share [MOD modulus] := by
  rw [keepSmallNum, Nat.mod_eq_of_lt hfits]
  have hsum : draw + (share + (modulus - draw)) = share + modulus := by omega
  calc draw + (share + (modulus - draw)) % modulus
    _ ≡ draw + (share + (modulus - draw)) [MOD modulus] := (Nat.mod_modEq _ _).add_left draw
    _ ≡ share [MOD modulus] := by rw [hsum]; exact Nat.add_modulus_modEq_iff.mpr rfl

/-- The sum does not fit. -/
private theorem keepSmallNum_zero (hshare : share < modulus) (hm : modulus < 2 ^ 32)
    (hover : 2 ^ 32 ≤ share + modulus) :
    keepSmallNum modulus share 0 + 2 ^ 32 = share + modulus := by
  unfold keepSmallNum
  have hwrap : (share + (modulus - 0)) % 2 ^ 32 = share + modulus - 2 ^ 32 := by omega
  rw [hwrap, Nat.mod_eq_of_lt (by omega)]
  omega

omit [DecidableEq ι] in
/-- No sum overflows up to a modulus of `2 ^ 31`. -/
theorem total_modEq_of_le (hm : modulus ≤ 2 ^ 31) (hshare : share < modulus)
    (hdraws : ∀ p, draws p < modulus) (peers : List ι) :
    total modulus draws peers share ≡ share [MOD modulus] := by
  induction peers generalizing share with
  | nil => rfl
  | cons peer peers ih =>
    have hdraw := hdraws peer
    rw [total_cons]
    calc draws peer + total modulus draws peers (keepSmallNum modulus share (draws peer))
      _ ≡ draws peer + keepSmallNum modulus share (draws peer) [MOD modulus] :=
        (ih (keepSmallNum_lt (by omega) _ _)).add_left _
      _ ≡ share [MOD modulus] := keepSmallNum_modEq (by omega) (by omega)

/-- The draw for one more peer is chosen. -/
private theorem exists_draws_cons (share : ℕ) {peer : ι} {peers : List ι} (hpeer : peer ∉ peers)
    (hdraws : ∀ p, draws p < modulus) {draw : ℕ} (hdraw : draw < modulus) :
    ∃ draws' : ι → ℕ, (∀ p, draws' p < modulus) ∧ total modulus draws' (peer :: peers) share =
      draw + total modulus draws peers (keepSmallNum modulus share draw) := by
  refine ⟨Function.update draws peer draw, fun p ↦ ?_, ?_⟩
  · by_cases hp : p = peer
    · rw [hp, Function.update_self]
      exact hdraw
    · rw [Function.update_of_ne hp]
      exact hdraws p
  · rw [total_cons, Function.update_self]
    congr 1
    apply total_congr
    intro p hp
    apply Function.update_of_ne
    rintro rfl
    exact hpeer hp

/-- Whatever the modulus there are draws that let no sum overflow. -/
private theorem exists_draws (hm : modulus < 2 ^ 32) {peers : List ι} (hnodup : peers.Nodup)
    (hshare : share < modulus) :
    ∃ draws : ι → ℕ, (∀ p, draws p < modulus) ∧
      total modulus draws peers share ≡ share [MOD modulus] := by
  induction peers generalizing share with
  | nil => exact ⟨fun _ ↦ 0, fun _ ↦ Nat.zero_lt_of_lt hshare, rfl⟩
  | cons peer peers ih =>
    obtain ⟨hpeer, hpeers⟩ := List.nodup_cons.mp hnodup
    obtain ⟨draws, hdraws, htotal⟩ := ih hpeers (by omega : 0 < modulus)
    obtain ⟨draws', hdraws', heq⟩ := exists_draws_cons share hpeer hdraws hshare
    have hkeep : keepSmallNum modulus share share = 0 := by
      rw [keepSmallNum, Nat.add_sub_cancel' (Nat.le_of_lt hshare), Nat.mod_eq_of_lt hm,
        Nat.mod_self]
    rw [hkeep] at heq
    exact ⟨draws', hdraws', heq ▸ htotal.add_left share⟩

/-- A first draw of zero lets the sum overflow, and no later one makes up for it. -/
private theorem exists_wrong_of_over (hm : modulus < 2 ^ 32) {peers : List ι}
    (hnodup : peers.Nodup) (hpeers : peers ≠ []) (hshare : share < modulus)
    (hover : 2 ^ 32 ≤ share + modulus) :
    ∃ draws : ι → ℕ, (∀ p, draws p < modulus) ∧
      ¬total modulus draws peers share ≡ share [MOD modulus] := by
  cases peers with
  | nil => exact absurd rfl hpeers
  | cons peer peers =>
    obtain ⟨hpeer, hpeers⟩ := List.nodup_cons.mp hnodup
    have hkeep := keepSmallNum_zero hshare hm hover
    have hlt := keepSmallNum_lt (Nat.zero_lt_of_lt hshare) share 0
    obtain ⟨draws, hdraws, htotal⟩ := exists_draws hm hpeers hlt
    obtain ⟨draws', hdraws', heq⟩ :=
      exists_draws_cons share hpeer hdraws (Nat.zero_lt_of_lt hshare)
    rw [Nat.zero_add] at heq
    refine ⟨draws', hdraws', fun hmod ↦ ?_⟩
    rw [heq] at hmod
    have := Nat.ModEq.eq_of_lt_of_lt (htotal.symm.trans hmod) hlt hshare
    omega

/-- Where a sum can overflow, some draws give a wrong total. -/
private theorem exists_wrong (hm : modulus < 2 ^ 32) {peers : List ι} (hnodup : peers.Nodup)
    (hshare : share < modulus) (hmodulus : 2 ^ 31 < modulus)
    (hpeers : 2 ≤ peers.length ∨ peers.length = 1 ∧ 2 ^ 32 ≤ share + modulus) :
    ∃ draws : ι → ℕ, (∀ p, draws p < modulus) ∧
      ¬total modulus draws peers share ≡ share [MOD modulus] := by
  by_cases hover : 2 ^ 32 ≤ share + modulus
  · apply exists_wrong_of_over hm hnodup _ hshare hover
    rintro rfl
    simp at hpeers
  · cases peers with
    | nil => simp at hpeers
    | cons peer peers =>
      -- The first draw leaves the sharer with `modulus - 1`.
      obtain ⟨hpeer, hnodup⟩ := List.nodup_cons.mp hnodup
      have hne : peers ≠ [] := by
        rintro rfl
        simp at hpeers
        omega
      have hkeep : keepSmallNum modulus share (share + 1) = modulus - 1 := by
        have hsub : share + (modulus - (share + 1)) = modulus - 1 := by omega
        rw [keepSmallNum, hsub, Nat.mod_eq_of_lt (by omega), Nat.mod_eq_of_lt (by omega)]
      obtain ⟨draws, hdraws, hwrong⟩ := exists_wrong_of_over hm hnodup hne
        (by omega : modulus - 1 < modulus) (by omega)
      obtain ⟨draws', hdraws', heq⟩ :=
        exists_draws_cons share hpeer hdraws (by omega : share + 1 < modulus)
      rw [hkeep] at heq
      refine ⟨draws', hdraws', fun hmod ↦ hwrong ?_⟩
      rw [heq] at hmod
      apply Nat.ModEq.add_left_cancel' (share + 1)
      have hsum : share + 1 + (modulus - 1) = share + modulus := by omega
      rw [hsum]
      exact hmod.trans (Nat.add_modulus_modEq_iff.mpr rfl).symm

omit [DecidableEq ι] in
private theorem foldl_keepSmallNum_lt (hshare : share < modulus) (peers : List ι) :
    peers.foldl (fun share peer ↦ keepSmallNum modulus share (draws peer)) share < modulus := by
  induction peers generalizing share with
  | nil => exact hshare
  | cons peer peers ih => exact ih (keepSmallNum_lt (Nat.zero_lt_of_lt hshare) _ _)

/-- The shares of a delivered run are residues, and their sum is what was kept and sent. -/
private theorem smallNum_delivered {dataowners : List ι} (hnodup : dataowners.Nodup) {sharer : ι}
    (hsharer : sharer ∈ dataowners) (hsecret : secret < modulus) (hdraws : ∀ p, draws p < modulus)
    (h : ((smallNum dataowners sharer modulus draws).machine secret).Reachable s)
    (hdelivered : (smallNum dataowners sharer modulus draws).Delivered s) :
    (∀ p ∈ dataowners, s.myShare p < modulus) ∧ (dataowners.map s.myShare).sum =
      total modulus draws (dataowners.filter (· ≠ sharer)) secret :=
  ⟨delivered_lt (foldl_keepSmallNum_lt hsecret _) hdraws h hdelivered,
    delivered_sum hnodup hsharer h hdelivered⟩

omit [DecidableEq ι] in
private theorem total_modEq (hsecret : secret < modulus)
    (hdraws : ∀ p, draws p < modulus) {peers : List ι}
    (h : peers.length = 0 ∨ modulus ≤ 2 ^ 31 ∨ peers.length = 1 ∧ secret + modulus < 2 ^ 32) :
    total modulus draws peers secret ≡ secret [MOD modulus] := by
  obtain hnone | hle | ⟨hone, hfits⟩ := h
  · rw [List.length_eq_zero_iff.mp hnone]
    rfl
  · exact total_modEq_of_le hle hsecret hdraws peers
  · obtain ⟨peer, rfl⟩ := List.length_eq_one_iff.mp hone
    have hdraw := hdraws peer
    rw [total_cons]
    exact keepSmallNum_modEq (by omega) (by omega)

/-- The shares are residues and add up to the secret, whatever is drawn and in whatever order the
messages arrive, exactly when there is no other data owner, or the modulus is at most `2 ^ 31`, or
there is one other and the secret and the modulus add up to less than `2 ^ 32`. -/
theorem smallNum_delivered_iff {dataowners : List ι} (hnodup : dataowners.Nodup) {sharer : ι}
    (hsharer : sharer ∈ dataowners) (hm : modulus < 2 ^ 32) (hsecret : secret < modulus) :
    (∀ draws : ι → ℕ, (∀ p, draws p < modulus) → ∀ s,
      ((smallNum dataowners sharer modulus draws).machine secret).Reachable s →
      (smallNum dataowners sharer modulus draws).Delivered s →
      (∀ p ∈ dataowners, s.myShare p < modulus) ∧
        (dataowners.map s.myShare).sum % modulus = secret) ↔
      dataowners.length = 1 ∨ modulus ≤ 2 ^ 31 ∨
        dataowners.length = 2 ∧ secret + modulus < 2 ^ 32 := by
  have hlength : dataowners.length = (dataowners.filter (· ≠ sharer)).length + 1 :=
    (perm_sharer_others (S := smallNum dataowners sharer modulus fun _ ↦ 0) hnodup
      hsharer).length_eq
  constructor
  · intro hall
    by_contra hnot
    have hpeers : (dataowners.filter (· ≠ sharer)).Nodup := hnodup.filter _
    obtain ⟨draws, hdraws, hwrong⟩ := exists_wrong hm hpeers hsecret (by omega) (by omega)
    obtain ⟨s, hs, hdelivered⟩ := exists_delivered (smallNum dataowners sharer modulus draws) secret
    have hsum := (hall draws hdraws s hs hdelivered).2
    rw [(smallNum_delivered hnodup hsharer hsecret hdraws hs hdelivered).2] at hsum
    apply hwrong
    rw [Nat.ModEq, hsum, Nat.mod_eq_of_lt hsecret]
  · intro h draws hdraws s hs hdelivered
    obtain ⟨hlt, hsum⟩ := smallNum_delivered hnodup hsharer hsecret hdraws hs hdelivered
    have htotal : total modulus draws (dataowners.filter (· ≠ sharer)) secret ≡ secret
        [MOD modulus] := total_modEq hsecret hdraws (by omega)
    exact ⟨hlt, hsum ▸ Nat.mod_eq_of_modEq htotal hsecret⟩

/-- Three data owners and a modulus of 16 bits. -/
theorem smallNum_delivered_three :
    ∃ s, ((smallNum [0, 1, 2] (0 : Fin 3) 65521 fun _ ↦ 7).machine 5).Reachable s ∧
      (smallNum [0, 1, 2] (0 : Fin 3) 65521 fun _ ↦ 7).Delivered s ∧
      (∀ p ∈ [0, 1, 2], s.myShare p < 65521) ∧ ([0, 1, 2].map s.myShare).sum % 65521 = 5 := by
  obtain ⟨s, hs, hdelivered⟩ := exists_delivered (smallNum [0, 1, 2] (0 : Fin 3) 65521 fun _ ↦ 7) 5
  have hall : ∀ draws : Fin 3 → ℕ, (∀ p, draws p < 65521) → ∀ s,
      ((smallNum [0, 1, 2] 0 65521 draws).machine 5).Reachable s →
      (smallNum [0, 1, 2] 0 65521 draws).Delivered s →
      (∀ p ∈ [0, 1, 2], s.myShare p < 65521) ∧ ([0, 1, 2].map s.myShare).sum % 65521 = 5 := by
    apply (smallNum_delivered_iff (by decide) (by decide) (by decide) (by decide)).mpr
    decide
  exact ⟨s, hs, hdelivered, hall _ (fun _ ↦ by decide) s hs hdelivered⟩

/-- Two data owners share `2` modulo `2 ^ 32 - 1`, and `0` is drawn: `2` and `2 ^ 32 - 1` add up to
`1` in 32 bits. -/
theorem smallNum_overflow :
    ¬∀ s, ((smallNum [0, 1] (0 : Fin 2) (2 ^ 32 - 1) fun _ ↦ 0).machine 2).Reachable s →
      (smallNum [0, 1] (0 : Fin 2) (2 ^ 32 - 1) fun _ ↦ 0).Delivered s →
      ([0, 1].map s.myShare).sum % (2 ^ 32 - 1) = 2 := by
  intro hall
  obtain ⟨s, hs, hdelivered⟩ :=
    exists_delivered (smallNum [0, 1] (0 : Fin 2) (2 ^ 32 - 1) fun _ ↦ 0) 2
  have hsum : ([0, 1].map s.myShare).sum = _ := delivered_sum (by decide) (by decide) hs hdelivered
  have hright := hall s hs hdelivered
  rw [hsum] at hright
  exact absurd hright (by decide)

end Share

end Safrn.Stats

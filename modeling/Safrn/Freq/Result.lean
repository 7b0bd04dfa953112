import Safrn.Freq.Invariant
import Mathlib.Algebra.BigOperators.Pi
import Mathlib.Tactic.Ring

/-!
# The result of the frequency protocol

Every schedule ends, because each step lowers a measure, and where it ends every back server
has been heard once and the front server has the sum of the true frequencies.
-/

namespace Safrn.Freq

open Safrn.Base

variable {rowCount : Nat}

namespace Query

variable {q : Query rowCount}

/-- The invariant holds at the start. -/
theorem inv_start : q.Inv q.start := by
  have h3 := q.three_le
  constructor
  · exact fun p _ ↦ trivial
  · exact fun _ ↦ ⟨rfl, fun p _ ↦ id⟩
  · exact nofun
  · exact nofun
  · exact nofun
  · exact nofun
  · exact fun hx ↦ absurd hx Nat.zero_ne_one
  · rfl
  · simp [start, Peer.contributed, WaState.contributed]
  · have hone : ∑ p ∈ q.gs, ((q.start).peers p).unreceived = ∑ p ∈ q.gs, (1 : Int) := rfl
    rw [hone]
    simp only [start, gs, localParty, WaState.unreceived, Finset.sum_const, Nat.card_Ico,
      nsmul_eq_mul, mul_one]
    omega
  · intro hz
    simp only [start] at hz
    omega

/-- The invariant is kept by every step. -/
theorem Inv.step {s t : State rowCount} {a : Action rowCount} (h : q.Inv s)
    (hs : q.step s a = some t) : q.Inv t := by
  rcases step_cases hs with ⟨p, hp, hg⟩ | hw
  · exact h.gStep hp hg
  · exact h.wStep hw

/-! ### Every schedule ends -/

end Query

/-- Steps that the answer of a back server still takes. -/
def Answer.size : Answer rowCount → Nat
  | .pending => 2
  | .sent _ => 1
  | .received => 0

/-- Steps that the summands of a back server still take, with the wake-up they may fire. -/
def Summands.size : Summands rowCount → Nat
  | .pending => 5
  | .sent _ => 4
  | .read _ => 3
  | .set => 2
  | .counted => 0

/-- Steps that a back server still takes. -/
def Peer.size : Peer rowCount → Nat
  | .asked => 8
  | .active _ answer summands => answer.size + summands.size

/-- Steps that the last back server still takes. -/
def WaState.size : WaState rowCount → Nat
  | .asked => 6
  | .opened => 5
  | .set => 4
  | .counted => 3
  | .waiting => 2
  | .sent _ => 1
  | .received => 0
  | .failed => 0

namespace Query

variable {q : Query rowCount}

variable (q) in
/-- The measure that every step lowers. -/
def size (s : State rowCount) : Nat :=
  ∑ p ∈ q.gs, (s.peers p).size + s.wa.size + s.wakeUps

/-- Replacing a back server exchanges its part of the measure. -/
theorem size_setPeer (s : State rowCount) {p : Nat} (hp : q.IsG p) (v : Peer rowCount)
    (share' : Option (WfShare rowCount)) (wakeUps' : Nat) :
    q.size (Query.setPeer { s with wfShare := share', wakeUps := wakeUps' } p v) +
      (s.peers p).size + s.wakeUps = q.size s + v.size + wakeUps' := by
  have h := sum_update q.gs s.peers (fun _ peer ↦ peer.size) (mem_gs.mpr hp) v
  simp only [size, Query.setPeer]
  omega

/-- A later state of one back server lowers the measure. -/
theorem size_setPeer_lt (s : State rowCount) {p : Nat} (hp : q.IsG p) {v : Peer rowCount}
    (hv : v.size < (s.peers p).size) : q.size (Query.setPeer s p v) < q.size s := by
  have h : q.size (Query.setPeer s p v) + (s.peers p).size + s.wakeUps =
      q.size s + v.size + s.wakeUps := size_setPeer s hp v s.wfShare s.wakeUps
  omega

@[simp] theorem size_queryDone (s : State rowCount) (out : Column rowCount) :
    q.size (q.queryDone s out) = q.size s := by
  simp only [size, queryDone_peers, queryDone_wa, queryDone_wakeUps]

/-- Looking at the countdown lowers the measure of a handler that is not done. -/
theorem size_check_lt {s : State rowCount} (share : WfShare rowCount) (hwa : 2 ≤ s.wa.size)
    {wakeUps' : Nat}
    (hw : wakeUps' + (if s.wa.size = 2 then 1 else 0) ≤ s.wakeUps) :
    q.size (q.check { s with wakeUps := wakeUps' } share) < q.size s := by
  unfold Query.check
  split
  · have hsz : (WaState.waiting : WaState rowCount).size = 2 := rfl
    simp only [size]
    split at hw <;> omega
  · split
    · have hsz : (WaState.failed : WaState rowCount).size = 0 := rfl
      simp only [size]
      omega
    · next out _ =>
      have hsz : (WaState.sent out).size = 1 := rfl
      simp only [size]
      omega

/-- Every step lowers the measure. -/
theorem size_lt {s t : State rowCount} {a : Action rowCount} (hs : q.step s a = some t) :
    q.size t < q.size s := by
  rcases step_cases hs with ⟨p, hp, hg⟩ | hw
  · generalize hpeer : s.peers p = peer at hg
    cases hg with
    | request x hx =>
      refine size_setPeer_lt s hp ?_
      simp only [hpeer, Peer.size, Answer.size, Summands.size]
      omega
    | answer x w =>
      refine size_setPeer_lt s hp ?_
      simp only [hpeer, Peer.size, Answer.size]
      omega
    | send x f =>
      refine size_setPeer_lt s hp ?_
      simp only [hpeer, Peer.size, Summands.size]
      omega
    | read x f out =>
      have h := size_setPeer s hp (.active x f (.read fun i ↦ q.modulus - out i))
        (some (q.getWfShare s)) s.wakeUps
      simp only [hpeer, Peer.size, Summands.size] at h
      omega
    | set x f wgColumn share hsh =>
      have h := size_setPeer s hp (.active x f .set) (some { share with
        results := Function.update share.results (p - 2) (some wgColumn) }) s.wakeUps
      simp only [hpeer, Peer.size, Summands.size] at h
      omega
    | count x f share hsh =>
      -- counting may fire a wake-up, which is why it takes two off the summands
      have h := size_setPeer s hp (.active x f .counted)
        (some { share with countdown := share.countdown - 1 })
        (if share.countdown - 1 = 0 ∧ share.waPipeline then s.wakeUps + 1 else s.wakeUps)
      have hle : (if share.countdown - 1 = 0 ∧ share.waPipeline then s.wakeUps + 1
          else s.wakeUps) ≤ s.wakeUps + 1 := by
        split <;> omega
      simp only [hpeer, Peer.size, Summands.size] at h
      omega
    | receive x out w =>
      rw [← size_queryDone s out]
      refine size_setPeer_lt _ hp ?_
      simp only [queryDone_peers, hpeer, Peer.size, Answer.size]
      omega
  · generalize hwa : s.wa = wa at hw
    cases hw with
    | openShare => simp only [size, hwa, WaState.size]; omega
    | set share hsh => simp only [size, hwa, WaState.size]; omega
    | count share hsh => simp only [size, hwa, WaState.size]; omega
    | check share hsh =>
      exact size_check_lt share (by rw [hwa]; exact Nat.le_succ 2) (by rw [hwa]; exact Nat.le_refl _)
    | wakeUp share hsh hne =>
      refine size_check_lt share (by rw [hwa]; exact Nat.le_refl _) ?_
      have hsz : (WaState.waiting : WaState rowCount).size = 2 := rfl
      rw [hwa, if_pos hsz]
      omega
    | idle _ ha hne => simp only [size]; omega
    | receive out =>
      simp only [size, queryDone_peers, queryDone_wakeUps, hwa, WaState.size]
      omega

/-! ### Where a schedule ends -/

/-- The shared entry is there once a column has reached it. -/
theorem Inv.exists_share {s : State rowCount} (h : q.Inv s) {p : Nat} (hp : q.IsG p)
    (hr : (s.peers p).IsRead) : ∃ share, s.wfShare = some share := by
  cases hs : s.wfShare with
  | none => exact absurd hr ((h.absent hs).2 p hp)
  | some share => exact ⟨share, rfl⟩

/-- Where nothing can happen, every back server `G` is done. -/
theorem Inv.peer_done {s : State rowCount} (h : q.Inv s) (hs : ∀ a, q.step s a = none) {p : Nat}
    (hp : q.IsG p) : ∃ x, s.peers p = .active x .received .counted := by
  have hstep : ∀ a, party a = some p → q.stepG s p a (s.peers p) = none := by
    intro a ha
    have hn := hs a
    simpa only [Query.step, ha, if_pos hp] using hn
  cases hpeer : s.peers p with
  | asked =>
    have hn := hstep (.gRequest p 0) rfl
    rw [hpeer, stepG, if_pos fun _ ↦ ⟨le_refl 0, q.modulus_pos⟩] at hn
    cases hn
  | active x f w =>
    cases w with
    | pending =>
      have hn := hstep (.gSend p) rfl
      rw [hpeer, stepG] at hn
      cases hn
    | sent out =>
      have hn := hstep (.wgRead p) rfl
      rw [hpeer, stepG] at hn
      cases hn
    | read wgColumn =>
      obtain ⟨share, hsh⟩ := h.exists_share hp (by rw [hpeer]; trivial)
      have hn := hstep (.wgSet p) rfl
      rw [hpeer, stepG, hsh] at hn
      cases hn
    | set =>
      obtain ⟨share, hsh⟩ := h.exists_share hp (by rw [hpeer]; trivial)
      have hn := hstep (.wgCount p) rfl
      rw [hpeer, stepG, hsh] at hn
      cases hn
    | counted =>
      cases f with
      | pending =>
        have hn := hstep (.gAnswer p) rfl
        rw [hpeer, stepG] at hn
        cases hn
      | sent out =>
        have hn := hstep (.frontReceive p) rfl
        rw [hpeer, stepG] at hn
        cases hn
      | received => exact ⟨x, rfl⟩

/-- Where nothing can happen, the front server has the last back server's answer. -/
theorem Inv.wa_done {s : State rowCount} (h : q.Inv s) (hs : ∀ a, q.step s a = none) :
    s.wa = .received := by
  have hstep : ∀ a, party a = none → q.stepW s a s.wa = none := by
    intro a ha
    have hn := hs a
    simpa only [Query.step, ha] using hn
  have hshare : s.wa ≠ .asked → ∃ share, s.wfShare = some share := by
    intro hne
    cases hsh : s.wfShare with
    | none => exact absurd (h.absent hsh).1 hne
    | some share => exact ⟨share, rfl⟩
  cases hwa : s.wa with
  | received => rfl
  | failed => exact absurd hwa h.not_failed
  | asked =>
    have hn := hstep .waOpen rfl
    rw [hwa, stepW] at hn
    cases hn
  | opened =>
    obtain ⟨share, hsh⟩ := hshare (by rw [hwa]; exact nofun)
    have hn := hstep .waSet rfl
    rw [hwa, stepW, hsh] at hn
    cases hn
  | set =>
    obtain ⟨share, hsh⟩ := hshare (by rw [hwa]; exact nofun)
    have hn := hstep .waCount rfl
    rw [hwa, stepW, hsh] at hn
    cases hn
  | counted =>
    obtain ⟨share, hsh⟩ := hshare (by rw [hwa]; exact nofun)
    have hn := hstep .waCheck rfl
    rw [hwa, stepW, hsh] at hn
    cases hn
  | waiting =>
    -- every task is counted, so the last decrement has left a wake-up
    obtain ⟨share, hsh⟩ := hshare (by rw [hwa]; exact nofun)
    have hzero : share.countdown = 0 := by
      rw [(h.share share hsh).countdown, hwa]
      have hsum : ∑ p ∈ q.gs, (s.peers p).uncounted = ∑ p ∈ q.gs, (0 : Int) := by
        refine Finset.sum_congr rfl fun p hp ↦ ?_
        obtain ⟨x, hx⟩ := h.peer_done hs (mem_gs.mp hp)
        rw [hx]
        rfl
      rw [hsum, Finset.sum_const_zero]
      rfl
    have hw := (h.waiting hwa share hsh).resolve_left (fun hne ↦ hne hzero)
    have hn := hstep .waWakeUp rfl
    rw [hwa, stepW, if_neg (by omega), hsh] at hn
    cases hn
  | sent out =>
    have hn := hstep .frontReceiveLast rfl
    rw [hwa, stepW] at hn
    cases hn

/-- The answers add up to the true frequencies and one modulus for each masked column. -/
theorem sum_answers (x : Nat → Column rowCount) (i : Fin rowCount) :
    (∑ p ∈ q.gs, (x p + q.freq p)) i +
        (q.freq q.localParty + ∑ p ∈ q.gs, q.negated (x p)) i =
      ∑ p ∈ Finset.Ico 2 q.partyCount, q.freq p i + q.modulus * q.gs.card := by
  have h3 := q.three_le
  have hlast : q.partyCount = q.localParty + 1 := by simp only [localParty]; omega
  rw [hlast, Finset.sum_Ico_succ_top (by simp only [localParty]; omega)]
  simp only [Finset.sum_apply, Pi.add_apply, negated, Finset.sum_add_distrib,
    Finset.sum_sub_distrib, Finset.sum_const, nsmul_eq_mul]
  rw [show Finset.Ico 2 q.localParty = q.gs from rfl]
  ring

/-- In every state that a schedule reaches, the last back server has answered at most once, and
then every column is folded in. Schedules are bounded, and where one ends the last back server
has answered once and the front server responds the sum of the true frequencies modulo the
modulus, which is the sum itself when it is below the modulus. -/
theorem frequency_correct (q : Query rowCount) {s : State rowCount}
    (h : q.protocol.Reachable s) :
    s.answers ≤ 1 ∧ (s.answers = 1 → q.AllCounted s.peers) ∧
      (∀ out, s.wa = .sent out → out = q.lastAnswer s.peers) ∧
      (∀ as t, q.protocol.Run q.start as t → as.length ≤ q.size q.start) ∧
      (q.protocol.Stuck s → s.answers = 1 ∧ s.response =
        some fun i ↦ (∑ p ∈ Finset.Ico 2 q.partyCount, q.freq p i) % q.modulus) ∧
      (q.protocol.Stuck s → (∀ i, 0 ≤ ∑ p ∈ Finset.Ico 2 q.partyCount, q.freq p i ∧
          ∑ p ∈ Finset.Ico 2 q.partyCount, q.freq p i < q.modulus) →
        s.response = some fun i ↦ ∑ p ∈ Finset.Ico 2 q.partyCount, q.freq p i) := by
  have hinv : q.Inv s :=
    h.invariant (fun t ht ↦ ht ▸ inv_start) (fun t a t' ht hs ↦ ht.step hs)
  have hstuck : q.protocol.Stuck s → s.answers = 1 ∧ s.response =
      some fun i ↦ (∑ p ∈ Finset.Ico 2 q.partyCount, q.freq p i) % q.modulus := by
    intro hst
    have hnone := Machine.stuck_ofStep.mp hst
    have hwa := hinv.wa_done hnone
    have hpeer : ∀ p ∈ q.gs, ∃ x, s.peers p = .active x .received .counted :=
      fun p hp ↦ hinv.peer_done hnone (mem_gs.mp hp)
    refine ⟨by rw [hinv.answers, hwa]; rfl, ?_⟩
    have hcount : s.countdown = 0 := by
      rw [hinv.countdown, hwa]
      have hsum : ∑ p ∈ q.gs, (s.peers p).unreceived = ∑ p ∈ q.gs, (0 : Int) :=
        Finset.sum_congr rfl fun p hp ↦ by obtain ⟨x, hx⟩ := hpeer p hp; rw [hx]; rfl
      rw [hsum, Finset.sum_const_zero]
      rfl
    rw [hinv.response hcount]
    congr 1
    funext i
    have hcon : ∑ p ∈ q.gs, (s.peers p).contributed (q.freq p) =
        ∑ p ∈ q.gs, ((s.peers p).summand + q.freq p) :=
      Finset.sum_congr rfl fun p hp ↦ by obtain ⟨x, hx⟩ := hpeer p hp; rw [hx]; rfl
    have hsums : s.sums i = ∑ p ∈ Finset.Ico 2 q.partyCount, q.freq p i +
        q.modulus * q.gs.card := by
      rw [hinv.sums, hcon, hwa]
      exact sum_answers (fun p ↦ (s.peers p).summand) i
    rw [hsums, Int.add_mul_emod_self_left]
  refine ⟨?_, fun hans ↦ hinv.counted (hinv.answers ▸ hans), hinv.sent, ?_, hstuck, ?_⟩
  · rw [hinv.answers]
    cases s.wa with
    | sent _ => exact Nat.le_refl 1
    | received => exact Nat.le_refl 1
    | _ => exact Nat.zero_le 1
  · intro as t hr
    exact hr.length_le (P := fun _ ↦ True) (μ := q.size) (fun _ _ _ _ _ ↦ trivial)
      (fun _ _ _ _ hs ↦ size_lt hs) trivial
  · intro hst hlt
    rw [(hstuck hst).2]
    congr 1
    funext i
    exact Int.emod_eq_of_lt (hlt i).1 (hlt i).2

end Query

/-- Two back servers with one row: party `2` counts 5 people and party `3`, the last, 7. -/
def smallQuery : Query 1 where
  partyCount := 4
  modulus := 101
  freq p _ := if p = 2 then 5 else 7
  three_le := by decide
  modulus_pos := by decide

/-- A schedule where the request overtakes the column and waits for it. -/
def smallSchedule : List (Action 1) :=
  [.waOpen, .waSet, .waCount, .waCheck, .gRequest 2 fun _ ↦ 99, .gSend 2, .wgRead 2, .wgSet 2,
    .wgCount 2, .waWakeUp, .frontReceiveLast, .gAnswer 2, .frontReceive 2]

/-- The small query at the end of its schedule. -/
theorem frequency_correct_smallQuery :
    ∃ s, Machine.execute smallQuery.step smallQuery.start smallSchedule = some s ∧
      s.answers = 1 ∧ s.response.map (· 0) = some 12 ∧ smallQuery.AllCounted s.peers := by
  obtain ⟨s, hs⟩ := Option.isSome_iff_exists.mp (show (Machine.execute smallQuery.step
    smallQuery.start smallSchedule).isSome = true by decide)
  have hr : smallQuery.protocol.Reachable s :=
    ⟨_, _, rfl, Machine.run_of_execute hs⟩
  have hans : (Machine.execute smallQuery.step smallQuery.start smallSchedule).map
      (·.answers) = some 1 := by decide
  have hres : (Machine.execute smallQuery.step smallQuery.start smallSchedule).map
      (·.response.map (· 0)) = some (some 12) := by decide
  rw [hs] at hans hres
  exact ⟨s, hs, Option.some.inj hans, Option.some.inj hres,
    (smallQuery.frequency_correct hr).2.1 (Option.some.inj hans)⟩

end Safrn.Freq

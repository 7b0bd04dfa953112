import Safrn.Base.Parties
import Safrn.Freq.Protocol
import Mathlib.Algebra.BigOperators.Intervals
import Mathlib.Algebra.Ring.Int.Defs
import Mathlib.Data.Nat.Cast.Basic
import Mathlib.Algebra.Order.BigOperators.Group.Finset

/-!
# The invariant of the frequency protocol

The countdown counts the tasks that have not folded their column in, and every task that has
set its result has set the right one. The last decrement either belongs to the request handler,
which then answers at once, or wakes it up. The front server's sum is what the received answers
add up to.
-/

namespace Safrn.Freq

open Safrn.Base

variable {rowCount : Nat}

namespace Peer

/-- The summands that the back server drew. -/
def summand : Peer rowCount → Column rowCount
  | .asked => 0
  | .active x _ _ => x

/-- The column is in the results. -/
def IsSet : Peer rowCount → Prop
  | .active _ _ .set | .active _ _ .counted => True
  | _ => False

/-- The column has reached the last back server. -/
def IsRead : Peer rowCount → Prop
  | .active _ _ (.read _) | .active _ _ .set | .active _ _ .counted => True
  | _ => False

/-- Whether the task still counts. -/
def uncounted : Peer rowCount → Int
  | .active _ _ .counted => 0
  | _ => 1

/-- Whether the front server still waits for the answer. -/
def unreceived : Peer rowCount → Int
  | .active _ .received _ => 0
  | _ => 1

/-- What the front server has received from the back server. -/
def contributed (freq : Column rowCount) : Peer rowCount → Column rowCount
  | .active x .received _ => x + freq
  | _ => 0

end Peer

namespace WaState

/-- The own column is in the results. -/
def IsSet : WaState rowCount → Prop
  | .asked | .opened | .failed => False
  | _ => True

/-- Whether the own task still counts. -/
def uncounted : WaState rowCount → Int
  | .asked | .opened | .set | .failed => 1
  | _ => 0

/-- Whether the front server still waits for the answer. -/
def unreceived : WaState rowCount → Int
  | .received => 0
  | _ => 1

/-- What the front server has received from the last back server. -/
def contributed (last : Column rowCount) : WaState rowCount → Column rowCount
  | .received => last
  | _ => 0

/-- How many answers have been written. -/
def answers : WaState rowCount → Nat
  | .sent _ | .received => 1
  | _ => 0

end WaState

namespace Query

variable (q : Query rowCount)

/-- The back servers `G`. -/
def gs : Finset Nat := Finset.Ico 2 q.localParty

/-- The column that the last back server folds in for a back server that drew `x`. -/
def negated (x : Column rowCount) : Column rowCount := fun i ↦ q.modulus - x i

/-- The answer of the last back server when every column is folded in. -/
def lastAnswer (peers : Nat → Peer rowCount) : Column rowCount :=
  q.freq q.localParty + ∑ p ∈ q.gs, q.negated (peers p).summand

/-- The contents of a back server's messages. -/
def PeerOk (p : Nat) : Peer rowCount → Prop
  | .asked => True
  | .active x answer summands =>
    (∀ out, answer = .sent out → out = x + q.freq p) ∧
      (∀ out, summands = .sent out → out = x) ∧
      ∀ wgColumn, summands = .read wgColumn → wgColumn = q.negated x

/-- Every column of a back server `G` is folded in. -/
def AllCounted (peers : Nat → Peer rowCount) : Prop :=
  ∀ p, q.IsG p → ∃ x answer, peers p = .active x answer .counted

/-- What the shared entry holds. -/
structure ShareOk (s : State rowCount) (share : WfShare rowCount) : Prop where
  countdown : share.countdown = ∑ p ∈ q.gs, (s.peers p).uncounted + s.wa.uncounted
  waPipeline : share.waPipeline = true ↔ s.wa ≠ .asked
  results : ∀ p, q.IsG p → (s.peers p).IsSet →
    share.results (p - 2) = some (q.negated (s.peers p).summand)
  last : s.wa.IsSet → share.results (q.localParty - 2) = some (q.freq q.localParty)

/-- The invariant. -/
structure Inv (s : State rowCount) : Prop where
  peers : ∀ p, q.IsG p → q.PeerOk p (s.peers p)
  absent : s.wfShare = none → s.wa = .asked ∧ ∀ p, q.IsG p → ¬ (s.peers p).IsRead
  share : ∀ share, s.wfShare = some share → q.ShareOk s share
  waiting : s.wa = .waiting → ∀ share, s.wfShare = some share →
    share.countdown ≠ 0 ∨ 0 < s.wakeUps
  not_failed : s.wa ≠ .failed
  sent : ∀ out, s.wa = .sent out → out = q.lastAnswer s.peers
  counted : s.wa.answers = 1 → q.AllCounted s.peers
  answers : s.answers = s.wa.answers
  sums : s.sums = ∑ p ∈ q.gs, (s.peers p).contributed (q.freq p) +
    s.wa.contributed (q.lastAnswer s.peers)
  countdown : s.countdown = ∑ p ∈ q.gs, (s.peers p).unreceived + s.wa.unreceived
  response : s.countdown = 0 → s.response = some fun i ↦ s.sums i % q.modulus

variable {q}

theorem mem_gs {p : Nat} : p ∈ q.gs ↔ q.IsG p := Finset.mem_Ico

/-! ### Changing one back server -/

/-- A back server whose column is folded in stays so, with the same summands. -/
def Keeps (old new : Peer rowCount) : Prop :=
  ∀ x answer, old = .active x answer .counted → ∃ answer', new = .active x answer' .counted

/-- When every column is folded in, a step of a back server changes nothing of that. -/
theorem AllCounted.update {peers : Nat → Peer rowCount} (h : q.AllCounted peers) {p : Nat}
    (hp : q.IsG p) {v : Peer rowCount} (hv : Keeps (peers p) v) :
    q.AllCounted (Function.update peers p v) ∧
      q.lastAnswer (Function.update peers p v) = q.lastAnswer peers := by
  obtain ⟨x, answer, hx⟩ := h p hp
  obtain ⟨answer', rfl⟩ := hv x answer hx
  constructor
  · intro k hk
    by_cases hkp : k = p
    · subst hkp
      exact ⟨x, answer', Function.update_self ..⟩
    · rw [Function.update_of_ne hkp]
      exact h k hk
  · rw [lastAnswer, lastAnswer]
    congr 1
    exact sum_update_eq q.gs peers (fun _ peer ↦ q.negated peer.summand) p (by rw [hx]; rfl)

/-- The parts of the invariant that do not look into the shared entry, after a step of one back
server that the front server does not see. -/
theorem Inv.setPeer {s : State rowCount} (h : q.Inv s) {p : Nat} (hp : q.IsG p)
    {v : Peer rowCount} (hok : q.PeerOk p v) (hk : Keeps (s.peers p) v)
    (hc : v.contributed (q.freq p) = (s.peers p).contributed (q.freq p))
    (hu : v.unreceived = (s.peers p).unreceived) (share' : Option (WfShare rowCount))
    (wakeUps' : Nat) {t : State rowCount}
    (ht : t = Query.setPeer { s with wfShare := share', wakeUps := wakeUps' } p v)
    (habs : share' = none → s.wa = .asked ∧ ∀ k, q.IsG k → ¬ (t.peers k).IsRead)
    (hsh : ∀ share, share' = some share → q.ShareOk t share)
    (hwait : s.wa = .waiting → ∀ share, share' = some share →
      share.countdown ≠ 0 ∨ 0 < wakeUps') : q.Inv t := by
  subst ht
  constructor
  · intro k hkg
    dsimp only [Query.setPeer]
    by_cases hkp : k = p
    · subst hkp
      rwa [Function.update_self]
    · rw [Function.update_of_ne hkp]
      exact h.peers k hkg
  · exact habs
  · exact hsh
  · exact hwait
  · exact h.not_failed
  · intro out hout
    have hcount := h.counted (by rw [show s.wa = .sent out from hout]; rfl)
    exact (h.sent out hout).trans (hcount.update hp hk).2.symm
  · exact fun hans ↦ ((h.counted hans).update hp hk).1
  · exact h.answers
  · refine h.sums.trans ?_
    dsimp only [Query.setPeer]
    rw [sum_update_eq q.gs s.peers (fun k peer ↦ peer.contributed (q.freq k)) p hc]
    congr 1
    cases hw : s.wa with
    | received => exact ((h.counted (by rw [hw]; rfl)).update hp hk).2.symm
    | _ => rfl
  · refine h.countdown.trans ?_
    dsimp only [Query.setPeer]
    rw [sum_update_eq q.gs s.peers (fun _ peer ↦ peer.unreceived) p hu]
  · exact h.response

/-- The shared entry after a step of one back server that does not touch it. -/
theorem ShareOk.setPeer {s : State rowCount} {share : WfShare rowCount}
    (h : q.ShareOk s share) {p : Nat} {v : Peer rowCount}
    (hu : v.uncounted = (s.peers p).uncounted)
    (hs : v.IsSet → (s.peers p).IsSet ∧ v.summand = (s.peers p).summand)
    {share' : Option (WfShare rowCount)} {wakeUps' : Nat} :
    q.ShareOk (Query.setPeer { s with wfShare := share', wakeUps := wakeUps' } p v) share where
  countdown := by
    refine h.countdown.trans ?_
    dsimp only [Query.setPeer]
    rw [sum_update_eq q.gs s.peers (fun _ peer ↦ peer.uncounted) p hu]
  waPipeline := h.waPipeline
  results k hk hset := by
    dsimp only [Query.setPeer] at hset ⊢
    by_cases hkp : k = p
    · subst hkp
      rw [Function.update_self] at hset ⊢
      obtain ⟨hold, hsum⟩ := hs hset
      rw [hsum]
      exact h.results k hk hold
    · rw [Function.update_of_ne hkp] at hset ⊢
      exact h.results k hk hset
  last := h.last

/-- A back server that has not reached the shared entry still counts. -/
theorem uncounted_of_not_isRead {peer : Peer rowCount} (h : ¬ peer.IsRead) :
    peer.uncounted = 1 := by
  cases peer with
  | asked => rfl
  | active x answer summands =>
    cases summands with
    | counted => exact absurd trivial h
    | _ => rfl

/-- A column that is in the results has been read. -/
theorem isRead_of_isSet {peer : Peer rowCount} (h : peer.IsSet) : peer.IsRead := by
  cases peer with
  | asked => exact h.elim
  | active x answer summands =>
    cases summands with
    | set | counted => trivial
    | _ => exact h.elim

/-- The entry of the query fits, also when `getWfShare` makes it. -/
theorem Inv.getWfShare_ok {s : State rowCount} (h : q.Inv s) :
    q.ShareOk s (q.getWfShare s) := by
  cases hs : s.wfShare with
  | some share =>
    rw [getWfShare, hs, Option.getD_some]
    exact h.share share hs
  | none =>
    obtain ⟨hwa, hread⟩ := h.absent hs
    rw [getWfShare, hs, Option.getD_none]
    constructor
    · have hone : ∑ p ∈ q.gs, (s.peers p).uncounted = ∑ p ∈ q.gs, (1 : Int) :=
        Finset.sum_congr rfl fun p hp ↦ uncounted_of_not_isRead (hread p (mem_gs.mp hp))
      rw [hone, hwa]
      have h3 := q.three_le
      simp only [newWfShare, gs, localParty, WaState.uncounted, Finset.sum_const, Nat.card_Ico,
        nsmul_eq_mul, mul_one]
      omega
    · rw [hwa]
      simp [newWfShare]
    · exact fun p hp hset ↦ absurd (isRead_of_isSet hset) (hread p hp)
    · rw [hwa]
      exact fun hset ↦ hset.elim

/-! ### Steps of a back server -/

private theorem keeps_active {x x' : Column rowCount} {f f' : Answer rowCount}
    {w w' : Summands rowCount} (hx : x' = x) (hw : w = .counted → w' = .counted) :
    Keeps (.active x f w) (.active x' f' w') := by
  rintro y g hy
  obtain ⟨rfl, rfl, rfl⟩ := Peer.active.inj hy
  exact ⟨f', by rw [hx, hw rfl]⟩

/-- A step of a back server that neither the shared entry nor the front server sees. -/
theorem Inv.quiet {s : State rowCount} (h : q.Inv s) {p : Nat} (hp : q.IsG p)
    {v : Peer rowCount} (hok : q.PeerOk p v) (hk : Keeps (s.peers p) v)
    (hc : v.contributed (q.freq p) = (s.peers p).contributed (q.freq p))
    (hu : v.unreceived = (s.peers p).unreceived) (hun : v.uncounted = (s.peers p).uncounted)
    (hset : v.IsSet → (s.peers p).IsSet ∧ v.summand = (s.peers p).summand)
    (hread : v.IsRead → (s.peers p).IsRead) : q.Inv (Query.setPeer s p v) := by
  refine h.setPeer hp hok hk hc hu s.wfShare s.wakeUps rfl ?_ ?_
    h.waiting
  · intro hnone
    obtain ⟨hwa, hr⟩ := h.absent hnone
    refine ⟨hwa, fun k hkg ↦ ?_⟩
    dsimp only [Query.setPeer]
    by_cases hkp : k = p
    · subst hkp
      rw [Function.update_self]
      exact fun hx ↦ hr k hkg (hread hx)
    · rw [Function.update_of_ne hkp]
      exact hr k hkg
  · exact fun share hshare ↦ (h.share share hshare).setPeer hun hset

/-- Folding a column in writes its own result. -/
theorem ShareOk.set {s : State rowCount} {share : WfShare rowCount} (h : q.ShareOk s share)
    {p : Nat} (hp : q.IsG p) {x : Column rowCount} {f : Answer rowCount}
    {wgColumn : Column rowCount} (hpeer : s.peers p = .active x f (.read wgColumn))
    (hcol : wgColumn = q.negated x) :
    let share' := { share with
      results := Function.update share.results (p - 2) (some wgColumn) }
    q.ShareOk (Query.setPeer { s with wfShare := some share' } p (.active x f .set)) share' := by
  intro share'
  constructor
  · refine h.countdown.trans ?_
    dsimp only [Query.setPeer]
    rw [sum_update_eq q.gs s.peers (fun _ peer ↦ peer.uncounted) p (by rw [hpeer]; rfl)]
  · exact h.waPipeline
  · intro k hk hset
    dsimp only [Query.setPeer, share'] at hset ⊢
    by_cases hkp : k = p
    · subst hkp
      rw [Function.update_self, Function.update_self, hcol]
      rfl
    · have hne : k - 2 ≠ p - 2 := fun he ↦ by
        have h1 := hk.1
        have h2 := hp.1
        omega
      rw [Function.update_of_ne hkp] at hset ⊢
      rw [Function.update_of_ne hne]
      exact h.results k hk hset
  · intro hset
    have hne : q.localParty - 2 ≠ p - 2 := fun he ↦ by
      have h1 := hp.1
      have h2 := hp.2
      omega
    dsimp only [share']
    rw [Function.update_of_ne hne]
    exact h.last hset

/-- Counting a task lowers the countdown by it. -/
theorem ShareOk.count {s : State rowCount} {share : WfShare rowCount} (h : q.ShareOk s share)
    {p : Nat} (hp : q.IsG p) {x : Column rowCount} {f : Answer rowCount}
    (hpeer : s.peers p = .active x f .set) {wakeUps' : Nat} :
    let share' := { share with countdown := share.countdown - 1 }
    q.ShareOk (Query.setPeer { s with wfShare := some share', wakeUps := wakeUps' } p
      (.active x f .counted)) share' := by
  intro share'
  constructor
  · have hsum := sum_update q.gs s.peers (fun _ peer ↦ peer.uncounted) (mem_gs.mpr hp)
      (.active x f .counted)
    rw [hpeer] at hsum
    have hold : (Peer.active x f .set).uncounted = 1 := rfl
    have hnew : (Peer.active x f .counted).uncounted = 0 := rfl
    have hc := h.countdown
    dsimp only [Query.setPeer, share'] at hsum ⊢
    omega
  · exact h.waPipeline
  · intro k hk hset
    dsimp only [Query.setPeer, share'] at hset ⊢
    by_cases hkp : k = p
    · subst hkp
      rw [Function.update_self]
      have hr := h.results k hk (by rw [hpeer]; trivial)
      rwa [hpeer] at hr
    · rw [Function.update_of_ne hkp] at hset ⊢
      exact h.results k hk hset
  · exact h.last

/-- The response once the countdown of the front server reaches zero. -/
theorem queryDone_response {s : State rowCount} {out : Column rowCount} :
    (q.queryDone s out).countdown = 0 → (q.queryDone s out).response =
      some fun i ↦ (q.queryDone s out).sums i % q.modulus := by
  intro hz
  unfold queryDone at hz ⊢
  dsimp only at hz ⊢
  split at hz
  · next hc => rw [if_pos hc]
  · next hc => exact absurd hz hc

@[simp] theorem queryDone_peers (s : State rowCount) (out : Column rowCount) :
    (q.queryDone s out).peers = s.peers := by
  unfold queryDone
  dsimp only
  split <;> rfl

@[simp] theorem queryDone_wa (s : State rowCount) (out : Column rowCount) :
    (q.queryDone s out).wa = s.wa := by
  unfold queryDone
  dsimp only
  split <;> rfl

@[simp] theorem queryDone_wfShare (s : State rowCount) (out : Column rowCount) :
    (q.queryDone s out).wfShare = s.wfShare := by
  unfold queryDone
  dsimp only
  split <;> rfl

@[simp] theorem queryDone_wakeUps (s : State rowCount) (out : Column rowCount) :
    (q.queryDone s out).wakeUps = s.wakeUps := by
  unfold queryDone
  dsimp only
  split <;> rfl

@[simp] theorem queryDone_answers (s : State rowCount) (out : Column rowCount) :
    (q.queryDone s out).answers = s.answers := by
  unfold queryDone
  dsimp only
  split <;> rfl

@[simp] theorem queryDone_sums (s : State rowCount) (out : Column rowCount) :
    (q.queryDone s out).sums = s.sums + out := by
  unfold queryDone
  dsimp only
  split <;> rfl

@[simp] theorem queryDone_countdown (s : State rowCount) (out : Column rowCount) :
    (q.queryDone s out).countdown = s.countdown - 1 := by
  unfold queryDone
  dsimp only
  split <;> rfl

/-- The front server receives the answer of a back server `G`. -/
theorem Inv.receive {s : State rowCount} (h : q.Inv s) {p : Nat} (hp : q.IsG p)
    {x out : Column rowCount} {w : Summands rowCount}
    (hpeer : s.peers p = .active x (.sent out) w) :
    q.Inv (Query.setPeer (q.queryDone s out) p (.active x .received w)) := by
  have hok := h.peers p hp
  rw [hpeer] at hok
  have hout : out = x + q.freq p := hok.1 out rfl
  have hk : Keeps (s.peers p) (.active x .received w) := by
    rw [hpeer]
    exact keeps_active rfl id
  -- the same step with the old sums is invisible to the shared entry
  have hshare : ∀ share, s.wfShare = some share →
      q.ShareOk (Query.setPeer { s with wfShare := s.wfShare, wakeUps := s.wakeUps } p
        (.active x .received w)) share := fun share hsh ↦
    (h.share share hsh).setPeer (by rw [hpeer]; cases w <;> rfl)
      (by rw [hpeer]; cases w <;> exact fun hx ↦ ⟨hx, rfl⟩)
  constructor
  · intro k hkg
    simp only [Query.setPeer, queryDone_peers]
    by_cases hkp : k = p
    · subst hkp
      rw [Function.update_self]
      exact ⟨fun _ hx ↦ (by cases hx), hok.2⟩
    · rw [Function.update_of_ne hkp]
      exact h.peers k hkg
  · intro hnone
    simp only [Query.setPeer, queryDone_peers, queryDone_wa, queryDone_wfShare] at hnone ⊢
    obtain ⟨hwa, hr⟩ := h.absent hnone
    refine ⟨hwa, fun k hkg ↦ ?_⟩
    by_cases hkp : k = p
    · subst hkp
      rw [Function.update_self]
      have hr' := hr k hkg
      rw [hpeer] at hr'
      cases w <;> exact hr'
    · rw [Function.update_of_ne hkp]
      exact hr k hkg
  · intro share hsh
    simp only [Query.setPeer, queryDone_wfShare] at hsh
    obtain ⟨h1, h2, h3, h4⟩ := hshare share hsh
    refine ⟨?_, ?_, ?_, ?_⟩ <;>
      simpa only [Query.setPeer, queryDone_peers, queryDone_wa]
  · intro hwa share hsh
    simp only [Query.setPeer, queryDone_wa, queryDone_wfShare, queryDone_wakeUps] at hwa hsh ⊢
    exact h.waiting hwa share hsh
  · simpa only [Query.setPeer, queryDone_wa] using h.not_failed
  · intro o ho
    simp only [Query.setPeer, queryDone_wa, queryDone_peers] at ho ⊢
    have hcount := h.counted (by rw [ho]; rfl)
    exact (h.sent o ho).trans (hcount.update hp hk).2.symm
  · intro hans
    simp only [Query.setPeer, queryDone_wa, queryDone_peers] at hans ⊢
    exact ((h.counted hans).update hp hk).1
  · simpa only [Query.setPeer, queryDone_wa, queryDone_answers] using h.answers
  · simp only [Query.setPeer, queryDone_wa, queryDone_peers, queryDone_sums]
    have hsum := sum_update q.gs s.peers (fun k peer ↦ peer.contributed (q.freq k))
      (mem_gs.mpr hp) (.active x .received w)
    have hold : (Peer.active x (.sent out) w).contributed (q.freq p) = 0 := rfl
    have hnew : (Peer.active x .received w).contributed (q.freq p) = x + q.freq p := rfl
    rw [hpeer, hold, hnew, add_zero] at hsum
    have hlast : s.wa.contributed (q.lastAnswer (Function.update s.peers p
        (.active x .received w))) = s.wa.contributed (q.lastAnswer s.peers) := by
      cases hw : s.wa with
      | received => exact ((h.counted (by rw [hw]; rfl)).update hp hk).2
      | _ => rfl
    rw [h.sums, hlast, hout, hsum, add_right_comm]
  · simp only [Query.setPeer, queryDone_wa, queryDone_peers, queryDone_countdown]
    have hsum := sum_update q.gs s.peers (fun _ peer ↦ peer.unreceived) (mem_gs.mpr hp)
      (.active x .received w)
    rw [hpeer] at hsum
    have hold : (Peer.active x (.sent out) w).unreceived = 1 := rfl
    have hnew : (Peer.active x .received w).unreceived = 0 := rfl
    have hc := h.countdown
    omega
  · exact queryDone_response

/-- A step of a back server keeps the invariant. -/
theorem Inv.gStep {s t : State rowCount} (h : q.Inv s) {p : Nat} (hp : q.IsG p)
    (hs : q.GStep s p (s.peers p) t) : q.Inv t := by
  have hok := h.peers p hp
  generalize hpeer : s.peers p = peer at hs hok
  cases hs with
  | request x hx =>
    apply h.quiet hp
    · exact ⟨fun _ hx ↦ (by cases hx), fun _ hx ↦ (by cases hx), fun _ hx ↦ (by cases hx)⟩
    · rw [hpeer]
      exact fun _ _ hx ↦ by cases hx
    all_goals simp [hpeer, Peer.contributed, Peer.unreceived, Peer.uncounted, Peer.IsSet,
      Peer.IsRead]
  | answer x w =>
    apply h.quiet hp
    · exact ⟨fun _ hx ↦ (Answer.sent.inj hx).symm, hok.2⟩
    · rw [hpeer]
      exact keeps_active rfl id
    all_goals rw [hpeer]; cases w <;> simp [Peer.contributed, Peer.unreceived, Peer.uncounted,
      Peer.IsSet, Peer.IsRead, Peer.summand]
  | send x f =>
    apply h.quiet hp
    · exact ⟨hok.1, fun _ hx ↦ (Summands.sent.inj hx).symm, fun _ hx ↦ (by cases hx)⟩
    · rw [hpeer]
      exact keeps_active rfl (fun hx ↦ by cases hx)
    all_goals rw [hpeer]; cases f <;> simp [Peer.contributed, Peer.unreceived, Peer.uncounted,
      Peer.IsSet, Peer.IsRead]
  | read x f out =>
    have hcol : out = x := hok.2.1 out rfl
    refine h.setPeer hp ?_ ?_ ?_ ?_ (some (q.getWfShare s)) s.wakeUps
      rfl (fun hx ↦ by cases hx) ?_ ?_
    · refine ⟨hok.1, fun _ hx ↦ (by cases hx), fun _ hx ↦ ?_⟩
      rw [← Summands.read.inj hx, hcol]
      rfl
    · rw [hpeer]
      exact keeps_active rfl (fun hx ↦ by cases hx)
    · rw [hpeer]; cases f <;> rfl
    · rw [hpeer]; cases f <;> rfl
    · rintro share hx
      obtain rfl := Option.some.inj hx
      exact h.getWfShare_ok.setPeer (v := .active x f (.read fun i ↦ q.modulus - out i))
        (by rw [hpeer]; rfl) (fun hx ↦ False.elim hx)
    · intro hwa share hx
      obtain rfl := Option.some.inj hx
      cases hs : s.wfShare with
      | none => rw [(h.absent hs).1] at hwa; cases hwa
      | some share => rw [getWfShare, hs]; exact h.waiting hwa share hs
  | set x f wgColumn share hs =>
    have hcol : wgColumn = q.negated x := hok.2.2 wgColumn rfl
    refine h.setPeer hp ?_ ?_ ?_ ?_ _ s.wakeUps rfl (fun hx ↦ by cases hx) ?_ ?_
    · exact ⟨hok.1, fun _ hx ↦ (by cases hx), fun _ hx ↦ (by cases hx)⟩
    · rw [hpeer]
      exact keeps_active rfl (fun hx ↦ by cases hx)
    · rw [hpeer]; cases f <;> rfl
    · rw [hpeer]; cases f <;> rfl
    · rintro share' hx
      obtain rfl := Option.some.inj hx
      exact (h.share share hs).set hp hpeer hcol
    · rintro hwa share' hx
      obtain rfl := Option.some.inj hx
      exact h.waiting hwa share hs
  | count x f share hs =>
    have hsh := h.share share hs
    refine h.setPeer hp ?_ ?_ ?_ ?_ _ _ rfl (fun hx ↦ by cases hx) ?_ ?_
    · exact ⟨hok.1, fun _ hx ↦ (by cases hx), fun _ hx ↦ (by cases hx)⟩
    · rw [hpeer]
      exact keeps_active rfl (fun hx ↦ by cases hx)
    · rw [hpeer]; cases f <;> rfl
    · rw [hpeer]; cases f <;> rfl
    · rintro share' hx
      obtain rfl := Option.some.inj hx
      exact hsh.count hp hpeer
    · rintro hwa share' hx
      obtain rfl := Option.some.inj hx
      have hpipe : share.waPipeline = true := hsh.waPipeline.mpr (by rw [hwa]; exact nofun)
      by_cases hz : share.countdown - 1 = 0
      · exact .inr (by rw [if_pos ⟨hz, hpipe⟩]; omega)
      · exact .inl hz
  | receive x out w => exact h.receive hp hpeer

/-! ### Steps of the last back server -/

/-- A step of the last back server that the front server does not see. -/
theorem Inv.setWa {s : State rowCount} (h : q.Inv s) (share' : WfShare rowCount)
    (wa' : WaState rowCount) (wakeUps' : Nat) (ha : s.wa.answers = 0) (ha' : wa'.answers = 0)
    (hf : wa' ≠ .failed) {t : State rowCount}
    (ht : t = { s with wfShare := some share', wakeUps := wakeUps', wa := wa' })
    (hsh : q.ShareOk t share')
    (hwait : wa' = .waiting → share'.countdown ≠ 0 ∨ 0 < wakeUps') : q.Inv t := by
  subst ht
  have hcon : ∀ wa : WaState rowCount, wa.answers = 0 →
      (∀ last, wa.contributed last = 0) ∧ wa.unreceived = 1 := by
    intro wa hwa
    cases wa <;> first | exact ⟨fun _ ↦ rfl, rfl⟩ | exact absurd hwa Nat.one_ne_zero
  obtain ⟨hc, hu⟩ := hcon _ ha
  obtain ⟨hc', hu'⟩ := hcon _ ha'
  constructor
  · exact h.peers
  · exact fun hx ↦ (by cases hx)
  · rintro share hx
    obtain rfl := Option.some.inj hx
    exact hsh
  · rintro hwa share hx
    obtain rfl := Option.some.inj hx
    exact hwait hwa
  · exact hf
  · rintro out rfl
    cases ha'
  · exact fun hx ↦ absurd (ha'.symm.trans hx) Nat.zero_ne_one
  · exact (h.answers.trans ha).trans ha'.symm
  · refine h.sums.trans ?_
    dsimp only
    rw [hc, hc']
  · refine h.countdown.trans ?_
    dsimp only
    rw [hu, hu']
  · exact h.response

/-- The sum of results that are all there. -/
theorem sumResults_eq {share : WfShare rowCount} {e : Nat → Column rowCount} (k : Nat)
    (h : ∀ j < k, share.results j = some (e j)) :
    sumResults share k = some (∑ j ∈ Finset.range k, e j) := by
  induction k with
  | zero => rfl
  | succ k ih =>
    rw [sumResults, ih fun j hj ↦ h j (by omega), h k (by omega), Finset.sum_range_succ]
    rfl

/-- A counted task is a column that is folded in. -/
theorem counted_of_uncounted {peer : Peer rowCount} (h : peer.uncounted = 0) :
    ∃ x answer, peer = .active x answer .counted := by
  cases peer with
  | asked => exact absurd h one_ne_zero
  | active x answer summands =>
    cases summands with
    | counted => exact ⟨x, answer, rfl⟩
    | _ => exact absurd h one_ne_zero

theorem uncounted_nonneg (peer : Peer rowCount) : 0 ≤ peer.uncounted := by
  cases peer with
  | asked => exact zero_le_one
  | active x answer summands =>
    cases summands with
    | counted => exact le_refl 0
    | _ => exact zero_le_one

/-- When the countdown is at zero every column is folded in, and the results add up to the
last back server's answer. -/
theorem ShareOk.done {s : State rowCount} {share : WfShare rowCount} (h : q.ShareOk s share)
    (hz : share.countdown = 0) (hwa : s.wa.uncounted = 0) (hset : s.wa.IsSet) :
    q.AllCounted s.peers ∧
      sumResults share (q.partyCount - 2) = some (q.lastAnswer s.peers) := by
  have hsum : ∑ p ∈ q.gs, (s.peers p).uncounted = 0 := by
    have hc := h.countdown
    omega
  have hall : q.AllCounted s.peers := fun p hp ↦ counted_of_uncounted
    ((Finset.sum_eq_zero_iff_of_nonneg fun k _ ↦ uncounted_nonneg (s.peers k)).mp hsum p
      (mem_gs.mpr hp))
  refine ⟨hall, ?_⟩
  have h3 := q.three_le
  let e : Nat → Column rowCount := fun p ↦
    if p = q.localParty then q.freq p else q.negated (s.peers p).summand
  have hres : ∀ j < q.partyCount - 2, share.results j = some (e (2 + j)) := by
    intro j hj
    by_cases hje : 2 + j = q.localParty
    · have hj' : q.localParty - 2 = j := by omega
      have hl := h.last hset
      rw [hj'] at hl
      rw [hl]
      simp only [e, hje, if_true]
    · have hg : q.IsG (2 + j) := ⟨by omega, by simp only [localParty] at hje ⊢; omega⟩
      obtain ⟨x, answer, hx⟩ := hall _ hg
      have hr := h.results _ hg (by rw [hx]; trivial)
      rw [show 2 + j - 2 = j by omega] at hr
      rw [hr]
      simp only [e, if_neg hje]
  rw [sumResults_eq _ hres, ← Finset.sum_Ico_eq_sum_range]
  have hlast : q.partyCount = q.localParty + 1 := by simp only [localParty]; omega
  rw [hlast, Finset.sum_Ico_succ_top (by simp only [localParty]; omega), lastAnswer, add_comm]
  congr 2
  · simp only [e, if_true]
  · refine Finset.sum_congr rfl fun p hp ↦ ?_
    have hlt := (mem_gs.mp hp).2
    simp only [e, if_neg (by omega : ¬ p = q.localParty)]

/-- Looking at the countdown: wait, or answer the sum of all columns. -/
theorem Inv.check {s : State rowCount} (h : q.Inv s) {share : WfShare rowCount}
    (hs : s.wfShare = some share) (hwa : s.wa = .counted ∨ s.wa = .waiting) (wakeUps' : Nat) :
    q.Inv (q.check { s with wakeUps := wakeUps' } share) := by
  have hsh := h.share share hs
  have hun : s.wa.uncounted = 0 ∧ s.wa.IsSet ∧ s.wa.answers = 0 ∧ s.wa ≠ .asked ∧
      s.wa.unreceived = 1 ∧ ∀ last, s.wa.contributed last = 0 := by
    rcases hwa with hwa | hwa <;> rw [hwa] <;> exact ⟨rfl, trivial, rfl, nofun, rfl, fun _ ↦ rfl⟩
  obtain ⟨hun, hset, hans, hne, hunr, hcon⟩ := hun
  unfold Query.check
  split
  · next hz =>
    refine h.setWa share .waiting wakeUps' hans rfl nofun
      ?_ ?_ (fun _ ↦ .inl hz)
    · rw [← hs]
    · exact ⟨hsh.countdown.trans (by rw [hun]; rfl),
        ⟨fun _ ↦ nofun, fun _ ↦ hsh.waPipeline.mpr hne⟩, hsh.results, fun _ ↦ hsh.last hset⟩
  · next hz =>
    obtain ⟨hall, hres⟩ := hsh.done (not_not.mp hz) hun hset
    rw [hres]
    constructor
    · exact h.peers
    · exact fun hx ↦ (by rw [hs] at hx; cases hx)
    · intro share' hx
      rw [hs] at hx
      obtain rfl := Option.some.inj hx
      exact ⟨hsh.countdown.trans (by rw [hun]; rfl),
        ⟨fun _ ↦ nofun, fun _ ↦ hsh.waPipeline.mpr hne⟩, hsh.results, fun _ ↦ hsh.last hset⟩
    · exact nofun
    · exact nofun
    · exact fun out hx ↦ (WaState.sent.inj hx).symm
    · exact fun _ ↦ hall
    · exact congrArg (· + 1) (h.answers.trans hans)
    · refine h.sums.trans ?_
      dsimp only
      rw [hcon]
      rfl
    · refine h.countdown.trans ?_
      dsimp only
      rw [hunr]
      rfl
    · exact h.response

/-- A step of the last back server keeps the invariant. -/
theorem Inv.wStep {s t : State rowCount} (h : q.Inv s) (hs : q.WStep s s.wa t) : q.Inv t := by
  generalize hwa : s.wa = wa at hs
  cases hs with
  | openShare =>
    have hsh := h.getWfShare_ok
    refine h.setWa _ .opened s.wakeUps (by rw [hwa]; rfl) rfl nofun rfl ?_
      nofun
    exact ⟨hsh.countdown.trans (by rw [hwa]; rfl), ⟨fun _ ↦ nofun, fun _ ↦ rfl⟩, hsh.results,
      fun hx ↦ False.elim hx⟩
  | set share hs =>
    have hsh := h.share share hs
    refine h.setWa _ .set s.wakeUps (by rw [hwa]; rfl) rfl nofun rfl ?_
      nofun
    refine ⟨hsh.countdown.trans (by rw [hwa]; rfl),
      ⟨fun _ ↦ nofun, fun _ ↦ hsh.waPipeline.mpr (by rw [hwa]; exact nofun)⟩, ?_, ?_⟩
    · intro p hp hset
      have hne : p - 2 ≠ q.localParty - 2 := fun he ↦ by
        have h1 := hp.1
        have h2 := hp.2
        omega
      exact (Function.update_of_ne hne _ _).trans (hsh.results p hp hset)
    · exact fun _ ↦ Function.update_self ..
  | count share hs =>
    have hsh := h.share share hs
    refine h.setWa _ .counted s.wakeUps (by rw [hwa]; rfl) rfl nofun rfl
      ?_ nofun
    refine ⟨?_, ⟨fun _ ↦ nofun, fun _ ↦ hsh.waPipeline.mpr (by rw [hwa]; exact nofun)⟩,
      hsh.results, fun _ ↦ hsh.last (by rw [hwa]; trivial)⟩
    have hc := hsh.countdown
    rw [hwa] at hc
    have hold : (WaState.set : WaState rowCount).uncounted = 1 := rfl
    have hnew : (WaState.counted : WaState rowCount).uncounted = 0 := rfl
    dsimp only
    omega
  | check share hs => exact h.check hs (.inl hwa) s.wakeUps
  | wakeUp share hs hw => exact h.check hs (.inr hwa) (s.wakeUps - 1)
  | idle _ ha hw =>
    have hne : s.wa ≠ .waiting := by
      rcases ha with ha | ⟨out, ha⟩ <;> rw [hwa, ha] <;> exact nofun
    exact ⟨h.peers, h.absent, fun share hx ↦
      have hsh := h.share share hx
      ⟨hsh.countdown, hsh.waPipeline, hsh.results, hsh.last⟩,
      fun hx ↦ absurd hx hne, h.not_failed, h.sent, h.counted, h.answers, h.sums, h.countdown,
      h.response⟩
  | receive out =>
    have hall := h.counted (by rw [hwa]; rfl)
    have hout := h.sent out hwa
    constructor
    · simpa only [queryDone_peers] using h.peers
    · intro hx
      rw [queryDone_wfShare] at hx
      rw [(h.absent hx).1] at hwa
      cases hwa
    · intro share hx
      simp only [queryDone_wfShare] at hx
      have hsh := h.share share hx
      refine ⟨?_, ⟨fun _ ↦ nofun, fun _ ↦ hsh.waPipeline.mpr (by rw [hwa]; exact nofun)⟩, ?_, ?_⟩
      · refine hsh.countdown.trans ?_
        rw [hwa]
        simp only [queryDone_peers]
        rfl
      · simpa only [queryDone_peers] using hsh.results
      · exact fun _ ↦ hsh.last (by rw [hwa]; trivial)
    · exact nofun
    · exact nofun
    · exact nofun
    · simpa only [queryDone_peers] using fun _ ↦ hall
    · rw [queryDone_answers, h.answers, hwa]
      rfl
    · simp only [queryDone_peers, queryDone_sums]
      rw [h.sums, hwa, hout]
      simp only [WaState.contributed, add_zero]
    · simp only [queryDone_peers, queryDone_countdown]
      have hc := h.countdown
      rw [hwa] at hc
      have hold : (WaState.sent out).unreceived = 1 := rfl
      have hnew : (WaState.received : WaState rowCount).unreceived = 0 := rfl
      omega
    · exact queryDone_response

end Query
end Safrn.Freq

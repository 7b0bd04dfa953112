import Mathlib.Algebra.Order.Ring.Nat
import Mathlib.Algebra.Ring.Parity
import Mathlib.Data.Nat.GCD.Basic
import Mathlib.Data.Nat.ModEq
import Mathlib.Data.Nat.Prime.Basic
import Mathlib.Tactic.GCongr
import Mathlib.Tactic.Positivity
import Mathlib.Tactic.Ring

/-!
# Retries of `connect` and `bind`

Models what follows a refused attempt (`Util/socket.cpp`): `ComputeConnectSleepTime` (`:1501-1577`)
with `HandleConnectError` (`:1749-1802`), and `HandleBindError` (`:2821-2908`). `LinuxSocket` sleeps
with `usleep`, whose argument has 32 bits (`Util/linux_socket.cpp:218`). The counters are below
`2 ^ 31`.
-/

namespace Safrn.Socket

/-- The two operations that are tried again. -/
inductive Operation
  | connect
  | bind
deriving DecidableEq

/-- The fields of `ConnectParams` and `BindParams` that retries depend on; binding has no timeout
and sets it to zero. -/
structure RetryParams where
  numRetries : ℤ
  sleepTime : ℕ
  numTriesAtCurrentSleepTime : ℤ
  timeoutMs : ℕ
  sleepTime_lt : sleepTime < 2 ^ 64

/-- The statistics that retries depend on. -/
structure RetryStats where
  numConnectionErrors : ℕ
  numBindErrors : ℕ
  msecWaitingToConnect : ℕ

/-- What follows a refused attempt. -/
inductive Decision
  | giveUp
  /-- Another attempt after so many microseconds. -/
  | retry (slept : ℕ)
  /-- A signed multiplication overflows. -/
  | undefined
deriving DecidableEq

section

variable (p : RetryParams)

/-- `num_times_to_double_sleep_time`. -/
def numTimesToDouble (errors : ℕ) : ℕ :=
  if p.numTriesAtCurrentSleepTime ≤ 0 then 0 else errors / p.numTriesAtCurrentSleepTime.toNat

/-- The product as a `uint64_t`. -/
def wrappedSleepTime (errors : ℕ) : ℕ := p.sleepTime * 2 ^ numTimesToDouble p errors % 2 ^ 64

/-- A `uint64_t` as an `int64_t`. -/
def signed64 (u : ℕ) : ℤ := if u < 2 ^ 63 then u else u - 2 ^ 64

/-- The check of the number of errors. -/
def Exhausted (errors : ℕ) : Prop :=
  p.numRetries = 0 ∨ (0 ≤ p.numRetries ∧ p.numRetries < errors)

instance (errors : ℕ) : Decidable (Exhausted p errors) :=
  inferInstanceAs (Decidable (_ ∨ _))

/-- `ComputeConnectSleepTime`; where too many doublings are found it returns `false`. -/
def computeConnectSleepTime (errors : ℕ) : ℤ :=
  if Exhausted p errors then -1
  else if p.sleepTime = 0 then 0
  else if 63 < numTimesToDouble p errors then 0
  else if wrappedSleepTime p errors < p.sleepTime then 0
  else signed64 (wrappedSleepTime p errors)

/-- `HandleConnectError` for a refused connection. -/
def connectDecision (errors : ℕ) (timedOut : Bool) : Decision :=
  if timedOut then .giveUp
  else
    let sleepTime := computeConnectSleepTime p errors
    if 0 ≤ sleepTime then
      if 2 ^ 63 ≤ sleepTime * 1000 then .undefined
      else .retry ((sleepTime * 1000).toNat % 2 ^ 32)
    else .giveUp

/-- `HandleBindError` for an address in use. -/
def bindDecision (errors : ℕ) : Decision :=
  if Exhausted p errors then .giveUp
  else if p.sleepTime = 0 then .retry 0
  else if 63 < numTimesToDouble p errors then .giveUp
  else if wrappedSleepTime p errors < p.sleepTime then .giveUp
  else .retry (wrappedSleepTime p errors * 1000 % 2 ^ 64 % 2 ^ 32)

/-- `Connect` has waited for too long. -/
def TimedOut (op : Operation) (s : RetryStats) : Prop :=
  op = .connect ∧ 0 < p.timeoutMs ∧ p.timeoutMs ≤ s.msecWaitingToConnect

instance (op : Operation) (s : RetryStats) : Decidable (TimedOut p op s) :=
  inferInstanceAs (Decidable (_ ∧ _))

/-- The errors that are looked at when the next attempt is refused. -/
def errorsSeen (op : Operation) (s : RetryStats) : ℕ :=
  match op with
  | .connect => s.numConnectionErrors + 1
  | .bind => s.numConnectionErrors

/-- A refused attempt; `elapsed` is what the clock says of the sleep. -/
def refused (op : Operation) (s : RetryStats) (elapsed : ℕ) : Decision × RetryStats :=
  match op with
  | .connect =>
    let decision := connectDecision p (errorsSeen op s) (decide (TimedOut p op s))
    (decision, { s with
      numConnectionErrors := s.numConnectionErrors + 1
      msecWaitingToConnect :=
        if decision = .giveUp ∨ computeConnectSleepTime p (errorsSeen op s) ≤ 0 then
          s.msecWaitingToConnect
        else s.msecWaitingToConnect + elapsed })
  | .bind => (bindDecision p (errorsSeen op s), { s with numBindErrors := s.numBindErrors + 1 })

/-- The decisions of an operation whose attempts are all refused. -/
def decisions (op : Operation) : RetryStats → List ℕ → List Decision
  | _, [] => []
  | s, elapsed :: rest =>
    match refused p op s elapsed with
    | (.retry slept, s') => .retry slept :: decisions op s' rest
    | (decision, _) => [decision]

/-! ### The policy -/

/-- The bound of the type that the sleep time is computed in. -/
def Operation.bound : Operation → ℕ
  | .connect => 2 ^ 63
  | .bind => 2 ^ 64

/-- The sleep time after the `n`-th failure in milliseconds. -/
def exactSleepTime (n : ℕ) : ℕ := p.sleepTime * 2 ^ numTimesToDouble p n

/-- The operation has to end with its `n`-th failure. -/
def Ends (op : Operation) (n : ℕ) : Prop :=
  (0 ≤ p.numRetries ∧ p.numRetries < n) ∨ op.bound ≤ exactSleepTime p n

instance (op : Operation) (n : ℕ) : Decidable (Ends p op n) := inferInstanceAs (Decidable (_ ∨ _))

/-- What should follow the `n`-th failure of an operation. -/
def expected (op : Operation) (n : ℕ) (s : RetryStats) : Decision :=
  if TimedOut p op s ∨ Ends p op n then .giveUp else .retry (exactSleepTime p n * 1000)

/-- All that is decided after failure `n` follows the policy. -/
def Conforms (op : Operation) : ℕ → RetryStats → List ℕ → Prop
  | _, _, [] => True
  | n, s, elapsed :: rest =>
    (refused p op s elapsed).1 = expected p op (n + 1) s ∧
      (∀ slept, (refused p op s elapsed).1 = .retry slept →
        Conforms op (n + 1) (refused p op s elapsed).2 rest)

/-- The `n`-th failure of an operation is answered as the policy has it where `errors` are seen.
Where the operation ends the errors exceed the retries, or the product overflows in a way that is
noticed; else the errors do not, they double the sleep time as often as the failures, and `usleep`
can be given the time. -/
def Met (op : Operation) (n errors : ℕ) : Prop :=
  if Ends p op n then
    Exhausted p errors ∨ p.sleepTime ≠ 0 ∧
      match op with
      | .connect => numTimesToDouble p errors ≤ 63 ∧ p.sleepTime ≤ wrappedSleepTime p errors ∧
          2 ^ 63 ≤ wrappedSleepTime p errors
      | .bind => 63 < numTimesToDouble p errors ∨ wrappedSleepTime p errors < p.sleepTime
  else
    ¬Exhausted p errors ∧ (p.sleepTime = 0 ∨
      numTimesToDouble p errors = numTimesToDouble p n ∧ exactSleepTime p n * 1000 < 2 ^ 32)

/-- Every failure of the run meets the condition. -/
def AllMet (op : Operation) : ℕ → RetryStats → List ℕ → Prop
  | _, _, [] => True
  | n, s, elapsed :: rest =>
    (TimedOut p op s ∨ Met p op (n + 1) (errorsSeen op s)) ∧
      (∀ slept, (refused p op s elapsed).1 = .retry slept →
        AllMet op (n + 1) (refused p op s elapsed).2 rest)

/-- Multiples by powers of two that agree in their lower half are equal. -/
theorem eq_of_mul_two_pow_mod {x a b : ℕ} (hx : 0 < x) (hlt : x * 2 ^ a < 2 ^ 32)
    (h : x * 2 ^ b % 2 ^ 32 = x * 2 ^ a) : b = a := by
  obtain hab | rfl | hba := lt_trichotomy a b
  · obtain ⟨d, rfl⟩ := Nat.exists_eq_add_of_lt hab
    have hdvd : 2 ^ 32 ∣ x * 2 ^ a * (2 ^ (d + 1) - 1) := by
      have hmod : x * 2 ^ a ≡ x * 2 ^ a * 2 ^ (d + 1) [MOD 2 ^ 32] := by
        rw [mul_assoc, ← pow_add, ← add_assoc]
        exact (Nat.mod_eq_of_lt hlt).trans h.symm
      rw [Nat.mul_sub_one]
      exact (Nat.modEq_iff_dvd' (Nat.le_mul_of_pos_right _ (by positivity))).mp hmod
    have hodd : Nat.Coprime (2 ^ 32) (2 ^ (d + 1) - 1) := by
      rw [Nat.coprime_pow_left_iff (by decide), Nat.coprime_two_left]
      exact Nat.Even.sub_odd Nat.one_le_two_pow (even_two.pow_of_ne_zero d.succ_ne_zero) odd_one
    have hle := Nat.le_of_dvd (by positivity) (hodd.dvd_of_dvd_mul_right hdvd)
    omega
  · rfl
  · have hle : x * 2 ^ b < x * 2 ^ a := by
      gcongr
      exact one_lt_two
    rw [Nat.mod_eq_of_lt (hle.trans hlt)] at h
    omega

variable {p}

theorem wrappedSleepTime_lt (errors : ℕ) : wrappedSleepTime p errors < 2 ^ 64 :=
  Nat.mod_lt _ (by positivity)

theorem wrappedSleepTime_of_lt {n : ℕ} (h : exactSleepTime p n < 2 ^ 64) :
    wrappedSleepTime p n = exactSleepTime p n := Nat.mod_eq_of_lt h

/-- What `usleep` is given of the wrapped product. -/
theorem wrappedSleepTime_mod (errors : ℕ) :
    wrappedSleepTime p errors * 1000 % 2 ^ 32 =
      p.sleepTime * 1000 * 2 ^ numTimesToDouble p errors % 2 ^ 32 := by
  have hdvd : (2 : ℕ) ^ 32 ∣ 2 ^ 64 := pow_dvd_pow 2 (by decide)
  rw [wrappedSleepTime, ← Nat.mod_mul_mod, Nat.mod_mod_of_dvd _ hdvd, Nat.mod_mul_mod]
  ring_nf

theorem exactSleepTime_pos (h : p.sleepTime ≠ 0) (n : ℕ) : 0 < exactSleepTime p n :=
  Nat.mul_pos (Nat.pos_of_ne_zero h) (by positivity)

/-- A sleep of the right length comes from the right number of doublings. -/
theorem times_eq_of_slept {errors n : ℕ} (hsleep : p.sleepTime ≠ 0)
    (h : wrappedSleepTime p errors * 1000 % 2 ^ 32 = exactSleepTime p n * 1000) :
    numTimesToDouble p errors = numTimesToDouble p n ∧ exactSleepTime p n * 1000 < 2 ^ 32 := by
  have hlt : exactSleepTime p n * 1000 < 2 ^ 32 := h ▸ Nat.mod_lt _ (by positivity)
  have hswap : exactSleepTime p n * 1000 = p.sleepTime * 1000 * 2 ^ numTimesToDouble p n := by
    rw [exactSleepTime]
    ring
  rw [wrappedSleepTime_mod, hswap] at h
  exact ⟨eq_of_mul_two_pow_mod (by omega) (hswap ▸ hlt) h, hlt⟩

/-- A short sleep is computed without overflow. -/
theorem wrappedSleepTime_of_times {errors n : ℕ} (hsleep : p.sleepTime ≠ 0)
    (htimes : numTimesToDouble p errors = numTimesToDouble p n)
    (hlt : exactSleepTime p n * 1000 < 2 ^ 32) :
    wrappedSleepTime p errors = exactSleepTime p n ∧ numTimesToDouble p errors ≤ 63 ∧
      p.sleepTime ≤ exactSleepTime p n := by
  have hpos : 0 < 2 ^ numTimesToDouble p n := by positivity
  have hle : 2 ^ numTimesToDouble p n ≤ exactSleepTime p n :=
    Nat.le_mul_of_pos_left _ (Nat.pos_of_ne_zero hsleep)
  have hpow : 2 ^ numTimesToDouble p n < 2 ^ 32 := by omega
  have htimes' := (Nat.pow_lt_pow_iff_right one_lt_two).mp hpow
  refine ⟨?_, by omega, Nat.le_mul_of_pos_right _ hpos⟩
  rw [wrappedSleepTime, htimes]
  exact wrappedSleepTime_of_lt (by omega)

theorem bindDecision_eq_giveUp_iff (errors : ℕ) :
    bindDecision p errors = .giveUp ↔ Exhausted p errors ∨ p.sleepTime ≠ 0 ∧
      (63 < numTimesToDouble p errors ∨ wrappedSleepTime p errors < p.sleepTime) := by
  unfold bindDecision
  split
  next h => simp [h]
  next h =>
    split
    next h' => simp [h, h']
    next h' =>
      split
      next h'' => simp [h', h'']
      next h'' => split <;> simp_all

theorem bindDecision_eq_retry_iff {errors n : ℕ} :
    bindDecision p errors = .retry (exactSleepTime p n * 1000) ↔
      ¬Exhausted p errors ∧ (p.sleepTime = 0 ∨
        numTimesToDouble p errors = numTimesToDouble p n ∧
          exactSleepTime p n * 1000 < 2 ^ 32) := by
  have hmod : wrappedSleepTime p errors * 1000 % 2 ^ 64 % 2 ^ 32 =
      wrappedSleepTime p errors * 1000 % 2 ^ 32 :=
    Nat.mod_mod_of_dvd _ (pow_dvd_pow 2 (by decide))
  unfold bindDecision
  rw [hmod]
  by_cases hexhausted : Exhausted p errors
  · simp [hexhausted]
  · by_cases hsleep : p.sleepTime = 0
    · simp [hexhausted, hsleep, exactSleepTime]
    · rw [if_neg hexhausted, if_neg hsleep, and_iff_right hexhausted, or_iff_right hsleep]
      constructor
      · intro h
        split at h
        · cases h
        · split at h
          · cases h
          · exact times_eq_of_slept hsleep (Decision.retry.inj h)
      · rintro ⟨htimes, hlt⟩
        obtain ⟨hwrapped, hle, hsleep'⟩ := wrappedSleepTime_of_times hsleep htimes hlt
        rw [if_neg (by omega), hwrapped, if_neg (by omega), Nat.mod_eq_of_lt hlt]

theorem computeConnectSleepTime_nonneg_iff (errors : ℕ) :
    0 ≤ computeConnectSleepTime p errors ↔ ¬(Exhausted p errors ∨ p.sleepTime ≠ 0 ∧
      numTimesToDouble p errors ≤ 63 ∧ p.sleepTime ≤ wrappedSleepTime p errors ∧
        2 ^ 63 ≤ wrappedSleepTime p errors) := by
  have hlt := @wrappedSleepTime_lt p errors
  unfold computeConnectSleepTime signed64
  split
  next h => simp [h]
  next h =>
    split
    next h' => simp [h, h']
    next h' =>
      split
      next h'' =>
        simp only [le_refl, h, false_or, not_and, true_iff]
        omega
      next h'' =>
        split
        next h3 =>
          simp only [le_refl, h, false_or, not_and, true_iff]
          omega
        next h3 =>
          split
          next h4 =>
            simp only [h, false_or, not_and]
            omega
          next h4 =>
            simp only [h, false_or, not_and]
            omega

theorem connectDecision_eq_giveUp_iff (errors : ℕ) :
    connectDecision p errors false = .giveUp ↔ Exhausted p errors ∨ p.sleepTime ≠ 0 ∧
      numTimesToDouble p errors ≤ 63 ∧ p.sleepTime ≤ wrappedSleepTime p errors ∧
        2 ^ 63 ≤ wrappedSleepTime p errors := by
  have hnonneg := @computeConnectSleepTime_nonneg_iff p errors
  simp only [connectDecision, Bool.false_eq_true, if_false]
  split
  next h =>
    have hnot := hnonneg.mp h
    split <;> simpa using hnot
  next h => simpa using not_not.mp (mt hnonneg.mpr h)

/-- The sleep time that is computed where there is another attempt. -/
theorem computeConnectSleepTime_cases {errors : ℕ} (h : 0 ≤ computeConnectSleepTime p errors) :
    computeConnectSleepTime p errors = 0 ∨
      p.sleepTime ≠ 0 ∧ computeConnectSleepTime p errors = wrappedSleepTime p errors := by
  unfold computeConnectSleepTime signed64 at h ⊢
  split at h
  next => omega
  next hexhausted =>
    rw [if_neg hexhausted]
    split
    next => exact .inl rfl
    next hsleep =>
      rw [if_neg hsleep] at h
      split
      next => exact .inl rfl
      next htimes =>
        rw [if_neg htimes] at h
        split
        next => exact .inl rfl
        next hle =>
          rw [if_neg hle] at h
          split at h
          next hlt => exact .inr ⟨hsleep, if_pos hlt⟩
          next =>
            have := @wrappedSleepTime_lt p errors
            omega

theorem connectDecision_eq_retry_iff {errors n : ℕ} :
    connectDecision p errors false = .retry (exactSleepTime p n * 1000) ↔
      ¬Exhausted p errors ∧ (p.sleepTime = 0 ∨
        numTimesToDouble p errors = numTimesToDouble p n ∧
          exactSleepTime p n * 1000 < 2 ^ 32) := by
  by_cases hexhausted : Exhausted p errors
  · simp [connectDecision, computeConnectSleepTime, hexhausted]
  · by_cases hsleep : p.sleepTime = 0
    · simp [connectDecision, computeConnectSleepTime, hexhausted, hsleep, exactSleepTime]
    · rw [and_iff_right hexhausted, or_iff_right hsleep]
      simp only [connectDecision, Bool.false_eq_true, if_false]
      constructor
      · intro h
        split at h
        next hnonneg =>
          split at h
          · cases h
          · have hslept := Decision.retry.inj h
            obtain hzero | ⟨-, hwrapped⟩ := computeConnectSleepTime_cases hnonneg
            · -- without a sleep the product would be zero
              have hpos := exactSleepTime_pos hsleep n
              rw [hzero] at hslept
              omega
            · rw [hwrapped] at hslept
              exact times_eq_of_slept hsleep (by exact_mod_cast hslept)
        next => cases h
      · rintro ⟨htimes, hlt⟩
        obtain ⟨hwrapped, hle, hsleep'⟩ := wrappedSleepTime_of_times hsleep htimes hlt
        have hcompute : computeConnectSleepTime p errors = exactSleepTime p n := by
          rw [computeConnectSleepTime, if_neg hexhausted, if_neg hsleep, if_neg (by omega),
            hwrapped, if_neg (by omega), signed64, if_pos (by omega)]
        rw [hcompute, if_pos (by omega), if_neg (by omega)]
        congr 1
        omega

/-- **One failure.** It is answered as the policy has it if and only if the condition is met. -/
theorem refused_eq_expected_iff (op : Operation) (n : ℕ) (s : RetryStats) (elapsed : ℕ) :
    (refused p op s elapsed).1 = expected p op n s ↔
      TimedOut p op s ∨ Met p op n (errorsSeen op s) := by
  unfold expected Met
  by_cases hout : TimedOut p op s
  · obtain rfl : op = .connect := hout.1
    simp [refused, connectDecision, hout]
  · by_cases hends : Ends p op n
    · rw [if_pos (.inr hends), if_pos hends, or_iff_right hout]
      cases op with
      | connect =>
        simp only [refused, hout, decide_false]
        exact connectDecision_eq_giveUp_iff _
      | bind => exact bindDecision_eq_giveUp_iff _
    · rw [if_neg (not_or.mpr ⟨hout, hends⟩), if_neg hends, or_iff_right hout]
      cases op with
      | connect =>
        simp only [refused, hout, decide_false]
        exact connectDecision_eq_retry_iff
      | bind => exact bindDecision_eq_retry_iff

theorem conforms_iff (op : Operation) (n : ℕ) (s : RetryStats) (refusals : List ℕ) :
    Conforms p op n s refusals ↔ AllMet p op n s refusals := by
  induction refusals generalizing n s with
  | nil => exact Iff.rfl
  | cons elapsed rest ih =>
    simp only [Conforms, AllMet, refused_eq_expected_iff, ih]

/-- An operation that follows the policy ends within its retries. -/
theorem giveUp_mem_decisions {op : Operation} {n : ℕ} {s : RetryStats} {refusals : List ℕ}
    (h : Conforms p op n s refusals) (hretries : 0 ≤ p.numRetries)
    (hlength : p.numRetries < n + refusals.length) (hn : n ≤ p.numRetries) :
    .giveUp ∈ decisions p op s refusals := by
  induction refusals generalizing n s with
  | nil =>
    simp only [List.length_nil] at hlength
    omega
  | cons elapsed rest ih =>
    obtain ⟨hfirst, hrest⟩ := h
    rw [decisions]
    split
    next slept s' heq =>
      have hretry : (refused p op s elapsed).1 = .retry slept := by rw [heq]
      have hlt : ((n + 1 : ℕ) : ℤ) ≤ p.numRetries := by
        by_contra hgt
        have hends : Ends p op (n + 1) := .inl ⟨hretries, by omega⟩
        rw [hfirst, expected, if_pos (.inr hends)] at hretry
        cases hretry
      refine List.mem_cons_of_mem _ (ih ?_ (by push_cast [List.length_cons] at hlength ⊢; omega) hlt)
      simpa [heq] using hrest slept hretry
    next decision s' hne heq =>
      have hdecision : decision = expected p op (n + 1) s := by rw [← hfirst, heq]
      rw [expected] at hdecision
      split at hdecision
      · simp [hdecision]
      · exact absurd hdecision (hne _)

end

/-- One retry of five milliseconds. -/
def oneRetry : RetryParams := ⟨1, 5, 200, 0, by decide⟩

end Safrn.Socket

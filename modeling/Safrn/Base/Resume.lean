import Mathlib.Data.List.Basic

/-!
# Loops that are left and taken up again

A handler that runs out of input returns from the middle of its loops. Its loop counters are
fields, and the next call goes on from them. Code of this kind works off a list of items in order:
each way to compose it has one rule, which says what is left to do wherever it has stopped.
-/

namespace Safrn.Base

variable {ι κ D β : Type}

/-- How such code ends: it is done, or it waits to be called again; with its counters and data. -/
inductive Outcome (ι D : Type)
  | finished (counters : ι) (data : D)
  | suspended (counters : ι) (data : D)

/-- Code that goes on from its counters. -/
abbrev Resumable (ι D : Type) := ι → D → Outcome ι D

namespace Resumable

/-- At most `m` rounds of a loop from round `i` on. -/
def rounds (body : Nat → Resumable ι D) : Nat → Nat → ι → D → Outcome (Nat × ι) D
  | 0, i, x, d => .finished (i, x) d
  | m + 1, i, x, d =>
    match body i x d with
    | .finished x d => rounds body m (i + 1) x d
    | .suspended x d => .suspended (i, x) d

/-- `for (; i != n; ++i) body` for a counter `i` that is a field. -/
def loop (n : D → Nat) (body : Nat → Resumable ι D) : Resumable (Nat × ι) D := fun (i, x) d ↦
  rounds body (n d - i) i x d

/-- Set the counters at the end. -/
def reset (f : ι → ι) (c : Resumable ι D) : Resumable ι D := fun x d ↦
  match c x d with
  | .finished x d => .finished (f x) d
  | .suspended x d => .suspended x d

/-- One piece of code after the other, each with its own counters. -/
def both (c : Resumable ι D) (c' : Resumable κ D) : Resumable (ι × κ) D := fun (x, y) d ↦
  match c x d with
  | .suspended x d => .suspended (x, y) d
  | .finished x d =>
    match c' y d with
    | .suspended y d => .suspended (x, y) d
    | .finished y d => .finished (x, y) d

/-! ### What is left to do -/

variable (G : List β → D → Prop) (Stop : D → Prop)

/-- From counters at which the items `w` are left, the code works them off or stops with some of
them left. `G` is what holds of the data while certain items are left in all. -/
def Works (c : Resumable ι D) (At : ι → List β → Prop) (Done : ι → Prop) : Prop :=
  ∀ x w d later, At x w → G (w ++ later) d →
    (∃ x' d', c x d = .finished x' d' ∧ Done x' ∧ G later d') ∨
      ∃ x' d' w', c x d = .suspended x' d' ∧ At x' w' ∧ G (w' ++ later) d' ∧ Stop d'

/-- The items left in a loop: those of the current round and of the later ones. -/
def LoopAt (n : Nat) (At : Nat → ι → List β → Prop) (Start : ι → Prop) (items : Nat → List β) :
    Nat × ι → List β → Prop := fun (i, x) w ↦
  (i < n ∧ ∃ w₀, At i x w₀ ∧ w = w₀ ++ ((List.range n).drop (i + 1)).flatMap items) ∨
    (i = n ∧ Start x ∧ w = [])

/-- A finished loop. -/
def LoopDone (n : Nat) (Start : ι → Prop) : Nat × ι → Prop := fun (i, x) ↦ i = n ∧ Start x

/-- A loop that has not begun. -/
def LoopStart (Start : ι → Prop) : Nat × ι → Prop := fun (i, x) ↦ i = 0 ∧ Start x

/-- The items left in two pieces of code. -/
def BothAt (At : ι → List β → Prop) (Done : ι → Prop) (At' : κ → List β → Prop)
    (Start' : κ → Prop) (items' : List β) : ι × κ → List β → Prop := fun (x, y) w ↦
  (∃ w₀, At x w₀ ∧ Start' y ∧ w = w₀ ++ items') ∨ (Done x ∧ At' y w)

variable {G Stop}

/-- The items of a loop's rounds from `i` on. -/
private theorem drop_flatMap {n i : Nat} (hi : i < n) (items : Nat → List β) :
    ((List.range n).drop i).flatMap items =
      items i ++ ((List.range n).drop (i + 1)).flatMap items := by
  have hlen : i < (List.range n).length := by rwa [List.length_range]
  rw [List.drop_eq_getElem_cons hlen, List.flatMap_cons, List.getElem_range]

/-- All rounds of a loop are left before it begins. -/
theorem loopAt_start {n : Nat} {At : Nat → ι → List β → Prop} {Start : ι → Prop}
    {items : Nat → List β} (hstart : ∀ i < n, ∀ x, Start x → At i x (items i)) {x : Nat × ι}
    (hx : LoopStart Start x) : LoopAt n At Start items x ((List.range n).flatMap items) := by
  obtain ⟨i, x⟩ := x
  obtain ⟨rfl, hx⟩ := hx
  by_cases hn : 0 < n
  · have hitems := drop_flatMap hn items
    rw [List.drop_zero] at hitems
    exact .inl ⟨hn, items 0, hstart 0 hn x hx, hitems⟩
  · obtain rfl : n = 0 := by omega
    exact .inr ⟨rfl, hx, rfl⟩

private theorem rounds_works {n : Nat} {body : Nat → Resumable ι D}
    {At : Nat → ι → List β → Prop} {Start : ι → Prop} {items : Nat → List β}
    (hbody : ∀ i < n, Works G Stop (body i) (At i) Start)
    (hstart : ∀ i < n, ∀ x, Start x → At i x (items i)) (m : Nat) {i : Nat} (hm : i + m = n)
    {x : ι} {w later : List β} {d : D} (hat : LoopAt n At Start items (i, x) w)
    (hG : G (w ++ later) d) :
    (∃ x' d', rounds body m i x d = .finished x' d' ∧ LoopDone n Start x' ∧ G later d') ∨
      ∃ x' d' w', rounds body m i x d = .suspended x' d' ∧ LoopAt n At Start items x' w' ∧
        G (w' ++ later) d' ∧ Stop d' := by
  induction m generalizing i x w d with
  | zero =>
    rcases hat with ⟨hi, -⟩ | ⟨hi, hx, rfl⟩
    · omega
    · exact .inl ⟨(i, x), d, rfl, ⟨hi, hx⟩, hG⟩
  | succ m ih =>
    rcases hat with ⟨hi, w₀, hw₀, rfl⟩ | ⟨hi, -⟩
    · rw [List.append_assoc] at hG
      rcases hbody i hi x w₀ d _ hw₀ hG with
        ⟨x', d', hrun, hx', hG'⟩ | ⟨x', d', w', hrun, hat', hG', hstop⟩
      · -- the round is done, and the next one begins
        rw [rounds, hrun]
        dsimp only
        refine ih (by omega) (w := ((List.range n).drop (i + 1)).flatMap items) ?_ hG'
        by_cases hnext : i + 1 < n
        · exact .inl ⟨hnext, items (i + 1), hstart _ hnext _ hx', drop_flatMap hnext items⟩
        · refine .inr ⟨by omega, hx', ?_⟩
          rw [List.drop_eq_nil_of_le (by rw [List.length_range]; omega)]
          rfl
      · rw [rounds, hrun]
        refine .inr ⟨(i, x'), d', w' ++ ((List.range n).drop (i + 1)).flatMap items, rfl,
          .inl ⟨hi, w', hat', rfl⟩, ?_, hstop⟩
        rwa [List.append_assoc]
    · omega

/-- The rule of the loop: its rounds begin where the one before is done. -/
theorem Works.loop {n : Nat} {bound : D → Nat} {body : Nat → Resumable ι D}
    {At : Nat → ι → List β → Prop} {Start : ι → Prop} {items : Nat → List β}
    (hbound : ∀ w d, G w d → bound d = n)
    (hbody : ∀ i < n, Works G Stop (body i) (At i) Start)
    (hstart : ∀ i < n, ∀ x, Start x → At i x (items i)) :
    Works G Stop (Resumable.loop bound body) (LoopAt n At Start items) (LoopDone n Start) := by
  rintro ⟨i, x⟩ w d later hat hG
  have hi : i ≤ n := by
    rcases hat with ⟨hi, -⟩ | ⟨hi, -⟩ <;> omega
  rw [Resumable.loop, hbound _ _ hG]
  exact rounds_works hbody hstart (n - i) (by omega) hat hG

/-- The rule of the reset: it leads from the end to the start. -/
theorem Works.reset {c : Resumable ι D} {At : ι → List β → Prop} {Done Start : ι → Prop}
    {f : ι → ι} (h : Works G Stop c At Done) (hf : ∀ x, Done x → Start (f x)) :
    Works G Stop (Resumable.reset f c) At Start := by
  intro x w d later hat hG
  rcases h x w d later hat hG with ⟨x', d', hrun, hx', hG'⟩ | ⟨x', d', w', hrun, h'⟩
  · exact .inl ⟨f x', d', by rw [Resumable.reset, hrun], hf _ hx', hG'⟩
  · exact .inr ⟨x', d', w', by rw [Resumable.reset, hrun], h'⟩

/-- The rule of the sequence: while the second piece is at work, the first one is done and does
nothing. -/
theorem Works.both {c : Resumable ι D} {c' : Resumable κ D} {At : ι → List β → Prop}
    {Done : ι → Prop} {At' : κ → List β → Prop} {Done' Start' : κ → Prop} {items' : List β}
    (h : Works G Stop c At Done) (h' : Works G Stop c' At' Done')
    (hstart : ∀ y, Start' y → At' y items')
    (hidle : ∀ w d, G w d → ∀ x, Done x → c x d = .finished x d) :
    Works G Stop (Resumable.both c c') (BothAt At Done At' Start' items')
      fun (x, y) ↦ Done x ∧ Done' y := by
  rintro ⟨x, y⟩ w d later hat hG
  -- what the second piece does once the first one is done
  have hsecond : ∀ x' d' w', Done x' → At' y w' → G (w' ++ later) d' →
      c x d = .finished x' d' →
      (∃ z d'', Resumable.both c c' (x, y) d = .finished z d'' ∧ (Done z.1 ∧ Done' z.2) ∧
        G later d'') ∨
      ∃ z d'' w'', Resumable.both c c' (x, y) d = .suspended z d'' ∧
        BothAt At Done At' Start' items' z w'' ∧ G (w'' ++ later) d'' ∧ Stop d'' := by
    intro x' d' w' hx' hw' hG' hrun
    rcases h' y w' d' later hw' hG' with
      ⟨y', d'', hrun', hy', hG''⟩ | ⟨y', d'', w'', hrun', hat'', hG'', hstop⟩
    · refine .inl ⟨(x', y'), d'', ?_, ⟨hx', hy'⟩, hG''⟩
      simp only [Resumable.both, hrun, hrun']
    · refine .inr ⟨(x', y'), d'', w'', ?_, .inr ⟨hx', hat''⟩, hG'', hstop⟩
      simp only [Resumable.both, hrun, hrun']
  rcases hat with ⟨w₀, hw₀, hy, rfl⟩ | ⟨hx, hw⟩
  · rw [List.append_assoc] at hG
    rcases h x w₀ d _ hw₀ hG with
      ⟨x', d', hrun, hx', hG'⟩ | ⟨x', d', w', hrun, hat', hG', hstop⟩
    · exact hsecond x' d' items' hx' (hstart y hy) hG' hrun
    · refine .inr ⟨(x', y), d', w' ++ items', ?_, .inl ⟨w', hat', hy, rfl⟩, ?_, hstop⟩
      · simp only [Resumable.both, hrun]
      · rwa [List.append_assoc]
  · exact hsecond x d w hx hw hG (hidle _ _ hG x hx)

/-- A finished loop does nothing. -/
theorem loop_idle {n : Nat} {bound : D → Nat} {body : Nat → Resumable ι D} {Start : ι → Prop}
    (hbound : ∀ w d, G w d → bound d = n) (w : List β) (d : D) (hG : G w d) (x : Nat × ι)
    (hx : LoopDone n Start x) : loop bound body x d = .finished x d := by
  obtain ⟨i, x⟩ := x
  obtain ⟨rfl, -⟩ := hx
  rw [loop, hbound _ _ hG, Nat.sub_self]
  rfl

/-! ### Code that works off a list from its start -/

variable {ρ : Type} (G : ρ → List β → D → Prop) (Stop : ρ → D → Prop)

/-- From its start the code works off the items; `ρ` is what is still to come from outside, which
does not change what is left to do. -/
def WorksOff (c : Resumable ι D) (Start Done : ι → Prop) (items : List β) : Prop :=
  ∃ At, (∀ r, Works (G r) (Stop r) c At Done) ∧ ∀ x, Start x → At x items

variable {G Stop}

theorem WorksOff.loop {n : Nat} {bound : D → Nat} {body : Nat → Resumable ι D}
    {Start : ι → Prop} {items : Nat → List β} (hbound : ∀ r w d, G r w d → bound d = n)
    (hbody : ∀ i < n, WorksOff G Stop (body i) Start Start (items i)) :
    WorksOff G Stop (Resumable.loop bound body) (LoopStart Start) (LoopDone n Start)
      ((List.range n).flatMap items) := by
  have hAt : ∀ i, ∃ At : ι → List β → Prop, i < n →
      (∀ r, Works (G r) (Stop r) (body i) At Start) ∧ ∀ x, Start x → At x (items i) := by
    intro i
    by_cases hi : i < n
    · obtain ⟨At, hAt⟩ := hbody i hi
      exact ⟨At, fun _ ↦ hAt⟩
    · exact ⟨fun _ _ ↦ False, fun h ↦ absurd h hi⟩
  choose At hAt using hAt
  refine ⟨LoopAt n At Start items, fun r ↦ ?_, fun x hx ↦ ?_⟩
  · exact Works.loop (hbound r) (fun i hi ↦ (hAt i hi).1 r) fun i hi ↦ (hAt i hi).2
  · exact loopAt_start (fun i hi ↦ (hAt i hi).2) hx

theorem WorksOff.reset {c : Resumable ι D} {Start Done Start' : ι → Prop} {items : List β}
    {f : ι → ι} (h : WorksOff G Stop c Start Done items) (hf : ∀ x, Done x → Start' (f x)) :
    WorksOff G Stop (Resumable.reset f c) Start Start' items := by
  obtain ⟨At, hworks, hstart⟩ := h
  exact ⟨At, fun r ↦ (hworks r).reset hf, hstart⟩

theorem WorksOff.both {c : Resumable ι D} {c' : Resumable κ D} {Start Done : ι → Prop}
    {Start' Done' : κ → Prop} {items items' : List β} (h : WorksOff G Stop c Start Done items)
    (h' : WorksOff G Stop c' Start' Done' items')
    (hidle : ∀ r w d, G r w d → ∀ x, Done x → c x d = .finished x d) :
    WorksOff G Stop (Resumable.both c c') (fun (x, y) ↦ Start x ∧ Start' y)
      (fun (x, y) ↦ Done x ∧ Done' y) (items ++ items') := by
  obtain ⟨At, hworks, hstart⟩ := h
  obtain ⟨At', hworks', hstart'⟩ := h'
  refine ⟨BothAt At Done At' Start' items', fun r ↦ ?_, ?_⟩
  · exact (hworks r).both (hworks' r) hstart' (hidle r)
  · rintro ⟨x, y⟩ ⟨hx, hy⟩
    exact .inl ⟨items, hstart x hx, hy, rfl⟩

end Resumable
end Safrn.Base

import Mathlib.Data.List.Basic

/-!
# Buffers filled from a stream

A reader fills a sequence of buffers from input that arrives in pieces, and stops in the middle
of a buffer when a piece ends. However the input is cut, the full buffers are those that were
sent, and the reader is done exactly when everything has arrived.
-/

namespace Safrn.Base

variable {α : Type}

/-- The full buffers, the content of the current one, and the capacities of the current and the
later buffers. -/
structure Filling (α : Type) where
  full : List (List α)
  part : List α
  todo : List Nat

namespace Filling

/-- Nothing read yet. -/
def start (capacities : List Nat) : Filling α := { full := [], part := [], todo := capacities }

/-- Fill the buffers in order; the second component is what no buffer took. -/
def feed (full : List (List α)) (part : List α) : List Nat → List α → Filling α × List α
  | [], input => ({ full, part, todo := [] }, input)
  | capacity :: todo, input =>
    if input.length < capacity - part.length then
      ({ full, part := part ++ input, todo := capacity :: todo }, [])
    else
      feed (full ++ [part ++ input.take (capacity - part.length)]) [] todo
        (input.drop (capacity - part.length))

/-- Read what has arrived. -/
def read (f : Filling α) (input : List α) : Filling α × List α :=
  feed f.full f.part f.todo input

/-- The reader is in the middle of the buffers `sent`, and `rest` is still to come. -/
def Of (sent : List (List α)) (f : Filling α) (rest : List α) : Prop :=
  ∃ later, sent = f.full ++ later ∧ f.todo = later.map List.length ∧
    f.part ++ rest = later.flatten ∧ ∀ b t, later = b :: t → f.part.length ≤ b.length

theorem of_start (sent : List (List α)) :
    Of sent (start (sent.map List.length)) sent.flatten :=
  ⟨sent, rfl, rfl, rfl, fun _ _ _ ↦ Nat.zero_le _⟩

private theorem feed_of {later : List (List α)} (full : List (List α))
    {part input rest : List α} (hpart : part ++ (input ++ rest) = later.flatten)
    (hle : ∀ b t, later = b :: t → part.length ≤ b.length) :
    Of (full ++ later) (feed full part (later.map List.length) input).1 rest ∧
      (feed full part (later.map List.length) input).2 = [] ∧
      (rest = [] → (feed full part (later.map List.length) input).1.todo = []) := by
  induction later generalizing full part input with
  | nil =>
    obtain ⟨rfl, hin⟩ := List.append_eq_nil_iff.mp hpart
    obtain ⟨rfl, rfl⟩ := List.append_eq_nil_iff.mp hin
    exact ⟨⟨[], rfl, rfl, rfl, fun _ _ h ↦ by cases h⟩, rfl, fun _ ↦ rfl⟩
  | cons b later ih =>
    have hb := hle b later rfl
    rw [List.map_cons, feed]
    split
    · next hshort =>
      refine ⟨⟨b :: later, rfl, rfl, ?_, ?_⟩, rfl, fun hrest ↦ ?_⟩
      · rw [← hpart, List.append_assoc]
      · rintro _ _ ⟨rfl, rfl⟩
        rw [List.length_append]
        omega
      · -- everything is there, so the buffer cannot be short
        subst hrest
        have hlen := congrArg List.length hpart
        rw [List.append_nil, List.length_append, List.flatten_cons, List.length_append] at hlen
        omega
    · next hlong =>
      have hsplit : part ++ input.take (b.length - part.length) = b ∧
          input.drop (b.length - part.length) ++ rest = later.flatten := by
        have hlen : (part ++ input.take (b.length - part.length)).length = b.length := by
          rw [List.length_append, List.length_take]
          omega
        refine List.append_inj ?_ hlen
        rw [List.append_assoc, ← List.append_assoc (input.take _), List.take_append_drop, hpart,
          List.flatten_cons]
      have hnext : [] ++ (input.drop (b.length - part.length) ++ rest) = later.flatten := hsplit.2
      have hih := ih (full ++ [b]) hnext fun _ _ _ ↦ Nat.zero_le _
      rw [hsplit.1]
      rwa [List.append_assoc, List.singleton_append] at hih

/-- A piece of what is to come is taken whole; when it is the last one, every buffer is full. -/
theorem Of.read {sent : List (List α)} {f : Filling α} {input rest : List α}
    (h : Of sent f (input ++ rest)) :
    Of sent (f.read input).1 rest ∧ (f.read input).2 = [] ∧
      (rest = [] → (f.read input).1.todo = []) := by
  obtain ⟨later, rfl, htodo, hpart, hle⟩ := h
  rw [Filling.read, htodo]
  exact feed_of _ hpart hle

/-- A reader that is done has read what was sent, and nothing is to come. -/
theorem Of.full {sent : List (List α)} {f : Filling α} {rest : List α} (h : Of sent f rest)
    (htodo : f.todo = []) : f.full = sent ∧ rest = [] := by
  obtain ⟨later, rfl, hlater, hpart, -⟩ := h
  obtain rfl : later = [] := List.map_eq_nil_iff.mp (hlater.symm.trans htodo)
  exact ⟨(List.append_nil _).symm, (List.append_eq_nil_iff.mp hpart).2⟩

end Filling

/-- Block `i` of a sequence of blocks of one length. -/
theorem take_drop_flatten {β : Type} {blocks : List (List β)} {n : Nat}
    (hn : ∀ b ∈ blocks, b.length = n) {i : Nat} (hi : i < blocks.length) :
    (blocks.flatten.drop (i * n)).take n = blocks[i] := by
  induction blocks generalizing i with
  | nil => cases hi
  | cons b blocks ih =>
    have hb : b.length = n := hn b List.mem_cons_self
    cases i with
    | zero =>
      rw [Nat.zero_mul, List.drop_zero, List.flatten_cons, List.take_left' hb]
      rfl
    | succ i =>
      rw [Nat.succ_mul, Nat.add_comm, ← List.drop_drop, List.flatten_cons, List.drop_left' hb,
        ih (fun b' hb' ↦ hn b' (List.mem_cons_of_mem _ hb')) (Nat.lt_of_succ_lt_succ hi)]
      rfl

end Safrn.Base

import Mathlib.Order.Defs.Unbundled
import Mathlib.Data.List.Basic

/-!
# Where a list attains its extreme

The extreme is taken for a total preorder `r`, read as being no worse. In two lists one after the
other it is attained where the better one of the two attains it, and in both if none is better.
-/

namespace Safrn.Base

variable {α : Type*}

/-- The entry at position `i` is `x`, and no worse than any entry. -/
structure BestAt (r : α → α → Prop) (xs : List α) (i : ℕ) (x : α) : Prop where
  entry : xs[i]? = some x
  best : ∀ y ∈ xs, r x y

/-- The extreme is attained at position `i`. -/
def Attains (r : α → α → Prop) (xs : List α) (i : ℕ) : Prop := ∃ x, BestAt r xs i x

/-- The first position of the extreme. -/
def FirstAttained (r : α → α → Prop) (xs : List α) (i : ℕ) : Prop :=
  Attains r xs i ∧ ∀ j, Attains r xs j → i ≤ j

/-- The last position of the extreme. -/
def LastAttained (r : α → α → Prop) (xs : List α) (i : ℕ) : Prop :=
  Attains r xs i ∧ ∀ j, Attains r xs j → j ≤ i

/-- The extreme has one position. -/
def AttainedOnce (r : α → α → Prop) (xs : List α) : Prop :=
  ∀ i j, Attains r xs i → Attains r xs j → i = j

variable {r : α → α → Prop} {xs ys : List α} {i k l : ℕ} {x y : α}

theorem BestAt.lt_length (h : BestAt r xs i x) : i < xs.length :=
  (List.getElem?_eq_some_iff.mp h.entry).1

theorem BestAt.mem (h : BestAt r xs i x) : x ∈ xs := List.mem_of_getElem? h.entry

theorem Attains.lt_length (h : Attains r xs i) : i < xs.length := by
  obtain ⟨x, hx⟩ := h
  exact hx.lt_length

/-- The last position is the first one exactly if there is one. -/
theorem LastAttained.firstAttained_iff (h : LastAttained r xs i) :
    FirstAttained r xs i ↔ AttainedOnce r xs := by
  refine ⟨fun hf j k hj hk ↦ ?_, fun ho ↦ ⟨h.1, fun j hj ↦ Nat.le_of_eq (ho i j h.1 hj)⟩⟩
  have h₁ := h.2 j hj
  have h₂ := h.2 k hk
  have h₃ := hf.2 j hj
  have h₄ := hf.2 k hk
  omega

/-- Where two lists one after the other attain their extreme. -/
theorem attains_append_iff [IsTrans α r] (hx : BestAt r xs k x) (hy : BestAt r ys l y) :
    Attains r (xs ++ ys) i ↔
      i < xs.length ∧ Attains r xs i ∧ r x y ∨
      xs.length ≤ i ∧ Attains r ys (i - xs.length) ∧ r y x := by
  constructor
  · rintro ⟨z, hz⟩
    have hxs : ∀ w ∈ xs, r z w := fun w hw ↦ hz.best w (List.mem_append_left ys hw)
    have hys : ∀ w ∈ ys, r z w := fun w hw ↦ hz.best w (List.mem_append_right xs hw)
    by_cases hi : i < xs.length
    · left
      have hentry : xs[i]? = some z := by
        rw [← hz.entry, List.getElem?_append_left hi]
      refine ⟨hi, ⟨z, hentry, hxs⟩, ?_⟩
      exact trans_of r (hx.best z (List.mem_of_getElem? hentry)) (hys y hy.mem)
    · right
      have hentry : ys[i - xs.length]? = some z := by
        rw [← hz.entry, List.getElem?_append_right (by omega)]
      refine ⟨by omega, ⟨z, hentry, hys⟩, ?_⟩
      exact trans_of r (hy.best z (List.mem_of_getElem? hentry)) (hxs x hx.mem)
  · rintro (⟨hi, ⟨z, hz⟩, hxy⟩ | ⟨hi, ⟨z, hz⟩, hyx⟩)
    · refine ⟨z, ?_, fun w hw ↦ ?_⟩
      · rw [List.getElem?_append_left hi, hz.entry]
      · rcases List.mem_append.mp hw with hw | hw
        · exact hz.best w hw
        · exact trans_of r (trans_of r (hz.best x hx.mem) hxy) (hy.best w hw)
    · refine ⟨z, ?_, fun w hw ↦ ?_⟩
      · rw [List.getElem?_append_right hi, hz.entry]
      · rcases List.mem_append.mp hw with hw | hw
        · exact trans_of r (trans_of r (hz.best y hy.mem) hyx) (hx.best w hw)
        · exact hz.best w hw

/-- If the right list is no worse, it has the last position. -/
theorem LastAttained.append_right [IsTrans α r] (hk : BestAt r xs k x)
    (hl : LastAttained r ys l) (hy : BestAt r ys l y) (hyx : r y x) :
    LastAttained r (xs ++ ys) (xs.length + l) := by
  refine ⟨(attains_append_iff hk hy).mpr (.inr ⟨by omega, ?_, hyx⟩), fun j hj ↦ ?_⟩
  · rw [Nat.add_sub_cancel_left]
    exact hl.1
  · rcases (attains_append_iff hk hy).mp hj with ⟨h, -, -⟩ | ⟨h, hj, -⟩
    · omega
    · have hle := hl.2 _ hj
      omega

/-- If the right list is worse, the left one has the last position. -/
theorem LastAttained.append_left [IsTrans α r] [Std.Total r] (hk : LastAttained r xs k)
    (hx : BestAt r xs k x) (hy : BestAt r ys l y) (hyx : ¬r y x) :
    LastAttained r (xs ++ ys) k := by
  have hxy : r x y := (total_of r x y).resolve_right hyx
  refine ⟨(attains_append_iff hx hy).mpr (.inl ⟨hx.lt_length, hk.1, hxy⟩), fun j hj ↦ ?_⟩
  rcases (attains_append_iff hx hy).mp hj with ⟨-, hj, -⟩ | ⟨-, -, h⟩
  · exact hk.2 j hj
  · exact absurd h hyx

/-- The best of two lists is the best of both, at the place that its list has there. -/
theorem BestAt.append_right [IsTrans α r] (hx : BestAt r xs k x) (hy : BestAt r ys l y)
    (hyx : r y x) : BestAt r (xs ++ ys) (xs.length + l) y where
  entry := by
    rw [List.getElem?_append_right (by omega), Nat.add_sub_cancel_left, hy.entry]
  best w hw := by
    rcases List.mem_append.mp hw with hw | hw
    · exact trans_of r hyx (hx.best w hw)
    · exact hy.best w hw

theorem BestAt.append_left [IsTrans α r] (hx : BestAt r xs k x) (hy : BestAt r ys l y)
    (hxy : r x y) : BestAt r (xs ++ ys) k x where
  entry := by
    rw [List.getElem?_append_left hx.lt_length, hx.entry]
  best w hw := by
    rcases List.mem_append.mp hw with hw | hw
    · exact hx.best w hw
    · exact trans_of r hxy (hy.best w hw)

end Safrn.Base

import Mathlib.Algebra.GroupWithZero.Nat
import Mathlib.Data.List.Forall2
import Mathlib.Data.List.Zip
import Safrn.Base.Loop

/-!
# Messages that are added up

A reader takes items from the front of a message. What is written by a loop over a vector is read by
a loop over a vector of the same length, which may combine each item with an element of its own. A
receiver that combines the vectors of several messages with its own holds the combination of the
items at each place, whatever the order of the messages is.
-/

namespace Safrn.Base

/-! ### Reading -/

/-- A computation that reads items of a message, which may not be there. -/
abbrev Reading (C : Type) := StateT (List C) Option

variable {C α β γ : Type}

/-- The items are what the reader takes for the value, with others behind them. -/
def Takes (read : Reading C α) (items : List C) (x : α) : Prop :=
  ∀ rest, read.run (items ++ rest) = some (x, rest)

theorem takes_pure (x : α) : Takes (pure x : Reading C α) [] x := fun _ ↦ rfl

theorem Takes.bind {read : Reading C α} {next : α → Reading C β} {items items' : List C} {x : α}
    {y : β} (h : Takes read items x) (h' : Takes (next x) items' y) :
    Takes (read >>= next) (items ++ items') y := by
  intro rest
  rw [StateT.run_bind, List.append_assoc, h]
  exact h' rest

/-- A value that is computed from what is read. -/
theorem Takes.map {read : Reading C α} {items : List C} {x : α} (h : Takes read items x)
    (f : α → β) : Takes (read >>= fun a ↦ pure (f a)) items (f x) := by
  have hmap : Takes (read >>= fun a ↦ pure (f a)) (items ++ []) (f x) := h.bind (takes_pure (f x))
  rwa [List.append_nil] at hmap

/-- A loop reads what a loop has written. -/
theorem takes_mapM {read : α → Reading C γ} {write : β → List C} {op : α → β → γ} {xs : List α}
    {ys : List β} (h : List.Forall₂ (fun x y ↦ Takes (read x) (write y) (op x y)) xs ys) :
    Takes (xs.mapM read) (ys.flatMap write) (List.zipWith op xs ys) := by
  induction h with
  | nil => exact takes_pure []
  | @cons x y xs ys hx _ ih =>
    rw [List.mapM_cons, List.flatMap_cons, List.zipWith_cons_cons]
    exact hx.bind (ih.map (op x y :: ·))

/-- The same for a loop that writes one item for each element. -/
theorem takes_mapM_map {read : α → Reading C γ} {write : β → C} {op : α → β → γ}
    (h : ∀ x y, Takes (read x) [write y] (op x y)) {xs : List α} {ys : List β}
    (hlength : xs.length = ys.length) :
    Takes (xs.mapM read) (ys.map write) (List.zipWith op xs ys) := by
  rw [List.map_eq_flatMap]
  exact takes_mapM (List.forall₂_iff_zip.mpr ⟨hlength, fun _ ↦ h _ _⟩)

/-! ### Writing -/

/-- A loop over the places of a vector goes through its elements. -/
theorem collect_getElem?_bind {n : ℕ} {xs : List α} {f : α → Option β} {g : α → β}
    (hlength : xs.length = n) (h : ∀ x ∈ xs, f x = some (g x)) :
    collect n (fun i ↦ xs[i]?.bind f) = some (xs.map g) := by
  have hloop : ∃ done, collect n (fun i ↦ xs[i]?.bind f) = some done ∧
      done = (xs.take n).map g := by
    apply forRangeM_invariant fun k done ↦ done = (xs.take k).map g
    · rfl
    · rintro i hi done rfl
      have hlt : i < xs.length := hlength ▸ hi
      refine ⟨(xs.take (i + 1)).map g, ?_, rfl⟩
      simp only
      rw [List.getElem?_eq_getElem hlt, Option.bind_some, h _ (List.getElem_mem hlt),
        Option.map_some, List.take_succ_eq_append_getElem hlt, List.map_append]
      rfl
  obtain ⟨done, hrun, rfl⟩ := hloop
  rw [hrun, ← hlength, List.take_length]

theorem collect_getElem?_map {n : ℕ} {xs : List α} (g : α → β) (hlength : xs.length = n) :
    collect n (fun i ↦ xs[i]?.map g) = some (xs.map g) := by
  have hbind : (fun i : ℕ ↦ xs[i]?.map g) = fun i ↦ xs[i]?.bind fun x ↦ some (g x) :=
    funext fun i ↦ Option.map_eq_bind
  rw [hbind, collect_getElem?_bind hlength fun x _ ↦ rfl]

/-! ### Adding up -/

section Sum

variable {op : α → β → α} {xs : List α} {vectors : List (List β)}

theorem length_zipWith_eq {ys : List β} {n : ℕ} (hxs : xs.length = n) (hys : ys.length = n) :
    (List.zipWith op xs ys).length = n := by
  rw [List.length_zipWith, hxs, hys, Nat.min_self]

/-- Each place holds what the items at this place lead to. -/
theorem getElem?_foldl_zipWith (default : β) (h : ∀ ys ∈ vectors, ys.length = xs.length) (i : ℕ) :
    (vectors.foldl (List.zipWith op) xs)[i]? =
      xs[i]?.map fun x ↦ (vectors.map fun ys ↦ ys.getD i default).foldl op x := by
  induction vectors generalizing xs with
  | nil => simp
  | cons ys vectors ih =>
    obtain ⟨hys, hvectors⟩ := List.forall_mem_cons.mp h
    have hlength : (List.zipWith op xs ys).length = xs.length := length_zipWith_eq rfl hys
    rw [List.foldl_cons, ih fun zs hzs ↦ (hvectors zs hzs).trans hlength.symm, List.map_cons]
    by_cases hi : i < xs.length
    · have hi' : i < ys.length := hys ▸ hi
      rw [List.getElem?_eq_getElem (hlength.symm ▸ hi), List.getElem?_eq_getElem hi,
        Option.map_some, Option.map_some, List.getElem_zipWith, List.foldl_cons,
        List.getD_eq_getElem?_getD, List.getElem?_eq_getElem hi', Option.getD_some]
    · have hnone := Nat.not_lt.mp hi
      rw [List.getElem?_eq_none (hlength.symm ▸ hnone), List.getElem?_eq_none hnone]
      rfl

/-- What the items at all places lead to is the combination of the vectors. -/
theorem foldl_zipWith_eq (default : β) {result : List α} (h : ∀ ys ∈ vectors, ys.length = xs.length)
    (hlength : result.length = xs.length)
    (hitems : ∀ i x, xs[i]? = some x →
      result[i]? = some ((vectors.map fun ys ↦ ys.getD i default).foldl op x)) :
    vectors.foldl (List.zipWith op) xs = result := by
  apply List.ext_getElem?
  intro i
  rw [getElem?_foldl_zipWith default h]
  by_cases hi : i < xs.length
  · rw [List.getElem?_eq_getElem hi, Option.map_some, hitems i _ (List.getElem?_eq_getElem hi)]
  · have hnone := Nat.not_lt.mp hi
    rw [List.getElem?_eq_none hnone, List.getElem?_eq_none (hlength.symm ▸ hnone)]
    rfl

end Sum

/-- Numbers that are added modulo `m` leave the residue of their sum. -/
theorem foldl_modAdd {modAdd : ℕ → ℕ → ℕ} {m : ℕ} (h : ∀ a b, modAdd a b = (a + b) % m) {x : ℕ}
    {shares : List ℕ} (hne : shares ≠ []) : shares.foldl modAdd x = (x + shares.sum) % m := by
  induction shares generalizing x with
  | nil => contradiction
  | cons share shares ih =>
    rw [List.foldl_cons, List.sum_cons, h]
    by_cases hnil : shares = []
    · rw [hnil, List.foldl_nil, List.sum_nil, Nat.add_zero]
    · rw [ih hnil, Nat.mod_add_mod, Nat.add_assoc]

end Safrn.Base

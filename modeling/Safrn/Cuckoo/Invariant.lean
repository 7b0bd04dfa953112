import Safrn.Cuckoo.Build
import Mathlib.Algebra.Order.Group.Multiset
import Mathlib.Data.Multiset.Filter
import Mathlib.Data.Multiset.MapFold
import Mathlib.Data.Multiset.AddSub
import Mathlib.Tactic.Abel
import Mathlib.Tactic.Common

/-!
# What the eviction loops keep

The queues of a subtable always hold exactly the elements that one multiset places there, each
in its own cell. One eviction moves one element from the multiset of its side to the evicted
list; the loop ends with every queue of both sides holding at most one element.
-/

namespace Safrn.Cuckoo
namespace HashParams

variable (p : HashParams)

/-- What the elements `H` leave in cell `h` of subtable `vc`. -/
def content (H : Multiset Nat) (vc h : Nat) : Multiset Nat :=
  (H.filter (fun x ↦ p.cell vc x = h)).map p.splitR

/-- Subtable `vc` holds exactly the elements `H`, each in its cell. -/
def Holds (U : Queues) (vc : Nat) (H : Multiset Nat) : Prop :=
  ∀ h, (U vc h : Multiset Nat) = p.content H vc h

/-- Every queue of the subtable holds at most one element. -/
def Flat (U : Queues) (vc : Nat) : Prop := ∀ h, (U vc h).length ≤ 1

variable {p}

/-- An element leaves its stored part in its own cell. -/
theorem content_cons_self (H : Multiset Nat) (vc x : Nat) :
    p.content (x ::ₘ H) vc (p.cell vc x) = p.splitR x ::ₘ p.content H vc (p.cell vc x) := by
  rw [content, Multiset.filter_cons_of_pos (p := fun y ↦ p.cell vc y = p.cell vc x) H rfl,
    Multiset.map_cons, content]

/-- An element leaves nothing in another cell. -/
theorem content_cons_of_ne (H : Multiset Nat) {vc x h : Nat} (hc : p.cell vc x ≠ h) :
    p.content (x ::ₘ H) vc h = p.content H vc h := by
  rw [content, Multiset.filter_cons_of_neg (p := fun y ↦ p.cell vc y = h) H hc, content]

/-- Empty queues hold nothing. -/
theorem holds_empty (vc : Nat) : p.Holds Queues.empty vc 0 := fun _ ↦ rfl

/-- Writing a queue of another subtable changes nothing here. -/
theorem holds_set_of_ne {U : Queues} {vc vb h : Nat} {q : List Nat} {H : Multiset Nat}
    (hv : vc ≠ vb) : p.Holds (U.set vb h q) vc H ↔ p.Holds U vc H := by
  simp [Holds, Queues.set, hv]

/-- Appending an element's stored part to its cell adds the element. -/
theorem holds_set_append {U : Queues} {vc x : Nat} {H : Multiset Nat} (hH : p.Holds U vc H) :
    p.Holds (U.set vc (p.cell vc x) (U vc (p.cell vc x) ++ [p.splitR x])) vc (x ::ₘ H) := by
  intro h
  by_cases hc : p.cell vc x = h
  · subst hc
    simp only [Queues.set, and_self, ite_true]
    rw [content_cons_self, ← hH (p.cell vc x), ← Multiset.coe_add, Multiset.coe_singleton,
      Multiset.add_comm, Multiset.singleton_add]
  · simp only [Queues.set, Ne.symm hc, and_false, ite_false]
    rw [content_cons_of_ne H hc, hH h]

/-- Erasing an element's stored part from its cell removes the element. -/
theorem holds_set_erase {U : Queues} {vc x : Nat} {q : List Nat} {H : Multiset Nat}
    (hH : p.Holds U vc H) (hx : x ∈ H)
    (hq : (q : Multiset Nat) = ((U vc (p.cell vc x)).erase (p.splitR x) : List Nat)) :
    p.Holds (U.set vc (p.cell vc x) q) vc (H.erase x) := by
  intro h
  obtain ⟨K, rfl⟩ := Multiset.exists_cons_of_mem hx
  rw [Multiset.erase_cons_head]
  by_cases hc : p.cell vc x = h
  · subst hc
    simp only [Queues.set, and_self, ite_true]
    rw [hq, ← Multiset.coe_erase, hH (p.cell vc x), content_cons_self,
      Multiset.erase_cons_head]
  · simp only [Queues.set, Ne.symm hc, and_false, ite_false]
    rw [hH h, content_cons_of_ne K hc]

/-- What a queue holds comes from an element placed in that cell. -/
theorem Holds.exists_mem {U : Queues} {vc h xR : Nat} {H : Multiset Nat} (hH : p.Holds U vc H)
    (hm : xR ∈ U vc h) : ∃ x ∈ H, p.cell vc x = h ∧ p.splitR x = xR := by
  rw [← Multiset.mem_coe, hH h, content, Multiset.mem_map] at hm
  obtain ⟨x, hx, rfl⟩ := hm
  obtain ⟨hxH, hc⟩ := Multiset.mem_filter.mp hx
  exact ⟨x, hxH, hc, rfl⟩

/-- An element that is placed is in the queue of its cell. -/
theorem Holds.mem_cell {U : Queues} {vc x : Nat} {H : Multiset Nat} (hH : p.Holds U vc H)
    (hx : x ∈ H) : p.splitR x ∈ U vc (p.cell vc x) := by
  rw [← Multiset.mem_coe, hH]
  exact Multiset.mem_map_of_mem _ (Multiset.mem_filter.mpr ⟨hx, rfl⟩)

/-- `insertAt` adds the element in each listed subtable. -/
theorem holds_insertAt {x vc : Nat} {H : Multiset Nat} {vcs : List Nat} (hn : vcs.Nodup)
    {U : Queues} (hH : p.Holds U vc H) :
    p.Holds (p.insertAt vcs U x) vc (if vc ∈ vcs then x ::ₘ H else H) := by
  induction vcs generalizing U with
  | nil => simpa [insertAt] using hH
  | cons vb vbs ih =>
    obtain ⟨hvb, hn'⟩ := List.nodup_cons.mp hn
    by_cases hv : vc = vb
    · subst hv
      simp only [List.mem_cons, true_or, ite_true]
      have hrest : ∀ (W : Queues) (K : Multiset Nat), p.Holds W vc K →
          p.Holds (p.insertAt vbs W x) vc K := by
        clear ih hn hn'
        induction vbs with
        | nil => exact fun W K hW ↦ hW
        | cons vd vds ihd =>
          intro W K hW
          have hne : vc ≠ vd := fun he ↦ hvb (he ▸ List.mem_cons_self)
          exact ihd (fun hm ↦ hvb (List.mem_cons_of_mem _ hm)) _ _
            ((holds_set_of_ne hne).mpr hW)
      exact hrest _ _ (holds_set_append hH)
    · have h := ih hn' (U := U.set vb (p.cell vb x) (U vb (p.cell vb x) ++ [p.splitR x]))
        ((holds_set_of_ne hv).mpr hH)
      simpa [hv, insertAt] using h

/-- Inserting a list of elements adds them all in the listed subtables. -/
theorem holds_foldl_insertAt {vc : Nat} {vcs : List Nat} (hn : vcs.Nodup) (xs : List Nat)
    {U : Queues} {H : Multiset Nat} (hH : p.Holds U vc H) :
    p.Holds (xs.foldl (p.insertAt vcs) U) vc (if vc ∈ vcs then H + xs else H) := by
  induction xs generalizing U H with
  | nil => simpa using hH
  | cons x xs ih =>
    have h := ih (holds_insertAt (x := x) hn hH)
    simp only [List.foldl_cons]
    split at h
    · next hv =>
      rw [if_pos hv, ← Multiset.cons_coe, Multiset.add_cons]
      rwa [Multiset.cons_add] at h
    · next hv => rwa [if_neg hv]

/-- A subtable that an insertion does not list keeps its queues. -/
theorem foldl_insertAt_of_notMem {vc : Nat} {vcs : List Nat} (hv : vc ∉ vcs) (xs : List Nat)
    (U : Queues) : (xs.foldl (p.insertAt vcs) U) vc = U vc := by
  have hone : ∀ (ws : List Nat) (W : Queues) (x : Nat), vc ∉ ws →
      p.insertAt ws W x vc = W vc := by
    intro ws
    induction ws with
    | nil => intros; rfl
    | cons vd vds ih =>
      intro W x hm
      obtain ⟨hne, hm'⟩ := List.ne_and_not_mem_of_not_mem_cons hm
      simp only [insertAt, List.foldl_cons]
      rw [← insertAt, ih _ _ hm']
      funext h
      simp [Queues.set, hne]
  induction xs generalizing U with
  | nil => rfl
  | cons x xs ih => rw [List.foldl_cons, ih, hone vcs U x hv]

/-! ### Evictions -/

/-- Taking an element out of the listed subtables removes it there and nowhere else. -/
theorem holds_foldl_remove {x vc : Nat} {H : Multiset Nat} {vcs : List Nat} (hn : vcs.Nodup)
    {U : Queues} (hH : p.Holds U vc H) (hx : x ∈ H) :
    p.Holds (vcs.foldl (p.remove x (p.splitR x)) U) vc (if vc ∈ vcs then H.erase x else H) := by
  induction vcs generalizing U with
  | nil => simpa using hH
  | cons vb vbs ih =>
    obtain ⟨hvb, hn'⟩ := List.nodup_cons.mp hn
    by_cases hv : vc = vb
    · subst hv
      rw [if_pos List.mem_cons_self]
      have hrest : ∀ (ws : List Nat) (W : Queues) (K : Multiset Nat), vc ∉ ws →
          p.Holds W vc K → p.Holds (ws.foldl (p.remove x (p.splitR x)) W) vc K := by
        intro ws
        induction ws with
        | nil => exact fun W K _ hW ↦ hW
        | cons vd vds ihd =>
          intro W K hm hW
          obtain ⟨hne, hm'⟩ := List.ne_and_not_mem_of_not_mem_cons hm
          exact ihd _ _ hm' ((holds_set_of_ne hne).mpr hW)
      exact hrest vbs _ _ hvb (holds_set_erase hH hx rfl)
    · have h := ih hn' (U := p.remove x (p.splitR x) U vb) ((holds_set_of_ne hv).mpr hH)
      simpa [hv] using h

/-- Taking an element out never makes a queue longer. -/
theorem length_foldl_remove_le (x xR : Nat) (vcs : List Nat) (U : Queues) (vc h : Nat) :
    (vcs.foldl (p.remove x xR) U vc h).length ≤ (U vc h).length := by
  induction vcs generalizing U with
  | nil => exact Nat.le_refl _
  | cons vb vbs ih =>
    refine Nat.le_trans (ih _) ?_
    simp only [remove, Queues.set]
    split
    · next he =>
      obtain ⟨rfl, rfl⟩ := he
      exact List.length_erase_le
    · exact Nat.le_refl _

/-- Taking an element out leaves the subtables that are not listed as they were. -/
theorem foldl_remove_of_notMem {x xR vc : Nat} {vcs : List Nat} (hv : vc ∉ vcs) (U : Queues) :
    vcs.foldl (p.remove x xR) U vc = U vc := by
  induction vcs generalizing U with
  | nil => rfl
  | cons vb vbs ih =>
    obtain ⟨hne, hv'⟩ := List.ne_and_not_mem_of_not_mem_cons hv
    rw [List.foldl_cons, ih hv']
    funext h
    simp [remove, Queues.set, hne]

variable (p) in
/-- The elements `X` are exactly those placed on side `0`, those placed on side `1` and the
evicted ones; the subtables of a side hold exactly the elements placed on it. -/
structure Placed (sub : Nat → List Nat) (st : Pass) (X : Multiset Nat)
    (H : Nat → Multiset Nat) : Prop where
  sum : H 0 + H 1 + st.S = X
  holds : ∀ w < 2, ∀ vc ∈ sub w, p.Holds st.U vc (H w)

/-- The two sides of a build occupy their subtables without repetition or overlap. -/
structure Sides (sub : Nat → List Nat) : Prop where
  nodup : ∀ w, (sub w).Nodup
  disjoint : ∀ w vc, vc ∈ sub w → vc ∉ sub (1 - w)

variable (p) in
/-- What every part of a pass over side `w` does: it moves elements of that side to the evicted
list, lengthens no queue, and touches no other subtable. -/
structure PassSpec (sub : Nat → List Nat) (w : Nat) (st st' : Pass) : Prop where
  placed : ∀ X H, (∀ x ∈ X, x < 2 ^ p.xBits) → p.Placed sub st X H →
    ∃ H', p.Placed sub st' X H'
  shrinks : ∀ vc h, (st'.U vc h).length ≤ (st.U vc h).length
  frame : ∀ vc, vc ∉ sub w → st'.U vc = st.U vc

/-- Doing nothing is a pass. -/
theorem PassSpec.refl (sub : Nat → List Nat) (w : Nat) (st : Pass) : p.PassSpec sub w st st :=
  ⟨fun _ H _ h ↦ ⟨H, h⟩, fun _ _ ↦ Nat.le_refl _, fun _ _ ↦ rfl⟩

/-- Two passes over one side compose. -/
theorem PassSpec.trans {sub : Nat → List Nat} {w : Nat} {st st' st'' : Pass}
    (h₁ : p.PassSpec sub w st st') (h₂ : p.PassSpec sub w st' st'') :
    p.PassSpec sub w st st'' where
  placed X H hX hP := by
    obtain ⟨H', hP'⟩ := h₁.placed X H hX hP
    exact h₂.placed X H' hX hP'
  shrinks vc h := Nat.le_trans (h₂.shrinks vc h) (h₁.shrinks vc h)
  frame vc hv := (h₂.frame vc hv).trans (h₁.frame vc hv)

/-- A fold of passes is a pass. -/
theorem PassSpec.foldl {α : Type} {sub : Nat → List Nat} {w : Nat} {g : Pass → α → Pass}
    {l : List α} (hg : ∀ st, ∀ a ∈ l, p.PassSpec sub w st (g st a)) (st : Pass) :
    p.PassSpec sub w st (l.foldl g st) := by
  induction l generalizing st with
  | nil => exact .refl sub w st
  | cons a l ih =>
    exact (hg st a List.mem_cons_self).trans
      (ih (fun st b hb ↦ hg st b (List.mem_cons_of_mem _ hb)) _)

/-- One eviction is a pass. -/
theorem passSpec_evict {sub : Nat → List Nat} (hs : Sides sub) {w vc : Nat} (hw : w < 2)
    (hvc : vc ∈ sub w) (h : Nat) (st : Pass) :
    p.PassSpec sub w st (p.evict ((sub w).erase vc) vc h st) := by
  unfold evict
  split
  · exact .refl sub w st
  next xR rest hq =>
  have hvce : vc ∉ (sub w).erase vc := (hs.nodup w).not_mem_erase
  constructor
  · intro X H hX hP
    obtain ⟨x, hx, hc, rfl⟩ := (hP.holds w hw vc hvc).exists_mem (hq ▸ List.mem_cons_self)
    have hxX : x ∈ X := by
      rw [← hP.sum]
      have hw' : w = 0 ∨ w = 1 := by omega
      rcases hw' with rfl | rfl <;> simp [hx]
    have hun : p.unhash vc h (p.splitR x) = x := by
      rw [← hc]
      exact p.unhash_cell _ (hX x hxX)
    refine ⟨Function.update H w ((H w).erase x), ?_, ?_⟩
    · -- the evicted element leaves its side and joins the evicted list
      rw [← hP.sum]
      dsimp only
      rw [hun, ← Multiset.coe_add, Multiset.coe_singleton]
      have hw' : w = 0 ∨ w = 1 := by omega
      obtain ⟨K, hK⟩ := Multiset.exists_cons_of_mem hx
      rcases hw' with rfl | rfl
      · rw [Function.update_self, Function.update_of_ne (by decide), hK,
          Multiset.erase_cons_head, ← Multiset.singleton_add]
        abel
      · rw [Function.update_self, Function.update_of_ne (by decide), hK,
          Multiset.erase_cons_head, ← Multiset.singleton_add]
        abel
    · intro v hv vb hvb
      dsimp only
      rw [hun]
      by_cases hvw : v = w
      · subst hvw
        rw [Function.update_self]
        have hH := hP.holds v hv vb hvb
        by_cases hb : vb = vc
        · subst hb
          have hset : p.Holds (st.U.set vb h rest) vb ((H v).erase x) := by
            rw [← hc] at hq ⊢
            exact holds_set_erase hH hx (by rw [hq, List.erase_cons_head])
          intro h'
          rw [foldl_remove_of_notMem hvce]
          exact hset h'
        · have hbe : vb ∈ (sub v).erase vc := (List.mem_erase_of_ne hb).mpr hvb
          have h₁ := holds_foldl_remove ((hs.nodup v).erase vc)
            (U := st.U.set vc h rest) ((holds_set_of_ne hb).mpr hH) hx
          rwa [if_pos hbe] at h₁
      · rw [Function.update_of_ne hvw]
        have hvb' : vb ∉ sub w := by
          have hv1 : w = 1 - v := by omega
          rw [hv1]
          exact hs.disjoint v vb hvb
        intro h'
        have hne : vb ≠ vc := fun he ↦ hvb' (he ▸ hvc)
        rw [foldl_remove_of_notMem (fun hm ↦ hvb' (List.mem_of_mem_erase hm))]
        exact ((holds_set_of_ne hne).mpr (hP.holds v hv vb hvb)) h'
  · intro vb h'
    refine Nat.le_trans (length_foldl_remove_le _ _ _ _ _ _) ?_
    simp only [Queues.set]
    split
    · next he =>
      obtain ⟨rfl, rfl⟩ := he
      rw [hq]
      exact Nat.le_succ _
    · exact Nat.le_refl _
  · intro vb hvb
    dsimp only
    rw [foldl_remove_of_notMem (fun hm ↦ hvb (List.mem_of_mem_erase hm))]
    funext h'
    have hne : vb ≠ vc := fun he ↦ hvb (he ▸ hvc)
    simp [Queues.set, hne]

/-- Draining one queue is a pass. -/
theorem passSpec_drain {sub : Nat → List Nat} (hs : Sides sub) {w vc : Nat} (hw : w < 2)
    (hvc : vc ∈ sub w) (h n : Nat) (st : Pass) :
    p.PassSpec sub w st (p.drain ((sub w).erase vc) vc h n st) := by
  induction n generalizing st with
  | zero => exact .refl sub w st
  | succ n ih =>
    rw [drain]
    split
    · exact (passSpec_evict hs hw hvc h st).trans (ih _)
    · exact .refl sub w st

/-- Draining leaves at most one element in the queue. -/
theorem length_drain_le (others : List Nat) (vc h n : Nat) (st : Pass)
    (hn : (st.U vc h).length ≤ n) : ((p.drain others vc h n st).U vc h).length ≤ 1 := by
  induction n generalizing st with
  | zero => exact Nat.le_trans hn (by decide)
  | succ n ih =>
    rw [drain]
    split
    · apply ih
      unfold evict
      split
      · next hq => rw [hq]; exact Nat.zero_le _
      · next xR rest hq =>
        have hr := length_foldl_remove_le (p := p) (p.unhash vc h xR) xR others
          (st.U.set vc h rest) vc h
        rw [hq, List.length_cons] at hn
        simp only [Queues.set, and_self, ite_true] at hr
        dsimp only
        omega
    · next hl => exact Nat.not_lt.mp hl

/-- Draining every queue of a subtable is a pass. -/
theorem passSpec_scanSubtable {sub : Nat → List Nat} (hs : Sides sub) {w vc : Nat} (hw : w < 2)
    (hvc : vc ∈ sub w) (st : Pass) :
    p.PassSpec sub w st (p.scanSubtable ((sub w).erase vc) vc st) :=
  .foldl (fun st h _ ↦ passSpec_drain hs hw hvc h _ st) st

/-- After the scan of a subtable each of its queues holds at most one element. -/
theorem length_scanSubtable_le {sub : Nat → List Nat} (hs : Sides sub) {w vc : Nat} (hw : w < 2)
    (hvc : vc ∈ sub w) (st : Pass) {h : Nat} (hh : h < p.subtableSize) :
    ((p.scanSubtable ((sub w).erase vc) vc st).U vc h).length ≤ 1 := by
  unfold scanSubtable
  generalize p.subtableSize = n at hh
  induction n with
  | zero => exact absurd hh (Nat.not_lt_zero h)
  | succ n ih =>
    rw [List.range_succ, List.foldl_append, List.foldl_cons, List.foldl_nil]
    by_cases hn : h = n
    · subst hn
      exact length_drain_le _ _ _ _ _ (Nat.le_refl _)
    · refine Nat.le_trans ((passSpec_drain hs hw hvc n _ _).shrinks vc h) (ih ?_)
      omega

/-- The scan of a side is a pass. -/
theorem passSpec_scan {sub : Nat → List Nat} (hs : Sides sub) {w : Nat} (hw : w < 2)
    (st : Pass) : p.PassSpec sub w st (p.scan (sub w) st) :=
  .foldl (fun st _ hvc ↦ passSpec_scanSubtable hs hw hvc st) st

/-- After the scan of a side each queue below the subtable size holds at most one element. -/
theorem length_scan_le {sub : Nat → List Nat} (hs : Sides sub) {w : Nat} (hw : w < 2)
    (st : Pass) {vc h : Nat} (hvc : vc ∈ sub w) (hh : h < p.subtableSize) :
    ((p.scan (sub w) st).U vc h).length ≤ 1 := by
  have hgen : ∀ (l : List Nat), (∀ v ∈ l, v ∈ sub w) → vc ∈ l → ∀ st : Pass,
      ((l.foldl (fun st v ↦ p.scanSubtable ((sub w).erase v) v st) st).U vc h).length ≤ 1 := by
    intro l
    induction l with
    | nil => exact fun _ hm ↦ absurd hm List.not_mem_nil
    | cons v l ih =>
      intro hl hm st
      rw [List.foldl_cons]
      have hrest : p.PassSpec sub w (p.scanSubtable ((sub w).erase v) v st)
          (l.foldl (fun st v ↦ p.scanSubtable ((sub w).erase v) v st)
            (p.scanSubtable ((sub w).erase v) v st)) :=
        .foldl (fun st u hu ↦ passSpec_scanSubtable hs hw (hl u (List.mem_cons_of_mem _ hu)) st) _
      by_cases he : vc = v
      · subst he
        exact Nat.le_trans (hrest.shrinks vc h) (length_scanSubtable_le hs hw hvc st hh)
      · exact ih (fun u hu ↦ hl u (List.mem_cons_of_mem _ hu))
          ((List.mem_cons.mp hm).resolve_left he) _
  exact hgen (sub w) (fun _ hv ↦ hv) hvc st

/-- Elements in range leave every queue from the subtable size on empty. -/
theorem Holds.eq_nil_of_size_le {U : Queues} {vc h : Nat} {H : Multiset Nat}
    (hH : p.Holds U vc H) (hX : ∀ x ∈ H, x < 2 ^ p.xBits) (hh : p.subtableSize ≤ h) :
    U vc h = [] := by
  apply List.eq_nil_iff_forall_not_mem.mpr
  intro xR hm
  obtain ⟨x, hx, hc, -⟩ := hH.exists_mem hm
  have := p.cell_lt vc (hX x hx)
  omega

/-! ### The loop -/

variable (p) in
/-- What the eviction loop keeps at its head: the elements are placed, none is pending, and
the side that is not scanned next is flat. -/
structure LoopInv (sub : Nat → List Nat) (w : Nat) (U : Queues) (X : Multiset Nat) : Prop where
  placed : ∃ H, p.Placed sub ⟨U, []⟩ X H
  flat : ∀ vc ∈ sub (1 - w), Flat U vc

/-- Each side of a placement is part of the elements. -/
theorem Placed.mem_of_mem {sub : Nat → List Nat} {st : Pass} {X : Multiset Nat}
    {H : Nat → Multiset Nat} (hP : p.Placed sub st X H) {w x : Nat} (hw : w < 2) (hx : x ∈ H w) :
    x ∈ X := by
  rw [← hP.sum]
  have hw' : w = 0 ∨ w = 1 := by omega
  rcases hw' with rfl | rfl <;> simp [hx]

/-- The scan makes its own side flat and keeps the other side flat. -/
theorem flat_scan {sub : Nat → List Nat} (hs : Sides sub) {w : Nat} (hw : w < 2) {U : Queues}
    {X : Multiset Nat} (hX : ∀ x ∈ X, x < 2 ^ p.xBits) (hI : p.LoopInv sub w U X) {v vc : Nat}
    (hv : v < 2) (hvc : vc ∈ sub v) : Flat (p.scan (sub w) ⟨U, []⟩).U vc := by
  intro h
  obtain ⟨H, hP⟩ := hI.placed
  obtain ⟨H', hP'⟩ := (passSpec_scan hs hw ⟨U, []⟩).placed X H hX hP
  by_cases hvw : v = w
  · subst hvw
    by_cases hh : h < p.subtableSize
    · exact length_scan_le hs hw _ hvc hh
    · have hnil := (hP'.holds v hv vc hvc).eq_nil_of_size_le
        (fun x hx ↦ hX x (hP'.mem_of_mem hv hx)) (Nat.not_lt.mp hh)
      rw [hnil]
      exact Nat.zero_le _
  · have hv1 : v = 1 - w := by omega
    exact Nat.le_trans ((passSpec_scan hs hw _).shrinks vc h) (hI.flat vc (hv1 ▸ hvc) h)

/-- Reinserting the evicted elements on the other side restores the invariant there. -/
theorem loopInv_reinsert {sub : Nat → List Nat} (hs : Sides sub) {w : Nat} (hw : w < 2)
    {U : Queues} {X : Multiset Nat} (hX : ∀ x ∈ X, x < 2 ^ p.xBits) (hI : p.LoopInv sub w U X) :
    let st := p.scan (sub w) ⟨U, []⟩
    p.LoopInv sub (1 - w) (st.S.foldl (p.insertAt (sub (1 - w))) st.U) X := by
  intro st
  have hww : 1 - (1 - w) = w := by omega
  have hdis : ∀ vc ∈ sub w, vc ∉ sub (1 - w) := hs.disjoint w
  constructor
  · obtain ⟨H, hP⟩ := hI.placed
    obtain ⟨H', hP'⟩ := (passSpec_scan hs hw ⟨U, []⟩).placed X H hX hP
    refine ⟨Function.update H' (1 - w) (H' (1 - w) + st.S), ?_, ?_⟩
    · rw [← hP'.sum]
      have hw' : w = 0 ∨ w = 1 := by omega
      rcases hw' with rfl | rfl
      · rw [show 1 - 0 = 1 from rfl, Function.update_self, Function.update_of_ne (by decide),
          Multiset.coe_nil, Multiset.add_zero, Multiset.add_assoc]
      · rw [show 1 - 1 = 0 from rfl, Function.update_self, Function.update_of_ne (by decide),
          Multiset.coe_nil, Multiset.add_zero]
        exact add_right_comm (H' 0) (st.S : Multiset Nat) (H' 1)
    · intro v hv vc hvc
      by_cases hvw : v = 1 - w
      · subst hvw
        rw [Function.update_self]
        have h := holds_foldl_insertAt (hs.nodup (1 - w)) st.S (hP'.holds (1 - w) hv vc hvc)
        rwa [if_pos hvc] at h
      · rw [Function.update_of_ne hvw]
        have hv1 : v = w := by omega
        subst hv1
        intro h
        dsimp only
        rw [foldl_insertAt_of_notMem (hdis vc hvc)]
        exact hP'.holds v hv vc hvc h
  · intro vc hvc h
    rw [hww] at hvc
    rw [foldl_insertAt_of_notMem (hdis vc hvc)]
    exact flat_scan hs hw hX hI hw hvc h

/-- A loop that returns has placed every element, with every queue of both sides flat. -/
theorem evictionLoop_ok {sub : Nat → List Nat} (hs : Sides sub) {X : Multiset Nat}
    (hX : ∀ x ∈ X, x < 2 ^ p.xBits) (depth : Nat) {w : Nat} (hw : w < 2) {U U' : Queues}
    (hI : p.LoopInv sub w U X) (hr : p.evictionLoop sub depth w U = .ok U') :
    (∃ H, p.Placed sub ⟨U', []⟩ X H) ∧ ∀ v < 2, ∀ vc ∈ sub v, Flat U' vc := by
  induction depth generalizing w U with
  | zero => simp [evictionLoop] at hr
  | succ depth ih =>
    simp only [evictionLoop] at hr
    split at hr
    · next hS =>
      have hU := Except.ok.inj hr
      subst hU
      obtain ⟨H, hP⟩ := hI.placed
      obtain ⟨H', hP'⟩ := (passSpec_scan hs hw ⟨U, []⟩).placed X H hX hP
      have hnil := List.isEmpty_iff.mp hS
      refine ⟨⟨H', ?_, hP'.holds⟩, fun v hv vc hvc ↦ flat_scan hs hw hX hI hv hvc⟩
      have hsum := hP'.sum
      rwa [hnil] at hsum
    · exact ih (by omega) (loopInv_reinsert hs hw hX hI) hr

/-- The loop leaves the subtables of neither side as they were. -/
theorem evictionLoop_frame {sub : Nat → List Nat} (hs : Sides sub) {vc : Nat}
    (hv : ∀ w < 2, vc ∉ sub w) (depth : Nat) {w : Nat} (hw : w < 2) {U U' : Queues}
    (hr : p.evictionLoop sub depth w U = .ok U') : U' vc = U vc := by
  induction depth generalizing w U with
  | zero => simp [evictionLoop] at hr
  | succ depth ih =>
    have hscan := (passSpec_scan (p := p) hs hw ⟨U, []⟩).frame vc (hv w hw)
    simp only [evictionLoop] at hr
    split at hr
    · have hU := Except.ok.inj hr
      subst hU
      exact hscan
    · rw [ih (by omega) hr, foldl_insertAt_of_notMem (hv _ (by omega)), hscan]

end HashParams
end Safrn.Cuckoo

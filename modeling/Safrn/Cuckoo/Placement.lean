import Safrn.Cuckoo.Invariant

/-!
# The placement law of the two builds

From the queues that an eviction loop leaves to the published subtables: a subtable publishes
exactly the elements placed there, each in its own cell. Alice's element is in both subtables
of one half and Bob's in one subtable of each half, so a common element has one common cell.
-/

namespace Safrn.Cuckoo

open Safrn.Java

namespace HashParams

variable (p : HashParams)

/-- The contents `T` have the element `x` in its cell of subtable `vc`. -/
def Stores (T : Nat → Nat → Nat) (vc x : Nat) : Prop := T vc (p.cell vc x) = p.splitR x

/-- What the builds admit: an even pattern of `xBits` bits. -/
def Admissible (x : Nat) : Prop := x < 2 ^ p.xBits ∧ x % 2 = 0

/-- Subtable `vc` of the contents `T` stores exactly the elements `H`, one in each used cell. -/
structure Publishes (T : Nat → Nat → Nat) (vc : Nat) (H : Multiset Nat) : Prop where
  stores_iff : ∀ x, p.Admissible x → (p.Stores T vc x ↔ x ∈ H)
  cells : ∀ h < p.subtableSize, T vc h = NULL_XR ∨ ∃ x ∈ H, p.cell vc x = h ∧ p.Stores T vc x

variable {p}

/-- The element of every identifier is even. -/
theorem element_even (id : BitVec 32) : element id % 2 = 0 := by
  rw [element, BitVec.toNat_mul, show (2 : BitVec 32).toNat = 2 from rfl]
  omega

/-- Two admissible elements that one cell stores are equal. -/
theorem Stores.eq {T : Nat → Nat → Nat} {vc x y : Nat} (hx : p.Stores T vc x)
    (hy : p.Stores T vc y) (ax : p.Admissible x) (ay : p.Admissible y)
    (hc : p.cell vc x = p.cell vc y) : x = y := by
  refine p.eq_of_cell_eq vc ax.1 ay.1 hc ?_
  rw [← show T vc (p.cell vc x) = p.splitR x from hx, hc]
  exact hy

/-- Publishing flat queues stores exactly what they hold. -/
theorem publishes_publish {U : Queues} {sub : Nat → Nat → Nat} {vc : Nat} {H : Multiset Nat}
    (hv : vc < 4) (hH : p.Holds U vc H) (hf : Flat U vc) (ha : ∀ x ∈ H, p.Admissible x) :
    p.Publishes (p.publish U sub) vc H where
  stores_iff x hx := by
    have hcell : p.publish U sub vc (p.cell vc x) = (U vc (p.cell vc x)).headD NULL_XR := by
      simp [publish, hv, p.cell_lt vc hx.1]
    rw [Stores, hcell]
    constructor
    · intro he
      cases hq : U vc (p.cell vc x) with
      | nil => exact absurd (hq ▸ he).symm (p.splitR_ne_null hx.2)
      | cons xR rest =>
        obtain ⟨y, hy, hc, hr⟩ := hH.exists_mem (hq ▸ List.mem_cons_self (a := xR))
        rw [hq, List.headD_cons] at he
        rwa [← p.eq_of_cell_eq _ (ha y hy).1 hx.1 hc (hr.trans he)]
    · intro hm
      have hq := hH.mem_cell hm
      have hl := hf (p.cell vc x)
      cases hu : U vc (p.cell vc x) with
      | nil => simp [hu] at hq
      | cons xR rest =>
        have hrest : rest = [] := by
          rw [hu, List.length_cons] at hl
          exact List.length_eq_zero_iff.mp (by omega)
        rw [hu, hrest, List.mem_singleton] at hq
        exact hq.symm
  cells h hh := by
    have hcell : p.publish U sub vc h = (U vc h).headD NULL_XR := by simp [publish, hv, hh]
    cases hq : U vc h with
    | nil => exact .inl (by rw [hcell, hq, List.headD_nil])
    | cons xR rest =>
      obtain ⟨x, hx, hc, hr⟩ := hH.exists_mem (hq ▸ List.mem_cons_self (a := xR))
      refine .inr ⟨x, hx, hc, ?_⟩
      rw [Stores, hc, hcell, hq, hr, List.headD_cons]

/-! ### Reading the identifiers -/

/-- A load that succeeds has admitted every element, and inserted them in order. -/
theorem load_ok {insert : Queues → Nat → Queues} {ids : List (BitVec 32)} {seen : List Nat}
    {U U' : Queues} (h : p.load insert ids seen U = .ok U') :
    U' = (ids.map element).foldl insert U ∧ (ids.map element).Nodup ∧
      (∀ x ∈ ids.map element, p.Admissible x) ∧ ∀ x ∈ ids.map element, x ∉ seen := by
  induction ids generalizing seen U with
  | nil => simpa [load] using h.symm
  | cons id ids ih =>
    simp only [load, admitElement] at h
    by_cases hr : p.inRange (element id) = false
    · simp [hr] at h
    by_cases hs : element id ∈ seen
    · simp [hr, hs] at h
    simp only [hr, hs, if_false] at h
    obtain ⟨hU, hn, ha, hd⟩ := ih h
    have hlt := (p.inRange_iff _).mp (Bool.not_eq_false _ ▸ hr)
    simp only [List.map_cons, List.foldl_cons, List.nodup_cons, List.forall_mem_cons]
    refine ⟨hU, ⟨fun hm ↦ hd _ hm List.mem_cons_self, hn⟩, ⟨⟨hlt, element_even id⟩, ha⟩, hs, ?_⟩
    exact fun x hx hxs ↦ hd x hx (List.mem_cons_of_mem _ hxs)

/-- Distinct identifiers in range are always admitted. -/
theorem load_of_distinct (insert : Queues → Nat → Queues) {ids : List (BitVec 32)}
    (hn : ids.Nodup) (hr : ∀ id ∈ ids, id.toNat < 2 ^ (p.xBits - 1)) {seen : List Nat}
    (hs : ∀ id ∈ ids, element id ∉ seen) (U : Queues) :
    p.load insert ids seen U = .ok ((ids.map element).foldl insert U) := by
  have hel : ∀ id ∈ ids, element id = 2 * id.toNat ∧ element id < 2 ^ p.xBits := by
    intro id hid
    have h := hr id hid
    have h2 := p.two_le_xBits
    have hx : 2 ^ p.xBits = 2 * 2 ^ (p.xBits - 1) := by
      rw [← Nat.pow_succ', Nat.succ_eq_add_one, Nat.sub_add_cancel (by omega)]
    have hle : 2 ^ p.xBits ≤ 2 ^ 32 := Nat.pow_le_pow_right (by decide) p.xBits_le
    rw [element, BitVec.toNat_mul, show (2 : BitVec 32).toNat = 2 from rfl]
    omega
  induction ids generalizing seen U with
  | nil => rfl
  | cons id ids ih =>
    obtain ⟨hid, hn'⟩ := List.nodup_cons.mp hn
    have hin : p.inRange (element id) = true := (p.inRange_iff _).mpr (hel id List.mem_cons_self).2
    have hns := hs id List.mem_cons_self
    simp only [load, admitElement, hin, hns, if_false, Bool.true_eq_false, List.map_cons,
      List.foldl_cons]
    apply ih hn' (fun x hx ↦ hr x (List.mem_cons_of_mem _ hx)) _ _
      (fun x hx ↦ hel x (List.mem_cons_of_mem _ hx))
    intro x hx hm
    rcases List.mem_cons.mp hm with he | hm
    · have h₁ := (hel x (List.mem_cons_of_mem _ hx)).1
      have h₂ := (hel id List.mem_cons_self).1
      exact hid ((BitVec.eq_of_toNat_eq (by omega) : x = id) ▸ hx)
    · exact hs x (List.mem_cons_of_mem _ hx) hm

/-! ### From the load to the end of a loop -/

/-- The queues after a load place every element on side `0`. -/
theorem loopInv_load {sub : Nat → List Nat} {vcs : List Nat} (hn : vcs.Nodup)
    (h₀ : ∀ vc ∈ sub 0, vc ∈ vcs) (h₁ : ∀ vc ∈ sub 1, vc ∉ vcs) (xs : List Nat) :
    p.LoopInv sub 0 (xs.foldl (p.insertAt vcs) Queues.empty) xs := by
  have hempty : ∀ vc ∈ sub 1,
      xs.foldl (p.insertAt vcs) Queues.empty vc = Queues.empty vc :=
    fun vc hvc ↦ foldl_insertAt_of_notMem (h₁ vc hvc) xs _
  constructor
  · refine ⟨fun w ↦ if w = 0 then xs else 0, by simp, ?_⟩
    intro w hw vc hvc
    by_cases hw0 : w = 0
    · subst hw0
      have h := holds_foldl_insertAt hn xs (holds_empty (p := p) vc)
      rwa [if_pos (h₀ vc hvc), Multiset.zero_add] at h
    · obtain rfl : w = 1 := by omega
      intro h
      dsimp only
      rw [hempty vc hvc, if_neg (by decide)]
      exact holds_empty vc h
  · intro vc hvc h
    rw [hempty vc hvc]
    exact Nat.zero_le _

/-- The loop invariant only reads the subtables of its two sides. -/
theorem LoopInv.congr {sub : Nat → List Nat} {w : Nat} {U V : Queues} {X : Multiset Nat}
    (hI : p.LoopInv sub w U X) (hUV : ∀ v < 2, ∀ vc ∈ sub v, V vc = U vc) :
    p.LoopInv sub w V X where
  placed := by
    obtain ⟨H, hP⟩ := hI.placed
    refine ⟨H, hP.sum, fun v hv vc hvc h ↦ ?_⟩
    dsimp only
    rw [hUV v hv vc hvc]
    exact hP.holds v hv vc hvc h
  flat vc hvc h := by
    rw [hUV (1 - w) (by omega) vc hvc]
    exact hI.flat vc hvc h

/-- The two sides `H 0` and `H 1` of a duplicate-free list share no element and miss none. -/
theorem sides_of_sum {xs : List Nat} (hn : xs.Nodup) {H : Nat → Multiset Nat}
    (hs : H 0 + H 1 = xs) {x : Nat} (hx : x ∈ xs) : ∃ w < 2, ∀ v < 2, x ∈ H v ↔ v = w := by
  have hxs : x ∈ H 0 + H 1 := hs ▸ hx
  have hnd : (H 0 + H 1).Nodup := hs ▸ Multiset.coe_nodup.mpr hn
  have hdis := (Multiset.nodup_add.mp hnd).2.2
  rcases Multiset.mem_add.mp hxs with h | h
  · refine ⟨0, by decide, fun v hv ↦ ⟨fun hm ↦ ?_, fun he ↦ he ▸ h⟩⟩
    by_contra hne
    obtain rfl : v = 1 := by omega
    exact Multiset.disjoint_left.mp hdis h hm
  · refine ⟨1, by decide, fun v hv ↦ ⟨fun hm ↦ ?_, fun he ↦ he ▸ h⟩⟩
    by_contra hne
    obtain rfl : v = 0 := by omega
    exact Multiset.disjoint_left.mp hdis hm h

/-- The two sides of Alice's build. -/
theorem sides_aliceSub : Sides aliceSub where
  nodup w := by simp [aliceSub]
  disjoint w vc hvc := by
    simp only [aliceSub, List.mem_cons, List.not_mem_nil, or_false] at hvc ⊢
    omega

/-- The two sides of round `a` of Bob's build. -/
theorem sides_bobSub (a : Nat) : Sides (bobSub a) where
  nodup w := by simp [bobSub]
  disjoint w vc hvc := by
    simp only [bobSub, List.mem_cons, List.not_mem_nil, or_false] at hvc ⊢
    omega

/-- The subtables of one round are not those of the other. -/
theorem bobSub_rounds {a b : Nat} (hab : a ≠ b) {w vc : Nat} (hw : w < 2)
    (hvc : vc ∈ bobSub a w) : ∀ v < 2, vc ∉ bobSub b v := by
  intro v hv
  simp only [bobSub, List.mem_cons, List.not_mem_nil, or_false] at hvc ⊢
  omega

variable (p) in
/-- The contents `T` store the elements `xs` on the two sides that `sub` lists, each element in
every subtable of exactly one side. -/
def Settled (sub : Nat → List Nat) (T : Nat → Nat → Nat) (xs : List Nat) : Prop :=
  ∃ H : Nat → Multiset Nat, H 0 + H 1 = xs ∧
    ∀ w < 2, ∀ vc ∈ sub w, p.Publishes T vc (H w)

/-- Publishing after an eviction loop settles the elements. -/
theorem settled_publish {sub : Nat → List Nat} (hs : Sides sub)
    (h4 : ∀ w < 2, ∀ vc ∈ sub w, vc < 4) {xs : List Nat} (ha : ∀ x ∈ xs, p.Admissible x)
    {depth : Nat} {U U' V : Queues} (hI : p.LoopInv sub 0 U xs)
    (hr : p.evictionLoop sub depth 0 U = .ok U') (hV : ∀ w < 2, ∀ vc ∈ sub w, V vc = U' vc)
    (T : Nat → Nat → Nat) : p.Settled sub (p.publish V T) xs := by
  obtain ⟨⟨H, hP⟩, hflat⟩ := evictionLoop_ok hs (fun x hx ↦ (ha x hx).1) depth (by decide) hI hr
  have hsum : H 0 + H 1 = (xs : Multiset Nat) := by simpa using hP.sum
  refine ⟨H, hsum, fun w hw vc hvc ↦ ?_⟩
  apply publishes_publish (h4 w hw vc hvc)
  · intro h
    rw [hV w hw vc hvc]
    exact hP.holds w hw vc hvc h
  · intro h
    rw [hV w hw vc hvc]
    exact hflat w hw vc hvc h
  · exact fun x hx ↦ ha x (hP.mem_of_mem hw hx)

/-- A settled element is stored in exactly the subtables of one side. -/
theorem Settled.exists_side {sub : Nat → List Nat} {T : Nat → Nat → Nat} {xs : List Nat}
    (hS : p.Settled sub T xs) (hn : xs.Nodup) (ha : ∀ x ∈ xs, p.Admissible x) {x : Nat}
    (hx : x ∈ xs) : ∃ w < 2, ∀ v < 2, ∀ vc ∈ sub v, p.Stores T vc x ↔ v = w := by
  obtain ⟨H, hsum, hpub⟩ := hS
  obtain ⟨w, hw, hside⟩ := sides_of_sum hn hsum hx
  exact ⟨w, hw, fun v hv vc hvc ↦ ((hpub v hv vc hvc).stores_iff x (ha x hx)).trans (hside v hv)⟩

/-- A used cell of a settled side stores one of the elements. -/
theorem Settled.cell {sub : Nat → List Nat} {T : Nat → Nat → Nat} {xs : List Nat}
    (hS : p.Settled sub T xs) {w vc h : Nat} (hw : w < 2) (hvc : vc ∈ sub w)
    (hh : h < p.subtableSize) :
    T vc h = NULL_XR ∨ ∃ x ∈ xs, p.cell vc x = h ∧ p.Stores T vc x := by
  obtain ⟨H, hsum, hpub⟩ := hS
  refine ((hpub w hw vc hvc).cells h hh).imp_right ?_
  rintro ⟨x, hx, hc⟩
  refine ⟨x, ?_, hc⟩
  rw [← Multiset.mem_coe, ← hsum]
  have hw' : w = 0 ∨ w = 1 := by omega
  rcases hw' with rfl | rfl <;> simp [hx]

end HashParams

/-! ### The two builds -/

namespace CuckooTable

open HashParams

/-- What a build that succeeds has admitted. -/
structure Admitted (p : HashParams) (ids : List (BitVec 32)) : Prop where
  nodup : (ids.map element).Nodup
  admissible : ∀ x ∈ ids.map element, p.Admissible x

/-- A successful `buildAlice` keeps the parameters and settles every identifier on one half. -/
theorem buildAlice_ok {t t' : CuckooTable} {ids : List (BitVec 32)} {maxDepth : Int}
    (h : t.buildAlice (some ids) maxDepth = (t', .ok ())) :
    t'.toHashParams = t.toHashParams ∧ Admitted t.toHashParams ids ∧
      t.Settled aliceSub t'.subtables (ids.map element) := by
  unfold buildAlice at h
  cases hc : t.precheck maxDepth with
  | error e => simp [hc] at h
  | ok u =>
    cases hl : t.load (t.insertAt (aliceSub 0)) ids [] Queues.empty with
    | error e => simp [hc, hl] at h
    | ok U =>
      obtain ⟨hU, hn, ha, -⟩ := load_ok hl
      cases hr : t.evictionLoop aliceSub maxDepth.toNat 0 U with
      | error e => simp [hc, hl, buildAliceMain, hr, finish] at h
      | ok U' =>
        simp only [hc, hl, buildAliceMain, hr, finish, Prod.mk.injEq, and_true] at h
        subst h
        have hI : t.LoopInv aliceSub 0 U (ids.map element) := by
          rw [hU]
          exact loopInv_load (sides_aliceSub.nodup 0) (fun _ hvc ↦ hvc)
            (sides_aliceSub.disjoint 1) _
        refine ⟨rfl, ⟨hn, ha⟩, ?_⟩
        refine settled_publish sides_aliceSub ?_ ha hI hr (fun _ _ _ _ ↦ rfl) t.subtables
        intro w hw vc hvc
        simp only [aliceSub, List.mem_cons, List.not_mem_nil, or_false] at hvc
        omega

/-- A successful `buildBob` keeps the parameters and settles every identifier in each round. -/
theorem buildBob_ok {t t' : CuckooTable} {ids : List (BitVec 32)} {maxDepth : Int}
    (h : t.buildBob (some ids) maxDepth = (t', .ok ())) :
    t'.toHashParams = t.toHashParams ∧ Admitted t.toHashParams ids ∧
      ∀ a < 2, t.Settled (bobSub a) t'.subtables (ids.map element) := by
  unfold buildBob at h
  cases hc : t.precheck maxDepth with
  | error e => simp [hc] at h
  | ok u =>
    cases hl : t.load (t.insertAt (bobSub 0 0 ++ bobSub 1 0)) ids [] Queues.empty with
    | error e => simp [hc, hl] at h
    | ok U =>
      obtain ⟨hU, hn, ha, -⟩ := load_ok hl
      cases hr₀ : t.evictionLoop (bobSub 0) maxDepth.toNat 0 U with
      | error e => simp [hc, hl, buildBobMain, hr₀, finish, Except.bind] at h
      | ok U₀ =>
        cases hr₁ : t.evictionLoop (bobSub 1) maxDepth.toNat 0 U₀ with
        | error e => simp [hc, hl, buildBobMain, hr₀, hr₁, finish, Except.bind] at h
        | ok U₁ =>
          simp only [hc, hl, buildBobMain, hr₀, hr₁, finish, Except.bind, Prod.mk.injEq,
            and_true] at h
          subst h
          have hI : ∀ a < 2, t.LoopInv (bobSub a) 0 U (ids.map element) := by
            intro a ha2
            rw [hU]
            apply loopInv_load (by decide)
            · intro vc hvc
              simp only [bobSub, List.mem_cons, List.not_mem_nil, or_false, List.cons_append,
                List.nil_append] at hvc ⊢
              omega
            · intro vc hvc
              simp only [bobSub, List.mem_cons, List.not_mem_nil, or_false, List.cons_append,
                List.nil_append] at hvc ⊢
              omega
          have h4 : ∀ a < 2, ∀ w < 2, ∀ vc ∈ bobSub a w, vc < 4 := by
            intro a ha2 w hw vc hvc
            simp only [bobSub, List.mem_cons, List.not_mem_nil, or_false] at hvc
            omega
          refine ⟨rfl, ⟨hn, ha⟩, fun a ha2 ↦ ?_⟩
          have ha01 : a = 0 ∨ a = 1 := by omega
          rcases ha01 with rfl | rfl
          · -- the second round leaves the subtables of the first as they are
            refine settled_publish (sides_bobSub 0) (h4 0 ha2) ha (hI 0 ha2) hr₀ ?_ t.subtables
            exact fun w hw vc hvc ↦
              evictionLoop_frame (sides_bobSub 1) (bobSub_rounds (by decide) hw hvc) _
                (by decide) hr₁
          · -- and it starts from the queues that the load left in its own subtables
            refine settled_publish (sides_bobSub 1) (h4 1 ha2) ha ((hI 1 ha2).congr ?_) hr₁
              (fun _ _ _ _ ↦ rfl) t.subtables
            exact fun w hw vc hvc ↦
              evictionLoop_frame (sides_bobSub 0) (bobSub_rounds (by decide) hw hvc) _
                (by decide) hr₀

/-- A build that fails leaves the published subtables as they were. -/
theorem finish_error {t t' : CuckooTable} {r : Except Status Queues} {e : Status}
    (h : t.finish r = (t', .error e)) : t' = t := by
  cases r with
  | error e' => exact (Prod.mk.inj h).1.symm
  | ok U => simp [finish] at h

/-- `buildAlice` that fails leaves the table as it was. -/
theorem buildAlice_error {t t' : CuckooTable} {ids : Option (List (BitVec 32))} {maxDepth : Int}
    {e : Status} (h : t.buildAlice ids maxDepth = (t', .error e)) : t' = t := by
  unfold buildAlice at h
  split at h
  · exact (Prod.mk.inj h).1.symm
  · exact finish_error h
  · split at h
    · exact (Prod.mk.inj h).1.symm
    · exact finish_error h

/-- `buildBob` that fails leaves the table as it was. -/
theorem buildBob_error {t t' : CuckooTable} {ids : Option (List (BitVec 32))} {maxDepth : Int}
    {e : Status} (h : t.buildBob ids maxDepth = (t', .error e)) : t' = t := by
  unfold buildBob at h
  split at h
  · exact (Prod.mk.inj h).1.symm
  · exact finish_error h
  · split at h
    · exact (Prod.mk.inj h).1.symm
    · exact finish_error h

/-- A loop that fails has exceeded its depth. -/
theorem evictionLoop_error {p : HashParams} {sub : Nat → List Nat} {depth w : Nat} {U : Queues}
    {e : Status} (h : p.evictionLoop sub depth w U = .error e) :
    e = .failure "maxDepth exceeded" := by
  induction depth generalizing w U with
  | zero => simpa [evictionLoop] using h.symm
  | succ depth ih =>
    simp only [evictionLoop] at h
    split at h
    · cases h
    · exact ih h

/-- `buildAlice` of distinct identifiers in range succeeds or exceeds its depth. -/
theorem buildAlice_of_distinct (t : CuckooTable) (hc : t.isClosed = false)
    {ids : List (BitVec 32)} (hn : ids.Nodup)
    (hr : ∀ id ∈ ids, id.toNat < 2 ^ (t.xBits - 1)) {maxDepth : Int} (hd : 1 ≤ maxDepth) :
    (t.buildAlice (some ids) maxDepth).2 = .ok () ∨
      (t.buildAlice (some ids) maxDepth).2 = .error (.failure "maxDepth exceeded") := by
  have hpre : t.precheck maxDepth = .ok () := by simp [precheck, hc, Int.not_lt.mpr hd]
  simp only [buildAlice, hpre, load_of_distinct _ hn hr (fun _ _ ↦ List.not_mem_nil),
    buildAliceMain]
  cases he : t.evictionLoop aliceSub maxDepth.toNat 0
    ((ids.map element).foldl (t.insertAt (aliceSub 0)) Queues.empty) with
  | ok U => exact .inl rfl
  | error e => exact .inr (by rw [finish, evictionLoop_error he])

/-- `buildBob` of distinct identifiers in range succeeds or exceeds its depth. -/
theorem buildBob_of_distinct (t : CuckooTable) (hc : t.isClosed = false)
    {ids : List (BitVec 32)} (hn : ids.Nodup)
    (hr : ∀ id ∈ ids, id.toNat < 2 ^ (t.xBits - 1)) {maxDepth : Int} (hd : 1 ≤ maxDepth) :
    (t.buildBob (some ids) maxDepth).2 = .ok () ∨
      (t.buildBob (some ids) maxDepth).2 = .error (.failure "maxDepth exceeded") := by
  have hpre : t.precheck maxDepth = .ok () := by simp [precheck, hc, Int.not_lt.mpr hd]
  simp only [buildBob, hpre, load_of_distinct _ hn hr (fun _ _ ↦ List.not_mem_nil),
    buildBobMain]
  cases he₀ : t.evictionLoop (bobSub 0) maxDepth.toNat 0
    ((ids.map element).foldl (t.insertAt (bobSub 0 0 ++ bobSub 1 0)) Queues.empty) with
  | error e => exact .inr (by rw [Except.bind, finish, evictionLoop_error he₀])
  | ok U₀ =>
    rw [Except.bind]
    cases he₁ : t.evictionLoop (bobSub 1) maxDepth.toNat 0 U₀ with
    | ok U₁ => exact .inl rfl
    | error e => exact .inr (by rw [finish, evictionLoop_error he₁])

end CuckooTable

/-! ### Where the two tables meet -/

namespace HashParams

variable (p : HashParams)

/-- The placement law of Alice's contents `A` of the elements `X` and Bob's `B` of `Y`. -/
structure Placement (A B : Nat → Nat → Nat) (X Y : List Nat) : Prop where
  alice : ∀ x ∈ X, ∃ w < 2, ∀ vc < 4, p.Stores A vc x ↔ vc = w * 2 + 0 ∨ vc = w * 2 + 1
  bob : ∀ y ∈ Y, ∃ w₀ < 2, ∃ w₁ < 2, ∀ vc < 4,
    p.Stores B vc y ↔ vc = 0 * 2 + w₀ ∨ vc = 1 * 2 + w₁
  aliceCells : ∀ vc < 4, ∀ h < p.subtableSize,
    A vc h = NULL_XR ∨ ∃! x, x ∈ X ∧ p.cell vc x = h ∧ p.Stores A vc x
  bobCells : ∀ vc < 4, ∀ h < p.subtableSize,
    B vc h = NULL_XR ∨ ∃! y, y ∈ Y ∧ p.cell vc y = h ∧ p.Stores B vc y
  common : ∀ x ∈ X, x ∈ Y → ∃! c : Nat × Nat, c.1 < 4 ∧ c.2 < p.subtableSize ∧
    c.2 = p.cell c.1 x ∧ A c.1 c.2 = p.splitR x ∧ B c.1 c.2 = p.splitR x ∧ p.splitR x ≠ NULL_XR
  equal : ∀ vc < 4, ∀ h < p.subtableSize, A vc h = B vc h →
    A vc h = NULL_XR ∨ ∃ x ∈ X, x ∈ Y ∧ p.cell vc x = h ∧ A vc h = p.splitR x

variable {p}

/-- The side that holds one of Alice's elements, as subtable numbers. -/
theorem Settled.alice {A : Nat → Nat → Nat} {X : List Nat} (hS : p.Settled aliceSub A X)
    (hn : X.Nodup) (ha : ∀ x ∈ X, p.Admissible x) {x : Nat} (hx : x ∈ X) :
    ∃ w < 2, ∀ vc < 4, p.Stores A vc x ↔ vc = w * 2 + 0 ∨ vc = w * 2 + 1 := by
  obtain ⟨w, hw, hside⟩ := hS.exists_side hn ha hx
  refine ⟨w, hw, fun vc hvc ↦ ?_⟩
  have hmem : vc ∈ aliceSub (vc / 2) := by
    simp only [aliceSub, List.mem_cons, List.not_mem_nil, or_false]
    omega
  rw [hside (vc / 2) (by omega) vc hmem]
  omega

/-- The subtable of each round that holds one of Bob's elements. -/
theorem Settled.bob {B : Nat → Nat → Nat} {Y : List Nat}
    (hS : ∀ a < 2, p.Settled (bobSub a) B Y) (hn : Y.Nodup) (ha : ∀ y ∈ Y, p.Admissible y)
    {y : Nat} (hy : y ∈ Y) : ∃ w₀ < 2, ∃ w₁ < 2, ∀ vc < 4,
      p.Stores B vc y ↔ vc = 0 * 2 + w₀ ∨ vc = 1 * 2 + w₁ := by
  obtain ⟨w₀, hw₀, hside₀⟩ := (hS 0 (by decide)).exists_side hn ha hy
  obtain ⟨w₁, hw₁, hside₁⟩ := (hS 1 (by decide)).exists_side hn ha hy
  refine ⟨w₀, hw₀, w₁, hw₁, fun vc hvc ↦ ?_⟩
  by_cases hlow : vc < 2
  · rw [hside₀ vc hlow vc (by simp [bobSub])]
    omega
  · rw [hside₁ (vc - 2) (by omega) vc (by simp [bobSub]; omega)]
    omega

/-- A used cell that stores an admitted element stores only that one. -/
theorem exists_unique_of_stores {T : Nat → Nat → Nat} {X : List Nat}
    (ha : ∀ x ∈ X, p.Admissible x) {vc h x : Nat} (hx : x ∈ X) (hc : p.cell vc x = h)
    (hs : p.Stores T vc x) : ∃! x, x ∈ X ∧ p.cell vc x = h ∧ p.Stores T vc x := by
  refine ⟨x, ⟨hx, hc, hs⟩, ?_⟩
  rintro y ⟨hy, hcy, hsy⟩
  exact hsy.eq hs (ha y hy) (ha x hx) (hcy.trans hc.symm)

/-- Settled contents of the two builds obey the placement law. -/
theorem placement_of_settled {A B : Nat → Nat → Nat} {X Y : List Nat}
    (hA : p.Settled aliceSub A X) (hB : ∀ a < 2, p.Settled (bobSub a) B Y)
    (hnX : X.Nodup) (hnY : Y.Nodup) (haX : ∀ x ∈ X, p.Admissible x)
    (haY : ∀ y ∈ Y, p.Admissible y) : p.Placement A B X Y := by
  have hcellA : ∀ vc < 4, ∀ h < p.subtableSize,
      A vc h = NULL_XR ∨ ∃ x ∈ X, p.cell vc x = h ∧ p.Stores A vc x := by
    intro vc hvc h hh
    refine hA.cell (w := vc / 2) (by omega) ?_ hh
    simp only [aliceSub, List.mem_cons, List.not_mem_nil, or_false]
    omega
  have hcellB : ∀ vc < 4, ∀ h < p.subtableSize,
      B vc h = NULL_XR ∨ ∃ y ∈ Y, p.cell vc y = h ∧ p.Stores B vc y := by
    intro vc hvc h hh
    refine (hB (vc / 2) (by omega)).cell (w := vc % 2) (by omega) ?_ hh
    simp only [bobSub, List.mem_cons, List.not_mem_nil, or_false]
    omega
  constructor
  · exact fun x hx ↦ hA.alice hnX haX hx
  · exact fun y hy ↦ Settled.bob hB hnY haY hy
  · intro vc hvc h hh
    refine (hcellA vc hvc h hh).imp_right ?_
    rintro ⟨x, hx, hc, hs⟩
    exact exists_unique_of_stores haX hx hc hs
  · intro vc hvc h hh
    refine (hcellB vc hvc h hh).imp_right ?_
    rintro ⟨y, hy, hc, hs⟩
    exact exists_unique_of_stores haY hy hc hs
  · -- Alice's half `w` meets Bob's subtable of round `w`
    intro x hx hxY
    obtain ⟨w, hw, hal⟩ := hA.alice hnX haX hx
    obtain ⟨w₀, hw₀, w₁, hw₁, hbo⟩ := Settled.bob hB hnY haY hxY
    have hne := p.splitR_ne_null (haX x hx).2
    have hmeet : ∀ vc < 4, (p.Stores A vc x ∧ p.Stores B vc x) ↔
        vc = w * 2 + (if w = 0 then w₀ else w₁) := by
      intro vc hvc
      rw [hal vc hvc, hbo vc hvc]
      split <;> omega
    generalize hm : w * 2 + (if w = 0 then w₀ else w₁) = m at hmeet
    have hlt : m < 4 := by rw [← hm]; split <;> omega
    refine ⟨(m, p.cell m x), ?_, ?_⟩
    · obtain ⟨hsa, hsb⟩ := (hmeet m hlt).mpr rfl
      exact ⟨hlt, p.cell_lt _ (haX x hx).1, rfl, hsa, hsb, hne⟩
    · rintro ⟨vc, h⟩ ⟨hvc, -, hc, hsa, hsb, -⟩
      dsimp only at hvc hc hsa hsb
      subst hc
      rw [(hmeet vc hvc).mp ⟨hsa, hsb⟩]
  · intro vc hvc h hh he
    refine (hcellA vc hvc h hh).imp_right ?_
    rintro ⟨x, hx, hc, hs⟩
    have hAx : A vc h = p.splitR x := hc ▸ hs
    refine ⟨x, hx, ?_, hc, hAx⟩
    rcases hcellB vc hvc h hh with hb | ⟨y, hy, hcy, hsy⟩
    · exact absurd (hAx.symm.trans (he.trans hb)) (p.splitR_ne_null (haX x hx).2)
    · have hBy : B vc h = p.splitR y := hcy ▸ hsy
      have hxy : x = y := p.eq_of_cell_eq _ (haX x hx).1 (haY y hy).1 (hc.trans hcy.symm)
        (hAx.symm.trans (he.trans hBy))
      rwa [hxy]

end HashParams

open HashParams in
/-- Two successful builds with one set of parameters obey the placement law, and a build that
gives up leaves its table as it was. -/
theorem builds_placement (tA tB : CuckooTable) (hp : tA.toHashParams = tB.toHashParams)
    (idsA idsB : List (BitVec 32)) (depthA depthB : Int) :
    let rA := tA.buildAlice (some idsA) depthA
    let rB := tB.buildBob (some idsB) depthB
    (rA.2 = .ok () → rB.2 = .ok () →
      tA.Placement rA.1.subtables rB.1.subtables (idsA.map element) (idsB.map element)) ∧
    (rA.2 = .error (.failure "maxDepth exceeded") → rA.1.subtables = tA.subtables) ∧
    (rB.2 = .error (.failure "maxDepth exceeded") → rB.1.subtables = tB.subtables) := by
  intro rA rB
  refine ⟨fun hA hB ↦ ?_, fun hA ↦ ?_, fun hB ↦ ?_⟩
  · obtain ⟨-, hadA, hsA⟩ := CuckooTable.buildAlice_ok (Prod.ext rfl hA :
      tA.buildAlice (some idsA) depthA = (rA.1, .ok ()))
    obtain ⟨-, hadB, hsB⟩ := CuckooTable.buildBob_ok (Prod.ext rfl hB :
      tB.buildBob (some idsB) depthB = (rB.1, .ok ()))
    rw [← hp] at hadB hsB
    exact placement_of_settled hsA hsB hadA.nodup hadB.nodup hadA.admissible hadB.admissible
  · rw [CuckooTable.buildAlice_error (Prod.ext rfl hA :
      tA.buildAlice (some idsA) depthA = (rA.1, .error (.failure "maxDepth exceeded")))]
  · rw [CuckooTable.buildBob_error (Prod.ext rfl hB :
      tB.buildBob (some idsB) depthB = (rB.1, .error (.failure "maxDepth exceeded")))]

/-- A table of two cells a subtable, with ciphers that copy their key into the block. -/
def smallTable : CuckooTable where
  subtableBits := 1
  xBits := 4
  hashCiphers wa _ _ := UInt8.ofNat wa
  one_le_subtableBits := by decide
  subtableBits_le := by decide
  two_le_xBits := by decide
  xBits_le := by decide
  subtableBits_lt_xBits := by decide
  isClosed := false
  subtables _ _ := NULL_XR

/-- The law on a small table: Alice moves one of three elements to the other half. -/
theorem builds_placement_smallTable :
    let rA := smallTable.buildAlice (some [0, 1, 4]) 100
    let rB := smallTable.buildBob (some [1, 2]) 100
    rA.2 = .ok () ∧ rB.2 = .ok () ∧
      smallTable.Placement rA.1.subtables rB.1.subtables [0, 2, 8] [2, 4] := by
  have hA : (smallTable.buildAlice (some [0, 1, 4]) 100).2 = .ok () := by rfl
  have hB : (smallTable.buildBob (some [1, 2]) 100).2 = .ok () := by rfl
  exact ⟨hA, hB, (builds_placement smallTable smallTable rfl [0, 1, 4] [1, 2] 100 100).1 hA hB⟩

end Safrn.Cuckoo

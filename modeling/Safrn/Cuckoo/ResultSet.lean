import Safrn.Cuckoo.Placement

/-!
# Building a cuckoo table from a query's result

Models `CuckooTable.java:346-423,593-663`. A `ResultSet` is the list of the rows behind its
cursor. Alice's rows carry the dependent values of an identifier, which are kept by element;
Bob reads one group of identifiers, up to a `NULL` or the end, and leaves the rest of the rows.
-/

namespace Safrn.Cuckoo

open Safrn.Java HashParams

/-- A row of Alice's result: column 1, and the `int`s of the columns from 2 on. -/
structure AliceRow where
  id : BitVec 32
  dv : Nat → Int

/-- `dvMaps`: for each dependent column a map from elements to values. -/
abbrev DvMaps := Nat → Nat → Option Int

/-- `dvMaps.get(i - 2).put(x, xs.getInt(i))` for all dependent columns. -/
def DvMaps.put (dvColumns : Nat) (dvMaps : DvMaps) (row : AliceRow) : DvMaps := fun col x ↦
  if col < dvColumns ∧ x = element row.id then some (row.dv col) else dvMaps col x

namespace HashParams

variable (p : HashParams)

/-- The loop over Alice's rows. -/
def readAlice (insert : Queues → Nat → Queues) (dvColumns : Nat) :
    List AliceRow → List Nat → Queues → DvMaps → Except Status (Queues × DvMaps)
  | [], _, U, dvMaps => .ok (U, dvMaps)
  | row :: rows, seen, U, dvMaps =>
    match p.admitElement seen row.id with
    | .error e => .error e
    | .ok x => readAlice insert dvColumns rows (x :: seen) (insert U x) (dvMaps.put dvColumns row)

/-- The loop over Bob's rows; the result includes the rows it leaves. -/
def readBob (insert : Queues → Nat → Queues) :
    List (Option (BitVec 32)) → List Nat → Queues →
      Except Status (Queues × List (Option (BitVec 32)))
  | [], _, U => .ok (U, [])
  | none :: xs, _, U => .ok (U, xs)
  | some id :: xs, seen, U =>
    match p.admitElement seen id with
    | .error e => .error e
    | .ok x => readBob insert xs (x :: seen) (insert U x)

end HashParams

namespace CuckooTable

/-- `buildAlice(ResultSet, int)`. -/
def buildAliceResultSet (t : CuckooTable) (dvColumns : Nat) (xs : List AliceRow)
    (maxDepth : Int) : CuckooTable × Except Status DvMaps :=
  match t.precheck maxDepth with
  | .error e => (t, .error e)
  | .ok () =>
    match t.readAlice (t.insertAt (aliceSub 0)) dvColumns xs [] Queues.empty
        (fun _ _ ↦ none) with
    | .error e => (t, .error e)
    | .ok (U, dvMaps) =>
      let (t, result) := t.buildAliceMain U maxDepth.toNat
      (t, result.map fun _ ↦ dvMaps)

/-- `buildBob(ResultSet, int)`. -/
def buildBobResultSet (t : CuckooTable) (xs : List (Option (BitVec 32))) (maxDepth : Int) :
    CuckooTable × Except Status (List (Option (BitVec 32))) :=
  match t.precheck maxDepth with
  | .error e => (t, .error e)
  | .ok () =>
    match t.readBob (t.insertAt (bobSub 0 0 ++ bobSub 1 0)) xs [] Queues.empty with
    | .error e => (t, .error e)
    | .ok (U, xs) =>
      let (t, result) := t.buildBobMain U maxDepth.toNat
      (t, result.map fun _ ↦ xs)

end CuckooTable

/-! ## The rows as identifiers -/

/-- The elements of Alice's rows. -/
def elements (rows : List AliceRow) : List Nat := rows.map fun row ↦ element row.id

theorem elements_eq (rows : List AliceRow) : elements rows = (rows.map (·.id)).map element := by
  rw [List.map_map]
  rfl

private theorem readAlice_eq (p : HashParams) (insert : Queues → Nat → Queues) (dvColumns : Nat)
    (rows : List AliceRow) (seen : List Nat) (U : Queues) (dvMaps : DvMaps) :
    p.readAlice insert dvColumns rows seen U dvMaps =
      (p.load insert (rows.map (·.id)) seen U).map fun U ↦
        (U, rows.foldl (DvMaps.put dvColumns) dvMaps) := by
  induction rows generalizing seen U dvMaps with
  | nil => rfl
  | cons row rows ih =>
    simp only [HashParams.readAlice, List.map_cons, HashParams.load, List.foldl_cons]
    cases p.admitElement seen row.id with
    | error e => rfl
    | ok x => exact ih _ _ _

private theorem readBob_eq (p : HashParams) (insert : Queues → Nat → Queues)
    (ids : List (BitVec 32)) (rest : List (Option (BitVec 32)))
    (hrest : ∀ x, rest.head? = some x → x = none) (seen : List Nat) (U : Queues) :
    p.readBob insert (ids.map some ++ rest) seen U =
      (p.load insert ids seen U).map fun U ↦ (U, rest.tail) := by
  induction ids generalizing seen U with
  | nil =>
    cases rest with
    | nil => rfl
    | cons x rest =>
      obtain rfl := hrest x rfl
      rfl
  | cons id ids ih =>
    simp only [List.map_cons, List.cons_append, HashParams.readBob, HashParams.load]
    cases p.admitElement seen id with
    | error e => rfl
    | ok x => exact ih _ _

/-- Rows with other elements leave a value alone. -/
private theorem foldl_put_of_notMem (dvColumns : Nat) {rows : List AliceRow} {x : Nat}
    (hx : x ∉ elements rows) (dvMaps : DvMaps) (col : Nat) :
    rows.foldl (DvMaps.put dvColumns) dvMaps col x = dvMaps col x := by
  induction rows generalizing dvMaps with
  | nil => rfl
  | cons row rows ih =>
    obtain ⟨hne, hrest⟩ := not_or.mp (fun h ↦ hx (List.mem_cons.mpr h))
    rw [List.foldl_cons, ih hrest]
    exact if_neg fun h ↦ hne h.2

/-- Every row finds its values. -/
private theorem foldl_put_get {dvColumns : Nat} {rows : List AliceRow}
    (hn : (elements rows).Nodup) {row : AliceRow} (hrow : row ∈ rows) {col : Nat}
    (hcol : col < dvColumns) (dvMaps : DvMaps) :
    rows.foldl (DvMaps.put dvColumns) dvMaps col (element row.id) = some (row.dv col) := by
  induction rows generalizing dvMaps with
  | nil => cases hrow
  | cons row' rows ih =>
    obtain ⟨hhead, hn'⟩ := List.nodup_cons.mp hn
    rw [List.foldl_cons]
    rcases List.mem_cons.mp hrow with rfl | hrow
    · rw [foldl_put_of_notMem dvColumns hhead]
      exact if_pos ⟨hcol, rfl⟩
    · exact ih hn' hrow _

namespace CuckooTable

/-- A build from Alice's rows builds the table of their identifiers and keeps their values. -/
theorem buildAliceResultSet_ok {t t' : CuckooTable} {dvColumns : Nat} {rows : List AliceRow}
    {maxDepth : Int} {dvMaps : DvMaps}
    (h : t.buildAliceResultSet dvColumns rows maxDepth = (t', .ok dvMaps)) :
    t.buildAlice (some (rows.map (·.id))) maxDepth = (t', .ok ()) ∧
      ∀ row ∈ rows, ∀ col < dvColumns, dvMaps col (element row.id) = some (row.dv col) := by
  have hbuild : t.buildAlice (some (rows.map (·.id))) maxDepth = (t', .ok ()) ∧
      dvMaps = rows.foldl (DvMaps.put dvColumns) fun _ _ ↦ none := by
    unfold buildAliceResultSet at h
    unfold buildAlice
    cases hc : t.precheck maxDepth with
    | error e => simp [hc] at h
    | ok u =>
      rw [hc, readAlice_eq] at h
      cases hl : t.load (t.insertAt (aliceSub 0)) (rows.map (·.id)) [] Queues.empty with
      | error e => simp [hl, Except.map] at h
      | ok U =>
        simp only [hl, Except.map, Prod.mk.injEq] at h
        obtain ⟨ht, hr⟩ := h
        cases hm : (t.buildAliceMain U maxDepth.toNat).2 with
        | error e => simp [hm] at hr
        | ok u =>
          simp only [hm, Except.ok.injEq] at hr
          refine ⟨?_, hr.symm⟩
          simp only [hl]
          exact Prod.ext ht hm
  obtain ⟨hb, rfl⟩ := hbuild
  refine ⟨hb, fun row hrow col hcol ↦ foldl_put_get ?_ hrow hcol _⟩
  rw [elements_eq]
  exact (buildAlice_ok hb).2.1.nodup

/-- A build from Bob's rows builds the table of the first group and leaves the other groups. -/
theorem buildBobResultSet_ok {t t' : CuckooTable} {ids : List (BitVec 32)}
    {rest xs : List (Option (BitVec 32))} (hrest : ∀ x, rest.head? = some x → x = none)
    {maxDepth : Int}
    (h : t.buildBobResultSet (ids.map some ++ rest) maxDepth = (t', .ok xs)) :
    t.buildBob (some ids) maxDepth = (t', .ok ()) ∧ xs = rest.tail := by
  unfold buildBobResultSet at h
  unfold buildBob
  cases hc : t.precheck maxDepth with
  | error e => simp [hc] at h
  | ok u =>
    rw [hc, readBob_eq _ _ _ _ hrest] at h
    cases hl : t.load (t.insertAt (bobSub 0 0 ++ bobSub 1 0)) ids [] Queues.empty with
    | error e => simp [hl, Except.map] at h
    | ok U =>
      simp only [hl, Except.map, Prod.mk.injEq] at h
      obtain ⟨ht, hr⟩ := h
      cases hm : (t.buildBobMain U maxDepth.toNat).2 with
      | error e => simp [hm] at hr
      | ok u =>
        simp only [hm, Except.ok.injEq] at hr
        refine ⟨?_, hr.symm⟩
        simp only [hl]
        exact Prod.ext ht hm

end CuckooTable
end Safrn.Cuckoo

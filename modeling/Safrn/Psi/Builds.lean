import Safrn.Psi.Protocol

/-!
# The tables that the two servers start from

When all builds succeed, the two tables of each row obey the placement law, and S finds the
values of every identifier.
-/

namespace Safrn.Psi

open Safrn.Base Safrn.Cuckoo HashParams

/-- The tables, values and transfers that the handlers read and do not change. -/
structure Built (P : Session) (s : ServerS) (u : ServerU) : Prop where
  params : s.cuckooTable.toHashParams = P.globals.hashParams
  placement : ∀ row < P.globals.rowCount, P.globals.hashParams.Placement
    s.cuckooTable.subtables (u.cuckooTable row).subtables (elements P.rows)
    ((P.groups row).map element)
  nodup : (elements P.rows).Nodup
  admissible : ∀ x ∈ elements P.rows, P.globals.hashParams.Admissible x
  admissible_groups : ∀ row < P.globals.rowCount, ∀ y ∈ (P.groups row).map element,
    P.globals.hashParams.Admissible y
  dvMaps : ∀ row ∈ P.rows, ∀ col < P.globals.wColumnCount,
    s.dvMaps col (element row.id) = some (row.dv col)
  isOt : s.isOt = fun row ↦ (P.sOt row).s
  iuOt : s.iuOt = fun row ↦ (P.uOt row).s
  iwOt : s.iwOt = fun row col ↦ (P.wOt row col).s
  gsOt : u.gsOt = fun row ↦ (P.sOt row).receiver
  guOt : u.guOt = fun row ↦ (P.uOt row).receiver
  gwOt : u.gwOt = fun row col ↦ (P.wOt row col).receiver

namespace Session

variable {P : Session}

/-- The rows of U's result from a group on. -/
def rest (P : Session) (row : Nat) : List (Option (BitVec 32)) :=
  ((List.range P.globals.rowCount).drop row).flatMap fun row ↦ none :: (P.groups row).map some

private theorem rest_eq {row : Nat} (h : row < P.globals.rowCount) :
    P.rest row = none :: ((P.groups row).map some ++ P.rest (row + 1)) := by
  have hlen : row < (List.range P.globals.rowCount).length := by rwa [List.length_range]
  rw [rest, List.drop_eq_getElem_cons hlen, List.flatMap_cons, List.getElem_range]
  rfl

private theorem rest_head {row : Nat} {x : Option (BitVec 32)}
    (h : (P.rest row).head? = some x) : x = none := by
  by_cases hrow : row < P.globals.rowCount
  · rw [rest_eq hrow] at h
    exact (Option.some.inj h).symm
  · have hnil : P.rest row = [] := by
      rw [rest, List.drop_eq_nil_of_le (by rw [List.length_range]; omega)]
      rfl
    rw [hnil] at h
    cases h

/-- What the loop over U's rows keeps: the tables so far, and the cursor behind the next group's
`NULL`. -/
private structure BuildInv (P : Session) (row : Nat)
    (st : ServerU × List (Option (BitVec 32))) : Prop where
  tables : ∀ i < row, P.globals.newCuckooTable.buildBob (some (P.groups i)) 100 =
    (st.1.cuckooTable i, .ok ())
  selbits : ∀ i < row, st.1.selbits i = P.globals.selbits (st.1.cuckooTable i) (P.sOt i).b
  gsOt : st.1.gsOt = fun row ↦ (P.sOt row).receiver
  guOt : st.1.guOt = fun row ↦ (P.uOt row).receiver
  gwOt : st.1.gwOt = fun row col ↦ (P.wOt row col).receiver
  cursor : st.2 = (P.rest row).tail

private theorem buildInv_step {row : Nat} (hrow : row < P.globals.rowCount)
    {u : ServerU} {xs xs' : List (Option (BitVec 32))} {table : CuckooTable}
    (hI : BuildInv P row (u, xs))
    (h : P.globals.newCuckooTable.buildBobResultSet xs 100 = (table, .ok xs')) :
    BuildInv P (row + 1)
      ({ u with
        cuckooTable := Function.update u.cuckooTable row table
        selbits := Function.update u.selbits row
          (P.globals.selbits table (u.gsOt row).b) }, xs') := by
  have hcursor : xs = (P.groups row).map some ++ P.rest (row + 1) := by
    have hxs : xs = (P.rest row).tail := hI.cursor
    rw [hxs, rest_eq hrow, List.tail_cons]
  rw [hcursor] at h
  obtain ⟨hbuild, hrest⟩ := CuckooTable.buildBobResultSet_ok (fun _ ↦ rest_head) h
  refine ⟨fun i hi ↦ ?_, fun i hi ↦ ?_, hI.gsOt, hI.guOt, hI.gwOt, hrest⟩
  · by_cases heq : i = row
    · subst heq
      dsimp only
      rw [hbuild, Function.update_self]
    · dsimp only
      rw [Function.update_of_ne heq]
      exact hI.tables i (by omega)
  · by_cases heq : i = row
    · subst heq
      have hb : (u.gsOt i).b = (P.sOt i).b := congrArg Receiver.b (congrFun hI.gsOt i)
      dsimp only
      rw [Function.update_self, Function.update_self, hb]
    · dsimp only
      rw [Function.update_of_ne heq, Function.update_of_ne heq]
      exact hI.selbits i (by omega)

/-- After `G_I_M_YI_1` each row has the table of its group. -/
private theorem buildInv_of_G_I_M_YI_1 {u : ServerU}
    (h : P.G_I_M_YI_1 P.newServerU = some u) : ∃ xs, BuildInv P P.globals.rowCount (u, xs) := by
  obtain ⟨⟨u', xs⟩, hrun, rfl⟩ := Option.map_eq_some_iff.mp h
  refine ⟨xs, ?_⟩
  have hstart : BuildInv P 0 (P.newServerU, P.sqlResult.tail) :=
    ⟨fun i hi ↦ absurd hi (Nat.not_lt_zero i), fun i hi ↦ absurd hi (Nat.not_lt_zero i), rfl, rfl,
      rfl, rfl⟩
  refine forRangeM_some (BuildInv P) hstart ?_ hrun
  rintro row hrow ⟨u, xs⟩ t' hI ht
  dsimp only at ht
  split at ht
  · next hbuild =>
    cases ht
    exact buildInv_step hrow hI (Prod.ext rfl hbuild)
  · cases ht

/-- After `I_G_M_YI_0` S has the table and the values of its rows. -/
private theorem buildAlice_of_I_G_M_YI_0 {s : ServerS} (h : P.I_G_M_YI_0 P.newServerS = some s) :
    ∃ table dvMaps, P.globals.newCuckooTable.buildAliceResultSet P.globals.wColumnCount P.rows
      100 = (table, .ok dvMaps) ∧ s = { P.newServerS with cuckooTable := table, dvMaps } := by
  dsimp only [I_G_M_YI_0] at h
  split at h
  · next dvMaps hbuild =>
    exact ⟨_, dvMaps, Prod.ext rfl hbuild, (Option.some.inj h).symm⟩
  · cases h

/-- What both servers start from. -/
theorem built_of_init {s : ServerS} {u : ServerU} (hs : P.I_G_M_YI_0 P.newServerS = some s)
    (hu : P.G_I_M_YI_1 P.newServerU = some u) :
    Built P s u ∧ ∀ row < P.globals.rowCount,
      u.selbits row = P.globals.selbits (u.cuckooTable row) (P.sOt row).b := by
  obtain ⟨table, dvMaps, halice, rfl⟩ := buildAlice_of_I_G_M_YI_0 hs
  obtain ⟨xs, hI⟩ := buildInv_of_G_I_M_YI_1 hu
  obtain ⟨hA, hdv⟩ := CuckooTable.buildAliceResultSet_ok halice
  obtain ⟨hparams, hadmA, -⟩ := CuckooTable.buildAlice_ok hA
  refine ⟨⟨hparams, fun row hrow ↦ ?_, ?_, ?_, fun row hrow ↦ ?_, hdv, rfl, rfl, rfl, hI.gsOt,
    hI.guOt, hI.gwOt⟩, hI.selbits⟩
  · have hB := hI.tables row hrow
    have hplace := (builds_placement P.globals.newCuckooTable P.globals.newCuckooTable rfl
      (P.rows.map (·.id)) (P.groups row) 100 100).1 (by rw [hA]) (by rw [hB])
    rw [hA, hB, ← elements_eq] at hplace
    exact hplace
  · rw [elements_eq]
    exact hadmA.nodup
  · rw [elements_eq]
    exact hadmA.admissible
  · exact (CuckooTable.buildBob_ok (hI.tables row hrow)).2.1.admissible

end Session
end Safrn.Psi

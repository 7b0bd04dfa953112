import Safrn.Base.MixedRadix
import Safrn.Cuckoo.Groups
import Safrn.Java.BigInteger

/-!
# The labels of a result's rows

Models `FrontServerHttpQueryResponse.java:151-209`, what `FrontServerHttpHandler.java:1110-1131,
1248-1279,1341-1357` appends for the rows, and the row count and the frequencies of the back servers
(`BackServerRawHandler.java:2090-2097,4082-4115`, `QueryBuilder.java:475-556`). The rows are
labelled by an odometer over the domains; the databases order them by the identifiers of the domain
tables. What is appended for the numbers of a row is a parameter, as is `Json.encode`.
-/

namespace Safrn.Http

open Safrn.Base Safrn.Java Safrn.Cuckoo MixedRadix

/-! ## The response -/

/-- `FrontServerIv`. -/
structure FrontServerIv where
  domain : List String
  name : String
  quote : Bool

/-- `FrontServerHttpQueryResponse`. -/
structure FrontServerHttpQueryResponse where
  ivList : List FrontServerIv
  dvList : List String
  sums : List (List Int)

/-- One entry after the other, with the entry of a second list at the same index. -/
def updateEach {α β : Type} (f : α → β → Except Status α) : List α → List β → Except Status (List α)
  | [], _ => .ok []
  | _ :: _, [] => .error .indexOutOfBoundsException
  | x :: xs, y :: ys => do return (← f x y) :: (← updateEach f xs ys)

namespace FrontServerHttpQueryResponse

/-- The loop over `r`. -/
def multiplyRows : ℕ → List FrontServerIv → Except Status ℕ
  | r, [] => .ok r
  | r, iv :: ivList =>
    if Integer.MAX_VALUE - 1 < iv.domain.length then .error .allocationImpossible
    else if Integer.MAX_VALUE / (iv.domain.length + 1) < r then .error .allocationImpossible
    else multiplyRows (r * (iv.domain.length + 1)) ivList

/-- The constructor. -/
def create (ivList : List FrontServerIv) (dvList : List String) (countColumn : Bool) :
    Except Status FrontServerHttpQueryResponse := do
  let rows ← multiplyRows 1 ivList
  if Integer.MAX_VALUE - 1 < dvList.length then .error .allocationImpossible
  else
    let columns := dvList.length + if countColumn then 1 else 0
    return ⟨ivList, dvList, List.replicate rows (List.replicate columns 0)⟩

/-- `userEventTriggered`: add what a back server has sent. -/
def userEventTriggered (response : FrontServerHttpQueryResponse) (summands : List (List Int)) :
    Except Status FrontServerHttpQueryResponse := do
  let sums ← updateEach (updateEach fun x y ↦ .ok (x + y)) response.sums summands
  return { response with sums }

/-- The response after the messages of some back servers. -/
def Answered (ivList : List FrontServerIv) (dvList : List String) (countColumn : Bool)
    (response : FrontServerHttpQueryResponse) : Prop :=
  ∃ response₀ messages, create ivList dvList countColumn = .ok response₀ ∧
    List.foldlM userEventTriggered response₀ messages = .ok response

end FrontServerHttpQueryResponse

/-! ## The odometer -/

section

variable (encode : String → String) (cells : List Int → String)

/-- What is appended for a value of the domain. -/
def FrontServerIv.valueText (iv : FrontServerIv) (value : String) : String :=
  if iv.quote then "\"" ++ encode value ++ "\", " else value ++ ", "

/-- What is appended for an index. -/
def FrontServerIv.text (iv : FrontServerIv) (domainIndex : ℕ) : Except Status String :=
  if domainIndex = iv.domain.length then .ok "\"*\", "
  else
    match iv.domain[domainIndex]? with
    | none => .error .indexOutOfBoundsException
    | some value => .ok (iv.valueText encode value)

/-- The label of a row. -/
def label : List FrontServerIv → List ℕ → Except Status (List String)
  | [], _ => .ok []
  | _ :: _, [] => .error .indexOutOfBoundsException
  | iv :: ivList, domainIndex :: domainIndexes => do
    return (← iv.text encode domainIndex) :: (← label ivList domainIndexes)

/-- The loop that goes to the next row, from `j - 1` down. -/
def carry (ivList : List FrontServerIv) : ℕ → List ℕ → Except Status (List ℕ)
  | 0, domainIndexes => .ok domainIndexes
  | j + 1, domainIndexes =>
    match ivList[j]?, domainIndexes[j]? with
    | some iv, some domainIndex =>
      if domainIndex < iv.domain.length then .ok (domainIndexes.set j (domainIndex + 1))
      else carry ivList j (domainIndexes.set j 0)
    | _, _ => .error .indexOutOfBoundsException

/-- What is appended for a row. -/
def rowText (label : List String) (row : List Int) (last : Bool) : String :=
  "    [" ++ String.join label ++ cells row ++ "]" ++ (if last then "" else ",") ++ "\r\n"

/-- The loop over the rows. -/
def appendRows (ivList : List FrontServerIv) :
    List (List Int) → List ℕ → Except Status (List String)
  | [], _ => .ok []
  | row :: sums, domainIndexes => do
    let text := rowText cells (← label encode ivList domainIndexes) row sums.isEmpty
    let domainIndexes ← carry ivList ivList.length domainIndexes
    return text :: (← appendRows ivList sums domainIndexes)

/-- The rows of a response. -/
def FrontServerHttpQueryResponse.appendData (response : FrontServerHttpQueryResponse) :
    Except Status (List String) :=
  appendRows encode cells response.ivList response.sums (List.replicate response.ivList.length 0)

/-- `domainIndexes` in round `i`. -/
def domainIndexes (ivList : List FrontServerIv) : ℕ → Except Status (List ℕ)
  | 0 => .ok (List.replicate ivList.length 0)
  | i + 1 => do carry ivList ivList.length (← domainIndexes ivList i)

end

/-! ## The back servers -/

/-- `getRowCount`, in the arithmetic of an `int`. -/
def BackServerRawHandler.getRowCount (domainSizes : String → ℕ) (ivList : List String) :
    BitVec 32 :=
  ivList.foldl (fun rows iv ↦ rows * (BitVec.ofNat 32 (domainSizes iv) + 1)) 1

/-- `COUNT(*)` of what a choice selects. -/
def frequency (db : Database) (choice : Choice) : ℕ := (db.table.filter (db.selects choice)).length

/-- A result of the query of `handleGroupFreq`: the choices in the order of the identifiers of the
domain tables, each with its column `freq`. -/
structure IsFreqResult (db : Database) (ivList : List String) (rows : List (List Int × ℕ)) :
    Prop where
  perm : rows.Perm ((db.choices ivList).map fun choice ↦ (orderfix choice, frequency db choice))
  sorted : rows.Pairwise fun r r' ↦ ¬r'.1 < r.1

/-- `W_A_F_0`: the loop over the result. -/
def BackServerRawHandler.W_A_F_0 : ℕ → List (List Int × ℕ) → Except Status (List ℕ)
  | 0, _ => .ok []
  | _ + 1, [] => .error (.failure "")
  | rowCount + 1, row :: sqlResult => do return row.2 :: (← W_A_F_0 rowCount sqlResult)

/-- The domain tables have the values of the configuration, and the wildcard behind them. -/
structure Labelled (db : Database) (ivList : List FrontServerIv) : Prop where
  ids : ∀ iv ∈ ivList, (db.domain iv.name).Pairwise fun d d' ↦ d.id < d'.id
  values : ∀ iv ∈ ivList, (db.domain iv.name).map DomainRow.value = iv.domain ++ ["\"*\""]

/-! ## The number of rows -/

/-- The base of each place of the odometer. -/
def bases (ivList : List FrontServerIv) : List ℕ := ivList.map fun iv ↦ iv.domain.length + 1

theorem length_updateEach {α β : Type} {f : α → β → Except Status α} {xs zs : List α} {ys : List β}
    (h : updateEach f xs ys = .ok zs) : zs.length = xs.length := by
  fun_induction updateEach f xs ys generalizing zs with
  | case1 ys =>
    obtain rfl := Except.ok.inj h
    rfl
  | case2 x xs => contradiction
  | case3 x xs y ys ih =>
    obtain ⟨z, -, h⟩ := bind_eq_ok.mp h
    obtain ⟨zs', hzs, h⟩ := bind_eq_ok.mp h
    obtain rfl := Except.ok.inj h
    rw [List.length_cons, ih hzs, List.length_cons]

namespace FrontServerHttpQueryResponse

theorem multiplyRows_eq_ok {ivList : List FrontServerIv} {r rows : ℕ}
    (h : multiplyRows r ivList = .ok rows) :
    rows = r * (bases ivList).prod ∧ (r ≤ Integer.MAX_VALUE → rows ≤ Integer.MAX_VALUE) := by
  fun_induction multiplyRows r ivList with
  | case1 r =>
    obtain rfl := Except.ok.inj h
    exact ⟨(Nat.mul_one _).symm, id⟩
  | case2 r iv ivList hlarge => contradiction
  | case3 r iv ivList hlarge hr => contradiction
  | case4 r iv ivList hlarge hr ih =>
    obtain ⟨hrows, hle⟩ := ih h
    have hfits := (Nat.le_div_iff_mul_le (Nat.succ_pos _)).mp (Nat.le_of_not_lt hr)
    refine ⟨?_, fun _ ↦ hle hfits⟩
    rw [hrows, bases, bases, List.map_cons, List.prod_cons, Nat.mul_assoc]

/-- What the back servers send changes neither the variables nor the number of rows. -/
theorem foldlM_userEventTriggered {messages : List (List (List Int))}
    {response response' : FrontServerHttpQueryResponse}
    (h : List.foldlM userEventTriggered response messages = .ok response') :
    response'.ivList = response.ivList ∧ response'.sums.length = response.sums.length := by
  induction messages generalizing response with
  | nil =>
    obtain rfl := Except.ok.inj h
    exact ⟨rfl, rfl⟩
  | cons summands messages ih =>
    rw [List.foldlM_cons] at h
    obtain ⟨middle, hmiddle, h⟩ := bind_eq_ok.mp h
    obtain ⟨sums, hsums, hmiddle⟩ := bind_eq_ok.mp hmiddle
    obtain rfl := Except.ok.inj hmiddle
    obtain ⟨hiv, hlength⟩ := ih h
    exact ⟨hiv, hlength.trans (length_updateEach hsums)⟩

theorem Answered.spec {ivList : List FrontServerIv} {dvList : List String} {countColumn : Bool}
    {response : FrontServerHttpQueryResponse} (h : Answered ivList dvList countColumn response) :
    response.ivList = ivList ∧ response.sums.length = (bases ivList).prod ∧
      (bases ivList).prod ≤ Integer.MAX_VALUE := by
  obtain ⟨response₀, messages, hcreate, hmessages⟩ := h
  obtain ⟨rows, hrows, hcreate⟩ := bind_eq_ok.mp hcreate
  obtain ⟨hprod, hle⟩ := multiplyRows_eq_ok hrows
  rw [Nat.one_mul] at hprod
  split at hcreate
  · contradiction
  · obtain rfl := Except.ok.inj hcreate
    obtain ⟨hiv, hlength⟩ := foldlM_userEventTriggered hmessages
    rw [List.length_replicate] at hlength
    exact ⟨hiv, hlength.trans hprod, hprod ▸ hle (by decide)⟩

end FrontServerHttpQueryResponse

/-- The back servers count the rows without an overflow where the front server does. -/
theorem toNat_getRowCount {domainSizes : String → ℕ} {ivList : List FrontServerIv}
    (hsizes : ∀ iv ∈ ivList, domainSizes iv.name = iv.domain.length)
    (hle : (bases ivList).prod ≤ Integer.MAX_VALUE) :
    (BackServerRawHandler.getRowCount domainSizes (ivList.map (·.name))).toNat =
        (bases ivList).prod ∧
      Cuckoo.getRowCount domainSizes (ivList.map (·.name)) = (bases ivList).prod := by
  have hfold : ∀ r : ℕ,
      (ivList.map (·.name)).foldl (fun rows iv ↦ rows * (BitVec.ofNat 32 (domainSizes iv) + 1))
          (BitVec.ofNat 32 r) = BitVec.ofNat 32 (r * (bases ivList).prod) ∧
        (ivList.map (·.name)).foldl (fun rows iv ↦ rows * (domainSizes iv + 1)) r =
          r * (bases ivList).prod := by
    clear hle
    induction ivList with
    | nil =>
      intro r
      simp [bases]
    | cons iv ivList ih =>
      intro r
      have hrest := ih (fun iv' hiv' ↦ hsizes iv' (List.mem_cons_of_mem _ hiv'))
        (r * (iv.domain.length + 1))
      rw [List.map_cons, List.foldl_cons, List.foldl_cons, hsizes iv List.mem_cons_self, bases,
        List.map_cons, List.prod_cons, ← Nat.mul_assoc, ← bases, ← hrest.1, ← hrest.2]
      refine ⟨?_, rfl⟩
      congr 1
      rw [BitVec.ofNat_mul, BitVec.ofNat_add]
      rfl
  obtain ⟨hbits, hnat⟩ := hfold 1
  rw [Nat.one_mul] at hbits hnat
  refine ⟨?_, hnat⟩
  rw [BackServerRawHandler.getRowCount]
  change (List.foldl _ (BitVec.ofNat 32 1) _).toNat = _
  rw [hbits, BitVec.toNat_ofNat]
  exact Nat.mod_eq_of_lt (Nat.lt_of_le_of_lt hle (by decide))

/-! ## The odometer -/

/-- The loop is the step of the odometer at the places before the index. -/
theorem carry_eq (ivList : List FrontServerIv) {j : ℕ} (hj : j ≤ ivList.length) {ds rest : List ℕ}
    (hds : ds.length = j) :
    carry ivList j (ds ++ rest) = .ok ((next (bases (ivList.take j)) ds).2 ++ rest) := by
  induction j generalizing ds rest with
  | zero =>
    obtain rfl := List.length_eq_zero_iff.mp hds
    rfl
  | succ j ih =>
    obtain ⟨ds, d, rfl⟩ :=
      (List.eq_nil_or_concat' ds).resolve_left (List.ne_nil_of_length_pos (by omega))
    rw [List.length_append, List.length_singleton, Nat.add_right_cancel_iff] at hds
    have hbases : bases (ivList.take (j + 1)) =
        bases (ivList.take j) ++ [ivList[j].domain.length + 1] := by
      rw [List.take_succ_eq_append_getElem hj, bases, List.map_append]
      rfl
    have hlength : ds.length = (bases (ivList.take j)).length := by
      rw [bases, List.length_map, List.length_take, hds]
      omega
    have hget : (ds ++ [d] ++ rest)[j]? = some d := by
      rw [List.append_assoc, List.getElem?_append_right (by omega), hds, Nat.sub_self]
      rfl
    have hset : ∀ x, (ds ++ [d] ++ rest).set j x = ds ++ x :: rest := by
      intro x
      rw [List.append_assoc, List.set_append_right _ _ (by omega), hds, Nat.sub_self]
      rfl
    rw [carry, List.getElem?_eq_getElem hj, hget, hbases, next_concat hlength]
    dsimp only
    by_cases hd : d < ivList[j].domain.length
    · rw [if_pos hd, if_pos (Nat.succ_lt_succ hd), hset, List.append_assoc]
      rfl
    · rw [if_neg hd, if_neg fun hlt ↦ hd (Nat.lt_of_succ_lt_succ hlt), hset,
        ih (Nat.le_of_succ_le hj) hds, List.append_assoc]
      rfl

/-- The next row has the digits of the next number. -/
theorem carry_digits (ivList : List FrontServerIv) {i : ℕ} (hi : i < (bases ivList).prod) :
    carry ivList ivList.length (digits (bases ivList) i) =
      .ok (digits (bases ivList) ((i + 1) % (bases ivList).prod)) := by
  have hds : (digits (bases ivList) i).length = ivList.length := by
    rw [length_digits, bases, List.length_map]
  have hcarry := @carry_eq ivList _ le_rfl _ [] hds
  rw [List.append_nil, List.append_nil, List.take_length, next_digits hi] at hcarry
  rw [hcarry]
  split
  · next hlt => rw [Nat.mod_eq_of_lt hlt]
  · next hlast => rw [show i + 1 = (bases ivList).prod by omega, Nat.mod_self]

theorem digits_bases_zero (ivList : List FrontServerIv) :
    digits (bases ivList) 0 = List.replicate ivList.length 0 := by
  rw [digits_zero, bases, List.length_map]

/-- In round `i` the array has the digits of `i`. -/
theorem domainIndexes_eq (ivList : List FrontServerIv) {i : ℕ} (hi : i < (bases ivList).prod) :
    domainIndexes ivList i = .ok (digits (bases ivList) i) := by
  induction i with
  | zero => rw [domainIndexes, digits_bases_zero]
  | succ i ih =>
    rw [domainIndexes, ih (Nat.lt_of_succ_lt hi), ok_bind,
      carry_digits ivList (Nat.lt_of_succ_lt hi), Nat.mod_eq_of_lt hi]

/-! ## The labels -/

section

variable (encode : String → String) (cells : List Int → String)

/-- The text of a place names a row of its domain table. -/
def FrontServerIv.Names (iv : FrontServerIv) (text : String) (row : String × DomainRow) : Prop :=
  row.1 = iv.name ∧
    (text = "\"*\", " ∧ row.2.value = "\"*\"" ∨
      row.2.value ∈ iv.domain ∧ text = iv.valueText encode row.2.value)

/-- What is appended for the rows with certain labels. -/
def rowTexts : List (List String) → List (List Int) → List String
  | label :: labels, row :: sums => rowText cells label row sums.isEmpty :: rowTexts labels sums
  | _, _ => []

theorem exists_text (iv : FrontServerIv) {d : ℕ} (hd : d < iv.domain.length + 1) :
    ∃ text, iv.text encode d = .ok text ∧
      (d = iv.domain.length ∧ text = "\"*\", " ∨
        ∃ value, iv.domain[d]? = some value ∧ text = iv.valueText encode value) := by
  rw [FrontServerIv.text]
  by_cases hstar : d = iv.domain.length
  · rw [if_pos hstar]
    exact ⟨_, rfl, .inl ⟨hstar, rfl⟩⟩
  · have hlt : d < iv.domain.length := by omega
    rw [if_neg hstar, List.getElem?_eq_getElem hlt]
    exact ⟨_, rfl, .inr ⟨_, rfl, rfl⟩⟩

/-- Every place has its text. -/
theorem exists_label {ivList : List FrontServerIv} {ds : List ℕ}
    (h : List.Forall₂ (· < ·) ds (bases ivList)) :
    ∃ texts, label encode ivList ds = .ok texts ∧
      Forall₃ (fun iv d text ↦ iv.text encode d = .ok text) ivList ds texts := by
  induction ivList generalizing ds with
  | nil =>
    cases h
    exact ⟨[], rfl, .nil⟩
  | cons iv ivList ih =>
    cases h with
    | cons hd hds =>
      obtain ⟨text, htext, -⟩ := exists_text encode iv hd
      obtain ⟨texts, htexts, hall⟩ := ih hds
      refine ⟨text :: texts, ?_, .cons htext hall⟩
      rw [label, htext, htexts]
      rfl

/-- The rows from `i` on. -/
theorem appendRows_eq (ivList : List FrontServerIv) {sums : List (List Int)} {i : ℕ}
    (h : i + sums.length = (bases ivList).prod) :
    ∃ labels,
      appendRows encode cells ivList sums (digits (bases ivList) (i % (bases ivList).prod)) =
        .ok (rowTexts cells labels sums) ∧
      List.Forall₂ (fun n texts ↦ label encode ivList (digits (bases ivList) n) = .ok texts)
        (List.range' i sums.length) labels := by
  induction sums generalizing i with
  | nil => exact ⟨[], rfl, .nil⟩
  | cons row sums ih =>
    rw [List.length_cons] at h
    have hi : i < (bases ivList).prod := by omega
    obtain ⟨texts, htexts, -⟩ := exists_label encode (digits_lt hi)
    obtain ⟨labels, hlabels, hall⟩ := ih (i := i + 1) (by omega)
    refine ⟨texts :: labels, ?_, .cons htexts hall⟩
    rw [appendRows, Nat.mod_eq_of_lt hi, htexts, carry_digits ivList hi]
    simp only [ok_bind, hlabels]
    rfl

end

/-! ## The groups -/

section

variable {db : Database} {domainSizes : String → ℕ} {ivList : List FrontServerIv}

theorem Labelled.numbered (hdb : Labelled db ivList)
    (hsizes : ∀ iv ∈ ivList, domainSizes iv.name = iv.domain.length) :
    Cuckoo.Numbered db domainSizes (ivList.map (·.name)) := by
  constructor
  · intro name hname
    obtain ⟨iv, hiv, rfl⟩ := List.mem_map.mp hname
    exact hdb.ids iv hiv
  · intro name hname
    obtain ⟨iv, hiv, rfl⟩ := List.mem_map.mp hname
    have hlength := congrArg List.length (hdb.values iv hiv)
    rw [List.length_map, List.length_append, List.length_singleton] at hlength
    rw [hlength, hsizes iv hiv]

/-- The rows of the domain tables, by their positions. -/
theorem forall₂_choices (hdb : Labelled db ivList) :
    List.Forall₂ (Forall₃ (fun iv d row ↦
        row.1 = iv.name ∧ (iv.domain ++ ["\"*\""])[d]? = some row.2.value) ivList)
      ((List.range (bases ivList).prod).map (digits (bases ivList)))
      (db.choices (ivList.map (·.name))) := by
  rw [map_digits_range, bases, List.map_map, Database.choices, List.map_map]
  apply forall₃_crossJoin
  intro iv hiv
  have hvalues := hdb.values iv hiv
  have hlength := congrArg List.length hvalues
  rw [List.length_map, List.length_append, List.length_singleton] at hlength
  rw [List.forall₂_iff_get]
  simp only [Function.comp_apply, List.length_range, List.length_map]
  refine ⟨hlength.symm, fun d hd hd' ↦ ?_⟩
  rw [← hvalues]
  simp [hd']

/-- The label of a row names the choice at its position. -/
theorem names_of_label (encode : String → String) (iv : FrontServerIv) (d : ℕ) (text : String)
    (row : String × DomainRow) (htext : iv.text encode d = .ok text)
    (hrow : row.1 = iv.name ∧ (iv.domain ++ ["\"*\""])[d]? = some row.2.value) :
    iv.Names encode text row := by
  obtain ⟨hname, hvalue⟩ := hrow
  have hd : d < iv.domain.length + 1 := by
    have hlt := (List.getElem?_eq_some_iff.mp hvalue).1
    rwa [List.length_append, List.length_singleton] at hlt
  obtain ⟨text', htext', h⟩ := exists_text encode iv hd
  obtain rfl : text = text' := Except.ok.inj (htext.symm.trans htext')
  refine ⟨hname, ?_⟩
  rcases h with ⟨rfl, hstar⟩ | ⟨value, hget, hvalue'⟩
  · rw [List.getElem?_append_right le_rfl, Nat.sub_self] at hvalue
    exact .inl ⟨hstar, (Option.some.inj hvalue).symm⟩
  · rw [List.getElem?_append_left (List.getElem?_eq_some_iff.mp hget).1, hget] at hvalue
    obtain rfl := Option.some.inj hvalue
    exact .inr ⟨List.mem_of_getElem? hget, hvalue'⟩

theorem W_A_F_0_eq (rows : List (List Int × ℕ)) :
    BackServerRawHandler.W_A_F_0 rows.length rows = .ok (rows.map Prod.snd) := by
  induction rows with
  | nil => rfl
  | cons row rows ih =>
    rw [List.length_cons, BackServerRawHandler.W_A_F_0, ih]
    rfl

/-- The frequencies come in the order of the choices. -/
theorem IsFreqResult.eq_choices {sqlResult : List (List Int × ℕ)}
    (hnum : Cuckoo.Numbered db domainSizes (ivList.map (·.name)))
    (h : IsFreqResult db (ivList.map (·.name)) sqlResult) :
    sqlResult = (db.choices (ivList.map (·.name))).map fun choice ↦
      (orderfix choice, frequency db choice) := by
  have hchoices := pairwise_choices hnum
  have hinj : ((db.choices (ivList.map (·.name))).map orderfix).Nodup := by
    rw [List.nodup_iff_pairwise_ne, List.pairwise_map]
    exact hchoices.imp fun {c c'} hlt (heq : orderfix c = orderfix c') ↦
      List.lt_irrefl _ (heq ▸ hlt)
  apply h.perm.eq_of_pairwise _ h.sorted
  · rw [List.pairwise_map]
    exact hchoices.imp fun hlt ↦ List.lt_asymm hlt
  · intro r r' hr hr' hle hge
    obtain ⟨c, hc, rfl⟩ := List.mem_map.mp (h.perm.mem_iff.mp hr)
    obtain ⟨c', hc', rfl⟩ := List.mem_map.mp hr'
    have heq : orderfix c = orderfix c' :=
      List.le_antisymm (List.not_lt.mp hle) (List.not_lt.mp hge)
    rw [List.inj_on_of_nodup_map hinj hc hc' heq]

end

/-- The label of each row names the group that its numbers are about: the label of row `i` has the
digits of `i` and the text of the row of the domain tables at each of them, and both analyses take
the rows in this order. -/
structure LabelsGroups (encode : String → String) (cells : List Int → String)
    (response : FrontServerHttpQueryResponse) (db : Database) (domainSizes : String → ℕ)
    (freqResult : List (List Int × ℕ)) (tables : List CuckooTable) : Prop where
  rowCount : (BackServerRawHandler.getRowCount domainSizes
    (response.ivList.map (·.name))).toInt = response.sums.length
  odometer : ∀ i < response.sums.length,
    domainIndexes response.ivList i = .ok (digits (bases response.ivList) i)
  labels : ∃ labels, response.appendData encode cells =
      .ok (rowTexts cells labels response.sums) ∧
    List.Forall₂ (Forall₃ (FrontServerIv.Names encode) response.ivList) labels
      (db.choices (response.ivList.map (·.name)))
  freq : BackServerRawHandler.W_A_F_0 response.sums.length freqResult =
    .ok ((db.choices (response.ivList.map (·.name))).map (frequency db))
  mean : List.Forall₂ (fun table choice ↦ table.HoldsIds (db.groupIds choice)) tables
    (db.choices (response.ivList.map (·.name)))

section

variable {encode : String → String} {cells : List Int → String} {ivList : List FrontServerIv}
  {dvList : List String} {countColumn : Bool} {response : FrontServerHttpQueryResponse}
  {db : Database} {domainSizes : String → ℕ} {freqResult : List (List Int × ℕ)}
  {subprotocol : JdbcSubprotocol} {sqlResult : List Row} {t : CuckooTable}
  {tables : List CuckooTable}

/-- Everything but the groups of the means is as it should be on every database. -/
theorem labelsGroups_iff_mean
    (hresponse : FrontServerHttpQueryResponse.Answered ivList dvList countColumn response)
    (hsizes : ∀ iv ∈ ivList, domainSizes iv.name = iv.domain.length) (hdb : Labelled db ivList)
    (hfreq : IsFreqResult db (ivList.map (·.name)) freqResult) :
    LabelsGroups encode cells response db domainSizes freqResult tables ↔
      List.Forall₂ (fun table choice ↦ table.HoldsIds (db.groupIds choice)) tables
        (db.choices (ivList.map (·.name))) := by
  obtain ⟨rfl, hlength, hle⟩ := hresponse.spec
  have hnum := hdb.numbered hsizes
  obtain ⟨hcount, hcount'⟩ := toNat_getRowCount hsizes hle
  have hchoices := length_choices hnum
  rw [hcount'] at hchoices
  refine ⟨fun h ↦ h.mean, fun hmean ↦ ⟨?_, ?_, ?_, ?_, hmean⟩⟩
  · rw [BitVec.toInt_eq_toNat_of_lt, hcount, hlength]
    rw [hcount]
    simp only [Integer.MAX_VALUE] at hle
    omega
  · intro i hi
    exact domainIndexes_eq _ (hlength ▸ hi)
  · obtain ⟨labels, happend, hlabels⟩ := @appendRows_eq encode cells response.ivList
      response.sums 0 (by rw [Nat.zero_add, hlength])
    rw [Nat.zero_mod, digits_bases_zero] at happend
    refine ⟨labels, happend, ?_⟩
    have hplaces := forall₂_choices hdb
    rw [List.forall₂_map_left_iff, List.range_eq_range', ← hlength] at hplaces
    apply (forall₂_join hlabels hplaces).imp
    rintro texts choice ⟨n, hn, htexts, hplace⟩
    have hlt : n < (bases response.ivList).prod := by
      rw [← hlength]
      exact (List.mem_range'_1.mp hn).2.trans_eq (Nat.zero_add _)
    obtain ⟨texts', htexts', hall⟩ := exists_label encode (digits_lt hlt)
    obtain rfl : texts = texts' := Except.ok.inj (htexts.symm.trans htexts')
    exact hall.join (fun iv d text row htext ↦ names_of_label encode iv d text row htext) hplace
  · rw [hfreq.eq_choices hnum, hlength, ← hchoices, ← List.length_map, W_A_F_0_eq, List.map_map]
    rfl

end

/-- The one column of the small database. -/
def smallIv : FrontServerIv := ⟨["Male"], "Sex", true⟩

/-- The response with the sums of one column. -/
def smallResponse : FrontServerHttpQueryResponse := ⟨[smallIv], ["Income"], [[0], [0]]⟩

theorem answered_smallResponse :
    FrontServerHttpQueryResponse.Answered [smallIv] ["Income"] false smallResponse :=
  ⟨smallResponse, [], rfl, rfl⟩

theorem labelled_smallDatabase : Labelled smallDatabase [smallIv] where
  ids _ _ := by simp [smallDatabase]
  values iv hiv := by
    obtain rfl := List.mem_singleton.mp hiv
    rfl

theorem isFreqResult_smallDatabase :
    IsFreqResult smallDatabase ["Sex"] [([1], 1), ([2], 1)] where
  perm := by decide
  sorted := by decide

end Safrn.Http

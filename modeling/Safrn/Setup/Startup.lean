import Safrn.Setup.Csv
import Safrn.Stats.MomentPowers
import Safrn.Stats.PeerSet

/-!
# Starting a query at a data owner

Models `findKeyCols` and `startup` (`Startup.cpp:21-297`) for a data owner, with `findPayloadMoment`
(`StartupMoments.cpp:12-36`), `setupRegression` (`StartupRegression.cpp:136-203`) and `setupMoments`
(`StartupMoments.cpp:88-172`), up to the rows that the statistic is constructed with. `none` stands
for a run that does not return, which includes an access through a null pointer or out of range; a
run that returns `nullptr` is `some none`.
-/

namespace Safrn.Setup

open Safrn.Stats (Identity Observation Peer PeerSet dataPayload mem_addDataowner resize)

/-! ## Queries -/

/-- `JoinType`. -/
inductive JoinType
  | inner
  | fullOuter
  | left
  | right

/-- `JoinOn`; the formula is the list of its coefficients. -/
structure JoinOn where
  col : ColumnSpec
  formula : List ℚ

/-- `JoinStatement`, which is not parsed without a pair of columns. -/
structure JoinStatement where
  type : JoinType
  joinOns : List (JoinOn × JoinOn)
  joinOns_ne_nil : joinOns ≠ []

/-- `MomentFunction`, as far as a data owner's rows depend on it. -/
structure MomentFunction where
  col : ColumnSpec
  momentType : Nat
  bitsOfPrecision : Nat

/-- `SafrnFunction` by its type. -/
inductive SafrnFunction
  | linRegression (func : LinearRegressionFunction) (fitIntercept : Bool) (bitsOfPrecision : Nat)
  | moment (func : MomentFunction)
  | order

/-- `Query`, over the filters. -/
structure Query (QueryFilter : Type) where
  prefilters : List QueryFilter
  joinStatement : Option JoinStatement
  function : SafrnFunction

/-- A `Peer` of a study. -/
structure StudyPeer where
  organizationId : Nat
  isRecipient : Bool
  isDealer : Bool
  isDataowner : Bool
  verticalIdx : Nat

/-- `StudyConfig`. -/
structure StudyConfig where
  lexicon : List Vertical
  peers : List StudyPeer

/-- The verticals of the first pair of columns, which are taken from the lexicon unchecked. -/
def JoinStatement.joined (join : JoinStatement) (lexicon : List Vertical) :
    Option JoinedVerticals :=
  let first := join.joinOns.head join.joinOns_ne_nil
  if h : first.1.col.vertical < lexicon.length ∧ first.2.col.vertical < lexicon.length then
    some
      { lexicon
        leftVert := first.1.col.vertical
        rightVert := first.2.col.vertical
        leftVert_lt := h.1
        rightVert_lt := h.2 }
  else none

namespace JoinedVerticals

variable (J : JoinedVerticals)

/-- `scfg.lexicon[leftVert]`. -/
def lvert : Vertical := J.lexicon.get ⟨J.leftVert, J.leftVert_lt⟩

/-- `scfg.lexicon[rightVert]`. -/
def rvert : Vertical := J.lexicon.get ⟨J.rightVert, J.rightVert_lt⟩

/-- The loop of `findKeyCols`, for `leftKeys` and `rightKeys`; false is `none`. -/
def pushKeyCols : List (JoinOn × JoinOn) → List Nat × List Nat → Option (List Nat × List Nat)
  | [], keys => some keys
  | on :: joinOns, keys =>
    if on.1.col.vertical ≠ J.lvert.verticalIndex then none
    else if on.2.col.vertical ≠ J.rvert.verticalIndex then none
    else if ¬on.1.col.column < J.leftColumns then none
    else if ¬on.2.col.column < J.rightColumns then none
    else pushKeyCols joinOns (keys.1 ++ [on.1.col.column], keys.2 ++ [on.2.col.column])

/-- `findPayloadMoment`; false is `none`. -/
def findPayloadMoment (col : ColumnSpec) : Option Payloads :=
  if col.vertical = J.leftVert ∧ col.column < J.leftColumns then
    some ⟨[col.column], [], some J.leftVert⟩
  else if col.vertical = J.rightVert ∧ col.column < J.rightColumns then
    some ⟨[], [col.column], some J.rightVert⟩
  else none

/-- What the loop over `scfg.peers` adds for one peer. -/
def addPeer (peers : PeerSet) (peer : StudyPeer) : Option PeerSet :=
  (if peer.isRecipient then peers.add (.recipient peer.organizationId) else some peers).bind
    fun peers ↦
  (if peer.isDealer then peers.add (.dealer peer.organizationId) else some peers).bind fun peers ↦
  if peer.isDataowner ∧ (J.leftVert = peer.verticalIdx ∨ J.rightVert = peer.verticalIdx) then
    peers.add (.dataowner ⟨peer.organizationId, peer.verticalIdx⟩)
  else some peers

/-! ## Setup -/

variable (R : NumberReader) (startModulus : Nat)

/-- `readCSV` for the vertical of a data owner. -/
def readOwn (id : Identity) (keys payloadCols : List Nat) (extraPrecisCol : Option Nat)
    (bitsOfPrecision : Nat) (csvFile : Option Text) : Option (Bool × List Observation) :=
  if h : id.vertical < J.lexicon.length then
    let query : CsvQuery :=
      { lexicon := J.lexicon
        vertical := id.vertical
        vertical_lt := h
        keyCols := keys
        payloadCols
        extraPrecisCol
        mod := startModulus
        bitsOfPrecision }
    query.readCSV R csvFile
  else none

/-- The intercept is put in front of the dependent variable. -/
def addIntercept (bitsOfPrecision : Nat) (o : Observation) : Option Observation :=
  o.arithmeticPayloadCols.getLast?.map fun dv ↦
    { o with arithmeticPayloadCols :=
        o.arithmeticPayloadCols.dropLast ++ [1 <<< bitsOfPrecision, dv] }

/-- `if (!readCSV(…)) return nullptr`, and what is done to the rows otherwise. -/
def ifRead (read : Option (Bool × List Observation))
    (setup : List Observation → Option (List Observation)) : Option (Option (List Observation)) :=
  read.bind fun result ↦ if result.1 then (setup result.2).map some else some none

/-- `setupRegression`. Without a dealer there is no `rinfo`, whose modulus is read. -/
def setupRegression (keys : List Nat) (payloads : Payloads) (fitIntercept : Bool)
    (bitsOfPrecision : Nat) (peers : PeerSet) (id : Identity) (csvFile : Option Text) :
    Option (Option (List Observation)) :=
  if peers.dealer = none then none
  else
    let payloadCols := if J.leftVert = id.vertical then payloads.left else payloads.right
    (if payloads.depVertical = some id.vertical then payloadCols.getLast?.map some
      else some none).bind fun extraPrecisCol ↦
    ifRead (J.readOwn R startModulus id keys payloadCols extraPrecisCol bitsOfPrecision csvFile)
      fun elements ↦
        if fitIntercept ∧ payloads.depVertical = some id.vertical then
          elements.mapM (addIntercept bitsOfPrecision)
        else some elements

/-- The powers of one observation. -/
def addPowers (isDataVertical : Bool) (moment : Nat) (o : Observation) : Option Observation :=
  (if isDataVertical then dataPayload moment o.arithmeticPayloadCols
    else some (resize (moment + 1) o.arithmeticPayloadCols)).map fun cols ↦
      { o with arithmeticPayloadCols := cols }

/-- `setupMoments`. -/
def setupMoments (keys : List Nat) (payloads : Payloads) (moment bitsOfPrecision : Nat)
    (peers : PeerSet) (id : Identity) (csvFile : Option Text) :
    Option (Option (List Observation)) :=
  if peers.dealer = none then none
  else
    let payloadCols := if J.leftVert = id.vertical then payloads.left else payloads.right
    ifRead (J.readOwn R startModulus id keys payloadCols none bitsOfPrecision csvFile)
      fun elements ↦ elements.mapM (addPowers (payloads.depVertical = some id.vertical) moment)

end JoinedVerticals

/-- `startup` of a data owner, with the modulus of the payloads. -/
def startup {QueryFilter : Type} (R : NumberReader) (startModulus : Nat) (scfg : StudyConfig)
    (q : Query QueryFilter) (id : Identity) (csvFile : Option Text) :
    Option (Option (List Observation)) :=
  q.joinStatement.bind fun join ↦
  (join.joined scfg.lexicon).bind fun J ↦
  match J.pushKeyCols join.joinOns ([], []) with
  | none => some none
  | some (leftKeys, rightKeys) =>
    (scfg.peers.foldlM J.addPeer PeerSet.empty).bind fun peers ↦
      if id ∉ peers.eachDataowner then some none
      else
        let keys := if id.vertical = J.leftVert then leftKeys else rightKeys
        match q.function with
        | .linRegression func fitIntercept bitsOfPrecision =>
          match J.findPayloadRegression func with
          | (false, _) => some none
          | (true, payloads) =>
            J.setupRegression R startModulus keys payloads fitIntercept bitsOfPrecision peers id
              csvFile
        | .moment func =>
          match J.findPayloadMoment func.col with
          | none => some none
          | some payloads =>
            J.setupMoments R startModulus keys payloads func.momentType func.bitsOfPrecision peers
              id csvFile
        | .order => some none

/-! ## The rows of a start -/

namespace JoinedVerticals

variable {J : JoinedVerticals} {R : NumberReader} {startModulus : Nat}

theorem forall₂_of_mapM {α β : Type} {f : α → Option β} {xs : List α} {ys : List β}
    (h : xs.mapM f = some ys) : List.Forall₂ (fun x y ↦ f x = some y) xs ys := by
  induction xs generalizing ys with
  | nil =>
    obtain rfl := Option.some.inj h
    exact .nil
  | cons x xs ih =>
    rw [List.mapM_cons] at h
    obtain ⟨y, hy, h⟩ := Option.bind_eq_some_iff.mp h
    obtain ⟨ys', hys, h⟩ := Option.bind_eq_some_iff.mp h
    obtain rfl := Option.some.inj h
    exact .cons hy (ih hys)

/-- What is done to the payload of rows that have been read leaves their keys. -/
def KeepsKeys (elements list : List Observation) : Prop :=
  List.Forall₂ (fun o o' ↦ o'.keyCols = o.keyCols) elements list

theorem keepsKeys_refl (elements : List Observation) : KeepsKeys elements elements :=
  List.forall₂_same.mpr fun _ _ ↦ rfl

theorem keepsKeys_addIntercept {bitsOfPrecision : Nat} {elements list : List Observation}
    (h : elements.mapM (addIntercept bitsOfPrecision) = some list) : KeepsKeys elements list := by
  apply (forall₂_of_mapM h).imp
  intro o o' ho
  obtain ⟨dv, -, rfl⟩ := Option.map_eq_some_iff.mp ho
  rfl

theorem keepsKeys_addPowers {isDataVertical : Bool} {moment : Nat}
    {elements list : List Observation}
    (h : elements.mapM (addPowers isDataVertical moment) = some list) :
    KeepsKeys elements list := by
  apply (forall₂_of_mapM h).imp
  intro o o' ho
  obtain ⟨cols, -, rfl⟩ := Option.map_eq_some_iff.mp ho
  rfl

/-- The rows of a regression or of the moments are those of the table. -/
def Reads (J : JoinedVerticals) (R : NumberReader) (startModulus : Nat) (keys : List Nat)
    (id : Identity) (csvFile : Option Text) (list : List Observation) : Prop :=
  ∃ payloadCols extraPrecisCol bitsOfPrecision elements,
    J.readOwn R startModulus id keys payloadCols extraPrecisCol bitsOfPrecision csvFile =
      some (true, elements) ∧ KeepsKeys elements list

theorem ifRead_eq_some {read : Option (Bool × List Observation)}
    {setup : List Observation → Option (List Observation)} {list : List Observation}
    (h : ifRead read setup = some (some list)) :
    ∃ elements, read = some (true, elements) ∧ setup elements = some list := by
  obtain ⟨⟨result, elements⟩, hread, h⟩ := Option.bind_eq_some_iff.mp h
  cases result with
  | false => simp at h
  | true =>
    obtain ⟨list', hlist, hsome⟩ := Option.map_eq_some_iff.mp h
    obtain rfl := Option.some.inj hsome
    exact ⟨elements, hread, hlist⟩

theorem setupRegression_reads {keys : List Nat} {payloads : Payloads} {fitIntercept : Bool}
    {bitsOfPrecision : Nat} {peers : PeerSet} {id : Identity} {csvFile : Option Text}
    {list : List Observation}
    (h : J.setupRegression R startModulus keys payloads fitIntercept bitsOfPrecision peers id
      csvFile = some (some list)) : J.Reads R startModulus keys id csvFile list := by
  rw [setupRegression] at h
  split at h
  · contradiction
  · obtain ⟨extraPrecisCol, -, h⟩ := Option.bind_eq_some_iff.mp h
    obtain ⟨elements, hread, hlist⟩ := ifRead_eq_some h
    refine ⟨_, _, _, elements, hread, ?_⟩
    split at hlist
    · exact keepsKeys_addIntercept hlist
    · obtain rfl := Option.some.inj hlist
      exact keepsKeys_refl elements

theorem setupMoments_reads {keys : List Nat} {payloads : Payloads} {moment bitsOfPrecision : Nat}
    {peers : PeerSet} {id : Identity} {csvFile : Option Text} {list : List Observation}
    (h : J.setupMoments R startModulus keys payloads moment bitsOfPrecision peers id csvFile =
      some (some list)) : J.Reads R startModulus keys id csvFile list := by
  rw [setupMoments] at h
  split at h
  · contradiction
  · obtain ⟨elements, hread, hlist⟩ := ifRead_eq_some h
    exact ⟨_, _, _, elements, hread, keepsKeys_addPowers hlist⟩

/-- All data owners belong to one of the two verticals. -/
def Joined (J : JoinedVerticals) (peers : PeerSet) : Prop :=
  ∀ x ∈ peers.eachDataowner, x.vertical = J.leftVert ∨ x.vertical = J.rightVert

private theorem joined_of_add {peers peers' : PeerSet} {peer : Peer}
    (h : peers.add peer = some peers') (hpeers : J.Joined peers)
    (hpeer : ∀ x, peer = .dataowner x → x.vertical = J.leftVert ∨ x.vertical = J.rightVert) :
    J.Joined peers' := by
  cases peer with
  | dealer orgId =>
    rw [PeerSet.add] at h
    split at h
    · contradiction
    · obtain rfl := Option.some.inj h
      exact hpeers
  | recipient orgId =>
    obtain rfl := Option.some.inj h
    exact hpeers
  | dataowner identity =>
    obtain rfl := Option.some.inj h
    intro x hx
    rcases mem_addDataowner.mp hx with rfl | hx
    · exact hpeer x rfl
    · exact hpeers x hx

theorem joined_of_addPeer {peers peers' : PeerSet} {peer : StudyPeer}
    (h : J.addPeer peers peer = some peers') (hpeers : J.Joined peers) : J.Joined peers' := by
  rw [addPeer] at h
  obtain ⟨peers₁, h₁, h⟩ := Option.bind_eq_some_iff.mp h
  obtain ⟨peers₂, h₂, h⟩ := Option.bind_eq_some_iff.mp h
  have hpeers₁ : J.Joined peers₁ := by
    split at h₁
    · exact joined_of_add h₁ hpeers (by simp)
    · obtain rfl := Option.some.inj h₁
      exact hpeers
  have hpeers₂ : J.Joined peers₂ := by
    split at h₂
    · exact joined_of_add h₂ hpeers₁ (by simp)
    · obtain rfl := Option.some.inj h₂
      exact hpeers₁
  split at h
  · next hvertical =>
    apply joined_of_add h hpeers₂
    rintro x ⟨⟩
    exact hvertical.2.imp Eq.symm Eq.symm
  · obtain rfl := Option.some.inj h
    exact hpeers₂

/-- The loop over the peers of the study. -/
theorem joined_of_foldlM {studyPeers : List StudyPeer} {peers peers' : PeerSet}
    (h : studyPeers.foldlM J.addPeer peers = some peers') (hpeers : J.Joined peers) :
    J.Joined peers' := by
  induction studyPeers generalizing peers with
  | nil =>
    obtain rfl := Option.some.inj h
    exact hpeers
  | cons peer studyPeers ih =>
    rw [List.foldlM_cons] at h
    obtain ⟨peers₁, h₁, h⟩ := Option.bind_eq_some_iff.mp h
    exact ih h (joined_of_addPeer h₁ hpeers)

end JoinedVerticals

/-- What a start that succeeds has done. -/
theorem startup_reads {QueryFilter : Type} {R : NumberReader} {startModulus : Nat}
    {scfg : StudyConfig} {q : Query QueryFilter} {join : JoinStatement} {J : JoinedVerticals}
    (hjoin : q.joinStatement = some join) (hJ : join.joined scfg.lexicon = some J) {id : Identity}
    {csvFile : Option Text} {list : List Observation}
    (h : startup R startModulus scfg q id csvFile = some (some list)) :
    ∃ leftKeys rightKeys, J.pushKeyCols join.joinOns ([], []) = some (leftKeys, rightKeys) ∧
      (id.vertical = J.leftVert ∨ id.vertical = J.rightVert) ∧
        J.Reads R startModulus (if id.vertical = J.leftVert then leftKeys else rightKeys) id
          csvFile list := by
  rw [startup, hjoin, Option.bind_some, hJ, Option.bind_some] at h
  split at h
  · simp at h
  · next leftKeys rightKeys hkeys =>
    obtain ⟨peers, hpeers, h⟩ := Option.bind_eq_some_iff.mp h
    split at h
    · simp at h
    · next hid =>
      have hjoined : J.Joined peers := JoinedVerticals.joined_of_foldlM hpeers fun x hx ↦ by
        simp [PeerSet.eachDataowner, PeerSet.empty] at hx
      refine ⟨leftKeys, rightKeys, hkeys, hjoined id (not_not.mp hid), ?_⟩
      simp only at h
      split at h
      · split at h
        · simp at h
        · exact JoinedVerticals.setupRegression_reads h
      · split at h
        · simp at h
        · exact JoinedVerticals.setupMoments_reads h
      · simp at h

end Safrn.Setup

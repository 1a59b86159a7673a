import Helix.Domain.Confidentiality
import Helix.Library.Effect

/-!
# Checking the federated brokers

The checker compares every value at a federated broker with the one that the main broker lists last for the
same attribute of the same entity. The comparison is Python's `==`, for which `True` is `1`, while the
record stores a fingerprint of the canonical text, which tells the two apart. So the verdict and the
fingerprint agree if and only if equal values are of one type throughout
(`IntegrityChecker.check_reports_iff`).
-/

namespace Helix

/-- One observed attribute value of an entity at a broker. -/
structure EntityObservation (F : Type) where
  entityId : PyStr
  attributeName : PyStr
  value : Value F
  broker : PyStr
  wf : value.Wf

/-- What the brokers hold; the main broker is asked without a name. -/
structure OrionGateway (F : Type) where
  federatedBrokers : List PyStr
  observations : Option PyStr → List (EntityObservation F)

/-- `IntegrityChecker`. -/
structure IntegrityChecker (F : Type) where
  gateway : OrionGateway F
  nowMs : ℤ
  conf : Confidentiality := {}

namespace IntegrityChecker

variable {F : Type}

/-- `main_index`. -/
def mainIndex (c : IntegrityChecker F) : Dict (PyStr × PyStr) (Value F) :=
  Dict.ofList ((c.gateway.observations none).map fun o => ((o.entityId, o.attributeName), o.value))

/-- The observations at the federated brokers, in the order in which they are checked. -/
def federated (c : IntegrityChecker F) : List (PyStr × EntityObservation F) :=
  c.gateway.federatedBrokers.flatMap fun broker =>
    (c.gateway.observations (some broker)).map fun obs => (broker, obs)

/-- The value that the main broker lists last for the observed attribute. -/
def lastListed (c : IntegrityChecker F) (obs : EntityObservation F) : Option (Value F) :=
  ((c.gateway.observations none).reverse.find? fun o =>
    o.entityId = obs.entityId && o.attributeName = obs.attributeName).map EntityObservation.value

lemma mainIndex_get? (c : IntegrityChecker F) (obs : EntityObservation F) :
    c.mainIndex.get? (obs.entityId, obs.attributeName) = c.lastListed obs := by
  have hkey : ((fun p : (PyStr × PyStr) × Value F => decide (p.1 = (obs.entityId, obs.attributeName))) ∘
      fun o : EntityObservation F => ((o.entityId, o.attributeName), o.value)) =
      fun o => o.entityId = obs.entityId && o.attributeName = obs.attributeName := by
    funext o
    simp [Prod.ext_iff]
  rw [mainIndex, Dict.get?_ofList, ← List.map_reverse, List.find?_map, Option.map_map, hkey, lastListed]
  rfl

/-- The last-listed value is one that the main broker lists. -/
lemma exists_of_lastListed {c : IntegrityChecker F} {obs : EntityObservation F} {v : Value F}
    (h : c.lastListed obs = some v) : ∃ o ∈ c.gateway.observations none, o.value = v := by
  obtain ⟨o, ho, rfl⟩ := Option.map_eq_some_iff.mp h
  exact ⟨o, List.mem_reverse.mp (List.mem_of_find?_eq_some ho), rfl⟩

variable [PyFloat F] [Crypto]

omit [Crypto] in
/-- The verdict on one observation. -/
def verdict (c : IntegrityChecker F) (obs : EntityObservation F) : Verdict :=
  match c.mainIndex.get? (obs.entityId, obs.attributeName) with
  | some expected => if expected.eq obs.value then .OK else .TAMPERED
  | none => .TAMPERED

/-- The record of one observation: the body of the loop of `check`. -/
def record (c : IntegrityChecker F) (broker : PyStr) (obs : EntityObservation F) :
    Except PyError IntegrityRecord := do
  let entityId ← c.conf.entityRef obs.entityId
  let valueHash ← c.conf.commitValue obs.value
  return { entityId, attributeName := obs.attributeName, valueHash, sourceBroker := broker,
           verdict := c.verdict obs, observedAt := c.nowMs }

/-- `check`. -/
def check (c : IntegrityChecker F) : Except PyError (List IntegrityRecord) :=
  (c.gateway.federatedBrokers.mapM fun broker =>
    (c.gateway.observations (some broker)).mapM fun obs => c.record broker obs).map List.flatten

lemma check_eq (c : IntegrityChecker F) : c.check = c.federated.mapM fun p => c.record p.1 p.2 := by
  rw [federated, ← mapM_flatMap, check]
  simp only [List.mapM_map]
  rfl

/-! ### One observation -/

/-- The strings that go into the record can be encoded. -/
def Storable (c : IntegrityChecker F) (obs : EntityObservation F) : Prop :=
  (c.conf.pseudonymizes = true → ∃ b, encode obs.entityId = .ok b) ∧
    ∀ s, obs.value.Mentions s → ∃ b, encode s = .ok b

/-- The record tells of the observation, and its verdict is OK if and only if the value that the main broker
lists last has the stored fingerprint. -/
structure Reports (c : IntegrityChecker F) (p : PyStr × EntityObservation F) (r : IntegrityRecord) :
    Prop where
  entityId : c.conf.entityRef p.2.entityId = .ok r.entityId
  attributeName : r.attributeName = p.2.attributeName
  valueHash : c.conf.commitValue p.2.value = .ok r.valueHash
  sourceBroker : r.sourceBroker = p.1
  observedAt : r.observedAt = c.nowMs
  ok_iff : r.verdict = .OK ↔
    ∃ v, c.lastListed p.2 = some v ∧ c.conf.commitValue v = .ok r.valueHash
  tampered : r.verdict ≠ .OK → r.verdict = .TAMPERED

variable {c : IntegrityChecker F} {broker : PyStr} {obs : EntityObservation F} {r : IntegrityRecord}

lemma record_eq_ok_iff : c.record broker obs = .ok r ↔
    ∃ entityId valueHash, c.conf.entityRef obs.entityId = .ok entityId ∧
      c.conf.commitValue obs.value = .ok valueHash ∧
      r = { entityId, attributeName := obs.attributeName, valueHash, sourceBroker := broker,
            verdict := c.verdict obs, observedAt := c.nowMs } := by
  unfold record
  cases c.conf.entityRef obs.entityId with
  | error e => simp [bind, Except.bind]
  | ok entityId =>
    cases c.conf.commitValue obs.value with
    | error e => simp [bind, Except.bind]
    | ok valueHash => simp [bind, Except.bind, pure, Except.pure, eq_comm]

/-- An observation has a record if and only if its strings can be encoded. -/
lemma exists_record_iff : (∃ r, c.record broker obs = .ok r) ↔ c.Storable obs := by
  have hcommit : (∃ hash, c.conf.commitValue obs.value = .ok hash) ↔
      ∀ s, obs.value.Mentions s → ∃ b, encode s = .ok b := Confidentiality.exists_commitValue_iff
  rw [Storable, ← Confidentiality.exists_entityRef_iff, ← hcommit]
  simp only [record_eq_ok_iff]
  constructor
  · rintro ⟨r, entityId, valueHash, hentity, hvalue, -⟩
    exact ⟨⟨entityId, hentity⟩, valueHash, hvalue⟩
  · rintro ⟨⟨entityId, hentity⟩, valueHash, hvalue⟩
    exact ⟨_, entityId, valueHash, hentity, hvalue, rfl⟩

omit [Crypto] in
lemma verdict_eq_ok_iff :
    c.verdict obs = .OK ↔ ∃ v, c.lastListed obs = some v ∧ v.eq obs.value = true := by
  unfold verdict
  rw [mainIndex_get?]
  cases c.lastListed obs with
  | none => simp
  | some v => simp

omit [Crypto] in
lemma verdict_eq_tampered (h : c.verdict obs ≠ .OK) : c.verdict obs = .TAMPERED := by
  unfold verdict at h ⊢
  split at h
  · split_ifs at h ⊢ with heq
    · exact absurd rfl h
    · rfl
  · rfl

/-- The strings hashed for the values at all brokers. -/
def hashInputs (c : IntegrityChecker F) : List Bytes :=
  (c.gateway.observations none ++ c.federated.map Prod.snd).flatMap fun o => c.conf.hashInputs o.value

lemma noCollision_of_mem (hno : NoCollision c.hashInputs) {o o' : EntityObservation F}
    (ho : o ∈ c.gateway.observations none) (ho' : o' ∈ c.federated.map Prod.snd) :
    NoCollision (c.conf.hashInputs o.value ++ c.conf.hashInputs o'.value) := by
  refine hno.mono (List.append_subset.mpr ⟨fun x hx => ?_, fun x hx => ?_⟩)
  · exact List.mem_flatMap.mpr ⟨o, List.mem_append_left _ ho, hx⟩
  · exact List.mem_flatMap.mpr ⟨o', List.mem_append_right _ ho', hx⟩

variable [DecidableEq F]

/-- The value that the main broker lists last is of one type with the federated one, if they are equal. -/
def Alike (c : IntegrityChecker F) (obs : EntityObservation F) : Prop :=
  ∀ v, c.lastListed obs = some v → v.eq obs.value = true → v.alike obs.value = true

/-- The record of an observation reports it if and only if equal values are of one type. -/
lemma reports_iff (hno : NoCollision c.hashInputs) {p : PyStr × EntityObservation F}
    (hp : p ∈ c.federated) (hr : c.record p.1 p.2 = .ok r) : c.Reports p r ↔ c.Alike p.2 := by
  obtain ⟨entityId, valueHash, hentity, hvalue, rfl⟩ := record_eq_ok_iff.mp hr
  have hcommit : ∀ v, c.lastListed p.2 = some v →
      (c.conf.commitValue v = .ok valueHash ↔ v.eq p.2.value = true ∧ v.alike p.2.value = true) := by
    intro v hv
    obtain ⟨o, ho, rfl⟩ := exists_of_lastListed hv
    rw [Confidentiality.commitValue_iff (noCollision_of_mem hno ho (List.mem_map_of_mem hp)) hvalue]
    exact Value.dumps_eq_iff o.wf p.2.wf
  constructor
  · intro h v hv heq
    obtain ⟨v', hv', hhash⟩ := h.ok_iff.mp (verdict_eq_ok_iff.mpr ⟨v, hv, heq⟩)
    rw [hv] at hv'
    cases hv'
    exact ((hcommit v hv).mp hhash).2
  · intro h
    refine ⟨hentity, rfl, hvalue, rfl, rfl, ?_, verdict_eq_tampered⟩
    rw [verdict_eq_ok_iff]
    constructor
    · rintro ⟨v, hv, heq⟩
      exact ⟨v, hv, (hcommit v hv).mpr ⟨heq, h v hv heq⟩⟩
    · rintro ⟨v, hv, hhash⟩
      exact ⟨v, hv, ((hcommit v hv).mp hhash).1⟩

/-! ### All observations -/

/-- Without hash collisions: the check gives one record for each federated observation, in order, with a
verdict that agrees with the fingerprint, if and only if all the strings can be encoded and the values that
are equal to those at the main broker are of one type with them. -/
theorem check_reports_iff (hno : NoCollision c.hashInputs) :
    (∃ records, c.check = .ok records ∧ List.Forall₂ c.Reports c.federated records) ↔
      ∀ p ∈ c.federated, c.Storable p.2 ∧ c.Alike p.2 := by
  rw [check_eq]
  constructor
  · rintro ⟨records, hrecords, hreports⟩ p hp
    obtain ⟨r, hr⟩ := exists_of_mapM_ok hrecords hp
    have hreport := (forall₂_iff_of_mapM hrecords).mp hreports p hp r hr
    exact ⟨exists_record_iff.mp ⟨r, hr⟩, (reports_iff hno hp hr).mp hreport⟩
  · intro h
    obtain ⟨records, hrecords⟩ := exists_mapM fun p hp => exists_record_iff.mpr (h p hp).1
    refine ⟨records, hrecords, (forall₂_iff_of_mapM hrecords).mpr fun p hp r hr => ?_⟩
    exact (reports_iff hno hp hr).mpr (h p hp).2

omit [PyFloat F] [Crypto] [DecidableEq F] in
/-- The checker of a main broker with one observation and two federated ones with one each. -/
def ofValues (main fedA fedB : {v : Value F // v.Wf}) : IntegrityChecker F where
  gateway := {
    federatedBrokers := [str "fed-a", str "fed-b"]
    observations := fun broker =>
      if broker = some (str "fed-a") then [⟨str "S:1", str "alarm", fedA, str "fed-a", fedA.2⟩]
      else if broker = some (str "fed-b") then [⟨str "S:1", str "alarm", fedB, str "fed-b", fedB.2⟩]
      else [⟨str "S:1", str "alarm", main, str "main", main.2⟩] }
  nowMs := 1000
  conf := .init (some [7]) false

/-- An alarm that is on, and off at the second federated broker. -/
def switched : IntegrityChecker ZeroFloat :=
  ofValues ⟨.bool true, .bool true⟩ ⟨.bool true, .bool true⟩ ⟨.bool false, .bool false⟩

omit [PyFloat F] [Crypto] [DecidableEq F] in
theorem check_reports_iff_of_booleans :
    letI := Crypto.checksums
    NoCollision switched.hashInputs ∧ ∃ records, switched.check = .ok records ∧
      List.Forall₂ switched.Reports switched.federated records := by
  let := Crypto.checksums
  have hno : NoCollision switched.hashInputs := by decide +kernel
  refine ⟨hno, (check_reports_iff hno).mpr fun p hp => ?_⟩
  have hfederated : p.2.value = .bool true ∨ p.2.value = .bool false := by
    rcases List.mem_pair.mp (show p ∈ [_, _] from hp) with rfl | rfl
    · exact .inl rfl
    · exact .inr rfl
  refine ⟨⟨fun h => ?_, fun s hs => ?_⟩, fun v hv heq => ?_⟩
  · cases h
  · rcases hfederated with h | h <;> rw [h] at hs <;> cases hs
  · obtain ⟨o, ho, rfl⟩ := exists_of_lastListed hv
    rw [List.mem_singleton.mp ho]
    rcases hfederated with h | h <;> rw [h] <;> rfl

/-- The main broker holds `True`; one federated broker holds the number 1 instead. -/
def mistyped : IntegrityChecker ZeroFloat :=
  ofValues ⟨.bool true, .bool true⟩ ⟨.int 1, .int 1⟩ ⟨.bool true, .bool true⟩

omit [PyFloat F] [Crypto] [DecidableEq F] in
/-- The altered value passes as OK, with a fingerprint that is not the one of the main broker's value. -/
theorem mistyped_passes :
    letI := Crypto.checksums
    NoCollision mistyped.hashInputs ∧ ¬ ∃ records, mistyped.check = .ok records ∧
      List.Forall₂ mistyped.Reports mistyped.federated records := by
  let := Crypto.checksums
  refine ⟨by decide +kernel, ?_⟩
  rintro ⟨records, hrecords, hreports⟩
  rw [check_eq] at hrecords
  have hfirst := (forall₂_iff_of_mapM hrecords).mp hreports _ List.mem_cons_self
  obtain ⟨r, hr⟩ := exists_of_mapM_ok hrecords List.mem_cons_self
  have hreport := hfirst r hr
  obtain ⟨v, hv, hhash⟩ := hreport.ok_iff.mp (by
    obtain ⟨_, _, _, _, rfl⟩ := record_eq_ok_iff.mp hr
    rfl)
  cases hv
  have hne : mistyped.conf.commitValue (.bool true : Value ZeroFloat) ≠
      mistyped.conf.commitValue (.int 1 : Value ZeroFloat) := by decide +kernel
  exact hne (hhash.trans hreport.valueHash.symm)

end IntegrityChecker

end Helix

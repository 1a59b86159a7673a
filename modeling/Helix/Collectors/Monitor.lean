import Helix.Collectors.Deduper
import Helix.Consensus.Canonical
import Helix.Node.Admission

/-!
# The monitor and the node

One turn of the monitor checks the brokers, passes the records through the deduper and hands what is left to
the node, which signs it and takes it in if the node itself is in the active set then. The deduper has marked
it as seen by that time. So a report that the node drops comes through the deduper no more, and nothing is
lost if the node is a validator whenever something new is handed over (`Monitor.checked_is_recorded`).
-/

namespace Helix

variable [Crypto] [Columns]

open Relation (ReflTransGen)

/-! ### What was seen is kept -/

namespace Node

/-- Every content key that the node has seen is pending or stored. -/
def SeenKept (n : Node) : Prop := ∀ key ∈ n.mempoolSeen, n.Keeps key

variable {o : Operation} {n₁ n n' : Node}

omit [Columns] in
lemma SeenKept.filtered {block : Block} {keys : List PyStr} {pending : List IntegrityRecord}
    (hkeys : block.records.mapM IntegrityRecord.contentKey = .ok keys)
    (hpending : (n.pending.filterM fun r => r.contentKey.map fun key => key ∉ keys) = .ok pending)
    (hrepo : n'.repo = n.repo ++ [block]) (hqueue : n'.pending = pending)
    (hseen : n'.mempoolSeen = n.mempoolSeen ∪ keys) (h : n.SeenKept) : n'.SeenKept := by
  intro key hkey
  rw [hseen, List.mem_union_iff] at hkey
  rcases hkey with hkey | hkey
  · exact (h key hkey).filtered hkeys hpending hrepo hqueue
  · obtain ⟨r, hr, hrkey⟩ := exists_of_mem_mapM hkeys hkey
    exact .inr ⟨block, hrepo ▸ List.mem_append_right _ List.mem_cons_self, r, hr, hrkey⟩

lemma SeenKept.append {block : Block} {result : Except PyError Unit}
    (happend : n.Appends block result n') (h : n.SeenKept) : n'.SeenKept := by
  cases happend with
  | refused => exact h
  | stored hrepo hkey => exact fun key hkey' => (h key hkey').append (.stored hrepo hkey)
  | forgotten hrepo hkeys hpending =>
    exact h.filtered hkeys hpending (Repository.append_eq_ok hrepo).1 rfl rfl
  | advanced hrepo hkeys hpending =>
    exact h.filtered hkeys hpending (Repository.append_eq_ok hrepo).1 rfl rfl

lemma SeenKept.event (hevent : NodeEvent o n₁ n n') (h : n.SeenKept) : n'.SeenKept := by
  cases hevent with
  | move hmove hrepo hpending hseen =>
    intro key hkey
    rw [hseen] at hkey
    rw [Keeps, hrepo, hpending]
    exact h key hkey
  | announce happend =>
    have hkept := h.append happend
    exact hkept
  | sync _ _ _ happend => exact h.append happend
  | fail happend => exact h.append happend
  | enqueue hbatch hauthentic hfresh hkeys =>
    intro key hkey
    rcases List.mem_union_iff.mp hkey with hkey | hkey
    · exact (h key hkey).event (.enqueue hbatch hauthentic hfresh hkeys)
    · obtain ⟨r, hr, hrkey⟩ := exists_of_mem_mapM hkeys hkey
      exact .inl ⟨r, List.mem_append_right _ hr, hrkey⟩

lemma SeenKept.run (h : n.SeenKept) (o : Operation) (passes : ℕ) : (o.run passes n).SeenKept :=
  Operation.run_keeps_events (P := SeenKept) (fun _ _ hevent h => h.event hevent) passes h

lemma SeenKept.init {privateKey : PrivateKey} {validators : ValidatorSet} {blocks : List Block}
    {journalStore : JournalStore} {nowMs : ℕ → ℤ}
    (h : Node.init privateKey validators blocks journalStore nowMs = .ok n) : n.SeenKept := by
  obtain ⟨repo, active, engine, -, -, -, rfl⟩ := Node.init_eq_ok h
  intro key hkey
  cases hkey

lemma Keeps.run {key : PyStr} (h : n.Keeps key) (o : Operation) (passes : ℕ) :
    (o.run passes n).Keeps key :=
  Operation.run_keeps_events (P := fun n => n.Keeps key) (fun _ _ hevent h => h.event hevent) passes h

end Node

/-! ### What a validator submits is taken in -/

omit [Columns] in
/-- A record that has a key for the deduper can be signed. -/
lemma IntegrityRecord.exists_signingBytes {r : IntegrityRecord} {k : PyStr}
    (h : RecordDeduper.key r = .ok k) : ∃ x, r.signingBytes = .ok x := by
  obtain ⟨b, hb, -⟩ := exists_of_map_eq_ok h
  obtain ⟨⟨x, hx⟩, -⟩ := exists_canonical_iff.mp ⟨b, hb⟩
  refine (Json.exists_encode_dumpsDict_iff fun p hp => exists_encode_of_mem_core hp).mpr fun key s hs => ?_
  refine (Json.exists_encode_dumpsDict_iff fun p hp => exists_encode_of_mem_core hp).mp ⟨x, hx⟩ key s ?_
  simpa [core, untimed] using hs

omit [Columns] in
lemma IntegrityRecord.exists_signed {r : IntegrityRecord} {x : Bytes} (h : r.signingBytes = .ok x)
    (privateKey : PrivateKey) : ∃ r', r.signed privateKey = .ok r' := by
  rw [signed, h]
  exact ⟨_, rfl⟩

omit [Columns] in
/-- A signature is made for the observation and by the key that the record then names. -/
lemma IntegrityRecord.signedBy_signed (hsign : ∀ (k : PrivateKey) message, Crypto.sign k message ≠ [])
    {r r' : IntegrityRecord} {privateKey : PrivateKey} (h : r.signed privateKey = .ok r') :
    r'.SignedBy privateKey.publicKey ∧ r'.contentKey = r.contentKey := by
  obtain ⟨x, hx, rfl⟩ := exists_of_map_eq_ok h
  have hsigning : ∀ observer signature, { r with observer, signature }.signingBytes = .ok x :=
    fun _ _ => hx
  refine ⟨⟨PublicKey.fromHex_toHex _, ?_, privateKey.sign x, x, fromHex_toHex _, hsigning _ _,
    PrivateKey.verify_sign _ _⟩, ?_⟩
  · rintro (hnil | hnil)
    · have hraw : privateKey.publicKey.raw = [] := toHex_injective hnil
      have hlength := privateKey.publicKey.length_raw
      rw [hraw] at hlength
      cases hlength
    · exact hsign privateKey x (toHex_injective hnil)
  · rw [contentKey, hsigning, contentKey, hx]

omit [Columns] in
lemma IntegrityRecord.SignedBy.checkable {r : IntegrityRecord} {key : PublicKey} (h : r.SignedBy key)
    (V : ValidatorSet) : r.Checkable V := by
  obtain ⟨bytes, message, hbytes, hmessage, -⟩ := h.signature
  exact fun _ _ _ _ => ⟨⟨bytes, hbytes⟩, message, hmessage⟩

namespace Node

/-- After a submission by a validator all its records are seen. -/
lemma seen_submitRecords (hsign : ∀ (k : PrivateKey) message, Crypto.sign k message ≠ []) {n : Node}
    (hmem : n.me ∈ n.active.validators) {records : List IntegrityRecord}
    (hrecords : ∀ r ∈ records, ∃ x, r.signingBytes = .ok x) (passes : ℕ) {r : IntegrityRecord}
    (hr : r ∈ records) : ∃ key, r.contentKey = .ok key ∧
      key ∈ ((Operation.submitRecords records).run passes n).mempoolSeen := by
  obtain ⟨batch, hbatch⟩ := exists_mapM fun r hr => by
    obtain ⟨x, hx⟩ := hrecords r hr
    exact IntegrityRecord.exists_signed hx n.privateKey
  have hsigned : ∀ r ∈ batch, r.SignedBy n.me := by
    intro r hr
    obtain ⟨r', -, hr'⟩ := exists_of_mem_mapM hbatch hr
    exact (IntegrityRecord.signedBy_signed hsign hr').1
  obtain ⟨authentic, fresh, keys, hauthentic, hfresh, hkeys⟩ :=
    exists_fresh fun r hr => (hsigned r hr).checkable n.active
  obtain ⟨r', hr'⟩ := exists_of_mapM_ok hbatch hr
  obtain ⟨hr'signed, hkey'⟩ := IntegrityRecord.signedBy_signed hsign hr'
  obtain ⟨x, hx⟩ := hrecords r hr
  have hkey : r.contentKey = .ok (sha256Hex x) := by rw [IntegrityRecord.contentKey, hx]; rfl
  refine ⟨sha256Hex x, hkey, ?_⟩
  by_cases hseen : sha256Hex x ∈ n.mempoolSeen
  · exact seen_subset_run _ passes n hseen
  · have hfresh' : r' ∈ fresh := by
      refine (mem_fresh hauthentic hfresh).mpr ⟨mem_of_mapM hbatch hr hr', ?_, sha256Hex x, ?_, hseen⟩
      · exact IntegrityRecord.verify_eq_ok.mpr ⟨n.me, hr'signed, hmem⟩
      · rw [hkey', hkey]
    have hstate : (Operation.submitRecords records).run passes n = Operation.tick.run passes
        { n.admitting fresh keys with outbox := n.outbox ++ [.records fresh] } := by
      refine congrArg Prod.snd ?_
      change NodeM.submitRecords passes records n = NodeM.tick passes _
      unfold NodeM.submitRecords NodeM.ingestRecords
      rw [Eff.bind_apply_ok (Eff.get_apply n), Eff.lift_bind_ok hbatch,
        Eff.bind_apply_ok (Eff.get_apply n), Eff.lift_bind_ok hauthentic, Eff.lift_bind_ok hfresh,
        if_neg (List.ne_nil_of_mem hfresh'), Eff.lift_bind_ok hkeys,
        Eff.bind_apply_ok (Eff.modify_apply _ n)]
      rfl
    rw [hstate]
    refine seen_subset_run .tick passes _ (List.mem_union_iff.mpr (.inr ?_))
    exact mem_of_mapM hkeys hfresh' (hkey'.trans hkey)

/-- The node after methods that others call, each with its number of passes. -/
def plays (n : Node) (os : List (Operation × ℕ)) : Node := os.foldl (fun n o => o.1.run o.2 n) n

/-- The records that wait or are stored. -/
def records (n : Node) : List IntegrityRecord := n.pending ++ n.repo.flatMap (·.records)

/-- A record with the same content, apart from the time, waits or is stored. -/
def Recorded (n : Node) (r : IntegrityRecord) : Prop := ∃ r' ∈ n.records, r'.untimed = r.untimed

instance (n : Node) (r : IntegrityRecord) : Decidable (n.Recorded r) :=
  inferInstanceAs (Decidable (∃ r' ∈ n.records, r'.untimed = r.untimed))

variable {n : Node}

lemma SeenKept.plays (h : n.SeenKept) (os : List (Operation × ℕ)) : (n.plays os).SeenKept := by
  induction os generalizing n with
  | nil => exact h
  | cons o os ih => exact ih (h.run o.1 o.2)

lemma Keeps.plays {key : PyStr} (h : n.Keeps key) (os : List (Operation × ℕ)) :
    (n.plays os).Keeps key := by
  induction os generalizing n with
  | nil => exact h
  | cons o os ih => exact ih (h.run o.1 o.2)

end Node

/-! ### The monitor -/

/-- What `monitor_loop` works on. -/
structure Monitor where
  node : Node
  deduper : RecordDeduper := {}

/-- One turn of the loop: what the check returns, and the methods that run while the submission and the tick
wait for the node. -/
structure Check where
  records : List IntegrityRecord
  before : List (Operation × ℕ) := []
  later : List (Operation × ℕ) := []
  passes : ℕ

namespace Monitor

/-- Work on the node. -/
def onNode {α : Type} (x : NodeM α) : Eff Monitor PyError α := fun m =>
  ((x m.node).1, { m with node := (x m.node).2 })

/-- Work on the deduper. -/
def onDeduper {α : Type} (x : Eff RecordDeduper PyError α) : Eff Monitor PyError α := fun m =>
  ((x m.deduper).1, { m with deduper := (x m.deduper).2 })

/-- What others do meanwhile. -/
def meanwhile (os : List (Operation × ℕ)) : Eff Monitor PyError Unit :=
  Eff.modify fun m => { m with node := m.node.plays os }

/-- `run_check`, after the check itself. -/
def runCheck (c : Check) : Eff Monitor PyError Unit := do
  let fresh ← onDeduper (RecordDeduper.filterNew c.records)
  meanwhile c.before
  if fresh ≠ [] then onNode (NodeM.submitRecords c.passes fresh)
  meanwhile c.later
  onNode (NodeM.tick c.passes)

/-- What can happen: a method of the node, or a turn of the monitor. -/
inductive Event where
  | method (o : Operation) (passes : ℕ)
  | check (c : Check)

/-- The next state. The loop goes on after an exception. -/
def step (m : Monitor) : Event → Monitor
  | .method o passes => { m with node := o.run passes m.node }
  | .check c => (runCheck c m).2

/-- The records can be encoded, and if the deduper lets any through, the node is in its active set when they
are handed over. -/
structure Regular (m : Monitor) (c : Check) : Prop where
  keyed : ∀ r ∈ c.records, ∃ k, RecordDeduper.key r = .ok k
  validator : ∀ fresh, (RecordDeduper.filterNew c.records m.deduper).1 = .ok fresh → fresh ≠ [] →
    (m.node.plays c.before).me ∈ (m.node.plays c.before).active.validators

end Monitor

/-- The texts of a record that are hashed, with the time and without. -/
def IntegrityRecord.hashInputs (r : IntegrityRecord) : List Bytes :=
  r.signingBytes.toOption.toList ++ r.untimed.canonical.toOption.toList

namespace Monitor

/-- One step of a run in which all turns are regular and hash the given texts only. -/
def Steps (texts : List Bytes) (m m' : Monitor) : Prop :=
  ∃ e, m' = m.step e ∧ ∀ c, e = .check c → m.Regular c ∧ ∀ r ∈ c.records, r.hashInputs ⊆ texts

/-- Such a run. -/
def Runs (texts : List Bytes) : Monitor → Monitor → Prop := ReflTransGen (Steps texts)

open RecordDeduper (key filterNew Sifted)

/-- What a turn does with a batch that goes through the deduper. -/
lemma runCheck_eq {m : Monitor} {c : Check} {fresh : List IntegrityRecord} {d : RecordDeduper}
    (hrun : filterNew c.records m.deduper = (.ok fresh, d)) :
    (m.step (.check c)).deduper = d ∧ ∃ n, n = (if fresh = [] then m.node.plays c.before
        else (Operation.submitRecords fresh).run c.passes (m.node.plays c.before)) ∧
      ((m.step (.check c)).node = n ∨
        (m.step (.check c)).node = Operation.tick.run c.passes (n.plays c.later)) := by
  have hfilter : onDeduper (filterNew c.records) m = (.ok fresh, { m with deduper := d }) := by
    simp only [onDeduper, hrun]
  have hstep : m.step (.check c) = ((do
      meanwhile c.before
      if fresh ≠ [] then onNode (NodeM.submitRecords c.passes fresh)
      meanwhile c.later
      onNode (NodeM.tick c.passes) : Eff Monitor PyError Unit) { m with deduper := d }).2 :=
    congrArg Prod.snd (Eff.bind_apply_ok hfilter)
  rw [hstep]
  by_cases hnil : fresh = []
  · simp only [hnil, ne_eq, not_true_eq_false, if_false, if_true]
    exact ⟨rfl, _, rfl, .inr rfl⟩
  · have hmeanwhile : meanwhile c.before { m with deduper := d } =
        (.ok (), ⟨m.node.plays c.before, d⟩) := rfl
    rw [if_neg hnil, Eff.bind_apply_ok hmeanwhile]
    simp only [ne_eq, hnil, not_false_eq_true, if_true]
    rcases hsubmit : NodeM.submitRecords c.passes fresh (m.node.plays c.before) with ⟨err | u, n⟩
    · have hraise : onNode (NodeM.submitRecords c.passes fresh) ⟨m.node.plays c.before, d⟩ =
          (.error err, ⟨n, d⟩) := by
        simp only [onNode, hsubmit]
      rw [Eff.bind_apply_error hraise]
      exact ⟨rfl, n, (congrArg Prod.snd hsubmit).symm, .inl rfl⟩
    · have hreturn : onNode (NodeM.submitRecords c.passes fresh) ⟨m.node.plays c.before, d⟩ =
          (.ok u, ⟨n, d⟩) := by
        simp only [onNode, hsubmit]
      rw [Eff.bind_apply_ok hreturn]
      exact ⟨rfl, n, (congrArg Prod.snd hsubmit).symm, .inr rfl⟩

/-- Every key that the deduper has seen is that of a record which the node keeps, as it was observed. -/
structure Covered (texts : List Bytes) (m : Monitor) : Prop where
  seen : m.node.SeenKept
  deduped : ∀ k ∈ m.deduper.seen, ∃ q, key q = .ok k ∧ q.hashInputs ⊆ texts ∧
    ∃ contentKey, q.contentKey = .ok contentKey ∧ m.node.Keeps contentKey

variable {texts : List Bytes} {m m' : Monitor} {c : Check}

lemma Covered.method (h : m.Covered texts) (o : Operation) (passes : ℕ) :
    (m.step (.method o passes)).Covered texts := by
  refine ⟨h.seen.run o passes, fun k hk => ?_⟩
  obtain ⟨q, hq, htexts, contentKey, hcontent, hkeeps⟩ := h.deduped k hk
  exact ⟨q, hq, htexts, contentKey, hcontent, hkeeps.run o passes⟩

/-- A regular turn keeps the cover, and then it reaches the records of the turn. -/
lemma Covered.check (hsign : ∀ (k : PrivateKey) message, Crypto.sign k message ≠ []) (h : m.Covered texts)
    (hc : m.Regular c) (htexts : ∀ r ∈ c.records, r.hashInputs ⊆ texts) :
    (m.step (.check c)).Covered texts ∧
      ∀ r ∈ c.records, ∃ k ∈ (m.step (.check c)).deduper.seen, key r = .ok k := by
  obtain ⟨fresh, d, hrun⟩ := RecordDeduper.filterNew_returns hc.keyed m.deduper
  have hsifted := RecordDeduper.sifted_of_filterNew hrun
  obtain ⟨hdeduper, n, hn, hnode⟩ := runCheck_eq hrun
  -- what the node keeps and has seen once the submission is through
  have hseen : n.SeenKept := by
    rw [hn]
    split_ifs
    · exact h.seen.plays c.before
    · exact (h.seen.plays c.before).run _ _
  have hcovered : ∀ k ∈ d.seen, ∃ q, key q = .ok k ∧ q.hashInputs ⊆ texts ∧
      ∃ contentKey, q.contentKey = .ok contentKey ∧ n.Keeps contentKey := by
    intro k hk
    rcases hsifted.forwarded k hk with hk | ⟨r, hr, hrk⟩
    · obtain ⟨q, hq, hqtexts, contentKey, hcontent, hkeeps⟩ := h.deduped k hk
      refine ⟨q, hq, hqtexts, contentKey, hcontent, ?_⟩
      rw [hn]
      split_ifs
      · exact hkeeps.plays c.before
      · exact (hkeeps.plays c.before).run _ _
    · have hne : fresh ≠ [] := List.ne_nil_of_mem hr
      have hsigning : ∀ r ∈ fresh, ∃ x, r.signingBytes = .ok x := by
        intro r hr
        obtain ⟨k, hk⟩ := hc.keyed r (hsifted.sublist.subset hr)
        exact IntegrityRecord.exists_signingBytes hk
      obtain ⟨contentKey, hcontent, hmem⟩ := Node.seen_submitRecords hsign
        (hc.validator fresh (congrArg Prod.fst hrun) hne) hsigning c.passes hr
      rw [hn, if_neg hne] at hseen ⊢
      exact ⟨r, hrk, htexts r (hsifted.sublist.subset hr), contentKey, hcontent, hseen contentKey hmem⟩
  refine ⟨⟨?_, fun k hk => ?_⟩, fun r hr => ?_⟩
  · rcases hnode with hnode | hnode <;> rw [hnode]
    · exact hseen
    · exact (hseen.plays c.later).run _ _
  · rw [hdeduper] at hk
    obtain ⟨q, hq, hqtexts, contentKey, hcontent, hkeeps⟩ := hcovered k hk
    refine ⟨q, hq, hqtexts, contentKey, hcontent, ?_⟩
    rcases hnode with hnode | hnode <;> rw [hnode]
    · exact hkeeps
    · exact (hkeeps.plays c.later).run _ _
  · obtain ⟨k, hk⟩ := hc.keyed r hr
    exact ⟨k, hdeduper ▸ (hsifted.seen k).mpr (.inr ⟨r, hr, hk⟩), hk⟩

omit [Columns] in
/-- Two kept records whose hashed texts do not collide are of one content if they have one content key. -/
lemma untimed_eq_of_contentKey (hno : NoCollision texts) {q r : IntegrityRecord} {k : PyStr}
    (hq : q.hashInputs ⊆ texts) (hr : r.hashInputs ⊆ texts) (hqk : q.contentKey = .ok k)
    (hrk : r.contentKey = .ok k) : q.untimed = r.untimed := by
  obtain ⟨x, hx, rfl⟩ := exists_of_map_eq_ok hqk
  obtain ⟨y, hy, hxy⟩ := exists_of_map_eq_ok hrk
  have heq : y = x := by
    refine hno y (hr ?_) x (hq ?_) (toHex_injective hxy)
    · simp [IntegrityRecord.hashInputs, hy, Except.toOption]
    · simp [IntegrityRecord.hashInputs, hx, Except.toOption]
  obtain ⟨hentity, hattribute, hvalue, hbroker, hverdict, -⟩ :=
    Canonical.observation_eq_of_signingBytes hx (heq ▸ hy)
  simp [IntegrityRecord.untimed, hentity, hattribute, hvalue, hbroker, hverdict]

omit [Columns] in
/-- Records with one key for the deduper are of one content. -/
lemma untimed_eq_of_key (hno : NoCollision texts) {q r : IntegrityRecord} {k : PyStr}
    (hq : q.hashInputs ⊆ texts) (hr : r.hashInputs ⊆ texts) (hqk : key q = .ok k)
    (hrk : key r = .ok k) : q.untimed = r.untimed := by
  refine ((RecordDeduper.key_eq_iff hrk).mp hqk).resolve_right ?_
  rintro ⟨x, y, hx, hy, hne, hxy⟩
  refine hne (hno x (hq ?_) y (hr ?_) hxy)
  · simp [IntegrityRecord.hashInputs, hx, Except.toOption]
  · simp [IntegrityRecord.hashInputs, hy, Except.toOption]

lemma Covered.runs (hsign : ∀ (k : PrivateKey) message, Crypto.sign k message ≠ [])
    (h : m.Covered texts) (hrun : Runs texts m m') : m'.Covered texts := by
  induction hrun with
  | refl => exact h
  | tail _ hstep ih =>
    obtain ⟨e, rfl, he⟩ := hstep
    cases e with
    | method o passes => exact ih.method o passes
    | check c => exact (ih.check hsign (he c rfl).1 (he c rfl).2).1

/-- In a run in which the deduper lets records through only while the node is in its active set, all records
of every turn are recorded after it, whatever was suppressed. The texts that are hashed for the records are
supposed not to collide, and signatures not to be empty. -/
theorem checked_is_recorded (hsign : ∀ (k : PrivateKey) message, Crypto.sign k message ≠ [])
    (hno : NoCollision texts) {privateKey : PrivateKey} {validators : ValidatorSet} {blocks : List Block}
    {journalStore : JournalStore} {nowMs : ℕ → ℤ} {n₀ : Node}
    (hinit : Node.init privateKey validators blocks journalStore nowMs = .ok n₀)
    (hrun : Runs texts ⟨n₀, {}⟩ m) (hc : m.Regular c)
    (hchecked : ∀ r ∈ c.records, r.hashInputs ⊆ texts)
    (hkept : ∀ r ∈ (m.step (.check c)).node.records, r.hashInputs ⊆ texts) :
    ∀ r ∈ c.records, (m.step (.check c)).node.Recorded r := by
  have hstart : Covered texts ⟨n₀, {}⟩ := ⟨.init hinit, fun k hk => absurd hk List.not_mem_nil⟩
  obtain ⟨hcovered, hseen⟩ := (hstart.runs hsign hrun).check hsign hc hchecked
  intro r hr
  obtain ⟨k, hk, hrk⟩ := hseen r hr
  obtain ⟨q, hqk, hq, contentKey, hcontent, hkeeps⟩ := hcovered.deduped k hk
  have hqr := untimed_eq_of_key hno hq (hchecked r hr) hqk hrk
  obtain ⟨r', hr', hr'k⟩ :
      ∃ r' ∈ (m.step (.check c)).node.records, r'.contentKey = .ok contentKey := by
    rcases hkeeps with ⟨r', hr', hr'k⟩ | ⟨b, hb, r', hr', hr'k⟩
    · exact ⟨r', List.mem_append_left _ hr', hr'k⟩
    · exact ⟨r', List.mem_append_right _ (List.mem_flatMap.mpr ⟨b, hb, hr'⟩), hr'k⟩
  exact ⟨r', hr', (untimed_eq_of_contentKey hno (hkept r' hr') hq hr'k hcontent).trans hqr⟩

omit [Crypto] [Columns] in
/-- The only validator sees one state twice, and records it once. -/
theorem checked_is_recorded_of_validator :
    letI := Crypto.checksums
    letI := Columns.sqlite
    let first : Check := { records := [RecordDeduper.temperature "h1" .OK 1], passes := 1 }
    let second : Check := { records := [RecordDeduper.temperature "h1" .OK 2], passes := 1 }
    ∃ n₀, Node.init (seedKey 0xaa) .single [] .null (fun i => i) = .ok n₀ ∧
      let m := (⟨n₀, {}⟩ : Monitor).step (.check first)
      (m.step (.check second)).node.records.length = 1 ∧
        ∀ r ∈ second.records, (m.step (.check second)).node.Recorded r := by
  let := Crypto.checksums
  let := Columns.sqlite
  intro first second
  let texts (n₀ : Node) : List Bytes :=
    (first.records ++ second.records ++ (((⟨n₀, {}⟩ : Monitor).step (.check first)).step
      (.check second)).node.records).flatMap IntegrityRecord.hashInputs
  have hrun : (Node.init (seedKey 0xaa) .single [] .null fun i => i).map (fun n₀ =>
      let m := (⟨n₀, {}⟩ : Monitor).step (.check first)
      (decide (NoCollision (texts n₀)), (m.step (.check second)).node.records.length,
        n₀.active.contains n₀.me, m.node.active.contains m.node.me)) = .ok (true, 1, true, true) := by
    decide +kernel
  obtain ⟨n₀, hinit, hn₀⟩ := exists_of_map_eq_ok hrun
  simp only [Prod.mk.injEq, decide_eq_true_eq, ValidatorSet.contains_iff] at hn₀
  obtain ⟨hno, hlength, hmem, hmem'⟩ := hn₀
  have hkeyed : ∀ r ∈ first.records ++ second.records, ∃ k, key r = .ok k := by
    have hok : ∀ r ∈ first.records ++ second.records, (key r).isOk = true := by decide +kernel
    exact fun r hr => exists_of_isOk (hok r hr)
  have htexts : ∀ r ∈ first.records ++ second.records ++ (((⟨n₀, {}⟩ : Monitor).step
      (.check first)).step (.check second)).node.records, r.hashInputs ⊆ texts n₀ :=
    fun r hr x hx => List.mem_flatMap.mpr ⟨r, hr, hx⟩
  have hsteps : Runs (texts n₀) ⟨n₀, {}⟩ ((⟨n₀, {}⟩ : Monitor).step (.check first)) := by
    refine .single ⟨.check first, rfl, fun c hc => ?_⟩
    cases hc
    exact ⟨⟨fun r hr => hkeyed r (List.mem_append_left _ hr), fun _ _ _ => hmem⟩,
      fun r hr => htexts r (by simp [hr])⟩
  have hsign : ∀ (k : PrivateKey) message, Crypto.sign k message ≠ [] := by
    intro k message hnil
    have hlength := k.length_seed
    rw [(List.append_eq_nil_iff.mp hnil).1] at hlength
    cases hlength
  refine ⟨n₀, hinit, hlength, ?_⟩
  refine checked_is_recorded hsign hno hinit hsteps
    ⟨fun r hr => hkeyed r (List.mem_append_right _ hr), fun _ _ _ => hmem'⟩
    (fun r hr => htexts r ?_) fun r hr => htexts r (List.mem_append_right _ hr)
  simp [hr]

omit [Crypto] [Columns] in
/-- The block after genesis that makes `bb..bb` a validator, with the seal of the only one so far. -/
def joiningBlock : Block :=
  letI := Crypto.checksums
  let genesisHash := ((genesisBlock .single).bind Block.hash).toOption.getD []
  let block := Block.create 1 genesisHash 0 (seedPublic 0xaa).toHex [] [⟨.ADD, (seedPublic 0xbb).toHex⟩]
  .sealedBy 0xaa (block.toOption.getD (Block.afterGenesis .single 0))

omit [Crypto] [Columns] in
/-- A follower drops the report of an altered value. When it has become a validator, the value is still
altered, but the deduper suppresses the report. -/
theorem dropped_report_suppressed :
    letI := Crypto.checksums
    letI := Columns.sqlite
    let altered := RecordDeduper.temperature "h2" .TAMPERED
    (Node.init (seedKey 0xbb) .single [] .null fun i => i).map (fun n₀ =>
      let m := (⟨n₀, {}⟩ : Monitor).step (.check { records := [altered 1], passes := 1 })
      let m' := m.step (.method (.ingestBlock joiningBlock) 1)
      let m'' := m'.step (.check { records := [altered 2], passes := 1 })
      (m.node.active.contains m.node.me, m'.node.active.contains m'.node.me,
        m''.node.active.contains m''.node.me, decide (m''.node.Recorded (altered 2)))) =
      .ok (false, true, true, false) := by
  decide +kernel

end Monitor

end Helix

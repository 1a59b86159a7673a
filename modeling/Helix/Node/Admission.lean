import Helix.Domain.Encoding
import Helix.Node.Mempool

/-!
# Admission to the mempool

`_ingest_records` verifies the records of a batch one after another, and `verify` raises where it
should refuse: on a signature that is not hexadecimal and on an observation that cannot be encoded,
if the record names a validator as its observer. Then the whole batch is lost. Otherwise the records
that are taken in are exactly those that are signed by a validator and not seen before.
-/

namespace Helix

variable [Crypto] [Columns]

omit [Columns] in
/-- A record that is signed by a key is a possible leaf. -/
lemma IntegrityRecord.SignedBy.exists_canonical {r : IntegrityRecord} {key : PublicKey}
    (h : r.SignedBy key) : ∃ b, r.canonical = .ok b := by
  obtain ⟨bytes, message, hbytes, hmessage, -⟩ := h.signature
  exact exists_canonical_iff.mpr ⟨⟨message, hmessage⟩, PublicKey.exists_encode_of_fromHex h.observer,
    exists_encode_of_fromHex hbytes⟩

/-! ### Verification that does not raise -/

/-- If the record is signed in the name of a validator, the signature is hexadecimal and the
observation can be encoded. -/
def IntegrityRecord.Checkable (r : IntegrityRecord) (V : ValidatorSet) : Prop :=
  r.signature ≠ [] → ∀ key ∈ V.validators, PublicKey.fromHex r.observer = .ok key →
    (∃ bytes, fromHex r.signature = .ok bytes) ∧ ∃ message, r.signingBytes = .ok message

omit [Columns] in
/-- `verify` returns just for such records. -/
lemma IntegrityRecord.exists_verify_iff {r : IntegrityRecord} {V : ValidatorSet} :
    (∃ b, r.verify V = .ok b) ↔ r.Checkable V := by
  unfold verify Checkable
  by_cases hnamed : r.observer = [] ∨ r.signature = []
  · rw [if_pos hnamed]
    refine iff_of_true ⟨false, rfl⟩ fun hsignature key _ hkey => ?_
    rw [hnamed.resolve_right hsignature] at hkey
    cases hkey
  · rw [if_neg hnamed]
    cases hkey : PublicKey.fromHex r.observer with
    | error err => exact iff_of_true ⟨false, rfl⟩ nofun
    | ok key =>
      by_cases hmem : V.contains key = true
      swap
      · simp only [hmem]
        refine iff_of_true ⟨false, rfl⟩ fun _ key' hmem' heq => ?_
        cases heq
        exact absurd ((V.contains_iff key).mpr hmem') hmem
      simp only [hmem, if_true]
      constructor
      · rintro ⟨b, hb⟩ - key' - -
        cases hbytes : fromHex r.signature with
        | error err => simp only [hbytes, bind, Except.bind] at hb; cases hb
        | ok bytes =>
          cases hmessage : r.signingBytes with
          | error err => simp only [hbytes, hmessage, bind, Except.bind] at hb; cases hb
          | ok message => exact ⟨⟨bytes, rfl⟩, message, rfl⟩
      · intro h
        obtain ⟨⟨bytes, hbytes⟩, message, hmessage⟩ :=
          h (fun hnil => hnamed (Or.inr hnil)) key ((V.contains_iff key).mp hmem) rfl
        simp only [hbytes, hmessage, bind, Except.bind]
        exact ⟨_, rfl⟩

/-! ### Batches -/

namespace Node

/-- The node with records taken in. -/
def admitting (n : Node) (fresh : List IntegrityRecord) (keys : List PyStr) : Node :=
  { n with mempoolSeen := n.mempoolSeen ∪ keys, pending := n.pending ++ fresh }

/-- A batch is admitted record by record: those of its records that are signed by a validator and
whose content key was not seen are put into `_pending` and their keys into `_mempool_seen`, no other
record is, and then the method goes on from there; a block can be built of what is pending. -/
structure Admits (passes : ℕ) (n : Node) (batch fresh : List IntegrityRecord) (keys : List PyStr) :
    Prop where
  mem : ∀ r, r ∈ fresh ↔ r ∈ batch ∧ (∃ key ∈ n.active.validators, r.SignedBy key) ∧
    ∃ key, r.contentKey = .ok key ∧ key ∉ n.mempoolSeen
  sublist : fresh.Sublist batch
  keyed : fresh.mapM IntegrityRecord.contentKey = .ok keys
  run : NodeM.ingestRecords passes batch false n =
    if fresh = [] then (.ok (), n) else NodeM.tick passes (n.admitting fresh keys)
  seen : ∀ r ∈ fresh, ∃ key, r.contentKey = .ok key ∧
    key ∈ ((Operation.receiveRecords batch).run passes n).mempoolSeen
  buildable : ∀ index previousHash timestamp proposer,
    ∃ block, Block.create index previousHash timestamp proposer (n.pending ++ fresh)
      n.pendingChanges = .ok block

omit [Columns] in
lemma queues_iff {n : Node} {r : IntegrityRecord} : n.Queues r ↔
    (∃ key ∈ n.active.validators, r.SignedBy key) ∧
      ∃ key, r.contentKey = .ok key ∧ key ∉ n.mempoolSeen := by
  rw [Queues, IntegrityRecord.verify_eq_ok]
  exact and_congr_left fun _ => exists_congr fun key => And.comm

/-- The keys that were seen stay seen. -/
lemma seen_subset_of_move {o : Operation} {n n' : Node} (h : NodeMove o n n') :
    n.mempoolSeen ⊆ n'.mempoolSeen := by
  cases h with
  | append happend =>
    cases happend with
    | refused => exact List.Subset.refl _
    | stored => exact List.Subset.refl _
    | forgotten => exact fun key hkey => List.mem_union_iff.mpr (Or.inl hkey)
    | advanced => exact fun key hkey => List.mem_union_iff.mpr (Or.inl hkey)
  | enqueueRecords => exact fun key hkey => List.mem_union_iff.mpr (Or.inl hkey)
  | _ => exact List.Subset.refl _

lemma seen_subset_run (o : Operation) (passes : ℕ) (n : Node) :
    n.mempoolSeen ⊆ (o.run passes n).mempoolSeen := by
  refine Operation.run_keeps (P := fun n' => n.mempoolSeen ⊆ n'.mempoolSeen) (fun _ _ hmove ih => ?_)
    passes (List.Subset.refl _)
  exact List.Subset.trans ih (seen_subset_of_move hmove)

/-- What is pending can be put into a block. -/
structure Buildable (n : Node) : Prop where
  records : ∀ r ∈ n.pending, ∃ b, r.canonical = .ok b
  changes : ∀ c ∈ n.pendingChanges, ∃ b, c.canonical = .ok b

lemma Buildable.move {o : Operation} {n n' : Node} (hmove : NodeMove o n n') (h : n.Buildable) :
    n'.Buildable := by
  cases hmove with
  | append happend =>
    cases happend with
    | refused => exact h
    | stored => exact ⟨h.records, h.changes⟩
    | forgotten hrepo hkeys hpending =>
      exact ⟨fun r hr => h.records r (mem_filterM hpending hr).1,
        fun c hc => h.changes c (List.mem_of_mem_filter hc)⟩
    | advanced hrepo hkeys hpending =>
      exact ⟨fun r hr => h.records r (mem_filterM hpending hr).1,
        fun c hc => h.changes c (List.mem_of_mem_filter hc)⟩
  | enqueueRecords hverify =>
    refine ⟨fun r hr => ?_, h.changes⟩
    rcases List.mem_append.mp hr with hr | hr
    · exact h.records r hr
    · obtain ⟨key, hkey, -⟩ := IntegrityRecord.verify_eq_ok.mp (hverify r hr)
      exact hkey.exists_canonical
  | enqueueChanges heffective =>
    refine ⟨h.records, fun c hc => ?_⟩
    rcases List.mem_append.mp hc with hc | hc
    · exact h.changes c hc
    · have heffective := heffective c hc
      unfold isEffective at heffective
      split at heffective
      · cases heffective
      · rename_i key hkey
        exact ValidatorChange.exists_canonical_iff.mpr (PublicKey.exists_encode_of_fromHex hkey)
  | _ => exact ⟨h.records, h.changes⟩

lemma Buildable.init {privateKey : PrivateKey} {validators : ValidatorSet} {blocks : List Block}
    {journalStore : JournalStore} {nowMs : ℕ → ℤ} {n : Node}
    (h : Node.init privateKey validators blocks journalStore nowMs = .ok n) : n.Buildable := by
  obtain ⟨repo, active, engine, -, -, -, rfl⟩ := Node.init_eq_ok h
  have hrecords : ∀ r ∈ ([] : List IntegrityRecord), ∃ b, r.canonical = .ok b :=
    fun r hr => (by cases hr)
  exact ⟨hrecords, fun c hc => by cases hc⟩

omit [Columns] in
/-- The first part of `_ingest_records` on records that can be checked. -/
lemma exists_fresh {n : Node} {batch : List IntegrityRecord}
    (h : ∀ r ∈ batch, r.Checkable n.active) : ∃ authentic fresh keys,
      (batch.filterM fun r => r.verify n.active) = .ok authentic ∧
      (authentic.filterM fun r => r.contentKey.map fun key => decide (key ∉ n.mempoolSeen)) =
        .ok fresh ∧
      fresh.mapM IntegrityRecord.contentKey = .ok keys := by
  obtain ⟨authentic, hauthentic⟩ : ∃ authentic, batch.filterM (fun r => r.verify n.active) =
      .ok authentic :=
    ⟨_, filterM_eq_ok.mpr ⟨fun r hr => IntegrityRecord.exists_verify_iff.mpr (h r hr), rfl⟩⟩
  have hkeyed : ∀ r ∈ authentic, ∃ key, r.contentKey = .ok key := by
    intro r hr
    obtain ⟨key, hkey, -⟩ := IntegrityRecord.verify_eq_ok.mp (mem_filterM hauthentic hr).2
    obtain ⟨-, message, -, hmessage, -⟩ := hkey.signature
    exact ⟨sha256Hex message, by rw [IntegrityRecord.contentKey, hmessage]; rfl⟩
  obtain ⟨fresh, hfresh⟩ : ∃ fresh, authentic.filterM (fun r =>
      r.contentKey.map fun key => decide (key ∉ n.mempoolSeen)) = .ok fresh := by
    refine ⟨_, filterM_eq_ok.mpr ⟨fun r hr => ?_, rfl⟩⟩
    obtain ⟨key, hkey⟩ := hkeyed r hr
    exact ⟨_, by rw [hkey]; rfl⟩
  obtain ⟨keys, hkeys⟩ := exists_mapM fun r hr => hkeyed r (mem_filterM hfresh hr).1
  exact ⟨authentic, fresh, keys, hauthentic, hfresh, hkeys⟩

/-- A record that cannot be checked makes the method raise before anything is done. -/
lemma ingestRecords_raises {n : Node} {batch : List IntegrityRecord} {r : IntegrityRecord}
    (hr : r ∈ batch) (h : ¬r.Checkable n.active) (passes : ℕ) (gossip : Bool) :
    ∃ err, NodeM.ingestRecords passes batch gossip n = (.error err, n) := by
  cases hauthentic : batch.filterM fun r => r.verify n.active with
  | ok authentic =>
    obtain ⟨b, hb⟩ := (filterM_eq_ok.mp hauthentic).1 r hr
    exact absurd (IntegrityRecord.exists_verify_iff.mp ⟨b, hb⟩) h
  | error err =>
    refine ⟨err, ?_⟩
    unfold NodeM.ingestRecords
    rw [Eff.bind_apply_ok (Eff.get_apply n)]
    exact Eff.bind_apply_error (congrArg (·, n) hauthentic)

/-- What `_ingest_records` does with records that can be checked. -/
lemma ingestRecords_eq {n : Node} {batch authentic fresh : List IntegrityRecord} {keys : List PyStr}
    (hauthentic : (batch.filterM fun r => r.verify n.active) = .ok authentic)
    (hfresh : (authentic.filterM fun r => r.contentKey.map fun key => key ∉ n.mempoolSeen) =
      .ok fresh)
    (hkeys : fresh.mapM IntegrityRecord.contentKey = .ok keys) (passes : ℕ) :
    NodeM.ingestRecords passes batch false n =
      if fresh = [] then (.ok (), n) else NodeM.tick passes (n.admitting fresh keys) := by
  unfold NodeM.ingestRecords
  rw [Eff.bind_apply_ok (Eff.get_apply n), Eff.lift_bind_ok hauthentic, Eff.lift_bind_ok hfresh]
  by_cases hnil : fresh = []
  · rw [if_pos hnil, if_pos hnil]
    rfl
  · rw [if_neg hnil, if_neg hnil, Eff.lift_bind_ok hkeys, Eff.bind_apply_ok (Eff.modify_apply _ n)]
    rfl

end Node

/-- At any point of a run, a batch that is received is admitted record by record just when every
record that is signed in the name of a validator has a hexadecimal signature and an observation that
can be encoded. -/
theorem batch_admitted_iff {privateKey : PrivateKey} {validators : ValidatorSet}
    {blocks : List Block} {journalStore : JournalStore} {nowMs : ℕ → ℤ} {n₀ n : Node}
    (hinit : Node.init privateKey validators blocks journalStore nowMs = .ok n₀)
    (hrun : Node.Runs (fun _ => True) n₀ n) (passes : ℕ) (batch : List IntegrityRecord) :
    (∃ fresh keys, n.Admits passes batch fresh keys) ↔ ∀ r ∈ batch, r.Checkable n.active := by
  constructor
  · rintro ⟨fresh, keys, h⟩ r hr
    by_contra hraises
    obtain ⟨err, herr⟩ := Node.ingestRecords_raises hr hraises passes false
    have hstate : ((Operation.receiveRecords batch).run passes n) = n := congrArg Prod.snd herr
    by_cases hnil : fresh = []
    · have heq := h.run
      rw [herr, if_pos hnil] at heq
      cases heq
    · -- the keys of what was taken in are seen afterwards, but nothing was done
      obtain ⟨r', hr'⟩ := List.exists_mem_of_ne_nil fresh hnil
      obtain ⟨key, hkey, hseen⟩ := h.seen r' hr'
      obtain ⟨-, -, key', hkey', hunseen⟩ := (h.mem r').mp hr'
      rw [hkey] at hkey'
      rw [hstate, Except.ok.inj hkey'] at hseen
      exact hunseen hseen
  · intro hcheckable
    obtain ⟨authentic, fresh, keys, hauthentic, hfresh, hkeys⟩ := Node.exists_fresh hcheckable
    have hbuildable : n.Buildable :=
      hrun.induction (fun _ _ _ _ hmove h => h.move hmove) (fun _ _ _ _ _ h => .init h) (.init hinit)
    have hmem : ∀ r, r ∈ fresh ↔ r ∈ batch ∧ n.Queues r := fun r => Node.mem_fresh hauthentic hfresh
    have heq := Node.ingestRecords_eq hauthentic hfresh hkeys passes
    refine ⟨fresh, keys, ?_, ?_, hkeys, heq, fun r hr => ?_, ?_⟩
    · exact fun r => (hmem r).trans (and_congr_right fun _ => Node.queues_iff)
    · exact (sublist_of_filterM hfresh).trans (sublist_of_filterM hauthentic)
    · obtain ⟨-, -, key, hkey, -⟩ := (hmem r).mp hr
      refine ⟨key, hkey, ?_⟩
      have hstate : (Operation.receiveRecords batch).run passes n =
          Operation.tick.run passes (n.admitting fresh keys) := by
        refine congrArg Prod.snd (heq.trans (if_neg ?_))
        exact List.ne_nil_of_mem hr
      rw [hstate]
      refine Node.seen_subset_run .tick passes _ (List.mem_union_iff.mpr (Or.inr ?_))
      exact mem_of_mapM hkeys hr hkey
    · refine Block.exists_create (fun r hr => ?_) hbuildable.changes
      rcases List.mem_append.mp hr with hr | hr
      · exact hbuildable.records r hr
      · obtain ⟨⟨key, -, hsigned⟩, -⟩ := Node.queues_iff.mp ((hmem r).mp hr).2
        exact hsigned.exists_canonical

omit [Crypto] [Columns] in
/-- Of an unsigned and a signed record, the signed one is admitted. -/
theorem batch_admitted_iff_of_signed :
    letI := Crypto.checksums
    letI := Columns.sqlite
    ∃ n₀ record fresh keys, Node.init (seedKey 0xbb) .pair [] .null (fun i => i) = .ok n₀ ∧
      IntegrityRecord.empty.signed (seedKey 0xaa) = .ok record ∧
      n₀.Admits 1 [.empty, record] fresh keys ∧ IntegrityRecord.empty.verify n₀.active = .ok false ∧
      record.verify n₀.active = .ok true := by
  let := Crypto.checksums
  let := Columns.sqlite
  have hrun : (IntegrityRecord.empty.signed (seedKey 0xaa)).bind (fun record =>
      (Node.init (seedKey 0xbb) .pair [] .null fun i => i).map fun n₀ =>
        decide (record.verify n₀.active = .ok true)) = .ok true := by
    decide +kernel
  obtain ⟨record, hrecord, hrun⟩ := exists_of_bind_eq_ok hrun
  obtain ⟨n₀, hinit, hn⟩ := exists_of_map_eq_ok hrun
  have hverify : record.verify n₀.active = .ok true := of_decide_eq_true hn
  have hcheckable : ∀ r ∈ [IntegrityRecord.empty, record], r.Checkable n₀.active := by
    intro r hr
    rcases List.mem_pair.mp hr with rfl | rfl
    · exact fun hsignature => absurd rfl hsignature
    · exact IntegrityRecord.exists_verify_iff.mp ⟨true, hverify⟩
  obtain ⟨fresh, keys, hadmits⟩ :=
    (batch_admitted_iff hinit .refl 1 [IntegrityRecord.empty, record]).mpr hcheckable
  exact ⟨n₀, record, fresh, keys, hinit, hrecord, hadmits, rfl, hverify⟩

omit [Crypto] [Columns] in
/-- A record that names a validator and has a signature that is not hexadecimal takes the signed
record of the same batch with it: the method raises and nothing is queued. -/
theorem batch_lost :
    letI := Crypto.checksums
    letI := Columns.sqlite
    (IntegrityRecord.empty.signed (seedKey 0xaa)).bind (fun record =>
      (Node.init (seedKey 0xbb) .pair [] .null fun i => i).map fun n₀ =>
        let malformed := { record with signature := str "zz" }
        let both := Operation.receiveRecords [malformed, record]
        let n := both.run 1 n₀
        (decide (record.verify n₀.active = .ok true), (both.body 1 n₀).1.isOk, n.mempoolSeen.length,
          ((Operation.receiveRecords [record]).run 1 n₀).mempoolSeen.length)) =
      .ok (true, false, 0, 1) := by
  decide +kernel

end Helix

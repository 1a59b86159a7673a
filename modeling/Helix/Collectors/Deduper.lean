import Helix.Domain.Binding
import Helix.Library.Effect

/-!
# Observations that are forwarded

The deduper forwards a record if no record with the same content, apart from the time, has come through it
before. What it remembers is everything it has ever seen, not the state of each observation; so a change is
lost if it leads back to a content that was seen earlier (`RecordDeduper.forwards_iff`).
-/

namespace Helix

variable [Crypto]

namespace IntegrityRecord

/-- `id`: the hash of the full record. -/
def id (r : IntegrityRecord) : Except PyError PyStr := r.canonical.map sha256Hex

/-- The record without time, observer and signature. -/
def untimed (r : IntegrityRecord) : IntegrityRecord :=
  { r with observedAt := 0, observer := [], signature := [] }

/-- The observation: an attribute of an entity at a broker. -/
def slot (r : IntegrityRecord) : PyStr × PyStr × PyStr := (r.entityId, r.attributeName, r.sourceBroker)

/-- The two records are of different states of their observations. -/
def Differs (r r' : IntegrityRecord) : Prop := r.valueHash ≠ r'.valueHash ∨ r.verdict ≠ r'.verdict

end IntegrityRecord

/-- `RecordDeduper`: the keys of all records so far. -/
structure RecordDeduper where
  seen : List PyStr := []

namespace RecordDeduper

open Eff (lift get modify)

/-- `_key`. -/
def key (record : IntegrityRecord) : Except PyError PyStr := record.untimed.id

/-- `filter_new`. An exception leaves behind the keys of the records before. -/
def filterNew : List IntegrityRecord → Eff RecordDeduper PyError (List IntegrityRecord)
  | [] => pure []
  | record :: records => do
    let key ← lift (key record)
    let d ← get
    if key ∈ d.seen then filterNew records
    else do
      modify fun d => { d with seen := d.seen ++ [key] }
      let fresh ← filterNew records
      return record :: fresh

/-- The deduper after a sequence of batches. -/
def after (d : RecordDeduper) (batches : List (List IntegrityRecord)) : RecordDeduper :=
  batches.foldl (fun d batch => (filterNew batch d).2) d

variable {d d' : RecordDeduper} {records fresh : List IntegrityRecord} {r : IntegrityRecord}

/-! ### One batch -/

/-- What a batch that goes through leaves behind. -/
structure Sifted (d : RecordDeduper) (records fresh : List IntegrityRecord) (d' : RecordDeduper) :
    Prop where
  keyed : ∀ r ∈ records, ∃ k, key r = .ok k
  seen : ∀ k, k ∈ d'.seen ↔ k ∈ d.seen ∨ ∃ r ∈ records, key r = .ok k
  forwarded : ∀ k, k ∈ d'.seen → k ∈ d.seen ∨ ∃ r ∈ fresh, key r = .ok k
  sublist : fresh.Sublist records

/-- The next record of a batch goes through if its key has not come up. -/
lemma filterNew_cons {k : PyStr} (hk : key r = .ok k) (records : List IntegrityRecord)
    (d : RecordDeduper) :
    filterNew (r :: records) d = if k ∈ d.seen then filterNew records d
      else ((filterNew records { d with seen := d.seen ++ [k] }).1.map (r :: ·),
        (filterNew records { d with seen := d.seen ++ [k] }).2) := by
  have hlift : (lift (key r) : Eff RecordDeduper PyError PyStr) d = (.ok k, d) := by
    rw [hk]
    rfl
  rw [filterNew, Eff.bind_apply_ok hlift, Eff.bind_apply_ok (Eff.get_apply d)]
  split_ifs with hseen
  · rfl
  · rw [Eff.bind_apply_ok (Eff.modify_apply _ d)]
    rcases hrest : filterNew records { d with seen := d.seen ++ [k] } with ⟨e | fresh, d'⟩
    · rw [Eff.bind_apply_error hrest]
      rfl
    · rw [Eff.bind_apply_ok hrest]
      rfl

/-- A batch goes through exactly if all its records have keys. -/
lemma filterNew_returns (h : ∀ r ∈ records, ∃ k, key r = .ok k) (d : RecordDeduper) :
    ∃ fresh d', filterNew records d = (.ok fresh, d') := by
  induction records generalizing d with
  | nil => exact ⟨[], d, rfl⟩
  | cons r records ih =>
    obtain ⟨k, hk⟩ := h r List.mem_cons_self
    have ih := fun d => ih (fun r' hr' => h r' (List.mem_cons_of_mem _ hr')) d
    rw [filterNew_cons hk]
    split_ifs with hseen
    · exact ih d
    · obtain ⟨fresh, d', hrun⟩ := ih { d with seen := d.seen ++ [k] }
      exact ⟨r :: fresh, d', by rw [hrun]; rfl⟩

lemma sifted_of_filterNew (h : filterNew records d = (.ok fresh, d')) : Sifted d records fresh d' := by
  induction records generalizing d fresh with
  | nil =>
    obtain ⟨hfresh, rfl⟩ := Prod.mk.inj h
    cases hfresh
    exact ⟨by simp, by simp, fun k hk => .inl hk, .slnil⟩
  | cons r records ih =>
    cases hk : key r with
    | error e =>
      rw [filterNew, Eff.bind_apply_error (by rw [hk]; rfl)] at h
      cases (Prod.mk.inj h).1
    | ok k =>
      rw [filterNew_cons hk] at h
      split_ifs at h with hseen
      · have hrest := ih h
        refine ⟨?_, fun k' => ?_, hrest.forwarded, hrest.sublist.cons _⟩
        · simpa [hk] using hrest.keyed
        · simp only [hrest.seen, List.mem_cons, exists_eq_or_imp, hk, Except.ok.injEq]
          constructor
          · exact fun h => h.imp_right .inr
          · rintro (h | rfl | h)
            · exact .inl h
            · exact .inl hseen
            · exact .inr h
      · rcases hrun : filterNew records { d with seen := d.seen ++ [k] } with ⟨e | rest, d''⟩
        · rw [hrun] at h
          cases (Prod.mk.inj h).1
        · rw [hrun] at h
          obtain ⟨hfresh, rfl⟩ := Prod.mk.inj h
          cases hfresh
          have hrest := ih hrun
          refine ⟨?_, fun k' => ?_, fun k' hk' => ?_, hrest.sublist.cons_cons _⟩
          · simpa [hk] using hrest.keyed
          · simp only [hrest.seen, List.mem_cons, List.mem_append, List.not_mem_nil, or_false,
              exists_eq_or_imp, hk, Except.ok.injEq, or_assoc, eq_comm (a := k') (b := k)]
          · rcases hrest.forwarded k' hk' with hk' | ⟨q, hq, hqk⟩
            · rcases List.mem_append.mp hk' with hk' | hk'
              · exact .inl hk'
              · exact .inr ⟨r, List.mem_cons_self, by rw [hk, List.mem_singleton.mp hk']⟩
            · exact .inr ⟨q, List.mem_cons_of_mem _ hq, hqk⟩

/-- Which records of a batch go through. -/
lemma mem_filterNew {before rest : List IntegrityRecord}
    (h : filterNew (before ++ r :: rest) d = (.ok fresh, d')) (hbefore : r ∉ before) (hrest : r ∉ rest) :
    r ∈ fresh ↔ ∃ k, key r = .ok k ∧ k ∉ d.seen ∧ ∀ q ∈ before, key q ≠ .ok k := by
  induction before generalizing d fresh with
  | nil =>
    rw [List.nil_append] at h
    obtain ⟨k, hk⟩ := (sifted_of_filterNew h).keyed r List.mem_cons_self
    rw [filterNew_cons hk] at h
    split_ifs at h with hseen
    · have hnot : r ∉ fresh := fun hr => hrest ((sifted_of_filterNew h).sublist.subset hr)
      simp [hk, hseen, hnot]
    · rcases hrun : filterNew rest { d with seen := d.seen ++ [k] } with ⟨e | rest', d''⟩
      · rw [hrun] at h
        cases (Prod.mk.inj h).1
      · rw [hrun] at h
        obtain ⟨hfresh, rfl⟩ := Prod.mk.inj h
        cases hfresh
        simp [hk, hseen]
  | cons q before ih =>
    obtain ⟨hqr, hbefore⟩ := not_or.mp (mt List.mem_cons.mpr hbefore)
    rw [List.cons_append] at h
    obtain ⟨k, hk⟩ := (sifted_of_filterNew h).keyed q List.mem_cons_self
    rw [filterNew_cons hk] at h
    split_ifs at h with hseen
    · rw [ih h hbefore]
      simp only [List.forall_mem_cons, hk, Ne, Except.ok.injEq]
      refine exists_congr fun k' => and_congr_right fun _ => and_congr_right fun hk' => ?_
      have hne : ¬k = k' := fun heq => hk' (heq ▸ hseen)
      exact (and_iff_right hne).symm
    · rcases hrun : filterNew (before ++ r :: rest) { d with seen := d.seen ++ [k] }
        with ⟨e | rest', d''⟩
      · rw [hrun] at h
        cases (Prod.mk.inj h).1
      · rw [hrun] at h
        obtain ⟨hfresh, rfl⟩ := Prod.mk.inj h
        cases hfresh
        rw [List.mem_cons, or_iff_right hqr, ih hrun hbefore]
        simp only [List.forall_mem_cons, hk, Ne, Except.ok.injEq, List.mem_append, List.mem_singleton,
          not_or]
        refine exists_congr fun k' => and_congr_right fun _ => ?_
        rw [and_assoc, eq_comm (a := k')]

/-! ### Batches one after the other -/

/-- Two records with different texts that have one hash. -/
def Collide (q r : IntegrityRecord) : Prop :=
  ∃ x y, q.untimed.canonical = .ok x ∧ r.untimed.canonical = .ok y ∧ x ≠ y ∧
    Crypto.sha256 x = Crypto.sha256 y

/-- Two records have one key if they are of one content, or by a collision. -/
lemma key_eq_iff {q : IntegrityRecord} {k : PyStr} (hk : key r = .ok k) :
    key q = .ok k ↔ q.untimed = r.untimed ∨ Collide q r := by
  obtain ⟨y, hy, rfl⟩ := exists_of_map_eq_ok hk
  constructor
  · intro hq
    obtain ⟨x, hx, hxy⟩ := exists_of_map_eq_ok hq
    by_cases heq : x = y
    · exact .inl (IntegrityRecord.eq_of_canonical hx (heq ▸ hy))
    · exact .inr ⟨x, y, hx, hy, heq, toHex_injective hxy⟩
  · rintro (heq | ⟨x, y', hx, hy', -, hxy⟩)
    · rw [key, heq]
      exact hk
    · rw [hy] at hy'
      cases hy'
      rw [key, IntegrityRecord.id, hx]
      exact congrArg (fun b => Except.ok (toHex b)) hxy

/-- The deduper remembers the keys of all batches that have gone through. -/
lemma seen_after {done : List (List IntegrityRecord)} (h : ∀ r ∈ done.flatten, ∃ k, key r = .ok k)
    {k : PyStr} : k ∈ (after d done).seen ↔ k ∈ d.seen ∨ ∃ q ∈ done.flatten, key q = .ok k := by
  induction done generalizing d with
  | nil => simp [after]
  | cons batch done ih =>
    simp only [List.flatten_cons, List.mem_append, or_imp, forall_and] at h
    obtain ⟨fresh, d', hrun⟩ := filterNew_returns h.1 d
    have hrest := ih h.2 (d := d')
    rw [after, List.foldl_cons, hrun]
    refine hrest.trans ?_
    rw [(sifted_of_filterNew hrun).seen]
    simp only [List.flatten_cons, List.mem_append, or_and_right, exists_or, or_assoc]

/-- In every batch exactly the records are returned that are of another state than in the batch before. -/
def Forwards (batches : List (List IntegrityRecord)) : Prop :=
  (∀ done batch rest, batches = done ++ batch :: rest →
    ∃ fresh, (filterNew batch (after {} done)).1 = .ok fresh) ∧
  ∀ done last batch rest fresh, batches = done ++ last :: batch :: rest →
    (filterNew batch (after {} (done ++ [last]))).1 = .ok fresh →
      ∀ p ∈ last, ∀ r ∈ batch, p.slot = r.slot → (r ∈ fresh ↔ p.Differs r)

/-- All records have keys, and a record that is of another state than in the batch before has a content that
was not there earlier; nor does its text collide with an earlier one. -/
def NeverRecurs (batches : List (List IntegrityRecord)) : Prop :=
  (∀ r ∈ batches.flatten, ∃ k, key r = .ok k) ∧
  ∀ done last before r later rest, batches = done ++ last :: (before ++ r :: later) :: rest →
    ∀ p ∈ last, p.slot = r.slot → p.Differs r →
      ∀ q ∈ (done ++ [last]).flatten ++ before, q.untimed ≠ r.untimed ∧ ¬Collide q r

/-- No batch has two records of one observation. -/
def Distinct (batches : List (List IntegrityRecord)) : Prop :=
  ∀ batch ∈ batches, batch.Pairwise fun r r' => r.slot ≠ r'.slot

/-- A record goes through if its content has not come up in any batch. -/
lemma mem_filterNew_after {done : List (List IntegrityRecord)} {before later fresh : List IntegrityRecord}
    (hkeyed : ∀ r ∈ done.flatten, ∃ k, key r = .ok k)
    (hslots : (before ++ r :: later).Pairwise fun r r' => r.slot ≠ r'.slot)
    (h : (filterNew (before ++ r :: later) (after {} done)).1 = .ok fresh) :
    r ∈ fresh ↔ ∀ q ∈ done.flatten ++ before, q.untimed ≠ r.untimed ∧ ¬Collide q r := by
  obtain ⟨-, hlater, hbefore⟩ := List.pairwise_append.mp hslots
  have hrun : filterNew (before ++ r :: later) (after {} done) =
      (.ok fresh, (filterNew (before ++ r :: later) (after {} done)).2) := Prod.ext h rfl
  have hmem := mem_filterNew hrun (fun hr => hbefore r hr r List.mem_cons_self rfl)
    fun hr => (List.pairwise_cons.mp hlater).1 r hr rfl
  obtain ⟨k, hk⟩ := (sifted_of_filterNew hrun).keyed r (by simp)
  rw [hmem, List.forall_mem_append]
  simp only [hk, Except.ok.injEq, exists_eq_left', seen_after hkeyed, List.not_mem_nil, false_or,
    not_exists, not_and, Ne, key_eq_iff hk, not_or]

/-- Exactly the changed records go through, if and only if no change leads back to an earlier content. -/
theorem forwards_iff {batches : List (List IntegrityRecord)} (hslots : Distinct batches) :
    Forwards batches ↔ NeverRecurs batches := by
  have hkeyed_iff : (∀ done batch rest, batches = done ++ batch :: rest →
      ∃ fresh, (filterNew batch (after {} done)).1 = .ok fresh) ↔
        ∀ r ∈ batches.flatten, ∃ k, key r = .ok k := by
    constructor
    · intro h r hr
      obtain ⟨batch, hbatch, hr⟩ := List.mem_flatten.mp hr
      obtain ⟨done, rest, heq⟩ := List.append_of_mem hbatch
      obtain ⟨fresh, hfresh⟩ := h done batch rest heq
      exact (sifted_of_filterNew (Prod.ext hfresh rfl)).keyed r hr
    · rintro h done batch rest rfl
      have hkeys : ∀ r ∈ batch, ∃ k, key r = .ok k := fun r hr =>
        h r (List.mem_flatten_of_mem (by simp) hr)
      obtain ⟨fresh, d', hrun⟩ := filterNew_returns hkeys (after {} done)
      exact ⟨fresh, congrArg Prod.fst hrun⟩
  have hmem : (∀ r ∈ batches.flatten, ∃ k, key r = .ok k) →
      ∀ done last before r later rest fresh, batches = done ++ last :: (before ++ r :: later) :: rest →
        (filterNew (before ++ r :: later) (after {} (done ++ [last]))).1 = .ok fresh →
          (r ∈ fresh ↔
            ∀ q ∈ (done ++ [last]).flatten ++ before, q.untimed ≠ r.untimed ∧ ¬Collide q r) := by
    rintro hkeyed done last before r later rest fresh rfl hfresh
    refine mem_filterNew_after (fun q hq => hkeyed q ?_) (hslots _ (by simp)) hfresh
    rw [← List.singleton_append, ← List.append_assoc, List.flatten_append]
    exact List.mem_append_left _ hq
  constructor
  · rintro ⟨hreturns, hforwards⟩
    have hkeyed := hkeyed_iff.mp hreturns
    refine ⟨hkeyed, fun done last before r later rest heq p hp hslot hdiffers => ?_⟩
    obtain ⟨fresh, hfresh⟩ := hreturns (done ++ [last]) (before ++ r :: later) rest (by simp [heq])
    refine (hmem hkeyed done last before r later rest fresh heq hfresh).mp ?_
    exact (hforwards done last _ rest fresh heq hfresh p hp r (by simp) hslot).mpr hdiffers
  · rintro ⟨hkeyed, hnever⟩
    refine ⟨hkeyed_iff.mpr hkeyed, fun done last batch rest fresh heq hfresh p hp r hr hslot => ?_⟩
    obtain ⟨before, later, rfl⟩ := List.append_of_mem hr
    rw [hmem hkeyed done last before r later rest fresh heq hfresh]
    constructor
    · intro hnew
      by_contra hsame
      simp only [IntegrityRecord.Differs, not_or, not_not] at hsame
      refine (hnew p (by simp [hp])).1 ?_
      obtain ⟨hentity, hattribute, hbroker⟩ := by simpa [IntegrityRecord.slot] using hslot
      simp [IntegrityRecord.untimed, hsame, hentity, hattribute, hbroker]
    · exact hnever done last before r later rest heq p hp hslot

/-- A temperature at a federated broker, in a given state. -/
def temperature (valueHash : String) (verdict : Verdict) (observedAt : ℤ) : IntegrityRecord :=
  ⟨str "S:1", str "temperature", str valueHash, str "fed-a", verdict, observedAt, [], []⟩

omit [Crypto] in
/-- The same state is seen twice, and then the value is altered. -/
theorem forwards_iff_of_alteration :
    letI := Crypto.checksums
    Forwards [[temperature "h1" .OK 1], [temperature "h1" .OK 2], [temperature "h2" .TAMPERED 3]] := by
  let := Crypto.checksums
  have hkeys : ∀ r ∈ [[temperature "h1" .OK 1], [temperature "h1" .OK 2],
      [temperature "h2" .TAMPERED 3]].flatten, (key r).isOk = true := by
    decide +kernel
  have hnew : ∀ q ∈ [temperature "h1" .OK 1, temperature "h1" .OK 2],
      q.untimed ≠ (temperature "h2" .TAMPERED 3).untimed ∧
        ¬Collide q (temperature "h2" .TAMPERED 3) := by
    have hne : ∀ q ∈ [temperature "h1" .OK 1, temperature "h1" .OK 2],
        key q ≠ key (temperature "h2" .TAMPERED 3) := by
      decide +kernel
    intro q hq
    obtain ⟨k, hk⟩ := exists_of_isOk (hkeys (temperature "h2" .TAMPERED 3) (by simp))
    rw [Ne, ← not_or, ← key_eq_iff hk, ← hk]
    exact hne q hq
  have hone : ∀ {x r : IntegrityRecord} {before later},
      [x] = before ++ r :: later → before = [] ∧ x = r := by
    intro x r before later h
    cases before with
    | nil => exact ⟨rfl, (List.cons.inj h).1⟩
    | cons q before => simp at h
  refine (forwards_iff (by simp [Distinct])).mpr ⟨fun r hr => exists_of_isOk (hkeys r hr), ?_⟩
  intro done last before r later rest heq p hp hslot hdiffers
  rcases done with _ | ⟨first, _ | ⟨second, done⟩⟩ <;>
    simp only [List.nil_append, List.cons_append, List.cons.injEq] at heq
  · obtain ⟨rfl, heq, -⟩ := heq
    obtain ⟨-, rfl⟩ := hone heq
    obtain rfl := List.mem_singleton.mp hp
    exact absurd hdiffers (by simp [IntegrityRecord.Differs, temperature])
  · obtain ⟨rfl, rfl, heq, -⟩ := heq
    obtain ⟨rfl, rfl⟩ := hone heq
    exact hnew
  · cases done <;> simp at heq

omit [Crypto] in
/-- The value is altered, repaired, and altered again in the same way. -/
theorem second_alteration_suppressed :
    letI := Crypto.checksums
    let altered := temperature "h2" .TAMPERED
    let batches := [[altered 1], [temperature "h1" .OK 2], [altered 3]]
    ((filterNew [altered 1] {}).1 = .ok [altered 1] ∧
      (filterNew [temperature "h1" .OK 2] (after {} [[altered 1]])).1 = .ok [temperature "h1" .OK 2] ∧
      (filterNew [altered 3] (after {} [[altered 1], [temperature "h1" .OK 2]])).1 = .ok []) ∧
    Distinct batches ∧ ¬Forwards batches := by
  let := Crypto.checksums
  intro altered batches
  have hkeys : (key (altered 1)).isOk = true ∧ (key (temperature "h1" .OK 2)).isOk = true ∧
      key (altered 1) ≠ key (temperature "h1" .OK 2) := by
    decide +kernel
  obtain ⟨k, hk⟩ := exists_of_isOk hkeys.1
  obtain ⟨k', hk'⟩ := exists_of_isOk hkeys.2.1
  have hne : k' ≠ k := fun heq => hkeys.2.2 (by rw [hk, hk', heq])
  -- the two alterations have one key
  have hagain : key (altered 3) = .ok k := hk
  have hfirst : filterNew [altered 1] {} = (.ok [altered 1], ⟨[k]⟩) := by
    rw [filterNew_cons hk, if_neg List.not_mem_nil]
    rfl
  have hsecond : filterNew [temperature "h1" .OK 2] ⟨[k]⟩ =
      (.ok [temperature "h1" .OK 2], ⟨[k, k']⟩) := by
    rw [filterNew_cons hk', if_neg (by simp [hne])]
    rfl
  have hthird : filterNew [altered 3] ⟨[k, k']⟩ = (.ok [], ⟨[k, k']⟩) := by
    rw [filterNew_cons hagain, if_pos List.mem_cons_self]
    rfl
  have hlast : (filterNew [altered 3] (after {} [[altered 1], [temperature "h1" .OK 2]])).1 = .ok [] := by
    simp only [after, List.foldl_cons, List.foldl_nil, hfirst, hsecond, hthird]
  refine ⟨⟨by rw [hfirst], ?_, hlast⟩, by simp [Distinct, batches], ?_⟩
  · simp only [after, List.foldl_cons, List.foldl_nil, hfirst, hsecond]
  · rintro ⟨-, hforwards⟩
    have hreported := hforwards [[altered 1]] [temperature "h1" .OK 2] [altered 3] [] [] rfl hlast _
      List.mem_cons_self _ List.mem_cons_self rfl
    exact absurd (hreported.mpr (.inr (by decide))) List.not_mem_nil

end RecordDeduper

end Helix

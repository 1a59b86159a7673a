import Helix.Consensus.History
import Helix.Consensus.Schedule

/-!
# Agreement over rounds

A block is *safe* in a round when every earlier round is blocked for every other block: a quorum has
left it without a COMMIT for that block. Correct validators PREPARE safe blocks, except that a
proposer PREPAREs its own proposal unchecked; a quorum of PREPAREs always has a correct member that
is not the proposer, unless there is only one validator. So what is decided in one round is decided in
every round.

All this rests on the round-change discipline: a validator that has left a round no longer sends a
COMMIT for it. The engine does not keep to it by itself, so agreement is proved for the runs in which
every call prepares ahead of the announced rounds.
-/

namespace Helix

variable [Crypto]

open Relation (ReflTransGen)
open Voting (CommitQuorum Safe Blocked Reports)

namespace Network

variable {net : Network} {w w' W W' : World} {k : PublicKey} {m : ConsensusMessage} {c : Call}
  {s s' : Frame} {r : ℤ} {h : PyStr}

/-! ### What was sent, as a record of votes -/

/-- The votes that were sent and the rounds that were left; no round is below 0. -/
def history (W : World) : Voting.Record PublicKey ℤ PyStr where
  prepared k r h := ∃ m ∈ (W k).sent, m.type = .PREPARE ∧ m.round = r ∧ m.blockHash = h
  committed k r h := ∃ m ∈ (W k).sent, m.type = .COMMIT ∧ m.round = r ∧ m.blockHash = h
  left k r := r < 0 ∨ ∃ m ∈ (W k).sent, m.type = .ROUND_CHANGE ∧ r < m.round

variable (net W) in
/-- The correct members of a quorum have sent a COMMIT for `(r, h)`. -/
def Committed (r : ℤ) (h : PyStr) : Prop :=
  CommitQuorum net.validators.members net.validators.maxFaulty net.Correct (history W) r h

variable (net W) in
/-- Every round before `r` is blocked for every block other than `h`. -/
def SafeBlock (r : ℤ) (h : PyStr) : Prop :=
  Safe net.validators.members net.validators.maxFaulty net.Correct (history W) r h

/-- The network has gone on, and no correct validator has sent a COMMIT for a round that it had
left. -/
structure Grows (net : Network) (W W' : World) : Prop where
  sent : ∀ k, (W k).sent ⊆ (W' k).sent
  commits : ∀ k, net.Correct k → ∀ m ∈ (W' k).sent, m.type = .COMMIT →
    m ∈ (W k).sent ∨ ¬(history W).left k m.round

omit [Crypto] in
lemma Prepared.grow (hp : net.Prepared (history W) r h) (hW : net.Grows W W') :
    net.Prepared (history W') r h := by
  obtain ⟨Q, hQ, hprep⟩ := hp
  refine ⟨Q, hQ, fun k hk hc => ?_⟩
  obtain ⟨m, hm, hrest⟩ := hprep k hk hc
  exact ⟨m, hW.sent k hm, hrest⟩

omit [Crypto] in
lemma Committed.grow (hp : net.Committed W r h) (hW : net.Grows W W') : net.Committed W' r h := by
  obtain ⟨Q, hQ, hcom⟩ := hp
  refine ⟨Q, hQ, fun k hk hc => ?_⟩
  obtain ⟨m, hm, hrest⟩ := hcom k hk hc
  exact ⟨m, hW.sent k hm, hrest⟩

omit [Crypto] in
/-- What is blocked stays blocked. -/
lemma SafeBlock.grow (hs : net.SafeBlock W r h) (hW : net.Grows W W') :
    net.SafeBlock W' r h := by
  intro r' hr' h' hne
  obtain ⟨Q, hQ, hblocked⟩ := hs r' hr' h' hne
  refine ⟨Q, hQ, fun k hk hc => ?_⟩
  obtain ⟨hleft, hnot⟩ := hblocked k hk hc
  refine ⟨?_, ?_⟩
  · refine hleft.imp_right fun ⟨m, hm, hrest⟩ => ?_
    exact ⟨m, hW.sent k hm, hrest⟩
  · rintro ⟨m, hm, ht, rfl, hh⟩
    rcases hW.commits k hc m hm ht with hm | hno
    · exact hnot ⟨m, hm, ht, rfl, hh⟩
    · exact hno hleft

/-! ### The invariant -/

variable (net W) in
/-- A correct validator among the others. -/
structure Member (k : PublicKey) (v : Validator) : Prop extends net.Supplied W k v where
  orderly : Orderly v
  lock : LockVerifies v.engine
  entries : net.validators.size = 1 → StoresEntries v.engine
  commits : ∀ m ∈ v.sent, m.type = .COMMIT → net.Prepared (history W) m.round m.blockHash
  decided : ∀ b ∈ v.decided, ∃ r h, b.hash = .ok h ∧ net.Committed W r h
  justified : ∀ m ∈ v.sent, m.type = .PREPARE → net.SafeBlock W m.round m.blockHash ∨
    k = net.validators.proposer net.height m.round ∧ 2 ≤ net.validators.size

lemma Member.grow {v : Validator} (hv : net.Member W k v) (hW : net.Grows W W')
    (hext : Extends W W') : net.Member W' k v :=
  { hv.toSupplied.mono hext, hv with
    commits := fun m hm ht => (hv.commits m hm ht).grow hW
    decided := fun b hb => by
      obtain ⟨r, h, hh, hc⟩ := hv.decided b hb
      exact ⟨r, h, hh, hc.grow hW⟩
    justified := fun m hm ht => (hv.justified m hm ht).imp_left fun hs => hs.grow hW }

variable (net) in
/-- The invariant of a disciplined run. -/
def Disciplined (W : World) : Prop := ∀ k, net.Correct k → net.Member W k (W k)

namespace Disciplined

/-- Messages of the network are evidence of what was sent. -/
lemma vouches (hW : net.Disciplined W) : net.Vouches (net.Trusted W) (history W) where
  spells m hm := hm.named m .self
  prepared k r m hk hm hatt := by
    obtain ⟨m', hm', ht, hr, hh, -⟩ := hm.deliverable.exists_sent hk (hW k hk).lost hatt
    exact ⟨m', hm', ht, hr, hh⟩

/-- A correct validator PREPAREs one block a round. -/
lemma prepares_once (hW : net.Disciplined W) (k : PublicKey) (r : ℤ) (h h' : PyStr)
    (hk : net.Correct k) (hp : (history W).prepared k r h) (hp' : (history W).prepared k r h') :
    h = h' := by
  obtain ⟨m, hm, ht, rfl, rfl⟩ := hp
  obtain ⟨m', hm', ht', hr, rfl⟩ := hp'
  exact (hW k hk).orderly.once m hm m' hm' ht ht' hr.symm

/-- A COMMIT rests on a quorum of PREPAREs. -/
lemma prepared_of_committed (hW : net.Disciplined W) (k : PublicKey) (r : ℤ) (h : PyStr)
    (hk : net.Correct k) (hp : (history W).committed k r h) : net.Prepared (history W) r h := by
  obtain ⟨m, hm, ht, rfl, rfl⟩ := hp
  exact (hW k hk).commits m hm ht

/-- A quorum of PREPAREs has a member that has checked the proposal. -/
lemma safe_of_prepared (hW : net.Disciplined W) (hp : net.Prepared (history W) r h) :
    net.SafeBlock W r h := by
  obtain ⟨Q, hQ, hprep⟩ := hp
  have hf := net.validators.three_mul_maxFaulty_lt
  by_cases hsize : 2 ≤ net.validators.size
  · obtain ⟨k, hk, hc, hne⟩ := hQ.exists_correct_ne hf
      (net.validators.card_members.symm ▸ hsize) net.card_faulty_le
      (net.validators.proposer net.height r)
    obtain ⟨m, hm, ht, rfl, rfl⟩ := hprep k hk hc
    exact ((hW k hc).justified m hm ht).resolve_right fun h => hne h.1
  · obtain ⟨k, hk, -, hc⟩ := hQ.exists_correct_inter hf net.card_faulty_le hQ
    obtain ⟨m, hm, ht, rfl, rfl⟩ := hprep k hk hc
    exact ((hW k hc).justified m hm ht).resolve_right fun h => hsize h.2

lemma round_nonneg (hW : net.Disciplined W) (hp : net.Prepared (history W) r h) : 0 ≤ r := by
  obtain ⟨Q, hQ, hprep⟩ := hp
  obtain ⟨k, hk, -, hc⟩ := hQ.exists_correct_inter net.validators.three_mul_maxFaulty_lt
    net.card_faulty_le hQ
  obtain ⟨m, hm, ht, rfl, -⟩ := hprep k hk hc
  exact (hW k hc).orderly.votes m hm (Or.inl ht)

/-- In the first round every block is safe. -/
lemma safe_zero (hW : net.Disciplined W) (h : PyStr) : net.SafeBlock W 0 h := by
  intro r' hr' h' _
  have hquorum : net.validators.quorum ≤ net.validators.members.card := by
    rw [net.validators.card_members, ValidatorSet.quorum]
    exact Nat.sub_le _ _
  refine ⟨net.validators.members, ValidatorSet.isQuorum
    (fun k hk => (net.validators.mem_members k).mp hk) hquorum, fun k hk hc => ⟨Or.inl hr', ?_⟩⟩
  rintro ⟨m, hm, ht, rfl, -⟩
  exact absurd ((hW k hc).orderly.votes m hm (Or.inr ht)) (not_le.mpr hr')

/-- The reports of a certificate that passes. -/
lemma reports (hW : net.Disciplined W) {cert : List ConsensusMessage} {target : ℤ}
    {valid : Dict PyStr ConsensusMessage} (hcert : ∀ m ∈ cert, net.Trusted W m)
    (hvalid : validRoundChanges net.validators net.height cert target = .ok valid)
    (hq : net.validators.quorum ≤ valid.len) :
    ∃ Q, Reports net.validators.members net.validators.maxFaulty net.Correct (history W) target Q
        (fun k => (valid.get? k.toHex).bind (·.preparedRound)) ∧
      ∀ k ∈ Q, ∃ m ∈ valid.values, valid.get? k.toHex = some m := by
  have hspec := validRoundChanges_spec hvalid
  obtain ⟨Q, hcard, hQ⟩ := Spelling.canonical.exists_keys valid.keys_nodup (fun s hs => by
    obtain ⟨m, hm⟩ := Dict.mem_keys.mp hs
    obtain ⟨hmem, hentry⟩ := hspec _ hm
    exact hentry.sender ▸ Spelling.sender_eq (hW.vouches.spells m (hcert m hmem)) hentry.authentic)
  have hentry : ∀ k ∈ Q, ∃ m ∈ cert, (k.toHex, m) ∈ valid.items ∧
      RoundChangeEntry net.validators net.height target (k.toHex, m) := by
    intro k hk
    obtain ⟨m, hm⟩ := Dict.mem_keys.mp ((hQ k).mp hk).2
    exact ⟨m, (hspec _ hm).1, hm, (hspec _ hm).2⟩
  -- the ROUND_CHANGE that a correct reporter has sent claims the same lock
  have hsent : ∀ k ∈ Q, net.Correct k → ∃ m' ∈ (W k).sent, m'.type = .ROUND_CHANGE ∧
      m'.round = target ∧ m'.preparedRound = (valid.get? k.toHex).bind (·.preparedRound) := by
    intro k hk hc
    obtain ⟨m, hmem, hitem, he⟩ := hentry k hk
    obtain ⟨-, -, -, hsig⟩ := authentic_eq_true.mp he.authentic
    have hatt : Attests net.validators .ROUND_CHANGE net.height target k m :=
      ⟨he.type, he.height, he.round, Spelling.canonical.fromHex_of_eq he.sender, hc.1, hsig⟩
    obtain ⟨m', hm', ht, hr, -, hlock⟩ := (hcert m hmem).deliverable.exists_sent hc (hW k hc).lost hatt
    refine ⟨m', hm', ht, hr, ?_⟩
    rw [hlock rfl, Dict.get?_eq_some.mpr hitem]
    rfl
  refine ⟨Q, ⟨ValidatorSet.isQuorum (fun k hk => ((hQ k).mp hk).1)
    (hq.trans (valid.length_keys ▸ hcard)), fun k hk hc r' hr' => ?_, fun k hk hc r' hr' h hcom => ?_⟩,
    fun k hk => ?_⟩
  · obtain ⟨m', hm', ht, hr, -⟩ := hsent k hk hc
    exact Or.inr ⟨m', hm', ht, hr.symm ▸ hr'⟩
  · obtain ⟨m', hm', ht, hr, hlock⟩ := hsent k hk hc
    obtain ⟨b, hb, hbt, rfl, -⟩ := hcom
    obtain ⟨p, hp, hle⟩ := (hW k hc).orderly.reports m' hm' ht b hb hbt (hr.symm ▸ hr')
    exact ⟨p, hlock ▸ hp, hle⟩
  · obtain ⟨m, -, hitem, -⟩ := hentry k hk
    exact ⟨m, Dict.mem_values.mpr ⟨_, hitem⟩, Dict.get?_eq_some.mpr hitem⟩

/-- What a certificate justifies is safe: the block of the highest lock, or any block if no lock is
claimed. -/
lemma safe_of_cert (hW : net.Disciplined W) {cert : List ConsensusMessage} {target : ℤ}
    {justified : Option PyStr} (hcert : ∀ m ∈ cert, net.Trusted W m)
    (hv : verifyRoundChangeCert net.validators net.height cert target = .ok (true, justified))
    (hj : ∀ j ∈ justified, j = h) : net.SafeBlock W target h := by
  obtain ⟨valid, hvalid, hq, rfl⟩ := verifyRoundChangeCert_eq_true hv
  obtain ⟨Q, hrep, hQ⟩ := hW.reports hcert hvalid hq
  have hspec := validRoundChanges_spec hvalid
  -- a claimed lock is backed by its certificate
  have hlock : ∀ m ∈ valid.values, ∀ p ∈ m.preparedRound,
      net.Prepared (history W) p m.blockHash := by
    intro m hm p hp
    obtain ⟨x, hx⟩ := Dict.mem_values.mp hm
    obtain ⟨hmem, hentry⟩ := hspec _ hx
    have hcheck := hentry.valid
    rw [validRoundChange, hp] at hcheck
    exact .of_verifyPrepares hW.vouches (fun q hq => (hcert m hmem).preparedCert hq) hcheck
  have hclaim : ∀ k ∈ Q, ∀ p, (valid.get? k.toHex).bind (·.preparedRound) = some p →
      ∃ m ∈ valid.values, m.preparedRound = some p := by
    intro k hk p hp
    obtain ⟨m, hm, hget⟩ := hQ k hk
    rw [hget] at hp
    exact ⟨m, hm, hp⟩
  obtain ⟨hle, hbest⟩ := highestLock_spec valid.values
  rcases hbest with hnone | ⟨m, hm, hp, hhash⟩
  · refine Safe.of_reports_none hrep (fun k hk hc => ?_) h
    by_contra hsome
    obtain ⟨p, hp⟩ := Option.ne_none_iff_exists'.mp hsome
    obtain ⟨m, hm, hmp⟩ := hclaim k hk p hp
    have hnonneg := hW.round_nonneg (hlock m hm p hmp)
    have hneg := hle m hm p hmp
    rw [hnone] at hneg
    omega
  · have hm' := hlock m hm _ hp
    rw [hj _ hhash] at hm'
    refine Safe.of_reports net.validators.three_mul_maxFaulty_lt net.card_faulty_le
      hW.prepares_once hW.prepared_of_committed hrep (fun k hk hc p hp' => ?_) hm'
      (hW.safe_of_prepared hm')
    obtain ⟨m', hmem', hmp⟩ := hclaim k hk p hp'
    exact hle m' hmem' p hmp

/-- A correct validator accepts a safe block, or its own. -/
lemma safe_of_origin (hW : net.Disciplined (mid w k c s)) (hk : net.Correct k)
    (hw : net.Supplied w k (w k)) (hc : ∀ m ∈ c.messages, net.Trusted w m)
    {block : Block} {pre : List ConsensusMessage}
    (horigin : c.Origin (w k).engine s.engine block pre) (hh : block.hash = .ok h) :
    net.SafeBlock (mid w k c s) s.engine.round h ∨
      k = net.validators.proposer net.height s.engine.round ∧ 2 ≤ net.validators.size := by
  have hmember := hW k hk
  rw [mid_self] at hmember
  cases horigin with
  | own hp hh' hm =>
    by_cases hsize : 2 ≤ net.validators.size
    · refine Or.inr ⟨?_, hsize⟩
      rw [← hw.me, ← hw.validators, ← hw.height]
      cases hp with
      | fresh _ _ hr _ hme => exact hr ▸ hme
      | change _ _ hme => exact hme
    · have hone : net.validators.size = 1 := by
        have := net.validators.size_pos
        omega
      refine Or.inl ?_
      cases hp with
      | fresh _ hround hr =>
        rw [hr, hround]
        exact hW.safe_zero h
      | change hch hr hme hquorum hcert hblock =>
        rename_i verdict
        have hdeliver : ∀ m ∈ (s.engine.roundChanges.getD s.engine.round).values,
            net.Trusted (mid w k c s) m := by
          intro m hm
          obtain ⟨x, hx⟩ := Dict.mem_values.mp hm
          exact hmember.roundChanges _ _ hx
        have hne : (s.engine.roundChanges.getD s.engine.round).keys ≠ [] := by
          intro hnil
          rw [← Dict.length_keys, hnil] at hquorum
          exact absurd hquorum (not_le.mpr (ValidatorSet.quorum_pos _))
        obtain ⟨x, hx⟩ := List.exists_mem_of_ne_nil _ hne
        obtain ⟨m, hm⟩ := Dict.mem_keys.mp hx
        have hentry := hmember.entries hone _ _ hm
        rw [hw.validators, hw.height] at hcert
        have hpass : verdict.1 = true := by
          refine verifyRoundChangeCert_of_single hone hcert (Dict.mem_values.mpr ⟨x, hm⟩) ?_
          rw [hentry.sender, ← hmember.validators, ← hmember.height]
          exact hentry
        have hverdict : verdict = (true, verdict.2) := Prod.ext hpass rfl
        rw [hverdict] at hcert
        refine hW.safe_of_cert hdeliver hcert fun j hj => ?_
        rcases hblock with ⟨j', hj', hlocked⟩ | ⟨hnone, -⟩
        · rw [hj'] at hj
          cases hj
          exact Except.ok.inj ((hash_of_lockedBlockFromCert hlocked).symm.trans hh)
        · rw [hnone] at hj
          cases hj
  | peer hm =>
    rename_i m
    refine Or.inl ?_
    have hhash : m.blockHash = h := Except.ok.inj (hm.hash.symm.trans hh)
    rcases hmember.orderly.round.eq_or_lt with hzero | hpos
    · have hzero : s.engine.round = 0 := hzero.symm
      rw [hzero]
      exact hW.safe_zero h
    · obtain ⟨justified, hcert, hj⟩ := hm.justified hpos
      rw [hw.validators, hw.height] at hcert
      rw [← hm.round]
      refine hW.safe_of_cert (fun q hq => ?_) hcert fun j hj' => (hj j hj').trans hhash
      have hmem : m ∈ c.messages := by
        rw [hm.handles.eq]
        exact List.mem_cons_self
      exact ((hc m hmem).roundChangeCert hq).mono extends_mid

/-- A single validator is handed no PRE_PREPARE for a later round. -/
lemma not_enters (hw : net.Disciplined w) (hk : net.Correct k)
    (hc : ∀ m ∈ c.messages, net.Trusted w m) (hone : net.validators.size = 1)
    (m : ConsensusMessage) : ¬c.Enters (w k).engine m := by
  intro hm
  have hmember := hw k hk
  have hmem : m ∈ c.messages := by
    rw [hm.handles.eq]
    exact List.mem_cons_self
  have hacc := hm.handles.accepted
  obtain ⟨k', hkey, hval, hsig⟩ := authentic_eq_true.mp hacc.authentic
  rw [hmember.validators] at hval
  obtain rfl : k' = k := by
    obtain ⟨a, ha⟩ := List.length_eq_one_iff.mp hone
    have hk' := hk.1
    rw [ha, List.mem_singleton] at hval hk'
    rw [hval, hk']
  have hatt : Attests net.validators .PRE_PREPARE net.height m.round k' m :=
    ⟨hm.handles.type, hacc.height.trans hmember.height, rfl, hkey, hval, hsig⟩
  obtain ⟨m', hm', ht, hr, -⟩ := (hc m hmem).deliverable.exists_sent hk hmember.lost hatt
  have hle := hmember.orderly.proposals m' hm' ht
  rw [hr] at hle
  exact absurd hm.round hle.not_gt

/-- A disciplined move sends no COMMIT for a round that was left. -/
lemma grows_mid (hW : net.Disciplined (mid w k c s)) (hk : net.Correct k)
    (hahead : PreparesAhead (w k).engine c) (hs : Reached (w k).engine c s)
    (hmove : Move (w k).engine c s s') : net.Grows (mid w k c s) (mid w k c s') := by
  have hmember := hW k hk
  rw [mid_self] at hmember
  refine ⟨fun k' => ?_, fun k' hk' m hm ht => ?_⟩
  · by_cases heq : k' = k
    · subst heq
      rw [mid_self, mid_self]
      exact List.append_subset.mpr ⟨List.subset_append_left _ _,
        List.Subset.trans hmove.broadcast_subset (List.subset_append_right _ _)⟩
    · rw [mid_of_ne heq, mid_of_ne heq]
      exact List.Subset.refl _
  · by_cases heq : k' = k
    · subst heq
      rw [mid_self] at hm ⊢
      rcases List.mem_append.mp hm with hm | hm
      · exact Or.inl (List.mem_append_left _ hm)
      · refine (hmove.commit_cases hm ht).imp (List.mem_append_right _) ?_
        rintro ⟨hlocks, hround⟩ (hneg | ⟨a, ha, hat, hlt⟩)
        · exact absurd hneg (not_lt.mpr (hround ▸ hmember.orderly.round))
        · rw [mid_self] at ha
          have hle := hs.announced_le hahead hlocks (hmember.orderly.changes a ha hat)
          exact absurd (hround ▸ hlt) hle.not_gt
    · rw [mid_of_ne heq] at hm ⊢
      exact Or.inl hm

/-- A quorum of seals is a quorum of COMMITs. -/
lemma committed_of_tallied (hW : net.Disciplined W) {e : ConsensusEngine}
    (he : Tallied (net.Trusted W) e) (hvals : e.validators = net.validators)
    (hheight : e.height = net.height) (hq : e.validators.quorum ≤ (e.commits.getD h).len) :
    net.Committed W e.round h := by
  obtain ⟨Q, hcard, hQ, hsigned⟩ := he.exists_committers .canonical
    (fun m _ => hW.vouches.spells m) hq
  rw [hvals] at hcard hQ hsigned
  refine ⟨Q, ValidatorSet.isQuorum (fun k hk => ((hQ k).mp hk).1) hcard, fun k hk hc => ?_⟩
  obtain ⟨m, hm, hatt, hhash⟩ := hsigned k hk
  rw [hheight] at hatt
  obtain ⟨m', hm', ht, hr, hh, -⟩ := hm.deliverable.exists_sent hc (hW k hc).lost hatt
  exact ⟨m', hm', ht, hr, hh.trans hhash⟩

lemma member_move (hw : net.Disciplined w) (hk : net.Correct k)
    (hc : ∀ m ∈ c.messages, net.Trusted w m) (hahead : PreparesAhead (w k).engine c)
    (hs : Reached (w k).engine c s) (hW : net.Disciplined (mid w k c s))
    (hmove : Move (w k).engine c s s') :
    net.Member (mid w k c s') k ((w k).during c s') := by
  have hstart := hw k hk
  have hmember := hW k hk
  rw [mid_self] at hmember
  have hgrows := hW.grows_mid hk hahead hs hmove
  refine { hstart.toSupplied.move hc hs hmember.toSupplied hmove with
    orderly := hstart.orderly.during hahead (hs.tail hmove)
    lock := hmember.lock.move hmember.tallied hmove
    entries := fun hone => ?_
    commits := fun m hm ht => ?_
    decided := fun b hb => ?_
    justified := fun m hm ht => ?_ }
  · have hcert : c.CertifiesChanges (w k).engine := fun p hp => absurd hp (hw.not_enters hk hc hone p)
    exact (hmember.entries hone).move hs hcert hstart.tallied.me hmember.lock hmove
  · refine Prepared.grow ?_ hgrows
    rcases List.mem_append.mp hm with hm | hm
    · exact hmember.commits m (List.mem_append_left _ hm) ht
    · rcases hmove.commit_cases hm ht with hm | ⟨hlocks, hround⟩
      · exact hmember.commits m (List.mem_append_right _ hm) ht
      · rw [hround]
        exact Prepared.of_tallied hW.vouches hmember.tallied hmember.validators hmember.height
          hlocks.quorum
  · have hold : b ∈ (w k).decided ++ s.result.committed.toList →
        ∃ r h, b.hash = .ok h ∧ net.Committed (mid w k c s') r h := by
      intro hb
      obtain ⟨r, h, hh, hcom⟩ := hmember.decided b hb
      exact ⟨r, h, hh, hcom.grow hgrows⟩
    rcases List.mem_append.mp hb with hb | hb
    · exact hold (List.mem_append_left _ hb)
    · rcases hmove.committed_cases (Option.mem_toList.mp hb) with hb | ⟨block, x, hx, hq, hseal⟩
      · exact hold (List.mem_append_right _ (Option.mem_toList.mpr hb))
      · refine ⟨s.engine.round, x, ?_, Committed.grow ?_ hgrows⟩
        · rw [Block.hash, (attachSeals_spec hseal).1]
          exact hx
        · exact hW.committed_of_tallied hmember.tallied hmember.validators hmember.height hq
  · rcases List.mem_append.mp hm with hm | hm
    · exact (hmember.justified m (List.mem_append_left _ hm) ht).imp_left fun h => h.grow hgrows
    · rcases hmove.prepare_cases hm ht with hm | ⟨block, pre, horigin, hh, hround⟩
      · exact (hmember.justified m (List.mem_append_right _ hm) ht).imp_left fun h => h.grow hgrows
      · rw [hround]
        exact (hW.safe_of_origin hk hstart.toSupplied hc horigin hh).imp_left fun h =>
          h.grow hgrows

/-- The world is disciplined at every point of a disciplined call. -/
lemma mid (hw : net.Disciplined w) (hk : net.Correct k)
    (hc : ∀ m ∈ c.messages, net.Trusted w m) (hahead : PreparesAhead (w k).engine c)
    (hs : Reached (w k).engine c s) : net.Disciplined (mid w k c s) := by
  induction hs with
  | refl =>
    have hsent : ∀ k', (Network.mid w k c ⟨(w k).engine, {}⟩ k').sent = (w k').sent := by
      intro k'
      by_cases heq : k' = k
      · subst heq
        rw [mid_self]
        exact List.append_nil _
      · rw [mid_of_ne heq]
    have hgrows : net.Grows w (Network.mid w k c ⟨(w k).engine, {}⟩) :=
      ⟨fun k' => (hsent k').symm ▸ List.Subset.refl _, fun k' _ m hm _ => Or.inl (hsent k' ▸ hm)⟩
    intro k' hk'
    by_cases heq : k' = k
    · subst heq
      have hmember := (hw k' hk').grow hgrows extends_mid
      rw [mid_self]
      have hself : ((w k').during c ⟨(w k').engine, {}⟩).sent = (w k').sent := List.append_nil _
      exact { (hw k' hk').toSupplied.during hc .refl with
        orderly := (hw k' hk').orderly.during hahead .refl
        lock := hmember.lock
        entries := hmember.entries
        commits := fun m hm => hmember.commits m (hself ▸ hm)
        decided := fun b hb => hmember.decided b (by simpa [Validator.during] using hb)
        justified := fun m hm => hmember.justified m (hself ▸ hm) }
    · rw [mid_of_ne heq]
      exact (hw k' hk').grow hgrows extends_mid
  | tail hs hmove ih =>
    intro k' hk'
    by_cases heq : k' = k
    · subst heq
      rw [mid_self]
      exact hw.member_move hk hc hahead hs ih hmove
    · have hmember := (ih k' hk').grow (ih.grows_mid hk hahead hs hmove) (extends_mid_mid hmove)
      rw [mid_of_ne heq] at hmember ⊢
      exact hmember

lemma of_begins (hw : net.Begins w) : net.Disciplined w := by
  intro k hk
  obtain ⟨privateKey, previousHash, nowMs, journal, -, hlock, hnew⟩ := hw.engine k hk
  obtain ⟨-, he⟩ := ConsensusEngine.new_eq_ok.mp hnew
  have hsent := hw.sent k hk
  refine { SuppliedWorld.of_begins hw k hk with
    orderly := ?_
    lock := ?_
    entries := fun _ => ?_
    commits := fun m hm => ?_
    decided := fun b hb => ?_
    justified := fun m hm => ?_ }
  · refine ⟨?_, ?_, ?_, ?_, ?_, ?_, ?_, ?_, ?_⟩ <;>
      simp [hsent, he, ConsensusEngine.initial, hlock]
  · rw [he]
    refine ⟨?_, fun hphase => ?_⟩
    · rw [ConsensusEngine.initial, hlock]
      intro p hp
      cases hp
    · cases hphase
  · rw [he]
    intro t p hp
    cases hp
  · rw [hsent] at hm
    cases hm
  · rw [hw.decided k hk] at hb
    cases hb
  · rw [hsent] at hm
    cases hm

lemma run (hw : net.Begins w)
    (hrun : ReflTransGen (net.CallStep fun w e c => net.Admits w e c ∧ PreparesAhead e c) w w') :
    net.Disciplined w' := by
  induction hrun with
  | refl => exact .of_begins hw
  | tail _ hstep ih =>
    obtain ⟨hk, hc, hahead⟩ := hstep
    exact ih.mid hk hc.trusted hahead (Call.run_moves _ _)

end Disciplined

/-- In a run whose calls prepare ahead of every announced round, and are handed messages that name their
senders as `to_hex` writes them, correct validators decide blocks of one hash, whatever the faulty
validators send and the network delivers. -/
theorem decided_once {w₀ : World} (hstart : net.Begins w₀)
    (hrun : ReflTransGen (net.CallStep fun w e c => net.Admits w e c ∧ PreparesAhead e c) w₀ w)
    {k k' : PublicKey} (hk : net.Correct k) (hk' : net.Correct k') {b b' : Block}
    (hb : b ∈ (w k).decided) (hb' : b' ∈ (w k').decided) : b.hash = b'.hash := by
  have hw : net.Disciplined w := .run hstart hrun
  obtain ⟨r, h, hh, hcom⟩ := (hw k hk).decided b hb
  obtain ⟨r', h', hh', hcom'⟩ := (hw k' hk').decided b' hb'
  have heq : h = h' := Voting.agreement net.validators.three_mul_maxFaulty_lt net.card_faulty_le
    hw.prepares_once hw.prepared_of_committed (fun r h hp => hw.safe_of_prepared hp) hcom hcom'
  rw [hh, hh', heq]

/-- A schedule that passes the check keeps the discipline. -/
lemma reaches_ahead {acts : List Act} (hquorum : 2 ≤ net.validators.quorum) (hw : net.SuppliedWorld w)
    (hfair : ∀ act ∈ acts, act.fair net = true) (h : goes net keepsAhead w acts = true) :
    ReflTransGen (net.CallStep fun w e c => net.Admits w e c ∧ PreparesAhead e c) w
      (acts.foldl Act.play w) :=
  (reaches_acts (fun _ _ hvals hkeeps => preparesAhead_of_keepsAhead (hvals ▸ hquorum) hkeeps) hw hfair
    h).1

omit [Crypto] in
lemma begins_quartet : letI := Crypto.checksums
    oneFaulty.Begins (worldOfSeed .quartet quartetSeed) := by
  let := Crypto.checksums
  exact begins_worldOfSeed rfl publicKey_quartetSeed

omit [Crypto] in
lemma reaches_lockedWorld : letI := Crypto.checksums
    ReflTransGen (oneFaulty.CallStep fun w e c => oneFaulty.Admits w e c ∧ PreparesAhead e c)
      (worldOfSeed .quartet quartetSeed) lockedWorld := by
  let := Crypto.checksums
  exact reaches_ahead (by decide) (.of_begins begins_quartet) (by decide +kernel) (by decide +kernel)

omit [Crypto] in
/-- One of four validators is faulty. Two correct ones decide in different rounds, with a round change
between them, and they decide one block. -/
theorem decided_once_of_quartet :
    letI := Crypto.checksums
    let a := seedPublic 0xaa
    let c := seedPublic 0xcc
    ((lockedWorld a).engine.round, (lockedWorld c).engine.round) = (0, 1) ∧
      (lockedWorld a).decided ≠ [] ∧ (lockedWorld c).decided ≠ [] ∧
      ∀ b ∈ (lockedWorld a).decided, ∀ b' ∈ (lockedWorld c).decided, b.hash = b'.hash := by
  let := Crypto.checksums
  intro a c
  have ha : oneFaulty.Correct a := by decide +kernel
  have hc : oneFaulty.Correct c := by decide +kernel
  exact ⟨by decide +kernel, by decide +kernel, by decide +kernel,
    fun b hb b' hb' => decided_once begins_quartet reaches_lockedWorld ha hc hb hb'⟩

omit [Crypto] in
/-- Two correct validators time out in round 0 before they hear of each other's PREPAREs. The first
then still decides the block of round 0; the second decides another one in round 1. -/
theorem late_votes_split_decision :
    letI := Crypto.checksums
    let net : Network := ⟨.pair, 1, ∅, Nat.zero_le _⟩
    let a := seedPublic 0xaa
    let b := seedPublic 0xbb
    let w₀ := worldOfSeed .pair fun k => if k = a then 0xaa else 0xbb
    let turns : List Turn := [.pending b [] [⟨.ADD, []⟩], .relay b a 0, .timeout a, .timeout b,
      .relay b a 1, .relay a b 0, .relay b a 3, .relay b a 2, .relay a b 1, .relay a b 3,
      .relay a b 4, .relay b a 4, .relay a b 5]
    let w := turns.foldl Turn.play w₀
    net.Begins w₀ ∧ ReflTransGen (net.CallStep net.Admits) w₀ w ∧ net.Correct a ∧
      net.Correct b ∧ ∃ x ∈ (w a).decided, ∃ y ∈ (w b).decided, x.hash ≠ y.hash := by
  let := Crypto.checksums
  intro net a b w₀ turns w
  have hbegins : net.Begins w₀ := begins_worldOfSeed rfl (by decide +kernel)
  have ha : net.Correct a := by decide +kernel
  have hb : net.Correct b := by decide +kernel
  refine ⟨hbegins, reaches_play (.of_begins hbegins) ?_, ha, hb, by decide +kernel⟩
  decide +kernel

end Network

end Helix

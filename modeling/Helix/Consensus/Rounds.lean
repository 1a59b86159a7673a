import Helix.Consensus.History

/-!
# How rounds are entered

An engine leaves its round on a quorum of ROUND_CHANGEs, and joins the others on `f + 1` of them. It
takes ROUND_CHANGEs from the network, from itself and from the certificates that come with proposals.
The certificates are checked for a quorum of ROUND_CHANGEs, and then stored as they are: what else
they hold is not checked for its type and height, and counts as a ROUND_CHANGE afterwards.
-/

namespace Helix

variable [Crypto] {e₀ : ConsensusEngine} {c : Call} {s s' : Frame} {v v' : Validator}

/-! ### Messages at hand -/

/-- A message that the validator holds, or that came in a certificate. -/
def Validator.Sees (v : Validator) (m : ConsensusMessage) : Prop :=
  v.Holds m ∨ ∃ p ∈ v.received, m ∈ p.roundChangeCert

/-- The validator has seen ROUND_CHANGEs for round `t` of its height, signed by `n` different
validators. -/
def Validator.Asked (v : Validator) (n : ℕ) (t : ℤ) : Prop :=
  ∃ Q : Finset PublicKey, n ≤ Q.card ∧ ∀ k ∈ Q, ∃ m, v.Sees m ∧
    Attests v.engine.validators .ROUND_CHANGE v.engine.height t k m

/-- The senders of the messages handed in, also of those in certificates, are canonical. -/
def Call.Canonical (c : Call) : Prop :=
  ∀ m ∈ c.messages, Spelling.canonical.Spells m ∧
    ∀ m' ∈ m.roundChangeCert, Spelling.canonical.Spells m'

lemma Validator.sees_during (v : Validator) (hmove : Move v.engine c s s') {m : ConsensusMessage}
    (hm : (v.during c s).Sees m) : (v.during c s').Sees m :=
  hm.imp_left (v.holds_during hmove)

lemma Validator.Asked.mono {n : ℕ} {t : ℤ} (h : v.Asked n t) (hsees : ∀ m, v.Sees m → v'.Sees m)
    (hvals : v'.engine.validators = v.engine.validators)
    (hheight : v'.engine.height = v.engine.height) : v'.Asked n t := by
  obtain ⟨Q, hcard, hQ⟩ := h
  refine ⟨Q, hcard, fun k hk => ?_⟩
  obtain ⟨m, hm, hatt⟩ := hQ k hk
  rw [hvals, hheight]
  exact ⟨m, hsees m hm, hatt⟩

/-- Every stored ROUND_CHANGE was seen, under the canonical name of its sender. -/
def Validator.Collects (v : Validator) : Prop :=
  ∀ t, ∀ p ∈ (v.engine.roundChanges.getD t).items, Spelling.canonical.Spells p.2 ∧ v.Sees p.2

/-- What a call brings is at hand. -/
lemma Call.Brings.sees {m : ConsensusMessage} (hm : c.Brings v.engine m) (hc : c.Canonical)
    (s : Frame) : Spelling.canonical.Spells m ∧ (v.during c s).Sees m := by
  have hmem : ∀ {m}, c = .handle m → m ∈ c.messages := by
    rintro m rfl
    exact List.mem_cons_self
  rcases hm with ⟨hm, -⟩ | ⟨p, hp, hm⟩
  · have hin := hmem hm.eq
    exact ⟨(hc m hin).1, Or.inl (Or.inl (List.mem_append_right _ hin))⟩
  · have hin := hmem hp.handles.eq
    exact ⟨(hc p hin).2 m hm, Or.inr ⟨p, List.mem_append_right _ hin, hm⟩⟩

lemma Validator.Collects.move (h : (v.during c s).Collects)
    (hc : c.Canonical) (hmove : Move v.engine c s s') : (v.during c s').Collects := by
  have hold : ∀ t, ∀ p ∈ (s.engine.roundChanges.getD t).items,
      Spelling.canonical.Spells p.2 ∧ (v.during c s').Sees p.2 := fun t p hp =>
    (h t p hp).imp_right (v.sees_during hmove)
  cases hmove with
  | @store m hm hauth hvalid =>
    intro t p hp
    rcases Dict.mem_items_getD_setIn hp with ⟨rfl, rfl⟩ | hp
    · exact hm.sees hc _
    · exact hold t p hp
  | @leave target m hch ht hr hwhy hm =>
    intro t p hp
    rcases Dict.mem_items_getD_setIn hp with ⟨rfl, rfl⟩ | hp
    · obtain ⟨-, -, -, -, hsender, -⟩ := ConsensusEngine.roundChange_eq hm
      exact ⟨Spelling.spells_canonical hsender,
        Or.inl (Or.inr (Validator.mem_sent_leave.mpr (Or.inr rfl)))⟩
    · exact hold t p hp
  | _ => exact hold

/-- Stored ROUND_CHANGEs come from as many validators. -/
lemma Validator.Collects.asked (h : v.Collects) (hentries : StoresEntries v.engine) {n : ℕ} {t : ℤ}
    (hn : n ≤ (v.engine.roundChanges.getD t).len) : v.Asked n t := by
  obtain ⟨Q, hcard, hQ⟩ := exists_signers_of_entries .canonical (G := v.Sees) fun p hp =>
    ⟨hentries t p hp, h t p hp⟩
  exact ⟨Q, hn.trans hcard, hQ⟩

/-! ### The lock in the journal -/

/-- The locks of the engine's height in its journal carry certificates that pass. -/
def RowsVerify (e : ConsensusEngine) : Prop :=
  ∀ r block cert, ⟨e.height, r, .prepared block cert⟩ ∈ e.journal.table →
    ∃ h, block.hash = .ok h ∧ verifyPrepares e.validators e.height cert r h = .ok true

lemma RowsVerify.move {G : ConsensusMessage → Prop} (h : RowsVerify s.engine)
    (ht : Tallied G s.engine) (hmove : Move e₀ c s s') : RowsVerify s'.engine := by
  cases hmove with
  | accept => exact fun r block cert hmem => h r block cert (VoteJournal.mem_table_recordVote hmem rfl)
  | prepare hopen hphase hblock hh hquorum hprior hm =>
    intro r block cert hmem
    rcases VoteJournal.mem_table_recordPrepared (VoteJournal.mem_table_recordVote hmem rfl) with
      hmem | heq
    · exact h r block cert hmem
    · cases heq
      exact ⟨_, hh, ht.verifyPrepares hquorum⟩
  | _ => exact h

/-- A crash leaves rows of the call that it falls into. -/
lemma RowsVerify.crash (h : RowsVerify (v.call c).engine) {table : List WalRow}
    (hafter : table <+: (v.call c).engine.journal.table) (lost : List ConsensusMessage)
    (nowMs : ℕ → ℤ) : RowsVerify (v.reboot c lost nowMs table).engine := by
  intro r block cert hmem
  have hsince := v.since_call c
  have hmem' : ⟨(v.call c).engine.height, r, .prepared block cert⟩ ∈
      (v.call c).engine.journal.table := hsince.height.symm ▸ hafter.subset hmem
  obtain ⟨x, hx, hverified⟩ := h r block cert hmem'
  rw [hsince.validators, hsince.height] at hverified
  exact ⟨x, hx, hverified⟩

/-- An engine over rows that verify restores a lock that does. -/
lemma LockVerifies.reboot {validators : ValidatorSet} {privateKey : PrivateKey} {height : ℤ}
    {previousHash : PyStr} {nowMs : ℕ → ℤ} {table : List WalRow}
    (h : RowsVerify (.initial validators privateKey height previousHash nowMs
      (.sql (.openView table height)))) :
    LockVerifies (.initial validators privateKey height previousHash nowMs
      (.sql (.openView table height))) := by
  refine ⟨fun p hp => ?_, fun hphase => by cases hphase⟩
  obtain ⟨lock, hlock, rfl⟩ := Option.map_eq_some_iff.mp hp
  obtain ⟨x, hx, hv⟩ := h lock.round lock.block lock.cert (SqlHeightView.mem_table_of_prepared hlock)
  refine ⟨lock.block, x, ?_, hx, ?_⟩
  · exact congrArg (Option.map PreparedLock.block) hlock
  · have hcert : (ConsensusEngine.initial validators privateKey height previousHash nowMs
        (.sql (.openView table height))).preparedCert = lock.cert :=
      congrArg (fun l => (Option.map PreparedLock.cert l).getD []) hlock
    rw [hcert]
    exact hv

/-! ### Runs -/

/-- What a validator stores and holds would pass the checks of the others. -/
structure Validator.Certified (v : Validator) : Prop where
  tallied : Tallied (fun _ => True) v.engine
  lock : LockVerifies v.engine
  rows : RowsVerify v.engine
  entries : StoresEntries v.engine
  collects : v.Collects

namespace Validator.Certified

/-- A validator with a new engine. -/
lemma of_initial {validators : ValidatorSet} {privateKey : PrivateKey} {height : ℤ}
    {previousHash : PyStr} {nowMs : ℕ → ℤ} {journal : VoteJournal}
    (hv : v.engine = .initial validators privateKey height previousHash nowMs journal)
    (hme : privateKey.publicKey ∈ validators.validators) (hlock : LockVerifies v.engine)
    (hrows : RowsVerify v.engine) : v.Certified := by
  have hnone : ∀ t, v.engine.roundChanges.getD t = Dict.empty := by
    rw [hv]
    exact fun t => rfl
  refine ⟨hv ▸ .initial hme _ _ _ _, hlock, hrows, fun t p hp => ?_, fun t p hp => ?_⟩
  · rw [hnone t] at hp
    cases hp
  · rw [hnone t] at hp
    cases hp

/-- In the course of a call, what is stored stays genuine, a later round was asked for by a quorum,
and a ROUND_CHANGE that no timeout asks for was asked for by `f + 1` validators. -/
lemma during (hv : v.Certified) (hc : c.Canonical) (hcert : c.CertifiesChanges v.engine)
    (hs : Reached v.engine c s) : (v.during c s).Certified ∧
      (v.engine.round < s.engine.round →
        (v.during c s).Asked v.engine.validators.quorum s.engine.round) ∧
      ∀ m ∈ s.result.broadcast, m.type = .ROUND_CHANGE →
        (c = .onTimeout ∧ m.round = v.engine.nextTarget) ∨
        (v.during c s).Asked (v.engine.validators.maxFaulty + 1) m.round := by
  induction hs with
  | refl =>
    refine ⟨⟨hv.tallied, hv.lock, hv.rows, hv.entries, fun t p hp => ?_⟩,
      fun hr => absurd hr (lt_irrefl _), fun m hm => by cases hm⟩
    refine (hv.collects t p hp).imp_right (Or.imp ?_ ?_)
    · exact Or.imp (List.mem_append_left _) (List.mem_append_left _)
    · rintro ⟨q, hq, hmem⟩
      exact ⟨q, List.mem_append_left _ hq, hmem⟩
  | @tail s s' hs hmove ih =>
    obtain ⟨ih, hentered, hjoined⟩ := ih
    have hsince := Reached.since hs
    have hcertified : (v.during c s').Certified :=
      ⟨hv.tallied.move hs ih.tallied hmove (fun _ _ => trivial) (fun _ _ _ => trivial),
        ih.lock.move ih.tallied hmove, ih.rows.move ih.tallied hmove,
        ih.entries.move hs hcert hv.tallied.me ih.lock hmove, ih.collects.move hc hmove⟩
    have hkept := Reached.since (hs.tail hmove)
    have hgrow : ∀ {n t}, (v.during c s).Asked n t → (v.during c s').Asked n t := fun h =>
      h.mono (fun m => v.sees_during hmove) (hkept.validators.trans hsince.validators.symm)
        (hkept.height.trans hsince.height.symm)
    have hasked : ∀ {n t}, n ≤ (s.engine.roundChanges.getD t).len → (v.during c s').Asked n t :=
      fun hn => hgrow (ih.collects.asked ih.entries hn)
    refine ⟨hcertified, fun hr => ?_, fun m hm ht => ?_⟩
    · cases hmove with
      | @adopt target hlt hnone hwhy =>
        rcases hwhy with ⟨-, hquorum⟩ | ⟨p, hp, rfl⟩
        · exact hasked hquorum
        · -- the certificate of the proposal asks for the round by itself
          obtain ⟨justified, hverified⟩ := hp.cert
          have hmem : p ∈ c.messages := by
            rw [hp.handles.eq]
            exact List.mem_cons_self
          obtain ⟨Q, hcard, hQ⟩ :=
            exists_signers_of_verifyRoundChangeCert .canonical (hc p hmem).2 hverified
          refine ⟨Q, hcard, fun k hk => ?_⟩
          obtain ⟨m, hm, hatt⟩ := hQ k hk
          refine ⟨m, Or.inr ⟨p, List.mem_append_right _ hmem, hm⟩, ?_⟩
          have hvals : s.engine.validators = v.engine.validators := hsince.validators
          have hheight : s.engine.height = v.engine.height := hsince.height
          show Attests s.engine.validators .ROUND_CHANGE s.engine.height p.round k m
          rw [hvals, hheight]
          exact hatt
      | _ => exact hgrow (hentered hr)
    · rcases hmove.roundChange_cases hm ht with hm | hwhy
      · exact (hjoined m hm ht).imp_right hgrow
      · exact hwhy.imp_right hasked

end Validator.Certified

lemma Validator.Certified.step (hv : v.Certified)
    (hstep : Validator.Step (fun e c => c.Canonical ∧ c.CertifiesChanges e) v v') :
    v'.Certified := by
  cases hstep with
  | call c hc => exact (hv.during hc.1 hc.2 (c.run_moves v.engine)).1
  | @crash c hc table lost nowMs hbefore hafter hlost hvotes hnew =>
    have hcall : (v.call c).Certified := (hv.during hc.1 hc.2 (c.run_moves v.engine)).1
    have hrows : RowsVerify (v.reboot c lost nowMs table).engine := hcall.rows.crash hafter lost nowMs
    exact .of_initial rfl hv.tallied.me (LockVerifies.reboot hrows) hrows

/-- In every run with calls and crashes that starts without a lock of its height, if the senders are
canonical and the genuine messages of the certificates that are ingested are ROUND_CHANGEs of the
height, then every stored entry is an authentic ROUND_CHANGE for its round with a valid lock. At
every point of a call, a later round was asked for by a quorum of different validators, and a
ROUND_CHANGE other than that of the timeout by `f + 1` of them. -/
theorem rounds_entered_with_proof {validators : ValidatorSet} {privateKey : PrivateKey}
    {height : ℤ} {previousHash : PyStr} {nowMs : ℕ → ℤ} {journal : VoteJournal}
    {e : ConsensusEngine} {v : Validator}
    (hnew : ConsensusEngine.new validators privateKey height previousHash nowMs journal = .ok e)
    (hlock : journal.prepared = none) (hrows : ∀ row ∈ journal.table, row.height ≠ height)
    (hrun : Relation.ReflTransGen
      (Validator.Step fun e c => c.Canonical ∧ c.CertifiesChanges e) { engine := e } v) :
    StoresEntries v.engine ∧
    ∀ c, c.Canonical → c.CertifiesChanges v.engine → ∀ s, Reached v.engine c s →
      StoresEntries s.engine ∧
      (v.engine.round < s.engine.round →
        (v.during c s).Asked v.engine.validators.quorum s.engine.round) ∧
      ∀ m ∈ s.result.broadcast, m.type = .ROUND_CHANGE →
        (c = .onTimeout ∧ m.round = v.engine.nextTarget) ∨
        (v.during c s).Asked (v.engine.validators.maxFaulty + 1) m.round := by
  have hv : v.Certified := by
    obtain ⟨hme, rfl⟩ := ConsensusEngine.new_eq_ok.mp hnew
    induction hrun with
    | refl =>
      refine .of_initial rfl hme (.initial hlock _ _ _ _ _) fun r block cert hmem => ?_
      exact absurd rfl (hrows _ hmem)
    | tail _ hstep ih => exact ih.step hstep
  refine ⟨hv.entries, fun c hc hcert s hs => ?_⟩
  obtain ⟨hcertified, hentered, hjoined⟩ := hv.during hc hcert hs
  exact ⟨hcertified.entries, hentered, hjoined⟩

omit [Crypto] in
/-- The first of two validators enters round 1 when the other one asks for it. -/
theorem rounds_entered_with_proof_of_pair :
    letI := Crypto.checksums
    ∃ change, ConsensusMessage.create .ROUND_CHANGE 1 1 ZERO_HASH (seedKey 0xbb) = .ok change ∧
      let v := ({ engine := .ofSeed .pair 0xaa .null } : Validator).call (.handle change)
      v.engine.round = 1 ∧ v.Asked 2 1 ∧ StoresEntries v.engine := by
  let := Crypto.checksums
  have hrun : (ConsensusMessage.create .ROUND_CHANGE 1 1 ZERO_HASH (seedKey 0xbb)).map
      (fun change =>
        (({ engine := .ofSeed .pair 0xaa .null } : Validator).call (.handle change)).engine.round) =
      .ok 1 := by
    decide +kernel
  obtain ⟨change, hcreate, hround⟩ := exists_of_map_eq_ok hrun
  obtain ⟨htype, -, -, -, hsender, -, -, -, hcert⟩ := ConsensusMessage.create_eq hcreate
  have hnew : ConsensusEngine.new .pair (seedKey 0xaa) 1 ZERO_HASH (fun i => i) .null =
      .ok (.ofSeed .pair 0xaa .null) :=
    ConsensusEngine.new_eq_ok.mpr ⟨List.mem_cons_self, rfl⟩
  have hcanonical : (Call.handle change).Canonical := by
    intro m hm
    rw [List.mem_singleton.mp hm]
    refine ⟨Spelling.spells_canonical hsender, fun m' hm' => ?_⟩
    rw [hcert] at hm'
    cases hm'
  have hcertifies : (Call.handle change).CertifiesChanges (.ofSeed .pair 0xaa .null) := by
    intro p hp
    have htype' := hp.handles.type
    cases hp.handles.eq
    rw [htype] at htype'
    cases htype'
  obtain ⟨-, hcall⟩ := rounds_entered_with_proof hnew rfl nofun .refl
  obtain ⟨hentries, hasked, -⟩ :=
    hcall (.handle change) hcanonical hcertifies _ ((Call.handle change).run_moves _)
  refine ⟨change, hcreate, hround, ?_, hentries⟩
  have hasked' := hasked (lt_of_lt_of_eq zero_lt_one hround.symm)
  rw [show ((Call.handle change).run (.ofSeed .pair 0xaa .null)).2.engine.round = 1 from hround]
    at hasked'
  exact hasked'

/-- No more validators have asked for a round than those whose ROUND_CHANGE for it was seen. -/
lemma Validator.Asked.le_card {n : ℕ} {t : ℤ} (h : v.Asked n t) {S : Finset PublicKey}
    (hS : ∀ m, v.Sees m → m.type = .ROUND_CHANGE → m.round = t →
      ∀ k, PublicKey.fromHex m.sender = .ok k → k ∈ S) : n ≤ S.card := by
  obtain ⟨Q, hcard, hQ⟩ := h
  refine hcard.trans (Finset.card_le_card fun k hk => ?_)
  obtain ⟨m, hm, hatt⟩ := hQ k hk
  exact hS m hm hatt.type hatt.round k hatt.sender

omit [Crypto] in
/-- A PREPARE for round 5 that stands in a certificate for round 1 takes the engine to round 5, for
which no other validator has asked. -/
theorem round_entered_on_prepare :
    letI := Crypto.checksums
    ∃ own change vote proposal,
      ConsensusMessage.create .ROUND_CHANGE 1 1 ZERO_HASH (seedKey 0xaa) = .ok own ∧
      ConsensusMessage.create .ROUND_CHANGE 1 1 ZERO_HASH (seedKey 0xbb) = .ok change ∧
      ConsensusMessage.create .PREPARE 1 5 ZERO_HASH (seedKey 0xbb) = .ok vote ∧
      ConsensusMessage.create .PRE_PREPARE 1 1 ZERO_HASH (seedKey 0xbb) none none []
        [own, change, vote] = .ok proposal ∧
      let v := [.onTimeout, .handle proposal, .onTimeout].foldl Validator.call
        { engine := .ofSeed .pair 0xaa .null }
      v.engine.round = 5 ∧ ¬v.Asked ValidatorSet.pair.quorum 5 ∧ ¬StoresEntries v.engine := by
  let := Crypto.checksums
  have hrun : (ConsensusMessage.create .ROUND_CHANGE 1 1 ZERO_HASH (seedKey 0xaa)).map
      (fun own => (ConsensusMessage.create .ROUND_CHANGE 1 1 ZERO_HASH (seedKey 0xbb)).map
      fun change => (ConsensusMessage.create .PREPARE 1 5 ZERO_HASH (seedKey 0xbb)).map
      fun vote => (ConsensusMessage.create .PRE_PREPARE 1 1 ZERO_HASH (seedKey 0xbb) none none []
        [own, change, vote]).map
      fun proposal =>
        let v := [.onTimeout, .handle proposal, .onTimeout].foldl Validator.call
          { engine := .ofSeed .pair 0xaa .null }
        decide (v.engine.round = 5 ∧
          (v.engine.roundChanges.getD 5).items.map (fun p => p.2.type) =
            [.PREPARE, .ROUND_CHANGE] ∧
          ∀ m ∈ v.received ++ v.sent ++ v.received.flatMap (·.roundChangeCert),
            m.type = .ROUND_CHANGE → m.round = 5 →
              PublicKey.fromHex m.sender = .ok (seedPublic 0xaa))) =
      .ok (.ok (.ok (.ok true))) := by
    decide +kernel
  obtain ⟨own, hown, hrun⟩ := exists_of_map_eq_ok hrun
  obtain ⟨change, hchange, hrun⟩ := exists_of_map_eq_ok hrun
  obtain ⟨vote, hvote, hrun⟩ := exists_of_map_eq_ok hrun
  obtain ⟨proposal, hproposal, hrun⟩ := exists_of_map_eq_ok hrun
  refine ⟨own, change, vote, proposal, hown, hchange, hvote, hproposal, ?_⟩
  intro v
  obtain ⟨hround, htypes, hsenders⟩ := of_decide_eq_true hrun
  refine ⟨hround, fun hasked => ?_, fun hentries => ?_⟩
  · have hone := hasked.le_card (S := {seedPublic 0xaa}) fun m hm ht hr k hk => ?_
    · exact absurd hone (by decide)
    · have hmem : m ∈ v.received ++ v.sent ++ v.received.flatMap (·.roundChangeCert) := by
        rcases hm with (hm | hm) | ⟨p, hp, hm⟩
        · exact List.mem_append_left _ (List.mem_append_left _ hm)
        · exact List.mem_append_left _ (List.mem_append_right _ hm)
        · exact List.mem_append_right _ (List.mem_flatMap.mpr ⟨p, hp, hm⟩)
      rw [hsenders m hmem ht hr] at hk
      exact Finset.mem_singleton.mpr (Except.ok.inj hk).symm
  · have htype : ∀ t ∈ (v.engine.roundChanges.getD 5).items.map (fun p => p.2.type),
        t = .ROUND_CHANGE := by
      intro t ht
      obtain ⟨p, hp, rfl⟩ := List.mem_map.mp ht
      exact (hentries 5 p hp).type
    rw [htypes] at htype
    exact absurd (htype .PREPARE List.mem_cons_self) (by decide)

end Helix

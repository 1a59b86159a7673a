import Helix.Consensus.RoundChanging

/-!
# What a call can hash

The blocks that an engine works with have been hashed before, and the messages it has stored have been
checked (`ConsensusEngine.Sound`). So counting a vote, accepting a proposal, adopting a round and sending
ROUND_CHANGEs do not raise.
-/

namespace Helix

variable [Crypto]

open Eff (Returns)
open Relation (ReflTransGen)

/-! ### What the engine has hashed before -/

/-- The blocks that the engine works with can be hashed, the seals it has counted can be attached, and
the messages it has stored can be checked. -/
structure ConsensusEngine.Sound (e : ConsensusEngine) : Prop where
  proposal : ∀ b ∈ e.proposal, ∃ h, b.hash = .ok h
  lock : ∀ b ∈ e.preparedBlock, ∃ h, b.hash = .ok h
  seals : ∀ h, ∀ p ∈ (e.commits.getD h).items, Attachable p
  changes : ∀ t, ∀ p ∈ (e.roundChanges.getD t).items, IsScalar p.2.blockHash
  buffer : ∀ m ∈ e.buffer, IsScalar m.blockHash
  journal : ∀ row ∈ e.journal.table, row.height = e.height → ∀ b cert, row.entry = .prepared b cert →
    ∃ h, b.hash = .ok h

namespace ConsensusEngine.Sound

variable {e : ConsensusEngine} {m : ConsensusMessage} {b : Block} {h : PyStr}

/-- A round is started. -/
lemma start (he : e.Sound) (target : ℤ) : Sound { e.startRound target with
    buffer := e.buffer.filter fun m => target < m.round } where
  proposal := fun b hb => by cases hb
  lock := he.lock
  seals := fun h p hp => by cases hp
  changes := he.changes
  buffer := fun m hm => he.buffer m (List.mem_of_mem_filter hm)
  journal := he.journal

/-- A seal is counted. -/
lemma tally (he : e.Sound) (key : PublicKey) {sender sealHex : PyStr}
    (hsender : PublicKey.fromHex sender = .ok key) {bytes : Bytes} (hseal : fromHex sealHex = .ok bytes)
    (h : PyStr) : Sound { e with commits := e.commits.setIn h sender sealHex } :=
  { he with
    seals := fun h' p hp => by
      rcases Dict.mem_items_getD_setIn hp with ⟨-, rfl⟩ | hp
      · exact ⟨⟨key, hsender⟩, bytes, hseal⟩
      · exact he.seals h' p hp }

/-- A message is stored. -/
lemma store (he : e.Sound) (hm : IsScalar m.blockHash) (t : ℤ) (sender : PyStr) :
    Sound { e with roundChanges := e.roundChanges.setIn t sender m } :=
  { he with
    changes := fun t' p hp => by
      rcases Dict.mem_items_getD_setIn hp with ⟨-, rfl⟩ | hp
      · exact hm
      · exact he.changes t' p hp }

/-- A ROUND_CHANGE is sent. -/
lemma leave {s : Frame} {target : ℤ} (hs : s.engine.Sound) (hm : s.engine.roundChange target = .ok m) :
    (s.leave target m).engine.Sound := by
  obtain ⟨-, -, -, -, -, -, -, -, hsig⟩ := ConsensusEngine.roundChange_eq hm
  exact { hs.store (isScalar_of_verifySignature hsig) _ _ with }

/-- A proposal is accepted. -/
lemma accept {s : Frame} (hs : s.engine.Sound) (hh : b.hash = .ok h) :
    (s.accept b h m).engine.Sound :=
  { hs with
    proposal := fun b' hb => by
      cases hb
      exact ⟨h, hh⟩
    journal := fun row hrow hheight b' cert hentry =>
      hs.journal row (VoteJournal.mem_table_recordVote hrow hentry) hheight b' cert hentry }

/-- A proposal is locked. -/
lemma prepare {s : Frame} (hs : s.engine.Sound) (hh : b.hash = .ok h)
    (hm : ConsensusMessage.create .COMMIT s.engine.height s.engine.round h s.engine.privateKey = .ok m) :
    (s.prepare b h m).engine.Sound := by
  obtain ⟨bytes, -, hseal⟩ := ConsensusMessage.create_commitSeal hm
  have hown : fromHex (m.commitSeal.getD []) = .ok (s.engine.privateKey.sign bytes) := by
    rw [hseal]
    exact fromHex_toHex _
  have htally := hs.tally s.engine.me (PublicKey.fromHex_toHex _) hown h
  refine { htally with lock := fun b' hb => ?_, journal := fun row hrow hheight b' cert hentry => ?_ }
  · cases hb
    exact ⟨h, hh⟩
  · rcases VoteJournal.mem_table_recordPrepared (VoteJournal.mem_table_recordVote hrow hentry) with
      hrow | hlock
    · exact hs.journal row hrow hheight b' cert hentry
    · rw [(Prod.mk.inj hlock).2] at hentry
      cases hentry
      exact ⟨h, hh⟩

omit [Crypto] in
/-- A proposal is sealed. -/
lemma finalize [Crypto] {s : Frame} {sealed : Block} (hs : s.engine.Sound) (hh : b.hash = .ok h)
    (hseal : attachSeals (s.engine.commits.getD h) b = .ok sealed) : (s.finalize sealed).engine.Sound := by
  have hsealed : ∀ b' ∈ some sealed, ∃ h, b'.hash = .ok h := by
    intro b' hb
    cases hb
    rw [Block.hash, (attachSeals_spec hseal).1]
    exact ⟨h, hh⟩
  exact { hs with proposal := hsealed, lock := hsealed }

end ConsensusEngine.Sound

variable {e₀ : ConsensusEngine} {c : Call} {s s' : Frame}

/-- Every move keeps the engine sound. -/
lemma Move.sound (h : Move e₀ c s s') (hs : s.engine.Sound) : s'.engine.Sound := by
  cases h with
  | keep hc hm hvote hr he =>
    refine { hs with buffer := fun m hmem => ?_ }
    rcases List.mem_append.mp hmem with hmem | hmem
    · exact hs.buffer m hmem
    · rw [List.mem_singleton.mp hmem]
      exact isScalar_of_authentic hm.authentic
  | store hm hauth hvalid => exact hs.store (isScalar_of_authentic hauth) _ _
  | leave hc ht hr hwhy hm => exact hs.leave hm
  | adopt => exact hs.start _
  | tallyCommit hm ht hr hseal =>
    obtain ⟨key, bytes, -, hkey, hbytes, -⟩ := validCommitSeal_eq_true hseal
    exact hs.tally key hkey hbytes _
  | accept horigin hphase hh hprior hm => exact ConsensusEngine.Sound.accept (s := s.send _) hs hh
  | prepare hopen hphase hblock hh hquorum hprior hm => exact hs.prepare hh hm
  | finalize hclose hphase hblock hh hquorum hseal => exact hs.finalize hh hseal
  | _ => exact { hs with }

lemma Reached.sound (hs : Reached e₀ c s) (he : e₀.Sound) : s.engine.Sound := by
  induction hs with
  | refl => exact he
  | tail _ hmove ih => exact hmove.sound ih

/-- The locks of the journal are on blocks that can be hashed. -/
structure VoteJournal.Hashable (j : VoteJournal) : Prop where
  prepared : ∀ lock ∈ j.prepared, ∃ h, lock.block.hash = .ok h
  table : ∀ row ∈ j.table, ∀ b cert, row.entry = .prepared b cert → ∃ h, b.hash = .ok h

lemma ConsensusEngine.Sound.of_journal {journal : VoteJournal} {height : ℤ}
    (hlock : ∀ lock ∈ journal.prepared, ∃ h, lock.block.hash = .ok h)
    (htable : ∀ row ∈ journal.table, row.height = height → ∀ b cert, row.entry = .prepared b cert →
      ∃ h, b.hash = .ok h) (V : ValidatorSet) (key : PrivateKey) (previousHash : PyStr) (nowMs : ℕ → ℤ) :
    (ConsensusEngine.initial V key height previousHash nowMs journal).Sound where
  proposal := fun b hb => by cases hb
  lock := fun b hb => by
    obtain ⟨lock, hmem, rfl⟩ := Option.map_eq_some_iff.mp hb
    exact hlock lock hmem
  seals := fun h p hp => by cases hp
  changes := fun t p hp => by cases hp
  buffer := fun m hm => by cases hm
  journal := htable

lemma ConsensusEngine.Sound.initial {journal : VoteJournal} (hj : journal.Hashable) (V : ValidatorSet)
    (key : PrivateKey) (height : ℤ) (previousHash : PyStr) (nowMs : ℕ → ℤ) :
    (ConsensusEngine.initial V key height previousHash nowMs journal).Sound :=
  .of_journal hj.prepared (fun row hrow _ => hj.table row hrow) V key previousHash nowMs

/-- A database restores a lock that was written to it. -/
lemma ConsensusEngine.Sound.of_openView {table : List WalRow} {height : ℤ}
    (htable : ∀ row ∈ table, row.height = height → ∀ b cert, row.entry = .prepared b cert →
      ∃ h, b.hash = .ok h) (V : ValidatorSet) (key : PrivateKey) (previousHash : PyStr) (nowMs : ℕ → ℤ) :
    (ConsensusEngine.initial V key height previousHash nowMs (.sql (.openView table height))).Sound := by
  have hlock : ∀ lock ∈ (VoteJournal.sql (.openView table height)).prepared,
      ∃ h, lock.block.hash = .ok h := fun lock hlock =>
    htable _ (SqlHeightView.mem_table_of_prepared hlock) rfl lock.block lock.cert rfl
  exact .of_journal hlock htable V key previousHash nowMs

/-- In every run, with restarts and calls that raise, the engine stays sound. -/
lemma ConsensusEngine.Sound.run {ok : ConsensusEngine → Call → Prop} {v v' : Validator}
    (hrun : ReflTransGen (Validator.Step ok) v v') (hv : v.engine.Sound) : v'.engine.Sound := by
  induction hrun with
  | refl => exact hv
  | @tail w _ _ hstep ih =>
    have hcall : ∀ c : Call, (w.call c).engine.Sound := fun c => Reached.sound (c.run_moves w.engine) ih
    cases hstep with
    | call c hc => exact hcall c
    | crash c hc hbefore hafter hlost hvotes hnew =>
      refine .of_openView (fun row hrow hheight => ?_) _ _ _ _
      exact (hcall c).journal row (hafter.subset hrow) (hheight.trans (w.since_call c).height.symm)

/-! ### Votes and proposals -/

/-- What the engine keeps while it handles votes and proposals. -/
structure ConsensusEngine.Keeps (e e' : ConsensusEngine) : Prop where
  sound : e'.Sound
  validators : e'.validators = e.validators
  privateKey : e'.privateKey = e.privateKey
  height : e'.height = e.height
  previousHash : e'.previousHash = e.previousHash
  pending : e'.pending = e.pending
  pendingChanges : e'.pendingChanges = e.pendingChanges
  roundChanges : e'.roundChanges = e.roundChanges
  round : e.round ≤ e'.round

lemma ConsensusEngine.Keeps.refl {e : ConsensusEngine} (he : e.Sound) : e.Keeps e :=
  ⟨he, rfl, rfl, rfl, rfl, rfl, rfl, rfl, le_rfl⟩

lemma ConsensusEngine.Keeps.trans {e e' e'' : ConsensusEngine} (h : e.Keeps e') (h' : e'.Keeps e'') :
    e.Keeps e'' :=
  ⟨h'.sound, h'.validators.trans h.validators, h'.privateKey.trans h.privateKey,
    h'.height.trans h.height, h'.previousHash.trans h.previousHash, h'.pending.trans h.pending,
    h'.pendingChanges.trans h.pendingChanges, h'.roundChanges.trans h.roundChanges,
    h.round.trans h'.round⟩

namespace EngineM

variable {m : ConsensusMessage} {b : Block} {h : PyStr}

lemma tryPrepare_keeps (hs : s.engine.Sound) (hb : s.engine.proposal = some b) (hh : b.hash = .ok h) :
    Returns (tryPrepare b h) s fun _ s' => s.engine.Keeps s'.engine ∧ s'.engine.proposal = some b := by
  by_cases hcond : s.engine.phase = .PRE_PREPARED ∧
      s.engine.validators.quorum ≤ (s.engine.prepares.getD h).len
  · obtain ⟨hphase, hquorum⟩ := hcond
    by_cases hprior : ∀ h' ∈ s.engine.journal.votedHash s.engine.round .COMMIT, h' = h
    · obtain ⟨m, hm⟩ := exists_create_of_hash hh .COMMIT s.engine.height s.engine.round
        s.engine.privateKey none none [] []
      exact .of_eq (tryPrepare_of_free hphase hquorum hprior hm)
        ⟨⟨hs.prepare hh hm, rfl, rfl, rfl, rfl, rfl, rfl, rfl, le_rfl⟩, hb⟩
    · push Not at hprior
      obtain ⟨h', hh', hne⟩ := hprior
      exact .of_eq (tryPrepare_of_prior hphase hquorum hh' hne) ⟨.refl hs, hb⟩
  · have hrun : tryPrepare b h s = (.ok true, s) := by
      rw [tryPrepare, self_bind, if_neg hcond]
      rfl
    exact .of_eq hrun ⟨.refl hs, hb⟩

lemma tryFinalize_keeps (hs : s.engine.Sound) (hb : s.engine.proposal = some b) (hh : b.hash = .ok h) :
    Returns (tryFinalize h) s fun _ s' => s.engine.Keeps s'.engine := by
  by_cases hcond : s.engine.phase = .PREPARED ∧
      s.engine.validators.quorum ≤ (s.engine.commits.getD h).len
  · obtain ⟨hphase, hquorum⟩ := hcond
    obtain ⟨sealed, hseal⟩ := exists_attachSeals (hs.seals h) b
    exact .of_eq (tryFinalize_of_quorum hphase hb hquorum hseal)
      ⟨hs.finalize hh hseal, rfl, rfl, rfl, rfl, rfl, rfl, rfl, le_rfl⟩
  · have hrun : tryFinalize h s = (.ok (), s) := by
      rw [tryFinalize, self_bind, if_neg hcond]
      rfl
    exact .of_eq hrun (.refl hs)

/-- A sound engine advances without raising. -/
lemma maybeAdvance_keeps (hs : s.engine.Sound) :
    Returns maybeAdvance s fun _ s' => s.engine.Keeps s'.engine := by
  cases hb : s.engine.proposal with
  | none => exact .of_eq (maybeAdvance_of_none hb) (.refl hs)
  | some b =>
    obtain ⟨h, hh⟩ := hs.proposal b hb
    have hadvance : maybeAdvance s =
        (do if ← tryPrepare b h then tryFinalize h : EngineM Unit) s := by
      rw [maybeAdvance, self_bind, hb]
      exact Eff.lift_bind_ok hh _ s
    refine Returns.congr hadvance (Returns.bind (tryPrepare_keeps hs hb hh) ?_)
    rintro ok s' ⟨hkeeps, hb'⟩
    refine Returns.ite (fun _ => ?_) fun _ => Returns.pure hkeeps
    exact (tryFinalize_keeps hkeeps.sound hb' hh).mono fun _ _ h => hkeeps.trans h

/-- What a handler does after it counted a vote. -/
lemma maybeAdvance_keeps_of (hs : s.engine.Keeps s'.engine) :
    Returns maybeAdvance s' fun _ t => s.engine.Keeps t.engine :=
  (maybeAdvance_keeps hs.sound).mono fun _ _ h => hs.trans h

lemma handlePrepare_keeps (hs : s.engine.Sound) :
    Returns (handlePrepare m) s fun _ s' => s.engine.Keeps s'.engine :=
  returns_update (maybeAdvance_keeps_of ⟨{ hs with }, rfl, rfl, rfl, rfl, rfl, rfl, rfl, le_rfl⟩)

lemma exists_validCommitSeal (hm : IsScalar m.blockHash) : ∃ ok, validCommitSeal m = .ok ok := by
  obtain ⟨bytes, hbytes⟩ := encode_ok_iff.mpr hm
  unfold validCommitSeal
  split
  · exact ⟨_, rfl⟩
  · split_ifs
    · exact ⟨_, rfl⟩
    · split
      · rw [hbytes]
        exact ⟨_, rfl⟩
      · exact ⟨_, rfl⟩

lemma handleCommit_keeps (hs : s.engine.Sound) (hm : IsScalar m.blockHash) :
    Returns (handleCommit m) s fun _ s' => s.engine.Keeps s'.engine := by
  obtain ⟨ok, hok⟩ := exists_validCommitSeal hm
  refine Returns.lift_bind hok (Returns.ite (fun htrue => ?_) fun _ => Returns.pure (.refl hs))
  rw [htrue] at hok
  obtain ⟨key, bytes, -, hkey, hbytes, -⟩ := validCommitSeal_eq_true hok
  refine returns_update (maybeAdvance_keeps_of ?_)
  exact ⟨hs.tally key hkey hbytes m.blockHash, rfl, rfl, rfl, rfl, rfl, rfl, rfl, le_rfl⟩

lemma acceptProposal_keeps (hs : s.engine.Sound) (hh : b.hash = .ok h) :
    Returns (acceptProposal b) s fun _ s' => s.engine.Keeps s'.engine := by
  by_cases hprior : ∀ h' ∈ s.engine.journal.votedHash s.engine.round .PREPARE, h' = h
  · obtain ⟨m, hm⟩ := exists_create_of_hash hh .PREPARE s.engine.height s.engine.round
      s.engine.privateKey none none [] []
    refine Returns.congr (acceptProposal_of_free hh hprior hm) (maybeAdvance_keeps_of ?_)
    exact ⟨hs.accept hh, rfl, rfl, rfl, rfl, rfl, rfl, rfl, le_rfl⟩
  · push Not at hprior
    obtain ⟨h', hh', hne⟩ := hprior
    exact .of_eq (acceptProposal_of_prior hh hh' hne) (.refl hs)

/-- The votes kept for a round are replayed. -/
lemma adoptRound_keeps (hs : s.engine.Sound) (target : ℤ) :
    Returns (adoptRound target) s fun _ s' => s.engine.Keeps s'.engine := by
  unfold adoptRound
  refine returns_self (Returns.ite (fun _ => Returns.pure (.refl hs)) fun hlt => ?_)
  have hstart : s.engine.Keeps { s.engine.startRound target with
      buffer := s.engine.buffer.filter fun m => target < m.round } :=
    ⟨hs.start target, rfl, rfl, rfl, rfl, rfl, rfl, rfl, (not_le.mp hlt).le⟩
  refine returns_update (Returns.forM (I := fun _ (s' : Frame) => s.engine.Keeps s'.engine) hstart ?_)
  intro _ m hm s' hkeeps
  have hscalar := hs.buffer m (List.mem_of_mem_filter hm)
  unfold replayVote
  split
  · exact (handlePrepare_keeps hkeeps.sound).mono fun _ _ h => hkeeps.trans h
  · exact (handleCommit_keeps hkeeps.sound hscalar).mono fun _ _ h => hkeeps.trans h
  · exact Returns.pure hkeeps

end EngineM

/-! ### Round changes -/

/-- A certificate has a verdict just if its ROUND_CHANGEs for the round can be checked. -/
lemma exists_verifyRoundChangeCert_iff {V : ValidatorSet} {height target : ℤ}
    {cert : List ConsensusMessage} :
    (∃ verdict, verifyRoundChangeCert V height cert target = .ok verdict) ↔
      ∀ m ∈ cert, m.type = .ROUND_CHANGE → m.height = height → m.round = target → m.Checkable V := by
  constructor
  · rintro ⟨verdict, hverdict⟩
    obtain ⟨valid, hvalid, -⟩ := exists_of_map_eq_ok hverdict
    refine foldlM_forall (P := fun (m : ConsensusMessage) (_ : Dict PyStr ConsensusMessage) =>
      m.type = .ROUND_CHANGE → m.height = height → m.round = target → m.Checkable V)
      (fun m _ b b' hpass ht hh hr => ?_) (fun _ _ _ _ _ _ h => h) hvalid
    rw [if_pos ⟨ht, hh, hr⟩] at hpass
    obtain ⟨ok, hok, -⟩ := exists_of_bind_eq_ok hpass
    exact ConsensusMessage.exists_authentic_iff.mp ⟨ok, hok⟩
  · intro hcert
    have hvalid : ∃ valid, validRoundChanges V height cert target = .ok valid := by
      refine exists_foldlM (fun m hm valid => ?_) Dict.empty
      split_ifs with hcond
      · obtain ⟨ok, hok⟩ :=
          ConsensusMessage.exists_authentic_iff.mpr (hcert m hm hcond.1 hcond.2.1 hcond.2.2)
        cases ok with
        | false =>
          rw [hok]
          exact ⟨_, rfl⟩
        | true =>
          obtain ⟨ok', hok'⟩ := exists_validRoundChange height hok
          simp only [hok, hok', bind, Except.bind, if_true]
          cases ok' <;> exact ⟨_, rfl⟩
      · exact ⟨_, rfl⟩
    obtain ⟨valid, hvalid⟩ := hvalid
    rw [verifyRoundChangeCert, hvalid]
    exact ⟨_, rfl⟩

namespace EngineM

/-- The own ROUND_CHANGE can be written. -/
lemma exists_roundChange_of_sound {e : ConsensusEngine} (he : e.Sound) (target : ℤ) :
    ∃ m, e.roundChange target = .ok m := by
  cases hlock : e.preparedBlock with
  | none => exact exists_roundChange hlock target
  | some b =>
    obtain ⟨h, hh⟩ := he.lock b hlock
    simp only [ConsensusEngine.roundChange, ConsensusEngine.lockHash, hlock, hh, bind, Except.bind]
    exact exists_create_of_hash hh _ _ _ _ _ _ _ _

end EngineM

/-- The parts of the engine that the checks of a proposal look at. -/
structure ConsensusEngine.SameHeight (e e' : ConsensusEngine) : Prop where
  sound : e'.Sound
  validators : e'.validators = e.validators
  height : e'.height = e.height
  previousHash : e'.previousHash = e.previousHash

namespace EngineM

variable {m : ConsensusMessage}

/-- The messages of a certificate are stored. -/
lemma ingest_sound (hs : s.engine.Sound) {cert : List ConsensusMessage}
    (hcert : ∀ q ∈ cert, q.Checkable s.engine.validators) :
    Returns (cert.forM ingestRoundChange) s fun _ s' => s.engine.SameHeight s'.engine := by
  refine Returns.forM (I := fun _ (s' : Frame) => s.engine.SameHeight s'.engine) ⟨hs, rfl, rfl, rfl⟩ ?_
  intro _ q hq s' hs'
  obtain ⟨ok, hok⟩ := ConsensusMessage.exists_authentic_iff.mpr (hcert q hq)
  rw [← hs'.validators] at hok
  unfold ingestRoundChange
  refine returns_self (Returns.lift_bind hok (Returns.ite (fun htrue => ?_) fun _ => Returns.pure hs'))
  rw [htrue] at hok
  obtain ⟨ok', hok'⟩ := exists_validRoundChange s'.engine.height hok
  refine Returns.lift_bind hok' (Returns.ite (fun _ => ?_) fun _ => Returns.pure hs')
  exact .of_eq rfl ⟨hs'.sound.store (isScalar_of_authentic hok) _ _, hs'.validators, hs'.height,
    hs'.previousHash⟩

end EngineM

end Helix

import Helix.Consensus.History
import Helix.Consensus.Schedule
import Helix.Consensus.Timing

/-!
# Proposals are accepted

The validators of one height all run the engine, and the network loses, repeats and reorders their
messages, but adds none. Then a proposal for a later round is accepted by every validator that has not yet
accepted one for that round: whoever sent it had stored a quorum of ROUND_CHANGEs that pass
(`Regular`), and the certificate made of them is evaluated by the others as it was by the sender
(`Genuine`), whatever locks it claims.
-/

namespace Helix

variable [Crypto] {V : ValidatorSet} {height : ℤ} {previousHash : PyStr} {e₀ e : ConsensusEngine}
  {c : Call} {s s' : Frame} {m : ConsensusMessage}

open Relation (ReflTransGen)
open Eff (Returns)

/-! ### Certificates -/

/-- A certificate of entries is kept as it is when it is checked. -/
lemma validRoundChanges_of_entries {t : ℤ} {l : List (PyStr × ConsensusMessage)}
    (h : ∀ p ∈ l, RoundChangeEntry V height t p) :
    validRoundChanges V height (l.map Prod.snd) t = .ok (Dict.ofList l) := by
  unfold validRoundChanges Dict.ofList
  generalize Dict.empty = d
  induction l generalizing d with
  | nil => rfl
  | cons p l ih =>
    obtain ⟨hp, hl⟩ := List.forall_mem_cons.mp h
    have hstep : ∀ valid : Dict PyStr ConsensusMessage, (do
        if ← authentic V p.2 then
          if ← validRoundChange V height p.2 then return valid.set p.2.sender p.2
          else return valid
        else return valid : Except PyError _) = .ok (valid.set p.1 p.2) := by
      intro valid
      rw [hp.authentic, hp.valid, ← hp.sender]
      rfl
    rw [List.map_cons, List.foldlM_cons, if_pos ⟨hp.type, hp.height, hp.round⟩, hstep]
    exact ih hl _

/-- A quorum of stored entries passes as a certificate, and justifies the highest lock among them. -/
lemma verifyRoundChangeCert_of_entries {t : ℤ} {d : Dict PyStr ConsensusMessage}
    (h : ∀ p ∈ d.items, RoundChangeEntry V height t p) (hquorum : V.quorum ≤ d.len) :
    verifyRoundChangeCert V height d.values t = .ok (true, (highestLock d.values).2) := by
  have hvalid := validRoundChanges_of_entries h
  rw [Dict.ofList_items] at hvalid
  rw [verifyRoundChangeCert, Dict.values, hvalid]
  simp only [Except.map, if_neg (not_lt.mpr hquorum), Dict.values]

/-! ### Messages and engines -/

/-- The rule of `_structurally_valid`, for blocks that do not come from a journal. -/
def BlockRule.placed (height : ℤ) (previousHash : PyStr) : BlockRule where
  block := (BlockRule.structural height previousHash).block
  row _ := True
  items _ _ := True
  addCommitSignature := (BlockRule.structural height previousHash).addCommitSignature

/-- An engine of the height. -/
structure ConsensusEngine.At (V : ValidatorSet) (height : ℤ) (previousHash : PyStr)
    (e : ConsensusEngine) : Prop where
  validators : e.validators = V
  height : e.height = height
  previousHash : e.previousHash = previousHash

/-- A message that a validator of the height can have sent. Where it proposes for a later round, its
certificate consists of ROUND_CHANGEs that pass, and every engine of the height finds it acceptable. -/
structure ConsensusMessage.Genuine (V : ValidatorSet) (height : ℤ) (previousHash : PyStr)
    (m : ConsensusMessage) : Prop where
  carries : m.Carries (.placed height previousHash)
  cert : m.type = .PRE_PREPARE → 0 < m.round →
    ∀ q ∈ m.roundChangeCert, RoundChangeEntry V height m.round (q.sender, q)
  proposal : m.type = .PRE_PREPARE → 0 < m.round → ∃ block, ∀ e : ConsensusEngine,
    e.At V height previousHash → AcceptableProposal e m.round block m
  authentic : authentic V m = .ok true
  height : m.height = height

/-- An engine of the height that has got genuine messages only: what it has stored would pass in a
certificate, and it has voted in no round that it has not been in. -/
structure ConsensusEngine.Regular (V : ValidatorSet) (height : ℤ) (previousHash : PyStr)
    (e : ConsensusEngine) : Prop where
  place : e.At V height previousHash
  round : 0 ≤ e.round
  sound : e.Sound
  tallied : Tallied (fun _ => True) e
  lock : LockVerifies e
  entries : StoresEntries e
  carries : e.Carries (.placed height previousHash)
  unvoted : ∀ r h, e.journal.votedHash r .PREPARE = some h →
    r < e.round ∨ r = e.round ∧ e.phase ≠ .NEW_ROUND

lemma ConsensusEngine.At.since (he : e₀.At V height previousHash) (h : Since e₀ c e) :
    e.At V height previousHash :=
  ⟨h.validators.trans he.validators, h.height.trans he.height, h.previousHash.trans he.previousHash⟩

/-- The call hands in nothing but genuine messages. -/
def Call.Genuine (V : ValidatorSet) (height : ℤ) (previousHash : PyStr) (c : Call) : Prop :=
  ∀ m ∈ c.messages, m.Genuine V height previousHash

namespace Call.Genuine

variable (hc : c.Genuine V height previousHash)
include hc

lemma of_handle (h : c = .handle m) : m.Genuine V height previousHash := by
  refine hc m ?_
  rw [h]
  exact List.mem_cons_self

/-- The blocks that come with it are structurally valid. -/
lemma clean : c.Clean (.placed height previousHash) e where
  items _ := trivial
  proposed b hb := by
    obtain ⟨m, hm, -, hblock, -⟩ := hb.exists_mem
    apply (hc m hm).carries.1
    exact hblock
  attached m hm b hb := by
    obtain ⟨p, hp, ⟨rfl, -⟩ | ⟨-, hmem⟩⟩ := hm.exists_mem
    · exact (hc p hp).carries.1 b hb
    · exact (hc p hp).carries.2 m hmem b hb

/-- The certificates that it ingests hold ROUND_CHANGEs of the height. -/
lemma certifiesChanges (he : e.At V height previousHash) (hround : 0 ≤ e.round) :
    c.CertifiesChanges e := by
  intro p hp q hq _ _
  have hentry := (hc.of_handle hp.handles.eq).cert hp.handles.type (hround.trans_lt hp.round) q hq
  exact ⟨hentry.type, hentry.height.trans he.height.symm⟩

end Call.Genuine

/-! ### Calls -/

/-- A round that is no longer new stays so until a later one is entered. -/
lemma Reached.round_lt_or (hs : Reached e₀ c s) (hphase : e₀.phase ≠ .NEW_ROUND) :
    e₀.round < s.engine.round ∨ e₀.round = s.engine.round ∧ s.engine.phase ≠ .NEW_ROUND := by
  induction hs with
  | refl => exact Or.inr ⟨rfl, hphase⟩
  | tail _ hmove ih =>
    cases hmove with
    | adopt hr =>
      rcases ih with h | ⟨h, -⟩
      · exact Or.inl (h.trans hr)
      · exact Or.inl (h.trans_lt hr)
    | accept => exact ih.imp_right fun h => ⟨h.1, fun heq => (by cases heq)⟩
    | prepare => exact ih.imp_right fun h => ⟨h.1, fun heq => (by cases heq)⟩
    | finalize => exact ih.imp_right fun h => ⟨h.1, fun heq => (by cases heq)⟩
    | finalizeRaises => exact ih.imp_right fun h => ⟨h.1, fun heq => (by cases heq)⟩
    | _ => exact ih

/-- The votes in the journal are for rounds that the engine has been in. -/
lemma ConsensusEngine.Regular.unvoted_of_reached (he : e₀.Regular V height previousHash)
    (hs : Reached e₀ c s) {r : ℤ} {h : PyStr}
    (hv : s.engine.journal.votedHash r .PREPARE = some h) :
    r < s.engine.round ∨ r = s.engine.round ∧ s.engine.phase ≠ .NEW_ROUND := by
  rcases hs.votedHash_since hv with hold | hnew
  · rcases he.unvoted r h hold with hlt | ⟨rfl, hphase⟩
    · exact Or.inl (hlt.trans_le (Reached.since hs).round)
    · exact hs.round_lt_or hphase
  · exact hnew

/-- An engine stays regular as long as it is handed genuine messages, and so are the blocks that it
sends. -/
lemma ConsensusEngine.Regular.reached (he : e₀.Regular V height previousHash)
    (hc : c.Genuine V height previousHash) (hs : Reached e₀ c s) :
    s.engine.Regular V height previousHash ∧ s.Conveys (.placed height previousHash) := by
  have hbuilds : e₀.Builds (.placed height previousHash) := by
    intro now records changes block _ hcreate
    rw [← he.place.height, ← he.place.previousHash]
    exact e₀.builds_structural now records changes block trivial hcreate
  induction hs with
  | refl => exact ⟨he, .start he.carries⟩
  | @tail s s' hs hmove ih =>
    obtain ⟨ih, hconveys⟩ := ih
    have hreached : Reached e₀ c s' := hs.tail hmove
    have hsince := Reached.since hreached
    have hconveys' : s'.Conveys (.placed height previousHash) :=
      hconveys.move hmove (Reached.since hs) hc.clean fun block cert hp _ =>
        hp.carries hs hc.clean hbuilds ih.carries
    refine ⟨⟨he.place.since hsince, he.round.trans hsince.round, hmove.sound ih.sound, ?_,
      ih.lock.move ih.tallied hmove, ?_, hconveys'.engine, fun r h hv => ?_⟩, hconveys'⟩
    · exact he.tallied.move hs ih.tallied hmove (fun _ _ => trivial) fun _ _ _ => trivial
    · exact ih.entries.move hs (hc.certifiesChanges he.place he.round) he.tallied.me ih.lock hmove
    · exact he.unvoted_of_reached hreached hv

/-- The certificate that comes with a block for a later round justifies it. -/
lemma ConsensusEngine.Regular.justifies {block : Block} {cert : List ConsensusMessage}
    (he : s.engine.Regular V height previousHash) (hsince : Since e₀ c s.engine)
    (hp : c.Proposes e₀ s.engine block cert) (hr : 0 < s.engine.round) :
    e₀.me = V.proposer height s.engine.round ∧
      (∀ q ∈ cert, RoundChangeEntry V height s.engine.round (q.sender, q)) ∧
      ∃ justified, verifyRoundChangeCert V height cert s.engine.round = .ok (true, justified) ∧
        ∀ x ∈ justified, block.hash = .ok x := by
  have hvals : e₀.validators = V := hsince.validators.symm.trans he.place.validators
  have hheight : e₀.height = height := hsince.height.symm.trans he.place.height
  cases hp with
  | fresh _ hround heq =>
    rw [heq, hround] at hr
    exact absurd hr (lt_irrefl 0)
  | @change _ verdict hch hlt hme hquorum hverdict hblock =>
    rw [hvals, hheight] at hme hverdict
    rw [hvals] at hquorum
    have hentries : ∀ p ∈ (s.engine.roundChanges.getD s.engine.round).items,
        RoundChangeEntry V height s.engine.round p := by
      have hstored := he.entries s.engine.round
      rwa [he.place.validators, he.place.height] at hstored
    have hverify := verifyRoundChangeCert_of_entries hentries hquorum
    obtain rfl := Except.ok.inj (hverify.symm.trans hverdict)
    refine ⟨hme, fun q hq => ?_, _, hverify, fun x hx => ?_⟩
    · obtain ⟨sender, hmem⟩ := Dict.mem_values.mp hq
      have hentry := hentries _ hmem
      exact hentry.sender.symm ▸ hentry
    · rcases hblock with ⟨justified, hjustified, hlocked⟩ | ⟨hnone, -⟩
      · obtain rfl := Option.some.inj (hjustified.symm.trans hx)
        exact hash_of_lockedBlockFromCert hlocked
      · cases hnone.symm.trans hx

/-- What such an engine sends is genuine. -/
lemma ConsensusEngine.Regular.genuine (he : e₀.Regular V height previousHash)
    (hc : c.Genuine V height previousHash) (hs : Reached e₀ c s) (hm : m ∈ s.result.broadcast) :
    m.Genuine V height previousHash := by
  have hsent := hs.sentBy hm
  have hauth : authentic V m = .ok true := by
    have hme := he.tallied.me
    rw [he.place.validators] at hme
    refine authentic_eq_true.mpr ⟨e₀.me, ?_, hme, hsent.signature⟩
    rw [hsent.sender]
    exact PublicKey.fromHex_toHex _
  have hcarries := (he.reached hc hs).2.messages m hm
  have hproposal : m.type = .PRE_PREPARE → 0 < m.round →
      (∀ q ∈ m.roundChangeCert, RoundChangeEntry V height m.round (q.sender, q)) ∧
      ∃ block, ∀ e : ConsensusEngine, e.At V height previousHash →
        AcceptableProposal e m.round block m := by
    intro ht hr
    obtain ⟨s₁, hs₁, hsends⟩ := hs.sends hm
    obtain ⟨block, cert, h, hp, hh, hcreate⟩ := hsends.proposes ht
    obtain ⟨-, -, hround, hhash, -, hblock, -, -, hcert⟩ := ConsensusMessage.create_eq hcreate
    rw [hround] at hr ⊢
    obtain ⟨hme, hentries, justified, hverify, hjustified⟩ :=
      (he.reached hc hs₁).1.justifies (Reached.since hs₁) hp hr
    have hplaced := hcarries.1 _ hblock
    refine ⟨fun q hq => hentries q (hcert ▸ hq), _, fun e hat => ⟨?_, hblock, hhash ▸ hh, ?_, ?_⟩⟩
    · rw [hsent.sender, hat.validators, hat.height, ← hme]
      exact PublicKey.fromHex_toHex _
    · rw [ConsensusEngine.structurallyValid_eq_ok, hat.height, hat.previousHash]
      exact hplaced
    · intro _
      rw [hat.validators, hat.height, hcert]
      refine ⟨justified, hverify, fun j hj => ?_⟩
      rw [hhash]
      exact Except.ok.inj ((hjustified j hj).symm.trans hh)
  exact ⟨hcarries, fun ht hr => (hproposal ht hr).1,
    fun ht hr => (hproposal ht hr).2, hauth, hsent.height.trans he.place.height⟩

/-! ### Acceptance -/

/-- The PREPARE of an engine for a block with hash `h` in round `r`. -/
structure ConsensusMessage.Prepares (m : ConsensusMessage) (e : ConsensusEngine) (r : ℤ) (h : PyStr) :
    Prop where
  type : m.type = .PREPARE
  round : m.round = r
  hash : m.blockHash = h
  sender : m.sender = e.me.toHex

namespace EngineM

variable {block : Block} {h : PyStr}

/-- The engine is ready for a proposal of round `r`. -/
structure Opened (e : ConsensusEngine) (r : ℤ) (s : Frame) : Prop where
  alike : e.Alike s.engine
  sound : s.engine.Sound
  round : s.engine.round = r
  phase : s.engine.phase = .NEW_ROUND
  journal : s.engine.journal = e.journal

/-- An acceptable proposal opens its round, unless the round is open already. -/
lemma enterRound_opens (he : e.Sound) (hm : AcceptableProposal e m.round block m)
    (hcert : ∀ q ∈ m.roundChangeCert, q.Checkable e.validators) (hr : 0 < m.round)
    (hopen : e.round < m.round ∨ e.round = m.round ∧ e.phase = .NEW_ROUND) :
    ∃ s, enterRound m ⟨e, {}⟩ = (.ok true, s) ∧ Opened e m.round s := by
  rcases hopen with hlt | ⟨hround, hphase⟩
  · obtain ⟨justified, hverify, -⟩ := hm.cert hr
    obtain ⟨_, s₁, hingest, hsame⟩ := ingest_sound (s := ⟨e, {}⟩) he hcert
    obtain ⟨d, hd, -, -⟩ := ingest_eq m.roundChangeCert ⟨e, {}⟩
    rw [hingest] at hd
    simp only at hd
    subst hd
    obtain ⟨prepares, commits, hadopted⟩ := adoptRound_eq
      (s := Frame.mapEngine ⟨e, {}⟩ fun e => { e with roundChanges := d }) hlt
    obtain ⟨_, s₂, hadopt, hkeeps⟩ := adoptRound_keeps hsame.sound m.round
    rw [hadopt] at hadopted
    simp only at hadopted
    have hrun : enterRound m ⟨e, {}⟩ = (.ok true, s₂) := by
      rw [enterRound, self_bind, if_pos hlt, Eff.lift_bind_ok hverify, if_neg (by simp),
        Eff.bind_apply_ok hingest, Eff.bind_apply_ok hadopt]
      rfl
    subst hadopted
    exact ⟨_, hrun, ⟨rfl, rfl, rfl, rfl⟩, hkeeps.sound, rfl, rfl, rfl⟩
  · have hrun : enterRound m ⟨e, {}⟩ = (.ok true, ⟨e, {}⟩) := by
      rw [enterRound, self_bind, if_neg (not_lt.mpr hround.ge)]
      rfl
    exact ⟨_, hrun, ⟨rfl, rfl, rfl, rfl⟩, he, hround, hphase, rfl⟩

/-- A block that no earlier vote stands against gets a PREPARE. -/
lemma acceptProposal_prepares (hs : s.engine.Sound) (hh : block.hash = .ok h)
    (hprior : ∀ h' ∈ s.engine.journal.votedHash s.engine.round .PREPARE, h' = h) :
    Returns (acceptProposal block) s fun _ s' =>
      ∃ v ∈ s'.result.broadcast, v.Prepares s.engine s.engine.round h := by
  obtain ⟨v, hv⟩ := exists_create_of_hash hh .PREPARE s.engine.height s.engine.round
    s.engine.privateKey none none [] []
  obtain ⟨htype, -, hround, hhash, hsender, -⟩ := ConsensusMessage.create_eq hv
  obtain ⟨_, s', hrun, -⟩ := maybeAdvance_keeps (s := s.accept block h v) (hs.accept hh)
  have hkept := (Untouched.of_path (untouched_maybeAdvance (s.accept block h v)).path).broadcast
  rw [hrun] at hkept
  refine .of_eq ((acceptProposal_of_free hh hprior hv).trans hrun)
    ⟨v, hkept ?_, htype, hround, hhash, hsender⟩
  exact List.mem_append_right _ List.mem_cons_self

/-- An acceptable proposal of an open round gets a PREPARE. -/
lemma handlePrePrepare_prepares {s₀ : Frame} (hentered : enterRound m s₀ = (.ok true, s))
    (hs : Opened e m.round s) (hm : AcceptableProposal e m.round block m)
    (hunvoted : e.journal.votedHash m.round .PREPARE = none) :
    Returns (handlePrePrepare m) s₀ fun _ s' =>
      ∃ v ∈ s'.result.broadcast, v.Prepares e m.round m.blockHash := by
  have hprior : ∀ h' ∈ s.engine.journal.votedHash s.engine.round .PREPARE, h' = m.blockHash := by
    rw [hs.journal, hs.round, hunvoted]
    exact fun h' hh' => (by cases hh')
  have hrest : handlePrePrepare m s₀ = acceptProposal block s :=
    handlePrePrepare_eq hentered hs.alike hs.round hs.phase hm rfl
  obtain ⟨_, s', hrun, v, hv, hprepares⟩ := acceptProposal_prepares hs.sound hm.hash hprior
  refine .of_eq (hrest.trans hrun) ⟨v, hv, hprepares.type, hprepares.round.trans hs.round,
    hprepares.hash, ?_⟩
  rw [hprepares.sender, hs.alike.me]

end EngineM

/-- An engine PREPAREs a genuine proposal for a later round that it has not entered, or entered without a
proposal. -/
lemma ConsensusEngine.Regular.accepts (he : e.Regular V height previousHash)
    (hm : m.Genuine V height previousHash) (ht : m.type = .PRE_PREPARE) (hr : 0 < m.round)
    (hopen : e.round < m.round ∨ e.round = m.round ∧ e.phase = .NEW_ROUND) :
    ((Call.handle m).run e).1 = .ok () ∧
      ∃ v ∈ ((Call.handle m).run e).2.result.broadcast, v.Prepares e m.round m.blockHash := by
  obtain ⟨block, hblock⟩ := hm.proposal ht hr
  have hacceptable := hblock e he.place
  have hcert : ∀ q ∈ m.roundChangeCert, q.Checkable e.validators := fun q hq => by
    rw [he.place.validators]
    exact ConsensusMessage.exists_authentic_iff.mp ⟨true, (hm.cert ht hr q hq).authentic⟩
  have hunvoted : e.journal.votedHash m.round .PREPARE = none := by
    by_contra hvoted
    obtain ⟨h, hv⟩ := Option.ne_none_iff_exists'.mp hvoted
    rcases he.unvoted m.round h hv with hlt | ⟨hround, hphase⟩
    · rcases hopen with hlt' | ⟨hround, -⟩
      · exact lt_asymm hlt hlt'
      · exact hlt.ne' hround
    · rcases hopen with hlt' | ⟨-, hphase'⟩
      · exact hlt'.ne' hround
      · exact hphase hphase'
  have haccepted : Accepted e m := by
    refine ⟨hm.height.trans he.place.height.symm, ?_⟩
    rw [he.place.validators]
    exact hm.authentic
  have hrun : (Call.handle m).run e = EngineM.handlePrePrepare m ⟨e, {}⟩ := by
    rw [Call.run, Call.body, EngineM.handle_eq (s := ⟨e, {}⟩) ⟨rfl, rfl, rfl, rfl⟩ haccepted, ht]
  obtain ⟨s, hentered, hopened⟩ := EngineM.enterRound_opens he.sound hacceptable hcert hr hopen
  obtain ⟨_, s', hreturns, hprepares⟩ :=
    EngineM.handlePrePrepare_prepares hentered hopened hacceptable hunvoted
  rw [hrun, hreturns]
  exact ⟨rfl, hprepares⟩

/-! ### Runs -/

/-- A new engine over a blank journal, whatever its older rows are. -/
lemma ConsensusEngine.Regular.initial {privateKey : PrivateKey} {journal : VoteJournal}
    (hme : privateKey.publicKey ∈ V.validators) (hblank : journal.Blank) (hhash : journal.Hashable)
    (height : ℤ) (previousHash : PyStr) (nowMs : ℕ → ℤ) :
    (ConsensusEngine.initial V privateKey height previousHash nowMs journal).Regular V height
      previousHash where
  place := ⟨rfl, rfl, rfl⟩
  round := le_rfl
  sound := .initial hhash _ _ _ _ _
  tallied := .initial hme _ _ _ _
  lock := .initial hblank.lock _ _ _ _ _
  entries _ _ hp := by cases hp
  carries := by
    refine .initial ⟨fun lock hlock => ?_, fun _ _ => trivial, fun _ _ _ _ _ => trivial⟩ _ _ _ _ _
    rw [hblank.lock] at hlock
    cases hlock
  unvoted r h hv := by
    have hnone := hblank.votes r .PREPARE
    cases hnone.symm.trans hv

/-- A validator with a regular engine that has sent genuine messages only. -/
structure Validator.Regular (V : ValidatorSet) (height : ℤ) (previousHash : PyStr) (v : Validator) :
    Prop where
  engine : v.engine.Regular V height previousHash
  sent : ∀ m ∈ v.sent, m.Genuine V height previousHash

lemma Validator.Regular.call {v : Validator} (hv : v.Regular V height previousHash)
    (hc : c.Genuine V height previousHash) : (v.call c).Regular V height previousHash := by
  have hreached := c.run_moves v.engine
  refine ⟨(hv.engine.reached hc hreached).1, fun m hm => ?_⟩
  rcases List.mem_append.mp hm with hm | hm
  · exact hv.sent m hm
  · exact hv.engine.genuine hc hreached hm

namespace Committee

open Network (Turn worldOfSeed)

variable {w w' : World}

/-- Every validator has a new engine of the height, over a journal without a vote or a lock for it. The
blocks that the rows of other heights hold were hashed when they were written. -/
structure Begins (V : ValidatorSet) (height : ℤ) (previousHash : PyStr) (w : World) : Prop where
  engine : ∀ k ∈ V.validators, ∃ privateKey nowMs journal, privateKey.publicKey = k ∧
    journal.Blank ∧ journal.Hashable ∧
    ConsensusEngine.new V privateKey height previousHash nowMs journal = .ok (w k).engine
  sent : ∀ k ∈ V.validators, (w k).sent = []

/-- One validator makes a call. What it is handed was sent by one of them, to whomever and whenever. -/
inductive Step (V : ValidatorSet) (w : World) : World → Prop
  | call {k : PublicKey} {c : Call} (hk : k ∈ V.validators)
      (hc : ∀ m ∈ c.messages, ∃ k' ∈ V.validators, m ∈ (w k').sent) :
      Step V w (Function.update w k ((w k).call c))

/-- All validators are regular, each under its own key. -/
def Regular (V : ValidatorSet) (height : ℤ) (previousHash : PyStr) (w : World) : Prop :=
  ∀ k ∈ V.validators, (w k).Regular V height previousHash ∧ (w k).engine.me = k

lemma Begins.regular (hw : Begins V height previousHash w) : Regular V height previousHash w := by
  intro k hk
  obtain ⟨privateKey, nowMs, journal, hkey, hblank, hhash, hnew⟩ := hw.engine k hk
  obtain ⟨hme, he⟩ := ConsensusEngine.new_eq_ok.mp hnew
  refine ⟨⟨?_, fun m hm => ?_⟩, ?_⟩
  · rw [he]
    exact .initial hme hblank hhash height previousHash nowMs
  · rw [hw.sent k hk] at hm
    cases hm
  · rw [he]
    exact hkey

lemma Regular.step (hw : Regular V height previousHash w) (hstep : Step V w w') :
    Regular V height previousHash w' := by
  cases hstep with
  | @call k c hk hc =>
    have hgenuine : c.Genuine V height previousHash := by
      intro m hm
      obtain ⟨k', hk', hsent⟩ := hc m hm
      exact (hw k' hk').1.sent m hsent
    intro k' hk'
    by_cases heq : k' = k
    · subst heq
      rw [Function.update_self]
      exact ⟨(hw k' hk').1.call hgenuine, (Since.me ((w k').since_call c)).trans (hw k' hk').2⟩
    · rw [Function.update_of_ne heq]
      exact hw k' hk'

lemma Regular.run (hw : Regular V height previousHash w) (hrun : ReflTransGen (Step V) w w') :
    Regular V height previousHash w' := by
  induction hrun with
  | refl => exact hw
  | tail _ hstep ih => exact ih.step hstep

/-- Every schedule of turns of validators is a run. -/
lemma reaches_play {turns : List Turn} (hturns : ∀ t ∈ turns, ∀ k ∈ t.keys, k ∈ V.validators) :
    ReflTransGen (Step V) w (turns.foldl Turn.play w) := by
  induction turns generalizing w with
  | nil => exact .refl
  | cons t turns ih =>
    have hkeys := hturns t List.mem_cons_self
    have hrest : ∀ w : World, ReflTransGen (Step V) w (turns.foldl Turn.play w) := fun w =>
      ih fun t' ht' => hturns t' (List.mem_cons_of_mem t ht')
    rw [List.foldl_cons]
    cases t with
    | pending k records changes =>
      exact .head (.call (hkeys k List.mem_cons_self) fun m hm => (by cases hm)) (hrest _)
    | timeout k => exact .head (.call (hkeys k List.mem_cons_self) fun m hm => (by cases hm)) (hrest _)
    | relay k k' i =>
      rw [Turn.play]
      split
      · rename_i m hm
        refine .head (.call (hkeys k' (List.mem_cons_of_mem _ List.mem_cons_self)) fun m' hm' => ?_)
          (hrest _)
        rw [List.mem_singleton.mp hm']
        exact ⟨k, hkeys k List.mem_cons_self, List.mem_of_getElem? hm⟩
      · exact hrest w

lemma begins_worldOfSeed {seed : PublicKey → UInt8}
    (hseed : ∀ k ∈ V.validators, (seedKey (seed k)).publicKey = k) :
    Begins V 1 ZERO_HASH (worldOfSeed V seed) := by
  refine ⟨fun k hk => ?_, fun _ _ => rfl⟩
  refine ⟨seedKey (seed k), fun i => i, .null, hseed k hk, ⟨fun _ _ => rfl, rfl⟩,
    ⟨fun _ h => (by cases h), fun _ h => (by cases h)⟩, ConsensusEngine.new_eq_ok.mpr ⟨?_, rfl⟩⟩
  rw [hseed k hk]
  exact hk

end Committee

/-- In every run in which all validators of a height run the engine, whatever messages are lost, repeated
or delivered late: a proposal that one of them has sent for a later round is accepted by every validator
below that round, or in it without a proposal. The call returns, and sends a PREPARE for the block. -/
theorem proposals_accepted {w w' : World} (hbegins : Committee.Begins V height previousHash w)
    (hrun : ReflTransGen (Committee.Step V) w w') {p k : PublicKey} (hp : p ∈ V.validators)
    (hk : k ∈ V.validators) {m : ConsensusMessage} (hm : m ∈ (w' p).sent)
    (ht : m.type = .PRE_PREPARE) (hr : 0 < m.round)
    (hopen : (w' k).engine.round < m.round ∨
      (w' k).engine.round = m.round ∧ (w' k).engine.phase = .NEW_ROUND) :
    ((Call.handle m).run (w' k).engine).1 = .ok () ∧
      ∃ v ∈ ((Call.handle m).run (w' k).engine).2.result.broadcast,
        v.type = .PREPARE ∧ v.round = m.round ∧ v.blockHash = m.blockHash ∧ v.sender = k.toHex := by
  have hregular := hbegins.regular.run hrun
  obtain ⟨hreturns, v, hv, hprepares⟩ :=
    (hregular k hk).1.engine.accepts ((hregular p hp).1.sent m hm) ht hr hopen
  refine ⟨hreturns, v, hv, hprepares.type, hprepares.round, hprepares.hash, ?_⟩
  rw [hprepares.sender, (hregular k hk).2]

omit [Crypto] in
/-- The second of two validators is locked on its block of round 0. The first takes over round 1 with that
block, and the second accepts it. -/
theorem proposals_accepted_of_lock :
    letI := Crypto.checksums
    let a := seedPublic 0xaa
    let b := seedPublic 0xbb
    let turns : List Network.Turn := [.pending b [] [⟨.ADD, []⟩], .relay b a 0, .relay a b 0, .timeout a,
      .timeout b, .relay b a 3]
    let w := turns.foldl Network.Turn.play (Network.worldOfSeed .pair fun k => if k = a then 0xaa else 0xbb)
    (w b).engine.preparedRound = some 0 ∧ ∃ m ∈ (w a).sent, m.type = .PRE_PREPARE ∧ m.round = 1 ∧
      ((Call.handle m).run (w b).engine).1 = .ok () ∧
      ∃ v ∈ ((Call.handle m).run (w b).engine).2.result.broadcast,
        v.type = .PREPARE ∧ v.round = m.round ∧ v.blockHash = m.blockHash ∧ v.sender = b.toHex := by
  let := Crypto.checksums
  intro a b turns w
  have ha : a ∈ ValidatorSet.pair.validators := List.mem_cons_self
  have hb : b ∈ ValidatorSet.pair.validators := by decide +kernel
  have hbegins : Committee.Begins .pair 1 ZERO_HASH
      (Network.worldOfSeed .pair fun k => if k = a then 0xaa else 0xbb) :=
    Committee.begins_worldOfSeed (by decide +kernel)
  have hrun : ReflTransGen (Committee.Step .pair)
      (Network.worldOfSeed .pair fun k => if k = a then 0xaa else 0xbb) w :=
    Committee.reaches_play (by decide +kernel)
  have hstate : (w b).engine.preparedRound = some 0 ∧ (w b).engine.round = 0 ∧
      ((w a).sent.filter fun m => m.type = .PRE_PREPARE ∧ m.round = 1) ≠ [] := by
    decide +kernel
  obtain ⟨hlock, hround, hsent⟩ := hstate
  obtain ⟨m, hm⟩ := List.exists_mem_of_ne_nil _ hsent
  obtain ⟨hm, hcond⟩ := List.mem_filter.mp hm
  obtain ⟨ht, hr⟩ := of_decide_eq_true hcond
  have hpos : 0 < m.round := by
    rw [hr]
    exact zero_lt_one
  have hopen : (w b).engine.round < m.round := by
    rw [hround]
    exact hpos
  exact ⟨hlock, m, hm, ht, hr, proposals_accepted hbegins hrun ha hb hm ht hpos (Or.inl hopen)⟩

end Helix

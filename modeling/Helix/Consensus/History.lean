import Helix.Consensus.Discipline
import Helix.Consensus.Tallies

/-!
# The history of one validator

What the messages of one validator say about each other and about its engine, in a run without
crashes whose calls prepare ahead of every announced round: it votes once a round, its lock covers
its COMMITs, and so does every ROUND_CHANGE for the rounds that it leaves. Its own lock passes the
checks that other validators make.
-/

namespace Helix

variable [Crypto] {e₀ : ConsensusEngine} {c : Call} {s s' : Frame} {v : Validator}

/-- A PRE_PREPARE of the engine is for its round. -/
lemma Call.Origin.round_eq {e : ConsensusEngine} {block : Block} {pre : List ConsensusMessage}
    (h : c.Origin e₀ e block pre) : ∀ m ∈ pre, m.round = e.round := by
  cases h with
  | own hp hh hm =>
    intro m hmem
    rw [List.mem_singleton.mp hmem]
    exact (ConsensusMessage.create_eq hm).2.2.1
  | peer => exact nofun

/-! ### Order -/

/-- The messages of a validator in their relation to its engine. -/
structure Orderly (v : Validator) : Prop where
  round : 0 ≤ v.engine.round
  votes : ∀ m ∈ v.sent, m.IsVote → 0 ≤ m.round
  proposals : ∀ m ∈ v.sent, m.type = .PRE_PREPARE → m.round ≤ v.engine.round
  prepares : ∀ m ∈ v.sent, m.type = .PREPARE →
    m.round < v.engine.round ∨ m.round = v.engine.round ∧ v.engine.phase ≠ .NEW_ROUND
  once : ∀ m ∈ v.sent, ∀ m' ∈ v.sent, m.type = .PREPARE → m'.type = .PREPARE →
    m.round = m'.round → m.blockHash = m'.blockHash
  lock : ∀ p ∈ v.engine.preparedRound, p ≤ v.engine.round
  commits : ∀ m ∈ v.sent, m.type = .COMMIT → ∃ p ∈ v.engine.preparedRound, m.round ≤ p
  changes : ∀ m ∈ v.sent, m.type = .ROUND_CHANGE → m.round ∈ v.engine.rcSent
  reports : ∀ a ∈ v.sent, a.type = .ROUND_CHANGE → ∀ b ∈ v.sent, b.type = .COMMIT →
    b.round < a.round → ∃ p ∈ a.preparedRound, b.round ≤ p

omit [Crypto] in
/-- Sending only PRE_PREPAREs of the current round. -/
lemma Orderly.send {v' : Validator} (hv : Orderly v) {l : List ConsensusMessage}
    (hsent : v'.sent = v.sent ++ l) (hl : ∀ m ∈ l, m.type = .PRE_PREPARE ∧
      m.round = v.engine.round) (hround : v'.engine.round = v.engine.round)
    (hphase : v.engine.phase ≠ .NEW_ROUND → v'.engine.phase ≠ .NEW_ROUND)
    (hlock : v'.engine.preparedRound = v.engine.preparedRound)
    (hrc : v'.engine.rcSent = v.engine.rcSent) : Orderly v' := by
  have hold : ∀ m ∈ v'.sent, m.type ≠ .PRE_PREPARE → m ∈ v.sent := by
    intro m hm ht
    rw [hsent] at hm
    rcases List.mem_append.mp hm with hm | hm
    · exact hm
    · exact absurd (hl m hm).1 ht
  refine ⟨hround ▸ hv.round, fun m hm ht => hv.votes m (hold m hm ?_) ht, fun m hm ht => ?_,
    fun m hm ht => ?_, fun m hm m' hm' ht ht' => ?_, hround ▸ hlock ▸ hv.lock, fun m hm ht => ?_,
    fun m hm ht => ?_, fun a ha hat b hb hbt => ?_⟩
  · rcases ht with ht | ht <;> rw [ht] <;> decide
  · rw [hsent] at hm
    rw [hround]
    rcases List.mem_append.mp hm with hm | hm
    · exact hv.proposals m hm ht
    · exact (hl m hm).2.le
  · rw [hround]
    exact (hv.prepares m (hold m hm (by rw [ht]; decide)) ht).imp_right (And.imp_right hphase)
  · exact hv.once m (hold m hm (by rw [ht]; decide)) m' (hold m' hm' (by rw [ht']; decide)) ht ht'
  · exact hlock ▸ hv.commits m (hold m hm (by rw [ht]; decide)) ht
  · exact hrc ▸ hv.changes m (hold m hm (by rw [ht]; decide)) ht
  · exact hv.reports a (hold a ha (by rw [hat]; decide)) hat b (hold b hb (by rw [hbt]; decide)) hbt

lemma Orderly.during (hv : Orderly v) (hc : PreparesAhead v.engine c)
    (hs : Reached v.engine c s) : Orderly (v.during c s) := by
  refine Validator.during_induction v c ?_ ?_ hs
  · exact hv.send (l := []) rfl nofun rfl id rfl rfl
  · intro s s' hs ih hmove
    have hsend : ∀ {block pre}, c.Origin v.engine s.engine block pre →
        Orderly (v.during c (s.send pre)) := fun horigin =>
      ih.send (Validator.sent_send _) (fun m hm => ⟨horigin.types m hm, horigin.round_eq m hm⟩)
        rfl id rfl rfl
    cases hmove with
    | leave hch ht hr hwhy hm =>
      rename_i target m
      obtain ⟨htype, -, hround, -, -, -, hlock, -⟩ := ConsensusEngine.roundChange_eq hm
      have hold : ∀ {a}, a ∈ (v.during c (s.leave target m)).sent → a.type ≠ .ROUND_CHANGE →
          a ∈ (v.during c s).sent := fun ha hat =>
        (Validator.mem_sent_leave.mp ha).resolve_right fun h => hat (h ▸ htype)
      refine ⟨ih.round, fun a ha hat => ih.votes a (hold ha ?_) hat,
        fun a ha hat => ih.proposals a (hold ha ?_) hat,
        fun a ha hat => ih.prepares a (hold ha ?_) hat, fun a ha b hb hat hbt =>
          ih.once a (hold ha ?_) b (hold hb ?_) hat hbt, ih.lock, fun a ha hat =>
        ih.commits a (hold ha ?_) hat, fun a ha hat => ?_, fun a ha hat b hb hbt hlt => ?_⟩
      · rcases hat with h | h <;> rw [h] <;> decide
      · rw [hat]; decide
      · rw [hat]; decide
      · rw [hat]; decide
      · rw [hbt]; decide
      · rw [hat]; decide
      · rcases Validator.mem_sent_leave.mp ha with ha | rfl
        · exact List.mem_cons_of_mem _ (ih.changes a ha hat)
        · rw [hround]
          exact List.mem_cons_self
      · have hb' := hold hb (by rw [hbt]; decide)
        rcases Validator.mem_sent_leave.mp ha with ha' | rfl
        · exact ih.reports a ha' hat b hb' hbt hlt
        · rw [hlock]
          exact ih.commits b hb' hbt
    | adopt hr =>
      refine ⟨ih.round.trans hr.le, ih.votes, fun m hm ht => (ih.proposals m hm ht).trans hr.le,
        fun m hm ht => Or.inl ?_, ih.once, fun p hp => (ih.lock p hp).trans hr.le, ih.commits,
        ih.changes, ih.reports⟩
      rcases ih.prepares m hm ht with h | ⟨h, -⟩
      · exact h.trans hr
      · exact h.trans_lt hr
    | accept horigin hphase hh hprior hm =>
      rename_i block h m pre
      have ih := hsend horigin
      obtain ⟨htype, -, hround, hhash, -⟩ := ConsensusMessage.create_eq hm
      have hcases : ∀ {a}, a ∈ (v.during c ((s.send pre).accept block h m)).sent →
          a ∈ (v.during c (s.send pre)).sent ∨ a = m := by
        intro a ha
        rw [Validator.sent_send, List.mem_append, or_assoc]
        exact Validator.mem_sent_accept.mp ha
      have hold : ∀ {a}, a ∈ (v.during c ((s.send pre).accept block h m)).sent →
          a.type ≠ .PREPARE → a ∈ (v.during c (s.send pre)).sent := fun ha hat =>
        (hcases ha).resolve_right fun h => hat (h ▸ htype)
      -- the round has no vote yet, so the new one is the only one
      have hbelow : ∀ a ∈ (v.during c (s.send pre)).sent, a.type = .PREPARE →
          a.round < s.engine.round := fun a ha hat =>
        (ih.prepares a ha hat).resolve_right fun h => h.2 hphase
      refine ⟨ih.round, fun a ha hat => ?_, fun a ha hat => ih.proposals a (hold ha ?_) hat,
        fun a ha hat => ?_, fun a ha b hb hat hbt hr => ?_, ih.lock, fun a ha hat =>
        ih.commits a (hold ha ?_) hat, fun a ha hat => ih.changes a (hold ha ?_) hat,
        fun a ha hat b hb hbt => ih.reports a (hold ha ?_) hat b (hold hb ?_) hbt⟩
      · rcases hcases ha with ha | rfl
        · exact ih.votes a ha hat
        · exact hround ▸ ih.round
      · rw [hat]; decide
      · rcases hcases ha with ha | rfl
        · exact Or.inl (hbelow a ha hat)
        · exact Or.inr ⟨hround, nofun⟩
      · rcases hcases ha with ha' | rfl
        · rcases hcases hb with hb' | rfl
          · exact ih.once a ha' b hb' hat hbt hr
          · exact absurd (hr.trans hround) (hbelow a ha' hat).ne
        · rcases hcases hb with hb' | rfl
          · exact absurd (hr.symm.trans hround) (hbelow b hb' hbt).ne
          · rfl
      · rw [hat]; decide
      · rw [hat]; decide
      · rw [hat]; decide
      · rw [hbt]; decide
    | refuse horigin => exact hsend horigin
    | prepare hopen hphase hblock hh hquorum hprior hm =>
      rename_i block h m
      obtain ⟨htype, -, hround, -⟩ := ConsensusMessage.create_eq hm
      have hold : ∀ {a}, a ∈ (v.during c (s.prepare block h m)).sent → a.type ≠ .COMMIT →
          a ∈ (v.during c s).sent := fun ha hat =>
        (Validator.mem_sent_prepare.mp ha).resolve_right fun h => hat (h ▸ htype)
      refine ⟨ih.round, fun a ha hat => ?_, fun a ha hat => ih.proposals a (hold ha ?_) hat,
        fun a ha hat => ?_, fun a ha b hb hat hbt =>
          ih.once a (hold ha ?_) b (hold hb ?_) hat hbt, fun p hp => ?_, fun a ha hat => ?_,
        fun a ha hat => ih.changes a (hold ha ?_) hat, fun a ha hat b hb hbt hlt => ?_⟩
      · rcases Validator.mem_sent_prepare.mp ha with ha | rfl
        · exact ih.votes a ha hat
        · exact hround ▸ ih.round
      · rw [hat]; decide
      · exact (ih.prepares a (hold ha (by rw [hat]; decide)) hat).imp_right
          (And.imp_right fun _ => nofun)
      · rw [hat]; decide
      · rw [hbt]; decide
      · cases hp
        exact le_rfl
      · refine ⟨_, rfl, ?_⟩
        rcases Validator.mem_sent_prepare.mp ha with ha | rfl
        · obtain ⟨p, hp, hle⟩ := ih.commits a ha hat
          exact hle.trans (ih.lock p hp)
        · exact hround.le
      · rw [hat]; decide
      · have ha' := hold ha (by rw [hat]; decide)
        rcases Validator.mem_sent_prepare.mp hb with hb' | rfl
        · exact ih.reports a ha' hat b hb' hbt hlt
        · -- the discipline: no announced round exceeds the one that is prepared
          have hle := hs.announced_le hc ⟨hopen, hphase, ⟨_, hblock, hh⟩, hquorum⟩ (ih.changes a ha' hat)
          exact absurd (hround ▸ hlt) hle.not_gt
    | finalize =>
      refine ⟨ih.round, ih.votes, ih.proposals, fun m hm ht => ?_, ih.once, ih.lock, ih.commits,
        ih.changes, ih.reports⟩
      exact (ih.prepares m hm ht).imp_right (And.imp_right fun _ => nofun)
    | finalizeRaises =>
      refine ⟨ih.round, ih.votes, ih.proposals, fun m hm ht => ?_, ih.once, ih.lock, ih.commits,
        ih.changes, ih.reports⟩
      exact (ih.prepares m hm ht).imp_right (And.imp_right fun _ => nofun)
    | _ =>
      exact ⟨ih.round, ih.votes, ih.proposals, ih.prepares, ih.once, ih.lock, ih.commits,
        ih.changes, ih.reports⟩

/-! ### The own lock -/

/-- The PREPAREs of a round are counted, each under its sender. -/
lemma exists_prepareSenders {validators : ValidatorSet} {height round : ℤ} {blockHash : PyStr}
    {cert : List ConsensusMessage} (h : ∀ m ∈ cert, (m.type = .PREPARE ∧ m.height = height ∧
      m.round = round ∧ m.blockHash = blockHash) ∧ authentic validators m = .ok true) :
    ∃ senders, prepareSenders validators height cert round blockHash = .ok senders ∧
      ∀ m ∈ cert, m.sender ∈ senders := by
  have hpass : ∀ m ∈ cert, ∀ acc : List PyStr,
      (if m.type = .PREPARE ∧ m.height = height ∧ m.round = round ∧ m.blockHash = blockHash then
        (authentic validators m).map fun ok => if ok then acc.insert m.sender else acc
      else .ok acc) = .ok (acc.insert m.sender) := by
    intro m hm acc
    obtain ⟨hcond, hauth⟩ := h m hm
    rw [if_pos hcond, hauth]
    rfl
  obtain ⟨senders, hs⟩ := exists_foldlM (fun m hm acc => ⟨_, hpass m hm acc⟩) []
  refine ⟨senders, hs, foldlM_forall (fun m hm acc acc' hacc => ?_)
    (fun m hm acc acc' hacc m' hm' => ?_) hs⟩
  · rw [hpass m hm] at hacc
    cases hacc
    exact List.mem_insert_self
  · rw [hpass m hm] at hacc
    cases hacc
    exact List.mem_insert_of_mem hm'

/-- A PREPARE tally with a quorum of entries passes as a certificate. -/
lemma Tallied.verifyPrepares {G : ConsensusMessage → Prop} {e : ConsensusEngine}
    (he : Tallied G e) {x : PyStr} (hq : e.validators.quorum ≤ (e.prepares.getD x).len) :
    verifyPrepares e.validators e.height (e.prepares.getD x).values e.round x = .ok true := by
  have hpass : ∀ m ∈ (e.prepares.getD x).values, (m.type = .PREPARE ∧ m.height = e.height ∧
      m.round = e.round ∧ m.blockHash = x) ∧ authentic e.validators m = .ok true := by
    intro m hm
    obtain ⟨k, hk⟩ := Dict.mem_values.mp hm
    obtain ⟨hentry, -⟩ := he.prepares x _ hk
    exact ⟨⟨hentry.type, hentry.height, hentry.round, hentry.hash⟩, hentry.authentic⟩
  obtain ⟨senders, hs, hmem⟩ := exists_prepareSenders hpass
  have hsub : (e.prepares.getD x).keys ⊆ senders := by
    intro k hk
    obtain ⟨m, hm⟩ := Dict.mem_keys.mp hk
    have hin := hmem m (Dict.mem_values.mpr ⟨k, hm⟩)
    rwa [(he.prepares x _ hm).1.sender] at hin
  have hlen := ((e.prepares.getD x).keys_nodup.subperm hsub).length_le
  rw [Dict.length_keys] at hlen
  rw [Helix.verifyPrepares, hs]
  exact congrArg Except.ok (decide_eq_true (hq.trans hlen))

/-- The lock of an engine carries a certificate that passes. -/
structure LockVerifies (e : ConsensusEngine) : Prop where
  cert : ∀ p ∈ e.preparedRound, ∃ block h, e.preparedBlock = some block ∧ block.hash = .ok h ∧
    verifyPrepares e.validators e.height e.preparedCert p h = .ok true
  proposal : e.phase = .PREPARED → e.preparedBlock = e.proposal

/-- A new engine over a journal without a lock has none. -/
lemma LockVerifies.initial {journal : VoteJournal} (hlock : journal.prepared = none)
    (validators : ValidatorSet) (privateKey : PrivateKey) (height : ℤ) (previousHash : PyStr)
    (nowMs : ℕ → ℤ) :
    LockVerifies (.initial validators privateKey height previousHash nowMs journal) := by
  refine ⟨fun p hp => ?_, fun hphase => by cases hphase⟩
  obtain ⟨lock, hl, -⟩ := Option.map_eq_some_iff.mp hp
  rw [hlock] at hl
  cases hl

lemma LockVerifies.move {G : ConsensusMessage → Prop} (h : LockVerifies s.engine)
    (ht : Tallied G s.engine) (hmove : Move e₀ c s s') : LockVerifies s'.engine := by
  cases hmove with
  | adopt =>
    refine ⟨h.cert, fun hphase => ?_⟩
    cases hphase
  | accept =>
    refine ⟨h.cert, fun hphase => ?_⟩
    cases hphase
  | prepare hopen hphase hblock hh hquorum hprior hm =>
    refine ⟨fun p hp => ?_, fun _ => hblock.symm⟩
    cases hp
    exact ⟨_, _, rfl, hh, ht.verifyPrepares hquorum⟩
  | finalize hclose hphase hblock hh hquorum hseal =>
    refine ⟨fun p hp => ?_, fun hcommitted => ?_⟩
    · obtain ⟨block', x, hblock', hx, hv⟩ := h.cert p hp
      rw [h.proposal hphase, hblock] at hblock'
      cases hblock'
      refine ⟨_, x, rfl, ?_, hv⟩
      rw [Block.hash, (attachSeals_spec hseal).1]
      exact hx
    · cases hcommitted
  | finalizeRaises =>
    refine ⟨h.cert, fun hphase => ?_⟩
    cases hphase
  | _ => exact ⟨h.cert, h.proposal⟩

/-- The ROUND_CHANGE of an engine passes the checks of the others. -/
lemma LockVerifies.roundChangeEntry {e : ConsensusEngine} (h : LockVerifies e)
    (hme : e.me ∈ e.validators.validators) {target : ℤ} {m : ConsensusMessage}
    (hm : e.roundChange target = .ok m) :
    RoundChangeEntry e.validators e.height target (e.me.toHex, m) := by
  obtain ⟨htype, hheight, hround, hhash, hsender, -, hlock, hcert, hsig⟩ :=
    ConsensusEngine.roundChange_eq hm
  refine ⟨hsender, htype, hround, authentic_eq_true.mpr ⟨e.me, ?_, hme, hsig⟩, ?_, hheight⟩
  · rw [hsender]
    exact PublicKey.fromHex_toHex _
  · rw [validRoundChange, hlock]
    cases hp : e.preparedRound with
    | none => rfl
    | some p =>
      obtain ⟨block, x, hblock, hx, hv⟩ := h.cert p hp
      rw [hcert, hblock]
      have hx' : m.blockHash = x := by
        rw [ConsensusEngine.lockHash, hblock] at hhash
        exact Except.ok.inj (hhash.symm.trans hx)
      rw [hx']
      exact hv

/-! ### Stored ROUND_CHANGEs -/

/-- Every stored ROUND_CHANGE would pass in a certificate. -/
def StoresEntries (e : ConsensusEngine) : Prop :=
  ∀ t, ∀ p ∈ (e.roundChanges.getD t).items, RoundChangeEntry e.validators e.height t p

/-- A certificate that the call would ingest holds only ROUND_CHANGEs of the height among its genuine
messages. -/
def Call.CertifiesChanges (c : Call) (e : ConsensusEngine) : Prop :=
  ∀ p, c.Enters e p → ∀ m ∈ p.roundChangeCert, authentic e.validators m = .ok true →
    validRoundChange e.validators e.height m = .ok true →
    m.type = .ROUND_CHANGE ∧ m.height = e.height

/-- Only a certificate that is ingested can bring anything else than ROUND_CHANGEs. -/
lemma StoresEntries.move (h : StoresEntries s.engine) (hs : Reached e₀ c s)
    (hcert : c.CertifiesChanges e₀) (hme : e₀.me ∈ e₀.validators.validators)
    (hlock : LockVerifies s.engine) (hmove : Move e₀ c s s') : StoresEntries s'.engine := by
  have hsince := hs.since
  cases hmove with
  | @store m hm hauth hvalid =>
    intro t p hp
    rcases Dict.mem_items_getD_setIn hp with ⟨rfl, rfl⟩ | hp
    · have hchange : m.type = .ROUND_CHANGE ∧ m.height = e₀.height := by
        rcases hm with ⟨hm, -⟩ | ⟨q, hq, hmem⟩
        · exact ⟨hm.type, hm.accepted.height⟩
        · exact hcert q hq m hmem hauth hvalid
      exact ⟨rfl, hchange.1, rfl, hsince.validators.symm ▸ hauth,
        hsince.validators.symm ▸ hsince.height.symm ▸ hvalid, hchange.2.trans hsince.height.symm⟩
    · exact h t p hp
  | leave hch ht hr hwhy hm =>
    intro t p hp
    rcases Dict.mem_items_getD_setIn hp with ⟨rfl, rfl⟩ | hp
    · refine hlock.roundChangeEntry ?_ hm
      rw [hsince.me, hsince.validators]
      exact hme
    · exact h t p hp
  | _ => exact h

/-- A ROUND_CHANGE that passes has its sender counted. -/
lemma mem_keys_validRoundChanges {validators : ValidatorSet} {height target : ℤ}
    {cert : List ConsensusMessage} {valid : Dict PyStr ConsensusMessage}
    (h : validRoundChanges validators height cert target = .ok valid) {m : ConsensusMessage}
    (hm : m ∈ cert) (hentry : RoundChangeEntry validators height target (m.sender, m)) :
    m.sender ∈ valid.keys := by
  refine foldlM_forall (P := fun (m : ConsensusMessage) (valid : Dict PyStr ConsensusMessage) =>
    RoundChangeEntry validators height target (m.sender, m) → m.sender ∈ valid.keys) ?_ ?_ h m hm
    hentry
  · intro m _ acc out hout hentry
    rw [if_pos ⟨hentry.type, hentry.height, hentry.round⟩, hentry.authentic] at hout
    simp only [bind, Except.bind, if_true, hentry.valid] at hout
    cases hout
    exact Dict.mem_keys_set.mpr (Or.inl rfl)
  · intro m _ acc out hout m' hm' hentry
    have hkeys : acc.keys ⊆ out.keys := by
      split_ifs at hout
      · simp only [bind, Except.bind] at hout
        split at hout
        · cases hout
        · split_ifs at hout
          · split at hout
            · cases hout
            · split_ifs at hout
              · cases hout
                exact fun k hk => Dict.mem_keys_set.mpr (Or.inr hk)
              · cases hout
                exact List.Subset.refl _
          · cases hout
            exact List.Subset.refl _
      · cases hout
        exact List.Subset.refl _
    exact hkeys (hm' hentry)

/-- A single validator needs no other ROUND_CHANGE than its own. -/
lemma verifyRoundChangeCert_of_single {validators : ValidatorSet} (hsize : validators.size = 1)
    {height target : ℤ} {cert : List ConsensusMessage} {verdict : Bool × Option PyStr}
    (hv : verifyRoundChangeCert validators height cert target = .ok verdict)
    {m : ConsensusMessage} (hm : m ∈ cert)
    (hentry : RoundChangeEntry validators height target (m.sender, m)) : verdict.1 = true := by
  unfold verifyRoundChangeCert at hv
  cases hvalid : validRoundChanges validators height cert target with
  | error e => rw [hvalid] at hv; cases hv
  | ok valid =>
    have hkey := mem_keys_validRoundChanges hvalid hm hentry
    have hlen : validators.quorum ≤ valid.len := by
      rw [← valid.length_keys, ValidatorSet.quorum, hsize]
      have hpos := List.length_pos_of_mem hkey
      omega
    rw [hvalid] at hv
    simp only [Except.map, if_neg (not_lt.mpr hlen)] at hv
    cases hv
    rfl

end Helix

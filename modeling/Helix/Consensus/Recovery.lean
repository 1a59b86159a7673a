import Helix.Consensus.Run

/-!
# Crashes and the durable journal

A validator that restarts has only its journal. Every PREPARE and COMMIT is journaled before it is
sent and the journal never holds two votes for one round and phase, so votes do not equivocate over
any number of crashes (`votes_once`). Two other things are not protected that way: the lock follows
the last round prepared, not the highest, and a PRE_PREPARE is queued before the journal is asked.
-/

namespace Helix

variable [Crypto] {c : Call}

open Relation (ReflTransGen)

/-! ### Votes -/

/-- The row of a vote. -/
def ConsensusEngine.voteRow (e : ConsensusEngine) (r : ℤ) (p : VotePhase) (h : PyStr) : WalRow :=
  ⟨e.height, r, .vote p h⟩

omit [Crypto] in
lemma Frame.table_accept {s : Frame} (hd : s.engine.journal.Durable s.engine.height)
    (block : Block) (h : PyStr) (m : ConsensusMessage) :
    (s.accept block h m).engine.journal.table =
      s.engine.journal.table ++ [s.engine.voteRow s.engine.round .PREPARE h] :=
  hd.table_recordVote _ _ _

lemma Frame.table_prepare {s : Frame} (hd : s.engine.journal.Durable s.engine.height)
    (block : Block) (h : PyStr) (m : ConsensusMessage) :
    (s.prepare block h m).engine.journal.table = s.engine.journal.table ++
      [⟨s.engine.height, s.engine.round, .prepared block (s.engine.prepares.getD h).values⟩,
        s.engine.voteRow s.engine.round .COMMIT h] := by
  refine ((hd.recordPrepared _).table_recordVote _ _ _).trans ?_
  rw [hd.table_recordPrepared, List.append_assoc]
  rfl

/-- Every vote sent stands in the journal, a COMMIT together with the lock, and the journal holds
one vote for each round and phase. -/
structure VotesJournaled (v : Validator) : Prop where
  durable : v.engine.journal.Durable v.engine.height
  prepares : ∀ m ∈ v.sent, m.type = .PREPARE →
    v.engine.voteRow m.round .PREPARE m.blockHash ∈ v.engine.journal.table
  commits : ∀ m ∈ v.sent, m.type = .COMMIT →
    v.engine.voteRow m.round .COMMIT m.blockHash ∈ v.engine.journal.table ∧
    ∃ block cert, block.hash = .ok m.blockHash ∧
      ⟨v.engine.height, m.round, .prepared block cert⟩ ∈ v.engine.journal.table
  unique : ∀ r p h h', v.engine.voteRow r p h ∈ v.engine.journal.table →
    v.engine.voteRow r p h' ∈ v.engine.journal.table → h = h'

/-- The journal's own answer is the only vote it holds. -/
lemma VotesJournaled.eq_of_prior {v : Validator} (hv : VotesJournaled v) {r : ℤ} {p : VotePhase}
    {h h' : PyStr} (hprior : ∀ g ∈ v.engine.journal.votedHash r p, g = h)
    (hmem : v.engine.voteRow r p h' ∈ v.engine.journal.table) : h' = h := by
  obtain ⟨g, hg⟩ := hv.durable.exists_votedHash_of_mem_table hmem
  have hgrow := hv.durable.mem_table_of_votedHash hg
  rw [hv.unique r p h' g hmem hgrow]
  exact hprior g hg

/-- A step that sends no vote and leaves the journal alone. -/
lemma VotesJournaled.send {v v' : Validator} (hv : VotesJournaled v) {l : List ConsensusMessage}
    (hsent : v'.sent = v.sent ++ l) (hjournal : v'.engine.journal = v.engine.journal)
    (hheight : v'.engine.height = v.engine.height)
    (hl : ∀ m ∈ l, m.type ≠ .PREPARE ∧ m.type ≠ .COMMIT) : VotesJournaled v' := by
  have hmem : ∀ m ∈ v'.sent, m.IsVote → m ∈ v.sent := by
    intro m hm ht
    rw [hsent] at hm
    rcases List.mem_append.mp hm with hm | hm
    · exact hm
    · exact absurd ht (not_or.mpr (hl m hm))
  refine ⟨?_, fun m hm ht => ?_, fun m hm ht => ?_, ?_⟩
  · rw [hjournal, hheight]
    exact hv.durable
  · rw [ConsensusEngine.voteRow, hjournal, hheight]
    exact hv.prepares m (hmem m hm (Or.inl ht)) ht
  · rw [ConsensusEngine.voteRow, hjournal, hheight]
    exact hv.commits m (hmem m hm (Or.inr ht)) ht
  · intro r p h h'
    rw [ConsensusEngine.voteRow, ConsensusEngine.voteRow, hjournal, hheight]
    exact hv.unique r p h h'

/-- What the table holds besides the rows of one new vote. -/
lemma VotesJournaled.unique_append {v : Validator} (hv : VotesJournaled v) {r : ℤ} {p : VotePhase}
    {h : PyStr} {l : List WalRow}
    (hprior : ∀ g ∈ v.engine.journal.votedHash r p, g = h)
    (hrows : ∀ r' p' h', v.engine.voteRow r' p' h' ∈ l → r' = r ∧ p' = p ∧ h' = h) :
    ∀ r' p' g g', v.engine.voteRow r' p' g ∈ v.engine.journal.table ++ l →
      v.engine.voteRow r' p' g' ∈ v.engine.journal.table ++ l → g = g' := by
  intro r' p' g g' hg hg'
  rcases List.mem_append.mp hg with hg | hg
  · rcases List.mem_append.mp hg' with hg' | hg'
    · exact hv.unique r' p' g g' hg hg'
    · obtain ⟨rfl, rfl, rfl⟩ := hrows r' p' g' hg'
      exact hv.eq_of_prior hprior hg
  · obtain ⟨rfl, rfl, rfl⟩ := hrows r' p' g hg
    rcases List.mem_append.mp hg' with hg' | hg'
    · exact (hv.eq_of_prior hprior hg').symm
    · exact (hrows r' p' g' hg').2.2.symm

lemma VotesJournaled.during {v : Validator} (hv : VotesJournaled v) {s : Frame}
    (hs : Reached v.engine c s) : VotesJournaled (v.during c s) := by
  refine Validator.during_induction v c ?_ ?_ hs
  · exact hv.send (l := []) (by simp [Validator.during]) rfl rfl (fun m hm => by cases hm)
  · intro s s' hs ih hmove
    cases hmove with
    | leave hch ht hr hwhy hm =>
      rename_i target m
      refine ih.send (l := [m]) ?_ rfl rfl ?_
      · simp [Validator.during, Frame.leave, Frame.send, Frame.mapEngine]
      · intro a ha
        rw [List.mem_singleton.mp ha, (ConsensusEngine.roundChange_eq hm).1]
        decide
    | refuse horigin hphase hh hprior hne =>
      rename_i block h h' pre
      refine ih.send (l := pre) ?_ rfl rfl ?_
      · simp [Validator.during, Frame.send]
      · intro a ha
        rw [horigin.types a ha]
        decide
    | accept horigin hphase hh hprior hm =>
      rename_i block h m pre
      obtain ⟨htype, -, hround, hhash, -⟩ := ConsensusMessage.create_eq hm
      have htable := Frame.table_accept (s := s.send pre) ih.durable block h m
      have hsent : ∀ a ∈ (v.during c ((s.send pre).accept block h m)).sent, a.IsVote →
          a ∈ (v.during c s).sent ∨ a = m := by
        intro a ha hvote
        simp only [Validator.during, Frame.accept, Frame.mapEngine, Frame.send,
          ← List.append_assoc, List.mem_append, List.mem_singleton] at ha
        rcases ha with ((ha | ha) | ha) | ha
        · exact Or.inl (List.mem_append_left _ ha)
        · exact Or.inl (List.mem_append_right _ ha)
        · rcases hvote with h | h <;> rw [horigin.types a ha] at h <;> cases h
        · exact Or.inr ha
      refine ⟨ih.durable.recordVote _ _ _, fun a ha hat => ?_, fun a ha hat => ?_, ?_⟩
      · rcases hsent a ha (Or.inl hat) with ha | rfl
        · exact htable ▸ List.mem_append_left _ (ih.prepares a ha hat)
        · rw [hround, hhash]
          exact htable ▸ List.mem_append_right _ List.mem_cons_self
      · rcases hsent a ha (Or.inr hat) with ha | rfl
        · obtain ⟨hrow, b, cert, hb, hlock⟩ := ih.commits a ha hat
          refine ⟨?_, b, cert, hb, ?_⟩
          · exact htable ▸ List.mem_append_left _ hrow
          · exact htable ▸ List.mem_append_left _ hlock
        · rw [htype] at hat
          cases hat
      · have hu := ih.unique_append hprior (l := [⟨s.engine.height, s.engine.round,
          .vote .PREPARE h⟩]) (fun r' p' h' hmem => by
            rw [List.mem_singleton] at hmem
            cases hmem
            exact ⟨rfl, rfl, rfl⟩)
        exact fun r p g g' hg hg' => hu r p g g' (htable ▸ hg) (htable ▸ hg')
    | prepare hopen hphase hblock hh hquorum hprior hm =>
      rename_i block h m
      obtain ⟨htype, -, hround, hhash, -⟩ := ConsensusMessage.create_eq hm
      have htable := Frame.table_prepare ih.durable block h m
      have hsent : ∀ a ∈ (v.during c (s.prepare block h m)).sent,
          a ∈ (v.during c s).sent ∨ a = m := by
        intro a ha
        simp only [Validator.during, Frame.prepare, Frame.mapEngine, Frame.send,
          ← List.append_assoc] at ha
        rcases List.mem_append.mp ha with ha | ha
        · exact Or.inl ha
        · exact Or.inr (List.mem_singleton.mp ha)
      refine ⟨(ih.durable.recordPrepared _).recordVote _ _ _, fun a ha hat => ?_,
        fun a ha hat => ?_, ?_⟩
      · rcases hsent a ha with ha | rfl
        · exact htable ▸ List.mem_append_left _ (ih.prepares a ha hat)
        · rw [htype] at hat
          cases hat
      · rcases hsent a ha with ha | rfl
        · obtain ⟨hrow, b, cert, hb, hlock⟩ := ih.commits a ha hat
          refine ⟨?_, b, cert, hb, ?_⟩
          · exact htable ▸ List.mem_append_left _ hrow
          · exact htable ▸ List.mem_append_left _ hlock
        · rw [hround, hhash]
          refine ⟨?_, block, (s.engine.prepares.getD h).values, hh, ?_⟩
          · exact htable ▸ List.mem_append_right _ (List.mem_cons_of_mem _ List.mem_cons_self)
          · exact htable ▸ List.mem_append_right _ List.mem_cons_self
      · have hu := ih.unique_append hprior (l := [⟨s.engine.height, s.engine.round,
          .prepared block (s.engine.prepares.getD h).values⟩,
          s.engine.voteRow s.engine.round .COMMIT h]) (fun r' p' h' hmem => by
            simp only [List.mem_cons, List.not_mem_nil, or_false] at hmem
            rcases hmem with hmem | hmem
            · cases hmem
            · cases hmem
              exact ⟨rfl, rfl, rfl⟩)
        exact fun r p g g' hg hg' => hu r p g g' (htable ▸ hg) (htable ▸ hg')
    | _ => exact ⟨ih.durable, ih.prepares, ih.commits, ih.unique⟩

lemma VotesJournaled.call {v : Validator} (hv : VotesJournaled v) (c : Call) :
    VotesJournaled (v.call c) := hv.during (c.run_moves v.engine)

/-- A call only appends to the journal, and the locks that it appends are those it can prepare. -/
lemma Reached.rows {e₀ : ConsensusEngine} {s : Frame} (hs : Reached e₀ c s)
    (hd : e₀.journal.Durable e₀.height) :
    s.engine.journal.Durable s.engine.height ∧
    ∃ rows, s.engine.journal.table = e₀.journal.table ++ rows ∧
      ∀ r block cert, ⟨e₀.height, r, .prepared block cert⟩ ∈ rows → ∃ h, CanPrepare e₀ c r h := by
  induction hs with
  | refl => exact ⟨hd, [], (List.append_nil _).symm, nofun⟩
  | tail hs hmove ih =>
    have hsince := Reached.since hs
    obtain ⟨hdur, rows, htable, hrows⟩ := ih
    cases hmove with
    | accept horigin hphase hh hprior hm =>
      rename_i s block h m pre
      refine ⟨hdur.recordVote _ _ _, rows ++ [s.engine.voteRow s.engine.round .PREPARE h], ?_,
        fun r block cert hmem => ?_⟩
      · rw [← List.append_assoc, ← htable]
        exact Frame.table_accept (s := s.send pre) hdur block h m
      · rcases List.mem_append.mp hmem with hmem | hmem
        · exact hrows r block cert hmem
        · simp [ConsensusEngine.voteRow] at hmem
    | prepare hopen hphase hblock hh hquorum hprior hm =>
      rename_i s block h m
      refine ⟨(hdur.recordPrepared _).recordVote _ _ _, rows ++ [⟨s.engine.height, s.engine.round,
        .prepared block (s.engine.prepares.getD h).values⟩,
        s.engine.voteRow s.engine.round .COMMIT h], ?_, ?_⟩
      · rw [← List.append_assoc, ← htable]
        exact Frame.table_prepare hdur block h m
      · intro r b cert hmem
        rcases List.mem_append.mp hmem with hmem | hmem
        · exact hrows r b cert hmem
        · simp only [List.mem_cons, List.not_mem_nil, or_false] at hmem
          rcases hmem with hmem | hmem
          · rw [WalRow.mk.injEq] at hmem
            rw [hmem.2.1]
            exact ⟨h, Reached.canPrepare hs ⟨hopen, hphase, ⟨_, hblock, hh⟩, hquorum⟩⟩
          · simp [ConsensusEngine.voteRow] at hmem
    | _ => exact ⟨hdur, rows, htable, hrows⟩

/-- A restart is a crash before the next timeout has done anything. -/
lemma Validator.Step.restart {ok : ConsensusEngine → Call → Prop} {v : Validator}
    (hd : v.engine.journal.Durable v.engine.height)
    (hme : v.engine.me ∈ v.engine.validators.validators) (hc : ok v.engine .onTimeout)
    (nowMs : ℕ → ℤ) : Validator.Step ok v (v.restart nowMs) := by
  obtain ⟨-, rows, htable, -⟩ := (Call.onTimeout.run_moves v.engine).rows hd
  refine .crash .onTimeout hc (List.prefix_refl _) ⟨rows, htable.symm⟩ ?_ nofun
    ⟨_, ConsensusEngine.new_eq_ok.mpr ⟨hme, rfl⟩⟩
  rw [List.append_nil]
  exact List.prefix_append _ _

/-- A restart finds every vote that was sent, and no other vote for its round and phase. -/
lemma VotesJournaled.crash {v : Validator} (hv : VotesJournaled v) {table : List WalRow}
    {lost : List ConsensusMessage} {nowMs : ℕ → ℤ} (hbefore : v.engine.journal.table <+: table)
    (hafter : table <+: (v.call c).engine.journal.table) :
    VotesJournaled (v.reboot c lost nowMs table) := by
  have hheight : (v.call c).engine.height = v.engine.height := (c.run_moves v.engine).since.height
  refine ⟨VoteJournal.durable_openView _ _, fun m hm ht => ?_, fun m hm ht => ?_, ?_⟩
  · exact hbefore.subset (hv.prepares m hm ht)
  · obtain ⟨hrow, b, cert, hb, hlock⟩ := hv.commits m hm ht
    exact ⟨hbefore.subset hrow, b, cert, hb, hbefore.subset hlock⟩
  · intro r p h h' hh hh'
    have hcall := (hv.call c).unique r p h h'
    rw [ConsensusEngine.voteRow, ConsensusEngine.voteRow, hheight] at hcall
    exact hcall (hafter.subset hh) (hafter.subset hh')

lemma VotesJournaled.step {ok : ConsensusEngine → Call → Prop} {v v' : Validator}
    (hv : VotesJournaled v) (hstep : Validator.Step ok v v') : VotesJournaled v' := by
  cases hstep with
  | call c hc => exact hv.call c
  | crash c hc hbefore hafter => exact hv.crash hbefore hafter

/-- A validator at the start of a height: the journal has no rows of it. -/
structure Validator.Starts (v : Validator) : Prop where
  journal : ∃ validators privateKey height previousHash nowMs table,
    (∀ row ∈ table, row.height ≠ height) ∧
    ConsensusEngine.new validators privateKey height previousHash nowMs
      (.sql (.openView table height)) = .ok v.engine
  sent : v.sent = []

lemma VotesJournaled.of_starts {v : Validator} (hv : v.Starts) : VotesJournaled v := by
  obtain ⟨⟨validators, privateKey, height, previousHash, nowMs, table, hrows, hnew⟩, hsent⟩ := hv
  obtain ⟨-, he⟩ := ConsensusEngine.new_eq_ok.mp hnew
  refine ⟨?_, fun m hm => ?_, fun m hm => ?_, fun r p h h' hmem => ?_⟩
  · rw [he]
    exact VoteJournal.durable_openView table height
  · rw [hsent] at hm
    cases hm
  · rw [hsent] at hm
    cases hm
  · rw [ConsensusEngine.voteRow, he] at hmem
    exact absurd rfl (hrows _ hmem)

lemma VotesJournaled.of_run {ok : ConsensusEngine → Call → Prop} {v₀ v : Validator}
    (hv : v₀.Starts) (hrun : ReflTransGen (Validator.Step ok) v₀ v) : VotesJournaled v := by
  induction hrun with
  | refl => exact .of_starts hv
  | tail _ hstep ih => exact ih.step hstep

/-- Over any run with crashes, every PREPARE and COMMIT that was sent is journaled, COMMITs together
with the lock, and the votes of one round and phase are for one block. -/
theorem votes_once {v₀ v : Validator} (hstart : v₀.Starts)
    (hrun : ReflTransGen (Validator.Step fun _ _ => True) v₀ v) :
    (∀ m ∈ v.sent, m.type = .PREPARE →
      v.engine.voteRow m.round .PREPARE m.blockHash ∈ v.engine.journal.table) ∧
    (∀ m ∈ v.sent, m.type = .COMMIT →
      v.engine.voteRow m.round .COMMIT m.blockHash ∈ v.engine.journal.table ∧
      ∃ block cert, block.hash = .ok m.blockHash ∧
        ⟨v.engine.height, m.round, .prepared block cert⟩ ∈ v.engine.journal.table) ∧
    ∀ m ∈ v.sent, ∀ m' ∈ v.sent, m.IsVote → m'.type = m.type → m'.round = m.round →
      m'.blockHash = m.blockHash := by
  have hv := VotesJournaled.of_run hstart hrun
  refine ⟨hv.prepares, hv.commits, fun m hm m' hm' hvote ht hr => ?_⟩
  rcases hvote with hp | hp
  · have h := hv.prepares m hm hp
    have h' := hv.prepares m' hm' (ht.trans hp)
    rw [hr] at h'
    exact hv.unique _ _ _ _ h' h
  · have h := (hv.commits m hm hp).1
    have h' := (hv.commits m' hm' (ht.trans hp)).1
    rw [hr] at h'
    exact hv.unique _ _ _ _ h' h

lemma Validator.Starts.me_mem {v : Validator} (hv : v.Starts) :
    v.engine.me ∈ v.engine.validators.validators := by
  obtain ⟨⟨validators, privateKey, height, previousHash, nowMs, table, -, hnew⟩, -⟩ := hv
  obtain ⟨hmem, he⟩ := ConsensusEngine.new_eq_ok.mp hnew
  rw [he]
  exact hmem

lemma Validator.me_mem_call {v : Validator} (hv : v.engine.me ∈ v.engine.validators.validators)
    (c : Call) : (v.call c).engine.me ∈ (v.call c).engine.validators.validators := by
  rw [(v.since_call c).me, (v.since_call c).validators]
  exact hv

/-- The engine of `seedKey n` with an empty table, for concrete runs. -/
def Validator.ofSeed (validators : ValidatorSet) (n : UInt8) : Validator :=
  { engine := .ofSeed validators n (.sql (.openView [] 1)) }

lemma Validator.starts_ofSeed {validators : ValidatorSet} {n : UInt8}
    (hmem : (seedKey n).publicKey ∈ validators.validators) :
    (Validator.ofSeed validators n).Starts :=
  ⟨⟨_, _, _, _, _, [], nofun, ConsensusEngine.new_eq_ok.mpr ⟨hmem, rfl⟩⟩, rfl⟩

omit [Crypto] in
/-- A lone validator that proposes, restarts and proposes again has voted once. -/
theorem votes_once_over_restart :
    letI := Crypto.checksums
    let c : Call := .setPending [] [⟨.ADD, []⟩]
    let v := (((Validator.ofSeed .single 0xaa).call c).restart fun i => i + 9).call c
    v.sent.map (·.type) = [.PRE_PREPARE, .PREPARE, .COMMIT, .PRE_PREPARE] ∧
    ∀ m ∈ v.sent, ∀ m' ∈ v.sent, m.IsVote → m'.type = m.type → m'.round = m.round →
      m'.blockHash = m.blockHash := by
  let := Crypto.checksums
  intro c v
  have hstart : (Validator.ofSeed .single 0xaa).Starts :=
    Validator.starts_ofSeed (by decide +kernel)
  refine ⟨by decide +kernel, (votes_once hstart ?_).2.2⟩
  refine ((ReflTransGen.single (.call c trivial)).tail ?_).tail (.call c trivial)
  exact .restart ((VotesJournaled.of_starts hstart).call c).durable
    (Validator.me_mem_call hstart.me_mem c) trivial _

/-! ### The lock -/

/-- The votes at hand let the call prepare only in rounds that are not below the lock. -/
def LocksAhead (e : ConsensusEngine) (c : Call) : Prop :=
  ∀ r h, CanPrepare e c r h → ∀ p ∈ e.preparedRound, p ≤ r

/-- A lock is at least as high as another; no lock is lowest. -/
def LockLe (p q : Option ℤ) : Prop := ∀ r ∈ p, ∃ r' ∈ q, r ≤ r'

omit [Crypto] in
lemma LockLe.refl (p : Option ℤ) : LockLe p p := fun r hr => ⟨r, hr, le_rfl⟩

omit [Crypto] in
lemma LockLe.trans {p q r : Option ℤ} (h : LockLe p q) (h' : LockLe q r) : LockLe p r := by
  intro a ha
  obtain ⟨b, hb, hab⟩ := h a ha
  obtain ⟨c, hc, hbc⟩ := h' b hb
  exact ⟨c, hc, hab.trans hbc⟩

/-- Where a call keeps its locks ahead, a prepare step does not lower the lock. -/
lemma Reached.lock_le_round {e₀ : ConsensusEngine} {s : Frame} (hs : Reached e₀ c s)
    (hc : LocksAhead e₀ c) {h : PyStr} (hlocks : c.Locks e₀ s.engine h) :
    ∀ p ∈ s.engine.preparedRound, p ≤ s.engine.round := by
  have hlock : s.engine.preparedRound = e₀.preparedRound ∨
      ∃ p, s.engine.preparedRound = some p ∧ p ≤ s.engine.round := by
    clear hlocks
    induction hs with
    | refl => exact Or.inl rfl
    | tail hs hmove ih =>
      cases hmove with
      | adopt hr => exact ih.imp_right fun ⟨p, hp, hle⟩ => ⟨p, hp, hle.trans hr.le⟩
      | prepare => exact Or.inr ⟨_, rfl, le_rfl⟩
      | _ => exact ih
  intro p hp
  rcases hlock with heq | ⟨q, hq, hle⟩
  · exact hc _ h (hs.canPrepare hlocks) p (heq ▸ hp)
  · rw [hq] at hp
    cases hp
    exact hle

/-- The lock is the one that a restart would restore; it covers every COMMIT, and so does every
ROUND_CHANGE for the COMMITs before it. -/
structure LockCovers (v : Validator) : Prop where
  durable : v.engine.journal.Durable v.engine.height
  restores : v.engine.journal.prepared.map (·.round) = v.engine.preparedRound
  commits : ∀ m ∈ v.sent, m.type = .COMMIT → ∃ p ∈ v.engine.preparedRound, m.round ≤ p
  reports : v.sent.Pairwise fun a b => a.type = .COMMIT → b.type = .ROUND_CHANGE →
    ∃ p ∈ b.preparedRound, a.round ≤ p

omit [Crypto] in
lemma LockCovers.send {v v' : Validator} (hv : LockCovers v) {l : List ConsensusMessage}
    (hsent : v'.sent = v.sent ++ l) (hdur : v'.engine.journal.Durable v'.engine.height)
    (hjournal : v'.engine.journal.prepared = v.engine.journal.prepared)
    (hlock : v'.engine.preparedRound = v.engine.preparedRound)
    (hl : ∀ m ∈ l, m.type ≠ .COMMIT ∧
      (m.type = .ROUND_CHANGE → m.preparedRound = v.engine.preparedRound)) : LockCovers v' := by
  refine ⟨hdur, ?_, fun m hm ht => ?_, ?_⟩
  · rw [hjournal, hlock]
    exact hv.restores
  · rw [hsent] at hm
    rw [hlock]
    rcases List.mem_append.mp hm with hm | hm
    · exact hv.commits m hm ht
    · exact absurd ht (hl m hm).1
  · rw [hsent]
    refine List.pairwise_append.mpr ⟨hv.reports, ?_, fun a ha b hb hat hbt => ?_⟩
    · exact List.pairwise_of_forall_mem_list fun a ha b _ ht => absurd ht (hl a ha).1
    · rw [(hl b hb).2 hbt]
      exact hv.commits a ha hat

lemma LockCovers.call {v : Validator} (hv : LockCovers v) (hc : LocksAhead v.engine c) :
    LockCovers (v.call c) ∧ LockLe v.engine.preparedRound (v.call c).engine.preparedRound := by
  refine Validator.call_induction (P := fun w => LockCovers w ∧
    LockLe v.engine.preparedRound w.engine.preparedRound) v c ?_ ?_
  · exact ⟨hv.send (l := []) (by simp [Validator.during]) hv.durable rfl rfl
      (fun m hm => by cases hm), LockLe.refl _⟩
  · rintro s s' hs ⟨ih, hle⟩ hmove
    cases hmove with
    | leave hch ht hr hwhy hm =>
      rename_i target m
      obtain ⟨htype, -, -, -, -, -, hlock, -⟩ := ConsensusEngine.roundChange_eq hm
      refine ⟨ih.send (l := [m]) ?_ ih.durable rfl rfl fun a ha => ?_, hle⟩
      · simp [Validator.during, Frame.leave, Frame.send, Frame.mapEngine]
      · rw [List.mem_singleton.mp ha, htype]
        exact ⟨by decide, fun _ => hlock⟩
    | refuse horigin hphase hh hprior hne =>
      rename_i block h h' pre
      refine ⟨ih.send (l := pre) ?_ ih.durable rfl rfl fun a ha => ?_, hle⟩
      · simp [Validator.during, Frame.send]
      · rw [horigin.types a ha]
        exact ⟨by decide, fun h => by cases h⟩
    | accept horigin hphase hh hprior hm =>
      rename_i block h m pre
      refine ⟨ih.send (l := pre ++ [m]) ?_ (ih.durable.recordVote _ _ _)
        (ih.durable.prepared_recordVote _ _ _) rfl fun a ha => ?_, hle⟩
      · simp [Validator.during, Frame.accept, Frame.send, Frame.mapEngine]
      · rcases List.mem_append.mp ha with ha | ha
        · rw [horigin.types a ha]
          exact ⟨by decide, fun h => by cases h⟩
        · rw [List.mem_singleton.mp ha, (ConsensusMessage.create_eq hm).1]
          exact ⟨by decide, fun h => by cases h⟩
    | prepare hopen hphase hblock hh hquorum hprior hm =>
      rename_i block h m
      obtain ⟨htype, -, hround, -⟩ := ConsensusMessage.create_eq hm
      have hmax := hs.lock_le_round hc ⟨hopen, hphase, ⟨_, hblock, hh⟩, hquorum⟩
      have hnew : LockLe s.engine.preparedRound (some s.engine.round) :=
        fun p hp => ⟨_, rfl, hmax p hp⟩
      have hsent : (v.during c (s.prepare block h m)).sent = (v.during c s).sent ++ [m] := by
        simp [Validator.during, Frame.prepare, Frame.send, Frame.mapEngine]
      refine ⟨⟨(ih.durable.recordPrepared _).recordVote _ _ _, ?_, fun a ha hat => ?_, ?_⟩,
        hle.trans hnew⟩
      · exact congrArg (Option.map (·.round)) (ih.durable.prepared_recordPrepared _ _ _ _)
      · rw [hsent] at ha
        rcases List.mem_append.mp ha with ha | ha
        · obtain ⟨p, hp, hap⟩ := ih.commits a ha hat
          exact ⟨_, rfl, hap.trans (hmax p hp)⟩
        · rw [List.mem_singleton.mp ha, hround]
          exact ⟨_, rfl, le_rfl⟩
      · rw [hsent]
        refine List.pairwise_append.mpr ⟨ih.reports, List.pairwise_singleton _ _, ?_⟩
        intro a _ b hb _ hbt
        rw [List.mem_singleton.mp hb, htype] at hbt
        cases hbt
    | _ => exact ⟨⟨ih.durable, ih.restores, ih.commits, ih.reports⟩, hle⟩

/-- A restart in the middle of a call restores the old lock or one that the call has written. -/
lemma LockCovers.crash {v : Validator} (hv : LockCovers v) (hc : LocksAhead v.engine c)
    {table : List WalRow} {lost : List ConsensusMessage} {nowMs : ℕ → ℤ}
    (hbefore : v.engine.journal.table <+: table)
    (hafter : table <+: (v.call c).engine.journal.table) :
    LockCovers (v.reboot c lost nowMs table) ∧
    LockLe v.engine.preparedRound
      (((SqlHeightView.loadCache table v.engine.height).prepared).map (·.round)) := by
  have hle : LockLe v.engine.preparedRound
      (((SqlHeightView.loadCache table v.engine.height).prepared).map (·.round)) := by
    obtain ⟨new, rfl⟩ := hbefore
    obtain ⟨-, rows, htable, hrows⟩ := (c.run_moves v.engine).rows hv.durable
    have hsub : new ⊆ rows := by
      have hpre : v.engine.journal.table ++ new <+: v.engine.journal.table ++ rows :=
        htable ▸ hafter
      exact ((List.prefix_append_right_inj _).mp hpre).subset
    rcases SqlHeightView.prepared_loadCache_append v.engine.journal.table new v.engine.height with
      hold | ⟨r, block, cert, hmem, hnew⟩
    · rw [hold, ← hv.durable.prepared_eq, hv.restores]
      exact LockLe.refl _
    · rw [hnew]
      obtain ⟨h, hcan⟩ := hrows r block cert (hsub hmem)
      exact fun p hp => ⟨r, rfl, hc r h hcan p hp⟩
  refine ⟨⟨VoteJournal.durable_openView _ _, rfl, fun m hm ht => ?_, hv.reports⟩, hle⟩
  obtain ⟨p, hp, hmp⟩ := hv.commits m hm ht
  obtain ⟨q, hq, hpq⟩ := hle p hp
  exact ⟨q, hq, hmp.trans hpq⟩

lemma LockCovers.step {v v' : Validator} (hv : LockCovers v)
    (hstep : Validator.Step LocksAhead v v') :
    LockCovers v' ∧ LockLe v.engine.preparedRound v'.engine.preparedRound := by
  cases hstep with
  | call c hc => exact hv.call hc
  | crash c hc hbefore hafter => exact hv.crash hc hbefore hafter

lemma LockCovers.of_starts {v : Validator} (hv : v.Starts) : LockCovers v := by
  refine ⟨(VotesJournaled.of_starts hv).durable, ?_, fun m hm => ?_, ?_⟩
  · obtain ⟨⟨_, _, _, _, _, _, -, hnew⟩, -⟩ := hv
    rw [(ConsensusEngine.new_eq_ok.mp hnew).2]
    rfl
  · rw [hv.sent] at hm
    cases hm
  · rw [hv.sent]
    exact .nil

lemma LockCovers.run {v v' : Validator} (hv : LockCovers v)
    (hrun : ReflTransGen (Validator.Step LocksAhead) v v') :
    LockCovers v' ∧ LockLe v.engine.preparedRound v'.engine.preparedRound := by
  induction hrun with
  | refl => exact ⟨hv, LockLe.refl _⟩
  | tail _ hstep ih =>
    obtain ⟨hcov, hle⟩ := ih.1.step hstep
    exact ⟨hcov, ih.2.trans hle⟩

/-- In a run whose calls find quorums only for rounds that are not below the lock, the lock never
regresses, over any number of crashes, and every ROUND_CHANGE covers the COMMITs sent before it. -/
theorem lock_never_regresses {v₀ v v' : Validator} (hstart : v₀.Starts)
    (hrun : ReflTransGen (Validator.Step LocksAhead) v₀ v)
    (hrun' : ReflTransGen (Validator.Step LocksAhead) v v') :
    LockLe v.engine.preparedRound v'.engine.preparedRound ∧
    v'.sent.Pairwise fun a b => a.type = .COMMIT → b.type = .ROUND_CHANGE →
      ∃ p ∈ b.preparedRound, a.round ≤ p := by
  have hv := ((LockCovers.of_starts hstart).run hrun).1
  obtain ⟨hcov, hle⟩ := hv.run hrun'
  exact ⟨hle, hcov.reports⟩

omit [Crypto] in
/-- The lock of a lone validator survives a restart that comes before its next timeout. -/
theorem lock_never_regresses_over_restart :
    letI := Crypto.checksums
    let v := (Validator.ofSeed .single 0xaa).call (.setPending [] [⟨.ADD, []⟩])
    v.engine.preparedRound = some 0 ∧
    LockLe v.engine.preparedRound (v.restart fun i => i + 9).engine.preparedRound := by
  let := Crypto.checksums
  intro v
  have hstart : (Validator.ofSeed .single 0xaa).Starts :=
    Validator.starts_ofSeed (by decide +kernel)
  have hlock : v.engine.preparedRound = some 0 := by decide +kernel
  have hround : v.engine.round = 0 := by decide +kernel
  have hahead : LocksAhead v.engine .onTimeout := by
    intro r h hcan p hp
    rw [hlock] at hp
    cases hp
    cases hcan.opens with
    | propose _ _ hc => cases hc
    | change _ hr => exact hround ▸ hr.le
    | prePrepare _ hm => cases hm.eq
    | vote _ hc => cases hc
  have hnone : (Validator.ofSeed .single 0xaa).engine.preparedRound = none := by decide +kernel
  have hfirst : Validator.Step LocksAhead (Validator.ofSeed .single 0xaa) v := by
    refine .call _ fun r h _ p hp => ?_
    rw [hnone] at hp
    cases hp
  have hsecond : Validator.Step LocksAhead v (v.restart fun i => i + 9) :=
    .restart ((VotesJournaled.of_starts hstart).call _).durable
      (Validator.me_mem_call hstart.me_mem _) hahead _
  exact ⟨hlock, (lock_never_regresses hstart (.single hfirst) (.single hsecond)).1⟩

omit [Crypto] in
/-- A lone validator prepares in round 1, restarts, and prepares in round 0. -/
theorem lock_regresses_after_restart :
    letI := Crypto.checksums
    let v₀ := Validator.ofSeed .single 0xaa
    let v := (v₀.call .onTimeout).restart fun i => i + 9
    let v' := v.call (.setPending [] [⟨.ADD, []⟩])
    v₀.Starts ∧ ReflTransGen (Validator.Step fun _ _ => True) v₀ v ∧
    Validator.Step (fun _ _ => True) v v' ∧
    v.engine.preparedRound = some 1 ∧ v'.engine.preparedRound = some 0 ∧
    ¬LockLe v.engine.preparedRound v'.engine.preparedRound := by
  let := Crypto.checksums
  intro v₀ v v'
  have hstart : v₀.Starts := Validator.starts_ofSeed (by decide +kernel)
  have hlock : v.engine.preparedRound = some 1 := by decide +kernel
  have hlock' : v'.engine.preparedRound = some 0 := by decide +kernel
  refine ⟨hstart, ?_, .call _ trivial, hlock, hlock', fun hle => ?_⟩
  · refine (ReflTransGen.single (.call .onTimeout trivial)).tail ?_
    exact .restart ((VotesJournaled.of_starts hstart).call _).durable
      (Validator.me_mem_call hstart.me_mem _) trivial _
  · obtain ⟨p, hp, hle⟩ := hle 1 hlock
    rw [hlock'] at hp
    cases hp
    omega

/-! ### Votes of a call -/

/-- The PREPARE votes found during a call were there before it, or are for rounds already voted
in. -/
lemma Reached.votedHash_since {e₀ : ConsensusEngine} {s : Frame} (hs : Reached e₀ c s) {r : ℤ}
    {h : PyStr} (hv : s.engine.journal.votedHash r .PREPARE = some h) :
    e₀.journal.votedHash r .PREPARE = some h ∨ r < s.engine.round ∨
      (r = s.engine.round ∧ s.engine.phase ≠ .NEW_ROUND) := by
  induction hs with
  | refl => exact Or.inl hv
  | tail hs hmove ih =>
    cases hmove with
    | adopt hr =>
      rcases ih hv with h | h | ⟨h, -⟩
      · exact Or.inl h
      · exact Or.inr (Or.inl (h.trans hr))
      · exact Or.inr (Or.inl (h ▸ hr))
    | accept horigin hphase hh hprior hm =>
      rename_i s block h' m pre
      by_cases hr : r = s.engine.round
      · exact Or.inr (Or.inr ⟨hr, fun h => by cases h⟩)
      · have hold : s.engine.journal.votedHash r .PREPARE = some h := by
          rw [← VoteJournal.votedHash_recordVote_of_ne s.engine.journal h'
            (fun heq => hr (Prod.mk.inj heq).1)]
          exact hv
        exact (ih hold).imp_right (Or.imp_right fun h => absurd h.1 hr)
    | prepare hopen hphase hblock hh hquorum hprior hm =>
      rename_i s block h' m
      have hold : s.engine.journal.votedHash r .PREPARE = some h := by
        rw [← VoteJournal.votedHash_recordPrepared s.engine.journal ⟨s.engine.round, block,
          (s.engine.prepares.getD h').values⟩, ← VoteJournal.votedHash_recordVote_of_ne _
          (r := s.engine.round) (p := .COMMIT) h' (fun heq => by cases (Prod.mk.inj heq).2)]
        exact hv
      exact (ih hold).imp_right (Or.imp_right fun h => ⟨h.1, fun heq => by cases heq⟩)
    | finalize hclose hphase =>
      exact (ih hv).imp_right (Or.imp_right fun h => ⟨h.1, fun heq => by cases heq⟩)
    | finalizeRaises hphase =>
      exact (ih hv).imp_right (Or.imp_right fun h => ⟨h.1, fun heq => by cases heq⟩)
    | _ => exact ih hv

end Helix

import Helix.Consensus.Schedule

/-!
# One block a round

A PREPARE quorum is read off the durable journals of the correct validators, so it outlives
restarts. In one round all quorums are for one block (`prepared_once_in_round`), whatever the
network delivers and however often correct validators crash.
-/

namespace Helix

variable [Crypto]

open Relation (ReflTransGen)

/-! ### Rows of the journal -/

/-- A row that only an engine writes that is PREPARED on `h` in round `r`. -/
def WalRow.Locks (row : WalRow) (height r : ℤ) (h : PyStr) : Prop :=
  row = ⟨height, r, .vote .COMMIT h⟩ ∨
    ∃ block cert, block.hash = .ok h ∧ row = ⟨height, r, .prepared block cert⟩

@[simp] lemma WalRow.locks_vote {height height' r r' : ℤ} {p : VotePhase} {h h' : PyStr} :
    (⟨height', r', .vote p h'⟩ : WalRow).Locks height r h ↔
      height' = height ∧ r' = r ∧ p = .COMMIT ∧ h' = h := by
  simp [WalRow.Locks]

@[simp] lemma WalRow.locks_prepared {height height' r r' : ℤ} {block : Block}
    {cert : List ConsensusMessage} {h : PyStr} :
    (⟨height', r', .prepared block cert⟩ : WalRow).Locks height r h ↔
      height' = height ∧ r' = r ∧ block.hash = .ok h := by
  constructor
  · rintro (h | ⟨block', cert', hh, h⟩)
    · cases h
    · cases h
      exact ⟨rfl, rfl, hh⟩
  · rintro ⟨rfl, rfl, hh⟩
    exact Or.inr ⟨block, cert, hh, rfl⟩

/-- A call only appends to the journal. -/
lemma Move.table_isPrefix {e₀ : ConsensusEngine} {c : Call} {s s' : Frame}
    (h : Move e₀ c s s') (hd : s.engine.journal.Durable s.engine.height) :
    s.engine.journal.table <+: s'.engine.journal.table := by
  cases h with
  | accept horigin hphase hh hprior hm =>
    rw [Frame.table_accept (s := s.send _) hd]
    exact List.prefix_append _ _
  | prepare hopen hphase hblock hh hquorum hprior hm =>
    rw [Frame.table_prepare hd]
    exact List.prefix_append _ _
  | _ => exact List.prefix_refl _

namespace Network

/-- The validators at the start of the height. -/
structure Starts (net : Network) (w : World) : Prop where
  starts : ∀ k, net.Correct k → (w k).Starts
  lost : ∀ k, net.Correct k → (w k).lost = []
  me : ∀ k, net.Correct k → (w k).engine.me = k
  validators : ∀ k, net.Correct k → (w k).engine.validators = net.validators
  height : ∀ k, net.Correct k → (w k).engine.height = net.height

variable {net : Network} {r : ℤ} {h : PyStr}

/-! ### Votes in the journals -/

/-- The durable journals. -/
abbrev Tables := PublicKey → List WalRow

/-- The durable journals of a world. -/
def tables (w : World) : Tables := fun k => (w k).engine.journal.table

variable {T T' : Tables}

variable (net T) in
/-- The votes in the journals; round changes are not journaled. -/
def journaled : Voting.Record PublicKey ℤ PyStr where
  prepared k r h := ⟨net.height, r, .vote .PREPARE h⟩ ∈ T k
  committed k r h := ⟨net.height, r, .vote .COMMIT h⟩ ∈ T k
  left _ _ := False

omit [Crypto] in
lemma Prepared.mono (hp : net.Prepared (net.journaled T) r h) (hT : ∀ k, T k ⊆ T' k) :
    net.Prepared (net.journaled T') r h := by
  obtain ⟨Q, hQ, hprep⟩ := hp
  exact ⟨Q, hQ, fun k hk hc => hT k (hprep k hk hc)⟩

variable (net T) in
/-- The sender is named as `to_hex` writes it, and a PREPARE of a correct validator stands in its
journal. -/
structure Genuine (m : ConsensusMessage) : Prop where
  spells : Spelling.canonical.Spells m
  prepared : ∀ k, PublicKey.fromHex m.sender = .ok k → net.Correct k → m.type = .PREPARE →
    m.height = net.height → m.verifySignature = .ok true →
      ⟨net.height, m.round, .vote .PREPARE m.blockHash⟩ ∈ T k

lemma Genuine.mono {m : ConsensusMessage} (hm : net.Genuine T m) (hT : ∀ k, T k ⊆ T' k) :
    net.Genuine T' m :=
  ⟨hm.spells, fun k hk hc ht hh hs => hT k (hm.prepared k hk hc ht hh hs)⟩

lemma genuine_vouches : net.Vouches (net.Genuine T) (net.journaled T) where
  spells _ hm := hm.spells
  prepared k r m hc hm hatt := by
    have hmem := hm.prepared k hatt.sender hc hatt.type hatt.height hatt.signature
    rw [hatt.round] at hmem
    exact hmem

/-! ### One validator among others -/

variable (net T) in
/-- What a correct validator holds, given the journals `T` of all. -/
structure Sound (k : PublicKey) (v : Validator) : Prop where
  me : v.engine.me = k
  validators : v.engine.validators = net.validators
  height : v.engine.height = net.height
  votes : VotesJournaled v
  lost : ∀ m ∈ v.lost, ∀ p : VotePhase, m.type = p.toMessageType →
    v.engine.voteRow m.round p m.blockHash ∈ v.engine.journal.table
  tallied : Tallied (net.Genuine T) v.engine
  rows : ∀ row ∈ v.engine.journal.table, ∀ r h, row.Locks net.height r h →
    net.Prepared (net.journaled T) r h
  phase : v.engine.phase.IsPrepared → ∀ block h, v.engine.proposal = some block →
    block.hash = .ok h → net.Prepared (net.journaled T) v.engine.round h

lemma Sound.mono {k : PublicKey} {v : Validator} (hv : net.Sound T k v) (hT : ∀ k, T k ⊆ T' k) :
    net.Sound T' k v :=
  { hv with
    tallied := hv.tallied.mono fun _ hm => hm.mono hT
    rows := fun row hrow r h hl => (hv.rows row hrow r h hl).mono hT
    phase := fun hp b h hb hh => (hv.phase hp b h hb hh).mono hT }

variable {k : PublicKey} {v : Validator} {c : Call} {s s' : Frame}

variable (net T) in
/-- What holds in the course of a call of `k`, where `T` are the journals before it; for the rows,
over every part of the journal that a crash could leave. -/
structure SoundDuring (k : PublicKey) (e : ConsensusEngine) : Prop where
  tallied : Tallied (net.Genuine (Function.update T k e.journal.table)) e
  rows : ∀ t, T k <+: t → t <+: e.journal.table → ∀ row ∈ t, ∀ r h, row.Locks net.height r h →
    net.Prepared (net.journaled (Function.update T k t)) r h
  phase : e.phase.IsPrepared → ∀ block h, e.proposal = some block → block.hash = .ok h →
    net.Prepared (net.journaled (Function.update T k e.journal.table)) e.round h

/-- Rows added to the journal, of which those of a lock are backed by the rows before them. -/
lemma SoundDuring.rows_append {e : ConsensusEngine} (he : net.SoundDuring T k e)
    (hT : T k <+: e.journal.table) {rows : List WalRow}
    (hrows : ∀ row ∈ rows, ∀ r h, row.Locks net.height r h →
      net.Prepared (net.journaled (Function.update T k e.journal.table)) r h) :
    ∀ t, T k <+: t → t <+: e.journal.table ++ rows → ∀ row ∈ t, ∀ r h,
      row.Locks net.height r h → net.Prepared (net.journaled (Function.update T k t)) r h := by
  intro t ht htable row hrow r h hlocks
  rcases List.prefix_or_prefix_of_prefix htable (List.prefix_append _ rows) with hle | ⟨t', rfl⟩
  · exact he.rows t ht hle row hrow r h hlocks
  · have ht' := (List.prefix_append_right_inj _).mp htable
    have hsub : ∀ k', Function.update T k e.journal.table k' ⊆
        Function.update T k (e.journal.table ++ t') k' :=
      update_subset_update (List.subset_append_left _ _)
    rcases List.mem_append.mp hrow with hrow | hrow
    · exact (he.rows _ hT (List.prefix_refl _) row hrow r h hlocks).mono hsub
    · exact (hrows row (ht'.subset hrow) r h hlocks).mono hsub

lemma SoundDuring.move (hv : net.Sound T k v) (hT : T k = v.engine.journal.table)
    (hc : ∀ m ∈ c.messages, net.Genuine T m) (hs : Reached v.engine c s)
    (ih : net.SoundDuring T k s.engine) (hmove : Move v.engine c s s') :
    net.SoundDuring T k s'.engine := by
  have hsince := hs.since
  have hvals : s.engine.validators = net.validators := hsince.validators.trans hv.validators
  have hheight : s.engine.height = net.height := hsince.height.trans hv.height
  have hdur : s.engine.journal.Durable s.engine.height := (hv.votes.during hs).durable
  have hpre : T k <+: s.engine.journal.table := by
    obtain ⟨-, rows, htable, -⟩ := hs.rows hv.votes.durable
    exact ⟨rows, by rw [hT, htable]⟩
  have hnext := hmove.table_isPrefix hdur
  have hsub : ∀ k', T k' ⊆ Function.update T k s'.engine.journal.table k' :=
    subset_update (hpre.trans hnext).subset
  -- the own votes stand in the own journal
  have hown : ∀ m ∈ s'.result.broadcast, m.IsVote →
      net.Genuine (Function.update T k s'.engine.journal.table) m := by
    intro m hm _
    have hs' : Reached v.engine c s' := hs.tail hmove
    have hsender : m.sender = k.toHex := hv.me ▸ (hs'.sentBy hm).sender
    refine ⟨Spelling.spells_canonical hsender, fun k' hk' _ ht _ _ => ?_⟩
    rw [hsender, PublicKey.fromHex_toHex] at hk'
    cases hk'
    have hrow := (hv.votes.during hs').prepares m (List.mem_append_right _ hm) ht
    rw [ConsensusEngine.voteRow, Validator.during, hs'.since.height, hv.height] at hrow
    rwa [Function.update_self]
  have htallied : Tallied (net.Genuine (Function.update T k s'.engine.journal.table)) s'.engine :=
    Tallied.move (hv.tallied.mono fun m hm => hm.mono hsub) hs
      (ih.tallied.mono fun m hm => hm.mono (update_subset_update hnext.subset)) hmove
      (fun m hm => (hc m hm).mono hsub) hown
  cases hmove with
  | adopt =>
    refine ⟨htallied, ih.rows, fun hp => ?_⟩
    rcases hp with h | h <;> cases h
  | accept horigin hphase hh hprior hm =>
    rename_i block h m pre
    have htable := Frame.table_accept (s := s.send pre) hdur block h m
    refine ⟨htallied, ?_, fun hp => ?_⟩
    · rw [htable]
      refine ih.rows_append hpre fun row hrow r h hlocks => ?_
      rw [List.mem_singleton.mp hrow] at hlocks
      cases (WalRow.locks_vote.mp hlocks).2.2.1
    · rcases hp with h | h <;> cases h
  | prepare hopen hphase hblock hh hquorum hprior hm =>
    rename_i block h m
    have htable := Frame.table_prepare hdur block h m
    have hprepared := Prepared.of_tallied genuine_vouches ih.tallied hvals hheight hquorum
    refine ⟨htallied, ?_, fun _ block' h' hb hh' => ?_⟩
    · rw [htable]
      refine ih.rows_append hpre fun row hrow r h' hlocks => ?_
      simp only [List.mem_cons, List.not_mem_nil, or_false] at hrow
      rcases hrow with rfl | rfl
      · obtain ⟨-, rfl, hh'⟩ := WalRow.locks_prepared.mp hlocks
        rw [hh] at hh'
        cases hh'
        exact hprepared
      · obtain ⟨-, rfl, -, rfl⟩ := WalRow.locks_vote.mp hlocks
        exact hprepared
    · have hb : s.engine.proposal = some block' := hb
      rw [hblock] at hb
      cases hb
      rw [hh] at hh'
      cases hh'
      exact hprepared.mono (update_subset_update hnext.subset)
  | finalize hclose hphase hblock hh hquorum hseal =>
    refine ⟨htallied, ih.rows, fun _ block' h' hb hh' => ?_⟩
    cases hb
    refine ih.phase (Or.inl hphase) _ h' hblock ?_
    rw [Block.hash, ← (attachSeals_spec hseal).1]
    exact hh'
  | finalizeRaises hphase =>
    exact ⟨htallied, ih.rows, fun _ => ih.phase (Or.inl hphase)⟩
  | _ => exact ⟨htallied, ih.rows, ih.phase⟩

lemma Sound.during (hv : net.Sound T k v) (hT : T k = v.engine.journal.table)
    (hc : ∀ m ∈ c.messages, net.Genuine T m) (hs : Reached v.engine c s) :
    net.SoundDuring T k s.engine := by
  induction hs with
  | refl =>
    have hv : net.Sound (Function.update T k v.engine.journal.table) k v :=
      hv.mono (subset_update (hT ▸ List.Subset.refl _))
    refine ⟨hv.tallied, fun t ht ht' => ?_, hv.phase⟩
    obtain rfl : t = v.engine.journal.table := ht'.eq_of_length_le (hT ▸ ht.length_le)
    exact hv.rows
  | tail hs hmove ih => exact ih.move hv hT hc hs hmove

lemma Sound.call (hv : net.Sound T k v) (hT : T k = v.engine.journal.table)
    (hc : ∀ m ∈ c.messages, net.Genuine T m) :
    net.Sound (Function.update T k (v.call c).engine.journal.table) k (v.call c) := by
  have hreached := c.run_moves v.engine
  have hsince := v.since_call c
  have hd := hv.during hT hc hreached
  obtain ⟨-, rows, htable, -⟩ := hreached.rows hv.votes.durable
  have hpre : v.engine.journal.table <+: (v.call c).engine.journal.table := ⟨rows, htable.symm⟩
  refine ⟨hsince.me.trans hv.me, hsince.validators.trans hv.validators,
    hsince.height.trans hv.height, hv.votes.call c, fun m hm p ht => ?_, hd.tallied,
    hd.rows _ (hT ▸ hpre) (List.prefix_refl _), hd.phase⟩
  rw [ConsensusEngine.voteRow, hsince.height]
  exact hpre.subset (hv.lost m hm p ht)

/-- After a crash, everything that is left in the journal is still backed. -/
lemma Sound.crash (hv : net.Sound T k v) (hT : T k = v.engine.journal.table)
    (hc : ∀ m ∈ c.messages, net.Genuine T m) {table : List WalRow}
    {lost : List ConsensusMessage} {nowMs : ℕ → ℤ} (hbefore : v.engine.journal.table <+: table)
    (hafter : table <+: (v.call c).engine.journal.table)
    (hvotes : ∀ m ∈ lost, ∀ p : VotePhase, m.type = p.toMessageType →
      ⟨v.engine.height, m.round, .vote p m.blockHash⟩ ∈ table) :
    net.Sound (Function.update T k table) k (v.reboot c lost nowMs table) := by
  have hd := hv.during hT hc (c.run_moves v.engine)
  refine ⟨hv.me, hv.validators, hv.height, hv.votes.crash hbefore hafter, fun m hm p ht => ?_,
    Tallied.initial hv.tallied.me _ _ _ _, hd.rows _ (hT ▸ hbefore) hafter, fun hp => ?_⟩
  · rcases List.mem_append.mp hm with hm | hm
    · exact hbefore.subset (hv.lost m hm p ht)
    · exact hvotes m hm p ht
  · rcases hp with h | h <;> cases h

/-! ### All correct validators -/

variable {w w' : World}

omit [Crypto] in
lemma tables_update (w : World) (k : PublicKey) (v : Validator) :
    tables (Function.update w k v) = Function.update (tables w) k v.engine.journal.table := by
  funext k'
  by_cases hk : k' = k
  · subst hk
    rw [tables, Function.update_self, Function.update_self]
  · rw [tables, Function.update_of_ne hk, Function.update_of_ne hk, tables]

variable (net) in
/-- Every correct validator is sound. -/
def SoundWorld (w : World) : Prop := ∀ k, net.Correct k → net.Sound (tables w) k (w k)

/-- What is trusted is genuine: the signer has journaled its vote. -/
lemma Trusted.genuine (hw : net.SoundWorld w) {m p : ConsensusMessage}
    (hm : net.Trusted w m) (hp : p.Part m) : net.Genuine (tables w) p := by
  refine ⟨hm.named p hp, fun k hk hc ht hh hs => ?_⟩
  obtain ⟨m', hm', hpay⟩ := hm.deliverable p hp k hk hc hh hs
  obtain ⟨b, hb⟩ := p.exists_signingPayload hs
  obtain ⟨htype, -, hround, hhash, -⟩ := ConsensusMessage.signingPayload_injective
    (hpay.trans hb) hb
  have hsound := hw k hc
  have hrow : (w k).engine.voteRow m'.round .PREPARE m'.blockHash ∈
      (w k).engine.journal.table := by
    rcases List.mem_append.mp hm' with hm' | hm'
    · exact hsound.votes.prepares m' hm' (htype.trans ht)
    · exact hsound.lost m' hm' .PREPARE (htype.trans ht)
  rwa [ConsensusEngine.voteRow, hsound.height, hround, hhash] at hrow

lemma SoundWorld.step (hw : net.SoundWorld w) (hstep : net.Step net.Admits w w') :
    net.SoundWorld w' ∧ ∀ k, tables w k ⊆ tables w' k := by
  obtain ⟨hk, hv⟩ := hstep
  rename_i k v
  have hsound := hw k hk
  have hown : net.Sound (Function.update (tables w) k v.engine.journal.table) k v ∧
      (w k).engine.journal.table <+: v.engine.journal.table := by
    cases hv with
    | call c hc =>
      refine ⟨hsound.call rfl fun m hm => (hc.trusted m hm).genuine hw .self, ?_⟩
      obtain ⟨-, rows, htable, -⟩ := (c.run_moves (w k).engine).rows hsound.votes.durable
      exact ⟨rows, htable.symm⟩
    | crash c hc hbefore hafter hlost hvotes =>
      exact ⟨hsound.crash rfl (fun m hm => (hc.trusted m hm).genuine hw .self) hbefore hafter hvotes,
        hbefore⟩
  have hsub : ∀ k', tables w k' ⊆ tables (Function.update w k v) k' := by
    rw [tables_update]
    exact subset_update hown.2.subset
  refine ⟨fun k' hk' => ?_, hsub⟩
  by_cases heq : k' = k
  · subst heq
    rw [tables_update, Function.update_self]
    exact hown.1
  · rw [Function.update_of_ne heq]
    exact (hw k' hk').mono hsub

lemma SoundWorld.run (hw : net.SoundWorld w) (hrun : ReflTransGen (net.Step net.Admits) w w') :
    net.SoundWorld w' ∧ ∀ k, tables w k ⊆ tables w' k := by
  induction hrun with
  | refl => exact ⟨hw, fun k => List.Subset.refl _⟩
  | tail _ hstep ih =>
    obtain ⟨hw', hsub⟩ := ih.1.step hstep
    exact ⟨hw', fun k => List.Subset.trans (ih.2 k) (hsub k)⟩

lemma SoundWorld.of_starts (hw : net.Starts w) : net.SoundWorld w := by
  intro k hk
  have hstart := hw.starts k hk
  have hvotes := VotesJournaled.of_starts hstart
  have hmem := hstart.me_mem
  obtain ⟨⟨validators, privateKey, height, previousHash, nowMs, table, hrows, hnew⟩, hsent⟩ :=
    hstart
  obtain ⟨-, he⟩ := ConsensusEngine.new_eq_ok.mp hnew
  have hheight := hw.height k hk
  refine ⟨hw.me k hk, hw.validators k hk, hheight, hvotes, ?_, ?_, fun row hrow r h hl => ?_, ?_⟩
  · rw [hw.lost k hk]
    exact nofun
  · rw [he] at hmem ⊢
    exact Tallied.initial hmem _ _ _ _
  · rw [he] at hrow hheight
    have hne : row.height ≠ net.height := hheight ▸ hrows row hrow
    rcases hl with rfl | ⟨_, _, -, rfl⟩ <;> exact absurd rfl hne
  · rw [he]
    rintro (h | h) <;> cases h

variable (net w) in
/-- A correct engine is or was PREPARED on `h` in round `r`, or would accept a certificate for
it. -/
inductive Certified (r : ℤ) (h : PyStr) : Prop
  | phase {k : PublicKey} {block : Block} (hk : net.Correct k)
      (hp : (w k).engine.phase.IsPrepared) (hr : (w k).engine.round = r)
      (hb : (w k).engine.proposal = some block) (hh : block.hash = .ok h)
  | commit {k : PublicKey} {m : ConsensusMessage} (hk : net.Correct k)
      (hm : m ∈ (w k).sent ++ (w k).lost) (ht : m.type = .COMMIT) (hr : m.round = r)
      (hh : m.blockHash = h)
  | lock {k : PublicKey} {block : Block} {cert : List ConsensusMessage} (hk : net.Correct k)
      (hrow : ⟨net.height, r, .prepared block cert⟩ ∈ (w k).engine.journal.table)
      (hh : block.hash = .ok h)
  | cert {cert : List ConsensusMessage} (hcert : ∀ m ∈ cert, net.Trusted w m)
      (hv : verifyPrepares net.validators net.height cert r h = .ok true)

lemma Certified.prepared (hw : net.SoundWorld w) (hr : net.Certified w r h) :
    net.Prepared (net.journaled (tables w)) r h := by
  cases hr with
  | phase hk hp hr hb hh => exact hr ▸ (hw _ hk).phase hp _ h hb hh
  | commit hk hm ht hr hh =>
    rename_i k m
    have hsound := hw k hk
    have hrow : (w k).engine.voteRow m.round .COMMIT m.blockHash ∈
        (w k).engine.journal.table := by
      rcases List.mem_append.mp hm with hm | hm
      · exact (hsound.votes.commits m hm ht).1
      · exact hsound.lost m hm .COMMIT ht
    refine hsound.rows _ hrow r h ?_
    exact WalRow.locks_vote.mpr ⟨hsound.height, hr, rfl, hh⟩
  | lock hk hrow hh =>
    exact (hw _ hk).rows _ hrow r h (WalRow.locks_prepared.mpr ⟨rfl, rfl, hh⟩)
  | cert hcert hv =>
    exact .of_verifyPrepares genuine_vouches (fun m hm => (hcert m hm).genuine hw .self) hv

/-- In one round, correct engines are PREPARED on one block, and accept certificates for that block
only, over any order of deliveries and any number of crashes. -/
theorem prepared_once_in_round {w₀ : World} (hstart : net.Starts w₀)
    (hrun : ReflTransGen (net.Step net.Admits) w₀ w)
    (hrun' : ReflTransGen (net.Step net.Admits) w w') {h' : PyStr}
    (hr : net.Certified w r h) (hr' : net.Certified w' r h') : h = h' := by
  obtain ⟨hw, -⟩ := (SoundWorld.of_starts hstart).run hrun
  obtain ⟨hw', hsub⟩ := hw.run hrun'
  refine ((hr.prepared hw).mono hsub).unique net.validators.three_mul_maxFaulty_lt
    net.card_faulty_le (fun k r h h' hk hp hp' => ?_) (hr'.prepared hw')
  have hsound := hw' k hk
  refine hsound.votes.unique r .PREPARE h h' ?_ ?_
  · rw [ConsensusEngine.voteRow, hsound.height]
    exact hp
  · rw [ConsensusEngine.voteRow, hsound.height]
    exact hp'

lemma starts_durableOfSeed {seed : PublicKey → UInt8} (hheight : net.height = 1)
    (hseed : ∀ k ∈ net.validators.validators, net.Correct k → (seedKey (seed k)).publicKey = k) :
    net.Starts (durableOfSeed net.validators seed) where
  starts k hk := by
    refine Validator.starts_ofSeed ?_
    rw [hseed k hk.1 hk]
    exact hk.1
  lost _ _ := rfl
  me _ hk := me_worldOver hseed hk
  validators _ _ := rfl
  height _ _ := hheight.symm

/-! ### A run with a crash and a faulty validator -/

section Crash

omit [Crypto]

/-- `a` PREPAREs the block of `b`. -/
def preparedWorld : World :=
  letI := Crypto.checksums
  let a := seedPublic 0xaa
  let b := seedPublic 0xbb
  [Act.turn (.pending b [] [⟨.ADD, []⟩]), .turn (.relay b a 0), .turn (.relay b a 1)].foldl Act.play
    (durableOfSeed .quartet quartetSeed)

/-- After a restart, `a` PREPAREs the block again. With a PREPARE and a COMMIT of the faulty validator,
`a` and `c` COMMIT to it and `a` decides it. -/
def restartedWorld : World :=
  letI := Crypto.checksums
  let a := seedPublic 0xaa
  let b := seedPublic 0xbb
  let c := seedPublic 0xcc
  [Act.turn (.relay b a 0), .turn (.relay b a 1), .echo (seedKey 0xdd) .PREPARE b 1 a,
    .turn (.relay b c 0), .turn (.relay b c 1), .turn (.relay a c 0), .turn (.relay c a 1),
    .echo (seedKey 0xdd) .COMMIT c 1 a].foldl Act.play (restart preparedWorld a)

lemma starts_quartet : letI := Crypto.checksums
    oneFaulty.Starts (durableOfSeed .quartet quartetSeed) := by
  let := Crypto.checksums
  exact starts_durableOfSeed rfl publicKey_quartetSeed

lemma reaches_restartedWorld : letI := Crypto.checksums
    ReflTransGen (oneFaulty.Step oneFaulty.Admits) (durableOfSeed .quartet quartetSeed)
      restartedWorld := by
  let := Crypto.checksums
  have ha : oneFaulty.Correct (seedPublic 0xaa) := by decide +kernel
  have hcalls : ReflTransGen (oneFaulty.CallStep oneFaulty.Admits) (durableOfSeed .quartet quartetSeed)
      preparedWorld ∧ oneFaulty.SuppliedWorld preparedWorld :=
    reaches_fair (.of_begins (begins_durableOfSeed rfl publicKey_quartetSeed)) (by decide +kernel)
      (by decide +kernel)
  have hcalls' : ReflTransGen (oneFaulty.CallStep oneFaulty.Admits) (restart preparedWorld (seedPublic 0xaa))
      restartedWorld ∧ oneFaulty.SuppliedWorld restartedWorld :=
    reaches_fair (hcalls.2.restart ha (by decide +kernel)) (by decide +kernel) (by decide +kernel)
  have hsteps : ReflTransGen (oneFaulty.Step oneFaulty.Admits) (durableOfSeed .quartet quartetSeed)
      preparedWorld := steps_of_calls (fun _ _ _ h => h) hcalls.1
  have hsound := ((SoundWorld.of_starts starts_quartet).run hsteps).1 (seedPublic 0xaa) ha
  have hrestart : oneFaulty.Step oneFaulty.Admits preparedWorld (restart preparedWorld (seedPublic 0xaa)) :=
    .step ha (.restart hsound.votes.durable hsound.tallied.me ⟨nofun, nofun⟩ _)
  exact (hsteps.tail hrestart).trans (steps_of_calls (fun _ _ _ h => h) hcalls'.1)

/-- Two of three correct validators COMMIT in a round, one of them after a restart and with a PREPARE of
the faulty one; no other block is certified in the round. -/
theorem prepared_once_in_round_over_restart :
    letI := Crypto.checksums
    let a := seedPublic 0xaa
    let c := seedPublic 0xcc
    ((restartedWorld a).sent.map (·.type), (restartedWorld c).sent.map (·.type)) =
        ([.PREPARE, .PREPARE, .COMMIT], [.PREPARE, .COMMIT]) ∧
      ∃ h, oneFaulty.Certified restartedWorld 0 h ∧
        ∀ h', oneFaulty.Certified restartedWorld 0 h' → h = h' := by
  let := Crypto.checksums
  intro a c
  have hcommit : ∃ m ∈ (restartedWorld c).sent, m.type = .COMMIT ∧ m.round = 0 := by decide +kernel
  obtain ⟨m, hm, ht, hr⟩ := hcommit
  have hcert : oneFaulty.Certified restartedWorld 0 m.blockHash :=
    .commit (k := c) (by decide +kernel) (List.mem_append_left _ hm) ht hr rfl
  exact ⟨by decide +kernel, _, hcert, fun h' hh' =>
    prepared_once_in_round starts_quartet reaches_restartedWorld .refl hcert hh'⟩

end Crash

end Network

end Helix

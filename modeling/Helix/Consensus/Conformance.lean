import Helix.Consensus.OneRound
import Helix.Consensus.Specification
import Helix.Library.Simulation

/-!
# The network conforms to the specification

In each round, the votes in the journals of the correct validators behave as the specification says, whatever
the network delivers and however often correct validators crash: a step of the network is a sequence of
steps of the specification, in which Byzantine validators PREPARE what a quorum needs them for. What an
engine decides is decided in the specification.
-/

namespace Helix

variable [Crypto]

open Relation (ReflTransGen)
open Voting (CommitQuorum)

namespace Network

variable {net : Network} {T T' : Tables} {r : ℤ} {k : PublicKey} {v : Validator} {c : Call}
  {s s' : Frame} {w w' w₀ : World}

/-! ### Commits in the journals -/

variable (net T) in
/-- The correct members of a quorum have journaled COMMITs to `h` in round `r`. -/
def CommitJournaled (r : ℤ) (h : PyStr) : Prop :=
  CommitQuorum net.validators.members net.validators.maxFaulty net.Correct (net.journaled T) r h

omit [Crypto] in
lemma CommitJournaled.mono {h : PyStr} (hc : net.CommitJournaled T r h) (hT : ∀ k, T k ⊆ T' k) :
    net.CommitJournaled T' r h := by
  obtain ⟨Q, hQ, hcommit⟩ := hc
  exact ⟨Q, hQ, fun k hk hcor => hT k (hcommit k hk hcor)⟩

variable (net T) in
/-- The sender is named as `to_hex` writes it, and a vote of a correct validator stands in its journal. -/
structure Journals (m : ConsensusMessage) : Prop where
  spells : Spelling.canonical.Spells m
  voted : ∀ k, PublicKey.fromHex m.sender = .ok k → net.Correct k → m.height = net.height →
    m.verifySignature = .ok true → ∀ p : VotePhase, m.type = p.toMessageType →
      ⟨net.height, m.round, .vote p m.blockHash⟩ ∈ T k

lemma Journals.mono {m : ConsensusMessage} (hm : net.Journals T m) (hT : ∀ k, T k ⊆ T' k) :
    net.Journals T' m :=
  ⟨hm.spells, fun k hk hc hh hs p hp => hT k (hm.voted k hk hc hh hs p hp)⟩

lemma Trusted.journals (hw : net.SoundWorld w) {m : ConsensusMessage} (hm : net.Trusted w m) :
    net.Journals (tables w) m := by
  refine ⟨hm.named m .self, fun k hk hc hh hs p hp => ?_⟩
  obtain ⟨m', hm', hpay⟩ := hm.deliverable m .self k hk hc hh hs
  obtain ⟨b, hb⟩ := m.exists_signingPayload hs
  obtain ⟨htype, -, hround, hhash, -⟩ := ConsensusMessage.signingPayload_injective (hpay.trans hb) hb
  have hsound := hw k hc
  have hrow : (w k).engine.voteRow m'.round p m'.blockHash ∈ (w k).engine.journal.table := by
    rcases List.mem_append.mp hm' with hm' | hm'
    · cases p with
      | PREPARE => exact hsound.votes.prepares m' hm' (htype.trans hp)
      | COMMIT => exact (hsound.votes.commits m' hm' (htype.trans hp)).1
    · exact hsound.lost m' hm' p (htype.trans hp)
  rwa [ConsensusEngine.voteRow, hsound.height, hround, hhash] at hrow

/-- A COMMIT tally with a quorum of entries stands for a quorum. -/
lemma CommitJournaled.of_tallied {e : ConsensusEngine} (he : Tallied (net.Journals T) e)
    (hvals : e.validators = net.validators) (hheight : e.height = net.height) {h : PyStr}
    (hq : e.validators.quorum ≤ (e.commits.getD h).len) : net.CommitJournaled T e.round h := by
  obtain ⟨Q, hcard, hQ, hmade⟩ := he.exists_committers .canonical (fun _ _ hm => hm.spells) hq
  rw [hvals] at hcard hQ hmade
  rw [hheight] at hmade
  refine ⟨Q, ValidatorSet.isQuorum (fun k hk => ((hQ k).mp hk).1) hcard, fun k hk hcor => ?_⟩
  obtain ⟨m, hm, hatt, rfl⟩ := hmade k hk
  have hmem := hm.voted k hatt.sender hcor hatt.height hatt.signature .COMMIT hatt.type
  rwa [hatt.round] at hmem

variable (net T) in
/-- The tallies of a correct validator hold journaled votes, and what it has decided was committed to. -/
structure Deciding (v : Validator) : Prop where
  tallied : Tallied (net.Journals T) v.engine
  decided : ∀ block ∈ v.decided, ∃ r h, block.hash = .ok h ∧ net.CommitJournaled T r h

lemma Deciding.mono (hv : net.Deciding T v) (hT : ∀ k, T k ⊆ T' k) : net.Deciding T' v where
  tallied := hv.tallied.mono fun _ hm => hm.mono hT
  decided block hblock := by
    obtain ⟨r, h, hh, hcommitted⟩ := hv.decided block hblock
    exact ⟨r, h, hh, hcommitted.mono hT⟩

/-- In the course of a call of `k`, where `T` are the journals before it. -/
lemma Deciding.during (hv : net.Deciding T v) (hsound : net.Sound T k v)
    (hT : T k = v.engine.journal.table) (hc : ∀ m ∈ c.messages, net.Journals T m)
    (hs : Reached v.engine c s) :
    net.Deciding (Function.update T k s.engine.journal.table) (v.during c s) := by
  induction hs with
  | refl =>
    refine ⟨(hv.mono (subset_update (hT ▸ List.Subset.refl _))).tallied, fun block hblock => ?_⟩
    refine (hv.mono (subset_update (hT ▸ List.Subset.refl _))).decided block ?_
    simpa [Validator.during] using hblock
  | @tail s s' hs hmove ih =>
    have hs' : Reached v.engine c s' := hs.tail hmove
    have hdur : s.engine.journal.Durable s.engine.height := (hsound.votes.during hs).durable
    have hsub : ∀ k', T k' ⊆ Function.update T k s'.engine.journal.table k' := by
      obtain ⟨-, rows, htable, -⟩ := hs'.rows hsound.votes.durable
      refine subset_update ?_
      rw [htable, hT]
      exact List.subset_append_left _ _
    have ih' := ih.mono (update_subset_update (hmove.table_isPrefix hdur).subset)
    -- the own votes stand in the own journal
    have hown : ∀ m ∈ s'.result.broadcast, m.IsVote →
        net.Journals (Function.update T k s'.engine.journal.table) m := by
      intro m hm _
      have hsender : m.sender = k.toHex := hsound.me ▸ (hs'.sentBy hm).sender
      refine ⟨Spelling.spells_canonical hsender, fun k' hk' _ _ _ p hp => ?_⟩
      rw [hsender, PublicKey.fromHex_toHex] at hk'
      cases hk'
      have hvotes := hsound.votes.during hs'
      have hsent : m ∈ (v.during c s').sent := List.mem_append_right _ hm
      have hrow : (v.during c s').engine.voteRow m.round p m.blockHash ∈ s'.engine.journal.table := by
        cases p with
        | PREPARE => exact hvotes.prepares m hsent hp
        | COMMIT => exact (hvotes.commits m hsent hp).1
      rw [ConsensusEngine.voteRow, Validator.during, (Reached.since hs').height, hsound.height] at hrow
      rwa [Function.update_self]
    refine ⟨Tallied.move (hv.tallied.mono fun m hm => hm.mono hsub) hs ih'.tallied hmove
      (fun m hm => (hc m hm).mono hsub) hown, ?_⟩
    cases hmove with
    | @finalize block sealed h hclose hphase hblock hh hquorum hseal =>
      intro b hb
      rcases List.mem_append.mp hb with hb | hb
      · exact ih'.decided b (List.mem_append_left _ hb)
      · cases Option.mem_toList.mp hb
        have hsince := Reached.since hs
        refine ⟨s.engine.round, h, ?_, .of_tallied ih'.tallied (hsince.validators.trans hsound.validators)
          (hsince.height.trans hsound.height) hquorum⟩
        rw [Block.hash, (attachSeals_spec hseal).1]
        exact hh
    | _ => exact ih'.decided

lemma Deciding.call (hv : net.Deciding T v) (hsound : net.Sound T k v)
    (hT : T k = v.engine.journal.table) (hc : ∀ m ∈ c.messages, net.Journals T m) :
    net.Deciding (Function.update T k (v.call c).engine.journal.table) (v.call c) :=
  hv.during hsound hT hc (c.run_moves v.engine)

/-- A new engine starts with empty tallies. -/
lemma Deciding.crash (hv : net.Deciding T v) (hT : T k = v.engine.journal.table) {table : List WalRow}
    {lost : List ConsensusMessage} {nowMs : ℕ → ℤ} (hbefore : v.engine.journal.table <+: table) :
    net.Deciding (Function.update T k table) (v.reboot c lost nowMs table) where
  tallied := Tallied.initial hv.tallied.me _ _ _ _
  decided := (hv.mono (subset_update (hT ▸ hbefore.subset))).decided

variable (net) in
/-- Every correct validator has decided what was committed to. -/
def DecidingWorld (w : World) : Prop := ∀ k, net.Correct k → net.Deciding (tables w) (w k)

lemma DecidingWorld.of_starts (hstart : net.Starts w) (hdecided : ∀ k, net.Correct k → (w k).decided = []) :
    net.DecidingWorld w := by
  intro k hk
  have hmem := (hstart.starts k hk).me_mem
  obtain ⟨⟨validators, privateKey, height, previousHash, nowMs, table, -, hnew⟩, -⟩ := hstart.starts k hk
  obtain ⟨-, he⟩ := ConsensusEngine.new_eq_ok.mp hnew
  refine ⟨?_, fun block hblock => ?_⟩
  · rw [he] at hmem ⊢
    exact Tallied.initial hmem _ _ _ _
  · rw [hdecided k hk] at hblock
    cases hblock

lemma DecidingWorld.step (hd : net.DecidingWorld w) (hw : net.SoundWorld w)
    (hstep : net.Step net.Admits w w') : net.DecidingWorld w' := by
  obtain ⟨-, hsub⟩ := hw.step hstep
  obtain ⟨hk, hv⟩ := hstep
  rename_i k v
  intro k' hk'
  by_cases heq : k' = k
  · subst heq
    rw [tables_update, Function.update_self]
    cases hv with
    | call c hc => exact (hd k' hk).call (hw k' hk) rfl fun m hm => (hc.trusted m hm).journals hw
    | crash c hc hbefore hafter hlost hvotes => exact (hd k' hk).crash rfl hbefore
  · rw [Function.update_of_ne heq]
    exact (hd k' hk').mono hsub

lemma DecidingWorld.run (hd : net.DecidingWorld w) (hw : net.SoundWorld w)
    (hrun : ReflTransGen (net.Step net.Admits) w w') : net.DecidingWorld w' := by
  induction hrun with
  | refl => exact hd
  | tail hrun hstep ih => exact ih.step (hw.run hrun).1 hstep

/-! ### The votes of a round -/

variable (net) in
/-- A round of the network; the engine may vote for any hash. -/
def specification : Specification PublicKey PyStr where
  Validators := net.validators.members
  Byz := net.validators.members.filter fun k => ¬net.Correct k
  Blocks := Set.univ
  byzAssume := Finset.filter_subset _ _
  blocksAssume := ⟨[], Set.mem_univ _⟩

omit [Crypto] in
lemma quorum_specification : net.specification.Quorum = net.validators.quorum := by
  have hpos := net.validators.size_pos
  have hcard := net.validators.card_members
  simp only [Specification.Quorum, Specification.F, Specification.N, specification, hcard,
    ValidatorSet.quorum, ValidatorSet.maxFaulty]
  omega

omit [Crypto] in
lemma mem_correct_specification : k ∈ net.specification.Correct ↔ net.Correct k := by
  simp only [Specification.Correct, specification, Finset.mem_sdiff, Finset.mem_filter]
  constructor
  · rintro ⟨hmem, hnot⟩
    exact not_not.mp fun h => hnot ⟨hmem, h⟩
  · exact fun h => ⟨(net.validators.mem_members k).mpr h.1, fun hk => hk.2 h⟩

omit [Crypto] in
lemma mem_byz_specification :
    k ∈ net.specification.Byz ↔ k ∈ net.validators.members ∧ ¬net.Correct k := by
  simp only [specification, Finset.mem_filter]

variable (net T) in
/-- The journal of `k` holds a vote of round `r`. -/
def Voted (k : PublicKey) (r : ℤ) (p : VotePhase) (h : PyStr) : Prop :=
  ⟨net.height, r, .vote p h⟩ ∈ T k

variable (net) in
/-- The votes in `σ` of the correct validators are those of round `r` in the journals `T`. -/
structure Shows (r : ℤ) (T : Tables) (σ : Specification.State PublicKey PyStr) : Prop where
  prepares : ∀ k, net.Correct k → ∀ h, k ∈ σ.prepares h ↔ net.Voted T k r .PREPARE h
  commits : ∀ k, net.Correct k → ∀ h, k ∈ σ.commits h ↔ net.Voted T k r .COMMIT h
  committed : ∀ k, net.Correct k → ∀ h, σ.committed k = some h ↔ net.Voted T k r .COMMIT h

variable (net) in
/-- Validator `k` has added votes to its journal; in round `r` it has at most one in each phase. -/
structure Extension (k : PublicKey) (r : ℤ) (T T' : Tables) : Prop where
  other : ∀ k' ≠ k, T' k' = T k'
  own : T k ⊆ T' k
  unique : ∀ (p : VotePhase) (h h' : PyStr), net.Voted T' k r p h → net.Voted T' k r p h' → h = h'

namespace Extension

variable {k' : PublicKey} {p : VotePhase} {h c : PyStr}

omit [Crypto] in
lemma voted_iff_or (hT : net.Extension k r T T') (hvote : net.Voted T' k r p h) :
    c = h ∧ k' = k ∨ net.Voted T k' r p c ↔ net.Voted T' k' r p c := by
  by_cases heq : k' = k
  · subst heq
    constructor
    · rintro (⟨rfl, -⟩ | hc)
      · exact hvote
      · exact hT.own hc
    · exact fun hc => Or.inl ⟨hT.unique p c h hc hvote, rfl⟩
  · rw [Voted, Voted, hT.other k' heq]
    exact or_iff_right fun hc => heq hc.2

omit [Crypto] in
lemma voted_iff (hT : net.Extension k r T T') (hnone : ¬∃ h, net.Voted T' k r p h) :
    net.Voted T k' r p c ↔ net.Voted T' k' r p c := by
  by_cases heq : k' = k
  · subst heq
    exact ⟨fun hc => hT.own hc, fun hc => absurd ⟨c, hc⟩ hnone⟩
  · rw [Voted, Voted, hT.other k' heq]

end Extension

section Quorums

variable {Q P : Finset PublicKey}
  (hQ : Voting.IsQuorum net.validators.members net.validators.maxFaulty Q)

include hQ

omit [Crypto] in
/-- The faulty members of a quorum may do anything. -/
lemma byz_of_quorum : ∀ k ∈ Q.filter fun k => ¬net.Correct k, k ∈ net.specification.Byz := by
  intro k hk
  obtain ⟨hmem, hnot⟩ := Finset.mem_filter.mp hk
  exact mem_byz_specification.mpr ⟨hQ.subset hmem, hnot⟩

omit [Crypto] in
lemma quorum_le_card (hcorrect : ∀ k ∈ Q, net.Correct k → k ∈ P)
    (hfaulty : ∀ k ∈ Q.filter fun k => ¬net.Correct k, k ∈ P) :
    net.specification.Quorum ≤ P.card := by
  rw [quorum_specification]
  have hsub : Q ⊆ P := by
    intro k hk
    by_cases hcor : net.Correct k
    · exact hcorrect k hk hcor
    · exact hfaulty k (Finset.mem_filter.mpr ⟨hk, hcor⟩)
  have hcard := hQ.card
  rw [ValidatorSet.card_members] at hcard
  exact Int.ofNat_le.mpr (hcard.trans (Finset.card_le_card hsub))

end Quorums

variable {σ : Specification.State PublicKey PyStr}

omit [Crypto] in
/-- The PREPARE of an extension. -/
lemma Shows.exists_prepare (hσ : net.Shows r T σ) (hk : net.Correct k) (hT : net.Extension k r T T') :
    ∃ σ', ReflTransGen net.specification.Next σ σ' ∧ σ'.commits = σ.commits ∧
      σ'.committed = σ.committed ∧
      ∀ k', net.Correct k' → ∀ h, k' ∈ σ'.prepares h ↔ net.Voted T' k' r .PREPARE h := by
  by_cases hvote : ∃ h, net.Voted T' k r .PREPARE h
  · obtain ⟨h, hvote⟩ := hvote
    have honly : ∀ c ∈ net.specification.Blocks, k ∈ σ.prepares c → c = h := fun c _ hc =>
      hT.unique .PREPARE c h (hT.own ((hσ.prepares k hk c).mp hc)) hvote
    refine ⟨σ.prepare k h, .single (.prepare (Set.mem_univ h) (mem_correct_specification.mpr hk) honly),
      rfl, rfl, fun k' hk' c => ?_⟩
    rw [Specification.mem_prepares_prepare, hσ.prepares k' hk', hT.voted_iff_or hvote]
  · refine ⟨σ, .refl, rfl, rfl, fun k' hk' c => ?_⟩
    rw [hσ.prepares k' hk', hT.voted_iff hvote]

omit [Crypto] in
/-- The faulty members of a quorum add their PREPAREs to those of the correct ones. -/
lemma exists_quorum_prepared (hprepares : ∀ k, net.Correct k → ∀ h,
    k ∈ σ.prepares h ↔ net.Voted T k r .PREPARE h) {h : PyStr}
    (hprepared : net.Prepared (net.journaled T) r h) :
    ∃ σ', ReflTransGen net.specification.Next σ σ' ∧ σ'.commits = σ.commits ∧
      σ'.committed = σ.committed ∧ net.specification.Quorum ≤ (σ'.prepares h).card ∧
      ∀ k, net.Correct k → ∀ h, k ∈ σ'.prepares h ↔ net.Voted T k r .PREPARE h := by
  obtain ⟨Q, hQ, hrows⟩ := hprepared
  obtain ⟨σ', hsteps, hcommits, hcommitted, hmem⟩ := Specification.exists_prepared (s := σ)
    (Set.mem_univ h) _ fun k hk => Or.inl (byz_of_quorum hQ k hk)
  refine ⟨σ', hsteps, hcommits, hcommitted, ?_, fun k hk c => ?_⟩
  · refine quorum_le_card hQ (fun k hk hcor => ?_) fun k hk => (hmem k h).mpr (Or.inl ⟨rfl, hk⟩)
    exact (hmem k h).mpr (Or.inr ((hprepares k hcor h).mpr (hrows k hk hcor)))
  · rw [hmem, hprepares k hk]
    exact or_iff_right fun hc => (Finset.mem_filter.mp hc.2).2 hk

omit [Crypto] in
/-- A validator adds votes to its journal: at most a PREPARE and a COMMIT in one round, and the COMMIT
after a quorum of PREPAREs. -/
lemma Shows.extend (hσ : net.Shows r T σ) (hk : net.Correct k) (hT : net.Extension k r T T')
    (hprepared : ∀ h, net.Voted T' k r .COMMIT h → net.Prepared (net.journaled T') r h) :
    ∃ σ', ReflTransGen net.specification.Next σ σ' ∧ net.Shows r T' σ' := by
  obtain ⟨σ₁, hsteps₁, hcommits₁, hcommitted₁, hprepares₁⟩ := hσ.exists_prepare hk hT
  by_cases hvote : ∃ h, net.Voted T' k r .COMMIT h
  · obtain ⟨h, hvote⟩ := hvote
    obtain ⟨σ₂, hsteps₂, hcommits₂, hcommitted₂, hquorum, hprepares₂⟩ :=
      exists_quorum_prepared hprepares₁ (hprepared h hvote)
    rw [hcommits₁] at hcommits₂
    rw [hcommitted₁] at hcommitted₂
    have hfree : σ₂.committed k = none ∨ σ₂.committed k = some h := by
      cases hc : σ₂.committed k with
      | none => exact Or.inl rfl
      | some c =>
        rw [hcommitted₂] at hc
        exact Or.inr (congrArg some (hT.unique .COMMIT c h (hT.own ((hσ.committed k hk c).mp hc)) hvote))
    refine ⟨_, (hsteps₁.trans hsteps₂).tail
      (.commit (Set.mem_univ h) (mem_correct_specification.mpr hk) hquorum hfree), hprepares₂, ?_, ?_⟩
    · intro k' hk' c
      rw [Specification.commits_hold, Specification.mem_commits_commit, hcommits₂, hσ.commits k' hk',
        hT.voted_iff_or hvote]
    · intro k' hk' c
      rw [Specification.committed_hold, ← hT.voted_iff_or hvote]
      split_ifs with heq
      · subst heq
        rw [hT.voted_iff_or hvote, Option.some.injEq]
        exact ⟨fun hc => hc ▸ hvote, fun hc => hT.unique .COMMIT h c hvote hc⟩
      · rw [Specification.committed_commit, hcommitted₂, hσ.committed k' hk']
        exact (or_iff_right fun hc => heq hc.2).symm
  · refine ⟨σ₁, hsteps₁, hprepares₁, fun k' hk' c => ?_, fun k' hk' c => ?_⟩
    · rw [hcommits₁, hσ.commits k' hk', hT.voted_iff hvote]
    · rw [hcommitted₁, hσ.committed k' hk', hT.voted_iff hvote]

/-- At the start of the height, no vote is in a journal. -/
lemma Shows.init (hstart : net.Starts w) : net.Shows r (tables w) .init := by
  have hnone : ∀ k, net.Correct k → ∀ row ∈ tables w k, row.height ≠ net.height := by
    intro k hk row hrow
    obtain ⟨⟨validators, privateKey, height, previousHash, nowMs, table, hrows, hnew⟩, -⟩ :=
      hstart.starts k hk
    obtain ⟨-, he⟩ := ConsensusEngine.new_eq_ok.mp hnew
    have hheight := hstart.height k hk
    rw [tables, he] at hrow
    rw [he] at hheight
    exact hheight ▸ hrows row hrow
  exact ⟨fun k hk h => ⟨fun hv => absurd hv Specification.not_mem_prepares_init,
      fun hrow => absurd rfl (hnone k hk _ hrow)⟩,
    fun k hk h => ⟨fun hv => absurd hv Specification.not_mem_commits_init,
      fun hrow => absurd rfl (hnone k hk _ hrow)⟩,
    fun k hk h => ⟨fun hv => absurd hv (Option.some_ne_none h).symm,
      fun hrow => absurd rfl (hnone k hk _ hrow)⟩⟩

/-- A step of the network is a sequence of steps of the specification. -/
lemma Shows.step (hσ : net.Shows r (tables w) σ) (hw : net.SoundWorld w) (hstep : net.Step net.Admits w w') :
    ∃ σ', ReflTransGen net.specification.Next σ σ' ∧ net.Shows r (tables w') σ' := by
  obtain ⟨hw', hsub⟩ := hw.step hstep
  obtain ⟨hk, -⟩ := hstep
  rename_i k v
  have hsound := hw' k hk
  refine hσ.extend hk ⟨fun k' hne => ?_, hsub k, fun p h h' hrow hrow' => ?_⟩ fun h hrow => ?_
  · rw [tables_update, Function.update_of_ne hne]
  · refine hsound.votes.unique r p h h' ?_ ?_
    · rw [ConsensusEngine.voteRow, hsound.height]
      exact hrow
    · rw [ConsensusEngine.voteRow, hsound.height]
      exact hrow'
  · exact hsound.rows _ hrow r h (WalRow.locks_vote.mpr ⟨rfl, rfl, rfl, rfl⟩)

lemma Shows.run (hσ : net.Shows r (tables w) σ) (hw : net.SoundWorld w)
    (hrun : ReflTransGen (net.Step net.Admits) w w') :
    ∃ σ', ReflTransGen net.specification.Next σ σ' ∧ net.Shows r (tables w') σ' := by
  have hsim : Simulation (net.Step net.Admits) net.specification.Next fun w σ =>
      net.SoundWorld w ∧ net.Shows r (tables w) σ :=
    .of_invariant (fun _ _ hw hstep => (hw.run (.single hstep)).1) fun _ _ _ hw hσ hstep => hσ.step hw hstep
  obtain ⟨σ', hsteps, -, hσ'⟩ := hsim.run ⟨hw, hσ⟩ hrun
  exact ⟨σ', hsteps, hσ'⟩

omit [Crypto] in
/-- What the correct members of a quorum have committed to is decided, with the COMMITs of the others. -/
lemma Shows.decided (hσ : net.Shows r T σ) {h : PyStr} (hc : net.CommitJournaled T r h) :
    ∃ σ', ReflTransGen net.specification.Next σ σ' ∧ net.Shows r T σ' ∧
      net.specification.Decided σ' h := by
  obtain ⟨Q, hQ, hrows⟩ := hc
  obtain ⟨σ', hsteps, hprepares, hcommits, hcommitted⟩ := Specification.exists_committed (s := σ)
    (Set.mem_univ h) _ fun k hk => Or.inl (byz_of_quorum hQ k hk)
  refine ⟨σ', hsteps, ⟨fun k hk c => ?_, fun k hk c => ?_, fun k hk c => ?_⟩, ?_⟩
  · rw [hprepares, hσ.prepares k hk]
  · rw [hcommits, hσ.commits k hk]
    exact or_iff_right fun hc => (Finset.mem_filter.mp hc.2).2 hk
  · rw [hcommitted k fun hmem => (Finset.mem_filter.mp hmem).2 hk, hσ.committed k hk]
  · refine quorum_le_card hQ (fun k hk hcor => ?_) fun k hk => (hcommits k h).mpr (Or.inl ⟨rfl, hk⟩)
    exact (hcommits k h).mpr (Or.inr ((hσ.commits k hcor h).mpr (hrows k hk hcor)))

/-! ### Every run -/

/-- Over any order of deliveries and any number of crashes: the votes of a round are those of a state
that the specification reaches, from which it can follow every step of the network; and every block that
a correct validator has decided is decided in such a state. -/
theorem conforms_to_specification (hstart : net.Starts w₀)
    (hfresh : ∀ k, net.Correct k → (w₀ k).decided = []) (hrun : ReflTransGen (net.Step net.Admits) w₀ w) :
    (∀ r, ∃ σ, net.specification.Reachable σ ∧ net.Shows r (tables w) σ) ∧
      (∀ r σ w', net.Shows r (tables w) σ → net.Step net.Admits w w' →
        ∃ σ', ReflTransGen net.specification.Next σ σ' ∧ net.Shows r (tables w') σ') ∧
      ∀ k, net.Correct k → ∀ block ∈ (w k).decided, ∃ r h σ, block.hash = .ok h ∧
        net.specification.Reachable σ ∧ net.Shows r (tables w) σ ∧ net.specification.Decided σ h := by
  have hw₀ := SoundWorld.of_starts hstart
  have hw := (hw₀.run hrun).1
  have hshown : ∀ r, ∃ σ, net.specification.Reachable σ ∧ net.Shows r (tables w) σ := fun r =>
    (Shows.init hstart).run hw₀ hrun
  refine ⟨hshown, fun r σ w' hσ hstep => hσ.step hw hstep, fun k hk block hblock => ?_⟩
  obtain ⟨r, h, hh, hc⟩ := (((DecidingWorld.of_starts hstart hfresh).run hw₀ hrun) k hk).decided block hblock
  obtain ⟨σ, hreach, hσ⟩ := hshown r
  obtain ⟨σ', hsteps, hσ', hdecided⟩ := hσ.decided hc
  exact ⟨r, h, σ', hh, hreach.trans hsteps, hσ', hdecided⟩

omit [Crypto] in
/-- A validator that has restarted decides with votes of the faulty one; so does the specification. -/
theorem conforms_to_specification_over_restart :
    letI := Crypto.checksums
    (restartedWorld (seedPublic 0xaa)).decided ≠ [] ∧
      ∀ block ∈ (restartedWorld (seedPublic 0xaa)).decided, ∃ r h σ, block.hash = .ok h ∧
        oneFaulty.specification.Reachable σ ∧ oneFaulty.Shows r (tables restartedWorld) σ ∧
          oneFaulty.specification.Decided σ h := by
  let := Crypto.checksums
  refine ⟨by decide +kernel, fun block hblock => ?_⟩
  have ha : oneFaulty.Correct (seedPublic 0xaa) := by decide +kernel
  exact (conforms_to_specification starts_quartet (fun _ _ => rfl) reaches_restartedWorld).2.2 _ ha block
    hblock

end Network

end Helix

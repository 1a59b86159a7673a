import Helix.Consensus.Bodies
import Helix.Consensus.Proposing

/-!
# When a block is built

A block gets its timestamp from the clock of the engine that builds it; whatever is done with it later
leaves the timestamp alone. A call builds at most one block, and reads the clock once for it
(`Call.Builds`). If that block obeys a rule, and so do the blocks that come from outside, then so do all
that the engine holds or sends afterwards (`Call.conveys`).
-/

namespace Helix

variable [Crypto] {ρ : BlockRule} {e₀ : ConsensusEngine} {c : Call} {s s' : Frame}

open Relation (ReflTransGen)

/-- The call builds the block: it proposes in round 0, or it takes over a later round for which none of the
ROUND_CHANGEs at hand claims a lock. -/
inductive Call.Builds (c : Call) (e : ConsensusEngine) (block : Block) : Prop
  | propose {records : List IntegrityRecord} {changes : List ValidatorChange}
      (hc : c = .setPending records changes) (hround : e.round = 0) (hphase : e.phase = .NEW_ROUND)
      (hme : e.me = e.validators.proposer e.height e.round) (hne : records ≠ [] ∨ changes ≠ [])
      (hblock : Block.create e.height e.previousHash (e.nowMs 0) e.me.toHex records changes =
        .ok block)
  | takeOver {r : ℤ} {ok : Bool} (hc : c.Changing e) (hr : e.round < r)
      (hround : (c.run e).2.engine.round = r) (hme : e.me = e.validators.proposer e.height r)
      (hfree : verifyRoundChangeCert e.validators e.height (e.changesWith c r).values r = .ok (ok, none))
      (hblock : e.freshBlock = .ok block)

/-- A created block has the timestamp that it was given. -/
lemma Block.create_timestamp {index timestamp : ℤ} {previousHash proposer : PyStr}
    {records : List IntegrityRecord} {changes : List ValidatorChange} {b : Block}
    (h : create index previousHash timestamp proposer records changes = .ok b) :
    b.header.timestamp = timestamp := by
  simp only [create, bind, Except.bind, pure, Except.pure] at h
  split at h
  · cases h
  · cases h
    rfl

/-- The header of a block that a call builds: its timestamp is the next reading of the clock. -/
lemma Call.Builds.header {e : ConsensusEngine} {block : Block} (h : c.Builds e block) :
    block.index = e.height ∧ block.header.previousHash = e.previousHash ∧
      block.header.timestamp = e.nowMs 0 := by
  cases h with
  | propose _ _ _ _ _ hblock =>
    exact ⟨(Block.create_consistent hblock).2.1, (Block.create_consistent hblock).2.2,
      Block.create_timestamp hblock⟩
  | takeOver _ _ _ _ _ hblock =>
    exact ⟨(Block.create_consistent hblock).2.1, (Block.create_consistent hblock).2.2,
      Block.create_timestamp hblock⟩

/-- Without round changes to process, a call proposes what it builds. -/
lemma Call.Proposes.builds {e : ConsensusEngine} {block : Block} {cert : List ConsensusMessage}
    (h : c.Proposes e₀ e block cert) (hc : ¬c.Changing e₀) : c.Builds e₀ block := by
  cases h with
  | fresh hcall hround hr hphase hme hne hblock => exact .propose hcall hround hphase hme hne hblock
  | change hch => exact absurd hch hc

/-! ### Messages -/

/-- The blocks that a message carries, itself or in its certificate, obey the rule. -/
def ConsensusMessage.Carries (ρ : BlockRule) (m : ConsensusMessage) : Prop :=
  (∀ b ∈ m.block, ρ.block b) ∧ ∀ m' ∈ m.roundChangeCert, ∀ b ∈ m'.block, ρ.block b

lemma ConsensusMessage.Carries.of_create {type : MessageType} {height round : ℤ} {h : PyStr}
    {signer : PrivateKey} {block : Option Block} {preparedRound : Option ℤ}
    {cert cert' : List ConsensusMessage} {m : ConsensusMessage}
    (hm : create type height round h signer block preparedRound cert cert' = .ok m)
    (hblock : ∀ b ∈ block, ρ.block b) (hcert : ∀ m' ∈ cert', ∀ b ∈ m'.block, ρ.block b) :
    m.Carries ρ := by
  obtain ⟨-, -, -, -, -, hb, -, -, hc⟩ := create_eq hm
  exact ⟨hb ▸ hblock, hc ▸ hcert⟩

/-- A frame all of whose blocks obey the rule, those in the messages of its result as well. -/
structure Frame.Conveys (ρ : BlockRule) (s : Frame) : Prop extends Frame.Carries ρ s where
  messages : ∀ m ∈ s.result.broadcast, m.Carries ρ

namespace Frame.Conveys

omit [Crypto] in
/-- The ROUND_CHANGEs that are stored carry such blocks. -/
lemma of_stored (h : s.Conveys ρ) {r : ℤ} {m : ConsensusMessage}
    (hm : m ∈ (s.engine.roundChanges.getD r).values) : ∀ b ∈ m.block, ρ.block b := by
  obtain ⟨key, hkey⟩ := Dict.mem_values.mp hm
  exact h.engine.changes r _ hkey

omit [Crypto] in
/-- A message that is sent. -/
lemma send (h : s.Conveys ρ) {m : ConsensusMessage} (hm : m.Carries ρ) : (s.send [m]).Conveys ρ := by
  refine ⟨⟨h.engine, h.committed, fun m' hm' ht => ?_⟩, fun m' hm' => ?_⟩
  · rcases List.mem_append.mp hm' with hm' | hm'
    · exact h.proposed m' hm' ht
    · rw [List.mem_singleton.mp hm']
      exact hm.1
  · rcases List.mem_append.mp hm' with hm' | hm'
    · exact h.messages m' hm'
    · rw [List.mem_singleton.mp hm']
      exact hm

omit [Crypto] in
/-- A proposal that is accepted. -/
lemma accept (h : s.Conveys ρ) {block : Block} (hblock : ρ.block block) {x : PyStr}
    {m : ConsensusMessage} (hm : m.Carries ρ) : (s.accept block x m).Conveys ρ := by
  have hengine : ConsensusEngine.Carries ρ (s.accept block x m).engine := by
    refine ⟨fun b hb => ?_, h.engine.lock, h.engine.changes, h.engine.journal.recordVote _ _ _⟩
    cases hb
    exact hblock
  have hsend := h.send hm
  exact ⟨⟨hengine, hsend.committed, hsend.proposed⟩, hsend.messages⟩

/-- A move keeps such a frame, if the block of a proposal of the engine's own obeys the rule. -/
lemma move (hmove : Move e₀ c s s') (hsince : Since e₀ c s.engine) (hc : c.Clean ρ e₀)
    (hown : ∀ block cert, c.Proposes e₀ s.engine block cert →
      (∃ m ∈ s'.result.broadcast, m.type = .PRE_PREPARE) → ρ.block block)
    (h : s.Conveys ρ) : s'.Conveys ρ := by
  refine ⟨h.toCarries.move hmove hsince hc hown, fun m hm => ?_⟩
  have hpre : ∀ {block pre}, c.Origin e₀ s.engine block pre → pre ⊆ s'.result.broadcast → m ∈ pre →
      m.Carries ρ := by
    intro block pre horigin hsub hmem
    cases horigin with
    | own hp hh hcreate =>
      obtain rfl := List.mem_singleton.mp hmem
      have htype := (ConsensusMessage.create_eq hcreate).1
      refine .of_create hcreate (fun b hb => ?_) fun m' hm' => ?_
      · cases hb
        exact hown _ _ hp ⟨m, hsub hmem, htype⟩
      · cases hp with
        | fresh => cases hm'
        | change => exact h.of_stored hm'
    | peer => cases hmem
  cases hmove with
  | leave hch ht hr hwhy hrc =>
    rcases List.mem_append.mp hm with hm | hm
    · exact h.messages m hm
    · obtain rfl := List.mem_singleton.mp hm
      obtain ⟨-, -, -, -, -, hblock, -⟩ := ConsensusEngine.roundChange_eq hrc
      refine ⟨hblock ▸ h.engine.lock, fun m' hm' => ?_⟩
      rw [ConsensusEngine.roundChangeCert_roundChange hrc] at hm'
      cases hm'
  | accept horigin hphase hh hprior hcreate =>
    rcases List.mem_append.mp hm with hm | hm
    · rcases List.mem_append.mp hm with hm | hm
      · exact h.messages m hm
      · exact hpre horigin (fun _ h => List.mem_append_left _ (List.mem_append_right _ h)) hm
    · obtain rfl := List.mem_singleton.mp hm
      exact .of_create hcreate (fun b hb => by cases hb) fun m' hm' => (by cases hm')
  | refuse horigin =>
    rcases List.mem_append.mp hm with hm | hm
    · exact h.messages m hm
    · exact hpre horigin (fun _ h => List.mem_append_right _ h) hm
  | prepare hopen hphase hblock hh hquorum hprior hcreate =>
    rcases List.mem_append.mp hm with hm | hm
    · exact h.messages m hm
    · obtain rfl := List.mem_singleton.mp hm
      exact .of_create hcreate (fun b hb => by cases hb) fun m' hm' => (by cases hm')
  | _ => exact h.messages m hm

end Frame.Conveys

/-! ### Calls -/

omit [Crypto] in
lemma Frame.Conveys.start (h : e₀.Carries ρ) : Frame.Conveys ρ ⟨e₀, {}⟩ :=
  ⟨⟨h, fun b hb => (by cases hb), fun m hm => (by cases hm)⟩, fun m hm => (by cases hm)⟩

/-- A frame in which nothing has been proposed. -/
lemma Reached.conveys_of_silent (hs : Reached e₀ c s) (hc : c.Clean ρ e₀) (h₀ : e₀.Carries ρ)
    (hsilent : ∀ m ∈ s.result.broadcast, m.type ≠ .PRE_PREPARE) : s.Conveys ρ := by
  induction hs with
  | refl => exact .start h₀
  | tail hs hmove ih =>
    have hbefore := ih fun m hm => hsilent m (hmove.broadcast_subset hm)
    refine hbefore.move hmove (Reached.since hs) hc fun _ _ _ hpre => ?_
    obtain ⟨m, hm, ht⟩ := hpre
    exact absurd ht (hsilent m hm)

/-- A call that processes no round changes. -/
lemma Reached.conveys_of_steady (hs : Reached e₀ c s) (hc : c.Clean ρ e₀) (h₀ : e₀.Carries ρ)
    (hchanging : ¬c.Changing e₀) (hbuild : ∀ block, c.Builds e₀ block → ρ.block block) :
    s.Conveys ρ := by
  induction hs with
  | refl => exact .start h₀
  | tail hs hmove ih =>
    exact ih.move hmove (Reached.since hs) hc fun _ _ hp _ => hbuild _ (hp.builds hchanging)

/-- A call on round changes that proposes has entered a later round. -/
lemma Reached.round_lt_of_proposal (hs : Reached e₀ c s) (hchanging : c.Changing e₀)
    {m : ConsensusMessage} (hm : m ∈ s.result.broadcast) (ht : m.type = .PRE_PREPARE) :
    e₀.round < s.engine.round := by
  induction hs with
  | refl => cases hm
  | @tail s s' hs hmove ih =>
    have hle : s.engine.round ≤ s'.engine.round := by
      cases hmove with
      | adopt hr => exact hr.le
      | _ => exact le_rfl
    refine lt_of_lt_of_le ?_ hle
    rcases hmove.sends hm with hm | hsends
    · exact ih hm
    · obtain ⟨block, cert, h, hp, -⟩ := hsends.proposes ht
      cases hp with
      | fresh hc =>
        rcases hchanging with ⟨hc', -⟩ | ⟨m', hm', -⟩
        · rw [hc] at hc'
          cases hc'
        · have heq := hm'.eq
          rw [hc] at heq
          cases heq
      | change _ hr => exact hr

namespace EngineM

/-- What follows on an accepted proposal proposes nothing. -/
lemma maybeAdvance_conveys (hitems : ∀ records changes, ρ.items records changes) (hs : s.Conveys ρ) :
    (maybeAdvance s).2.Conveys ρ := by
  -- the moves are those of a call without pending items in the round that was open before
  let e : ConsensusEngine := { s.engine with phase := .NEW_ROUND }
  have hclean : (Call.setPending [] []).Clean ρ e := by
    obtain ⟨haccepts, hstores⟩ := Call.brings_nothing (c := .setPending [] []) (e := e) rfl
    exact ⟨fun _ => hitems _ _, fun b hb => absurd hb (haccepts b), fun m hm => absurd hm (hstores m)⟩
  have hopens : Call.Opens (.setPending [] []) e s.engine.round := .propose [] [] rfl rfl rfl
  have hpath := (maybeAdvance_leads (fun _ => hopens) fun _ => Or.inl hopens).path
  have hboth : Since e (.setPending [] []) (maybeAdvance s).2.engine ∧ (maybeAdvance s).2.Conveys ρ := by
    generalize (maybeAdvance s).2 = s' at hpath ⊢
    induction hpath with
    | refl => exact ⟨⟨rfl, rfl, rfl, rfl, le_rfl, fun m hm => Or.inr hm⟩, hs⟩
    | tail _ hmove ih =>
      refine ⟨hmove.since ih.1, ih.2.move hmove ih.1 hclean fun _ _ hp _ => ?_⟩
      cases hp with
      | fresh hc _ _ _ _ hne =>
        cases hc
        simp at hne
      | change hch =>
        rcases hch with ⟨hc, -⟩ | ⟨m, hm, -⟩
        · cases hc
        · cases hm.eq
  exact hboth.2

/-- A proposal that is emitted in an open round. -/
lemma emitPrePrepare_conveys (hitems : ∀ records changes, ρ.items records changes) (hs : s.Conveys ρ)
    {block : Block} (hblock : ρ.block block) {cert : List ConsensusMessage}
    (hcert : ∀ m ∈ cert, ∀ b ∈ m.block, ρ.block b) : (emitPrePrepare block cert s).2.Conveys ρ := by
  cases hh : block.hash with
  | error err =>
    rw [emitPrePrepare_of_error hh]
    exact hs
  | ok h =>
    obtain ⟨m, hm⟩ := exists_create_of_hash hh .PRE_PREPARE s.engine.height s.engine.round
      s.engine.privateKey (some block) none [] cert
    have hsend : (s.send [m]).Conveys ρ := by
      refine hs.send (.of_create hm (fun b hb => ?_) hcert)
      cases hb
      exact hblock
    rw [emitPrePrepare_eq hh hm]
    by_cases hprior : ∀ h' ∈ s.engine.journal.votedHash s.engine.round .PREPARE, h' = h
    · obtain ⟨p, hp⟩ := exists_create_of_hash hh .PREPARE s.engine.height s.engine.round
        s.engine.privateKey none none [] []
      rw [acceptProposal_of_free (s := s.send [m]) hh hprior hp]
      refine maybeAdvance_conveys hitems (hsend.accept hblock (.of_create hp (fun b hb => ?_) ?_))
      · cases hb
      · exact fun m' hm' => (by cases hm')
    · push Not at hprior
      obtain ⟨h', hh', hne⟩ := hprior
      rw [acceptProposal_of_prior (s := s.send [m]) hh hh' hne]
      exact hsend

/-- What is done for a round that was just adopted. -/
lemma Adopts.conveys {e : ConsensusEngine} {r : ℤ} (hs : Adopts e c r s)
    (hitems : ∀ records changes, ρ.items records changes) (hconveys : s.Conveys ρ)
    (hbuild : ∀ ok block, e.me = e.validators.proposer e.height r →
      verifyRoundChangeCert e.validators e.height (e.changesWith c r).values r = .ok (ok, none) →
      e.freshBlock = .ok block → ρ.block block) : (proposeForRoundChange r s).2.Conveys ρ := by
  by_cases hme : e.me = e.validators.proposer e.height r
  · have htakes := hs.takesOver hme
    have hstored : ∀ m ∈ (s.engine.roundChanges.getD r).values, ∀ b ∈ m.block, ρ.block b :=
      fun m hm => hconveys.of_stored hm
    obtain ⟨verdict, hverdict⟩ := htakes.exists_verdict
    have ht : s.tick.Conveys ρ :=
      ⟨⟨{ hconveys.engine with }, hconveys.committed, hconveys.proposed⟩, hconveys.messages⟩
    have hends := htakes.ends hverdict
    generalize proposeForRoundChange r s = out at hends ⊢
    cases hends with
    | unreadable => exact hconveys
    | missing => exact hconveys
    | @locked x block hlock hlocked =>
      obtain ⟨m, hm, hblock⟩ := exists_of_lockedBlockFromCert hlocked
      exact emitPrePrepare_conveys hitems hconveys (hstored m hm block hblock) hstored
    | unbuildable => exact ht
    | @fresh block hlock hfresh =>
      rw [hs.validators, hs.height, hs.changes, ← Prod.mk.eta (p := verdict), hlock] at hverdict
      exact emitPrePrepare_conveys hitems ht (hbuild _ block hme hverdict (hs.fresh ▸ hfresh)) hstored
  · have hnot : ¬s.engine.isProposer = true := by
      rw [ConsensusEngine.isProposer, decide_eq_true_eq, hs.me, hs.validators, hs.height, hs.round]
      exact hme
    have hopen : ¬(s.engine.round ≠ r ∨ s.engine.phase ≠ .NEW_ROUND) := by
      rw [hs.round, hs.phase]
      simp
    have hrun : proposeForRoundChange r s = (.ok (), s) := by
      rw [proposeForRoundChange, self_bind, if_neg hopen, if_pos hnot]
      rfl
    rw [hrun]
    exact hconveys

end EngineM

/-- A call whose inputs obey the rule, and the block that it builds, if any, leaves behind an engine whose
blocks obey it, and sends no others. -/
theorem Call.conveys {e : ConsensusEngine} (he : e.Sound) (hcarries : e.Carries ρ) (hc : c.Clean ρ e)
    (hitems : ∀ records changes, ρ.items records changes)
    (hbuild : ∀ block, c.Builds e block → ρ.block block) : (c.run e).2.Conveys ρ := by
  have hreached := c.run_moves e
  by_cases hchanging : c.Changing e
  · by_cases hsilent : ∀ m ∈ (c.run e).2.result.broadcast, m.type ≠ .PRE_PREPARE
    · exact hreached.conveys_of_silent hc hcarries hsilent
    · push Not at hsilent
      obtain ⟨m, hm, ht⟩ := hsilent
      have hr := hreached.round_lt_of_proposal hchanging hm ht
      obtain ⟨t, hrun, hadopts⟩ := hchanging.exists_adopts he hr rfl
      have ht := hadopts.reached.conveys_of_silent hc hcarries hadopts.silent
      rw [hrun]
      exact hadopts.conveys hitems ht fun ok block hme hfree hblock =>
        hbuild block (.takeOver hchanging hr rfl hme hfree hblock)
  · exact hreached.conveys_of_steady hc hcarries hchanging hbuild

end Helix

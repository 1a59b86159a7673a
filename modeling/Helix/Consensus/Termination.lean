import Helix.Consensus.Acceptance
import Helix.Consensus.Progress

/-!
# Proposals are decided

All validators of a height run the engine. A proposal that was sent for a round is then decided by every
quorum of validators that are in this round, have been handed the proposal, and have been handed each
other's votes: each of them has accepted it, since no other block was proposed for the round.
-/

namespace Helix

variable [Crypto] {V : ValidatorSet} {height : ℤ} {previousHash : PyStr} {e₀ e : ConsensusEngine}
  {c : Call} {s s' : Frame} {m : ConsensusMessage} {v : Validator}

open Relation (ReflTransGen)
open Eff (Returns)

/-! ### Acceptance -/

/-- A proposal, of the first round or a later one, that every engine of the height finds acceptable. -/
def ConsensusMessage.Acceptable (V : ValidatorSet) (height : ℤ) (previousHash : PyStr)
    (m : ConsensusMessage) : Prop :=
  m.type = .PRE_PREPARE → ∃ block, ∀ e : ConsensusEngine, e.At V height previousHash →
    AcceptableProposal e m.round block m

/-- Round `r` is over, or has a proposal. -/
def ConsensusEngine.Past (r : ℤ) (e : ConsensusEngine) : Prop :=
  r < e.round ∨ r = e.round ∧ e.phase ≠ .NEW_ROUND

lemma Move.past {r : ℤ} (h : Move e₀ c s s') (hr : s.engine.Past r) : s'.engine.Past r := by
  cases h with
  | adopt hlt =>
    rcases hr with hr | ⟨hr, -⟩
    · exact Or.inl (hr.trans hlt)
    · exact Or.inl (hr.trans_lt hlt)
  | accept => exact hr.imp_right fun hr => ⟨hr.1, fun heq => by cases heq⟩
  | prepare => exact hr.imp_right fun hr => ⟨hr.1, fun heq => by cases heq⟩
  | finalize => exact hr.imp_right fun hr => ⟨hr.1, fun heq => by cases heq⟩
  | finalizeRaises => exact hr.imp_right fun hr => ⟨hr.1, fun heq => by cases heq⟩
  | _ => exact hr

lemma Reached.past {r : ℤ} (hs : Reached e₀ c s) (hr : e₀.Past r) : s.engine.Past r := by
  induction hs with
  | refl => exact hr
  | tail _ hmove ih => exact hmove.past ih

namespace ConsensusEngine.Regular

variable (he : e₀.Regular V height previousHash)
include he

/-- What such an engine proposes is acceptable. -/
lemma acceptable (hc : c.Genuine V height previousHash) (hs : Reached e₀ c s)
    (hm : m ∈ s.result.broadcast) : m.Acceptable V height previousHash := by
  intro ht
  by_cases hr : 0 < m.round
  · exact (he.genuine hc hs hm).proposal ht hr
  have hsent := hs.sentBy hm
  have hcarries := (he.reached hc hs).2.messages m hm
  obtain ⟨s₁, hs₁, hsends⟩ := hs.sends hm
  obtain ⟨block, cert, h, hp, hh, hcreate⟩ := hsends.proposes ht
  obtain ⟨-, -, hround, hhash, -, hblock, -⟩ := ConsensusMessage.create_eq hcreate
  have hvals : e₀.validators = V := he.place.validators
  have hheight : e₀.height = height := he.place.height
  cases hp with
  | change _ hlt =>
    rw [hround] at hr
    exact absurd (he.round.trans_lt hlt) hr
  | fresh _ hzero hsame _ hme =>
    refine ⟨block, fun e hat => ⟨?_, hblock, hhash ▸ hh, ?_, fun hpos => absurd hpos hr⟩⟩
    · rw [hsent.sender, hat.validators, hat.height, hround, hsame, ← hvals, ← hheight, ← hme]
      exact PublicKey.fromHex_toHex _
    · rw [ConsensusEngine.structurallyValid_eq_ok, hat.height, hat.previousHash]
      exact hcarries.1 _ hblock

/-- A round that is new has no vote. -/
lemma unvoted_of_newRound (hs : Reached e₀ c s) (hphase : s.engine.phase = .NEW_ROUND) :
    s.engine.journal.votedHash s.engine.round .PREPARE = none := by
  by_contra hvoted
  obtain ⟨h, hv⟩ := Option.ne_none_iff_exists'.mp hvoted
  rcases he.unvoted_of_reached hs hv with hlt | ⟨-, hne⟩
  · exact lt_irrefl _ hlt
  · exact hne hphase

end ConsensusEngine.Regular

/-! ### One proposal a round -/

/-- What a validator sends for a round, and where its proposal comes from. -/
structure Validator.Timely (v : Validator) : Prop where
  sender : ∀ m ∈ v.sent, m.sender = v.engine.me.toHex
  prepares : ∀ m ∈ v.sent, m.type = .PREPARE → v.engine.Past m.round
  proposals : ∀ m ∈ v.sent, m.type = .PRE_PREPARE →
    v.engine.me = v.engine.validators.proposer v.engine.height m.round ∧ v.engine.Past m.round
  once : ∀ m ∈ v.sent, ∀ m' ∈ v.sent, m.type = .PRE_PREPARE → m'.type = .PRE_PREPARE →
    m.round = m'.round → m.blockHash = m'.blockHash
  origin : v.engine.phase ≠ .NEW_ROUND → ∃ b ∈ v.engine.proposal, ∃ m ∈ v.sent ++ v.received,
    m.type = .PRE_PREPARE ∧ m.round = v.engine.round ∧ b.hash = .ok m.blockHash ∧
      PublicKey.fromHex m.sender = .ok (v.engine.validators.proposer v.engine.height v.engine.round)

/-- Only the proposer of a round proposes. -/
lemma Call.Proposes.me {block : Block} {cert : List ConsensusMessage} (h : c.Proposes e₀ e block cert) :
    e₀.me = e₀.validators.proposer e₀.height e.round := by
  cases h with
  | fresh _ _ hr _ hme => exact hr ▸ hme
  | change _ _ hme => exact hme

namespace Validator.Timely

/-- Only other messages are sent, and the proposal is the same but for its seals. -/
lemma send {v' : Validator} (hv : v.Timely) {l : List ConsensusMessage} (hsent : v'.sent = v.sent ++ l)
    (hl : ∀ m ∈ l, m.type ≠ .PREPARE ∧ m.type ≠ .PRE_PREPARE ∧ m.sender = v.engine.me.toHex)
    (hreceived : v.received ⊆ v'.received) (hme : v'.engine.me = v.engine.me)
    (hvals : v'.engine.validators = v.engine.validators) (hheight : v'.engine.height = v.engine.height)
    (hpast : ∀ r, v.engine.Past r → v'.engine.Past r)
    (horigin : v'.engine.phase ≠ .NEW_ROUND → v'.engine.round = v.engine.round ∧
      v.engine.phase ≠ .NEW_ROUND ∧ ∀ b ∈ v.engine.proposal, ∃ b' ∈ v'.engine.proposal, b'.hash = b.hash) :
    v'.Timely := by
  have hold : ∀ m ∈ v'.sent, m.type = .PREPARE ∨ m.type = .PRE_PREPARE → m ∈ v.sent := by
    intro m hm ht
    rw [hsent] at hm
    refine (List.mem_append.mp hm).resolve_right fun hm => ?_
    exact ht.elim (hl m hm).1 (hl m hm).2.1
  refine ⟨fun m hm => ?_, fun m hm ht => ?_, fun m hm ht => ?_, fun m hm m' hm' ht ht' hr => ?_,
    fun hne => ?_⟩
  · rw [hme]
    rw [hsent] at hm
    rcases List.mem_append.mp hm with hm | hm
    · exact hv.sender m hm
    · exact (hl m hm).2.2
  · exact hpast _ (hv.prepares m (hold m hm (Or.inl ht)) ht)
  · rw [hme, hvals, hheight]
    exact (hv.proposals m (hold m hm (Or.inr ht)) ht).imp_right (hpast _)
  · exact hv.once m (hold m hm (Or.inr ht)) m' (hold m' hm' (Or.inr ht')) ht ht' hr
  · obtain ⟨hround, hphase, hblocks⟩ := horigin hne
    obtain ⟨b, hb, m, hm, hrest⟩ := hv.origin hphase
    obtain ⟨b', hb', hhash⟩ := hblocks b hb
    refine ⟨b', hb', m, ?_, ?_⟩
    · rw [hsent]
      rcases List.mem_append.mp hm with hm | hm
      · exact List.mem_append_left _ (List.mem_append_left _ hm)
      · exact List.mem_append_right _ (hreceived hm)
    · rw [hround, hvals, hheight, hhash]
      exact hrest

/-- A proposal is accepted in a round that had none. -/
lemma accept (hv : (v.during c s).Timely) (hsince : Since v.engine c s.engine) {block : Block} {h : PyStr}
    {pre : List ConsensusMessage} (horigin : c.Origin v.engine s.engine block pre)
    (hphase : s.engine.phase = .NEW_ROUND) (hh : block.hash = .ok h)
    (hm : ConsensusMessage.create .PREPARE s.engine.height s.engine.round h s.engine.privateKey = .ok m) :
    (v.during c ((s.send pre).accept block h m)).Timely := by
  obtain ⟨htype, -, hround, -, hsender, -⟩ := ConsensusMessage.create_eq hm
  have hcases : ∀ {a}, a ∈ (v.during c ((s.send pre).accept block h m)).sent →
      a ∈ (v.during c s).sent ∨ a ∈ pre ∨ a = m := fun ha => Validator.mem_sent_accept.mp ha
  have hnow : ConsensusEngine.Past s.engine.round ((s.send pre).accept block h m).engine :=
    Or.inr ⟨rfl, fun heq => by cases heq⟩
  -- what was sent before is for earlier rounds
  have hearlier : ∀ {r}, s.engine.Past r → r < s.engine.round := fun hr =>
    hr.resolve_right fun hr => hr.2 hphase
  have hpast : ∀ {r}, s.engine.Past r → ConsensusEngine.Past r ((s.send pre).accept block h m).engine :=
    fun hr => Or.inl (hearlier hr)
  -- the PRE_PREPARE that goes out with it
  have hpre : ∀ a ∈ pre, a.sender = s.engine.me.toHex ∧ a.type = .PRE_PREPARE ∧
      a.round = s.engine.round ∧ a.blockHash = h ∧
      s.engine.me = s.engine.validators.proposer s.engine.height s.engine.round := by
    intro a ha
    have ht := horigin.types a ha
    have hr := horigin.round_eq a ha
    cases horigin with
    | own hp hx hcreate =>
      obtain rfl := List.mem_singleton.mp ha
      obtain ⟨-, -, -, hhash, hsender', -⟩ := ConsensusMessage.create_eq hcreate
      rw [hh] at hx
      cases hx
      refine ⟨hsender', ht, hr, hhash, ?_⟩
      rw [hsince.me, hsince.validators, hsince.height]
      exact hp.me
    | peer => cases ha
  refine ⟨fun a ha => ?_, fun a ha hat => ?_, fun a ha hat => ?_, fun a ha a' ha' hat hat' hr => ?_,
    fun _ => ?_⟩
  · rcases hcases ha with ha | ha | rfl
    · exact hv.sender a ha
    · exact (hpre a ha).1
    · exact hsender
  · rcases hcases ha with ha | ha | rfl
    · exact hpast (hv.prepares a ha hat)
    · rw [(hpre a ha).2.1] at hat
      cases hat
    · rw [hround]
      exact hnow
  · rcases hcases ha with ha | ha | rfl
    · exact (hv.proposals a ha hat).imp_right hpast
    · obtain ⟨-, -, hr, -, hme⟩ := hpre a ha
      rw [hr]
      exact ⟨hme, hnow⟩
    · rw [htype] at hat
      cases hat
  · have hnew : ∀ {x}, x ∈ pre ∨ x = m → x.type = .PRE_PREPARE → x ∈ pre := fun hx hxt =>
      hx.resolve_right fun heq => by rw [heq, htype] at hxt; cases hxt
    have hbelow : ∀ {x}, x ∈ (v.during c s).sent → x.type = .PRE_PREPARE → x.round < s.engine.round :=
      fun hx hxt => hearlier (hv.proposals _ hx hxt).2
    rcases hcases ha with ha | ha <;> rcases hcases ha' with ha' | ha'
    · exact hv.once a ha a' ha' hat hat' hr
    · have hlt := hbelow ha hat
      rw [hr, (hpre a' (hnew ha' hat')).2.2.1] at hlt
      exact absurd hlt (lt_irrefl _)
    · have hlt := hbelow ha' hat'
      rw [← hr, (hpre a (hnew ha hat)).2.2.1] at hlt
      exact absurd hlt (lt_irrefl _)
    · rw [(hpre a (hnew ha hat)).2.2.2.1, (hpre a' (hnew ha' hat')).2.2.2.1]
  · refine ⟨block, rfl, ?_⟩
    cases horigin with
    | @own cert x a hp hx hcreate =>
      obtain ⟨hsender', ht, hr, hhash, hme⟩ := hpre a List.mem_cons_self
      refine ⟨a, List.mem_append_left _ ?_, ht, hr, hhash.symm ▸ hh, ?_⟩
      · exact Validator.mem_sent_accept.mpr (Or.inr (Or.inl List.mem_cons_self))
      · rw [hsender', PublicKey.fromHex_toHex]
        exact congrArg Except.ok hme
    | @peer a ha =>
      refine ⟨a, List.mem_append_right _ ?_, ha.handles.type, ha.round, ha.hash, ?_⟩
      · refine List.mem_append_right _ ?_
        rw [ha.handles.eq]
        exact List.mem_singleton.mpr rfl
      · have hsender' := ha.sender
        rw [← hsince.validators, ← hsince.height] at hsender'
        exact hsender'

lemma move (hv : (v.during c s).Timely) (hsince : Since v.engine c s.engine)
    (hunvoted : s.engine.phase = .NEW_ROUND → s.engine.journal.votedHash s.engine.round .PREPARE = none)
    (hmove : Move v.engine c s s') : (v.during c s').Timely := by
  have hpast : ∀ r, s.engine.Past r → s'.engine.Past r := fun r hr => hmove.past hr
  have hrest : ∀ {l : List ConsensusMessage}, (v.during c s').sent = (v.during c s).sent ++ l →
      (∀ m ∈ l, m.type ≠ .PREPARE ∧ m.type ≠ .PRE_PREPARE ∧ m.sender = s.engine.me.toHex) →
      s'.engine.privateKey = s.engine.privateKey → s'.engine.validators = s.engine.validators →
      s'.engine.height = s.engine.height →
      (s'.engine.phase ≠ .NEW_ROUND → s'.engine.round = s.engine.round ∧ s.engine.phase ≠ .NEW_ROUND ∧
        ∀ b ∈ s.engine.proposal, ∃ b' ∈ s'.engine.proposal, b'.hash = b.hash) →
      (v.during c s').Timely := fun hsent hl hkey hvals hheight horigin =>
    hv.send hsent hl (List.Subset.refl _) (congrArg PrivateKey.publicKey hkey) hvals hheight hpast horigin
  cases hmove with
  | accept horigin hphase hh hprior hm => exact hv.accept hsince horigin hphase hh hm
  | refuse horigin hphase hh hprior hne =>
    rw [hunvoted hphase] at hprior
    cases hprior
  | adopt =>
    exact hrest (l := []) (List.append_nil _).symm (fun m hm => by cases hm) rfl rfl rfl fun hne =>
      absurd rfl hne
  | leave hc ht hr hwhy hm =>
    obtain ⟨htype, -, -, -, hsender, -⟩ := ConsensusEngine.roundChange_eq hm
    refine hrest (List.append_assoc _ _ _).symm (fun a ha => ?_) rfl rfl rfl fun hne =>
      ⟨rfl, hne, fun b hb => ⟨b, hb, rfl⟩⟩
    rw [List.mem_singleton.mp ha, htype]
    exact ⟨by decide, by decide, hsender⟩
  | prepare hopen hphase hblock hh hquorum hprior hm =>
    obtain ⟨htype, -, -, -, hsender, -⟩ := ConsensusMessage.create_eq hm
    refine hrest (List.append_assoc _ _ _).symm (fun a ha => ?_) rfl rfl rfl fun _ =>
      ⟨rfl, ?_, fun b hb => ⟨b, hb, rfl⟩⟩
    · rw [List.mem_singleton.mp ha, htype]
      exact ⟨by decide, by decide, hsender⟩
    · rw [hphase]
      decide
  | finalize hclose hphase hblock hh hquorum hseal =>
    refine hrest (l := []) (List.append_nil _).symm (fun m hm => by cases hm) rfl rfl rfl fun _ =>
      ⟨rfl, ?_, ?_⟩
    · rw [hphase]
      decide
    · intro b hb
      rw [hblock] at hb
      cases hb
      exact ⟨_, rfl, by rw [Block.hash, (attachSeals_spec hseal).1]; rfl⟩
  | finalizeRaises hphase =>
    refine hrest (l := []) (List.append_nil _).symm (fun m hm => by cases hm) rfl rfl rfl fun _ =>
      ⟨rfl, ?_, ?_⟩
    · rw [hphase]
      decide
    · exact fun b hb => ⟨b, hb, rfl⟩
  | _ =>
    exact hrest (l := []) (List.append_nil _).symm (fun m hm => by cases hm) rfl rfl rfl fun hne =>
      ⟨rfl, hne, fun b hb => ⟨b, hb, rfl⟩⟩

lemma call (hv : v.Timely) (he : v.engine.Regular V height previousHash) (c : Call) : (v.call c).Timely := by
  refine v.call_induction c ?_ fun s s' hs hv hmove =>
    hv.move hs.since (fun hphase => he.unvoted_of_newRound hs hphase) hmove
  refine hv.send (l := []) rfl (fun m hm => by cases hm)
    (List.subset_append_left _ _) rfl rfl rfl (fun r hr => hr) fun hne => ⟨rfl, hne, fun b hb => ⟨b, hb, rfl⟩⟩

end Validator.Timely

/-! ### Proposals that are handed in -/

/-- After a proposal was handed in, its round is over or has a proposal. -/
lemma ConsensusEngine.Regular.past_of_handled (he : e.Regular V height previousHash)
    (hm : m.Genuine V height previousHash) (hacceptable : m.Acceptable V height previousHash)
    (ht : m.type = .PRE_PREPARE) (hsent : v.engine = e) (hv : (v.call (.handle m)).Timely) :
    (v.call (.handle m)).engine.Past m.round := by
  subst hsent
  have hreached := (Call.handle m).run_moves v.engine
  -- a PREPARE that the call sends shows it
  have hprepared : (∃ x ∈ ((Call.handle m).run v.engine).2.result.broadcast,
      x.Prepares v.engine m.round m.blockHash) → (v.call (.handle m)).engine.Past m.round := by
    rintro ⟨x, hx, hprepares⟩
    rw [← hprepares.round]
    exact hv.prepares x (List.mem_append_right _ hx) hprepares.type
  rcases lt_trichotomy m.round v.engine.round with hlt | heq | hgt
  · exact Or.inl (hlt.trans_le hreached.since.round)
  · by_cases hphase : v.engine.phase = .NEW_ROUND
    swap
    · exact hreached.past (Or.inr ⟨heq, hphase⟩)
    obtain ⟨block, hblock⟩ := hacceptable ht
    have hentered : EngineM.enterRound m ⟨v.engine, {}⟩ = (.ok true, ⟨v.engine, {}⟩) := by
      rw [EngineM.enterRound, EngineM.self_bind, if_neg heq.symm.not_lt]
      rfl
    have hunvoted := he.unvoted_of_newRound (c := .handle m) .refl hphase
    obtain ⟨_, s', hreturns, hprepares⟩ := EngineM.handlePrePrepare_prepares hentered
      ⟨⟨rfl, rfl, rfl, rfl⟩, he.sound, heq.symm, hphase, rfl⟩ (hblock v.engine he.place)
      (heq ▸ hunvoted)
    have haccepted : Accepted v.engine m := by
      refine ⟨hm.height.trans he.place.height.symm, ?_⟩
      rw [he.place.validators]
      exact hm.authentic
    refine hprepared ?_
    rw [Call.run, Call.body, EngineM.handle_eq (s := ⟨v.engine, {}⟩) ⟨rfl, rfl, rfl, rfl⟩ haccepted, ht]
    simp only
    rw [hreturns]
    exact hprepares
  · exact hprepared (he.accepts hm ht (he.round.trans_lt hgt) (Or.inl hgt)).2

namespace Committee

open Network (Accepts Exchanged Progressing worldOfSeed)

variable {w w' : World} {k p : PublicKey}

/-- A height whose validators all run the engine. -/
abbrev network (V : ValidatorSet) (height : ℤ) : Network := ⟨V, height, ∅, Nat.zero_le _⟩

/-- A validator among others that all run the engine. -/
structure Answers (V : ValidatorSet) (height : ℤ) (previousHash : PyStr) (w : World) (k : PublicKey)
    (v : Validator) : Prop where
  regular : v.Regular V height previousHash
  progressing : (network V height).Progressing k v
  timely : v.Timely
  acceptable : ∀ m ∈ v.sent, m.Acceptable V height previousHash
  supplied : ∀ m ∈ v.received, ∃ k' ∈ V.validators, m ∈ (w k').sent
  handed : ∀ m ∈ v.received, m.type = .PRE_PREPARE → v.engine.Past m.round

lemma Answers.mono (hv : Answers V height previousHash w k v) (hw : ∀ k, (w k).sent ⊆ (w' k).sent) :
    Answers V height previousHash w' k v :=
  { hv with
    supplied := fun m hm => by
      obtain ⟨k', hk', hsent⟩ := hv.supplied m hm
      exact ⟨k', hk', hw k' hsent⟩ }

lemma Answers.call (hv : Answers V height previousHash w k v) (hc : c.Genuine V height previousHash)
    (hacceptable : ∀ m ∈ c.messages, m.Acceptable V height previousHash)
    (hsupplied : ∀ m ∈ c.messages, ∃ k' ∈ V.validators, m ∈ (w k').sent) :
    Answers V height previousHash w k (v.call c) := by
  have hreached := c.run_moves v.engine
  have htimely := hv.timely.call hv.regular.engine c
  refine ⟨hv.regular.call hc, hv.progressing.call c, htimely, fun m hm => ?_, fun m hm => ?_,
    fun m hm ht => ?_⟩
  · rcases List.mem_append.mp hm with hm | hm
    · exact hv.acceptable m hm
    · exact hv.regular.engine.acceptable hc hreached hm
  · rcases List.mem_append.mp hm with hm | hm
    · exact hv.supplied m hm
    · exact hsupplied m hm
  · rcases List.mem_append.mp hm with hm | hm
    · exact hreached.past (hv.handed m hm ht)
    · cases c with
      | handle m' =>
        obtain rfl := List.mem_singleton.mp hm
        exact hv.regular.engine.past_of_handled (hc m hm) (hacceptable m hm) ht rfl htimely
      | setPending => cases hm
      | onTimeout => cases hm

/-- Everything that runs goes on so. -/
lemma Answers.step (hw : ∀ k ∈ V.validators, Answers V height previousHash w k (w k))
    (hstep : Step V w w') : ∀ k ∈ V.validators, Answers V height previousHash w' k (w' k) := by
  obtain @⟨k, c, hk, hc⟩ := hstep
  have hgenuine : c.Genuine V height previousHash := by
    intro m hm
    obtain ⟨k', hk', hsent⟩ := hc m hm
    exact (hw k' hk').regular.sent m hsent
  have hacceptable : ∀ m ∈ c.messages, m.Acceptable V height previousHash := by
    intro m hm
    obtain ⟨k', hk', hsent⟩ := hc m hm
    exact (hw k' hk').acceptable m hsent
  have hgrows : ∀ k', (w k').sent ⊆ (Function.update w k ((w k).call c) k').sent := by
    intro k'
    by_cases heq : k' = k
    · subst heq
      rw [Function.update_self]
      exact List.subset_append_left _ _
    · rw [Function.update_of_ne heq]
      exact List.Subset.refl _
  intro k' hk'
  by_cases heq : k' = k
  · subst heq
    rw [Function.update_self]
    exact ((hw k' hk').call hgenuine hacceptable hc).mono hgrows
  · rw [Function.update_of_ne heq]
    exact (hw k' hk').mono hgrows

lemma Answers.of_begins (hbegins : Begins V height previousHash w)
    (hreceived : ∀ k ∈ V.validators, (w k).received = []) {k : PublicKey} (hk : k ∈ V.validators) :
    Answers V height previousHash w k (w k) := by
  obtain ⟨hregular, hme⟩ := hbegins.regular k hk
  obtain ⟨privateKey, nowMs, journal, hkey, hblank, hhash, hnew⟩ := hbegins.engine k hk
  have hsent := hbegins.sent k hk
  obtain ⟨-, he⟩ := ConsensusEngine.new_eq_ok.mp hnew
  have hphase : (w k).engine.phase = .NEW_ROUND := by
    rw [he]
    rfl
  refine ⟨hregular, ⟨hme, hregular.engine.place.validators, hregular.engine.place.height, ?_,
    .of_newRound hphase⟩, ?_, fun m hm => ?_, fun m hm => ?_, fun m hm => ?_⟩
  · rw [hreceived k hk, he]
    exact .initial hhash hblank _ _ _ _ _
  · refine ⟨fun m hm => ?_, fun m hm => ?_, fun m hm => ?_, fun m hm => ?_, fun hne => absurd hphase hne⟩ <;>
      rw [hsent] at hm <;> cases hm
  · rw [hsent] at hm
    cases hm
  · rw [hreceived k hk] at hm
    cases hm
  · rw [hreceived k hk] at hm
    cases hm

lemma Answers.run (hw : ∀ k ∈ V.validators, Answers V height previousHash w k (w k))
    (hrun : ReflTransGen (Step V) w w') : ∀ k ∈ V.validators, Answers V height previousHash w' k (w' k) := by
  induction hrun with
  | refl => exact hw
  | tail _ hstep ih => exact Answers.step ih hstep

/-- Whoever has a proposal in the round of `m` has that of `m`. -/
lemma Answers.accepts (hw : ∀ k ∈ V.validators, Answers V height previousHash w k (w k))
    (hp : p ∈ V.validators) (hm : m ∈ (w p).sent) (ht : m.type = .PRE_PREPARE) (hk : k ∈ V.validators)
    (hround : (w k).engine.round = m.round) (hphase : (w k).engine.phase ≠ .NEW_ROUND) :
    Accepts m.round m.blockHash (w k) := by
  have hplace : ∀ k' ∈ V.validators, (w k').engine.validators = V ∧ (w k').engine.height = height ∧
      (w k').engine.me = k' := fun k' hk' =>
    ⟨(hw k' hk').progressing.validators, (hw k' hk').progressing.height, (hw k' hk').progressing.me⟩
  obtain ⟨b, hb, x, hx, hxt, hxr, hhash, hsender⟩ := (hw k hk).timely.origin hphase
  obtain ⟨q, hq, hxsent⟩ : ∃ q ∈ V.validators, x ∈ (w q).sent := by
    rcases List.mem_append.mp hx with hx | hx
    · exact ⟨k, hk, hx⟩
    · exact (hw k hk).supplied x hx
  -- both are proposals of the proposer of the round
  have hqp : q = p := by
    have hqsender := (hw q hq).timely.sender x hxsent
    have hproposer := ((hw p hp).timely.proposals m hm ht).1
    rw [hqsender, PublicKey.fromHex_toHex, (hplace q hq).2.2, (hplace k hk).1, (hplace k hk).2.1,
      hround] at hsender
    rw [(hplace p hp).1, (hplace p hp).2.1, (hplace p hp).2.2] at hproposer
    exact (Except.ok.inj hsender).trans hproposer.symm
  subst hqp
  have hsame := (hw q hp).timely.once x hxsent m hm hxt ht (hxr.trans hround)
  exact ⟨hround, hphase, b, hb, hsame ▸ hhash⟩

/-- In every run in which all validators of a height run the engine, whatever messages are lost, repeated
or delivered late and whoever times out: a proposal that was sent for a round has been accepted by every
validator that is in this round and has been handed it, and decided by every quorum of validators that are in
this round and have been handed the proposal and each other's votes. -/
theorem proposal_decides (hsign : ∀ (k : PrivateKey) message, Crypto.sign k message ≠ [])
    (hbegins : Begins V height previousHash w) (hreceived : ∀ k ∈ V.validators, (w k).received = [])
    (hrun : ReflTransGen (Step V) w w') (hp : p ∈ V.validators) (hm : m ∈ (w' p).sent)
    (ht : m.type = .PRE_PREPARE) :
    (∀ k ∈ V.validators, (w' k).engine.round = m.round → (k ≠ p → m ∈ (w' k).received) →
      (w' k).engine.phase ≠ .NEW_ROUND ∧ ∃ b ∈ (w' k).engine.proposal, b.hash = .ok m.blockHash) ∧
    ∀ L : Finset PublicKey, (∀ k ∈ L, k ∈ V.validators) → V.quorum ≤ L.card →
      (∀ k ∈ L, (w' k).engine.round = m.round) → (∀ k ∈ L, k ≠ p → m ∈ (w' k).received) →
      Exchanged w' L m.round →
      ∀ k ∈ L, (w' k).engine.phase = .COMMITTED ∧ ∃ b ∈ (w' k).decided, b.hash = .ok m.blockHash := by
  have hw : ∀ k ∈ V.validators, Answers V height previousHash w' k (w' k) :=
    Answers.run (fun k hk => .of_begins hbegins hreceived hk) hrun
  have haccepts : ∀ k ∈ V.validators, (w' k).engine.round = m.round → (k ≠ p → m ∈ (w' k).received) →
      Accepts m.round m.blockHash (w' k) := by
    intro k hk hround hhanded
    have hpast : (w' k).engine.Past m.round := by
      by_cases heq : k = p
      · subst heq
        exact ((hw k hp).timely.proposals m hm ht).2
      · exact (hw k hk).handed m (hhanded heq) ht
    apply Answers.accepts hw hp hm ht hk hround
    rcases hpast with hlt | ⟨-, hne⟩
    · exact absurd hlt hround.not_gt
    · exact hne
  constructor
  · intro k hk hround hhanded
    obtain ⟨-, hphase, hproposal⟩ := haccepts k hk hround hhanded
    exact ⟨hphase, hproposal⟩
  · intro L hL hquorum hround hhanded hexchanged
    have hcorrect : ∀ k ∈ L, (network V height).Correct k := fun k hk =>
      ⟨hL k hk, Finset.notMem_empty k⟩
    have hprog : ∀ k ∈ L, (network V height).Progressing k (w' k) := fun k hk =>
      (hw k (hL k hk)).progressing
    apply hexchanged.decided hsign hprog hcorrect hquorum
    exact fun k hk => haccepts k (hL k hk) (hround k hk) (hhanded k hk)

omit [Crypto] in
/-- The second of two validators is locked on its block of round 0. The first proposes it again for round 1,
and both decide it there, although the messages of round 0 arrive after all. -/
theorem proposal_decides_of_lock :
    letI := Crypto.checksums
    let a := seedPublic 0xaa
    let b := seedPublic 0xbb
    let turns : List Network.Turn := [.pending b [] [⟨.ADD, []⟩], .relay b a 0, .relay a b 0, .timeout a,
      .timeout b, .relay b a 3, .relay a b 2, .relay a b 3, .relay b a 4, .relay a b 4, .relay b a 5,
      .relay b a 1, .relay b a 2, .relay a b 1]
    let w := turns.foldl Network.Turn.play (worldOfSeed .pair fun k => if k = a then 0xaa else 0xbb)
    ∃ m ∈ (w a).sent, m.type = .PRE_PREPARE ∧ m.round = 1 ∧ ∀ k ∈ ({a, b} : Finset PublicKey),
      (w k).engine.phase = .COMMITTED ∧ ∃ block ∈ (w k).decided, block.hash = .ok m.blockHash := by
  let := Crypto.checksums
  intro a b turns w
  have hmem : ∀ k ∈ ({a, b} : Finset PublicKey), k ∈ ValidatorSet.pair.validators := by decide +kernel
  have ha : a ∈ ValidatorSet.pair.validators := List.mem_cons_self
  have hbegins : Begins .pair 1 ZERO_HASH (worldOfSeed .pair fun k => if k = a then 0xaa else 0xbb) :=
    begins_worldOfSeed (by decide +kernel)
  have hrun : ReflTransGen (Step .pair) (worldOfSeed .pair fun k => if k = a then 0xaa else 0xbb) w :=
    reaches_play (by decide +kernel)
  have hstate : (∀ k ∈ ({a, b} : Finset PublicKey), (w k).engine.round = 1) ∧ (w a).sent.length = 5 ∧
      (w b).sent.length = 6 ∧ ((w a).sent.filter fun m => m.type = .PRE_PREPARE ∧ m.round = 1) ≠ [] := by
    decide +kernel
  obtain ⟨hround, hlength, hlength', hsent⟩ := hstate
  obtain ⟨m, hm⟩ := List.exists_mem_of_ne_nil _ hsent
  obtain ⟨hm, hcond⟩ := List.mem_filter.mp hm
  obtain ⟨ht, hr⟩ := of_decide_eq_true hcond
  -- when each message was relayed
  have hrelayed : ∀ p ∈ [(a, 0, 2), (a, 1, 13), (a, 2, 6), (a, 3, 7), (a, 4, 9), (b, 0, 1), (b, 1, 11),
      (b, 2, 12), (b, 3, 5), (b, 4, 8), (b, 5, 10)], p.2.1 < ((turns.take p.2.2).foldl Network.Turn.play
        (worldOfSeed .pair fun k => if k = a then 0xaa else 0xbb) p.1).sent.length := by
    decide +kernel
  have hab : ∀ m ∈ (w a).sent, m ∈ (w b).received := by
    refine Network.received_of_relays fun i hi => ?_
    change i < (w a).sent.length at hi
    rw [hlength] at hi
    interval_cases i
    · exact ⟨2, rfl, hrelayed (a, 0, 2) (by simp)⟩
    · exact ⟨13, rfl, hrelayed (a, 1, 13) (by simp)⟩
    · exact ⟨6, rfl, hrelayed (a, 2, 6) (by simp)⟩
    · exact ⟨7, rfl, hrelayed (a, 3, 7) (by simp)⟩
    · exact ⟨9, rfl, hrelayed (a, 4, 9) (by simp)⟩
  have hba : ∀ m ∈ (w b).sent, m ∈ (w a).received := by
    refine Network.received_of_relays fun i hi => ?_
    change i < (w b).sent.length at hi
    rw [hlength'] at hi
    interval_cases i
    · exact ⟨1, rfl, hrelayed (b, 0, 1) (by simp)⟩
    · exact ⟨11, rfl, hrelayed (b, 1, 11) (by simp)⟩
    · exact ⟨12, rfl, hrelayed (b, 2, 12) (by simp)⟩
    · exact ⟨5, rfl, hrelayed (b, 3, 5) (by simp)⟩
    · exact ⟨8, rfl, hrelayed (b, 4, 8) (by simp)⟩
    · exact ⟨10, rfl, hrelayed (b, 5, 10) (by simp)⟩
  have hdecides := (proposal_decides Network.checksums_sign_ne_nil hbegins (fun k _ => rfl) hrun ha hm
    ht).2 {a, b} hmem (by decide +kernel) (fun k hk => (hround k hk).trans hr.symm)
  refine ⟨m, hm, ht, hr, hdecides (fun k hk hne => ?_) (Network.exchanged_of_pair hab hba)⟩
  rcases Finset.mem_insert.mp hk with rfl | hk
  · exact absurd rfl hne
  · rw [Finset.mem_singleton.mp hk]
    exact hab m hm

end Committee

end Helix

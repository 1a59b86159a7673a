import Helix.Consensus.RoundMessages

/-!
# An engine in a round

An engine that is in the round is described by the messages it was handed (`Validator.InRound`): the
entries of its tallies, its proposal, and a phase that the votes back. Each step of a vote or of a
proposal keeps the description and leaves the engine as far as the votes allow (`Validator.Still`).
-/

namespace Helix

variable [Crypto]

open Eff (Returns)

/-! ### An engine in the round -/

/-- The parameters of an engine. -/
structure ConsensusEngine.Alike (e₀ e : ConsensusEngine) : Prop where
  validators : e.validators = e₀.validators
  privateKey : e.privateKey = e₀.privateKey
  height : e.height = e₀.height
  previousHash : e.previousHash = e₀.previousHash

lemma ConsensusEngine.Alike.me {e₀ e : ConsensusEngine} (h : e₀.Alike e) : e.me = e₀.me := by
  rw [ConsensusEngine.me, h.privateKey, ConsensusEngine.me]

/-- A seal that can be attached. -/
def Attachable (p : PyStr × PyStr) : Prop :=
  (∃ key, PublicKey.fromHex p.1 = .ok key) ∧ ∃ bytes, fromHex p.2 = .ok bytes

/-- The validator is in round `r`, has counted the votes of `D` and its own, and has a proposal with
hash `h` if one is in `D`. Its phase is backed by the votes. -/
structure Validator.InRound (e₀ : ConsensusEngine) (r : ℤ) (h : PyStr) (D : List ConsensusMessage)
    (v : Validator) : Prop where
  alike : e₀.Alike v.engine
  round : v.engine.round = r
  proposed : v.engine.phase ≠ .NEW_ROUND ↔ Proposed D
  prepares : ∀ x i, i ∈ (v.engine.prepares.getD x).keys ↔ i ∈ voters D .PREPARE x ∨
    v.engine.phase ≠ .NEW_ROUND ∧ x = h ∧ i = e₀.me.toHex
  commits : ∀ x i, i ∈ (v.engine.commits.getD x).keys ↔ i ∈ voters D .COMMIT x ∨
    v.engine.phase.IsPrepared ∧ x = h ∧ i = e₀.me.toHex
  seals : ∀ x, ∀ p ∈ (v.engine.commits.getD x).items, Attachable p
  proposal : v.engine.phase ≠ .NEW_ROUND → ∃ b, v.engine.proposal = some b ∧ b.hash = .ok h
  vacant : v.engine.phase = .NEW_ROUND → v.engine.proposal = none
  prepared : v.engine.phase.IsPrepared →
    e₀.validators.quorum ≤ (insert e₀.me.toHex (voters D .PREPARE h)).card
  committed : v.engine.phase = .COMMITTED →
    e₀.validators.quorum ≤ (insert e₀.me.toHex (voters D .COMMIT h)).card
  decided : v.decided.map Block.hash = if v.engine.phase = .COMMITTED then [.ok h] else []
  votesPrepare : v.engine.phase = .NEW_ROUND → v.engine.journal.votedHash r .PREPARE = none
  votesCommit : ¬v.engine.phase.IsPrepared → v.engine.journal.votedHash r .COMMIT = none

/-- The votes do not allow a further step. -/
structure Validator.Still (e₀ : ConsensusEngine) (h : PyStr) (D : List ConsensusMessage)
    (v : Validator) : Prop where
  prepares : v.engine.phase = .PRE_PREPARED →
    (insert e₀.me.toHex (voters D .PREPARE h)).card < e₀.validators.quorum
  commits : v.engine.phase = .PREPARED →
    (insert e₀.me.toHex (voters D .COMMIT h)).card < e₀.validators.quorum

section Round

variable {e₀ : ConsensusEngine} {r : ℤ} {h : PyStr} {block : Block} {D D' : List ConsensusMessage}
  {v : Validator} {c : Call} {s : Frame} {m : ConsensusMessage}

namespace Validator.InRound

/-- A round begins without votes. -/
lemma empty (halike : e₀.Alike v.engine) (hround : v.engine.round = r)
    (hphase : v.engine.phase = .NEW_ROUND) (hproposal : v.engine.proposal = none)
    (hprepares : v.engine.prepares = Dict.empty) (hcommits : v.engine.commits = Dict.empty)
    (hdecided : v.decided = []) (hvotes : ∀ p, v.engine.journal.votedHash r p = none) :
    v.InRound e₀ r h [] := by
  have hunprepared : ¬v.engine.phase.IsPrepared := by
    rw [hphase]
    rintro (h | h) <;> cases h
  refine {
    alike := halike
    round := hround
    proposed := iff_of_false (not_not.mpr hphase) nofun
    prepares := fun x i => ?_
    commits := fun x i => ?_
    seals := fun x p hp => by rw [hcommits] at hp; cases hp
    proposal := fun hne => absurd hphase hne
    vacant := fun _ => hproposal
    prepared := fun hp => absurd hp hunprepared
    committed := fun hp => absurd (Or.inr hp) hunprepared
    decided := by rw [hdecided, hphase]; rfl
    votesPrepare := fun _ => hvotes .PREPARE
    votesCommit := fun _ => hvotes .COMMIT }
  · rw [hprepares]
    exact iff_of_false nofun (by simp [hphase])
  · rw [hcommits]
    exact iff_of_false nofun (by simp [hunprepared])

/-- Only the votes and whether there is a proposal matter. -/
lemma congr (hv : v.InRound e₀ r h D) (hvotes : ∀ m, m.IsVote → (m ∈ D ↔ m ∈ D'))
    (hproposed : Proposed D ↔ Proposed D') : v.InRound e₀ r h D' := by
  have hsame : ∀ type x, (type = .PREPARE ∨ type = .COMMIT) →
      voters D type x = voters D' type x := by
    intro type x htype
    ext i
    simp only [mem_voters]
    constructor
    · rintro ⟨m, hm, rfl, hrest⟩
      exact ⟨m, (hvotes m htype).mp hm, rfl, hrest⟩
    · rintro ⟨m, hm, rfl, hrest⟩
      exact ⟨m, (hvotes m htype).mpr hm, rfl, hrest⟩
  exact { hv with
    proposed := hv.proposed.trans hproposed
    prepares := fun x i => by rw [← hsame .PREPARE x (Or.inl rfl)]; exact hv.prepares x i
    commits := fun x i => by rw [← hsame .COMMIT x (Or.inr rfl)]; exact hv.commits x i
    prepared := by rw [← hsame .PREPARE h (Or.inl rfl)]; exact hv.prepared
    committed := by rw [← hsame .COMMIT h (Or.inr rfl)]; exact hv.committed }

/-- A message that is no vote, and not the first proposal, changes nothing. -/
lemma skip (hv : v.InRound e₀ r h D) (hvote : ¬m.IsVote)
    (hproposed : m.type = .PRE_PREPARE → Proposed D) : v.InRound e₀ r h (D ++ [m]) := by
  refine hv.congr (fun m' hm' => ?_) ?_
  · rw [List.mem_append, List.mem_singleton]
    exact ⟨Or.inl, fun h => h.resolve_right fun heq => hvote (heq ▸ hm')⟩
  · rw [proposed_concat]
    exact ⟨Or.inl, fun h => h.elim id hproposed⟩

/-- The size of the PREPARE tally. -/
lemma len_prepares (hv : v.InRound e₀ r h D) (hphase : v.engine.phase ≠ .NEW_ROUND) :
    (v.engine.prepares.getD h).len = (insert e₀.me.toHex (voters D .PREPARE h)).card := by
  rw [Dict.len_eq_card]
  congr 1
  ext i
  rw [List.mem_toFinset, hv.prepares h i, Finset.mem_insert, or_comm]
  simp [hphase]

/-- The size of the COMMIT tally. -/
lemma len_commits (hv : v.InRound e₀ r h D) (hphase : v.engine.phase.IsPrepared) :
    (v.engine.commits.getD h).len = (insert e₀.me.toHex (voters D .COMMIT h)).card := by
  rw [Dict.len_eq_card]
  congr 1
  ext i
  rw [List.mem_toFinset, hv.commits h i, Finset.mem_insert, or_comm]
  simp [hphase]

/-- The own COMMIT is counted. -/
lemma prepare (hv : (v.during c s).InRound e₀ r h D) {b : Block} (hh : b.hash = .ok h)
    (hb : s.engine.proposal = some b) (hpre : s.engine.phase = .PRE_PREPARED)
    (hquorum : s.engine.validators.quorum ≤ (s.engine.prepares.getD h).len)
    (hm : ConsensusMessage.create .COMMIT s.engine.height s.engine.round h s.engine.privateKey =
      .ok m) : (v.during c (s.prepare b h m)).InRound e₀ r h D := by
  have hnew : s.engine.phase ≠ .NEW_ROUND := by rw [hpre]; decide
  have hnew' : Phase.PREPARED ≠ .NEW_ROUND := by decide
  have hme : s.engine.me = e₀.me := hv.alike.me
  have hlen : (s.engine.prepares.getD h).len = _ := hv.len_prepares hnew
  have hvals : s.engine.validators = e₀.validators := hv.alike.validators
  obtain ⟨bytes, -, hseal⟩ := ConsensusMessage.create_commitSeal hm
  refine { hv with
    alike := ⟨hv.alike.validators, hv.alike.privateKey, hv.alike.height, hv.alike.previousHash⟩
    proposed := ?_
    prepares := fun x i => ?_
    commits := fun x i => ?_
    seals := fun x p hp => ?_
    proposal := fun _ => ⟨b, hb, hh⟩
    vacant := fun hphase => by cases hphase
    prepared := fun _ => hlen ▸ hvals ▸ hquorum
    committed := fun hphase => by cases hphase
    decided := ?_
    votesPrepare := fun hphase => by cases hphase
    votesCommit := fun hphase => absurd (Or.inl rfl) hphase }
  · exact iff_of_true hnew' (hv.proposed.mp hnew)
  · refine (hv.prepares x i).trans (or_congr_right (and_congr_left fun _ => ?_))
    exact iff_of_true hnew hnew'
  · have hunprepared : ¬(v.during c s).engine.phase.IsPrepared := by
      rw [Validator.during, hpre]
      rintro (h | h) <;> cases h
    have hkeys := hv.commits x i
    simp only [hunprepared, false_and, or_false] at hkeys
    refine Dict.mem_keys_getD_setIn.trans ?_
    rw [show i ∈ (s.engine.commits.getD x).keys ↔ _ from hkeys, hme, or_comm]
    refine or_congr_right ⟨fun h => ⟨Or.inl rfl, h⟩, fun h => h.2⟩
  · rcases Dict.mem_items_getD_setIn hp with ⟨-, rfl⟩ | hp
    · refine ⟨⟨_, PublicKey.fromHex_toHex _⟩, ?_⟩
      rw [hseal]
      exact ⟨_, fromHex_toHex _⟩
    · exact hv.seals x p hp
  · have hdecided := hv.decided
    rw [if_neg (by rw [Validator.during, hpre]; decide)] at hdecided
    exact hdecided

/-- The proposal is decided. -/
lemma finalize (hv : (v.during c s).InRound e₀ r h D) {b sealed : Block} (hh : b.hash = .ok h)
    (hprep : s.engine.phase = .PREPARED)
    (hquorum : s.engine.validators.quorum ≤ (s.engine.commits.getD h).len)
    (hseal : attachSeals (s.engine.commits.getD h) b = .ok sealed) :
    (v.during c (s.finalize sealed)).InRound e₀ r h D := by
  have hnew : s.engine.phase ≠ .NEW_ROUND := by rw [hprep]; decide
  have hnew' : Phase.COMMITTED ≠ .NEW_ROUND := by decide
  have hprepared : s.engine.phase.IsPrepared := Or.inl hprep
  have hlen : (s.engine.commits.getD h).len = _ := hv.len_commits hprepared
  have hvals : s.engine.validators = e₀.validators := hv.alike.validators
  have hsealed : sealed.hash = .ok h := by
    rw [Block.hash, (attachSeals_spec hseal).1]
    exact hh
  refine { hv with
    alike := ⟨hv.alike.validators, hv.alike.privateKey, hv.alike.height, hv.alike.previousHash⟩
    proposed := ?_
    prepares := fun x i => ?_
    commits := fun x i => ?_
    proposal := fun _ => ⟨sealed, rfl, hsealed⟩
    vacant := fun hphase => by cases hphase
    prepared := fun _ => hv.prepared hprepared
    committed := fun _ => hlen ▸ hvals ▸ hquorum
    decided := ?_
    votesPrepare := fun hphase => by cases hphase
    votesCommit := fun hphase => absurd (Or.inr rfl) hphase }
  · exact iff_of_true hnew' (hv.proposed.mp hnew)
  · refine (hv.prepares x i).trans (or_congr_right (and_congr_left fun _ => ?_))
    exact iff_of_true hnew hnew'
  · refine (hv.commits x i).trans (or_congr_right (and_congr_left fun _ => ?_))
    exact iff_of_true hprepared (Or.inr rfl)
  · have hdecided := hv.decided
    rw [if_neg (by rw [Validator.during, hprep]; decide), List.map_eq_nil_iff] at hdecided
    have hold : v.decided = [] := (List.append_eq_nil_iff.mp hdecided).1
    simp [Validator.during, Frame.finalize, hold, hsealed]

/-- A proposal is accepted and the own PREPARE is counted. -/
lemma accept (hv : (v.during c s).InRound e₀ r h D) {b : Block} (hh : b.hash = .ok h)
    (hphase : s.engine.phase = .NEW_ROUND) (htype : m.type = .PRE_PREPARE) {m' : ConsensusMessage}
    (hm' : ConsensusMessage.create .PREPARE s.engine.height s.engine.round h s.engine.privateKey =
      .ok m') : (v.during c (s.accept b h m')).InRound e₀ r h (D ++ [m]) := by
  have hme : s.engine.me = e₀.me := hv.alike.me
  have hnew' : Phase.PRE_PREPARED ≠ .NEW_ROUND := by decide
  obtain ⟨-, -, -, hhash, hsender, -⟩ := ConsensusMessage.create_eq hm'
  have hprepares : voters (D ++ [m]) .PREPARE = voters D .PREPARE :=
    funext fun x => voters_concat_of_ne (by rw [htype]; decide)
  have hcommits : voters (D ++ [m]) .COMMIT = voters D .COMMIT :=
    funext fun x => voters_concat_of_ne (by rw [htype]; decide)
  have hunprepared : ∀ {p : Phase}, p = .NEW_ROUND ∨ p = .PRE_PREPARED → ¬p.IsPrepared := by
    rintro p (rfl | rfl) (h | h) <;> cases h
  have hvoted : s.engine.journal.votedHash r .COMMIT = none :=
    hv.votesCommit (hunprepared (Or.inl hphase))
  refine { hv with
    alike := ⟨hv.alike.validators, hv.alike.privateKey, hv.alike.height, hv.alike.previousHash⟩
    proposed := iff_of_true hnew' (proposed_concat.mpr (Or.inr htype))
    prepares := fun x i => ?_
    commits := fun x i => ?_
    proposal := fun _ => ⟨b, rfl, hh⟩
    vacant := fun hphase => by cases hphase
    prepared := fun hphase => absurd hphase (hunprepared (Or.inr rfl))
    committed := fun hphase => by cases hphase
    decided := ?_
    votesPrepare := fun hphase => by cases hphase
    votesCommit := fun _ => ?_ }
  · have hkeys : i ∈ (s.engine.prepares.getD x).keys ↔ i ∈ voters D .PREPARE x := by
      refine (hv.prepares x i).trans (or_iff_left ?_)
      rintro ⟨hne, -⟩
      exact hne hphase
    refine Dict.mem_keys_getD_setIn.trans ?_
    rw [hprepares, hhash, hsender, show s.engine.privateKey.publicKey = e₀.me from hme, or_comm]
    exact or_congr hkeys ⟨fun h => ⟨hnew', h⟩, fun h => h.2⟩
  · rw [hcommits]
    refine (hv.commits x i).trans (or_congr_right (and_congr_left fun _ => ?_))
    exact iff_of_false (hunprepared (Or.inl hphase)) (hunprepared (Or.inr rfl))
  · have hdecided := hv.decided
    rw [if_neg (by rw [Validator.during, hphase]; decide)] at hdecided
    exact hdecided
  · rw [← hvoted]
    exact s.engine.journal.votedHash_recordVote_of_ne h (by simp)

/-- A PREPARE is counted. -/
lemma tallyPrepare (hv : (v.during c s).InRound e₀ r h D) (ht : m.type = .PREPARE) :
    (v.during c (s.mapEngine fun e => { e with
      prepares := e.prepares.setIn m.blockHash m.sender m })).InRound e₀ r h (D ++ [m]) := by
  refine { hv with
    alike := ⟨hv.alike.validators, hv.alike.privateKey, hv.alike.height, hv.alike.previousHash⟩
    proposed := hv.proposed.trans (proposed_concat_of_ne (by rw [ht]; decide)).symm
    prepares := fun x i => ?_
    commits := fun x i => ?_
    prepared := fun hphase => (hv.prepared hphase).trans
      (Finset.card_le_card (Finset.insert_subset_insert _ voters_subset_concat))
    committed := fun hphase => (hv.committed hphase).trans
      (Finset.card_le_card (Finset.insert_subset_insert _ voters_subset_concat)) }
  · refine Dict.mem_keys_getD_setIn.trans ?_
    rw [show i ∈ (s.engine.prepares.getD x).keys ↔ _ from hv.prepares x i]
    exact mem_voters_concat_or ht
  · rw [voters_concat_of_ne (by rw [ht]; decide)]
    exact hv.commits x i

/-- A COMMIT is counted. -/
lemma tallyCommit (hv : (v.during c s).InRound e₀ r h D) (ht : m.type = .COMMIT)
    (hseal : validCommitSeal m = .ok true) :
    (v.during c (s.mapEngine fun e => { e with
      commits := e.commits.setIn m.blockHash m.sender (m.commitSeal.getD []) })).InRound e₀ r h
        (D ++ [m]) := by
  refine { hv with
    alike := ⟨hv.alike.validators, hv.alike.privateKey, hv.alike.height, hv.alike.previousHash⟩
    proposed := hv.proposed.trans (proposed_concat_of_ne (by rw [ht]; decide)).symm
    prepares := fun x i => ?_
    commits := fun x i => ?_
    seals := fun x p hp => ?_
    prepared := fun hphase => (hv.prepared hphase).trans
      (Finset.card_le_card (Finset.insert_subset_insert _ voters_subset_concat))
    committed := fun hphase => (hv.committed hphase).trans
      (Finset.card_le_card (Finset.insert_subset_insert _ voters_subset_concat)) }
  · rw [voters_concat_of_ne (by rw [ht]; decide)]
    exact hv.prepares x i
  · refine Dict.mem_keys_getD_setIn.trans ?_
    rw [show i ∈ (s.engine.commits.getD x).keys ↔ _ from hv.commits x i]
    exact mem_voters_concat_or ht
  · rcases Dict.mem_items_getD_setIn hp with ⟨-, rfl⟩ | hp
    · obtain ⟨key, bytes, -, hkey, hbytes, -⟩ := validCommitSeal_eq_true hseal
      exact ⟨⟨key, hkey⟩, bytes, hbytes⟩
    · exact hv.seals x p hp

end Validator.InRound

lemma Validator.Still.skip (hv : v.Still e₀ h D) (hvote : ¬m.IsVote) :
    v.Still e₀ h (D ++ [m]) where
  prepares hphase := by
    rw [voters_concat_of_ne fun ht => hvote (Or.inl ht)]
    exact hv.prepares hphase
  commits hphase := by
    rw [voters_concat_of_ne fun ht => hvote (Or.inr ht)]
    exact hv.commits hphase

lemma Validator.Still.of_new (hphase : v.engine.phase = .NEW_ROUND) : v.Still e₀ h D where
  prepares hpre := by
    rw [hphase] at hpre
    cases hpre
  commits hprep := by
    rw [hphase] at hprep
    cases hprep

omit [Crypto] in
/-- Seals that can be attached are attached. -/
lemma exists_attachSeals {seals : Dict PyStr PyStr} (h : ∀ p ∈ seals.items, Attachable p)
    (block : Block) : ∃ sealed, attachSeals seals block = .ok sealed := by
  refine exists_foldlM (fun p hp b => ?_) block
  obtain ⟨⟨key, hkey⟩, bytes, hbytes⟩ := h p hp
  exact ⟨b.addCommitSignature key bytes, by simp only [hkey, hbytes, bind, Except.bind]; rfl⟩

namespace EngineM

omit [Crypto] in
lemma returns_self {α : Type} {f : ConsensusEngine → EngineM α} {P : α → Frame → Prop}
    (hf : Returns (f s.engine) s P) : Returns (self >>= f) s P := hf

omit [Crypto] in
lemma returns_update {α : Type} {g : ConsensusEngine → ConsensusEngine} {f : Unit → EngineM α}
    {P : α → Frame → Prop} (hf : Returns (f ()) (s.mapEngine g) P) :
    Returns (update g >>= f) s P := hf

/-! ### Votes -/

/-- A PREPARE quorum is acted upon. -/
lemma tryPrepare_returns (hv : (v.during c s).InRound e₀ r h D) {b : Block}
    (hb : s.engine.proposal = some b) (hh : b.hash = .ok h)
    (hphase : s.engine.phase ≠ .NEW_ROUND) :
    Returns (tryPrepare b h) s fun ok s' => ok = true ∧ (v.during c s').InRound e₀ r h D ∧
      s'.engine.proposal = some b ∧ s'.engine.phase ≠ .NEW_ROUND ∧
      (s'.engine.phase = .PRE_PREPARED →
        (insert e₀.me.toHex (voters D .PREPARE h)).card < e₀.validators.quorum) := by
  have hlen : (s.engine.prepares.getD h).len = (insert e₀.me.toHex (voters D .PREPARE h)).card :=
    hv.len_prepares hphase
  have hvals : s.engine.validators = e₀.validators := hv.alike.validators
  by_cases hcond : s.engine.phase = .PRE_PREPARED ∧
      s.engine.validators.quorum ≤ (s.engine.prepares.getD h).len
  · obtain ⟨hpre, hquorum⟩ := hcond
    have hunprepared : ¬s.engine.phase.IsPrepared := by
      rw [hpre]
      rintro (h | h) <;> cases h
    have hprior : s.engine.journal.votedHash s.engine.round .COMMIT = none := by
      have hround : s.engine.round = r := hv.round
      rw [hround]
      exact hv.votesCommit hunprepared
    obtain ⟨m, hm⟩ := exists_create_of_hash hh .COMMIT s.engine.height s.engine.round
      s.engine.privateKey none none [] []
    have hrun : tryPrepare b h s = (.ok true, s.prepare b h m) := by
      refine tryPrepare_of_free hpre hquorum (fun h' hh' => ?_) hm
      rw [hprior] at hh'
      cases hh'
    refine .of_eq hrun ⟨rfl, hv.prepare hh hb hpre hquorum hm, hb, fun hnew => ?_, fun hpre => ?_⟩
    · cases hnew
    · cases hpre
  · have hrun : tryPrepare b h s = (.ok true, s) := by
      rw [tryPrepare, self_bind, if_neg hcond]
      rfl
    refine .of_eq hrun ⟨rfl, hv, hb, hphase, fun hpre => ?_⟩
    rw [← hlen, ← hvals]
    exact not_le.mp fun hquorum => hcond ⟨hpre, hquorum⟩

/-- A COMMIT quorum is acted upon. -/
lemma tryFinalize_returns (hv : (v.during c s).InRound e₀ r h D) {b : Block}
    (hb : s.engine.proposal = some b) (hh : b.hash = .ok h)
    (hstill : s.engine.phase = .PRE_PREPARED →
      (insert e₀.me.toHex (voters D .PREPARE h)).card < e₀.validators.quorum) :
    Returns (tryFinalize h) s fun _ s' =>
      (v.during c s').InRound e₀ r h D ∧ (v.during c s').Still e₀ h D := by
  have hvals : s.engine.validators = e₀.validators := hv.alike.validators
  by_cases hcond : s.engine.phase = .PREPARED ∧
      s.engine.validators.quorum ≤ (s.engine.commits.getD h).len
  · obtain ⟨hprep, hquorum⟩ := hcond
    obtain ⟨sealed, hseal⟩ : ∃ sealed, attachSeals (s.engine.commits.getD h) b = .ok sealed :=
      exists_attachSeals (hv.seals h) b
    have hrun : tryFinalize h s = (.ok (), s.finalize sealed) :=
      tryFinalize_of_quorum hprep hb hquorum hseal
    refine .of_eq hrun ⟨hv.finalize hh hprep hquorum hseal, fun hpre => ?_, fun hprep => ?_⟩
    · cases hpre
    · cases hprep
  · have hrun : tryFinalize h s = (.ok (), s) := by
      rw [tryFinalize, self_bind, if_neg hcond]
      rfl
    refine .of_eq hrun ⟨hv, hstill, fun hprep => ?_⟩
    have hlen : (s.engine.commits.getD h).len = _ := hv.len_commits (Or.inl hprep)
    rw [← hlen, ← hvals]
    exact not_le.mp fun hquorum => hcond ⟨hprep, hquorum⟩

/-- The engine goes as far as the votes allow. -/
lemma maybeAdvance_returns (hv : (v.during c s).InRound e₀ r h D) :
    Returns maybeAdvance s fun _ s' =>
      (v.during c s').InRound e₀ r h D ∧ (v.during c s').Still e₀ h D := by
  by_cases hphase : s.engine.phase = .NEW_ROUND
  · exact .of_eq (maybeAdvance_of_none (hv.vacant hphase)) ⟨hv, .of_new hphase⟩
  · obtain ⟨b, hb, hh⟩ := hv.proposal hphase
    have hb : s.engine.proposal = some b := hb
    have hadvance : maybeAdvance s =
        (do if ← tryPrepare b h then tryFinalize h : EngineM Unit) s := by
      rw [maybeAdvance, self_bind, hb]
      exact Eff.lift_bind_ok hh _ s
    refine Returns.congr hadvance (Returns.bind (tryPrepare_returns hv hb hh hphase) ?_)
    rintro ok s' ⟨rfl, hv', hb', -, hstill⟩
    exact tryFinalize_returns hv' hb' hh hstill

lemma handlePrepare_returns (hv : (v.during c s).InRound e₀ r h D) (ht : m.type = .PREPARE) :
    Returns (handlePrepare m) s fun _ s' =>
      (v.during c s').InRound e₀ r h (D ++ [m]) ∧ (v.during c s').Still e₀ h (D ++ [m]) :=
  maybeAdvance_returns (hv.tallyPrepare ht)

lemma handleCommit_returns (hv : (v.during c s).InRound e₀ r h D) (ht : m.type = .COMMIT)
    (hseal : validCommitSeal m = .ok true) :
    Returns (handleCommit m) s fun _ s' =>
      (v.during c s').InRound e₀ r h (D ++ [m]) ∧ (v.during c s').Still e₀ h (D ++ [m]) :=
  Returns.lift_bind hseal (maybeAdvance_returns (hv.tallyCommit ht hseal))

/-- The first proposal of the round is accepted. -/
lemma acceptProposal_returns (hv : (v.during c s).InRound e₀ r h D) {b : Block}
    (hh : b.hash = .ok h) (hphase : s.engine.phase = .NEW_ROUND) (ht : m.type = .PRE_PREPARE) :
    Returns (acceptProposal b) s fun _ s' =>
      (v.during c s').InRound e₀ r h (D ++ [m]) ∧ (v.during c s').Still e₀ h (D ++ [m]) := by
  obtain ⟨m', hm'⟩ := exists_create_of_hash hh .PREPARE s.engine.height s.engine.round
    s.engine.privateKey none none [] []
  have hround : s.engine.round = r := hv.round
  have hfree : ∀ h' ∈ s.engine.journal.votedHash s.engine.round .PREPARE, h' = h := by
    have hnone : s.engine.journal.votedHash r .PREPARE = none := hv.votesPrepare hphase
    rw [hround, hnone]
    exact nofun
  exact Returns.congr (acceptProposal_of_free hh hfree hm')
    (maybeAdvance_returns (hv.accept hh hphase ht hm'))

end EngineM

end Round

end Helix

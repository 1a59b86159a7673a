import Helix.Consensus.OneRound

/-!
# What a finality certificate proves

The seals of a certificate are taken from COMMITs, and sign the block hash only. A block that is
proposed again in a later round gathers COMMITs of several rounds, and their seals make up one
certificate: it does not show a quorum of COMMITs in one round. It does show that a quorum of
validators has committed to the block, each in a round of its own, and that a quorum has PREPAREd the
block in the round of every correct one among them. This holds with any journal, and over crashes.
-/

namespace Helix

variable [Crypto]

open Relation (ReflTransGen)

/-- Entries under canonical names are counted once for each validator. -/
lemma Block.finalizedBy_of_verifyFinality {block : Block} {validators : ValidatorSet}
    (hkeys : ∀ entry ∈ block.commitSignatures.items, ∃ k : PublicKey, entry.1 = k.toHex)
    (h : verifyFinality block validators = .ok true) : block.FinalizedBy validators := by
  refine finalizedBy_of_not_sealedTwice (fun key _ => ?_) h
  rintro ⟨a, ha, b, hb, hne, ⟨-, -, -, hkey, -⟩, ⟨-, -, -, hkey', -⟩⟩
  obtain ⟨k, hk⟩ := hkeys a ha
  obtain ⟨k', hk'⟩ := hkeys b hb
  rw [hk, PublicKey.fromHex_toHex] at hkey
  rw [hk', PublicKey.fromHex_toHex] at hkey'
  cases hkey
  cases hkey'
  exact hne (hk.trans hk'.symm)

namespace Network

variable {net : Network} {r : ℤ} {h : PyStr} {k : PublicKey} {c : Call} {s s' : Frame}
  {w w' : World} {v : Validator}

/-! ### What was signed -/

/-- The messages that each validator has made. -/
abbrev Signed := PublicKey → List ConsensusMessage

/-- The messages that were made in a world; those of a call that was cut short may have gone out or
not. -/
def signed (w : World) : Signed := fun k => (w k).sent ++ (w k).lost

variable {M M' : Signed}

/-- More messages of `k`. -/
def Signed.add (M : Signed) (k : PublicKey) (l : List ConsensusMessage) : Signed :=
  Function.update M k (M k ++ l)

omit [Crypto] in
lemma Signed.subset_add (l : List ConsensusMessage) (k' : PublicKey) : M k' ⊆ M.add k l k' :=
  subset_update (List.subset_append_left _ _) k'

omit [Crypto] in
lemma Signed.add_subset_add {l l' : List ConsensusMessage} (hl : l ⊆ l') (k' : PublicKey) :
    M.add k l k' ⊆ M.add k l' k' :=
  update_subset_update (List.append_subset.mpr ⟨List.subset_append_left _ _,
    List.Subset.trans hl (List.subset_append_right _ _)⟩) k'

/-- The votes among the messages made. -/
def cast (M : Signed) : Voting.Record PublicKey ℤ PyStr where
  prepared k r h := ∃ m ∈ M k, m.type = .PREPARE ∧ m.round = r ∧ m.blockHash = h
  committed k r h := ∃ m ∈ M k, m.type = .COMMIT ∧ m.round = r ∧ m.blockHash = h
  left k r := ∃ m ∈ M k, m.type = .ROUND_CHANGE ∧ r < m.round

omit [Crypto] in
lemma Prepared.cast_mono (hp : net.Prepared (cast M) r h) (hM : ∀ k, M k ⊆ M' k) :
    net.Prepared (cast M') r h := by
  obtain ⟨Q, hQ, hprep⟩ := hp
  refine ⟨Q, hQ, fun k hk hc => ?_⟩
  obtain ⟨m, hm, hrest⟩ := hprep k hk hc
  exact ⟨m, hM k hm, hrest⟩

variable (net M) in
/-- The sender is named as `to_hex` writes it, and if it is correct it has signed the payload. -/
structure SignedIn (m : ConsensusMessage) : Prop where
  spells : Spelling.canonical.Spells m
  signed : ∀ k, PublicKey.fromHex m.sender = .ok k → net.Correct k → m.height = net.height →
    m.verifySignature = .ok true → ∃ m' ∈ M k, m'.signingPayload = m.signingPayload

lemma SignedIn.mono {m : ConsensusMessage} (hm : net.SignedIn M m) (hM : ∀ k, M k ⊆ M' k) :
    net.SignedIn M' m := by
  refine ⟨hm.spells, fun k hk hc hh hs => ?_⟩
  obtain ⟨m', hm', hpay⟩ := hm.signed k hk hc hh hs
  exact ⟨m', hM k hm', hpay⟩

lemma Trusted.signedIn {m : ConsensusMessage} (hm : net.Trusted w m) : net.SignedIn (signed w) m :=
  ⟨hm.named m .self, hm.deliverable m .self⟩

lemma signedIn_vouches : net.Vouches (net.SignedIn M) (cast M) where
  spells _ hm := hm.spells
  prepared k r m hc hm hatt := by
    obtain ⟨m', hm', hpay⟩ := hm.signed k hatt.sender hc hatt.height hatt.signature
    obtain ⟨b, hb⟩ := m.exists_signingPayload hatt.signature
    obtain ⟨htype, -, hround, hhash, -⟩ := ConsensusMessage.signingPayload_injective
      (hpay.trans hb) hb
    exact ⟨m', hm', htype.trans hatt.type, hround.trans hatt.round, hhash⟩

/-! ### Every COMMIT rests on a quorum -/

variable (net M) in
/-- A correct validator whose COMMITs, also those of a call that was cut short, rest on quorums of
PREPAREs. -/
structure Backed (k : PublicKey) (v : Validator) : Prop where
  me : v.engine.me = k
  validators : v.engine.validators = net.validators
  height : v.engine.height = net.height
  own : ∀ m ∈ v.sent ++ v.lost, SentBy v.engine m
  tallied : Tallied (net.SignedIn M) v.engine
  commits : ∀ m ∈ v.sent ++ v.lost, m.type = .COMMIT →
    net.Prepared (cast M) m.round m.blockHash

lemma Backed.mono (hv : net.Backed M k v) (hM : ∀ k, M k ⊆ M' k) : net.Backed M' k v :=
  { hv with
    tallied := hv.tallied.mono fun _ hm => hm.mono hM
    commits := fun m hm ht => (hv.commits m hm ht).cast_mono hM }

/-- In the course of a call of `k`, the tallies hold what was signed, and so does every first part of
the messages that the call has made. -/
lemma Backed.during (hv : net.Backed M k v) (hc : ∀ m ∈ c.messages, net.SignedIn M m)
    (hs : Reached v.engine c s) :
    Tallied (net.SignedIn (M.add k s.result.broadcast)) s.engine ∧
      ∀ l, l <+: s.result.broadcast → ∀ m ∈ l, m.type = .COMMIT →
        net.Prepared (cast (M.add k l)) m.round m.blockHash := by
  induction hs with
  | refl =>
    refine ⟨hv.tallied.mono fun m hm => hm.mono (Signed.subset_add _), fun l hl m hm => ?_⟩
    rw [List.prefix_nil.mp hl] at hm
    cases hm
  | @tail s s' hs hmove ih =>
    obtain ⟨htallied, hcommits⟩ := ih
    have hs' : Reached v.engine c s' := hs.tail hmove
    have hsince := Reached.since hs
    have hgrow := Signed.add_subset_add (M := M) (k := k) hmove.broadcast_subset
    refine ⟨?_, fun l hl m hm ht => ?_⟩
    · refine Tallied.move (hv.tallied.mono fun m hm => hm.mono (Signed.subset_add _)) hs
        (htallied.mono fun m hm => hm.mono hgrow) hmove
        (fun m hm => (hc m hm).mono (Signed.subset_add _)) fun m hm _ => ?_
      have hsender : m.sender = k.toHex := hv.me ▸ (hs'.sentBy hm).sender
      refine ⟨Spelling.spells_canonical hsender, fun k' hk' _ _ _ => ⟨m, ?_, rfl⟩⟩
      rw [hsender, PublicKey.fromHex_toHex] at hk'
      cases hk'
      rw [Signed.add, Function.update_self]
      exact List.mem_append_right _ hm
    · rcases List.prefix_or_prefix_of_prefix hl hmove.broadcast_isPrefix with hle | hle
      · exact hcommits l hle m hm ht
      · have hsub := Signed.add_subset_add (M := M) (k := k) hle.subset
        rcases hmove.commit_cases (hl.subset hm) ht with hold | ⟨hlocks, hround⟩
        · exact (hcommits _ (List.prefix_refl _) m hold ht).cast_mono hsub
        · rw [hround]
          exact (Prepared.of_tallied signedIn_vouches htallied
            (hsince.validators.trans hv.validators) (hsince.height.trans hv.height)
            hlocks.quorum).cast_mono hsub

/-! ### All correct validators -/

variable (net) in
/-- The COMMITs of every correct validator are backed. -/
def BackedWorld (w : World) : Prop := ∀ k, net.Correct k → net.Backed (signed w) k (w k)

lemma BackedWorld.of_begins (hw : net.Begins w) : net.BackedWorld w := by
  intro k hk
  have hsupplied := SuppliedWorld.of_begins hw k hk
  have hnone : (w k).sent ++ (w k).lost = [] := by rw [hw.sent k hk, hw.lost k hk, List.append_nil]
  refine ⟨hsupplied.me, hsupplied.validators, hsupplied.height, ?_,
    hsupplied.tallied.mono fun m hm => hm.signedIn, ?_⟩
  · rw [hnone]
    intro m hm
    cases hm
  · rw [hnone]
    intro m hm
    cases hm

/-- A step of `k`, after which its new messages are a first part of those of a call. -/
lemma BackedWorld.update (hw : net.BackedWorld w) (hk : net.Correct k)
    (hc : ∀ m ∈ c.messages, net.Trusted w m) {l : List ConsensusMessage}
    (hl : l <+: (c.run (w k).engine).2.result.broadcast)
    (hmade : ∀ m, m ∈ v.sent ++ v.lost ↔ m ∈ signed w k ∨ m ∈ l)
    (hsince : v.engine.me = (w k).engine.me ∧ v.engine.validators = (w k).engine.validators ∧
      v.engine.height = (w k).engine.height)
    (htallied : Tallied (net.SignedIn ((signed w).add k l)) v.engine) :
    net.BackedWorld (Function.update w k v) := by
  have hback := hw k hk
  have hsub : ∀ k', (signed w).add k l k' ⊆ signed (Function.update w k v) k' := by
    intro k' m hm
    by_cases heq : k' = k
    · subst heq
      rw [Signed.add, Function.update_self] at hm
      rw [signed, Function.update_self]
      exact (hmade m).mpr (List.mem_append.mp hm)
    · rw [Signed.add, Function.update_of_ne heq] at hm
      rw [signed, Function.update_of_ne heq]
      exact hm
  have hreached := c.run_moves (w k).engine
  obtain ⟨-, hcommits⟩ := hback.during (fun m hm => (hc m hm).signedIn) hreached
  intro k' hk'
  by_cases heq : k' = k
  · subst heq
    rw [Function.update_self]
    refine ⟨hsince.1.trans hback.me, hsince.2.1.trans hback.validators,
      hsince.2.2.trans hback.height, fun m hm => ?_, htallied.mono fun m hm => hm.mono hsub,
      fun m hm ht => ?_⟩
    · have hsent : SentBy (w k').engine m := by
        rcases (hmade m).mp hm with hm | hm
        · exact hback.own m hm
        · exact hreached.sentBy (hl.subset hm)
      exact ⟨hsent.height.trans hsince.2.2.symm, hsince.1.symm ▸ hsent.sender, hsent.signature⟩
    · rcases (hmade m).mp hm with hm | hm
      · refine (hback.commits m hm ht).cast_mono fun k => ?_
        exact List.Subset.trans (Signed.subset_add l k) (hsub k)
      · exact (hcommits l hl m hm ht).cast_mono hsub
  · rw [Function.update_of_ne heq]
    exact (hw k' hk').mono fun k => List.Subset.trans (Signed.subset_add l k) (hsub k)

lemma BackedWorld.step (hw : net.BackedWorld w) (hstep : net.Step net.Admits w w') : net.BackedWorld w' := by
  obtain ⟨hk, hv⟩ := hstep
  rename_i k v
  have hback := hw k hk
  cases hv with
  | call c hc =>
    have hsince := (w k).since_call c
    obtain ⟨htallied, -⟩ := hback.during (fun m hm => (hc.trusted m hm).signedIn)
      (c.run_moves (w k).engine)
    refine hw.update hk hc.trusted (List.prefix_refl _) (fun m => ?_)
      ⟨hsince.me, hsince.validators, hsince.height⟩ htallied
    simp only [signed, Validator.call, Validator.during, List.mem_append]
    tauto
  | @crash c hc table lost nowMs hbefore hafter hlost hvotes hnew =>
    refine hw.update hk hc.trusted ((List.prefix_append_right_inj _).mp hlost) (fun m => ?_)
      ⟨rfl, rfl, rfl⟩ (Tallied.initial hback.tallied.me _ _ _ _)
    simp only [signed, Validator.reboot, List.mem_append]
    tauto

lemma BackedWorld.run (hw : net.BackedWorld w) (hrun : ReflTransGen (net.Step net.Admits) w w') :
    net.BackedWorld w' := by
  induction hrun with
  | refl => exact hw
  | tail _ hstep ih => exact ih.step hstep

/-- Every message that a correct validator has made is for its height, whatever it was handed. -/
lemma height_of_signed {w₀ : World} {ok : World → ConsensusEngine → Call → Prop} (hw : net.Begins w₀)
    (hrun : ReflTransGen (net.Step ok) w₀ w) (hk : net.Correct k) :
    (w k).engine.height = net.height ∧ ∀ m ∈ signed w k, m.height = net.height := by
  induction hrun with
  | refl =>
    have hback := BackedWorld.of_begins hw k hk
    exact ⟨hback.height, fun m hm => (hback.own m hm).height.trans hback.height⟩
  | @tail w _ _ hstep ih =>
    obtain ⟨hk', hv⟩ := hstep
    rename_i k' v
    by_cases heq : k = k'
    · subst heq
      obtain ⟨hheight, hold⟩ := ih
      rw [signed, Function.update_self]
      have hnew : ∀ c : Call, ∀ m ∈ (c.run (w k).engine).2.result.broadcast, m.height = net.height :=
        fun c m hm => ((c.run_moves (w k).engine).sentBy hm).height.trans hheight
      cases hv with
      | call c =>
        refine ⟨((w k).since_call c).height.trans hheight, fun m hm => ?_⟩
        rcases List.mem_append.mp hm with hm | hm
        · rcases List.mem_append.mp hm with hm | hm
          · exact hold m (List.mem_append_left _ hm)
          · exact hnew c m hm
        · exact hold m (List.mem_append_right _ hm)
      | crash c _ _ _ hlost =>
        refine ⟨hheight, fun m hm => ?_⟩
        rcases List.mem_append.mp hm with hm | hm
        · exact hold m (List.mem_append_left _ hm)
        · rcases List.mem_append.mp hm with hm | hm
          · exact hold m (List.mem_append_right _ hm)
          · exact hnew c m (((List.prefix_append_right_inj _).mp hlost).subset hm)
    · rw [signed, Function.update_of_ne heq]
      exact ih

/-! ### Certificates -/

/-- A COMMIT under the canonical name of `k` whose seal passes for the block. -/
structure SealsBlock (k : PublicKey) (m : ConsensusMessage) (block : Block) : Prop where
  sender : m.sender = k.toHex
  type : m.type = .COMMIT
  sealed : ∃ sealHex bytes h data, m.commitSeal = some sealHex ∧ fromHex sealHex = .ok bytes ∧
    block.hash = .ok h ∧ encode h = .ok data ∧ k.verify bytes data = true

/-- The seals of the block were taken from COMMITs among the messages `B` that were broadcast, each
under the canonical name of the sender. -/
def TakenFrom (B : ConsensusMessage → Prop) (block : Block) : Prop :=
  ∀ entry ∈ block.commitSignatures.items, ∃ (k : PublicKey) (m : ConsensusMessage),
    B m ∧ m.sender = k.toHex ∧ m.type = .COMMIT ∧ entry.1 = k.toHex ∧ m.commitSeal = some entry.2

variable (net w) in
/-- No signature of a correct validator is forged: what was broadcast in its name it has made, and a
seal that it has made passes for the hash that it was made for only. -/
structure Unforged (B : ConsensusMessage → Prop) (block : Block) : Prop where
  made : ∀ k m, net.Correct k → B m → m.sender = k.toHex → m ∈ signed w k
  binds : ∀ k m, net.Correct k → m ∈ signed w k → SealsBlock k m block →
    block.hash = .ok m.blockHash

/-- A seal of a certificate is that of a COMMIT that was broadcast. -/
lemma TakenFrom.exists_seals {B : ConsensusMessage → Prop} {block : Block}
    (h : TakenFrom B block) (hk : block.SealedBy k) : ∃ m, B m ∧ SealsBlock k m block := by
  obtain ⟨entry, hentry, x, data, bytes, hkey, hbytes, hx, hdata, hverify⟩ := hk
  obtain ⟨k', m, hm, hsender, htype, hname, hseal⟩ := h entry hentry
  rw [hname, PublicKey.fromHex_toHex] at hkey
  cases hkey
  exact ⟨m, hm, hsender, htype, entry.2, bytes, x, data, hseal, hbytes, hx, hdata, hverify⟩

/-- A certificate whose seals were taken from COMMITs that were broadcast shows that a quorum of
different validators has broadcast seals over the block hash. Those of the correct ones are in COMMITs
for the block at this height. If the messages of the run name their senders as `to_hex` writes them,
each is in a round in which a quorum has PREPAREd the block; so there is such a round. The COMMITs need
not be of one round. -/
theorem finality_shows_commits {w₀ : World} {B : ConsensusMessage → Prop} {block : Block}
    (hstart : net.Begins w₀) (hrun : ReflTransGen (net.Step fun _ _ _ => True) w₀ w)
    (htaken : TakenFrom B block) (hunforged : net.Unforged w B block)
    (hfinal : verifyFinality block net.validators = .ok true) :
    (∃ Q : Finset PublicKey, net.validators.quorum ≤ Q.card ∧ ∀ k ∈ Q,
      k ∈ net.validators.validators ∧ ∃ m, B m ∧ SealsBlock k m block ∧
        (net.Correct k → m.height = net.height ∧ block.hash = .ok m.blockHash ∧
          (ReflTransGen (net.Step net.Admits) w₀ w →
            net.Prepared (cast (signed w)) m.round m.blockHash))) ∧
    (ReflTransGen (net.Step net.Admits) w₀ w →
      ∃ r h, block.hash = .ok h ∧ net.Prepared (cast (signed w)) r h) := by
  have hkeys : ∀ entry ∈ block.commitSignatures.items, ∃ k : PublicKey, entry.1 = k.toHex := by
    intro entry hentry
    obtain ⟨k, -, -, -, -, hname, -⟩ := htaken entry hentry
    exact ⟨k, hname⟩
  obtain ⟨Q, hcard, hQ⟩ := Block.finalizedBy_of_verifyFinality hkeys hfinal
  have hcommit : ∀ k ∈ Q, ∃ m, B m ∧ SealsBlock k m block ∧
      (net.Correct k → m.height = net.height ∧ block.hash = .ok m.blockHash ∧
        (ReflTransGen (net.Step net.Admits) w₀ w →
          net.Prepared (cast (signed w)) m.round m.blockHash)) := by
    intro k hk
    obtain ⟨m, hm, hseals⟩ := htaken.exists_seals (hQ k hk).2
    refine ⟨m, hm, hseals, fun hc => ?_⟩
    have hmade := hunforged.made k m hc hm hseals.sender
    refine ⟨(height_of_signed hstart hrun hc).2 m hmade, hunforged.binds k m hc hmade hseals,
      fun hadmits => ?_⟩
    exact ((BackedWorld.of_begins hstart).run hadmits k hc).commits m hmade hseals.type
  refine ⟨⟨Q, hcard, fun k hk => ⟨(hQ k hk).1, hcommit k hk⟩⟩, fun hadmits => ?_⟩
  have hquorum := ValidatorSet.isQuorum (fun k hk => (hQ k hk).1) hcard
  obtain ⟨k, hk, -, hc⟩ := hquorum.exists_correct_inter net.validators.three_mul_maxFaulty_lt
    net.card_faulty_le hquorum
  obtain ⟨m, -, -, hm⟩ := hcommit k hk
  obtain ⟨-, hhash, hprepared⟩ := hm hc
  exact ⟨m.round, m.blockHash, hhash, hprepared hadmits⟩

omit [Crypto] in
/-- The block that is decided in round 1 has the seals of two correct validators and of the faulty one. -/
theorem finality_shows_commits_of_quartet :
    letI := Crypto.checksums
    let c := seedPublic 0xcc
    let keys := [seedPublic 0xaa, seedPublic 0xbb, c]
    let B := fun m => (∃ k ∈ keys, m ∈ (lockedWorld k).sent) ∨
      m ∈ (lockedWorld c).received ∧ m.sender = (seedPublic 0xdd).toHex
    ∃ block ∈ (lockedWorld c).decided,
      (∃ Q : Finset PublicKey, 3 ≤ Q.card ∧ ∀ k ∈ Q, ∃ m, B m ∧ SealsBlock k m block) ∧
      ∃ r h, block.hash = .ok h ∧ oneFaulty.Prepared (cast (signed lockedWorld)) r h := by
  let := Crypto.checksums
  intro c keys B
  have hbegins : oneFaulty.Begins (worldOfSeed .quartet quartetSeed) :=
    begins_worldOfSeed rfl publicKey_quartetSeed
  have hcalls : ReflTransGen (oneFaulty.CallStep oneFaulty.Admits) (worldOfSeed .quartet quartetSeed)
      lockedWorld ∧ oneFaulty.SuppliedWorld lockedWorld :=
    reaches_fair (.of_begins hbegins) (by decide +kernel) (by decide +kernel)
  have hblock : ∃ block ∈ (lockedWorld c).decided, verifyFinality block oneFaulty.validators = .ok true ∧
      ∀ k ∈ keys, ∀ m ∈ (lockedWorld k).sent, m.type = .COMMIT → block.hash = .ok m.blockHash := by
    decide +kernel
  have hentries : ∀ block ∈ (lockedWorld c).decided, ∀ entry ∈ block.commitSignatures.items,
      (∃ k ∈ keys, ∃ m ∈ (lockedWorld k).sent, m.sender = k.toHex ∧ m.type = .COMMIT ∧
        entry.1 = k.toHex ∧ m.commitSeal = some entry.2) ∨
      ∃ m ∈ (lockedWorld c).received, m.sender = (seedPublic 0xdd).toHex ∧ m.type = .COMMIT ∧
        entry.1 = (seedPublic 0xdd).toHex ∧ m.commitSeal = some entry.2 := by
    decide +kernel
  have hsent : ∀ k ∈ keys, (lockedWorld k).lost = [] ∧ k.toHex ≠ (seedPublic 0xdd).toHex ∧
      ∀ m ∈ (lockedWorld k).sent, m.sender = k.toHex := by
    decide +kernel
  have hkeys : ∀ k ∈ oneFaulty.validators.validators, oneFaulty.Correct k → k ∈ keys := by decide +kernel
  obtain ⟨block, hmem, hfinal, hbinds⟩ := hblock
  have htaken : TakenFrom B block := by
    intro entry hentry
    rcases hentries block hmem entry hentry with ⟨k, hk, m, hm, hrest⟩ | ⟨m, hm, hsender, hrest⟩
    · exact ⟨k, m, Or.inl ⟨k, hk, hm⟩, hrest⟩
    · exact ⟨seedPublic 0xdd, m, Or.inr ⟨hm, hsender⟩, hsender, hrest⟩
  have hunforged : oneFaulty.Unforged lockedWorld B block := by
    refine ⟨fun k m hk hm hname => ?_, fun k m hk hm hseals => ?_⟩
    · have hk := hkeys k hk.1 hk
      rcases hm with ⟨k', hk', hm⟩ | ⟨-, hfaulty⟩
      · have heq : k' = k := PublicKey.toHex_injective (((hsent k' hk').2.2 m hm).symm.trans hname)
        exact List.mem_append_left _ (heq ▸ hm)
      · exact absurd (hname.symm.trans hfaulty) (hsent k hk).2.1
    · have hk := hkeys k hk.1 hk
      rw [signed, (hsent k hk).1, List.append_nil] at hm
      exact hbinds k hk m hm hseals.type
  obtain ⟨⟨Q, hcard, hQ⟩, hprepared⟩ := finality_shows_commits hbegins
    (steps_of_calls (fun _ _ _ _ => trivial) hcalls.1) htaken hunforged hfinal
  refine ⟨block, hmem, ⟨Q, hcard, fun k hk => ?_⟩, hprepared (steps_of_calls (fun _ _ _ h => h) hcalls.1)⟩
  obtain ⟨-, m, hm, hseals, -⟩ := hQ k hk
  exact ⟨m, hm, hseals⟩

omit [Crypto] in
/-- A validator COMMITs to a block in round 0 and proposes it again in round 1, in which the other one
COMMITs to it. The two seals make a certificate, but neither round has a quorum of COMMITs. -/
theorem finality_over_two_rounds :
    letI := Crypto.checksums
    let net : Network := ⟨.pair, 1, ∅, Nat.zero_le _⟩
    let a := seedPublic 0xaa
    let b := seedPublic 0xbb
    let w₀ := worldOfSeed .pair fun k => if k = a then 0xaa else 0xbb
    let turns : List Turn := [.pending b [] [⟨.ADD, []⟩], .relay b a 0, .relay b a 1, .timeout a,
      .timeout b, .relay b a 2, .relay a b 3, .relay a b 4]
    let w := turns.foldl Turn.play w₀
    let B := fun m => m ∈ (w a).sent ++ (w b).sent
    net.Begins w₀ ∧ ReflTransGen (net.Step net.Admits) w₀ w ∧ ∃ block, TakenFrom B block ∧
      net.Unforged w B block ∧ verifyFinality block net.validators = .ok true ∧
      ¬∃ r, ∃ Q : Finset PublicKey, net.validators.quorum ≤ Q.card ∧ ∀ k ∈ Q,
        k ∈ net.validators.validators ∧ ∃ m, B m ∧ m.sender = k.toHex ∧ m.type = .COMMIT ∧
          m.height = net.height ∧ m.round = r ∧ block.hash = .ok m.blockHash := by
  let := Crypto.checksums
  intro net a b w₀ turns w B
  have hbegins : net.Begins w₀ := begins_worldOfSeed rfl (by decide +kernel)
  have hrun : ReflTransGen (net.CallStep net.Admits) w₀ w :=
    reaches_play (.of_begins hbegins) (by decide +kernel)
  have hblock : ∃ x ∈ (w a).engine.preparedBlock.toList, ∃ m ∈ (w a).sent, ∃ m' ∈ (w b).sent,
      let block := { x with commitSignatures := Dict.ofList [(a.toHex, m.commitSeal.getD []),
        (b.toHex, m'.commitSeal.getD [])] }
      verifyFinality block net.validators = .ok true ∧
      (∀ entry ∈ block.commitSignatures.items, ∃ k ∈ [a, b], ∃ m ∈ (w a).sent ++ (w b).sent,
        m.sender = k.toHex ∧ m.type = .COMMIT ∧ entry.1 = k.toHex ∧
          m.commitSeal = some entry.2) ∧
      ∀ m ∈ (w a).sent ++ (w b).sent, m.type = .COMMIT → block.hash = .ok m.blockHash := by
    decide +kernel
  have hsent : (∀ m ∈ (w a).sent, m.sender = a.toHex ∧ (m.type = .COMMIT → m.round = 0)) ∧
      ∀ m ∈ (w b).sent, m.sender = b.toHex ∧ (m.type = .COMMIT → m.round = 1) := by
    decide +kernel
  have hlost : (w a).lost = [] ∧ (w b).lost = [] := by decide +kernel
  have hne : a.toHex ≠ b.toHex := by decide +kernel
  have hab : ∀ k ∈ net.validators.validators, k = a ∨ k = b := by decide +kernel
  -- a message under the name of one of the two was sent by it
  have ha : ∀ m, B m → m.sender = a.toHex → m ∈ (w a).sent := fun m hm hname =>
    (List.mem_append.mp hm).resolve_right fun h => hne (hname.symm.trans (hsent.2 m h).1)
  have hb : ∀ m, B m → m.sender = b.toHex → m ∈ (w b).sent := fun m hm hname =>
    (List.mem_append.mp hm).resolve_left fun h => hne ((hsent.1 m h).1.symm.trans hname)
  obtain ⟨x, -, m, -, m', -, hfinal, htaken, hbinds⟩ := hblock
  refine ⟨hbegins, steps_of_calls (fun _ _ _ h => h) hrun, _, fun entry hentry => ?_,
    ⟨fun k m hk hm hname => ?_, fun k m hk hm hseals => hbinds m ?_ hseals.type⟩, hfinal, ?_⟩
  · obtain ⟨k, -, m, hm, hrest⟩ := htaken entry hentry
    exact ⟨k, m, hm, hrest⟩
  · rcases hab k hk.1 with rfl | rfl
    · exact List.mem_append_left _ (ha m hm hname)
    · exact List.mem_append_left _ (hb m hm hname)
  · rcases hab k hk.1 with rfl | rfl
    · rw [signed, hlost.1, List.append_nil] at hm
      exact List.mem_append_left _ hm
    · rw [signed, hlost.2, List.append_nil] at hm
      exact List.mem_append_right _ hm
  · rintro ⟨r, Q, hcard, hQ⟩
    have hsub : Q ⊆ {a, b} := fun k hk => by simpa using hab k (hQ k hk).1
    have hpair : ({a, b} : Finset PublicKey).card ≤ net.validators.quorum := by decide +kernel
    have heq : Q = {a, b} := Finset.eq_of_subset_of_card_le hsub (hpair.trans hcard)
    obtain ⟨-, m, hm, hname, htype, -, hround, -⟩ := hQ a (by simp [heq])
    obtain ⟨-, m', hm', hname', htype', -, hround', -⟩ := hQ b (by simp [heq])
    have hzero := (hsent.1 m (ha m hm hname)).2 htype
    have hone := (hsent.2 m' (hb m' hm' hname')).2 htype'
    omega

end Network

end Helix

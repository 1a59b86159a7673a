import Helix.Consensus.Finality
import Helix.Consensus.Run

/-!
# What the tallies count

Tallies and certificates are keyed by the text that names the sender, which the signature does not
cover, and one key has many spellings. A quorum of entries is a quorum of validators when every
validator is spelled in one way only. `Tallied` says what each entry of a tally stands for; it is
kept by every move.
-/

namespace Helix

variable [Crypto]

/-! ### Authentic messages and spellings -/

lemma authentic_eq_true {validators : ValidatorSet} {m : ConsensusMessage} :
    authentic validators m = .ok true ↔ ∃ k, PublicKey.fromHex m.sender = .ok k ∧
      k ∈ validators.validators ∧ m.verifySignature = .ok true := by
  unfold authentic
  cases PublicKey.fromHex m.sender with
  | error e => simp
  | ok k =>
    by_cases hk : k ∈ validators.validators
    · simp [hk]
    · simp [hk]

/-- A verified message of validator `k`, with its type, height, round and block hash. -/
structure Attests (validators : ValidatorSet) (type : MessageType) (height round : ℤ)
    (k : PublicKey) (m : ConsensusMessage) : Prop where
  type : m.type = type
  height : m.height = height
  round : m.round = round
  sender : PublicKey.fromHex m.sender = .ok k
  member : k ∈ validators.validators
  signature : m.verifySignature = .ok true

/-- One text for each key. -/
structure Spelling where
  spell : PublicKey → PyStr
  fromHex_spell : ∀ k, PublicKey.fromHex (spell k) = .ok k

/-- The spelling that `to_hex` writes. -/
def Spelling.canonical : Spelling := ⟨PublicKey.toHex, PublicKey.fromHex_toHex⟩

/-- The message names its sender by the spelling of its key, unless its signature does not verify. -/
def Spelling.Spells (σ : Spelling) (m : ConsensusMessage) : Prop :=
  ∀ k, PublicKey.fromHex m.sender = .ok k → m.verifySignature = .ok true → m.sender = σ.spell k

omit [Crypto] in
/-- Different texts, each the spelling of a validator, stand for as many validators. -/
lemma Spelling.exists_keys (σ : Spelling) {validators : ValidatorSet} {senders : List PyStr}
    (hnodup : senders.Nodup) (h : ∀ s ∈ senders, ∃ k ∈ validators.validators, s = σ.spell k) :
    ∃ Q : Finset PublicKey, senders.length ≤ Q.card ∧
      ∀ k, k ∈ Q ↔ k ∈ validators.validators ∧ σ.spell k ∈ senders := by
  refine ⟨validators.members.filter fun k => σ.spell k ∈ senders, ?_, fun k => by simp⟩
  have hsub : senders.toFinset ⊆
      (validators.members.filter fun k => σ.spell k ∈ senders).image σ.spell := by
    intro s hs
    rw [List.mem_toFinset] at hs
    obtain ⟨k, hk, rfl⟩ := h s hs
    exact Finset.mem_image_of_mem _ (Finset.mem_filter.mpr ⟨(validators.mem_members k).mpr hk, hs⟩)
  rw [← List.toFinset_card_of_nodup hnodup]
  exact (Finset.card_le_card hsub).trans Finset.card_image_le

lemma Spelling.spells_canonical {m : ConsensusMessage} {k : PublicKey} (h : m.sender = k.toHex) :
    canonical.Spells m := by
  intro k' hk' _
  rw [h, PublicKey.fromHex_toHex] at hk'
  cases hk'
  exact h

/-- The sender of an authentic message is a validator, under its spelling. -/
lemma Spelling.sender_eq {σ : Spelling} {validators : ValidatorSet} {m : ConsensusMessage}
    (hσ : σ.Spells m) (hm : authentic validators m = .ok true) :
    ∃ k ∈ validators.validators, m.sender = σ.spell k := by
  obtain ⟨k, hk, hmem, hsig⟩ := authentic_eq_true.mp hm
  exact ⟨k, hmem, hσ k hk hsig⟩

omit [Crypto] in
lemma Spelling.fromHex_of_eq {σ : Spelling} {m : ConsensusMessage} {k : PublicKey}
    (h : m.sender = σ.spell k) : PublicKey.fromHex m.sender = .ok k := by
  rw [h, σ.fromHex_spell]

/-! ### Certificates -/

lemma prepareSenders_spec {validators : ValidatorSet} {height round : ℤ} {blockHash : PyStr}
    {cert : List ConsensusMessage} {senders : List PyStr}
    (h : prepareSenders validators height cert round blockHash = .ok senders) :
    senders.Nodup ∧ ∀ s ∈ senders, ∃ m ∈ cert, m.sender = s ∧ m.type = .PREPARE ∧
      m.height = height ∧ m.round = round ∧ m.blockHash = blockHash ∧
      authentic validators m = .ok true := by
  refine foldlM_induction (I := fun senders : List PyStr => senders.Nodup ∧ ∀ s ∈ senders,
    ∃ m ∈ cert, m.sender = s ∧ m.type = .PREPARE ∧ m.height = height ∧ m.round = round ∧
      m.blockHash = blockHash ∧ authentic validators m = .ok true) ?_ ⟨List.nodup_nil, nofun⟩ h
  intro m hm acc out hacc hout
  split_ifs at hout with hcond
  · cases hauth : authentic validators m with
    | error e => rw [hauth] at hout; cases hout
    | ok ok =>
      rw [hauth] at hout
      cases hout
      cases ok with
      | false => exact hacc
      | true =>
        refine ⟨hacc.1.insert, fun s hs => ?_⟩
        rcases List.mem_insert_iff.mp hs with rfl | hs
        · exact ⟨m, hm, rfl, hcond.1, hcond.2.1, hcond.2.2.1, hcond.2.2.2, hauth⟩
        · exact hacc.2 s hs
  · cases hout
    exact hacc

/-- A certificate that passes `_verify_prepares` holds the PREPAREs of a quorum. -/
lemma exists_signers_of_verifyPrepares (σ : Spelling) {validators : ValidatorSet}
    {height round : ℤ} {blockHash : PyStr} {cert : List ConsensusMessage}
    (hσ : ∀ m ∈ cert, σ.Spells m)
    (h : verifyPrepares validators height cert round blockHash = .ok true) :
    ∃ Q : Finset PublicKey, validators.quorum ≤ Q.card ∧ ∀ k ∈ Q, ∃ m ∈ cert,
      Attests validators .PREPARE height round k m ∧ m.blockHash = blockHash := by
  unfold verifyPrepares at h
  cases hs : prepareSenders validators height cert round blockHash with
  | error e => rw [hs] at h; cases h
  | ok senders =>
    rw [hs] at h
    have hq : validators.quorum ≤ senders.length := by simpa [Except.map] using h
    obtain ⟨hnodup, hspec⟩ := prepareSenders_spec hs
    obtain ⟨Q, hcard, hQ⟩ := σ.exists_keys hnodup (fun s hs => by
      obtain ⟨m, hm, rfl, -, -, -, -, hauth⟩ := hspec s hs
      exact Spelling.sender_eq (hσ m hm) hauth)
    refine ⟨Q, hq.trans hcard, fun k hk => ?_⟩
    obtain ⟨hmem, hsp⟩ := (hQ k).mp hk
    obtain ⟨m, hm, hsender, ht, hh, hr, hbh, hauth⟩ := hspec _ hsp
    obtain ⟨-, -, -, hsig⟩ := authentic_eq_true.mp hauth
    exact ⟨m, hm, ⟨ht, hh, hr, Spelling.fromHex_of_eq hsender, hmem, hsig⟩, hbh⟩

/-- What an entry of a round-change certificate stands for. -/
structure RoundChangeEntry (validators : ValidatorSet) (height target : ℤ)
    (p : PyStr × ConsensusMessage) : Prop where
  sender : p.2.sender = p.1
  type : p.2.type = .ROUND_CHANGE
  round : p.2.round = target
  authentic : authentic validators p.2 = .ok true
  valid : validRoundChange validators height p.2 = .ok true
  height : p.2.height = height

lemma validRoundChanges_spec {validators : ValidatorSet} {height target : ℤ}
    {cert : List ConsensusMessage} {valid : Dict PyStr ConsensusMessage}
    (h : validRoundChanges validators height cert target = .ok valid) :
    ∀ p ∈ valid.items, p.2 ∈ cert ∧ RoundChangeEntry validators height target p := by
  refine foldlM_induction (I := fun valid : Dict PyStr ConsensusMessage => ∀ p ∈ valid.items,
    p.2 ∈ cert ∧ RoundChangeEntry validators height target p) ?_ (fun _ hp => by cases hp) h
  intro m hm acc out hacc hout
  split_ifs at hout with hcond
  · simp only [bind, Except.bind] at hout
    split at hout
    · cases hout
    · rename_i ok hauth
      split_ifs at hout with hok
      · split at hout
        · cases hout
        · rename_i ok' hvalid
          split_ifs at hout with hok'
          · cases hout
            intro p hp
            rcases Dict.mem_items_set.mp hp with rfl | ⟨hp, -⟩
            · exact ⟨hm, rfl, hcond.1, hcond.2.2, hok ▸ hauth, hok' ▸ hvalid, hcond.2.1⟩
            · exact hacc p hp
          · cases hout
            exact hacc
      · cases hout
        exact hacc
  · cases hout
    exact hacc

lemma verifyRoundChangeCert_eq_true {validators : ValidatorSet} {height target : ℤ}
    {cert : List ConsensusMessage} {justified : Option PyStr}
    (h : verifyRoundChangeCert validators height cert target = .ok (true, justified)) :
    ∃ valid, validRoundChanges validators height cert target = .ok valid ∧
      validators.quorum ≤ valid.len ∧ justified = (highestLock valid.values).2 := by
  unfold verifyRoundChangeCert at h
  cases hv : validRoundChanges validators height cert target with
  | error e => rw [hv] at h; cases h
  | ok valid =>
    rw [hv] at h
    simp only [Except.map] at h
    split_ifs at h with hlen
    · cases h
    · cases h
      exact ⟨valid, rfl, not_lt.mp hlen, rfl⟩

omit [Crypto] in
/-- No claimed lock is above the highest one, and the highest one is claimed with its block, unless
no claim is above -1. -/
lemma highestLock_spec (ms : List ConsensusMessage) :
    (∀ m ∈ ms, ∀ p ∈ m.preparedRound, p ≤ (highestLock ms).1) ∧
      (highestLock ms = (-1, none) ∨ ∃ m ∈ ms, m.preparedRound = some (highestLock ms).1 ∧
        (highestLock ms).2 = some m.blockHash) := by
  induction ms using List.reverseRecOn with
  | nil => exact ⟨nofun, Or.inl rfl⟩
  | append_singleton ms m ih =>
    obtain ⟨hle, hbest⟩ := ih
    -- the best claim so far stays in the list
    have hkeep : highestLock ms = (-1, none) ∨ ∃ m' ∈ ms ++ [m],
        m'.preparedRound = some (highestLock ms).1 ∧ (highestLock ms).2 = some m'.blockHash := by
      refine hbest.imp_right ?_
      rintro ⟨m', hm', hrest⟩
      exact ⟨m', List.mem_append_left _ hm', hrest⟩
    cases hp : m.preparedRound with
    | none =>
      have hstep : highestLock (ms ++ [m]) = highestLock ms := by
        simp only [highestLock, List.foldl_append, List.foldl_cons, List.foldl_nil, hp]
      rw [hstep]
      refine ⟨fun m' hm' p hp' => ?_, hkeep⟩
      rcases List.mem_append.mp hm' with hm' | hm'
      · exact hle m' hm' p hp'
      · rw [List.mem_singleton.mp hm', hp] at hp'
        cases hp'
    | some round =>
      have hstep : highestLock (ms ++ [m]) = if (highestLock ms).1 < round then
          (round, some m.blockHash) else highestLock ms := by
        rw [highestLock, List.foldl_append, List.foldl_cons, List.foldl_nil, hp]
        rfl
      by_cases hlt : (highestLock ms).1 < round
      · simp only [hlt, if_true] at hstep
        rw [hstep]
        refine ⟨fun m' hm' p hp' => ?_, Or.inr ⟨m, by simp, hp, rfl⟩⟩
        rcases List.mem_append.mp hm' with hm' | hm'
        · exact (hle m' hm' p hp').trans hlt.le
        · rw [List.mem_singleton.mp hm', hp] at hp'
          cases hp'
          exact le_rfl
      · simp only [hlt, if_false] at hstep
        rw [hstep]
        refine ⟨fun m' hm' p hp' => ?_, hkeep⟩
        rcases List.mem_append.mp hm' with hm' | hm'
        · exact hle m' hm' p hp'
        · rw [List.mem_singleton.mp hm', hp] at hp'
          cases hp'
          exact not_lt.mp hlt

/-- The block that is proposed again has the justified hash. -/
lemma hash_of_lockedBlockFromCert {cert : List ConsensusMessage} {justified : PyStr}
    {block : Block} (h : lockedBlockFromCert cert justified = .ok (some block)) :
    block.hash = .ok justified := by
  induction cert with
  | nil => cases h
  | cons m ms ih =>
    rw [lockedBlockFromCert] at h
    split at h
    · exact ih h
    · rename_i b _
      cases hb : b.hash with
      | error e => rw [hb] at h; cases h
      | ok x =>
        simp only [hb, bind, Except.bind] at h
        split_ifs at h with heq
        · cases h
          rw [hb, heq]
        · exact ih h

/-- ROUND_CHANGEs by sender, each the spelling of a validator, come from as many validators. -/
lemma exists_signers_of_entries (σ : Spelling) {validators : ValidatorSet} {height target : ℤ}
    {G : ConsensusMessage → Prop} {d : Dict PyStr ConsensusMessage}
    (h : ∀ p ∈ d.items, RoundChangeEntry validators height target p ∧ σ.Spells p.2 ∧ G p.2) :
    ∃ Q : Finset PublicKey, d.len ≤ Q.card ∧ ∀ k ∈ Q, ∃ m, G m ∧
      Attests validators .ROUND_CHANGE height target k m := by
  obtain ⟨Q, hcard, hQ⟩ := σ.exists_keys d.keys_nodup (fun s hs => by
    obtain ⟨m, hm⟩ := Dict.mem_keys.mp hs
    obtain ⟨hentry, hspell, -⟩ := h _ hm
    exact hentry.sender ▸ Spelling.sender_eq hspell hentry.authentic)
  refine ⟨Q, d.length_keys ▸ hcard, fun k hk => ?_⟩
  obtain ⟨hval, hsp⟩ := (hQ k).mp hk
  obtain ⟨m, hm⟩ := Dict.mem_keys.mp hsp
  obtain ⟨hentry, -, hG⟩ := h _ hm
  obtain ⟨-, -, -, hsig⟩ := authentic_eq_true.mp hentry.authentic
  exact ⟨m, hG, hentry.type, hentry.height, hentry.round, Spelling.fromHex_of_eq hentry.sender,
    hval, hsig⟩

/-- A certificate that passes `_verify_round_change_cert` holds the ROUND_CHANGEs of a quorum. -/
lemma exists_signers_of_verifyRoundChangeCert (σ : Spelling) {validators : ValidatorSet}
    {height target : ℤ} {cert : List ConsensusMessage} {justified : Option PyStr}
    (hσ : ∀ m ∈ cert, σ.Spells m)
    (h : verifyRoundChangeCert validators height cert target = .ok (true, justified)) :
    ∃ Q : Finset PublicKey, validators.quorum ≤ Q.card ∧ ∀ k ∈ Q, ∃ m ∈ cert,
      Attests validators .ROUND_CHANGE height target k m := by
  obtain ⟨valid, hvalid, hq, -⟩ := verifyRoundChangeCert_eq_true h
  obtain ⟨Q, hcard, hQ⟩ := exists_signers_of_entries σ (G := (· ∈ cert)) fun p hp => by
    obtain ⟨hmem, hentry⟩ := validRoundChanges_spec hvalid p hp
    exact ⟨hentry, hσ p.2 hmem, hmem⟩
  exact ⟨Q, hq.trans hcard, hQ⟩

/-! ### Tallies -/

/-- What an entry of the PREPARE tally stands for. -/
structure PrepareEntry (validators : ValidatorSet) (height round : ℤ) (h : PyStr)
    (p : PyStr × ConsensusMessage) : Prop where
  sender : p.2.sender = p.1
  type : p.2.type = .PREPARE
  hash : p.2.blockHash = h
  authentic : authentic validators p.2 = .ok true
  height : p.2.height = height
  round : p.2.round = round

/-- What an entry of the COMMIT tally stands for. -/
structure CommitEntry (validators : ValidatorSet) (height round : ℤ) (h : PyStr)
    (p : PyStr × PyStr) (m : ConsensusMessage) : Prop where
  sender : m.sender = p.1
  type : m.type = .COMMIT
  hash : m.blockHash = h
  authentic : authentic validators m = .ok true
  sealed : ∃ key bytes blockHash, PublicKey.fromHex p.1 = .ok key ∧ fromHex p.2 = .ok bytes ∧
    encode h = .ok blockHash ∧ key.verify bytes blockHash = true
  height : m.height = height
  round : m.round = round

/-- The votes an engine holds are authentic votes that satisfy `G`. -/
structure Tallied (G : ConsensusMessage → Prop) (e : ConsensusEngine) : Prop where
  me : e.me ∈ e.validators.validators
  buffer : ∀ m ∈ e.buffer, m.height = e.height ∧ authentic e.validators m = .ok true ∧ G m
  prepares : ∀ h, ∀ p ∈ (e.prepares.getD h).items,
    PrepareEntry e.validators e.height e.round h p ∧ G p.2
  commits : ∀ h, ∀ p ∈ (e.commits.getD h).items, ∃ m,
    CommitEntry e.validators e.height e.round h p m ∧ G m

lemma Tallied.mono {G G' : ConsensusMessage → Prop} {e : ConsensusEngine} (h : Tallied G e)
    (hG : ∀ m, G m → G' m) : Tallied G' e where
  me := h.me
  buffer m hm := (h.buffer m hm).imp_right fun h => h.imp_right (hG m)
  prepares x p hp := (h.prepares x p hp).imp_right (hG p.2)
  commits x p hp := (h.commits x p hp).imp fun m hm => hm.imp_right (hG m)

lemma Tallied.initial {G : ConsensusMessage → Prop} {validators : ValidatorSet}
    {privateKey : PrivateKey} (hme : privateKey.publicKey ∈ validators.validators) (height : ℤ)
    (previousHash : PyStr) (nowMs : ℕ → ℤ) (journal : VoteJournal) :
    Tallied G (.initial validators privateKey height previousHash nowMs journal) :=
  ⟨hme, nofun, nofun, nofun⟩

/-- An engine's own message is authentic. -/
lemma accepted_of_create {e : ConsensusEngine} (hme : e.me ∈ e.validators.validators)
    {type : MessageType} {round : ℤ} {h : PyStr} {block : Option Block} {preparedRound : Option ℤ}
    {cert cert' : List ConsensusMessage} {m : ConsensusMessage}
    (hm : ConsensusMessage.create type e.height round h e.privateKey block preparedRound cert
      cert' = .ok m) : Accepted e m := by
  obtain ⟨-, hheight, -, -, hsender, -⟩ := ConsensusMessage.create_eq hm
  refine ⟨hheight, authentic_eq_true.mpr ⟨e.me, ?_, hme,
    ConsensusMessage.create_verifySignature hm⟩⟩
  rw [hsender]
  exact PublicKey.fromHex_toHex _

lemma validCommitSeal_eq_true {m : ConsensusMessage} (h : validCommitSeal m = .ok true) :
    ∃ key bytes blockHash, PublicKey.fromHex m.sender = .ok key ∧
      fromHex (m.commitSeal.getD []) = .ok bytes ∧ encode m.blockHash = .ok blockHash ∧
      key.verify bytes blockHash = true := by
  unfold validCommitSeal at h
  cases hs : m.commitSeal with
  | none => rw [hs] at h; cases h
  | some sealHex =>
    rw [hs] at h
    simp only at h
    split_ifs at h
    · cases h
    · split at h
      · rename_i key bytes hk hb
        cases he : encode m.blockHash with
        | error e => simp [he, Except.map] at h
        | ok blockHash =>
          refine ⟨key, bytes, blockHash, hk, hb, rfl, ?_⟩
          simpa [he, Except.map] using h
      · cases h

variable {e₀ : ConsensusEngine} {c : Call} {s s' : Frame} {G : ConsensusMessage → Prop}

/-- The votes a call offers are authentic and satisfy `G` if those handed in do. -/
lemma Call.Offers.accepted {m : ConsensusMessage} (hm : c.Offers e₀ m) (h₀ : Tallied G e₀)
    (hc : ∀ m ∈ c.messages, G m) : m.height = e₀.height ∧
      authentic e₀.validators m = .ok true ∧ G m := by
  rcases hm with ⟨rfl, hacc⟩ | hm
  · exact ⟨hacc.height, hacc.authentic, hc m List.mem_cons_self⟩
  · exact h₀.buffer m hm

/-- Every move keeps the tallies sound. -/
lemma Tallied.move (h₀ : Tallied G e₀) (hs : Reached e₀ c s) (h : Tallied G s.engine)
    (hmove : Move e₀ c s s') (hc : ∀ m ∈ c.messages, G m)
    (hown : ∀ m ∈ s'.result.broadcast, m.IsVote → G m) : Tallied G s'.engine := by
  have hsince := hs.since
  cases hmove with
  | keep hcm hm hvote hr he =>
    refine ⟨h.me, fun m' hm' => ?_, h.prepares, h.commits⟩
    rcases List.mem_append.mp hm' with hm' | hm'
    · exact h.buffer m' hm'
    · rw [List.mem_singleton.mp hm']
      refine ⟨hm.height.trans hsince.height.symm, hsince.validators.symm ▸ hm.authentic, hc _ ?_⟩
      rw [hcm]
      exact List.mem_cons_self
  | adopt hr =>
    refine ⟨h.me, fun m hm => h.buffer m (List.mem_of_mem_filter hm), nofun, nofun⟩
  | tallyPrepare hm ht hr =>
    obtain ⟨hheight, hauth, hG⟩ := hm.accepted h₀ hc
    refine ⟨h.me, h.buffer, fun x p hp => ?_, h.commits⟩
    rcases Dict.mem_items_getD_setIn hp with ⟨rfl, rfl⟩ | hp
    · exact ⟨⟨rfl, ht, rfl, hsince.validators.symm ▸ hauth, hheight.trans hsince.height.symm, hr⟩,
        hG⟩
    · exact h.prepares x p hp
  | tallyCommit hm ht hr hseal =>
    obtain ⟨hheight, hauth, hG⟩ := hm.accepted h₀ hc
    refine ⟨h.me, h.buffer, h.prepares, fun x p hp => ?_⟩
    rcases Dict.mem_items_getD_setIn hp with ⟨rfl, rfl⟩ | hp
    · exact ⟨_, ⟨rfl, ht, rfl, hsince.validators.symm ▸ hauth, validCommitSeal_eq_true hseal,
        hheight.trans hsince.height.symm, hr⟩, hG⟩
    · exact h.commits x p hp
  | accept horigin hphase hh hprior hm =>
    obtain ⟨htype, -, hround, hhash, -⟩ := ConsensusMessage.create_eq hm
    have hacc := accepted_of_create h.me hm
    refine ⟨h.me, h.buffer, fun x p hp => ?_, h.commits⟩
    rcases Dict.mem_items_getD_setIn hp with ⟨rfl, rfl⟩ | hp
    · refine ⟨⟨rfl, htype, rfl, hacc.authentic, hacc.height, hround⟩, hown _ ?_ (Or.inl htype)⟩
      exact List.mem_append_right _ List.mem_cons_self
    · exact h.prepares x p hp
  | prepare hopen hphase hblock hh hquorum hprior hm =>
    obtain ⟨htype, -, hround, hhash, hsender, -⟩ := ConsensusMessage.create_eq hm
    obtain ⟨bytes, hbytes, hseal⟩ := ConsensusMessage.create_commitSeal hm
    have hacc := accepted_of_create h.me hm
    refine ⟨h.me, h.buffer, h.prepares, fun x p hp => ?_⟩
    rcases Dict.mem_items_getD_setIn hp with ⟨rfl, rfl⟩ | hp
    · refine ⟨_, ⟨hsender, htype, hhash, hacc.authentic, ?_, hacc.height, hround⟩,
        hown _ (List.mem_append_right _ List.mem_cons_self) (Or.inr htype)⟩
      refine ⟨s.engine.me, s.engine.privateKey.sign bytes, bytes, PublicKey.fromHex_toHex _, ?_,
        hbytes, PrivateKey.verify_sign _ _⟩
      rw [hseal]
      exact fromHex_toHex _
    · exact h.commits x p hp
  | _ => exact ⟨h.me, h.buffer, h.prepares, h.commits⟩

/-- A PREPARE tally with a quorum of entries holds the PREPAREs of a quorum of validators. -/
lemma Tallied.exists_signers (σ : Spelling) {e : ConsensusEngine} (h : Tallied G e) {x : PyStr}
    (hσ : ∀ m, G m → σ.Spells m) (hq : e.validators.quorum ≤ (e.prepares.getD x).len) :
    ∃ Q : Finset PublicKey, e.validators.quorum ≤ Q.card ∧
      (∀ k, k ∈ Q ↔ k ∈ e.validators.validators ∧ σ.spell k ∈ (e.prepares.getD x).keys) ∧
      ∀ k ∈ Q, ∃ m, G m ∧ Attests e.validators .PREPARE e.height e.round k m ∧
        m.blockHash = x := by
  obtain ⟨Q, hcard, hQ⟩ := σ.exists_keys (e.prepares.getD x).keys_nodup (fun s hs => by
    obtain ⟨m, hm⟩ := Dict.mem_keys.mp hs
    obtain ⟨hentry, hG⟩ := h.prepares x _ hm
    exact hentry.sender ▸ Spelling.sender_eq (hσ m hG) hentry.authentic)
  refine ⟨Q, hq.trans ((e.prepares.getD x).length_keys ▸ hcard), hQ, fun k hk => ?_⟩
  obtain ⟨hval, hsp⟩ := (hQ k).mp hk
  obtain ⟨m, hm⟩ := Dict.mem_keys.mp hsp
  obtain ⟨hentry, hG⟩ := h.prepares x _ hm
  obtain ⟨-, -, -, hsig⟩ := authentic_eq_true.mp hentry.authentic
  exact ⟨m, hG, ⟨hentry.type, hentry.height, hentry.round,
    Spelling.fromHex_of_eq hentry.sender, hval, hsig⟩, hentry.hash⟩

/-- A COMMIT tally with a quorum of entries holds the COMMITs of a quorum of validators. -/
lemma Tallied.exists_committers (σ : Spelling) {e : ConsensusEngine} (h : Tallied G e) {x : PyStr}
    (hσ : ∀ m, m.type = .COMMIT → G m → σ.Spells m) (hq : e.validators.quorum ≤ (e.commits.getD x).len) :
    ∃ Q : Finset PublicKey, e.validators.quorum ≤ Q.card ∧
      (∀ k, k ∈ Q ↔ k ∈ e.validators.validators ∧ σ.spell k ∈ (e.commits.getD x).keys) ∧
      ∀ k ∈ Q, ∃ m, G m ∧ Attests e.validators .COMMIT e.height e.round k m ∧
        m.blockHash = x := by
  obtain ⟨Q, hcard, hQ⟩ := σ.exists_keys (e.commits.getD x).keys_nodup (fun s hs => by
    obtain ⟨v, hv⟩ := Dict.mem_keys.mp hs
    obtain ⟨m, hentry, hG⟩ := h.commits x _ hv
    exact hentry.sender ▸ Spelling.sender_eq (hσ m hentry.type hG) hentry.authentic)
  refine ⟨Q, hq.trans ((e.commits.getD x).length_keys ▸ hcard), hQ, fun k hk => ?_⟩
  obtain ⟨hval, hsp⟩ := (hQ k).mp hk
  obtain ⟨v, hv⟩ := Dict.mem_keys.mp hsp
  obtain ⟨m, hentry, hG⟩ := h.commits x _ hv
  obtain ⟨-, -, -, hsig⟩ := authentic_eq_true.mp hentry.authentic
  exact ⟨m, hG, ⟨hentry.type, hentry.height, hentry.round,
    Spelling.fromHex_of_eq hentry.sender, hval, hsig⟩, hentry.hash⟩

/-! ### Seals -/

omit [Crypto] in
/-- After the seals are attached, every key that they spell has one of its seals on the block. -/
lemma attachSeals_spec {seals : Dict PyStr PyStr} {block sealed : Block}
    (h : attachSeals seals block = .ok sealed) :
    sealed.header = block.header ∧ ∀ key, (∃ p ∈ seals.items, PublicKey.fromHex p.1 = .ok key) →
      ∃ p ∈ seals.items, ∃ bytes, PublicKey.fromHex p.1 = .ok key ∧ fromHex p.2 = .ok bytes ∧
        (key.toHex, toHex bytes) ∈ sealed.commitSignatures.items := by
  -- a key is spelled by some seal of the list, or the list leaves its entry alone
  have hlist : ∀ (l : List (PyStr × PyStr)) (b : Block),
      l.foldlM (fun block p => do
        let sender ← PublicKey.fromHex p.1
        let bytes ← fromHex p.2
        return block.addCommitSignature sender bytes) b = .ok sealed →
      sealed.header = b.header ∧ ∀ key,
        (∃ p ∈ l, ∃ bytes, PublicKey.fromHex p.1 = .ok key ∧ fromHex p.2 = .ok bytes ∧
          (key.toHex, toHex bytes) ∈ sealed.commitSignatures.items) ∨
        ((∀ p ∈ l, PublicKey.fromHex p.1 ≠ .ok key) ∧
          ∀ x, (key.toHex, x) ∈ b.commitSignatures.items →
            (key.toHex, x) ∈ sealed.commitSignatures.items) := by
    intro l
    induction l with
    | nil =>
      intro b hb
      cases hb
      exact ⟨rfl, fun key => Or.inr ⟨nofun, fun x hx => hx⟩⟩
    | cons p l ih =>
      intro b hb
      rw [List.foldlM_cons] at hb
      cases hk : PublicKey.fromHex p.1 with
      | error e => simp [hk, bind, Except.bind] at hb
      | ok k =>
        cases hbytes : fromHex p.2 with
        | error e => simp [hk, hbytes, bind, Except.bind] at hb
        | ok bytes =>
          simp only [hk, hbytes, bind, Except.bind, pure, Except.pure] at hb
          obtain ⟨hheader, hkeys⟩ := ih _ hb
          refine ⟨hheader, fun key => ?_⟩
          rcases hkeys key with ⟨q, hq, hrest⟩ | ⟨hno, hkeep⟩
          · exact Or.inl ⟨q, List.mem_cons_of_mem _ hq, hrest⟩
          · by_cases heq : k = key
            · subst heq
              refine Or.inl ⟨p, List.mem_cons_self, bytes, hk, hbytes, hkeep _ ?_⟩
              exact Dict.mem_items_set.mpr (Or.inl rfl)
            · refine Or.inr ⟨fun q hq => ?_, fun x hx => hkeep x ?_⟩
              · rcases List.mem_cons.mp hq with rfl | hq
                · rw [hk]
                  exact fun h => heq (Except.ok.inj h)
                · exact hno q hq
              · exact Dict.mem_items_set.mpr (Or.inr ⟨hx, fun h =>
                  heq (PublicKey.toHex_injective h).symm⟩)
  obtain ⟨hheader, hkeys⟩ := hlist seals.items block h
  refine ⟨hheader, fun key ⟨p, hp, hkey⟩ => ?_⟩
  rcases hkeys key with h | ⟨hno, -⟩
  · exact h
  · exact absurd hkey (hno p hp)

/-- A COMMIT tally with a quorum of entries seals the block for a quorum of validators. -/
lemma Tallied.finalizedBy (σ : Spelling) {e : ConsensusEngine} (h : Tallied G e)
    (hσ : ∀ m, m.type = .COMMIT → G m → σ.Spells m) {block sealed : Block} {x : PyStr}
    (hx : block.hash = .ok x) (hq : e.validators.quorum ≤ (e.commits.getD x).len)
    (hseal : attachSeals (e.commits.getD x) block = .ok sealed) :
    sealed.FinalizedBy e.validators := by
  obtain ⟨hheader, hkeys⟩ := attachSeals_spec hseal
  have hhash : sealed.hash = .ok x := by
    rw [Block.hash, hheader]
    exact hx
  obtain ⟨Q, hcard, hQ, -⟩ := h.exists_committers σ hσ hq
  refine ⟨Q, hcard, fun k hk => ?_⟩
  obtain ⟨hval, hsp⟩ := (hQ k).mp hk
  obtain ⟨v, hv⟩ := Dict.mem_keys.mp hsp
  obtain ⟨p, hp, bytes, hpk, hpb, hmem⟩ := hkeys k ⟨_, hv, σ.fromHex_spell k⟩
  obtain ⟨m, hentry, -⟩ := h.commits x p hp
  obtain ⟨key, bytes', blockHash, hkey, hbytes', henc, hver⟩ := hentry.sealed
  rw [hpk] at hkey
  rw [hpb] at hbytes'
  cases hkey
  cases hbytes'
  exact ⟨hval, _, hmem, x, blockHash, bytes, PublicKey.fromHex_toHex k, fromHex_toHex bytes, hhash,
    henc, hver⟩

/-- A COMMIT names its sender by the spelling of its key, unless its signature does not verify. -/
def Spelling.SpellsCommit (σ : Spelling) (m : ConsensusMessage) : Prop :=
  m.type = .COMMIT → σ.Spells m

/-- In a call whose COMMITs have one spelling for each key, the tallies stay sound, and a block that
is returned as committed is final. -/
lemma Reached.tallied (σ : Spelling) (hs : Reached e₀ c s) (h₀ : Tallied σ.SpellsCommit e₀)
    (hme : σ.spell e₀.me = e₀.me.toHex) (hc : ∀ m ∈ c.messages, σ.SpellsCommit m) :
    Tallied σ.SpellsCommit s.engine ∧ ∀ b ∈ s.result.committed,
      b.FinalizedBy e₀.validators := by
  induction hs with
  | refl => exact ⟨h₀, nofun⟩
  | tail hs hmove ih =>
    obtain ⟨ih, hfinal⟩ := ih
    have hown : ∀ {t : Frame}, Reached e₀ c t → ∀ m ∈ t.result.broadcast, m.IsVote →
        σ.SpellsCommit m := by
      intro t ht m hm _ _ k hk _
      have hsender := (ht.sentBy hm).sender
      rw [hsender, PublicKey.fromHex_toHex] at hk
      cases hk
      rw [hsender, hme]
    refine ⟨h₀.move hs ih hmove hc (hown (hs.tail hmove)), ?_⟩
    cases hmove with
    | finalize hclose hphase hblock hh hquorum hseal =>
      intro b hb
      cases hb
      rw [← (Reached.since hs).validators]
      exact ih.finalizedBy σ (fun _ ht h => h ht) hh hquorum hseal
    | _ => exact hfinal

/-! ### Quorums of validators -/

/-- A message that the validator was handed or has sent. -/
def Validator.Holds (v : Validator) (m : ConsensusMessage) : Prop := m ∈ v.received ∨ m ∈ v.sent

/-- A quorum of different validators, the own one among them, has signed a PREPARE for `(r, h)` that
the validator holds. -/
def Validator.PreparedByQuorum (v : Validator) (r : ℤ) (h : PyStr) : Prop :=
  ∃ Q : Finset PublicKey, v.engine.validators.quorum ≤ Q.card ∧ v.engine.me ∈ Q ∧
    ∀ k ∈ Q, ∃ m, v.Holds m ∧
      Attests v.engine.validators .PREPARE v.engine.height r k m ∧ m.blockHash = h

/-- The tallies of a run, and what its COMMITs and its PREPARED phases rest on. -/
structure Counted (σ : Spelling) (v : Validator) : Prop where
  tallied : Tallied (fun m => v.Holds m ∧ σ.Spells m) v.engine
  canonical : σ.spell v.engine.me = v.engine.me.toHex
  own : v.engine.phase ≠ .NEW_ROUND → ∃ block h, v.engine.proposal = some block ∧
    block.hash = .ok h ∧ v.engine.me.toHex ∈ (v.engine.prepares.getD h).keys
  prepared : v.engine.phase.IsPrepared → ∃ block h, v.engine.proposal = some block ∧
    block.hash = .ok h ∧ v.engine.validators.quorum ≤ (v.engine.prepares.getD h).len
  commits : ∀ m ∈ v.sent, m.type = .COMMIT → v.PreparedByQuorum m.round m.blockHash

/-- An own proposal with a quorum of entries is prepared by a quorum. -/
lemma Tallied.preparedByQuorum {σ : Spelling} {v : Validator}
    (h : Tallied (fun m => v.Holds m ∧ σ.Spells m) v.engine)
    (hme : σ.spell v.engine.me = v.engine.me.toHex) {x : PyStr}
    (hown : v.engine.me.toHex ∈ (v.engine.prepares.getD x).keys)
    (hq : v.engine.validators.quorum ≤ (v.engine.prepares.getD x).len) :
    v.PreparedByQuorum v.engine.round x := by
  obtain ⟨Q, hcard, hQ, hsigned⟩ := h.exists_signers σ (fun _ hm => hm.2) hq
  refine ⟨Q, hcard, (hQ _).mpr ⟨h.me, hme ▸ hown⟩, fun k hk => ?_⟩
  obtain ⟨m, ⟨hm, -⟩, hatt, hhash⟩ := hsigned k hk
  exact ⟨m, hm, hatt, hhash⟩

lemma Validator.PreparedByQuorum.mono {v v' : Validator} {r : ℤ} {h : PyStr}
    (hq : v.PreparedByQuorum r h) (hholds : ∀ m, v.Holds m → v'.Holds m)
    (hvals : v'.engine.validators = v.engine.validators)
    (hheight : v'.engine.height = v.engine.height) (hme : v'.engine.me = v.engine.me) :
    v'.PreparedByQuorum r h := by
  obtain ⟨Q, hcard, hmem, hQ⟩ := hq
  refine ⟨Q, hvals ▸ hcard, hme ▸ hmem, fun k hk => ?_⟩
  obtain ⟨m, hm, hatt, hhash⟩ := hQ k hk
  rw [hvals, hheight]
  exact ⟨m, hholds m hm, hatt, hhash⟩

/-- An own proposal keeps its own vote when votes are added. -/
lemma Counted.keep {σ : Spelling} {v v' : Validator} (h : Counted σ v)
    (htallied : Tallied (fun m => v'.Holds m ∧ σ.Spells m) v'.engine)
    (hholds : ∀ m, v.Holds m → v'.Holds m)
    (hvals : v'.engine.validators = v.engine.validators)
    (hkey : v'.engine.privateKey = v.engine.privateKey)
    (hheight : v'.engine.height = v.engine.height) (hphase : v'.engine.phase = v.engine.phase)
    (hproposal : v'.engine.proposal = v.engine.proposal)
    (hprepares : ∀ x, (v.engine.prepares.getD x).keys ⊆ (v'.engine.prepares.getD x).keys)
    (hsent : ∀ m ∈ v'.sent, m.type = .COMMIT → m ∈ v.sent) : Counted σ v' := by
  have hme : v'.engine.me = v.engine.me := by
    rw [ConsensusEngine.me, hkey, ConsensusEngine.me]
  refine ⟨htallied, hme ▸ h.canonical, fun hp => ?_, fun hp => ?_, fun m hm ht => ?_⟩
  · obtain ⟨block, x, hblock, hx, hmem⟩ := h.own (hphase ▸ hp)
    exact ⟨block, x, hproposal ▸ hblock, hx, hme ▸ hprepares x hmem⟩
  · obtain ⟨block, x, hblock, hx, hq⟩ := h.prepared (hphase ▸ hp)
    refine ⟨block, x, hproposal ▸ hblock, hx, hvals ▸ hq.trans ?_⟩
    rw [Dict.len_eq_card, Dict.len_eq_card]
    exact Finset.card_le_card fun k hk =>
      List.mem_toFinset.mpr (hprepares x (List.mem_toFinset.mp hk))
  · exact (h.commits m (hsent m hm ht) ht).mono hholds hvals hheight hme

/-- What a validator holds in the course of a call, it still holds after a move. -/
lemma Validator.holds_during (v : Validator) (hmove : Move v.engine c s s') {m : ConsensusMessage}
    (hm : (v.during c s).Holds m) : (v.during c s').Holds m := by
  refine hm.imp_right fun hm => ?_
  rcases List.mem_append.mp hm with hm | hm
  · exact List.mem_append_left _ hm
  · exact List.mem_append_right _ (hmove.broadcast_subset hm)

lemma Counted.call {σ : Spelling} {v : Validator} (hv : Counted σ v)
    (hc : ∀ m ∈ c.messages, σ.Spells m) : Counted σ (v.call c) := by
  refine Validator.call_induction v c ?_ ?_
  · have hholds : ∀ m, v.Holds m → (v.during c ⟨v.engine, {}⟩).Holds m := fun m hm =>
      hm.imp (List.mem_append_left _) (List.mem_append_left _)
    refine hv.keep (hv.tallied.mono fun m hm => hm.imp_left (hholds m)) hholds rfl rfl rfl rfl rfl
      (fun _ _ h => h) fun m hm _ => ?_
    simpa [Validator.during] using hm
  · intro s s' hs ih hmove
    have hholds : ∀ m, (v.during c s).Holds m → (v.during c s').Holds m :=
      fun m hm => v.holds_during hmove hm
    have hG : ∀ m, (v.during c s).Holds m ∧ σ.Spells m → (v.during c s').Holds m ∧ σ.Spells m :=
      fun m hm => hm.imp_left (hholds m)
    have hown : ∀ m ∈ s'.result.broadcast, m.IsVote → (v.during c s').Holds m ∧ σ.Spells m := by
      intro m hm _
      refine ⟨Or.inr (List.mem_append_right _ hm), fun k hk _ => ?_⟩
      have hsender := (Reached.sentBy (hs.tail hmove) hm).sender
      rw [hsender, PublicKey.fromHex_toHex] at hk
      cases hk
      rw [hsender, hv.canonical]
    have htallied : Tallied (fun m => (v.during c s').Holds m ∧ σ.Spells m) s'.engine := by
      refine Tallied.move (hv.tallied.mono fun m hm => ⟨?_, hm.2⟩) hs (ih.tallied.mono hG) hmove
        (fun m hm => ⟨Or.inl (List.mem_append_right _ hm), hc m hm⟩) hown
      exact hm.1.imp (List.mem_append_left _) (List.mem_append_left _)
    cases hmove with
    | leave hch ht hr hwhy hrc =>
      refine ih.keep htallied hholds rfl rfl rfl rfl rfl (fun _ _ h => h) fun m hm ht => ?_
      simp only [Validator.during, Frame.leave, Frame.send, ← List.append_assoc] at hm
      rcases List.mem_append.mp hm with hm | hm
      · exact hm
      · rw [List.mem_singleton.mp hm, (ConsensusEngine.roundChange_eq hrc).1] at ht
        cases ht
    | refuse horigin hphase hh hprior hne =>
      refine ih.keep htallied hholds rfl rfl rfl rfl rfl (fun _ _ h => h) fun m hm ht => ?_
      simp only [Validator.during, Frame.send, ← List.append_assoc] at hm
      rcases List.mem_append.mp hm with hm | hm
      · exact hm
      · rw [horigin.types m hm] at ht
        cases ht
    | tallyPrepare =>
      refine ih.keep htallied hholds rfl rfl rfl rfl rfl (fun x k hk => ?_) fun m hm _ => hm
      exact Dict.mem_keys_getD_setIn.mpr (Or.inr hk)
    | adopt =>
      refine ⟨htallied, ih.canonical, fun h => absurd rfl h, fun h => ?_, ih.commits⟩
      rcases h with h | h <;> cases h
    | accept horigin hphase hh hprior hm =>
      rename_i block h m pre
      obtain ⟨htype, -, -, hhash, hsender, -⟩ := ConsensusMessage.create_eq hm
      refine ⟨htallied, ih.canonical, fun _ => ⟨block, h, rfl, hh, ?_⟩, fun hp => ?_,
        fun a ha hat => ?_⟩
      · exact Dict.mem_keys_getD_setIn.mpr (Or.inl ⟨hhash.symm, hsender.symm⟩)
      · rcases hp with hp | hp <;> cases hp
      · simp only [Validator.during, Frame.accept, Frame.mapEngine, Frame.send,
          ← List.append_assoc] at ha
        rcases List.mem_append.mp ha with ha | ha
        · rcases List.mem_append.mp ha with ha | ha
          · exact (ih.commits a ha hat).mono hholds rfl rfl rfl
          · rw [horigin.types a ha] at hat
            cases hat
        · rw [List.mem_singleton.mp ha, htype] at hat
          cases hat
    | prepare hopen hphase hblock hh hquorum hprior hm =>
      rename_i block h m
      obtain ⟨htype, -, hround, hhash, -⟩ := ConsensusMessage.create_eq hm
      obtain ⟨block', h', hblock', hh', hmem⟩ := ih.own (by rw [Validator.during, hphase]; decide)
      rw [Validator.during, hblock] at hblock'
      cases hblock'
      rw [hh] at hh'
      cases hh'
      refine ⟨htallied, ih.canonical, fun _ => ⟨block, h, hblock, hh, hmem⟩,
        fun _ => ⟨block, h, hblock, hh, hquorum⟩, fun a ha hat => ?_⟩
      simp only [Validator.during, Frame.prepare, Frame.mapEngine, Frame.send,
        ← List.append_assoc] at ha
      rcases List.mem_append.mp ha with ha | ha
      · exact (ih.commits a ha hat).mono hholds rfl rfl rfl
      · rw [List.mem_singleton.mp ha, hround, hhash]
        exact Tallied.preparedByQuorum htallied ih.canonical hmem hquorum
    | finalize hclose hphase hblock hh hquorum hseal =>
      rename_i block sealed h
      have hprep : (v.during c s).engine.phase.IsPrepared := Or.inl hphase
      have hsealed : ∀ {block'}, s.engine.proposal = some block' → ∀ {x}, block'.hash = .ok x →
          sealed.hash = .ok x := by
        intro block' hb x hx
        rw [hblock] at hb
        cases hb
        rw [Block.hash, (attachSeals_spec hseal).1]
        exact hx
      refine ⟨htallied, ih.canonical, fun _ => ?_, fun _ => ?_, fun a ha hat =>
        (ih.commits a ha hat).mono hholds rfl rfl rfl⟩
      · obtain ⟨block', x, hb, hx, hmem⟩ := ih.own (by rw [Validator.during, hphase]; decide)
        exact ⟨_, x, rfl, hsealed hb hx, hmem⟩
      · obtain ⟨block', x, hb, hx, hq⟩ := ih.prepared hprep
        exact ⟨_, x, rfl, hsealed hb hx, hq⟩
    | finalizeRaises hphase =>
      refine ⟨htallied, ih.canonical, fun _ => ih.own ?_, fun _ => ih.prepared (Or.inl hphase),
        ih.commits⟩
      rw [Validator.during, hphase]
      decide
    | _ =>
      exact ih.keep htallied hholds rfl rfl rfl rfl rfl (fun _ _ h => h) fun m hm _ => hm

/-- In a run whose messages name each validator by one spelling, a quorum of entries is a quorum of
validators: for every COMMIT sent and every PREPARED phase, and for every certificate of either kind
whose messages use that spelling. -/
theorem quorums_count_validators (σ : Spelling) {validators : ValidatorSet}
    {privateKey : PrivateKey} {height : ℤ} {previousHash : PyStr} {nowMs : ℕ → ℤ}
    {journal : VoteJournal} {e : ConsensusEngine}
    (hnew : ConsensusEngine.new validators privateKey height previousHash nowMs journal = .ok e)
    (hme : σ.spell privateKey.publicKey = privateKey.publicKey.toHex) {v : Validator}
    (hrun : Validator.Calls (fun _ c => ∀ m ∈ c.messages, σ.Spells m) { engine := e } v) :
    (∀ m ∈ v.sent, m.type = .COMMIT → v.PreparedByQuorum m.round m.blockHash) ∧
    (v.engine.phase.IsPrepared → ∃ block h, v.engine.proposal = some block ∧
      block.hash = .ok h ∧ v.PreparedByQuorum v.engine.round h) ∧
    (∀ cert r h, (∀ m ∈ cert, σ.Spells m) →
      verifyPrepares v.engine.validators v.engine.height cert r h = .ok true →
      ∃ Q : Finset PublicKey, v.engine.validators.quorum ≤ Q.card ∧ ∀ k ∈ Q, ∃ m ∈ cert,
        Attests v.engine.validators .PREPARE v.engine.height r k m ∧ m.blockHash = h) ∧
    (∀ cert t justified, (∀ m ∈ cert, σ.Spells m) →
      verifyRoundChangeCert v.engine.validators v.engine.height cert t = .ok (true, justified) →
      ∃ Q : Finset PublicKey, v.engine.validators.quorum ≤ Q.card ∧ ∀ k ∈ Q, ∃ m ∈ cert,
        Attests v.engine.validators .ROUND_CHANGE v.engine.height t k m) := by
  have hv : Counted σ v := by
    obtain ⟨hmem, rfl⟩ := ConsensusEngine.new_eq_ok.mp hnew
    induction hrun with
    | refl =>
      refine ⟨Tallied.initial hmem _ _ _ _, hme, fun h => absurd rfl h, fun h => ?_, nofun⟩
      rcases h with h | h <;> cases h
    | tail _ hstep ih =>
      obtain ⟨c, hc, rfl⟩ := hstep
      exact ih.call hc
  refine ⟨hv.commits, fun hp => ?_, fun cert r h hσ => exists_signers_of_verifyPrepares σ hσ,
    fun cert t j hσ => exists_signers_of_verifyRoundChangeCert σ hσ⟩
  obtain ⟨block, h, hblock, hh, hq⟩ := hv.prepared hp
  obtain ⟨block', h', hblock', hh', hown⟩ := hv.own (by rcases hp with h | h <;> rw [h] <;> decide)
  rw [hblock] at hblock'
  cases hblock'
  rw [hh] at hh'
  cases hh'
  exact ⟨block, h, hblock, hh, hv.tallied.preparedByQuorum hv.canonical hown hq⟩

omit [Crypto] in
/-- A follower that gets the proposal and the PREPARE of the other validator commits on both. -/
theorem quorums_count_validators_of_pair :
    letI := Crypto.checksums
    let block := Block.ofTimestamp 0
    let v := [Call.handle (.ofSeed 0xbb .PRE_PREPARE 0 block),
      .handle (.ofSeed 0xbb .PREPARE 0 block)].foldl Validator.call
        { engine := .ofSeed .pair 0xaa .null }
    v.sent.map (·.type) = [.PREPARE, .COMMIT] ∧
    ∀ m ∈ v.sent, m.type = .COMMIT → v.PreparedByQuorum m.round m.blockHash := by
  let := Crypto.checksums
  intro block v
  have hmem : (seedKey 0xaa).publicKey ∈ ValidatorSet.pair.validators := by decide +kernel
  have hspell : ∀ type, ∀ m ∈ (Call.handle (.ofSeed 0xbb type 0 block)).messages,
      Spelling.canonical.Spells m := by
    intro type m hm
    rw [List.mem_singleton.mp hm]
    refine Spelling.spells_canonical (k := seedPublic 0xbb) ?_
    cases type <;> decide +kernel
  have hnew : ConsensusEngine.new .pair (seedKey 0xaa) 1 ZERO_HASH (fun i => i) .null =
      .ok (.ofSeed .pair 0xaa .null) := ConsensusEngine.new_eq_ok.mpr ⟨hmem, rfl⟩
  refine ⟨by decide +kernel, (quorums_count_validators .canonical hnew rfl ?_).1⟩
  refine Validator.Calls.of_forall _ fun c hc => ?_
  simp only [List.mem_cons, List.not_mem_nil, or_false] at hc
  rcases hc with rfl | rfl
  · exact hspell .PRE_PREPARE
  · exact hspell .PREPARE

omit [Crypto] in
/-- One PREPARE under two spellings of its sender passes for a quorum of two. -/
theorem verifyPrepares_counts_spellings :
    letI := Crypto.checksums
    let m := ConsensusMessage.ofSeed 0xaa .PREPARE 0 (.ofTimestamp 0)
    let cert := [m, { m with sender := List.replicate 64 (.ofNat 65) }]
    verifyPrepares .pair 1 cert 0 m.blockHash = .ok true ∧
    ¬∃ Q : Finset PublicKey, ValidatorSet.pair.quorum ≤ Q.card ∧ ∀ k ∈ Q, ∃ m' ∈ cert,
      Attests .pair .PREPARE 1 0 k m' ∧ m'.blockHash = m.blockHash := by
  let := Crypto.checksums
  intro m cert
  refine ⟨by decide +kernel, ?_⟩
  rintro ⟨Q, hcard, hQ⟩
  have hkeys : ∀ m' ∈ cert, PublicKey.fromHex m'.sender = .ok (seedPublic 0xaa) := by
    decide +kernel
  have hsub : Q ⊆ {seedPublic 0xaa} := by
    intro k hk
    obtain ⟨m', hm', hatt, -⟩ := hQ k hk
    have heq := hatt.sender
    rw [hkeys m' hm'] at heq
    exact Finset.mem_singleton.mpr (Except.ok.inj heq).symm
  have hone := hcard.trans (Finset.card_le_card hsub)
  exact absurd hone (by decide +kernel)

end Helix

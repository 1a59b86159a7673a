import Helix.Consensus.Bodies
import Helix.Consensus.Tallies

/-!
# Genuine seals

Seals are not covered by the hash of a block, and they travel with it: in proposals, with ROUND_CHANGEs, in
the journal. Finalization adds the seals that the engine has checked to whatever is there already. So an
engine holds and returns blocks with genuine seals if the blocks that come to it from outside have no
others (`Reached.genuine`).
-/

namespace Helix

variable [Crypto]

/-- Every commit signature is a valid seal over the hash by a member of the set. -/
def Block.Genuine (V : ValidatorSet) (b : Block) : Prop :=
  ∀ entry ∈ b.commitSignatures.items, ∃ h blockHash key,
    b.hash = .ok h ∧ encode h = .ok blockHash ∧ sealer V blockHash entry = some key

lemma Block.genuine_iff {V : ValidatorSet} {b : Block} :
    (∀ entry ∈ b.commitSignatures.items, ((b.hash.bind encode).toOption.bind fun blockHash =>
      sealer V blockHash entry).isSome = true) ↔ b.Genuine V := by
  refine forall₂_congr fun entry _ => ?_
  cases hhash : b.hash with
  | error err => simp [Except.bind, Except.toOption]
  | ok h =>
    cases hencode : encode h with
    | error err => simp [Except.bind, Except.toOption, hencode]
    | ok blockHash => simp [Except.bind, Except.toOption, hencode, Option.isSome_iff_exists]

instance (V : ValidatorSet) (b : Block) : Decidable (b.Genuine V) :=
  decidable_of_iff _ Block.genuine_iff

namespace Block.Genuine

variable {V : ValidatorSet} {b : Block}

lemma of_create {index timestamp : ℤ} {previousHash proposer : PyStr} {records : List IntegrityRecord}
    {changes : List ValidatorChange}
    (h : create index previousHash timestamp proposer records changes = .ok b) : b.Genuine V := by
  intro entry hentry
  simp only [create, bind, Except.bind, pure, Except.pure] at h
  split at h
  · cases h
  · cases h
    cases hentry

/-- A checked seal is genuine, and the others stay so. -/
lemma addCommitSignature {h : PyStr} {blockHash signature : Bytes} {key : PublicKey}
    (hb : b.Genuine V) (hhash : b.hash = .ok h) (hencode : encode h = .ok blockHash)
    (hkey : key ∈ V.validators) (hverify : key.verify signature blockHash = true) :
    (b.addCommitSignature key signature).Genuine V := by
  intro entry hentry
  rcases Dict.mem_items_set.mp hentry with rfl | ⟨hentry, -⟩
  · refine ⟨h, blockHash, key, hhash, hencode, sealer_eq_some.mpr ?_⟩
    exact ⟨signature, PublicKey.fromHex_toHex key, fromHex_toHex signature, hkey, hverify⟩
  · exact hb entry hentry

/-- Checked seals are attached to a block whose seals are genuine. -/
lemma attachSeals {seals : Dict PyStr PyStr} {sealed : Block} {h : PyStr} (hb : b.Genuine V)
    (hhash : b.hash = .ok h)
    (hseals : ∀ p ∈ seals.items, ∃ key bytes blockHash, PublicKey.fromHex p.1 = .ok key ∧
      key ∈ V.validators ∧ fromHex p.2 = .ok bytes ∧ encode h = .ok blockHash ∧
      key.verify bytes blockHash = true)
    (hattach : Helix.attachSeals seals b = .ok sealed) : sealed.Genuine V := by
  refine (foldlM_induction (I := fun b : Block => b.hash = .ok h ∧ b.Genuine V)
    (fun p hp b b' hb hb' => ?_) ⟨hhash, hb⟩ hattach).2
  obtain ⟨key, bytes, blockHash, hkey, hmem, hbytes, hencode, hverify⟩ := hseals p hp
  simp only [hkey, hbytes, bind, Except.bind, pure, Except.pure] at hb'
  cases hb'
  exact ⟨hb.1, hb.2.addCommitSignature hb.1 hencode hmem hverify⟩

end Block.Genuine

/-! ### The journal -/

/-- A row is of a height that has been reached, and at that height its block has genuine seals. -/
def WalRow.Genuine (V : ValidatorSet) (height : ℤ) (row : WalRow) : Prop :=
  row.height ≤ height ∧ (row.height = height →
    ∀ block cert, row.entry = .prepared block cert → block.Genuine V)

/-- The lock that a journal restores has genuine seals, and so have its rows. -/
structure VoteJournal.Genuine (V : ValidatorSet) (height : ℤ) (j : VoteJournal) : Prop where
  prepared : ∀ lock ∈ j.prepared, lock.block.Genuine V
  table : ∀ row ∈ j.table, row.Genuine V height
  view : ∀ view, j = .sql view → view.height ≤ height

/-- The rows of a store have genuine seals. -/
def JournalStore.Genuine (V : ValidatorSet) (height : ℤ) (s : JournalStore) : Prop :=
  ∀ table, s = .sql table → ∀ row ∈ table, row.Genuine V height

variable {V V' : ValidatorSet} {height : ℤ}

/-- No row is about the next height. -/
lemma WalRow.Genuine.next {row : WalRow} (h : row.Genuine V height) : row.Genuine V' (height + 1) :=
  ⟨h.1.trans (lt_add_one height).le, fun heq => absurd (heq ▸ h.1) (lt_add_one height).not_ge⟩

namespace VoteJournal.Genuine

variable {j : VoteJournal}

lemma next (h : j.Genuine V height) : j.Genuine V (height + 1) :=
  ⟨h.prepared, fun row hrow => (h.table row hrow).next,
    fun view hview => (h.view view hview).trans (lt_add_one height).le⟩

lemma recordVote (h : j.Genuine V height) (round : ℤ) (phase : VotePhase) (blockHash : PyStr) :
    (j.recordVote round phase blockHash).Genuine V height := by
  cases j with
  | null => exact h
  | inMemory journal => exact ⟨h.prepared, nofun, nofun⟩
  | sql view =>
    refine ⟨h.prepared, fun row hrow => ?_, fun view' hview => ?_⟩
    · rcases List.mem_append.mp hrow with hrow | hrow
      · exact h.table row hrow
      · rw [List.mem_singleton.mp hrow]
        exact ⟨h.view view rfl, fun _ => nofun⟩
    · cases hview
      exact h.view view rfl

lemma recordPrepared (h : j.Genuine V height) {lock : PreparedLock} (hlock : lock.block.Genuine V) :
    (j.recordPrepared lock).Genuine V height := by
  have hprepared : ∀ l ∈ some lock, l.block.Genuine V := by
    intro l hl
    cases hl
    exact hlock
  cases j with
  | null => exact h
  | inMemory journal => exact ⟨hprepared, nofun, nofun⟩
  | sql view =>
    refine ⟨hprepared, fun row hrow => ?_, fun view' hview => ?_⟩
    · rcases List.mem_append.mp hrow with hrow | hrow
      · exact h.table row hrow
      · rw [List.mem_singleton.mp hrow]
        refine ⟨h.view view rfl, fun _ block cert heq => ?_⟩
        cases heq
        exact hlock
    · cases hview
      exact h.view view rfl

end VoteJournal.Genuine

namespace JournalStore.Genuine

variable {s : JournalStore} {j : VoteJournal}

lemma next (h : s.Genuine V height) : s.Genuine V' (height + 1) :=
  fun table hs row hrow => (h table hs row hrow).next

/-- A fresh view of the height that has been reached. -/
lemma view (h : s.Genuine V height) : (s.view height).Genuine V height := by
  cases s with
  | null => exact ⟨nofun, nofun, nofun⟩
  | sql table =>
    refine ⟨fun lock hlock => ?_, h table rfl, fun view hview => ?_⟩
    · exact (h table rfl _ (SqlHeightView.mem_table_of_prepared hlock)).2 rfl _ _ rfl
    · cases hview
      exact le_rfl

lemma sync (h : s.Genuine V height) (hj : j.Genuine V height) : (s.sync j).Genuine V height := by
  cases s with
  | null => exact nofun
  | sql table =>
    cases j with
    | sql view =>
      intro t ht
      cases ht
      exact hj.table
    | null => exact h
    | inMemory journal => exact h

lemma pruneBelow (h : s.Genuine V height) (bound : ℤ) : (s.pruneBelow bound).Genuine V height := by
  cases s with
  | null => exact nofun
  | sql table =>
    intro t ht row hrow
    cases ht
    exact h table rfl row (List.mem_of_mem_filter hrow)

lemma refresh (h : s.Genuine V height) (hj : j.Genuine V height) : (s.refresh j).Genuine V height := by
  cases s with
  | null => exact hj
  | sql table =>
    cases j with
    | sql view =>
      refine ⟨hj.prepared, h table rfl, fun view' hview => ?_⟩
      cases hview
      exact hj.view view rfl
    | null => exact hj
    | inMemory journal => exact hj

end JournalStore.Genuine

/-! ### The engine -/

/-- The blocks that an engine can propose, lock, finalize or restore have genuine seals. -/
structure ConsensusEngine.Genuine (V : ValidatorSet) (height : ℤ) (e : ConsensusEngine) : Prop where
  proposal : ∀ b ∈ e.proposal, b.Genuine V
  lock : ∀ b ∈ e.preparedBlock, b.Genuine V
  changes : ∀ t, ∀ p ∈ (e.roundChanges.getD t).items, ∀ b ∈ p.2.block, b.Genuine V
  journal : e.journal.Genuine V height

lemma ConsensusEngine.Genuine.next {e : ConsensusEngine} (h : e.Genuine V height) :
    e.Genuine V (height + 1) :=
  ⟨h.proposal, h.lock, h.changes, h.journal.next⟩

lemma ConsensusEngine.Genuine.initial {journal : VoteJournal} (hj : journal.Genuine V height)
    (validators : ValidatorSet) (privateKey : PrivateKey) (workingHeight : ℤ) (previousHash : PyStr)
    (nowMs : ℕ → ℤ) : (ConsensusEngine.initial validators privateKey workingHeight previousHash nowMs
      journal).Genuine V height := by
  refine ⟨nofun, fun b hb => ?_, nofun, hj⟩
  obtain ⟨lock, hlock, rfl⟩ := Option.map_eq_some_iff.mp hb
  exact hj.prepared lock hlock

/-- The blocks that come with a call have genuine seals: that of a proposal by the proposer of its round
which passes the structural check, and those of the valid ROUND_CHANGEs that the engine stores. -/
structure Call.Sincere (c : Call) (e : ConsensusEngine) : Prop where
  proposed : ∀ m, c.Handles e .PRE_PREPARE m →
    PublicKey.fromHex m.sender = .ok (e.validators.proposer e.height m.round) →
    ∀ b ∈ m.block, b.hash = .ok m.blockHash → e.structurallyValid b = .ok true →
    b.Genuine e.validators
  attached : ∀ m, c.Brings e m → authentic e.validators m = .ok true →
    validRoundChange e.validators e.height m = .ok true → ∀ b ∈ m.block, b.Genuine e.validators

/-- A frame all of whose blocks have genuine seals. -/
structure Frame.Genuine (V : ValidatorSet) (height : ℤ) (s : Frame) : Prop where
  engine : s.engine.Genuine V height
  committed : ∀ b ∈ s.result.committed, b.Genuine V

variable {e₀ : ConsensusEngine} {c : Call} {s s' : Frame}

/-- A block that the engine proposes or accepts: built here without seals, taken from a stored
ROUND_CHANGE, or received. -/
lemma Call.Origin.genuine {block : Block} {pre : List ConsensusMessage}
    (h : c.Origin e₀ s.engine block pre) (hsince : Since e₀ c s.engine) (hc : c.Sincere e₀)
    (hs : s.engine.Genuine e₀.validators height) : block.Genuine e₀.validators := by
  cases h with
  | own hp hh hcreate =>
    cases hp with
    | fresh hcall hround hr hphase hme hne hblock => exact .of_create hblock
    | change hch hr hme hquorum hcert hblock =>
      rcases hblock with ⟨justified, -, hlocked⟩ | ⟨-, now, hblock⟩
      · obtain ⟨m, hm, hmb⟩ := exists_of_lockedBlockFromCert hlocked
        obtain ⟨k, hk⟩ := Dict.mem_values.mp hm
        exact hs.changes _ _ hk _ hmb
      · exact .of_create hblock
  | peer hm =>
    refine hc.proposed _ hm.handles ?_ _ hm.carries hm.hash ?_
    · rw [hm.round]
      exact hm.sender
    · rw [← ConsensusEngine.structurallyValid_congr hsince]
      exact hm.valid

/-- The seals that the engine has counted for a block are genuine. -/
lemma Tallied.genuine {G : ConsensusMessage → Prop} {e : ConsensusEngine} (h : Tallied G e)
    {block sealed : Block} {x : PyStr} (hblock : block.Genuine e.validators) (hhash : block.hash = .ok x)
    (hseal : attachSeals (e.commits.getD x) block = .ok sealed) : sealed.Genuine e.validators := by
  refine hblock.attachSeals hhash (fun p hp => ?_) hseal
  obtain ⟨m, hentry, -⟩ := h.commits x p hp
  obtain ⟨key, bytes, blockHash, hkey, hbytes, hencode, hverify⟩ := hentry.sealed
  obtain ⟨sender, hsender, hmem, -⟩ := authentic_eq_true.mp hentry.authentic
  rw [hentry.sender, hkey] at hsender
  cases hsender
  exact ⟨key, bytes, blockHash, hkey, hmem, hbytes, hencode, hverify⟩

lemma Frame.Genuine.move (hmove : Move e₀ c s s') (hsince : Since e₀ c s.engine) (hc : c.Sincere e₀)
    (htallied : Tallied (fun _ => True) s.engine) (h : s.Genuine e₀.validators height) :
    s'.Genuine e₀.validators height := by
  obtain ⟨he, hcommitted⟩ := h
  cases hmove with
  | @store m hm hauth hvalid =>
    refine ⟨⟨he.proposal, he.lock, fun t p hp => ?_, he.journal⟩, hcommitted⟩
    rcases Dict.mem_items_getD_setIn hp with ⟨rfl, rfl⟩ | hp
    · exact hc.attached m hm hauth hvalid
    · exact he.changes t p hp
  | leave hch ht hr hwhy hm =>
    obtain ⟨-, -, -, -, -, hblock, -⟩ := ConsensusEngine.roundChange_eq hm
    refine ⟨⟨he.proposal, he.lock, fun t p hp => ?_, he.journal⟩, hcommitted⟩
    rcases Dict.mem_items_getD_setIn hp with ⟨rfl, rfl⟩ | hp
    · rw [hblock]
      exact he.lock
    · exact he.changes t p hp
  | adopt => exact ⟨⟨nofun, he.lock, he.changes, he.journal⟩, hcommitted⟩
  | accept horigin hphase hh hprior hcreate =>
    refine ⟨⟨fun b hb => ?_, he.lock, he.changes, he.journal.recordVote _ _ _⟩, hcommitted⟩
    cases hb
    exact horigin.genuine hsince hc he
  | prepare hopen hphase hblock hh hquorum hprior hcreate =>
    have hlock := he.proposal _ hblock
    refine ⟨⟨he.proposal, fun b hb => ?_, he.changes, ?_⟩, hcommitted⟩
    · cases hb
      exact hlock
    · exact (he.journal.recordPrepared hlock).recordVote _ _ _
  | @finalize block sealed x hclose hphase hblock hh hquorum hseal =>
    have hsome : ∀ b ∈ some sealed, b.Genuine e₀.validators := by
      intro b hb
      cases hb
      have hproposal := he.proposal _ hblock
      rw [← hsince.validators] at hproposal ⊢
      exact htallied.genuine hproposal hh hseal
    exact ⟨⟨hsome, hsome, he.changes, he.journal⟩, hsome⟩
  | _ => exact ⟨⟨he.proposal, he.lock, he.changes, he.journal⟩, hcommitted⟩

/-- In a call that brings no other seals than genuine ones, the blocks of the engine and the one that it
returns have genuine seals. -/
theorem Reached.genuine (hs : Reached e₀ c s) (hc : c.Sincere e₀) (htallied : Tallied (fun _ => True) e₀)
    (h₀ : e₀.Genuine e₀.validators height) :
    s.Genuine e₀.validators height ∧ Tallied (fun _ => True) s.engine := by
  induction hs with
  | refl => exact ⟨⟨h₀, nofun⟩, htallied⟩
  | tail hs hmove ih =>
    exact ⟨ih.1.move hmove (Reached.since hs) hc ih.2,
      htallied.move hs ih.2 hmove (fun _ _ => trivial) fun _ _ _ => trivial⟩

end Helix

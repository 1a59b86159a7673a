import Helix.Consensus.Recovery

/-!
# Which blocks an engine can come to hold

A block reaches an engine by one of four ways: built from the pending items, received in a
PRE_PREPARE, taken from a ROUND_CHANGE, or restored from the journal. A `BlockRule` is a property of
blocks that seals do not touch, with what it asks of journal rows and of pending items. If the blocks
that come from outside obey the rule, so do all that the engine proposes, locks, journals, PREPAREs
and commits (`Reached.carries`).
-/

namespace Helix

variable [Crypto]

/-- A property of blocks, of the rows of a journal and of the items that blocks are built from. -/
structure BlockRule where
  block : Block → Prop
  row : WalRow → Prop
  items : List IntegrityRecord → List ValidatorChange → Prop
  addCommitSignature : ∀ {b : Block} (key : PublicKey) (signature : Bytes),
    block b → block (b.addCommitSignature key signature)

variable {ρ : BlockRule}

/-! ### The journal -/

/-- The lock that a journal restores obeys the rule, and so do its rows, those that it has and those
that it can come to write. -/
structure VoteJournal.Carries (ρ : BlockRule) (j : VoteJournal) : Prop where
  prepared : ∀ lock ∈ j.prepared, ρ.block lock.block
  table : ∀ row ∈ j.table, ρ.row row
  writes : ∀ view, j = .sql view → ∀ r entry,
    (∀ block cert, entry = .prepared block cert → ρ.block block) → ρ.row ⟨view.height, r, entry⟩

/-- The rows of a store obey the rule. -/
def JournalStore.Carries (ρ : BlockRule) (s : JournalStore) : Prop :=
  ∀ table, s = .sql table → ∀ row ∈ table, ρ.row row

omit [Crypto] in
lemma VoteJournal.Carries.recordVote {j : VoteJournal} (hj : j.Carries ρ) (round : ℤ)
    (phase : VotePhase) (h : PyStr) : (j.recordVote round phase h).Carries ρ := by
  cases j with
  | null => exact hj
  | inMemory journal => exact ⟨hj.prepared, nofun, nofun⟩
  | sql view =>
    refine ⟨hj.prepared, fun row hrow => ?_, fun view' hview r entry => ?_⟩
    · rcases List.mem_append.mp hrow with hrow | hrow
      · exact hj.table row hrow
      · rw [List.mem_singleton.mp hrow]
        exact hj.writes view rfl _ _ nofun
    · cases hview
      exact hj.writes view rfl r entry

omit [Crypto] in
lemma VoteJournal.Carries.recordPrepared {j : VoteJournal} (hj : j.Carries ρ) {lock : PreparedLock}
    (hlock : ρ.block lock.block) : (j.recordPrepared lock).Carries ρ := by
  cases j with
  | null => exact hj
  | inMemory journal => exact ⟨fun l hl => by cases hl; exact hlock, nofun, nofun⟩
  | sql view =>
    refine ⟨fun l hl => by cases hl; exact hlock, fun row hrow => ?_, fun view' hview r entry => ?_⟩
    · rcases List.mem_append.mp hrow with hrow | hrow
      · exact hj.table row hrow
      · rw [List.mem_singleton.mp hrow]
        refine hj.writes view rfl _ _ fun block cert heq => ?_
        cases heq
        exact hlock
    · cases hview
      exact hj.writes view rfl r entry

omit [Crypto] in
/-- A fresh view of a table, for a height at which the rows are about blocks that obey the rule. -/
lemma VoteJournal.Carries.openView {table : List WalRow} (htable : ∀ row ∈ table, ρ.row row)
    {height : ℤ} (hrow : ∀ r block cert, ρ.row ⟨height, r, .prepared block cert⟩ → ρ.block block)
    (hwrites : ∀ r entry, (∀ block cert, entry = .prepared block cert → ρ.block block) →
      ρ.row ⟨height, r, entry⟩) :
    (VoteJournal.sql (.openView table height)).Carries ρ := by
  refine ⟨fun lock hlock => ?_, htable, fun view hview r entry => ?_⟩
  · have hmem := SqlHeightView.mem_table_of_prepared hlock
    exact hrow lock.round _ _ (htable _ hmem)
  · cases hview
    exact hwrites r entry

omit [Crypto] in
lemma JournalStore.Carries.view {s : JournalStore} (hs : s.Carries ρ) {height : ℤ}
    (hrow : ∀ r block cert, ρ.row ⟨height, r, .prepared block cert⟩ → ρ.block block)
    (hwrites : ∀ r entry, (∀ block cert, entry = .prepared block cert → ρ.block block) →
      ρ.row ⟨height, r, entry⟩) : (s.view height).Carries ρ := by
  cases s with
  | null => exact ⟨nofun, nofun, nofun⟩
  | sql table => exact .openView (hs table rfl) hrow hwrites

omit [Crypto] in
lemma JournalStore.Carries.sync {s : JournalStore} (hs : s.Carries ρ) {j : VoteJournal}
    (hj : j.Carries ρ) : (s.sync j).Carries ρ := by
  cases s with
  | null => exact nofun
  | sql table =>
    cases j with
    | sql view =>
      intro t ht
      cases ht
      exact hj.table
    | null => exact hs
    | inMemory journal => exact hs

omit [Crypto] in
lemma JournalStore.Carries.pruneBelow {s : JournalStore} (hs : s.Carries ρ) (height : ℤ) :
    (s.pruneBelow height).Carries ρ := by
  cases s with
  | null => exact nofun
  | sql table =>
    intro t ht row hrow
    cases ht
    exact hs table rfl row (List.mem_of_mem_filter hrow)

omit [Crypto] in
lemma JournalStore.Carries.refresh {s : JournalStore} (hs : s.Carries ρ) {j : VoteJournal}
    (hj : j.Carries ρ) : (s.refresh j).Carries ρ := by
  cases s with
  | null => exact hj
  | sql table =>
    cases j with
    | sql view =>
      refine ⟨hj.prepared, hs table rfl, fun view' hview => ?_⟩
      cases hview
      exact hj.writes view rfl
    | null => exact hj
    | inMemory journal => exact hj

omit [Crypto] in
/-- A journal without rows. -/
lemma JournalStore.carries_of_empty {s : JournalStore} (hs : s = .null ∨ s = .sql []) :
    s.Carries ρ := by
  rintro table rfl row hrow
  rcases hs with hs | hs
  · cases hs
  · cases hs
    cases hrow

/-! ### The engine -/

/-- The blocks that an engine can propose, lock or restore obey the rule. -/
structure ConsensusEngine.Carries (ρ : BlockRule) (e : ConsensusEngine) : Prop where
  proposal : ∀ b ∈ e.proposal, ρ.block b
  lock : ∀ b ∈ e.preparedBlock, ρ.block b
  changes : ∀ t, ∀ p ∈ (e.roundChanges.getD t).items, ∀ b ∈ p.2.block, ρ.block b
  journal : e.journal.Carries ρ

omit [Crypto] in
lemma ConsensusEngine.Carries.initial {journal : VoteJournal} (hj : journal.Carries ρ)
    (validators : ValidatorSet) (privateKey : PrivateKey) (height : ℤ) (previousHash : PyStr)
    (nowMs : ℕ → ℤ) :
    (ConsensusEngine.initial validators privateKey height previousHash nowMs journal).Carries ρ := by
  refine ⟨nofun, fun b hb => ?_, nofun, hj⟩
  obtain ⟨lock, hlock, rfl⟩ := Option.map_eq_some_iff.mp hb
  exact hj.prepared lock hlock

omit [Crypto] in
/-- Seals do not touch the rule. -/
lemma BlockRule.attachSeals {seals : Dict PyStr PyStr} {block sealed : Block}
    (hblock : ρ.block block) (h : Helix.attachSeals seals block = .ok sealed) : ρ.block sealed := by
  refine foldlM_induction (I := ρ.block) (fun p _ b b' hb hb' => ?_) hblock h
  cases hk : PublicKey.fromHex p.1 with
  | error err => simp only [hk, bind, Except.bind] at hb'; cases hb'
  | ok key =>
    cases hbytes : fromHex p.2 with
    | error err => simp only [hk, hbytes, bind, Except.bind] at hb'; cases hb'
    | ok bytes =>
      simp only [hk, hbytes, bind, Except.bind, pure, Except.pure] at hb'
      cases hb'
      exact ρ.addCommitSignature key bytes hb

/-- The block that is proposed again comes from the certificate. -/
lemma exists_of_lockedBlockFromCert {cert : List ConsensusMessage} {justified : PyStr}
    {block : Block} (h : lockedBlockFromCert cert justified = .ok (some block)) :
    ∃ m ∈ cert, m.block = some block := by
  induction cert with
  | nil => cases h
  | cons m ms ih =>
    rw [lockedBlockFromCert] at h
    split at h
    · exact (ih h).imp fun m' hm' => hm'.imp_left (List.mem_cons_of_mem _)
    · rename_i b hb
      cases hhash : b.hash with
      | error err => rw [hhash] at h; cases h
      | ok x =>
        simp only [hhash, bind, Except.bind] at h
        split_ifs at h
        · cases h
          exact ⟨m, List.mem_cons_self, hb⟩
        · exact (ih h).imp fun m' hm' => hm'.imp_left (List.mem_cons_of_mem _)

/-! ### One call -/

/-- The call hands in a proposal of the block that the engine accepts, once it is in the round. -/
def Call.Accepts (c : Call) (e : ConsensusEngine) (block : Block) : Prop :=
  ∃ m, c.Receives e { e with round := m.round } block m

/-- A ROUND_CHANGE that the call stores, alone or from the certificate of a PRE_PREPARE. -/
structure Call.Stores (c : Call) (e : ConsensusEngine) (m : ConsensusMessage) : Prop where
  brings : c.Brings e m
  authentic : authentic e.validators m = .ok true
  valid : validRoundChange e.validators e.height m = .ok true

/-- The pending items that a call hands to the engine. -/
def Call.items : Call → Option (List IntegrityRecord × List ValidatorChange)
  | setPending records changes => some (records, changes)
  | _ => none

/-- The pending items that a call can propose: those that it hands over, or those that the engine has. -/
def Call.itemsAt (c : Call) (e : ConsensusEngine) : List IntegrityRecord × List ValidatorChange :=
  c.items.getD (e.pending, e.pendingChanges)

/-- The call can make the engine propose pending items: it hands them over in a new round 0 of the
engine's own, or it processes round changes, of which a quorum is at hand for a later round of the engine's
own. -/
inductive Call.ProposesItems (c : Call) (e : ConsensusEngine) : Prop
  | handed (hc : c.items.isSome) (hround : e.round = 0) (hphase : e.phase = .NEW_ROUND)
      (hme : e.me = e.validators.proposer e.height e.round)
  | change {r : ℤ} (hc : c.Changing e) (hr : e.round < r) (hme : e.me = e.validators.proposer e.height r)
      (hquorum : e.validators.quorum ≤ (insert e.me.toHex (changeSenders e c r)).card)

/-- What comes from outside obeys the rule: the pending items when they can be proposed, the proposals
that are accepted, and the blocks attached to ROUND_CHANGEs that are stored. -/
structure Call.Clean (ρ : BlockRule) (c : Call) (e : ConsensusEngine) : Prop where
  items : c.ProposesItems e → ρ.items (c.itemsAt e).1 (c.itemsAt e).2
  proposed : ∀ b, c.Accepts e b → ρ.block b
  attached : ∀ m, c.Stores e m → ∀ b ∈ m.block, ρ.block b

omit [Crypto] in
lemma Call.itemsAt_or (c : Call) (e : ConsensusEngine) :
    c.itemsAt e = (e.pending, e.pendingChanges) ∨ c.itemsAt e ∈ c.items := by
  cases hitems : c.items with
  | none => exact Or.inl (by rw [itemsAt, hitems, Option.getD_none])
  | some p => exact Or.inr (by rw [itemsAt, hitems, Option.getD_some, Option.mem_some])

lemma Call.Accepts.exists_mem {c : Call} {e : ConsensusEngine} {b : Block} (h : c.Accepts e b) :
    ∃ m ∈ c.messages, m.type = .PRE_PREPARE ∧ m.block = some b ∧ e.structurallyValid b = .ok true := by
  obtain ⟨m, hm⟩ := h
  rw [hm.handles.eq]
  exact ⟨m, List.mem_cons_self, hm.handles.type, hm.carries, hm.valid⟩

/-- A stored ROUND_CHANGE is handed in, alone or in a certificate. -/
lemma Call.Stores.exists_mem {c : Call} {e : ConsensusEngine} {m : ConsensusMessage} (h : c.Stores e m) :
    ∃ p ∈ c.messages, p = m ∧ m.type = .ROUND_CHANGE ∨ p.type = .PRE_PREPARE ∧ m ∈ p.roundChangeCert := by
  rcases h.brings with ⟨hm, -⟩ | ⟨p, hp, hmem⟩
  · rw [hm.eq]
    exact ⟨m, List.mem_cons_self, Or.inl ⟨rfl, hm.type⟩⟩
  · rw [hp.handles.eq]
    exact ⟨p, List.mem_cons_self, Or.inr ⟨hp.handles.type, hmem⟩⟩

/-- A call that hands over pending items brings neither. -/
lemma Call.brings_nothing {c : Call} {e : ConsensusEngine} (h : c.items.isSome) :
    (∀ b, ¬c.Accepts e b) ∧ ∀ m, ¬c.Stores e m := by
  have hmessages : c.messages = [] := by
    cases c with
    | setPending => rfl
    | _ => cases h
  refine ⟨fun b hb => ?_, fun m hm => ?_⟩
  · obtain ⟨m, hm, -⟩ := hb.exists_mem
    rw [hmessages] at hm
    cases hm
  · obtain ⟨p, hp, -⟩ := hm.exists_mem
    rw [hmessages] at hp
    cases hp

/-- The blocks that the engine builds of items that obey the rule obey it. -/
def ConsensusEngine.Builds (ρ : BlockRule) (e : ConsensusEngine) : Prop :=
  ∀ now records changes block, ρ.items records changes →
    Block.create e.height e.previousHash now e.me.toHex records changes = .ok block → ρ.block block

variable {e₀ : ConsensusEngine} {c : Call} {s s' : Frame}

lemma ConsensusEngine.structurallyValid_congr {e : ConsensusEngine} (h : Since e₀ c e) (b : Block) :
    e.structurallyValid b = e₀.structurallyValid b := by
  simp only [structurallyValid, h.height, h.previousHash]

/-- A frame all of whose blocks obey the rule. -/
structure Frame.Carries (ρ : BlockRule) (s : Frame) : Prop where
  engine : s.engine.Carries ρ
  committed : ∀ b ∈ s.result.committed, ρ.block b
  proposed : ∀ m ∈ s.result.broadcast, m.type = .PRE_PREPARE → ∀ b ∈ m.block, ρ.block b

/-- A call on round changes works with the pending items that the engine has. -/
lemma Reached.itemsAt_of_changing (hs : Reached e₀ c s) (hc : c.Changing e₀) :
    (s.engine.pending, s.engine.pendingChanges) = c.itemsAt e₀ := by
  have hitems : c.items = none := by
    rcases hc with ⟨rfl, -⟩ | ⟨m, hm, -⟩
    · rfl
    · rw [hm.eq]
      rfl
  rw [Call.itemsAt, hitems]
  induction hs with
  | refl => rfl
  | tail _ hmove ih =>
    cases hmove with
    | pending hcall =>
      rw [hcall] at hitems
      cases hitems
    | _ => exact ih

/-- A block that the engine proposes obeys the rule: it was built here, or taken from a stored
ROUND_CHANGE. -/
lemma Call.Proposes.carries {block : Block} {cert : List ConsensusMessage}
    (h : c.Proposes e₀ s.engine block cert) (hreached : Reached e₀ c s) (hc : c.Clean ρ e₀)
    (hbuilds : e₀.Builds ρ) (hs : s.engine.Carries ρ) : ρ.block block := by
  cases h with
  | fresh hcall hround hr hphase hme hne hblock =>
    subst hcall
    have hitems := hc.items (.handed rfl hround hphase hme)
    exact hbuilds _ _ _ _ hitems hblock
  | change hch hr hme hquorum hcert hblock =>
    rcases hblock with ⟨justified, -, hlocked⟩ | ⟨-, now, hcreate⟩
    · obtain ⟨m, hm, hmb⟩ := exists_of_lockedBlockFromCert hlocked
      obtain ⟨k, hk⟩ := Dict.mem_values.mp hm
      exact hs.changes _ _ hk _ hmb
    · rw [Dict.len_eq_card] at hquorum
      have hcard := Finset.card_le_card (hreached.roundChanges_subset hch s.engine.round).1
      have hitems := hc.items (.change hch hr hme (hquorum.trans hcard))
      rw [← hreached.itemsAt_of_changing hch] at hitems
      exact hbuilds _ _ _ _ hitems hcreate

/-- A block that is received during a call was handed in as a proposal that the engine accepts. -/
lemma Call.Receives.accepts {block : Block} {m : ConsensusMessage}
    (h : c.Receives e₀ s.engine block m) (hsince : Since e₀ c s.engine) : c.Accepts e₀ block := by
  have hvalid := h.valid
  rw [ConsensusEngine.structurallyValid_congr hsince] at hvalid
  refine ⟨m, { h with round := rfl, since := ?_, sender := ?_, valid := hvalid, justified := ?_ }⟩
  · rw [h.round]
    exact h.since
  · rw [h.round]
    exact h.sender
  · intro hpos
    apply h.justified
    rw [← h.round]
    exact hpos

/-- A block that is accepted obeys the rule, if it does where it is proposed here: the others have been
received and checked. -/
lemma Call.Origin.carries {block : Block} {pre : List ConsensusMessage}
    (h : c.Origin e₀ s.engine block pre) (hsince : Since e₀ c s.engine) (hc : c.Clean ρ e₀)
    (hown : ∀ cert, c.Proposes e₀ s.engine block cert → (∃ m ∈ pre, m.type = .PRE_PREPARE) →
      ρ.block block) : ρ.block block := by
  cases h with
  | own hp hh hcreate =>
    exact hown _ hp ⟨_, List.mem_cons_self, (ConsensusMessage.create_eq hcreate).1⟩
  | peer hm =>
    apply hc.proposed
    exact hm.accepts hsince

lemma Call.Origin.carries_pre {block : Block} {pre : List ConsensusMessage}
    (h : c.Origin e₀ s.engine block pre) (hblock : ρ.block block) {m : ConsensusMessage}
    (hm : m ∈ pre) : ∀ b ∈ m.block, ρ.block b := by
  cases h with
  | own hp hh hcreate =>
    obtain ⟨-, -, -, -, -, hcarried, -⟩ := ConsensusMessage.create_eq hcreate
    rw [List.mem_singleton.mp hm, hcarried]
    intro b hb
    cases hb
    exact hblock
  | peer => cases hm

lemma Frame.Carries.move (hmove : Move e₀ c s s') (hsince : Since e₀ c s.engine) (hc : c.Clean ρ e₀)
    (hown : ∀ block cert, c.Proposes e₀ s.engine block cert →
      (∃ m ∈ s'.result.broadcast, m.type = .PRE_PREPARE) → ρ.block block)
    (h : s.Carries ρ) : s'.Carries ρ := by
  obtain ⟨he, hcommitted, hproposed⟩ := h
  cases hmove with
  | pending hcall =>
    exact ⟨⟨he.proposal, he.lock, he.changes, he.journal⟩, hcommitted, hproposed⟩
  | @store m hm hauth hvalid =>
    refine ⟨⟨he.proposal, he.lock, fun t p hp => ?_, he.journal⟩, hcommitted, hproposed⟩
    rcases Dict.mem_items_getD_setIn hp with ⟨rfl, rfl⟩ | hp
    · exact hc.attached m ⟨hm, hauth, hvalid⟩
    · exact he.changes t p hp
  | leave hch ht hr hwhy hm =>
    obtain ⟨htype, -, -, -, -, hblock, -⟩ := ConsensusEngine.roundChange_eq hm
    refine ⟨⟨he.proposal, he.lock, fun t p hp => ?_, he.journal⟩, hcommitted,
      fun m' hm' ht' => ?_⟩
    · rcases Dict.mem_items_getD_setIn hp with ⟨rfl, rfl⟩ | hp
      · rw [hblock]
        exact he.lock
      · exact he.changes t p hp
    · rcases List.mem_append.mp hm' with hm' | hm'
      · exact hproposed m' hm' ht'
      · rw [List.mem_singleton.mp hm', htype] at ht'
        cases ht'
  | adopt => exact ⟨⟨nofun, he.lock, he.changes, he.journal⟩, hcommitted, hproposed⟩
  | accept horigin hphase hh hprior hcreate =>
    have hblock := horigin.carries hsince hc fun cert hp hpre => hown _ cert hp <| hpre.imp fun m hm =>
      ⟨List.mem_append_left _ (List.mem_append_right _ hm.1), hm.2⟩
    refine ⟨⟨fun b hb => ?_, he.lock, he.changes, he.journal.recordVote _ _ _⟩, hcommitted,
      fun m' hm' ht' => ?_⟩
    · cases hb
      exact hblock
    · rcases List.mem_append.mp hm' with hm' | hm'
      · rcases List.mem_append.mp hm' with hm' | hm'
        · exact hproposed m' hm' ht'
        · exact horigin.carries_pre hblock hm'
      · rw [List.mem_singleton.mp hm', (ConsensusMessage.create_eq hcreate).1] at ht'
        cases ht'
  | refuse horigin =>
    have hblock := horigin.carries hsince hc fun cert hp hpre => hown _ cert hp <| hpre.imp fun m hm =>
      ⟨List.mem_append_right _ hm.1, hm.2⟩
    refine ⟨he, hcommitted, fun m' hm' ht' => ?_⟩
    rcases List.mem_append.mp hm' with hm' | hm'
    · exact hproposed m' hm' ht'
    · exact horigin.carries_pre hblock hm'
  | prepare hopen hphase hblock hh hquorum hprior hcreate =>
    have hlock := he.proposal _ hblock
    refine ⟨⟨he.proposal, fun b hb => ?_, he.changes, ?_⟩, hcommitted,
      fun m' hm' ht' => ?_⟩
    · cases hb
      exact hlock
    · exact (he.journal.recordPrepared hlock).recordVote _ _ _
    · rcases List.mem_append.mp hm' with hm' | hm'
      · exact hproposed m' hm' ht'
      · rw [List.mem_singleton.mp hm', (ConsensusMessage.create_eq hcreate).1] at ht'
        cases ht'
  | @finalize block sealed h hclose hphase hblock hh hquorum hseal =>
    have hsome : ∀ b ∈ some sealed, ρ.block b := by
      intro b hb
      cases hb
      exact ρ.attachSeals (he.proposal _ hblock) hseal
    exact ⟨⟨hsome, hsome, he.changes, he.journal⟩, hsome, hproposed⟩
  | _ => exact ⟨⟨he.proposal, he.lock, he.changes, he.journal⟩, hcommitted, hproposed⟩

/-- Every frame of a call on such an engine. -/
lemma Reached.carries (hs : Reached e₀ c s) (hc : c.Clean ρ e₀) (hbuilds : e₀.Builds ρ)
    (h₀ : e₀.Carries ρ) : s.Carries ρ := by
  induction hs with
  | refl => exact ⟨h₀, nofun, nofun⟩
  | tail hs hmove ih =>
    exact ih.move hmove (Reached.since hs) hc fun _ _ hp _ => hp.carries hs hc hbuilds ih.engine

/-! ### Proposals -/

/-- The pending records of an engine during a call: those that it had, or those that it is handed. -/
lemma Reached.pending (hs : Reached e₀ c s) :
    s.engine.pending = e₀.pending ∨ ∃ p ∈ c.items, s.engine.pending = p.1 := by
  induction hs with
  | refl => exact Or.inl rfl
  | tail _ hmove ih =>
    cases hmove with
    | @pending records changes hcall =>
      rw [hcall]
      exact Or.inr ⟨(records, changes), rfl, rfl⟩
    | _ => exact ih

/-- The block comes with a ROUND_CHANGE that the engine has stored when it proposes. -/
def Call.Reproposes (c : Call) (e : ConsensusEngine) (b : Block) : Prop :=
  ∃ s target, Reached e c s ∧ ∃ m ∈ (s.engine.roundChanges.getD target).values, m.block = some b

/-- A proposal is the block of a stored ROUND_CHANGE, or it is built from pending records. -/
lemma Reached.proposed (hs : Reached e₀ c s) {m : ConsensusMessage} (hm : m ∈ s.result.broadcast)
    (ht : m.type = .PRE_PREPARE) {b : Block} (hb : m.block = some b) : c.Reproposes e₀ b ∨
      b.index = e₀.height ∧ (b.records = e₀.pending ∨ ∃ p ∈ c.items, b.records = p.1) := by
  obtain ⟨s₁, hs₁, hsends⟩ := hs.sends hm
  obtain ⟨block, cert, h, hp, hh, hcreate⟩ := hsends.proposes ht
  obtain ⟨-, -, -, -, -, hcarried, -⟩ := ConsensusMessage.create_eq hcreate
  cases hcarried.symm.trans hb
  cases hp with
  | @fresh records changes _ hcall hround hr hphase hme hne hblock =>
    obtain ⟨hrecords, -⟩ := Block.create_items hblock
    rw [hcall]
    exact Or.inr ⟨(Block.create_consistent hblock).2.1, Or.inr ⟨(records, changes), rfl, hrecords⟩⟩
  | change hch hr hme hquorum hcert hblock =>
    rcases hblock with ⟨justified, -, hlocked⟩ | ⟨-, now, hcreate⟩
    · obtain ⟨rc, hrc, hrcb⟩ := exists_of_lockedBlockFromCert hlocked
      exact Or.inl ⟨s₁, s₁.engine.round, hs₁, rc, hrc, hrcb⟩
    · rw [(Block.create_items hcreate).1]
      exact Or.inr ⟨(Block.create_consistent hcreate).2.1, hs₁.pending⟩

/-! ### Votes -/

/-- The call proposes or PREPAREs the block: it sends a PRE_PREPARE with it, or it handles one with
it and sends a PREPARE for it. -/
def Call.VotesFor (c : Call) (e : ConsensusEngine) (b : Block) : Prop :=
  ∃ m ∈ (c.run e).2.result.broadcast, (m.type = .PRE_PREPARE ∧ m.block = some b) ∨
    (m.type = .PREPARE ∧ b.hash = .ok m.blockHash ∧
      ∃ p, c = .handle p ∧ p.type = .PRE_PREPARE ∧ p.block = some b)

/-- A PREPARE that is sent on a PRE_PREPARE is for its block, which the engine has accepted. -/
lemma Reached.accepts_of_prepare (hs : Reached e₀ c s) {p : ConsensusMessage}
    (hc : c = .handle p) (hp : p.type = .PRE_PREPARE) {m : ConsensusMessage}
    (hm : m ∈ s.result.broadcast) (ht : m.type = .PREPARE) :
    ∃ b, p.block = some b ∧ c.Accepts e₀ b := by
  induction hs with
  | refl => cases hm
  | @tail s _ hs hmove ih =>
    rcases hmove.prepare_cases hm ht with hm | ⟨block, pre, horigin, -, -⟩
    · exact ih hm
    · have hnot : ¬c.Changing e₀ := by
        rintro (⟨htimeout, -⟩ | ⟨m', hm', -⟩)
        · rw [hc] at htimeout
          cases htimeout
        · cases hc.symm.trans hm'.eq
          have htype := hm'.type
          rw [hp] at htype
          cases htype
      cases horigin with
      | own hproposes =>
        cases hproposes with
        | fresh hcall =>
          rw [hc] at hcall
          cases hcall
        | change hch => exact absurd hch hnot
      | peer hreceives =>
        cases hc.symm.trans hreceives.handles.eq
        exact ⟨block, hreceives.carries, hreceives.accepts (Reached.since hs)⟩

/-- What an engine proposes or PREPAREs obeys the rule. -/
lemma Call.VotesFor.carries {b : Block} (h : c.VotesFor e₀ b) (hc : c.Clean ρ e₀)
    (hbuilds : e₀.Builds ρ) (h₀ : e₀.Carries ρ) : ρ.block b := by
  have hreached := c.run_moves e₀
  obtain ⟨m, hm, ⟨ht, hb⟩ | ⟨ht, -, p, hcall, hp, hb⟩⟩ := h
  · exact (hreached.carries hc hbuilds h₀).proposed m hm ht b hb
  · obtain ⟨b', hb', haccepts⟩ := hreached.accepts_of_prepare hcall hp hm ht
    cases hb.symm.trans hb'
    exact hc.proposed b haccepts

/-! ### Structurally valid proposals -/

/-- The rule of `_structurally_valid` for one height. -/
def BlockRule.structural (height : ℤ) (previousHash : PyStr) : BlockRule where
  block b := b.index = height ∧ b.header.previousHash = previousHash ∧
    b.hasConsistentMerkleRoot = .ok true
  row row := row.height = height → ∀ block cert, row.entry = .prepared block cert →
    block.index = height ∧ block.header.previousHash = previousHash ∧
      block.hasConsistentMerkleRoot = .ok true
  items _ _ := True
  addCommitSignature _ _ h := h

lemma ConsensusEngine.structurallyValid_eq_ok (e : ConsensusEngine) (b : Block) :
    e.structurallyValid b = .ok true ↔
      (BlockRule.structural e.height e.previousHash).block b := by
  unfold structurallyValid
  split_ifs with h
  · simp [BlockRule.structural, h]
  · simp only [BlockRule.structural, Except.ok.injEq, Bool.false_eq_true, false_iff]
    exact fun hb => h ⟨hb.1, hb.2.1⟩

/-- What an engine builds is structurally valid. -/
lemma ConsensusEngine.builds_structural (e : ConsensusEngine) :
    e.Builds (.structural e.height e.previousHash) := by
  intro now records changes block _ hcreate
  obtain ⟨hroot, hindex, hprevious⟩ := Block.create_consistent hcreate
  exact ⟨hindex, hprevious, hroot⟩

/-- The blocks attached to the ROUND_CHANGEs that the call stores, alone or from a certificate, are
structurally valid. -/
def Call.AttachesValid (e : ConsensusEngine) (c : Call) : Prop :=
  ∀ m, c.Stores e m → ∀ b ∈ m.block, e.structurallyValid b = .ok true

lemma Call.AttachesValid.clean {e : ConsensusEngine} {c : Call} (h : c.AttachesValid e) :
    c.Clean (.structural e.height e.previousHash) e where
  items _ := trivial
  proposed b hb := by
    obtain ⟨m, -, -, -, hvalid⟩ := hb.exists_mem
    exact (e.structurallyValid_eq_ok b).mp hvalid
  attached m hm b hb := (e.structurallyValid_eq_ok b).mp (h m hm b hb)

/-- All blocks of a validator are structurally valid. -/
structure Validator.Structural (height : ℤ) (previousHash : PyStr) (v : Validator) : Prop where
  engine : v.engine.Carries (.structural height previousHash)
  sent : ∀ m ∈ v.sent, m.type = .PRE_PREPARE → ∀ b ∈ m.block,
    (BlockRule.structural height previousHash).block b
  decided : ∀ b ∈ v.decided, (BlockRule.structural height previousHash).block b
  height_eq : v.engine.height = height
  previousHash_eq : v.engine.previousHash = previousHash

namespace Validator.Structural

variable {height : ℤ} {previousHash : PyStr} {v v' : Validator}

lemma call (h : v.Structural height previousHash) {c : Call} (hc : c.AttachesValid v.engine) :
    (v.call c).Structural height previousHash := by
  obtain ⟨hengine, hsent, hdecided, rfl, rfl⟩ := h
  have hsince := v.since_call c
  have hframe := (c.run_moves v.engine).carries hc.clean v.engine.builds_structural hengine
  refine ⟨hframe.engine, fun m hm ht => ?_, fun b hb => ?_, hsince.height, hsince.previousHash⟩
  · rcases List.mem_append.mp hm with hm | hm
    · exact hsent m hm ht
    · exact hframe.proposed m hm ht
  · rcases List.mem_append.mp hb with hb | hb
    · exact hdecided b hb
    · exact hframe.committed b (Option.mem_toList.mp hb)

lemma step (h : v.Structural height previousHash)
    (hstep : Validator.Step (fun e c => c.AttachesValid e) v v') :
    v'.Structural height previousHash := by
  cases hstep with
  | call c hc => exact h.call hc
  | @crash c hc table lost nowMs hbefore hafter hlost hvotes hnew =>
    have htable := (h.call hc).engine.journal.table
    obtain ⟨hengine, hsent, hdecided, rfl, rfl⟩ := h
    refine ⟨?_, hsent, hdecided, rfl, rfl⟩
    refine .initial (.openView (fun row hrow => htable row (hafter.subset hrow)) ?_ ?_) _ _ _ _ _
    · exact fun r block cert hrow => hrow rfl block cert rfl
    · exact fun r entry hentry _ => hentry

end Validator.Structural

end Helix

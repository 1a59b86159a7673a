import Helix.Consensus.Messages

/-!
# The write-ahead journal of votes

A validator records its own PREPARE and COMMIT votes and its prepared lock before it sends them. The
durable journal is a table of rows in the order they were written; a view of one height caches the
last hash voted for in each round and phase and the last lock. `SqlHeightView.Coherent` says that
the cache is what a fresh view would load from the table.
-/

namespace Helix

/-- The phases in which a validator votes. -/
inductive VotePhase where
  | PREPARE
  | COMMIT
  deriving DecidableEq, Repr

/-- The message that casts a vote. -/
def VotePhase.toMessageType : VotePhase → MessageType
  | PREPARE => .PREPARE
  | COMMIT => .COMMIT

/-- A prepared lock: the round, the block and the PREPARE quorum that proves it. -/
structure PreparedLock where
  round : ℤ
  block : Block
  cert : List ConsensusMessage

/-- What a row of the `consensus_wal` table records. -/
inductive WalEntry where
  | vote (phase : VotePhase) (blockHash : PyStr)
  | prepared (block : Block) (cert : List ConsensusMessage)

/-- A row of the `consensus_wal` table. -/
structure WalRow where
  height : ℤ
  round : ℤ
  entry : WalEntry

/-- `InMemoryVoteJournal`: no durability. -/
structure InMemoryVoteJournal where
  votes : Dict (ℤ × VotePhase) PyStr := Dict.empty
  prepared : Option PreparedLock := none

namespace InMemoryVoteJournal

def recordVote (j : InMemoryVoteJournal) (round : ℤ) (phase : VotePhase) (blockHash : PyStr) :
    InMemoryVoteJournal :=
  { j with votes := j.votes.set (round, phase) blockHash }

def recordPrepared (j : InMemoryVoteJournal) (lock : PreparedLock) : InMemoryVoteJournal :=
  { j with prepared := some lock }

/-- Replay a row. -/
def load (j : InMemoryVoteJournal) (row : WalRow) : InMemoryVoteJournal :=
  match row.entry with
  | .vote phase blockHash => j.recordVote row.round phase blockHash
  | .prepared block cert => j.recordPrepared ⟨row.round, block, cert⟩

end InMemoryVoteJournal

/-- `_SqlHeightView`: the table of the database, the height of the view and its cache. -/
structure SqlHeightView where
  table : List WalRow
  height : ℤ
  cache : InMemoryVoteJournal

namespace SqlHeightView

/-- `_load`: replay the rows of one height, in order. -/
def loadCache (table : List WalRow) (height : ℤ) : InMemoryVoteJournal :=
  (table.filter fun row => row.height = height).foldl InMemoryVoteJournal.load {}

/-- A freshly opened view. -/
def openView (table : List WalRow) (height : ℤ) : SqlHeightView :=
  ⟨table, height, loadCache table height⟩

def recordVote (v : SqlHeightView) (round : ℤ) (phase : VotePhase) (blockHash : PyStr) :
    SqlHeightView :=
  { v with
    cache := v.cache.recordVote round phase blockHash
    table := v.table ++ [⟨v.height, round, .vote phase blockHash⟩] }

def recordPrepared (v : SqlHeightView) (lock : PreparedLock) : SqlHeightView :=
  { v with
    cache := v.cache.recordPrepared lock
    table := v.table ++ [⟨v.height, lock.round, .prepared lock.block lock.cert⟩] }

end SqlHeightView

/-- The journals an engine can be given. -/
inductive VoteJournal where
  | null
  | inMemory (journal : InMemoryVoteJournal)
  | sql (view : SqlHeightView)

namespace VoteJournal

/-- The block hash already voted for in `(round, phase)`, if any. -/
def votedHash (j : VoteJournal) (round : ℤ) (phase : VotePhase) : Option PyStr :=
  match j with
  | null => none
  | inMemory journal => journal.votes.get? (round, phase)
  | sql view => view.cache.votes.get? (round, phase)

/-- Persist a vote. -/
def recordVote (j : VoteJournal) (round : ℤ) (phase : VotePhase) (blockHash : PyStr) :
    VoteJournal :=
  match j with
  | null => null
  | inMemory journal => inMemory (journal.recordVote round phase blockHash)
  | sql view => sql (view.recordVote round phase blockHash)

/-- Persist the prepared lock. -/
def recordPrepared (j : VoteJournal) (lock : PreparedLock) : VoteJournal :=
  match j with
  | null => null
  | inMemory journal => inMemory (journal.recordPrepared lock)
  | sql view => sql (view.recordPrepared lock)

/-- The restored prepared lock, if any. -/
def prepared (j : VoteJournal) : Option PreparedLock :=
  match j with
  | null => none
  | inMemory journal => journal.prepared
  | sql view => view.cache.prepared

/-- The rows of a durable journal. -/
def table : VoteJournal → List WalRow
  | null => []
  | inMemory _ => []
  | sql view => view.table

end VoteJournal

/-- Where a node keeps its journals. -/
inductive JournalStore where
  | null
  | sql (table : List WalRow)

namespace JournalStore

/-- A journal bound to `height`. -/
def view (s : JournalStore) (height : ℤ) : VoteJournal :=
  match s with
  | null => .null
  | sql table => .sql (SqlHeightView.openView table height)

/-- Discard the journals of heights below `height`. -/
def pruneBelow (s : JournalStore) (height : ℤ) : JournalStore :=
  match s with
  | null => null
  | sql table => sql (table.filter fun row => ¬row.height < height)

/-- A view of the store after rows were deleted: it reads the table that is left, but keeps its
cache. -/
def refresh (s : JournalStore) (j : VoteJournal) : VoteJournal :=
  match s, j with
  | sql table, .sql view => .sql { view with table }
  | _, j => j

/-- The store after its view was written through. -/
def sync (s : JournalStore) (j : VoteJournal) : JournalStore :=
  match s, j with
  | sql _, .sql view => sql view.table
  | s, _ => s

end JournalStore

/-! ### Reading back what was written -/

namespace SqlHeightView

/-- The cache of a view is what a fresh view would load. -/
def Coherent (v : SqlHeightView) : Prop := v.cache = loadCache v.table v.height

lemma coherent_openView (table : List WalRow) (height : ℤ) : (openView table height).Coherent := rfl

lemma loadCache_append (table : List WalRow) (row : WalRow) :
    loadCache (table ++ [row]) row.height = (loadCache table row.height).load row := by
  simp [loadCache]

lemma Coherent.recordVote {v : SqlHeightView} (hv : v.Coherent) (round : ℤ) (phase : VotePhase)
    (h : PyStr) : (v.recordVote round phase h).Coherent := by
  have hload := loadCache_append v.table ⟨v.height, round, .vote phase h⟩
  rw [Coherent] at hv ⊢
  simp only [SqlHeightView.recordVote, hv]
  exact hload.symm

lemma Coherent.recordPrepared {v : SqlHeightView} (hv : v.Coherent) (lock : PreparedLock) :
    (v.recordPrepared lock).Coherent := by
  have hload := loadCache_append v.table ⟨v.height, lock.round, .prepared lock.block lock.cert⟩
  rw [Coherent] at hv ⊢
  simp only [SqlHeightView.recordPrepared, hv]
  exact hload.symm

/-- Rows of one height, replayed from the last to the first. -/
lemma loadCache_induction {P : List WalRow → InMemoryVoteJournal → Prop} (height : ℤ)
    (hnil : P [] {})
    (hskip : ∀ table row j, row.height ≠ height → P table j → P (table ++ [row]) j)
    (hload : ∀ table row j, row.height = height → P table j → P (table ++ [row]) (j.load row))
    (table : List WalRow) : P table (loadCache table height) := by
  induction table using List.reverseRecOn with
  | nil => exact hnil
  | append_singleton table row ih =>
    by_cases hrow : row.height = height
    · subst hrow
      rw [loadCache_append]
      exact hload table row _ rfl ih
    · have : loadCache (table ++ [row]) height = loadCache table height := by
        simp [loadCache, hrow]
      rw [this]
      exact hskip table row _ hrow ih

/-- A cached vote stands in the table. -/
lemma mem_table_of_votes {table : List WalRow} {height round : ℤ} {phase : VotePhase} {h : PyStr}
    (hv : (loadCache table height).votes.get? (round, phase) = some h) :
    ⟨height, round, .vote phase h⟩ ∈ table := by
  revert hv
  refine loadCache_induction (P := fun table j => j.votes.get? (round, phase) = some h →
    ⟨height, round, .vote phase h⟩ ∈ table) height ?_ ?_ ?_ table
  · exact fun hv => by simp at hv
  · exact fun table row j _ ih hv => List.mem_append_left _ (ih hv)
  · rintro table ⟨hrow, rrow, entry⟩ j rfl ih hv
    cases entry with
    | vote phase' h' =>
      simp only [InMemoryVoteJournal.load, InMemoryVoteJournal.recordVote, Dict.get?_set] at hv
      split_ifs at hv with heq
      · cases hv
        cases heq
        simp
      · exact List.mem_append_left _ (ih hv)
    | prepared block cert => exact List.mem_append_left _ (ih hv)

/-- A vote that stands in the table is cached, unless another one for its round and phase is. -/
lemma exists_votes_of_mem_table {table : List WalRow} {height round : ℤ} {phase : VotePhase}
    {h : PyStr} (hmem : ⟨height, round, .vote phase h⟩ ∈ table) :
    ∃ h', (loadCache table height).votes.get? (round, phase) = some h' := by
  revert hmem
  refine loadCache_induction (P := fun table j => ⟨height, round, .vote phase h⟩ ∈ table →
    ∃ h', j.votes.get? (round, phase) = some h') height ?_ ?_ ?_ table
  · exact fun hmem => by cases hmem
  · intro table row j hne ih hmem
    rcases List.mem_append.mp hmem with hmem | hmem
    · exact ih hmem
    · rw [List.mem_singleton] at hmem
      exact absurd (hmem ▸ rfl) hne
  · rintro table ⟨hrow, rrow, entry⟩ j rfl ih hmem
    cases entry with
    | vote phase' h' =>
      simp only [InMemoryVoteJournal.load, InMemoryVoteJournal.recordVote, Dict.get?_set]
      split_ifs with heq
      · exact ⟨h', rfl⟩
      · rcases List.mem_append.mp hmem with hmem | hmem
        · exact ih hmem
        · rw [List.mem_singleton] at hmem
          cases hmem
          exact absurd rfl heq
    | prepared block cert =>
      rcases List.mem_append.mp hmem with hmem | hmem
      · exact ih hmem
      · rw [List.mem_singleton] at hmem
        cases hmem

/-- The lock that a longer table restores is the old one or that of a later row. -/
lemma prepared_loadCache_append (table rows : List WalRow) (height : ℤ) :
    (loadCache (table ++ rows) height).prepared = (loadCache table height).prepared ∨
      ∃ r block cert, ⟨height, r, .prepared block cert⟩ ∈ rows ∧
        (loadCache (table ++ rows) height).prepared = some ⟨r, block, cert⟩ := by
  induction rows using List.reverseRecOn with
  | nil => exact Or.inl (by rw [List.append_nil])
  | append_singleton rows row ih =>
    have hold : (loadCache (table ++ rows) height).prepared = (loadCache table height).prepared ∨
        ∃ r block cert, ⟨height, r, .prepared block cert⟩ ∈ rows ++ [row] ∧
          (loadCache (table ++ rows) height).prepared = some ⟨r, block, cert⟩ :=
      ih.imp_right fun ⟨r, block, cert, hmem, h⟩ =>
        ⟨r, block, cert, List.mem_append_left _ hmem, h⟩
    rw [← List.append_assoc]
    obtain ⟨hrow, r, entry⟩ := row
    by_cases hh : hrow = height
    · subst hh
      rw [loadCache_append (table ++ rows)]
      cases entry with
      | vote phase h => exact hold
      | prepared block cert =>
        exact Or.inr ⟨r, block, cert, List.mem_append_right _ List.mem_cons_self, rfl⟩
    · have hskip : loadCache (table ++ rows ++ [⟨hrow, r, entry⟩]) height =
          loadCache (table ++ rows) height := by
        simp [loadCache, hh]
      rw [hskip]
      exact hold

/-- A restored lock is in a row of the table. -/
lemma mem_table_of_prepared {table : List WalRow} {height : ℤ} {lock : PreparedLock}
    (h : (loadCache table height).prepared = some lock) :
    ⟨height, lock.round, .prepared lock.block lock.cert⟩ ∈ table := by
  have hload := prepared_loadCache_append [] table height
  rw [List.nil_append, h] at hload
  rcases hload with hnone | ⟨r, block, cert, hmem, hsome⟩
  · cases hnone
  · cases hsome
    exact hmem

end SqlHeightView

/-! ### Durable journals -/

namespace VoteJournal

/-- A recorded lock adds one row. -/
lemma mem_table_recordPrepared {j : VoteJournal} {lock : PreparedLock} {row : WalRow}
    (h : row ∈ (j.recordPrepared lock).table) :
    row ∈ j.table ∨ (row.round, row.entry) = (lock.round, .prepared lock.block lock.cert) := by
  cases j with
  | null => cases h
  | inMemory journal => cases h
  | sql view =>
    refine (List.mem_append.mp h).imp_right fun h => ?_
    rw [List.mem_singleton.mp h]

/-- A recorded vote adds no lock. -/
lemma mem_table_recordVote {j : VoteJournal} {r : ℤ} {phase : VotePhase} {h : PyStr} {row : WalRow}
    {block : Block} {cert : List ConsensusMessage} (hmem : row ∈ (j.recordVote r phase h).table)
    (hentry : row.entry = .prepared block cert) : row ∈ j.table := by
  cases j with
  | null => cases hmem
  | inMemory journal => cases hmem
  | sql view =>
    rcases List.mem_append.mp hmem with hmem | hmem
    · exact hmem
    · rw [List.mem_singleton.mp hmem] at hentry
      cases hentry

@[simp] lemma votedHash_recordPrepared (j : VoteJournal) (lock : PreparedLock) (r : ℤ)
    (p : VotePhase) : (j.recordPrepared lock).votedHash r p = j.votedHash r p := by
  cases j <;> rfl

lemma votedHash_recordVote_of_ne (j : VoteJournal) {r r' : ℤ} {p p' : VotePhase} (h : PyStr)
    (hne : (r', p') ≠ (r, p)) : (j.recordVote r p h).votedHash r' p' = j.votedHash r' p' := by
  cases j with
  | null => rfl
  | inMemory journal => exact Dict.get?_set_of_ne _ _ hne
  | sql view => exact Dict.get?_set_of_ne _ _ hne

/-- A journal over a database, whose cache is what its table says. -/
def Durable (j : VoteJournal) (height : ℤ) : Prop :=
  ∃ view, j = .sql view ∧ view.height = height ∧ view.Coherent

lemma durable_openView (table : List WalRow) (height : ℤ) :
    (VoteJournal.sql (.openView table height)).Durable height :=
  ⟨_, rfl, rfl, SqlHeightView.coherent_openView table height⟩

namespace Durable

variable {j : VoteJournal} {height : ℤ}

lemma recordVote (hj : j.Durable height) (r : ℤ) (p : VotePhase) (h : PyStr) :
    (j.recordVote r p h).Durable height := by
  obtain ⟨view, rfl, hh, hc⟩ := hj
  exact ⟨_, rfl, hh, hc.recordVote r p h⟩

lemma recordPrepared (hj : j.Durable height) (lock : PreparedLock) :
    (j.recordPrepared lock).Durable height := by
  obtain ⟨view, rfl, hh, hc⟩ := hj
  exact ⟨_, rfl, hh, hc.recordPrepared lock⟩

lemma table_recordVote (hj : j.Durable height) (r : ℤ) (p : VotePhase) (h : PyStr) :
    (j.recordVote r p h).table = j.table ++ [⟨height, r, .vote p h⟩] := by
  obtain ⟨view, rfl, rfl, -⟩ := hj
  rfl

lemma table_recordPrepared (hj : j.Durable height) (lock : PreparedLock) :
    (j.recordPrepared lock).table =
      j.table ++ [⟨height, lock.round, .prepared lock.block lock.cert⟩] := by
  obtain ⟨view, rfl, rfl, -⟩ := hj
  rfl

lemma prepared_recordPrepared (hj : j.Durable height) (lock : PreparedLock) (r : ℤ)
    (p : VotePhase) (h : PyStr) : ((j.recordPrepared lock).recordVote r p h).prepared = some lock := by
  obtain ⟨view, rfl, -⟩ := hj
  rfl

lemma prepared_recordVote (hj : j.Durable height) (r : ℤ) (p : VotePhase) (h : PyStr) :
    (j.recordVote r p h).prepared = j.prepared := by
  obtain ⟨view, rfl, -⟩ := hj
  rfl

/-- The lock is the one that a restart would restore. -/
lemma prepared_eq (hj : j.Durable height) :
    j.prepared = (SqlHeightView.loadCache j.table height).prepared := by
  obtain ⟨view, rfl, rfl, hc⟩ := hj
  exact congrArg InMemoryVoteJournal.prepared hc

/-- A vote is looked up as a restart would find it. -/
lemma votedHash_eq (hj : j.Durable height) (r : ℤ) (p : VotePhase) :
    j.votedHash r p = (SqlHeightView.loadCache j.table height).votes.get? (r, p) := by
  obtain ⟨view, rfl, rfl, hc⟩ := hj
  exact congrArg (fun cache => cache.votes.get? (r, p)) hc

lemma mem_table_of_votedHash (hj : j.Durable height) {r : ℤ} {p : VotePhase} {h : PyStr}
    (hv : j.votedHash r p = some h) : ⟨height, r, .vote p h⟩ ∈ j.table :=
  SqlHeightView.mem_table_of_votes (hj.votedHash_eq r p ▸ hv)

lemma exists_votedHash_of_mem_table (hj : j.Durable height) {r : ℤ} {p : VotePhase} {h : PyStr}
    (hv : ⟨height, r, .vote p h⟩ ∈ j.table) : ∃ h', j.votedHash r p = some h' := by
  rw [hj.votedHash_eq]
  exact SqlHeightView.exists_votes_of_mem_table hv

end Durable

end VoteJournal

end Helix

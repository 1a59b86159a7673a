import Helix.Consensus.Journal
import Helix.Consensus.Wire

/-!
# The journal store

All heights share one table. A view of a height writes through its cache, and a view that is opened
later replays the rows of the height in the order of their ids; locks pass through JSON on the way.
`View` and `Store` are the store column by column, with whatever phases a caller may name. The
specification `History` gives every height a journal in memory of its own, which is replaced by an empty
one when the height is pruned.
-/

namespace Helix.Wal

/-! ### Journals in memory -/

/-- The arguments of `record_vote` and of `record_prepared`. -/
inductive Entry where
  | vote (round : ℤ) (phase blockHash : PyStr)
  | prepared (lock : PreparedLock)

/-- `InMemoryVoteJournal`. -/
structure Memory where
  votes : Dict (ℤ × PyStr) PyStr := Dict.empty
  prepared : Option PreparedLock := none

namespace Memory

/-- `voted_hash`. -/
def votedHash (m : Memory) (round : ℤ) (phase : PyStr) : Option PyStr := m.votes.get? (round, phase)

/-- `record_vote` and `record_prepared`. -/
def record (m : Memory) : Entry → Memory
  | .vote round phase blockHash => { m with votes := m.votes.set (round, phase) blockHash }
  | .prepared lock => { m with prepared := some lock }

/-- A new journal that has received the entries. -/
def ofEntries (entries : List Entry) : Memory := entries.foldl record {}

lemma ofEntries_concat (entries : List Entry) (entry : Entry) :
    ofEntries (entries ++ [entry]) = (ofEntries entries).record entry := by simp [ofEntries]

end Memory

/-! ### The table -/

/-- `_WalRow`. -/
structure Row where
  height : ℤ
  kind : PyStr
  round : ℤ
  phase : PyStr := []
  blockHash : PyStr := []
  payload : PyStr := []

/-- The row of an entry; the row of a lock names the hash of its block. -/
def Entry.row [Crypto] (height : ℤ) : Entry → Except PyError Row
  | .vote round phase blockHash => .ok { height, kind := str "vote", round, phase, blockHash }
  | .prepared lock => do
    let payload := SqlHeightView.payload lock.block lock.cert
    let blockHash ← lock.block.hash
    return { height, kind := str "prepared", round := lock.round, blockHash, payload }

/-- The part of `_load` for one row. -/
def Row.load (m : Memory) (row : Row) : Except PyError Memory :=
  if row.kind = str "vote" then
    .ok { m with votes := m.votes.set (row.round, row.phase) row.blockHash }
  else if row.kind = str "prepared" then
    (SqlHeightView.load row.payload).map fun data =>
      { m with prepared := some ⟨row.round, data.1, data.2⟩ }
  else .ok m

/-- `_load`: replay the rows of a height. -/
def load (table : List Row) (height : ℤ) : Except PyError Memory :=
  (table.filter fun row => row.height = height).foldlM Row.load {}

/-- `_SqlHeightView`, its table being that of the store. -/
structure View where
  height : ℤ
  cache : Memory

/-- `SqlConsensusJournalStore`, and the views that were opened on it. -/
structure Store where
  table : List Row := []
  views : List View := []

variable [Crypto]

/-- The operations of the store and of its views; a record names the view by when it was opened. -/
inductive Op where
  | view (height : ℤ)
  | record (view : ℕ) (entry : Entry)
  | pruneBelow (height : ℤ)

open Eff in
def Op.body : Op → Eff Store PyError Unit
  | view height => do
    let s ← get
    let cache ← lift (load s.table height)
    modify fun s => { s with views := s.views ++ [⟨height, cache⟩] }
  | record i entry => do
    let s ← get
    match s.views[i]? with
    | none => raise (.indexError "no such view")
    | some v =>
      modify fun s => { s with views := s.views.set i { v with cache := v.cache.record entry } }
      let row ← lift (entry.row v.height)
      modify fun s => { s with table := s.table ++ [row] }
  | pruneBelow height =>
    modify fun s => { s with table := s.table.filter fun row => ¬row.height < height }

/-- The store after an operation, exceptions caught. -/
def Op.run (op : Op) (s : Store) : Store := (op.body s).2

/-- A new store after a sequence of operations. -/
def run (ops : List Op) : Store := ops.foldl (fun s op => op.run s) {}

/-! ### What the store has been told -/

/-- The heights of the views that were opened, and for each height the entries that were recorded since
it was last pruned. -/
structure History where
  heights : List ℤ := []
  received : ℤ → List Entry := fun _ => []

/-- Recording raises just for a lock on a block that cannot be hashed. -/
def Entry.Recordable : Entry → Prop
  | .vote _ _ _ => True
  | .prepared lock => (lock.block.hash).isOk

instance : DecidablePred Entry.Recordable := fun entry =>
  match entry with
  | .vote _ _ _ => inferInstanceAs (Decidable True)
  | .prepared lock => inferInstanceAs (Decidable ((lock.block.hash).isOk = true))

def History.step (past : History) : Op → History
  | .view height => { past with heights := past.heights ++ [height] }
  | .record i entry =>
    match past.heights[i]? with
    | none => past
    | some height =>
      if entry.Recordable then
        { past with received :=
            Function.update past.received height (past.received height ++ [entry]) }
      else past
  | .pruneBelow height =>
    { past with received := fun h => if h < height then [] else past.received h }

/-- What a sequence of operations has told the store. -/
def history (ops : List Op) : History := ops.foldl History.step {}

/-! ### Rows -/

/-- No string of the lock holds a surrogate pair, which the JSON text would join. -/
def Entry.Keeps : Entry → Prop
  | .vote _ _ _ => True
  | .prepared lock => (∀ s ∈ lock.block.texts, JsonStyle.Keeps {} s) ∧
      ∀ m ∈ lock.cert, ∀ s ∈ m.texts, JsonStyle.Keeps {} s

/-- Whatever a call records can be read back. -/
def Op.Keeps : Op → Prop
  | .record _ entry => entry.Keeps
  | _ => True

/-- A row is of the height it was written for, and is read back as what was recorded. -/
lemma Entry.load_row {entry : Entry} (hkeeps : entry.Keeps) {height : ℤ} {row : Row}
    (hrow : entry.row height = .ok row) :
    row.height = height ∧ ∀ m, Row.load m row = .ok (m.record entry) := by
  cases entry with
  | vote round phase blockHash =>
    cases hrow
    exact ⟨rfl, fun m => rfl⟩
  | prepared lock =>
    obtain ⟨blockHash, -, hrow⟩ := exists_of_bind_eq_ok hrow
    cases hrow
    refine ⟨rfl, fun m => ?_⟩
    have hkind : str "prepared" ≠ str "vote" := by decide
    simp only [Row.load, hkind, if_false, if_true, SqlHeightView.load_payload hkeeps.1 hkeeps.2,
      Except.map]
    rfl

lemma Entry.row_isOk (entry : Entry) (height : ℤ) :
    entry.Recordable ↔ ∃ row, entry.row height = .ok row := by
  cases entry with
  | vote round phase blockHash => exact iff_of_true trivial ⟨_, rfl⟩
  | prepared lock =>
    simp only [Recordable, row]
    cases lock.block.hash with
    | error e => exact iff_of_false (fun h => by cases h) (fun ⟨_, h⟩ => by cases h)
    | ok blockHash => exact iff_of_true rfl ⟨_, rfl⟩

omit [Crypto] in
/-- A row more is replayed last, by its own height only. -/
lemma load_concat (table : List Row) (row : Row) (height : ℤ) :
    load (table ++ [row]) height =
      if row.height = height then load table height >>= fun m => Row.load m row
      else load table height := by
  unfold load
  split_ifs with h
  · simp [List.filter_append, h]
  · simp [List.filter_append, h]

omit [Crypto] in
/-- Pruning leaves nothing of the heights below, and the rest as it was. -/
lemma load_prune (table : List Row) (below height : ℤ) :
    load (table.filter fun row => ¬row.height < below) height =
      if height < below then .ok {} else load table height := by
  unfold load
  rw [List.filter_filter]
  split_ifs with h
  · rw [List.filter_eq_nil_iff.mpr]
    · rfl
    · simp only [decide_eq_true_eq, Bool.and_eq_true, not_and]
      rintro row - rfl
      exact not_not.mpr h
  · congr 1
    refine List.filter_congr fun row _ => ?_
    by_cases hrow : row.height = height
    · simp [hrow, h]
    · simp [hrow]

/-! ### Reading back -/

/-- The views are those that were opened, and a view of any height would read what that height has
received. -/
structure Agrees (s : Store) (past : History) : Prop where
  heights : s.views.map (·.height) = past.heights
  reads : ∀ height, load s.table height = .ok (.ofEntries (past.received height))

/-- A record: what it does to the store, and to the history. -/
lemma Agrees.record {s : Store} {past : History} (h : Agrees s past) (i : ℕ) {entry : Entry}
    (hkeeps : entry.Keeps) : Agrees ((Op.record i entry).run s) (past.step (.record i entry)) := by
  have hview : past.heights[i]? = s.views[i]?.map (·.height) := by rw [← h.heights, List.getElem?_map]
  rw [Op.run, Op.body, History.step, hview]
  cases hv : s.views[i]? with
  | none =>
    rw [Eff.bind_apply_ok (Eff.get_apply s)]
    simp only [hv]
    exact h
  | some v =>
    have hset : (s.views.set i { v with cache := v.cache.record entry }).map (·.height) =
        past.heights := by
      rw [List.map_set, ← h.heights]
      refine List.ext_getElem? fun j => ?_
      rw [List.getElem?_set]
      split_ifs with hij hlen
      · subst hij
        rw [List.getElem?_map, hv]
        rfl
      · subst hij
        exact (List.getElem?_eq_none (not_lt.mp hlen)).symm
      · rfl
    rw [Eff.bind_apply_ok (Eff.get_apply s)]
    simp only [hv, Option.map_some]
    rw [Eff.bind_apply_ok (Eff.modify_apply _ _)]
    cases hrow : entry.row v.height with
    | error e =>
      have hnot : ¬entry.Recordable := by
        rw [entry.row_isOk v.height, hrow]
        rintro ⟨row, hrow⟩
        cases hrow
      rw [if_neg hnot]
      exact ⟨hset, h.reads⟩
    | ok row =>
      obtain ⟨hheight, hload⟩ := Entry.load_row hkeeps hrow
      rw [Eff.lift_bind_ok rfl, if_pos ((entry.row_isOk v.height).mpr ⟨row, hrow⟩)]
      refine ⟨hset, fun height => ?_⟩
      have hconcat := load_concat s.table row height
      rw [h.reads, hheight] at hconcat
      refine hconcat.trans ?_
      by_cases heq : v.height = height
      · subst heq
        simp only [if_true, Function.update_self, Memory.ofEntries_concat]
        exact hload _
      · simp only [heq, if_false, Function.update_of_ne (Ne.symm heq)]

/-- One operation. -/
lemma Agrees.step {s : Store} {past : History} (h : Agrees s past) {op : Op} (hop : op.Keeps) :
    Agrees (op.run s) (past.step op) := by
  cases op with
  | view height =>
    have hrun : (Op.view height).run s =
        { s with views := s.views ++ [⟨height, .ofEntries (past.received height)⟩] } := by
      rw [Op.run, Op.body, Eff.bind_apply_ok (Eff.get_apply s), Eff.lift_bind_ok (h.reads height)]
      rfl
    rw [hrun]
    refine ⟨?_, h.reads⟩
    rw [List.map_append, h.heights]
    rfl
  | record i entry => exact h.record i hop
  | pruneBelow below =>
    refine ⟨h.heights, fun height => (load_prune s.table below height).trans ?_⟩
    rw [h.reads]
    split_ifs with hlt
    · simp [History.step, hlt, Memory.ofEntries]
    · simp [History.step, hlt]

/-- A sequence of operations. -/
lemma Agrees.run {ops : List Op} (hops : ∀ op ∈ ops, op.Keeps) : Agrees (run ops) (history ops) := by
  induction ops using List.reverseRecOn with
  | nil => exact ⟨rfl, fun _ => rfl⟩
  | append_singleton ops op ih =>
    have hbefore := ih fun op hop => hops op (List.mem_append_left _ hop)
    rw [Wal.run, history, List.foldl_append, List.foldl_append]
    exact hbefore.step (hops op (by simp))

/-- A view that is opened after any sequence of operations holds what a journal in memory would that had
received what was recorded at its height since the height was last pruned. Records at other heights and
the pruning of heights below leave what such a view holds as it is; pruning a height empties it. -/
theorem fresh_view_reads {ops : List Op} (hops : ∀ op ∈ ops, op.Keeps) :
    (∀ height, ((Op.view height).run (run ops)).views.getLast? =
      some ⟨height, .ofEntries ((history ops).received height)⟩) ∧
    (∀ i entry height v, entry.Keeps → (run ops).views[i]? = some v → height ≠ v.height →
      load ((Op.record i entry).run (run ops)).table height = load (run ops).table height) ∧
    ∀ below height, load ((Op.pruneBelow below).run (run ops)).table height =
      if height < below then .ok {} else load (run ops).table height := by
  have hrun := Agrees.run hops
  refine ⟨fun height => ?_, fun i entry height v hentry hv hne => ?_, fun below height => ?_⟩
  · rw [Op.run, Op.body, Eff.bind_apply_ok (Eff.get_apply _), Eff.lift_bind_ok (hrun.reads height)]
    exact List.getLast?_concat
  · rw [(hrun.record i hentry).reads, hrun.reads, History.step, ← hrun.heights, List.getElem?_map, hv]
    simp only [Option.map_some]
    split_ifs
    · simp only [Function.update_of_ne hne]
    · rfl
  · exact load_prune _ _ _

omit [Crypto] in
/-- A lock on a block of the first height with the given entity in its record, for concrete runs. -/
def lockOn (entityId : PyStr) : PreparedLock :=
  ⟨0, { Block.ofTimestamp 5 with records := [⟨entityId, [], [], [], .OK, 0, [], []⟩] }, []⟩

omit [Crypto] in
/-- Records at two heights, a vote that is overwritten, and a height that is pruned and written again. -/
theorem fresh_view_reads_of_pruned :
    letI := Crypto.checksums
    let ops : List Op := [.view 1, .view 2, .record 0 (.vote 0 (str "PREPARE") (str "aa")),
      .record 1 (.prepared (lockOn (str "Room:1"))), .pruneBelow 2,
      .record 0 (.vote 0 (str "PREPARE") (str "bb")), .record 0 (.vote 0 (str "PREPARE") (str "cc"))]
    ∃ m, ((Op.view 1).run (run ops)).views.getLast? = some ⟨1, m⟩ ∧
      m.votedHash 0 (str "PREPARE") = some (str "cc") := by
  let := Crypto.checksums
  intro ops
  have hkeeps : ∀ op ∈ ops, op.Keeps := by
    have hlock : (Entry.prepared (lockOn (str "Room:1"))).Keeps := by
      refine ⟨by decide +kernel, ?_⟩
      exact fun m hm => by cases hm
    refine List.forall_mem_cons.mpr ⟨trivial, List.forall_mem_cons.mpr ⟨trivial,
      List.forall_mem_cons.mpr ⟨trivial, List.forall_mem_cons.mpr ⟨hlock,
        List.forall_mem_cons.mpr ⟨trivial, List.forall_mem_cons.mpr ⟨trivial,
          List.forall_mem_singleton.mpr trivial⟩⟩⟩⟩⟩⟩
  exact ⟨_, (fresh_view_reads hkeeps).1 1, by decide +kernel⟩

omit [Crypto] in
/-- A lock whose record spells a character as two halves of a surrogate pair is restored with another
record. -/
theorem fresh_view_joins_surrogates :
    letI := Crypto.checksums
    let lock := lockOn [.ofNat 0xD800, .ofNat 0xDC00]
    let ops : List Op := [.view 1, .record 0 (.prepared lock)]
    ((history ops).received 1).length = 1 ∧
      ∃ view lock', ((Op.view 1).run (run ops)).views.getLast? = some view ∧
        view.cache.prepared = some lock' ∧ lock'.block.records ≠ lock.block.records := by
  let := Crypto.checksums
  intro lock ops
  have hrun : (((Op.view 1).run (run ops)).views.getLast?.bind fun view =>
      view.cache.prepared.map fun lock' => decide (lock'.block.records = lock.block.records)) =
        some false := by
    decide +kernel
  refine ⟨by decide +kernel, ?_⟩
  obtain ⟨view, hview, hprepared⟩ := Option.bind_eq_some_iff.mp hrun
  obtain ⟨lock', hlock', hne⟩ := Option.map_eq_some_iff.mp hprepared
  exact ⟨view, lock', hview, hlock', of_decide_eq_false hne⟩

/-! ### The engine's journal -/

/-- The text of a phase. -/
def phaseText : VotePhase → PyStr
  | .PREPARE => str "PREPARE"
  | .COMMIT => str "COMMIT"

omit [Crypto] in
lemma phaseText_injective : Function.Injective phaseText := by
  intro p q h
  cases p <;> cases q <;> first | rfl | exact absurd h (by decide)

/-- What an engine has recorded in a row. -/
def entryOf (row : WalRow) : Entry :=
  match row.entry with
  | .vote phase blockHash => .vote row.round (phaseText phase) blockHash
  | .prepared block cert => .prepared ⟨row.round, block, cert⟩

/-- The two journals answer alike for the phases of the engine. -/
structure Alike (m : Memory) (j : InMemoryVoteJournal) : Prop where
  votes : ∀ round phase, m.votedHash round (phaseText phase) = j.votes.get? (round, phase)
  prepared : m.prepared = j.prepared

omit [Crypto] in
lemma Alike.record {m : Memory} {j : InMemoryVoteJournal} (h : Alike m j) (row : WalRow) :
    Alike (m.record (entryOf row)) (j.load row) := by
  obtain ⟨height, r, entry⟩ := row
  cases entry with
  | vote phase' blockHash =>
    refine ⟨fun round phase => ?_, h.prepared⟩
    have hkey : (round, phaseText phase) = (r, phaseText phase') ↔ (round, phase) = (r, phase') := by
      rw [Prod.mk.injEq, Prod.mk.injEq, phaseText_injective.eq_iff]
    have hm := Dict.get?_set m.votes (r, phaseText phase') (round, phaseText phase) blockHash
    have hj := Dict.get?_set j.votes (r, phase') (round, phase) blockHash
    simp only [hkey] at hm
    refine hm.trans (Eq.trans ?_ hj.symm)
    split_ifs
    · rfl
    · exact h.votes round phase
  | prepared block cert => exact ⟨h.votes, rfl⟩

/-- The engine's model of the journal, whose rows hold the recorded values, answers as the columns of
the table do. -/
theorem loadCache_alike {table : List WalRow} {rows : List Row}
    (hkeeps : ∀ row ∈ table, (entryOf row).Keeps)
    (hrows : table.mapM (fun row => (entryOf row).row row.height) = .ok rows) (height : ℤ) :
    ∃ m, load rows height = .ok m ∧ Alike m (SqlHeightView.loadCache table height) := by
  have hfold : ∀ {m j}, Alike m j → ∃ m',
      (rows.filter fun row => row.height = height).foldlM Row.load m = .ok m' ∧
        Alike m' ((table.filter fun row => row.height = height).foldl InMemoryVoteJournal.load j) := by
    have hpairs := forall₂_of_mapM hrows
    clear hrows
    induction hpairs with
    | nil => exact fun {m j} h => ⟨m, rfl, h⟩
    | @cons row row' table rows hrow _ ih =>
      intro m j h
      obtain ⟨hheight, hload⟩ := Entry.load_row (hkeeps row (by simp)) hrow
      have hrest := fun {m j} => @ih (fun row hrow => hkeeps row (List.mem_cons_of_mem _ hrow)) m j
      by_cases heq : row.height = height
      · have heq' : row'.height = height := hheight.trans heq
        rw [List.filter_cons_of_pos (by simpa using heq'), List.filter_cons_of_pos (by simpa using heq)]
        rw [List.foldlM_cons, hload, List.foldl_cons]
        exact hrest (h.record row)
      · have heq' : row'.height ≠ height := fun h => heq (hheight.symm.trans h)
        rw [List.filter_cons_of_neg (by simpa using heq'), List.filter_cons_of_neg (by simpa using heq)]
        exact hrest h
  exact hfold ⟨fun _ _ => rfl, rfl⟩

end Helix.Wal

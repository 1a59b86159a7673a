import Helix.Consensus.Wire
import Helix.Node.Model

/-!
# The table of blocks

The repository keeps a block as a row: the index, which is the primary key, the hash, which is unique, and
the body, a JSON text from which the block is read back. To append a block it reads the height and compares
the index with it, and inserts the row in a transaction of its own. Other processes on the same database
can append in between, so the comparison may be out of date when the row is inserted.

The constraints of the table make up for that: every append is answered as if it had been made alone, at
the moment of its answer, on the list of the blocks that are stored; and whatever is read from the table is
what this list has (`SqlBlockRepository.appends_linearize`).
-/

namespace Helix

variable [Crypto] [Columns]

open Relation (ReflTransGen)

/-- `repo.get`: an index that its column does not hold cannot be looked up. -/
def Repository.get (blocks : List Block) (index : ℤ) : Except PyError (Option Block) :=
  if Columns.integer index then .ok (blocks.find? (·.index = index))
  else .error (.appError "OverflowError" "value out of range")

/-- `_BlockRow`. -/
structure BlockRow where
  index : ℤ
  hash : PyStr
  previousHash : PyStr
  timestamp : ℤ
  body : PyStr

namespace SqlBlockRepository

/-! ### Reading and writing the table -/

/-- The row of a block. -/
def row (block : Block) : Except PyError BlockRow :=
  block.hash.map fun hash =>
    ⟨block.index, hash, block.header.previousHash, block.header.timestamp, body block⟩

/-- INSERT: the columns have to hold the row, and the primary key and the hash are unique. -/
def insert (table : List BlockRow) (r : BlockRow) : Except PyError (List BlockRow) :=
  if !(Columns.integer r.index && Columns.integer r.timestamp && Columns.varchar r.hash &&
      Columns.varchar r.previousHash) then
    .error (.appError "OverflowError" "value out of range")
  else if table.any (·.index = r.index) then
    .error (.appError "IntegrityError" "UNIQUE constraint failed: blocks.index")
  else if table.any (·.hash = r.hash) then
    .error (.appError "IntegrityError" "UNIQUE constraint failed: blocks.hash")
  else .ok (table ++ [r])

/-- `height`: the largest index, or `-1`. -/
def height (table : List BlockRow) : ℤ := (table.map (·.index)).max?.getD (-1)

/-- `get`. -/
def get (table : List BlockRow) (index : ℤ) : Except PyError (Option Block) :=
  if Columns.integer index then
    match table.find? (·.index = index) with
    | none => .ok none
    | some r => (toBlock r.body).map some
  else .error (.appError "OverflowError" "value out of range")

/-- `latest`. -/
def latest (table : List BlockRow) : Except PyError (Option Block) :=
  if 0 ≤ height table then get table (height table) else .ok none

/-- `load_all`. -/
def loadAll (table : List BlockRow) : Except PyError (List Block) :=
  (table.mergeSort fun a b => a.index ≤ b.index).mapM fun r => toBlock r.body

/-! ### Appends of several processes -/

/-- A database: the table, the appends that have compared the index and not yet inserted the row, and the
appends that were answered. -/
structure Database where
  table : List BlockRow := []
  checked : List Block := []
  answers : List (Block × Except PyError Unit) := []

/-- A step of an append: it is refused for its index or goes on, its row is inserted or the insertion
raises, or its process ends. -/
inductive Database.Step (s : Database) : Database → Prop
  | refuse {b : Block} (h : b.index ≠ height s.table + 1) :
      Step s { s with
        answers := s.answers ++ [(b, .error (.appError "DuplicateBlockError"
          s!"expected block index {height s.table + 1}, got {b.index}"))] }
  | check {b : Block} (h : b.index = height s.table + 1) :
      Step s { s with checked := s.checked ++ [b] }
  | store {before after : List Block} {b : Block} {table : List BlockRow}
      (h : s.checked = before ++ b :: after) (hinsert : row b >>= insert s.table = .ok table) :
      Step s ⟨table, before ++ after, s.answers ++ [(b, .ok ())]⟩
  | raise {before after : List Block} {b : Block} {e : PyError} (h : s.checked = before ++ b :: after)
      (hinsert : row b >>= insert s.table = .error e) :
      Step s { s with
        checked := before ++ after
        answers := s.answers ++ [(b, .error e)] }
  | crash {before after : List Block} {b : Block} (h : s.checked = before ++ b :: after) :
      Step s { s with checked := before ++ after }

/-- The blocks whose appends were answered without an exception, in the order of the answers. -/
def stored (answers : List (Block × Except PyError Unit)) : List Block :=
  (answers.filter fun p => p.2.isOk).map Prod.fst

/-- The answer is the one that the append gets if it is made alone on the list of the blocks stored. -/
def Alone (blocks : List Block) (b : Block) (answer : Except PyError Unit) : Prop :=
  answer.isOk = true ↔ (Repository.append blocks b).isOk = true

/-- The texts of the blocks hold no surrogate pairs, which the bodies would join. -/
def Kept (blocks : List Block) : Prop := ∀ b ∈ blocks, ∀ s ∈ b.texts, JsonStyle.Keeps {} s

/-! ### Rows and blocks -/

section Rows

variable {blocks : List Block} {table : List BlockRow} {b : Block} {r : BlockRow}

omit [Columns] in
lemma row_eq_ok : row b = .ok r ↔ b.hash = .ok r.hash ∧ r.index = b.index ∧
    r.previousHash = b.header.previousHash ∧ r.timestamp = b.header.timestamp ∧ r.body = body b := by
  obtain ⟨index, hash, previousHash, timestamp, body⟩ := r
  unfold row
  cases b.hash with
  | error e => simp [Except.map]
  | ok h =>
    simp only [Except.map, Except.ok.injEq, BlockRow.mk.injEq]
    constructor
    · rintro ⟨rfl, rfl, rfl, rfl, rfl⟩
      exact ⟨rfl, rfl, rfl, rfl, rfl⟩
    · rintro ⟨rfl, rfl, rfl, rfl, rfl⟩
      exact ⟨rfl, rfl, rfl, rfl, rfl⟩

omit [Crypto] [Columns] in
lemma toBlock_body (hkept : ∀ s ∈ b.texts, JsonStyle.Keeps {} s) : toBlock (body b) = .ok b := by
  rw [toBlock, body, decodeJson_dumps (Block.plain_toDict hkept)]
  exact b.fromDict_toDict

lemma holds_of_row (hrow : row b = .ok r) : (Columns.integer r.index && Columns.integer r.timestamp &&
    Columns.varchar r.hash && Columns.varchar r.previousHash) = Columns.holds b.header r.hash := by
  obtain ⟨-, hindex, hprevious, htimestamp, -⟩ := row_eq_ok.mp hrow
  rw [hindex, htimestamp, hprevious]
  rfl

/-- The rows of blocks whose indices count up from zero, and which the column of the index holds. -/
structure Holds (blocks : List Block) (table : List BlockRow) : Prop where
  rows : blocks.mapM row = .ok table
  index : ∀ (i : ℕ) b, blocks[i]? = some b → b.index = i
  integer : ∀ b ∈ blocks, Columns.integer b.index = true

namespace Holds

lemma length (h : Holds blocks table) : table.length = blocks.length :=
  (forall₂_of_mapM h.rows).length_eq.symm

lemma indices (h : Holds blocks table) : table.map (·.index) = blocks.map Block.index := by
  have hall := forall₂_of_mapM h.rows
  have hindex : ∀ b r, row b = .ok r → Block.index b = r.index := fun b r hr => (row_eq_ok.mp hr).2.1.symm
  rw [← List.forall₂_eq_eq_eq, List.forall₂_map_left_iff, List.forall₂_map_right_iff]
  exact hall.flip.imp fun r b hr => (hindex b r hr).symm

lemma mem_iff (h : Holds blocks table) {index : ℤ} :
    (∃ b ∈ blocks, b.index = index) ↔ 0 ≤ index ∧ index < blocks.length := by
  constructor
  · rintro ⟨b, hb, rfl⟩
    obtain ⟨i, hi⟩ := List.mem_iff_getElem?.mp hb
    have hlt := (List.getElem?_eq_some_iff.mp hi).1
    rw [h.index i b hi]
    omega
  · rintro ⟨hnonneg, hlt⟩
    obtain ⟨i, rfl⟩ := Int.eq_ofNat_of_zero_le hnonneg
    have hi : i < blocks.length := by exact_mod_cast hlt
    exact ⟨blocks[i], List.getElem_mem hi, h.index i _ (List.getElem?_eq_getElem hi)⟩

lemma repository_height (h : Holds blocks table) : Repository.height blocks = blocks.length - 1 := by
  unfold Repository.height
  cases hlast : blocks.getLast? with
  | none =>
    rw [List.getLast?_eq_none_iff.mp hlast]
    rfl
  | some b =>
    have hne : blocks ≠ [] := by
      rintro rfl
      cases hlast
    rw [List.getLast?_eq_getElem?] at hlast
    have hpos := List.length_pos_iff.mpr hne
    rw [Option.map_some, Option.getD_some, h.index _ _ hlast]
    omega

/-- The largest index is that of the last block. -/
lemma height (h : Holds blocks table) : SqlBlockRepository.height table = blocks.length - 1 := by
  unfold SqlBlockRepository.height
  rw [h.indices]
  cases hmax : (blocks.map Block.index).max? with
  | none =>
    rw [List.max?_eq_none_iff, List.map_eq_nil_iff] at hmax
    rw [hmax]
    rfl
  | some index =>
    obtain ⟨hmem, hle⟩ := List.max?_eq_some_iff.mp hmax
    obtain ⟨b, hb, rfl⟩ := List.mem_map.mp hmem
    obtain ⟨hnonneg, hlt⟩ := h.mem_iff.mp ⟨b, hb, rfl⟩
    have htip : 0 ≤ (blocks.length : ℤ) - 1 ∧ (blocks.length : ℤ) - 1 < blocks.length := by omega
    obtain ⟨c, hc, hindex⟩ := h.mem_iff.mpr htip
    have hcle := hle _ (List.mem_map.mpr ⟨c, hc, rfl⟩)
    rw [Option.getD_some]
    omega

/-- What the list takes. -/
lemma append_isOk (h : Holds blocks table) : (Repository.append blocks b).isOk = true ↔
    b.index = blocks.length ∧ ∃ hash, b.hash = .ok hash ∧ Columns.holds b.header hash = true ∧
      ∀ c ∈ blocks, c.hash ≠ .ok hash := by
  have hnext : Repository.height blocks + 1 = blocks.length := by rw [h.repository_height]; omega
  simp only [Repository.append, hnext]
  by_cases hindex : b.index = blocks.length
  · rw [if_neg (not_not.mpr hindex), and_iff_right hindex]
    cases hhash : b.hash with
    | error e =>
      refine iff_of_false (fun hok => by cases hok) ?_
      rintro ⟨hash, heq, -⟩
      cases heq
    | ok hash =>
      have hany : (blocks.any fun c => c.hash.toOption = some hash) = true ↔
          ∃ c ∈ blocks, c.hash = .ok hash := by
        simp only [List.any_eq_true, decide_eq_true_eq]
        refine exists_congr fun c => and_congr_right fun _ => ?_
        cases c.hash <;> simp [Except.toOption]
      simp only [bind, Except.bind]
      split_ifs with hholds hdup
      · refine iff_of_false (fun hok => by cases hok) ?_
        rintro ⟨_, heq, hheld, -⟩
        cases heq
        rw [hheld] at hholds
        cases hholds
      · refine iff_of_false (fun hok => by cases hok) ?_
        rintro ⟨_, heq, -, hnone⟩
        cases heq
        obtain ⟨c, hc, hsame⟩ := hany.mp hdup
        exact hnone c hc hsame
      · refine iff_of_true rfl ⟨hash, rfl, by simpa using hholds, fun c hc hsame => ?_⟩
        exact hdup (hany.mpr ⟨c, hc, hsame⟩)
  · rw [if_pos hindex]
    exact iff_of_false (fun hok => by cases hok) fun hok => hindex hok.1

/-- A row of the index is there if and only if a block of the index is. -/
lemma any_index (h : Holds blocks table) (hrow : row b = .ok r) :
    (table.any fun x => x.index = r.index) = true ↔ ∃ c ∈ blocks, c.index = b.index := by
  have hindices := h.indices
  simp only [List.any_eq_true, decide_eq_true_eq, (row_eq_ok.mp hrow).2.1]
  constructor
  · rintro ⟨x, hx, heq⟩
    have hmem : x.index ∈ blocks.map Block.index := hindices ▸ List.mem_map_of_mem hx
    obtain ⟨c, hc, hindex⟩ := List.mem_map.mp hmem
    exact ⟨c, hc, hindex.trans heq⟩
  · rintro ⟨c, hc, heq⟩
    have hmem : c.index ∈ table.map (·.index) := hindices ▸ List.mem_map_of_mem hc
    obtain ⟨x, hx, hindex⟩ := List.mem_map.mp hmem
    exact ⟨x, hx, hindex.trans heq⟩

/-- The same for a hash. -/
lemma any_hash (h : Holds blocks table) (hash : PyStr) :
    (table.any fun x => x.hash = hash) = true ↔ ∃ c ∈ blocks, c.hash = .ok hash := by
  simp only [List.any_eq_true, decide_eq_true_eq]
  constructor
  · rintro ⟨x, hx, heq⟩
    obtain ⟨c, hc, hcx⟩ := exists_of_mem_mapM h.rows hx
    exact ⟨c, hc, heq ▸ (row_eq_ok.mp hcx).1⟩
  · rintro ⟨c, hc, heq⟩
    obtain ⟨x, hcx⟩ := exists_of_mapM_ok h.rows hc
    refine ⟨x, mem_of_mapM h.rows hc hcx, ?_⟩
    have hsame := (row_eq_ok.mp hcx).1
    rw [heq] at hsame
    exact (Except.ok.inj hsame).symm

/-- What the table takes, from an append whose index was not too large when it was compared. -/
lemma insert_eq_ok (h : Holds blocks table) (hnonneg : 0 ≤ b.index) (hle : b.index ≤ blocks.length)
    {table' : List BlockRow} : row b >>= insert table = .ok table' ↔
      ∃ r, row b = .ok r ∧ Columns.holds b.header r.hash = true ∧ table' = table ++ [r] ∧
        b.index = blocks.length ∧ ∀ c ∈ blocks, c.hash ≠ .ok r.hash := by
  cases hrow : row b with
  | error e =>
    refine iff_of_false (fun hok => by cases hok) ?_
    rintro ⟨r, hr, -⟩
    cases hr
  | ok r =>
    have hindex : (table.any fun x => x.index = r.index) = true ↔ b.index ≠ blocks.length := by
      rw [h.any_index hrow, h.mem_iff]
      omega
    have hhash := h.any_hash r.hash
    change insert table r = .ok table' ↔ _
    unfold insert
    rw [holds_of_row hrow]
    split_ifs with hholds hdup hdup'
    · refine iff_of_false (fun hok => by cases hok) ?_
      rintro ⟨_, hr, hheld, -⟩
      cases hr
      rw [hheld] at hholds
      cases hholds
    · refine iff_of_false (fun hok => by cases hok) ?_
      rintro ⟨_, -, -, -, hnext, -⟩
      exact hindex.mp hdup hnext
    · refine iff_of_false (fun hok => by cases hok) ?_
      rintro ⟨_, hr, -, -, -, hnone⟩
      cases hr
      obtain ⟨c, hc, hsame⟩ := hhash.mp hdup'
      exact hnone c hc hsame
    · constructor
      · intro hok
        refine ⟨r, rfl, by simpa using hholds, (Except.ok.inj hok).symm, ?_, fun c hc hsame => ?_⟩
        · exact not_not.mp fun hne => hdup (hindex.mpr hne)
        · exact hdup' (hhash.mpr ⟨c, hc, hsame⟩)
      · rintro ⟨_, hr, -, rfl, -⟩
        cases hr
        rfl

/-- One block more. -/
lemma concat (h : Holds blocks table) (hrow : row b = .ok r) (hindex : b.index = blocks.length)
    (hinteger : Columns.integer b.index = true) : Holds (blocks ++ [b]) (table ++ [r]) := by
  refine ⟨?_, fun i c hc => ?_, fun c hc => ?_⟩
  · rw [List.mapM_append, h.rows]
    simp [hrow, bind, Except.bind, pure, Except.pure]
  · rw [List.getElem?_append] at hc
    split_ifs at hc with hlt
    · exact h.index i c hc
    · rw [List.getElem?_singleton] at hc
      split_ifs at hc with hi
      cases hc
      rw [hindex]
      omega
  · rcases List.mem_append.mp hc with hc | hc
    · exact h.integer c hc
    · exact List.mem_singleton.mp hc ▸ hinteger

/-! ### Reading back -/

lemma get (h : Holds blocks table) (hkept : Kept blocks) (index : ℤ) :
    SqlBlockRepository.get table index = Repository.get blocks index := by
  have hall := forall₂_of_mapM h.rows
  unfold SqlBlockRepository.get Repository.get
  refine if_congr Iff.rfl ?_ rfl
  clear h
  induction hall with
  | nil => rfl
  | @cons b r blocks table hrow hall ih =>
    obtain ⟨hb, hrest⟩ := List.forall_mem_cons.mp hkept
    obtain ⟨-, hindex, -, -, hbody⟩ := row_eq_ok.mp hrow
    rw [List.find?_cons, List.find?_cons, hindex]
    by_cases heq : b.index = index
    · simp only [heq, decide_true, hbody, toBlock_body hb]
      rfl
    · simpa only [heq, decide_false] using ih hrest

/-- The block of an index is the one at that place. -/
lemma find?_natCast (h : Holds blocks table) (i : ℕ) :
    blocks.find? (fun b => b.index = (i : ℤ)) = blocks[i]? := by
  cases hfind : blocks.find? (fun b => b.index = (i : ℤ)) with
  | none =>
    refine (List.getElem?_eq_none_iff.mpr (not_lt.mp fun hlt => ?_)).symm
    have hnone := List.find?_eq_none.mp hfind _ (List.getElem_mem hlt)
    exact hnone (decide_eq_true (h.index i _ (List.getElem?_eq_getElem hlt)))
  | some b =>
    have hfound := List.find?_some (p := fun b : Block => decide (b.index = i)) hfind
    have hindex : b.index = i := of_decide_eq_true hfound
    obtain ⟨j, hj⟩ := List.mem_iff_getElem?.mp (List.mem_of_find?_eq_some hfind)
    have hji : j = i := by exact_mod_cast (h.index j b hj).symm.trans hindex
    rw [← hji, hj]

lemma latest (h : Holds blocks table) (hkept : Kept blocks) :
    SqlBlockRepository.latest table = .ok blocks.getLast? := by
  unfold SqlBlockRepository.latest
  rw [h.height]
  split_ifs with hnonneg
  · have hcast : (blocks.length : ℤ) - 1 = ((blocks.length - 1 : ℕ) : ℤ) := by omega
    have htip : 0 ≤ (blocks.length : ℤ) - 1 ∧ (blocks.length : ℤ) - 1 < blocks.length := by omega
    obtain ⟨b, hb, hindex⟩ := h.mem_iff.mpr htip
    have hinteger := h.integer b hb
    rw [hindex] at hinteger
    rw [h.get hkept, Repository.get, if_pos hinteger, hcast, h.find?_natCast, List.getLast?_eq_getElem?]
  · have hempty : blocks = [] := List.length_eq_zero_iff.mp (by omega)
    rw [hempty]
    rfl

lemma loadAll (h : Holds blocks table) (hkept : Kept blocks) :
    SqlBlockRepository.loadAll table = .ok blocks := by
  have hsorted : table.Pairwise fun a b => decide (a.index ≤ b.index) = true := by
    have hpairwise : (table.map (·.index)).Pairwise (· ≤ ·) := by
      rw [h.indices, List.pairwise_map, List.pairwise_iff_getElem]
      intro i j hi hj hij
      rw [h.index i _ (List.getElem?_eq_getElem hi), h.index j _ (List.getElem?_eq_getElem hj)]
      exact_mod_cast hij.le
    exact (List.pairwise_map.mp hpairwise).imp fun hle => decide_eq_true hle
  rw [SqlBlockRepository.loadAll, List.mergeSort_of_pairwise hsorted]
  have hall := forall₂_of_mapM h.rows
  clear h hsorted
  induction hall with
  | nil => rfl
  | @cons b r blocks table hrow hall ih =>
    obtain ⟨hb, hrest⟩ := List.forall_mem_cons.mp hkept
    rw [List.mapM_cons, (row_eq_ok.mp hrow).2.2.2.2, toBlock_body hb, ih hrest]
    rfl

end Holds

end Rows

/-! ### Every run -/

/-- What holds of the database throughout. -/
structure Stands (s : Database) : Prop where
  holds : Holds (stored s.answers) s.table
  checked : ∀ b ∈ s.checked, 0 ≤ b.index ∧ b.index ≤ (stored s.answers).length
  alone : ∀ before b answer after, s.answers = before ++ (b, answer) :: after →
    Alone (stored before) b answer

namespace Stands

variable {s s' : Database}

omit [Crypto] [Columns] in
lemma stored_concat (answers : List (Block × Except PyError Unit)) (b : Block)
    (answer : Except PyError Unit) :
    stored (answers ++ [(b, answer)]) = stored answers ++ if answer.isOk then [b] else [] := by
  unfold stored
  rw [List.filter_append, List.map_append]
  cases answer <;> rfl

omit [Crypto] [Columns] in
lemma stored_concat_error (answers : List (Block × Except PyError Unit)) (b : Block) (e : PyError) :
    stored (answers ++ [(b, .error e)]) = stored answers := by
  rw [stored_concat]
  exact List.append_nil _

/-- One answer more, which is that of the append alone. -/
lemma alone_concat (h : Stands s) {b : Block} {answer : Except PyError Unit}
    (halone : Alone (stored s.answers) b answer) {before after : List (Block × Except PyError Unit)}
    {c : Block} {answer' : Except PyError Unit}
    (heq : s.answers ++ [(b, answer)] = before ++ (c, answer') :: after) :
    Alone (stored before) c answer' := by
  rcases List.eq_nil_or_concat after with rfl | ⟨after, p, rfl⟩
  · obtain ⟨rfl, hlast⟩ := List.append_inj' heq rfl
    cases hlast
    exact halone
  · have hsplit : s.answers ++ [(b, answer)] = (before ++ (c, answer') :: after) ++ [p] := by
      rw [heq]
      simp
    exact h.alone before c answer' after (List.append_inj' hsplit rfl).1

/-- What the appends that have compared the index have found out stays true. -/
lemma of_erased (h : Stands s) {before after : List Block} {b : Block}
    (hchecked : s.checked = before ++ b :: after) :
    (0 ≤ b.index ∧ b.index ≤ (stored s.answers).length) ∧
      ∀ c ∈ before ++ after, 0 ≤ c.index ∧ c.index ≤ (stored s.answers).length := by
  refine ⟨h.checked b (by rw [hchecked]; simp), fun c hc => h.checked c ?_⟩
  rw [hchecked]
  exact List.mem_append.mpr ((List.mem_append.mp hc).imp_right (List.mem_cons_of_mem _))

lemma step (h : Stands s) (hstep : Database.Step s s') : Stands s' := by
  cases hstep with
  | @refuse b hindex =>
    have hstored := stored_concat_error s.answers b (.appError "DuplicateBlockError"
      s!"expected block index {SqlBlockRepository.height s.table + 1}, got {b.index}")
    refine ⟨hstored ▸ h.holds, hstored ▸ h.checked, fun _ _ _ _ => h.alone_concat ?_⟩
    refine iff_of_false (fun hok => by cases hok) fun hok => hindex ?_
    rw [h.holds.height, (h.holds.append_isOk.mp hok).1]
    omega
  | @check b hindex =>
    refine ⟨h.holds, fun c hc => ?_, h.alone⟩
    rcases List.mem_append.mp hc with hc | hc
    · exact h.checked c hc
    · rw [List.mem_singleton.mp hc, hindex, h.holds.height]
      change 0 ≤ _ ∧ _ ≤ ((stored s.answers).length : ℤ)
      omega
  | @store before after b table hchecked hinsert =>
    obtain ⟨hb, hrest⟩ := h.of_erased hchecked
    obtain ⟨r, hrow, hholds, rfl, hindex, hnone⟩ := (h.holds.insert_eq_ok hb.1 hb.2).mp hinsert
    have hstored : stored (s.answers ++ [(b, .ok ())]) = stored s.answers ++ [b] :=
      stored_concat s.answers b (.ok ())
    have hinteger : Columns.integer b.index = true := by
      simp only [Columns.holds, Bool.and_eq_true] at hholds
      exact hholds.1.1.1
    refine ⟨hstored ▸ h.holds.concat hrow hindex hinteger, fun c hc => ?_, fun _ _ _ _ =>
      h.alone_concat ?_⟩
    · have hle := hrest c hc
      rw [hstored, List.length_append]
      exact ⟨hle.1, by push_cast; omega⟩
    · exact iff_of_true rfl (h.holds.append_isOk.mpr
        ⟨hindex, r.hash, (row_eq_ok.mp hrow).1, hholds, hnone⟩)
  | @raise before after b e hchecked hinsert =>
    obtain ⟨hb, hrest⟩ := h.of_erased hchecked
    have hstored := stored_concat_error s.answers b e
    refine ⟨hstored ▸ h.holds, hstored ▸ hrest, fun _ _ _ _ => h.alone_concat ?_⟩
    refine iff_of_false (fun hok => by cases hok) fun hok => ?_
    obtain ⟨hindex, hash, hhash, hholds, hnone⟩ := h.holds.append_isOk.mp hok
    obtain ⟨r, hrow⟩ : ∃ r, row b = .ok r := by
      rw [row, hhash]
      exact ⟨_, rfl⟩
    have hsame := (row_eq_ok.mp hrow).1
    rw [hhash] at hsame
    cases hsame
    have hok := (h.holds.insert_eq_ok hb.1 hb.2).mpr ⟨r, hrow, hholds, rfl, hindex, hnone⟩
    rw [hinsert] at hok
    cases hok
  | crash hchecked => exact ⟨h.holds, (h.of_erased hchecked).2, h.alone⟩

end Stands

/-- In whatever order the reads and the insertions of any number of appends come, also of several processes
and with processes that end in between: every append is answered as if it had been made alone on the list
of the blocks stored, at the moment of its answer; the stored blocks have the indices 0, 1, 2 and so on; and
the height, the block of an index, the latest block and all the blocks are read from the table as this
list has them, if the texts of the blocks hold no surrogate pairs. -/
theorem appends_linearize {s : Database} (hrun : ReflTransGen Database.Step {} s) :
    (∀ before b answer after, s.answers = before ++ (b, answer) :: after →
      Alone (stored before) b answer) ∧
    (∀ (i : ℕ) b, (stored s.answers)[i]? = some b → b.index = i) ∧
    height s.table = Repository.height (stored s.answers) ∧
    (Kept (stored s.answers) →
      (∀ index, get s.table index = Repository.get (stored s.answers) index) ∧
      latest s.table = .ok (stored s.answers).getLast? ∧
      loadAll s.table = .ok (stored s.answers)) := by
  have h : Stands s := by
    induction hrun with
    | refl =>
      refine ⟨⟨rfl, fun i b hb => (by cases hb), fun b hb => absurd hb List.not_mem_nil⟩,
        fun b hb => absurd hb List.not_mem_nil, fun before b answer after heq => ?_⟩
      exact absurd heq.symm (List.append_ne_nil_of_right_ne_nil _ (List.cons_ne_nil _ _))
    | tail _ hstep ih => exact ih.step hstep
  refine ⟨h.alone, h.holds.index, ?_, fun hkept => ⟨h.holds.get hkept, h.holds.latest hkept,
    h.holds.loadAll hkept⟩⟩
  rw [h.holds.height, h.holds.repository_height]

omit [Crypto] [Columns] in
/-- Two appends of one block both compare its index before either row is inserted: the table takes the row
once. -/
theorem appends_linearize_of_race :
    letI := Crypto.checksums
    letI := Columns.sqlite
    ∃ b s, ReflTransGen Database.Step {} s ∧
      s.answers.map (fun p => (p.1, p.2.isOk)) = [(b, true), (b, false)] ∧ loadAll s.table = .ok [b] := by
  let := Crypto.checksums
  let := Columns.sqlite
  have hgenesis : ((genesisBlock .single).bind fun b => b.hash.map fun _ =>
      decide (b.index = 0 ∧ b.header.timestamp = 0 ∧ ∀ s ∈ b.texts, JsonStyle.Keeps {} s)) =
        .ok true := by
    decide +kernel
  obtain ⟨b, -, hrest⟩ := exists_of_bind_eq_ok hgenesis
  obtain ⟨hash, hhash, hfacts⟩ := exists_of_map_eq_ok hrest
  obtain ⟨hindex, htimestamp, hkept⟩ := of_decide_eq_true hfacts
  let r : BlockRow := ⟨b.index, hash, b.header.previousHash, b.header.timestamp, body b⟩
  let e : PyError := .appError "IntegrityError" "UNIQUE constraint failed: blocks.index"
  have hrow : row b = .ok r := by rw [row, hhash]; rfl
  have hzero : Columns.integer 0 = true := rfl
  have hfirst : row b >>= insert [] = .ok [r] := by
    rw [hrow]
    simp [insert, bind, Except.bind, r, hindex, htimestamp, hzero]
  have hsecond : row b >>= insert [r] = .error e := by
    rw [hrow]
    simp [insert, bind, Except.bind, e, r, hindex, htimestamp, hzero]
  have hcheck : b.index = height [] + 1 := hindex
  let raced : Database := ⟨[], [b, b], []⟩
  let first : Database := ⟨[r], [b], [(b, .ok ())]⟩
  have hchecks : ReflTransGen Database.Step {} raced :=
    .tail (.single (.check hcheck)) (.check hcheck)
  have hstore : Database.Step raced first :=
    Database.Step.store (s := raced) (show [b, b] = [] ++ b :: [b] from rfl) hfirst
  have hraise : Database.Step first ⟨[r], [], [(b, .ok ()), (b, .error e)]⟩ :=
    Database.Step.raise (s := first) (show [b] = [] ++ b :: [] from rfl) hsecond
  have hrun := (hchecks.tail hstore).tail hraise
  have hkept' : Kept [b] := fun c hc => List.mem_singleton.mp hc ▸ hkept
  exact ⟨b, _, hrun, rfl, ((appends_linearize hrun).2.2.2 hkept').2.2⟩

end SqlBlockRepository

end Helix

import Helix.Domain.Binding
import Helix.Domain.Encoding
import Mathlib.Data.List.Chain

/-!
# The in-memory chain

An append-only list of blocks that starts with a block of index 0 and in which every block extends the
one before it. The invariant is part of the structure, so an invalid chain cannot be built; an append
that fails leaves the chain as it was.

Since each header names the hash of the one before it, the hash of the last block fixes all headers
(`Blockchain.headers_eq`).
-/

namespace Helix

variable [Crypto]

/-- The block may follow `prev`: what `validate_next` checks. -/
structure Block.Extends (block prev : Block) : Prop where
  index : block.index = prev.index + 1
  previousHash : prev.hash = .ok block.header.previousHash
  root : block.hasConsistentMerkleRoot = .ok true
  timestamp : prev.header.timestamp ≤ block.header.timestamp

/-- `Blockchain`. -/
structure Blockchain where
  chain : List Block
  nonempty : chain ≠ []
  genesis : ∀ b, chain.head? = some b → b.index = 0 ∧ b.hasConsistentMerkleRoot = .ok true
  linked : chain.IsChain fun prev block => block.Extends prev

namespace Blockchain

omit [Crypto] in
/-- `ValidationError`. -/
def validationError (message : String) : PyError := .appError "ValidationError" message

/-- `Blockchain(genesis)`. -/
def new (genesis : Block) : Except PyError Blockchain :=
  if hindex : genesis.index ≠ 0 then .error (validationError "genesis block must have index 0")
  else
    match hroot : genesis.hasConsistentMerkleRoot with
    | .error e => .error e
    | .ok false => .error (validationError "genesis block has inconsistent Merkle root")
    | .ok true => .ok {
        chain := [genesis]
        nonempty := by simp
        genesis := by
          rintro b ⟨⟩
          exact ⟨not_not.mp hindex, hroot⟩
        linked := List.IsChain.singleton _ }

def latest (c : Blockchain) : Block := c.chain.getLast c.nonempty

/-- Index of the latest block. -/
def height (c : Blockchain) : ℤ := c.latest.index

/-- `validate_next`: raise unless the block may extend the chain. -/
def validateNext (c : Blockchain) (block : Block) : Except PyError Unit := do
  let prev := c.latest
  if block.index ≠ prev.index + 1 then
    .error (validationError s!"non-sequential index: expected {prev.index + 1}, got {block.index}")
  else if block.header.previousHash ≠ (← prev.hash) then
    .error (validationError "previous_hash does not match latest block hash")
  else if ¬(← block.hasConsistentMerkleRoot) then
    .error (validationError "block Merkle root inconsistent with its records")
  else if block.header.timestamp < prev.header.timestamp then
    .error (validationError "block timestamp precedes previous block")
  else .ok ()

/-- The chain with one more block. -/
def push (c : Blockchain) (block : Block) (h : block.Extends c.latest) : Blockchain where
  chain := c.chain ++ [block]
  nonempty := by simp
  genesis b hb := c.genesis b (by rwa [List.head?_append_of_ne_nil _ c.nonempty] at hb)
  linked := by
    refine c.linked.append (List.IsChain.singleton _) ?_
    rintro x hx y ⟨⟩
    rw [List.getLast?_eq_some_getLast c.nonempty] at hx
    cases hx
    exact h

lemma validateNext_eq_ok {c : Blockchain} {block : Block} :
    c.validateNext block = .ok () ↔ block.Extends c.latest := by
  constructor
  · intro h
    simp only [validateNext, bind, Except.bind] at h
    by_cases hindex : block.index = c.latest.index + 1
    · rw [if_neg (not_not.mpr hindex)] at h
      split at h
      · cases h
      · rename_i hash hhash
        by_cases hprev : block.header.previousHash = hash
        · rw [if_neg (not_not.mpr hprev)] at h
          split at h
          · cases h
          · rename_i consistent hroot
            split_ifs at h with hconsistent htime
            refine ⟨hindex, hhash.trans (by rw [hprev]), ?_, not_lt.mp htime⟩
            rw [hroot, hconsistent]
        · rw [if_pos hprev] at h
          cases h
    · rw [if_pos hindex] at h
      cases h
  · rintro ⟨hindex, hhash, hroot, htime⟩
    simp [validateNext, hindex, hhash, hroot, htime, bind, Except.bind]

/-- `append`. -/
def append (c : Blockchain) (block : Block) : Except PyError Blockchain :=
  match h : c.validateNext block with
  | .error e => .error e
  | .ok () => .ok (c.push block (validateNext_eq_ok.mp h))

/-- A sequence of calls of `append`, the failed ones caught. -/
def appends (c : Blockchain) (blocks : List Block) : Blockchain :=
  blocks.foldl (fun c block => (c.append block).toOption.getD c) c

lemma append_eq_ok {c c' : Blockchain} {block : Block} (h : c.append block = .ok c') :
    ∃ hext, c' = c.push block hext := by
  unfold append at h
  split at h
  · cases h
  · cases h
    exact ⟨_, rfl⟩

@[simp] lemma latest_push (c : Blockchain) (block : Block) (h : block.Extends c.latest) :
    (c.push block h).latest = block := by simp [latest, push]

/-! ### Replays -/

/-- A chain that starts with a genesis block and to which blocks are appended in their order. -/
def replay (genesis : Block) (blocks : List Block) : Except PyError Blockchain := do
  blocks.foldlM append (← new genesis)

omit [Crypto] in
lemma canonicalBytes_eq_error {d : List (PyStr × Json)} {err : PyError}
    (h : canonicalBytes d = .error err) : err = .unicodeEncodeError := by
  unfold canonicalBytes encode at h
  split_ifs at h
  cases h
  rfl

lemma hash_eq_error {b : Block} {err : PyError} (h : b.hash = .error err) :
    err = .unicodeEncodeError := by
  rw [Block.hash, BlockHeader.hash] at h
  cases hbytes : canonicalBytes b.header.toDict with
  | ok bytes => rw [hbytes] at h; cases h
  | error err' =>
    rw [hbytes] at h
    cases h
    exact canonicalBytes_eq_error hbytes

lemma hasConsistentMerkleRoot_eq_error {b : Block} {err : PyError}
    (h : b.hasConsistentMerkleRoot = .error err) : err = .unicodeEncodeError := by
  simp only [Block.hasConsistentMerkleRoot, Block.computedMerkleRoot, Block.leaves] at h
  cases hrecords : b.records.mapM IntegrityRecord.canonical with
  | error err' =>
    rw [hrecords] at h
    cases h
    obtain ⟨r, -, hr⟩ := exists_of_mapM_error hrecords
    exact canonicalBytes_eq_error hr
  | ok rs =>
    cases hchanges : b.validatorChanges.mapM ValidatorChange.canonical with
    | error err' =>
      rw [hrecords, hchanges] at h
      cases h
      obtain ⟨c, -, hc⟩ := exists_of_mapM_error hchanges
      exact canonicalBytes_eq_error hc
    | ok cs =>
      rw [hrecords, hchanges] at h
      cases h

/-- The last check of `validate_next` fails only for a block that is older than the latest one. -/
lemma timestamp_lt_of_validateNext {c : Blockchain} {block : Block}
    (h : c.validateNext block = .error (validationError "block timestamp precedes previous block")) :
    block.header.timestamp < c.latest.header.timestamp := by
  by_contra hle
  simp only [validateNext, bind, Except.bind, hle, if_false] at h
  by_cases hindex : block.index ≠ c.latest.index + 1
  · rw [if_pos hindex] at h
    simp only [validationError, Except.error.injEq, PyError.appError.injEq, true_and] at h
    -- the texts differ in their first letter
    have hstart := congrArg (fun s => s.toList.head?) h
    simp [toString] at hstart
  · rw [if_neg hindex] at h
    split at h
    · rename_i err hhash
      cases h
      cases hash_eq_error hhash
    · split_ifs at h
      · simp [validationError] at h
      · split at h
        · rename_i err hroot
          cases h
          cases hasConsistentMerkleRoot_eq_error hroot
        · split_ifs at h
          simp [validationError] at h

lemma foldlM_append_ne {c : Blockchain} {blocks : List Block}
    (h : (c.latest :: blocks).IsChain fun b b' => b.header.timestamp ≤ b'.header.timestamp) :
    blocks.foldlM append c ≠ .error (validationError "block timestamp precedes previous block") := by
  induction blocks generalizing c with
  | nil => exact fun hnil => (by cases hnil)
  | cons block blocks ih =>
    rw [List.isChain_cons_cons] at h
    obtain ⟨hle, hrest⟩ := h
    rw [List.foldlM_cons]
    cases happend : c.append block with
    | error err =>
      intro herr
      cases herr
      unfold append at happend
      split at happend
      · rename_i hvalidate
        cases happend
        exact absurd (timestamp_lt_of_validateNext hvalidate) (not_lt.mpr hle)
      · cases happend
    | ok c' =>
      obtain ⟨hext, rfl⟩ := append_eq_ok happend
      refine ih (c := c.push block hext) ?_
      rwa [latest_push]

/-- A replay of blocks whose timestamps do not decrease never fails on a timestamp. -/
lemma replay_ne {genesis : Block} {blocks : List Block}
    (h : (genesis :: blocks).IsChain fun b b' => b.header.timestamp ≤ b'.header.timestamp) :
    replay genesis blocks ≠ .error (validationError "block timestamp precedes previous block") := by
  unfold replay new
  split_ifs with hindex
  · simp [validationError, bind, Except.bind]
  · split
    · rename_i err hroot
      intro herr
      cases herr
      cases hasConsistentMerkleRoot_eq_error hroot
    · simp [validationError, bind, Except.bind]
    · exact foldlM_append_ne h

/-! ### The tip fixes the headers -/

/-- A block stands where its index says. -/
lemma index_getElem (c : Blockchain) {i : ℕ} (hi : i < c.chain.length) : c.chain[i].index = i := by
  induction i with
  | zero =>
    have hhead : c.chain.head? = some c.chain[0] := by
      rw [List.head?_eq_getElem?, List.getElem?_eq_getElem hi]
    exact (c.genesis _ hhead).1
  | succ i ih =>
    have hstep := List.isChain_iff_getElem.mp c.linked i hi
    rw [hstep.index, ih (by omega)]
    push_cast
    rfl

/-- The height is one less than the number of blocks. -/
lemma length_eq (c : Blockchain) : (c.chain.length : ℤ) = c.height + 1 := by
  have hpos := List.length_pos_iff.mpr c.nonempty
  have hlast := c.index_getElem (i := c.chain.length - 1) (by omega)
  rw [height, latest, List.getLast_eq_getElem, hlast]
  omega

/-- The strings hashed for the headers of a chain. -/
def headerInputs (c : Blockchain) : List Bytes := c.chain.flatMap fun b => b.header.inputs

/-- Chains whose last blocks have the same hash have the same headers throughout. -/
lemma headers_eq {c c' : Blockchain} {hash : PyStr} (h : c.latest.hash = .ok hash)
    (h' : c'.latest.hash = .ok hash) (hno : NoCollision (c.headerInputs ++ c'.headerInputs)) :
    c.chain.length = c'.chain.length ∧
      ∀ i : ℕ, c.chain[i]?.map Block.header = c'.chain[i]?.map Block.header := by
  have hheader : ∀ b ∈ c.chain, ∀ b' ∈ c'.chain, ∀ x, b.hash = .ok x → b'.hash = .ok x →
      b.header = b'.header := by
    intro b hb b' hb' x hx hx'
    refine BlockHeader.eq_of_hash hx hx' (hno.mono fun s hs => ?_)
    simp only [headerInputs, List.mem_append, List.mem_flatMap] at hs ⊢
    exact hs.imp (fun hs => ⟨b, hb, hs⟩) fun hs => ⟨b', hb', hs⟩
  have htip := hheader _ (List.getLast_mem c.nonempty) _ (List.getLast_mem c'.nonempty) _ h h'
  have hlen : c.chain.length = c'.chain.length := by
    have hheight : c.height = c'.height := congrArg BlockHeader.index htip
    have hc := c.length_eq
    have hc' := c'.length_eq
    omega
  refine ⟨hlen, fun i => ?_⟩
  by_cases hi : i < c.chain.length
  · rw [List.getElem?_eq_getElem hi, List.getElem?_eq_getElem (hlen ▸ hi), Option.map_some,
      Option.map_some]
    -- downwards from the tip: a header names the hash of the one below it
    have hdown : ∀ k, ∀ i (hi : i < c.chain.length) (hi' : i < c'.chain.length),
        i + k + 1 = c.chain.length → c.chain[i].header = c'.chain[i].header := by
      intro k
      induction k with
      | zero =>
        intro i hi hi' hk
        have hlast : c.latest = c.chain[i] := by
          rw [latest, List.getLast_eq_getElem]
          congr 1
          omega
        have hlast' : c'.latest = c'.chain[i] := by
          rw [latest, List.getLast_eq_getElem]
          congr 1
          omega
        rw [← hlast, ← hlast']
        exact htip
      | succ k ih =>
        intro i hi hi' hk
        have hup := ih (i + 1) (by omega) (by omega) (by omega)
        have hlink := List.isChain_iff_getElem.mp c.linked i (by omega)
        have hlink' := List.isChain_iff_getElem.mp c'.linked i (by omega)
        refine hheader _ (List.getElem_mem hi) _ (List.getElem_mem hi') _ hlink.previousHash ?_
        rw [hlink'.previousHash, hup]
    rw [hdown (c.chain.length - i - 1) i hi (hlen ▸ hi) (by omega)]
  · rw [List.getElem?_eq_none (by omega), List.getElem?_eq_none (by omega)]

/-- The hash of the tip fixes the whole header chain, whatever calls of `append` have succeeded or
failed. -/
theorem tip_fixes_headers (c c' : Blockchain) (blocks blocks' : List Block) {hash : PyStr}
    (h : (c.appends blocks).latest.hash = .ok hash)
    (h' : (c'.appends blocks').latest.hash = .ok hash)
    (hno : NoCollision ((c.appends blocks).headerInputs ++ (c'.appends blocks').headerInputs)) :
    (c.appends blocks).chain.length = (c'.appends blocks').chain.length ∧
      ∀ i : ℕ, (c.appends blocks).chain[i]?.map Block.header =
        (c'.appends blocks').chain[i]?.map Block.header :=
  headers_eq h h' hno

omit [Crypto] in
/-- A chain of two blocks, one of which was appended after two failed attempts. -/
theorem tip_fixes_headers_of_retry :
    letI := Crypto.checksums
    let first : Block := { Block.ofTimestamp 5 with header.index := 0 }
    let second (timestamp : ℤ) : Block := { Block.ofTimestamp timestamp with
      header.previousHash := first.hash.toOption.getD [] }
    ∃ c, new first = .ok c ∧
      (c.appends [first, second 3, second 7]).chain.length = (c.appends [second 7]).chain.length := by
  let := Crypto.checksums
  intro first second
  have hrun : (new first).map (fun c =>
      let d := c.appends [first, second 3, second 7]
      let d' := c.appends [second 7]
      (d.latest.hash.isOk, decide (d.latest.hash.toOption = d'.latest.hash.toOption),
        decide (NoCollision (d.headerInputs ++ d'.headerInputs)))) = .ok (true, true, true) := by
    decide +kernel
  obtain ⟨c, hc, heq⟩ := exists_of_map_eq_ok hrun
  simp only [Prod.mk.injEq, decide_eq_true_eq] at heq
  obtain ⟨hok, hsame, hno⟩ := heq
  obtain ⟨hash, hhash⟩ := exists_of_isOk hok
  have hhash' : (c.appends [second 7]).latest.hash = .ok hash := by
    rw [hhash] at hsame
    cases hd : (c.appends [second 7]).latest.hash with
    | error e => rw [hd] at hsame; cases hsame
    | ok x => rw [hd] at hsame; cases hsame; rfl
  exact ⟨c, hc, (tip_fixes_headers c c _ _ hhash hhash' hno).1⟩

end Blockchain

end Helix

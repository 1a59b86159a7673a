import Helix.Node.Application

/-!
# Blocks imported from peers

A node that only imports, by `ingest_block` and `_sync_locked`, has nothing to propose, so its
repository grows by blocks of its peers alone. Each of them is judged by the active set, which is the
set that the blocks before it have led to as long as every stored block was also applied. That can
only fail when its changes do not apply or the content key of one of its records cannot be computed.
-/

namespace Helix

variable [Crypto] [Columns]

open Relation (ReflTransGen)
open Eff (Leads)

/-- The set that the blocks of a chain have led to: the set of the genesis block, changed block by
block. -/
def validatorsAfter : List Block → Except PyError ValidatorSet
  | [] => deriveValidatorSet []
  | genesis :: blocks => do
    let V ← deriveValidatorSet genesis.validatorChanges
    liveValidatorSet V (blocks.map (·.validatorChanges))

omit [Crypto] [Columns] in
lemma validatorsAfter_concat {blocks : List Block} {block : Block} {V : ValidatorSet}
    (hne : blocks ≠ []) : validatorsAfter (blocks ++ [block]) = .ok V ↔
      ∃ V₀, validatorsAfter blocks = .ok V₀ ∧ applyChanges V₀ block.validatorChanges = .ok V := by
  cases blocks with
  | nil => exact absurd rfl hne
  | cons genesis blocks =>
    simp only [validatorsAfter, List.cons_append, List.map_append, List.map_cons, List.map_nil]
    cases deriveValidatorSet genesis.validatorChanges with
    | error err => simp [bind, Except.bind]
    | ok V' => exact liveValidatorSet_concat

omit [Crypto] [Columns] in
lemma exists_validatorsAfter_of_append {blocks more : List Block} (hne : blocks ≠ [])
    {V : ValidatorSet} (h : validatorsAfter (blocks ++ more) = .ok V) :
    ∃ V', validatorsAfter blocks = .ok V' := by
  induction more using List.reverseRecOn generalizing V with
  | nil =>
    rw [List.append_nil] at h
    exact ⟨V, h⟩
  | append_singleton more block ih =>
    rw [← List.append_assoc] at h
    obtain ⟨V₀, hV₀, -⟩ := (validatorsAfter_concat (by simp [hne])).mp h
    exact ih hV₀

/-- The content keys of the records of a block can be computed. -/
def Block.Keyed (block : Block) : Prop := ∀ r ∈ block.records, ∃ key, r.contentKey = .ok key

namespace Node

/-- A block that the peers have answered with extends the tip, and is appended or raises. -/
inductive Fetches (answers : List (Except PyError (Option Block))) (n : Node) : Node → Prop
  | append {b : Block} (hb : .ok (some b) ∈ answers) (htip : n.ExtendsTip b) :
      Fetches answers n (NodeM.appendAndAdvance b n).2

/-- One import: a block pushed by a peer, or a synchronisation with what the peers answer. The blocks
that extend the tip when they are looked at satisfy `ok`. -/
inductive ImportStep (ok : Block → Prop) (n : Node) : Node → Prop
  | ingestBlock {block : Block} (hblock : n.ExtendsTip block → ok block) (passes : ℕ) :
      ImportStep ok n ((Operation.ingestBlock block).run passes n)
  | syncLocked {answers : List (Except PyError (Option Block))}
      (hanswers : ∀ n', ReflTransGen (Fetches answers) n n' →
        ∀ b, .ok (some b) ∈ answers → n'.ExtendsTip b → ok b) (upTo : ℤ) :
      ImportStep ok n (NodeM.syncLocked upTo answers n).2

/-- What holds of a node that has only imported. -/
structure Imported (n : Node) : Prop where
  pending : n.pending = []
  pendingChanges : n.pendingChanges = []
  nonempty : n.repo ≠ []
  index : ∀ (i : ℕ) b, n.repo[i]? = some b → b.index = i
  link : ∀ (i : ℕ) b b', n.repo[i]? = some b → n.repo[i + 1]? = some b' →
    b.hash = .ok b'.header.previousHash
  active : ∀ V, validatorsAfter n.repo = .ok V → n.active = V
  judged : ∀ (i : ℕ) b V, n.repo[i + 1]? = some b → validatorsAfter (n.repo.take (i + 1)) = .ok V →
    verifyFinality b V = .ok true

/-! ### One block more -/

omit [Columns] in
lemma Imported.last {n : Node} (h : n.Imported) {latest : Block}
    (hlast : n.repo.getLast? = some latest) :
    n.repo[n.repo.length - 1]? = some latest ∧ latest.index = n.repo.length - 1 := by
  have hpos : 0 < n.repo.length := List.length_pos_of_ne_nil h.nonempty
  rw [List.getLast?_eq_getElem?] at hlast
  refine ⟨hlast, ?_⟩
  rw [h.index _ _ hlast]
  omega

/-- The repository with the block is a chain again, and the block was judged by the set that the
blocks before it have led to. -/
lemma Imported.store {n : Node} (h : n.Imported) {block : Block} (htip : n.ExtendsTip block)
    {repo : List Block} (hrepo : Repository.append n.repo block = .ok repo) :
    (∀ (i : ℕ) b, repo[i]? = some b → b.index = i) ∧
    (∀ (i : ℕ) b b', repo[i]? = some b → repo[i + 1]? = some b' →
      b.hash = .ok b'.header.previousHash) ∧
    (∀ (i : ℕ) b V, repo[i + 1]? = some b → validatorsAfter (repo.take (i + 1)) = .ok V →
      verifyFinality b V = .ok true) := by
  obtain ⟨rfl, hindex, -⟩ := Repository.append_eq_ok hrepo
  obtain ⟨hfinal, latest, hash, hlast, hhash, hprev⟩ := htip
  obtain ⟨hget, hlatest⟩ := h.last hlast
  have hpos : 0 < n.repo.length := List.length_pos_of_ne_nil h.nonempty
  have hcases : ∀ {i : ℕ} {b : Block}, (n.repo ++ [block])[i]? = some b →
      n.repo[i]? = some b ∨ i = n.repo.length ∧ b = block := by
    intro i b hb
    rcases lt_or_ge i n.repo.length with hi | hi
    · rw [List.getElem?_append_left hi] at hb
      exact Or.inl hb
    · rw [List.getElem?_append_right hi, List.getElem?_singleton] at hb
      split_ifs at hb with hzero
      cases hb
      exact Or.inr ⟨by omega, rfl⟩
  refine ⟨fun i b hb => ?_, fun i b b' hb hb' => ?_, fun i b V hb hV => ?_⟩
  · rcases hcases hb with hb | ⟨rfl, rfl⟩
    · exact h.index i b hb
    · rw [hindex, Repository.height, hlast]
      simp [hlatest]
  · rcases hcases hb' with hb' | ⟨hi, rfl⟩
    · rcases hcases hb with hb | ⟨rfl, -⟩
      · exact h.link i b b' hb hb'
      · simp at hb'
    · rcases hcases hb with hb | ⟨rfl, -⟩
      · obtain rfl : i = n.repo.length - 1 := by omega
        rw [hget] at hb
        cases hb
        rw [hhash, hprev]
      · omega
  · rcases hcases hb with hb | ⟨hi, rfl⟩
    · have hlt := (List.getElem?_eq_some_iff.mp hb).1
      rw [List.take_append_of_le_length hlt.le] at hV
      exact h.judged i b V hb hV
    · rw [hi, List.take_left] at hV
      rw [← h.active V hV]
      exact hfinal

lemma Imported.append {n n' : Node} (h : n.Imported) {block : Block} (hkeyed : block.Keyed)
    (htip : n.ExtendsTip block) {result : Except PyError Unit}
    (happend : n.Appends block result n') : n'.Imported := by
  have hnonempty : ∀ {repo}, Repository.append n.repo block = .ok repo → repo ≠ [] := by
    intro repo hrepo
    obtain ⟨rfl, -, -⟩ := Repository.append_eq_ok hrepo
    simp
  cases happend with
  | refused => exact h
  | stored hrepo hkey =>
    obtain ⟨r, hr, herr⟩ := hkey
    rw [h.pending] at hr
    obtain ⟨key, hkey⟩ := hkeyed r (hr.resolve_right List.not_mem_nil)
    rw [herr] at hkey
    cases hkey
  | forgotten hrepo hkeys hpending hchanges hactive =>
    obtain ⟨hindex, hlink, hjudged⟩ := h.store htip hrepo
    rw [h.pending] at hpending
    cases hpending
    refine ⟨rfl, ?_, hnonempty hrepo, hindex, hlink, fun V hV => ?_, hjudged⟩
    · simp [forgetting, storing, pruneBelow, h.pendingChanges]
    · -- the changes do not apply, so the blocks lead to no set any more
      obtain ⟨rfl, -, -⟩ := Repository.append_eq_ok hrepo
      obtain ⟨V₀, hV₀, hV⟩ := (validatorsAfter_concat h.nonempty).mp hV
      rw [← h.active V₀ hV₀, hactive] at hV
      cases hV
  | advanced hrepo hkeys hpending hactive hengine =>
    obtain ⟨hindex, hlink, hjudged⟩ := h.store htip hrepo
    rw [h.pending] at hpending
    cases hpending
    refine ⟨rfl, ?_, hnonempty hrepo, hindex, hlink, fun V hV => ?_, hjudged⟩
    · simp [forgetting, storing, pruneBelow, h.pendingChanges]
    · obtain ⟨rfl, -, -⟩ := Repository.append_eq_ok hrepo
      obtain ⟨V₀, hV₀, hV⟩ := (validatorsAfter_concat h.nonempty).mp hV
      rw [← h.active V₀ hV₀, hactive] at hV
      exact Except.ok.inj hV

/-! ### Whole runs -/

/-- A step that keeps a node that has only imported as such. -/
def KeepsImported (n n' : Node) : Prop := n.Imported → n'.Imported

omit [Columns] in
lemma Imported.congr {n n' : Node} (h : n.Imported) (hpending : n'.pending = n.pending)
    (hchanges : n'.pendingChanges = n.pendingChanges) (hrepo : n'.repo = n.repo)
    (hactive : n'.active = n.active) : n'.Imported := by
  refine ⟨hpending.trans h.pending, hchanges.trans h.pendingChanges, ?_, ?_, ?_, ?_, ?_⟩ <;>
    simp only [hrepo, hactive]
  exacts [h.nonempty, h.index, h.link, h.active, h.judged]

omit [Columns] in
/-- Without pending items a node proposes nothing. -/
lemma Imported.setPending {n : Node} (h : n.Imported) :
    Leads KeepsImported NodeM.setPending n fun result _ => ∀ r, result = some r → r = {} := by
  have hrun : ∀ e : ConsensusEngine, (Call.setPending [] []).run e =
      (.ok (), ⟨{ e with pending := [], pendingChanges := [] }, {}⟩) := by
    intro e
    simp [Call.run, Call.body, EngineM.setPending, EngineM.maybeProposeRound0, EngineM.update,
      EngineM.self, bind, Eff.modify, Eff.get, pure]
  refine NodeM.leads_get ?_
  rw [h.pending, h.pendingChanges]
  unfold NodeM.callEngine
  refine NodeM.leads_get ?_
  cases n.engine with
  | none => exact Leads.pure fun r hr => by cases hr
  | some e =>
    simp only [hrun]
    refine Leads.modify_bind (fun h => h.congr rfl rfl rfl rfl) (Leads.lift_bind fun _ _ => ?_)
    refine Leads.modify_bind (fun h => h.congr rfl rfl rfl rfl) (Leads.pure fun r hr => ?_)
    exact (Option.some.inj hr).symm

lemma applyLocked_leads {R : Node → Node → Prop} {n : Node} (passes : ℕ) {result : Option StepResult}
    (hresult : ∀ r, result = some r → r = {}) :
    Leads R (NodeM.applyLocked passes result) n fun _ _ => True := by
  cases passes with
  | zero => exact Leads.pure trivial
  | succ passes =>
    cases result with
    | none => exact Leads.pure trivial
    | some r =>
      rw [hresult r rfl]
      exact Leads.pure trivial

lemma keepsImported_append {n : Node} {block : Block} (hkeyed : block.Keyed)
    (htip : n.ExtendsTip block) : n.KeepsImported (NodeM.appendAndAdvance block n).2 :=
  fun h => h.append hkeyed htip (NodeM.appendAndAdvance_appends n block)

lemma Imported.step {n n' : Node} (h : n.Imported) (hstep : ImportStep Block.Keyed n n') :
    n'.Imported := by
  have hkeeps : ∀ {n n' : Node}, ReflTransGen KeepsImported n n' → n.Imported → n'.Imported := by
    intro n n' hpath h
    induction hpath with
    | refl => exact h
    | tail _ hkeep ih => exact hkeep ih
  cases hstep with
  | @ingestBlock block hblock passes =>
    refine hkeeps (Leads.path (Q := fun _ _ => True) ?_) h
    refine Leads.bind NodeM.extendsTip_leads fun ok n' _ ⟨hn', hok⟩ => ?_
    subst hn'
    refine Leads.ite (fun htrue => ?_) fun _ => Leads.pure trivial
    have hstep := keepsImported_append (hblock (hok htrue)) (hok htrue)
    refine Leads.bind (Q := fun _ _ => True) ⟨.single hstep, fun _ _ => trivial⟩ fun _ n₁ hpath _ => ?_
    have h₁ := hkeeps hpath h
    have hemit : KeepsImported n₁ { n₁ with outbox := n₁.outbox ++ [.committed block] } :=
      fun h => h.congr rfl rfl rfl rfl
    refine Leads.modify_bind hemit ?_
    exact Leads.bind (hemit h₁).setPending fun _ _ _ hr => applyLocked_leads passes hr
  | @syncLocked answers hanswers upTo =>
    have hpath : ReflTransGen (Fetches answers) n (NodeM.syncLocked upTo answers n).2 :=
      Leads.path (Q := fun _ _ => True) (NodeM.syncLocked_leads fun b n hb htip => .append hb htip)
    generalize (NodeM.syncLocked upTo answers n).2 = n' at hpath
    induction hpath with
    | refl => exact h
    | tail hreached hfetch ih =>
      cases hfetch with
      | append hb htip => exact keepsImported_append (hanswers _ hreached _ hb htip) htip ih

/-- A node on a genesis block. -/
lemma Imported.init {privateKey : PrivateKey} {validators : ValidatorSet} {blocks : List Block}
    {journalStore : JournalStore} {nowMs : ℕ → ℤ} {n : Node}
    (hblocks : blocks = [] ∨ ∃ genesis, blocks = [genesis] ∧ genesis.index = 0)
    (h : Node.init privateKey validators blocks journalStore nowMs = .ok n) : n.Imported := by
  obtain ⟨repo, active, engine, hrepo, hactive, -, rfl⟩ := Node.init_eq_ok h
  obtain ⟨genesis, rfl, hindex⟩ : ∃ genesis, repo = [genesis] ∧ genesis.index = 0 := by
    rcases hrepo with rfl | ⟨genesis, hgenesis, happend⟩
    · rcases hblocks with rfl | hblocks
      · cases hactive
      · exact hblocks
    · obtain ⟨-, hzero, -⟩ := Block.create_consistent hgenesis
      obtain ⟨rfl, hindex, -⟩ := Repository.append_eq_ok happend
      rcases hblocks with rfl | ⟨first, rfl, hfirst⟩
      · exact ⟨genesis, rfl, hzero⟩
      · -- a repository that holds a block gets no other genesis block
        rw [hzero, Repository.height] at hindex
        simp [hfirst] at hindex
  refine ⟨rfl, rfl, by simp, fun i b hb => ?_, fun i b b' hb hb' => ?_, fun V hV => ?_, fun i b V hb => ?_⟩
  · rw [List.getElem?_singleton] at hb
    split_ifs at hb with hi
    cases hb
    simp [hi, hindex]
  · simp at hb'
  · have hderive : deriveValidatorSet genesis.validatorChanges = .ok V := by
      cases hgenesis : deriveValidatorSet genesis.validatorChanges with
      | error err => simp [validatorsAfter, hgenesis, bind, Except.bind] at hV
      | ok V' =>
        simp only [validatorsAfter, hgenesis, bind, Except.bind] at hV
        exact hV
    simp only [List.flatMap_singleton, hderive] at hactive
    exact (Except.ok.inj hactive).symm
  · simp at hb

lemma Imported.of_run {privateKey : PrivateKey} {validators : ValidatorSet} {blocks : List Block}
    {journalStore : JournalStore} {nowMs : ℕ → ℤ} {n₀ n : Node}
    (hblocks : blocks = [] ∨ ∃ genesis, blocks = [genesis] ∧ genesis.index = 0)
    (hinit : Node.init privateKey validators blocks journalStore nowMs = .ok n₀)
    (hrun : ReflTransGen (ImportStep Block.Keyed) n₀ n) : n.Imported := by
  induction hrun with
  | refl => exact .init hblocks hinit
  | tail _ hstep ih => exact ih.step hstep

/-- A node on a genesis block that only imports blocks: if the content keys of their records can be
computed, and as long as the changes of the stored blocks apply one after the other, its repository
is a gapless chain of linked blocks, each judged by the set that the blocks before it have led to. -/
theorem imported_chain {privateKey : PrivateKey} {validators : ValidatorSet} {blocks : List Block}
    {journalStore : JournalStore} {nowMs : ℕ → ℤ} {n₀ n : Node}
    (hblocks : blocks = [] ∨ ∃ genesis, blocks = [genesis] ∧ genesis.index = 0)
    (hinit : Node.init privateKey validators blocks journalStore nowMs = .ok n₀)
    (hrun : ReflTransGen (ImportStep Block.Keyed) n₀ n)
    (happly : ∃ V, validatorsAfter n.repo = .ok V) :
    (∀ (i : ℕ) b, n.repo[i]? = some b → b.index = i) ∧
    (∀ (i : ℕ) b b', n.repo[i]? = some b → n.repo[i + 1]? = some b' →
      b.hash = .ok b'.header.previousHash) ∧
    (∀ (i : ℕ) b, n.repo[i + 1]? = some b → ∃ V,
      validatorsAfter (n.repo.take (i + 1)) = .ok V ∧ verifyFinality b V = .ok true) := by
  have h : n.Imported := .of_run hblocks hinit hrun
  obtain ⟨V, hV⟩ := happly
  refine ⟨h.index, h.link, fun i b hb => ?_⟩
  have htake : n.repo.take (i + 1) ≠ [] := by
    rw [Ne, List.take_eq_nil_iff]
    exact fun hnil => hnil.elim (Nat.succ_ne_zero i) h.nonempty
  rw [← List.take_append_drop (i + 1) n.repo] at hV
  obtain ⟨V', hV'⟩ := exists_validatorsAfter_of_append htake hV
  exact ⟨V', hV', h.judged i b V' hb hV'⟩

omit [Crypto] [Columns] in
lemma keyed_joining_leaving :
    letI := Crypto.checksums
    Block.joining.Keyed ∧ Block.leaving.Keyed := by
  let := Crypto.checksums
  have hkeys : (∀ r ∈ Block.joining.records, r.contentKey.isOk = true) ∧
      ∀ r ∈ Block.leaving.records, r.contentKey.isOk = true := by
    decide +kernel
  exact ⟨fun r hr => exists_of_isOk (hkeys.1 r hr), fun r hr => exists_of_isOk (hkeys.2 r hr)⟩

omit [Crypto] [Columns] in
/-- A follower fetches the block by which a second validator joins, and is pushed the one by which the
first leaves; the two are judged by different sets. -/
theorem imported_chain_of_handover :
    letI := Crypto.checksums
    letI := Columns.sqlite
    ∃ n₀ n₁ n, Node.init (seedKey 0xcc) .single [] .null (fun i => i) = .ok n₀ ∧
      (NodeM.syncLocked 2 [.ok (some .joining)] n₀).2 = n₁ ∧
      (Operation.ingestBlock .leaving).run 1 n₁ = n ∧
      (n.repo.length, n.active.validators) = (3, [seedPublic 0xbb]) ∧
      ∀ (i : ℕ) b, n.repo[i + 1]? = some b → ∃ V,
        validatorsAfter (n.repo.take (i + 1)) = .ok V ∧ verifyFinality b V = .ok true := by
  let := Crypto.checksums
  let := Columns.sqlite
  have hrun : (Node.init (seedKey 0xcc) .single [] .null fun i => i).map (fun n₀ =>
      let n := (Operation.ingestBlock .leaving).run 1 (NodeM.syncLocked 2 [.ok (some .joining)] n₀).2
      ((n.repo.length, n.active.validators), (validatorsAfter n.repo).isOk)) =
      .ok ((3, [seedPublic 0xbb]), true) := by
    decide +kernel
  obtain ⟨n₀, hinit, hn₀⟩ := exists_of_map_eq_ok hrun
  obtain ⟨hstored, hisOk⟩ := Prod.mk.inj hn₀
  generalize hn₁ : (NodeM.syncLocked 2 [.ok (some .joining)] n₀).2 = n₁ at hstored hisOk
  generalize hn : (Operation.ingestBlock .leaving).run 1 n₁ = n at hstored hisOk
  refine ⟨n₀, n₁, n, hinit, hn₁, hn, hstored, ?_⟩
  have hfetched : ImportStep Block.Keyed n₀ n₁ := by
    rw [← hn₁]
    refine .syncLocked (fun n' _ b hb _ => ?_) 2
    rw [List.mem_singleton, Except.ok.injEq, Option.some.injEq] at hb
    rw [hb]
    exact keyed_joining_leaving.1
  have hpushed : ImportStep Block.Keyed n₁ n := by
    rw [← hn]
    exact .ingestBlock (fun _ => keyed_joining_leaving.2) 1
  exact (imported_chain (Or.inl rfl) hinit (.tail (.single hfetched) hpushed) (exists_of_isOk hisOk)).2.2

omit [Crypto] [Columns] in
/-- The first pushed block hands the set over to another validator, and a record in it has a name
that cannot be encoded: the block is stored, but its changes are not applied. The next block, sealed
by the validator that has left, is accepted, though the stored changes apply one after the other. -/
theorem imported_under_stale_set :
    letI := Crypto.checksums
    letI := Columns.sqlite
    let record : IntegrityRecord := ⟨[.ofNat 0xD800], [], [], [], .OK, 0, [], []⟩
    let first := { Block.sealedAfterGenesis with
      records := [record]
      validatorChanges := [⟨.ADD, (seedPublic 0xbb).toHex⟩, ⟨.REMOVE, (seedPublic 0xaa).toHex⟩] }
    let second := Block.sealedBy 0xaa
      { header := ⟨2, first.hash.toOption.getD [], 0, toHex (merkleRoot []), []⟩ }
    (Node.init (seedKey 0xcc) .single [] .null fun i => i).map (fun n₀ =>
      let n := n₀.play 1 [.ingestBlock first, .ingestBlock second]
      (n.repo.length, (validatorsAfter n.repo).isOk,
        (validatorsAfter (n.repo.take 2)).bind (verifyFinality second))) =
        .ok (3, true, .ok false) := by
  decide +kernel

end Node

end Helix

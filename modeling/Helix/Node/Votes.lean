import Helix.Consensus.Bodies
import Helix.Node.Moves

/-!
# What a node votes for

The blocks that a node proposes or PREPAREs are judged by the set that is active at their height: do
their changes apply to it, are their records signed by members of it. The code looks at changes and
records one by one when they come in, but neither at the whole of the pending items when a block is
built of them nor at the contents of a peer's proposal. `voted_changes_apply` and
`voted_records_verify` say what has to hold of these for the votes to be good.
-/

namespace Helix

variable [Crypto] [Columns]

open Relation (ReflTransGen)

/-- A property of blocks under a validator set, with what it asks of the pending items. -/
structure BlockLaw where
  block : ValidatorSet → Block → Prop
  items : ValidatorSet → List IntegrityRecord → List ValidatorChange → Prop
  addCommitSignature : ∀ {V : ValidatorSet} {b : Block} (key : PublicKey) (signature : Bytes),
    block V b → block V (b.addCommitSignature key signature)
  create : ∀ {V : ValidatorSet} {index timestamp : ℤ} {previousHash proposer : PyStr}
    {records : List IntegrityRecord} {changes : List ValidatorChange} {b : Block},
    items V records changes →
    Block.create index previousHash timestamp proposer records changes = .ok b → block V b

namespace BlockLaw

variable {Λ : BlockLaw} {V V' : ValidatorSet} {height : ℤ}

/-- The law for one height and its set. A journal has no rows of later heights, and its rows of this
height are about lawful blocks. -/
def rule (Λ : BlockLaw) (V : ValidatorSet) (height : ℤ) : BlockRule where
  block := Λ.block V
  row row := row.height ≤ height ∧ (row.height = height →
    ∀ block cert, row.entry = .prepared block cert → Λ.block V block)
  items := Λ.items V
  addCommitSignature := Λ.addCommitSignature

omit [Columns] in
lemma builds (e : ConsensusEngine) : e.Builds (Λ.rule V height) :=
  fun _ _ _ _ hitems hcreate => Λ.create hitems hcreate

omit [Columns] in
/-- The rows of a journal stay lawful when the next height is reached. -/
lemma row_next {row : WalRow} (h : (Λ.rule V height).row row) : (Λ.rule V' (height + 1)).row row :=
  ⟨h.1.trans (lt_add_one height).le, fun heq => absurd (heq ▸ h.1) (lt_add_one height).not_ge⟩

variable (V') in
omit [Columns] in
lemma store_next {s : JournalStore} (hs : s.Carries (Λ.rule V height)) :
    s.Carries (Λ.rule V' (height + 1)) :=
  fun table ht row hrow => row_next (hs table ht row hrow)

omit [Columns] in
lemma engine_next {e : ConsensusEngine} (he : e.Carries (Λ.rule V height)) :
    e.Carries (Λ.rule V (height + 1)) := by
  refine ⟨he.proposal, he.lock, he.changes, ⟨he.journal.prepared, fun row hrow => ?_,
    fun view hview r entry hentry => ?_⟩⟩
  · exact row_next (he.journal.table row hrow)
  · exact row_next (he.journal.writes view hview r entry hentry)

end BlockLaw

namespace EngineCall

/-- What comes with the call from outside is lawful. -/
def Clean (Λ : BlockLaw) (x : EngineCall) : Prop :=
  x.call.Clean (Λ.rule x.active x.engine.height) x.engine

/-- The blocks that the call proposes or PREPAREs are lawful. -/
def Votes (Λ : BlockLaw) (x : EngineCall) : Prop :=
  ∀ b, x.call.VotesFor x.engine b → Λ.block x.active b

end EngineCall

namespace Node

variable {Λ : BlockLaw}

/-- The engine and the journal of a node hold lawful blocks only. -/
structure Obeys (Λ : BlockLaw) (n : Node) : Prop where
  engine : ∀ e ∈ n.engine, e.Carries (Λ.rule n.active (n.height + 1))
  store : n.journalStore.Carries (Λ.rule n.active (n.height + 1))

lemma height_eq_of_append {n : Node} {block : Block} {repo : List Block}
    (h : Repository.append n.repo block = .ok repo) : Repository.height repo = n.height + 1 := by
  obtain ⟨rfl, hindex, -⟩ := Repository.append_eq_ok h
  simpa [Repository.height, height] using hindex

omit [Columns] in
lemma obeys_newEngine {n : Node} (hn : n.journalStore.Carries (Λ.rule n.active (n.height + 1)))
    {engine : Option ConsensusEngine} (h : n.newEngine = .ok engine) :
    ∀ e ∈ engine, e.Carries (Λ.rule n.active (n.height + 1)) := by
  intro e he
  rcases newEngine_eq_ok h with rfl | ⟨-, latest, hash, hlast, -, rfl⟩
  · cases he
  · cases he
    have hheight : latest.index + 1 = n.height + 1 := by
      rw [height, Repository.height, hlast]
      rfl
    refine .initial (hn.view ?_ ?_) _ _ _ _ _
    · exact fun r block cert hrow => hrow.2 hheight block cert rfl
    · exact fun r entry hentry => ⟨hheight.le, fun _ => hentry⟩

lemma Obeys.append {n n' : Node} (h : n.Obeys Λ) {block : Block} {result : Except PyError Unit}
    (happend : n.Appends block result n') : n'.Obeys Λ := by
  cases happend with
  | refused => exact h
  | stored hrepo =>
    have hheight := height_eq_of_append hrepo
    refine ⟨fun e he => ?_, ?_⟩ <;> simp only [height, hheight]
    · exact BlockLaw.engine_next (h.engine e he)
    · exact BlockLaw.store_next _ h.store
  | @forgotten repo keys pending err hrepo =>
    have hheight : (n.forgetting block repo pending keys).height = n.height + 1 :=
      height_eq_of_append hrepo
    have hstore := BlockLaw.store_next n.active (h.store.pruneBelow (block.index + 1))
    refine ⟨fun e he => ?_, ?_⟩
    · obtain ⟨e', he', rfl⟩ := Option.map_eq_some_iff.mp he
      have hcarries := BlockLaw.engine_next (h.engine e' he')
      rw [hheight]
      exact ⟨hcarries.proposal, hcarries.lock, hcarries.changes, hstore.refresh hcarries.journal⟩
    · rw [hheight]
      exact hstore
  | @advanced repo keys pending active engine hrepo hkeys hpending hactive hengine =>
    have hheight : ({ n.forgetting block repo pending keys with active } : Node).height =
        n.height + 1 := height_eq_of_append hrepo
    have hstore := BlockLaw.store_next active (h.store.pruneBelow (block.index + 1))
    rw [← hheight] at hstore
    exact ⟨obeys_newEngine (n := { n.forgetting block repo pending keys with active }) hstore hengine,
      hstore⟩

lemma Obeys.move {o : Operation} {n n' : Node} (hmove : NodeMove o n n')
    (hclean : ∀ x ∈ n'.calls, x.Clean Λ) (h : n.Obeys Λ) (hvotes : ∀ x ∈ n.calls, x.Votes Λ) :
    n'.Obeys Λ ∧ ∀ x ∈ n'.calls, x.Votes Λ := by
  cases hmove with
  | @call e c he hc returned hreturned =>
    have hcarries := h.engine e he
    have hcall : c.Clean (Λ.rule n.active (n.height + 1)) e := by
      have hx := hclean ⟨n.active, e, c⟩ (List.mem_append_right _ List.mem_cons_self)
      exact ⟨hx.items, hx.proposed, hx.attached⟩
    have hframe := (c.run_moves e).carries hcall (BlockLaw.builds e) hcarries
    refine ⟨⟨fun e' he' => ?_, h.store.sync hframe.engine.journal⟩, fun x hx => ?_⟩
    · cases he'
      exact hframe.engine
    · rcases List.mem_append.mp hx with hx | hx
      · exact hvotes x hx
      · rw [List.mem_singleton.mp hx]
        exact fun b hb => hb.carries hcall (BlockLaw.builds e) hcarries
  | append happend =>
    refine ⟨h.append happend, ?_⟩
    cases happend <;> exact hvotes
  | reset hreturned hfinal hengine =>
    exact ⟨⟨obeys_newEngine (n := { n with }) h.store hengine, h.store⟩, hvotes⟩
  | _ => exact ⟨⟨h.engine, h.store⟩, hvotes⟩

lemma Obeys.init {privateKey : PrivateKey} {validators : ValidatorSet} {blocks : List Block}
    {journalStore : JournalStore} {nowMs : ℕ → ℤ} {n : Node}
    (hstore : journalStore.Carries (Λ.rule n.active (n.height + 1)))
    (h : Node.init privateKey validators blocks journalStore nowMs = .ok n) : n.Obeys Λ := by
  obtain ⟨repo, active, engine, -, -, hengine, rfl⟩ := Node.init_eq_ok h
  exact ⟨obeys_newEngine (n := { privateKey, active, repo, journalStore, nowMs }) hstore hengine,
    hstore⟩

/-! ### Runs -/

/-- One step of a node that keeps its set: a method, or a restart that replays to the set that was
active. -/
inductive Continues (n : Node) : Node → Prop
  | operation (o : Operation) (passes : ℕ) : Continues n (o.run passes n)
  | restart {validators : ValidatorSet} {nowMs : ℕ → ℤ} {n' : Node}
      (h : Node.init n.privateKey validators n.repo n.journalStore nowMs = .ok n')
      (hactive : n'.active = n.active) : Continues n { n' with calls := n.calls }

lemma Continues.play (os : List Operation) (passes : ℕ) (n : Node) :
    ReflTransGen Continues n (n.play passes os) := by
  induction os generalizing n with
  | nil => exact .refl
  | cons o os ih => exact .head (.operation o passes) (ih _)

lemma Obeys.restart {n n' : Node} {validators : ValidatorSet} {nowMs : ℕ → ℤ} (h : n.Obeys Λ)
    (hinit : Node.init n.privateKey validators n.repo n.journalStore nowMs = .ok n')
    (hactive : n'.active = n.active) : n'.Obeys Λ := by
  refine .init ?_ hinit
  obtain ⟨repo, active, engine, hrepo, -, -, rfl⟩ := Node.init_eq_ok hinit
  cases hactive
  rcases hrepo with rfl | ⟨genesis, -, happend⟩
  · exact h.store
  · have hheight : Repository.height repo = n.height + 1 := height_eq_of_append happend
    simp only [height, hheight]
    exact BlockLaw.store_next _ h.store

/-- In a run whose engine calls bring nothing unlawful from outside, all votes are lawful. -/
lemma Obeys.run {n₀ n : Node} (h₀ : n₀.Obeys Λ) (hcalls : n₀.calls = [])
    (hrun : ReflTransGen Continues n₀ n) (hclean : ∀ x ∈ n.calls, x.Clean Λ) :
    n.Obeys Λ ∧ ∀ x ∈ n.calls, x.Votes Λ := by
  induction hrun with
  | refl =>
    refine ⟨h₀, fun x hx => ?_⟩
    rw [hcalls] at hx
    cases hx
  | @tail n _ _ hstep ih =>
    cases hstep with
    | operation o passes =>
      refine Operation.run_keeps (P := fun n => (∀ x ∈ n.calls, x.Clean Λ) → n.Obeys Λ ∧
        ∀ x ∈ n.calls, x.Votes Λ) (fun n n' hmove ih' hclean => ?_) passes ih hclean
      obtain ⟨hobeys, hvotes⟩ := ih' fun x hx => hclean x (hmove.calls_subset hx)
      exact hobeys.move hmove hclean hvotes
    | restart hinit hactive =>
      obtain ⟨hobeys, hvotes⟩ := ih hclean
      have hobeys' := hobeys.restart hinit hactive
      exact ⟨⟨hobeys'.engine, hobeys'.store⟩, hvotes⟩

end Node

namespace IntegrityRecord

/-- The record is signed by the key that it names as its observer. -/
structure SignedBy (r : IntegrityRecord) (key : PublicKey) : Prop where
  observer : PublicKey.fromHex r.observer = .ok key
  named : ¬(r.observer = [] ∨ r.signature = [])
  signature : ∃ bytes message, fromHex r.signature = .ok bytes ∧ r.signingBytes = .ok message ∧
    key.verify bytes message = true

/-- An observation of nothing, for concrete runs. -/
def empty : IntegrityRecord := ⟨[], [], [], [], .OK, 0, [], []⟩

omit [Columns] in
/-- Which set a record is verified against matters for its observer only. -/
lemma verify_eq_ok {r : IntegrityRecord} {V : ValidatorSet} :
    r.verify V = .ok true ↔ ∃ key, r.SignedBy key ∧ key ∈ V.validators := by
  unfold verify
  constructor
  · intro h
    by_cases hnamed : r.observer = [] ∨ r.signature = []
    · rw [if_pos hnamed] at h
      cases h
    rw [if_neg hnamed] at h
    split at h
    · cases h
    · rename_i key hkey
      by_cases hmem : V.contains key = true
      swap
      · rw [if_neg hmem] at h
        cases h
      rw [if_pos hmem] at h
      cases hbytes : fromHex r.signature with
      | error err => rw [hbytes] at h; cases h
      | ok bytes =>
        cases hmessage : r.signingBytes with
        | error err => simp only [hbytes, hmessage, bind, Except.bind] at h; cases h
        | ok message =>
          simp only [hbytes, hmessage, bind, Except.bind, pure, Except.pure, Except.ok.injEq] at h
          exact ⟨key, ⟨hkey, hnamed, bytes, message, hbytes, hmessage, h⟩, (V.contains_iff key).mp hmem⟩
  · rintro ⟨key, ⟨hkey, hnamed, bytes, message, hbytes, hmessage, h⟩, hmem⟩
    rw [if_neg hnamed]
    simp only [hkey, (V.contains_iff key).mpr hmem, if_true, hbytes, hmessage, bind, Except.bind, h]
    rfl

end IntegrityRecord

/-- The law that the records of a block are signed by members of the set. -/
def BlockLaw.authentic : BlockLaw where
  block V b := ∀ r ∈ b.records, r.verify V = .ok true
  items V records _ := ∀ r ∈ records, r.verify V = .ok true
  addCommitSignature _ _ h := h
  create hitems hcreate := by
    rw [(Block.create_items hcreate).1]
    exact hitems

omit [Crypto] [Columns] in
/-- The records that the node hands to its engine are its pending ones. -/
lemma Operation.Calls.items {o : Operation} {n : Node} {e : ConsensusEngine} {c : Call}
    (hc : o.Calls n e c) {p : List IntegrityRecord × List ValidatorChange} (hp : p ∈ c.items) :
    p.1 = n.pending := by
  cases hc with
  | setPending => cases hp; rfl
  | onTimeout => cases hp
  | handle => cases hp

namespace Node

/-- What waits for a block satisfies `P`, in the mempool and in the engine. -/
structure Waiting (P : IntegrityRecord → Prop) (n : Node) : Prop where
  pending : ∀ r ∈ n.pending, P r
  engine : ∀ e ∈ n.engine, ∀ r ∈ e.pending, P r

omit [Columns] in
lemma waiting_newEngine {P : IntegrityRecord → Prop} {n : Node} {engine : Option ConsensusEngine}
    (h : n.newEngine = .ok engine) : ∀ e ∈ engine, ∀ r ∈ e.pending, P r := by
  intro e he r hr
  rcases newEngine_eq_ok h with rfl | ⟨-, latest, hash, -, -, rfl⟩
  · cases he
  · cases he
    cases hr

namespace Waiting

variable {P : IntegrityRecord → Prop} {n n' : Node}

lemma append {block : Block} {result : Except PyError Unit} (happend : n.Appends block result n')
    (h : n.Waiting P) : n'.Waiting P := by
  cases happend with
  | refused => exact h
  | stored => exact ⟨h.pending, h.engine⟩
  | forgotten hrepo hkeys hpending =>
    refine ⟨fun r hr => h.pending r (mem_filterM hpending hr).1, fun e he => ?_⟩
    obtain ⟨e', he', rfl⟩ := Option.map_eq_some_iff.mp he
    exact h.engine e' he'
  | advanced hrepo hkeys hpending hactive hengine =>
    exact ⟨fun r hr => h.pending r (mem_filterM hpending hr).1, waiting_newEngine hengine⟩

variable {o : Operation} {e : ConsensusEngine} {c : Call}

/-- What a call can propose has waited. -/
lemma itemsAt (h : n.Waiting P) (he : n.engine = some e) (hc : o.Calls n e c) :
    ∀ r ∈ (c.itemsAt e).1, P r := by
  intro r hr
  rcases c.itemsAt_or e with heq | hmem
  · rw [heq] at hr
    exact h.engine e he r hr
  · apply h.pending
    rw [← hc.items hmem]
    exact hr

/-- What the engine has after a call has waited. -/
lemma pending_run (h : n.Waiting P) (he : n.engine = some e) (hc : o.Calls n e c) :
    ∀ r ∈ (c.run e).2.engine.pending, P r := by
  intro r hr
  rcases (c.run_moves e).pending with heq | ⟨p, hp, heq⟩
  · exact h.engine e he r (heq ▸ hr)
  · rw [hc.items hp] at heq
    exact h.pending r (heq ▸ hr)

end Waiting

end Node

/-- The pending records, and those that the engine could propose in a call, are signed by their
observers. -/
structure Node.Signed (n : Node) : Prop extends Node.Waiting (fun r => ∃ key, r.SignedBy key) n where
  calls : ∀ x ∈ n.calls, ∀ r ∈ (x.call.itemsAt x.engine).1, ∃ key, r.SignedBy key

lemma Node.Signed.move {o : Operation} {n n' : Node} (hmove : NodeMove o n n') (h : n.Signed) :
    n'.Signed := by
  obtain ⟨hwaiting, hcalls⟩ := h
  cases hmove with
  | @call e c he hc =>
    refine ⟨⟨hwaiting.pending, fun e' he' => ?_⟩, fun x hx => ?_⟩
    · cases he'
      exact hwaiting.pending_run he hc
    · rcases List.mem_append.mp hx with hx | hx
      · exact hcalls x hx
      · rw [List.mem_singleton.mp hx]
        exact hwaiting.itemsAt he hc
  | append happend =>
    refine ⟨hwaiting.append happend, ?_⟩
    cases happend <;> exact hcalls
  | reset hreturned hfinal hengine =>
    exact ⟨⟨hwaiting.pending, waiting_newEngine (n := { n with }) hengine⟩, hcalls⟩
  | enqueueRecords hverify =>
    refine ⟨⟨fun r hr => ?_, hwaiting.engine⟩, hcalls⟩
    rcases List.mem_append.mp hr with hr | hr
    · exact hwaiting.pending r hr
    · obtain ⟨key, hkey, -⟩ := IntegrityRecord.verify_eq_ok.mp (hverify r hr)
      exact ⟨key, hkey⟩
  | _ => exact ⟨⟨hwaiting.pending, hwaiting.engine⟩, hcalls⟩

lemma Node.Signed.init {privateKey : PrivateKey} {validators : ValidatorSet} {blocks : List Block}
    {journalStore : JournalStore} {nowMs : ℕ → ℤ} {n : Node}
    (h : Node.init privateKey validators blocks journalStore nowMs = .ok n) : n.Signed := by
  obtain ⟨repo, active, engine, -, -, hengine, rfl⟩ := Node.init_eq_ok h
  refine ⟨⟨fun r hr => (by cases hr), ?_⟩, fun x hx => (by cases hx)⟩
  apply waiting_newEngine
  exact hengine

lemma Node.Signed.run {n₀ n : Node} (h₀ : n₀.Signed) (hrun : ReflTransGen Node.Continues n₀ n) :
    n.Signed := by
  induction hrun with
  | refl => exact h₀
  | @tail n _ _ hstep ih =>
    cases hstep with
    | operation o passes => exact Operation.run_keeps (fun _ _ hmove h => h.move hmove) passes ih
    | restart hinit =>
      have hwaiting := (Node.Signed.init hinit).toWaiting
      exact ⟨⟨hwaiting.pending, hwaiting.engine⟩, ih.calls⟩

/-- The observers of the pending records are validators when the engine can propose them, and the records
of the proposals that are accepted and of the blocks attached to ROUND_CHANGEs that are stored verify. -/
structure EngineCall.Observed (x : EngineCall) : Prop where
  items : x.call.ProposesItems x.engine → ∀ r ∈ (x.call.itemsAt x.engine).1, ∀ key,
    PublicKey.fromHex r.observer = .ok key → key ∈ x.active.validators
  proposed : ∀ b, x.call.Accepts x.engine b → ∀ r ∈ b.records, r.verify x.active = .ok true
  attached : ∀ m, x.call.Stores x.engine m → ∀ b ∈ m.block, ∀ r ∈ b.records,
    r.verify x.active = .ok true

omit [Columns] in
lemma EngineCall.Observed.clean {x : EngineCall} (h : x.Observed)
    (hsigned : ∀ r ∈ (x.call.itemsAt x.engine).1, ∃ key, r.SignedBy key) : x.Clean .authentic := by
  refine ⟨fun hproposes r hr => ?_, h.proposed, h.attached⟩
  obtain ⟨key, hkey⟩ := hsigned r hr
  exact IntegrityRecord.verify_eq_ok.mpr ⟨key, hkey, h.items hproposes r hr key hkey.observer⟩

end Helix

import Helix.Consensus.Certificates
import Helix.Consensus.Effects
import Helix.Node.Announcement
import Helix.Node.Stored

/-!
# Forks

Two nodes on the same genesis block may come to store different blocks at some height. Up to the first
such height their blocks have the same hashes, hence the same effects, so that both blocks of that
height were judged by the same validator set: a quorum of it has sealed either of them, and more than
`max_faulty` of its members have sealed both (`fork_shows_double_seals`). That takes stored blocks that
the code does not enforce everywhere: consistent bodies, content keys that can be computed, seals and
changes that name every key in one way.
-/

namespace Helix

variable [Crypto] [Columns]

open Relation (ReflTransGen)

namespace Node

/-! ### What stored blocks were judged by -/

/-- A chain whose blocks can be applied one after the other, and replayed to the same set. -/
structure SoundRepo (repo : List Block) : Prop where
  keyed : ∀ b ∈ repo, b.Keyed
  replays : ∀ blocks, blocks <+: repo → blocks ≠ [] → ∃ V, validatorsAfter blocks = .ok V ∧
    deriveValidatorSet (blocks.flatMap (·.validatorChanges)) = .ok V

omit [Columns] in
lemma SoundRepo.of_isPrefix {repo repo' : List Block} (h : SoundRepo repo') (hpre : repo <+: repo') :
    SoundRepo repo :=
  ⟨fun b hb => h.keyed b (hpre.subset hb), fun blocks hblocks => h.replays blocks (hblocks.trans hpre)⟩

/-- The stored blocks are numbered, and if they make a sound chain, each of them was judged by the set
that the blocks before it have led to. -/
structure Judged (n : Node) : Prop where
  nonempty : n.repo ≠ []
  keyed : n.Keyed
  index : ∀ (i : ℕ) b, n.repo[i]? = some b → b.index = i
  active : SoundRepo n.repo → validatorsAfter n.repo = .ok n.active
  final : SoundRepo n.repo → ∀ (i : ℕ) b V, n.repo[i + 1]? = some b →
    validatorsAfter (n.repo.take (i + 1)) = .ok V → verifyFinality b V = .ok true

variable {n n' : Node}

omit [Crypto] [Columns] in
lemma getElem?_concat {l : List Block} {block b : Block} {i : ℕ} (h : (l ++ [block])[i]? = some b) :
    l[i]? = some b ∨ i = l.length ∧ b = block := by
  rcases lt_trichotomy i l.length with hi | rfl | hi
  · rw [List.getElem?_append_left hi] at h
    exact Or.inl h
  · simp only [List.getElem?_concat_length, Option.some.injEq] at h
    exact Or.inr ⟨rfl, h.symm⟩
  · rw [List.getElem?_eq_none (by simp; omega)] at h
    cases h

omit [Columns] in
lemma Judged.height (h : n.Judged) : Repository.height n.repo + 1 = n.repo.length := by
  have hpos := List.length_pos_of_ne_nil h.nonempty
  rw [Repository.height, List.getLast?_eq_some_getLast h.nonempty]
  have hlast := h.index (n.repo.length - 1) (n.repo.getLast h.nonempty)
    (by rw [← List.getLast?_eq_getElem?, List.getLast?_eq_some_getLast h.nonempty])
  simp only [Option.map_some, Option.getD_some, hlast]
  omega

lemma Judged.append {block : Block} {result : Except PyError Unit} (h : n.Judged)
    (happend : n.Appends block result n') (hfinal : verifyFinality block n.active = .ok true)
    (hkeyed : n'.Keyed) : n'.Judged := by
  have hcases : n' = n ∨ Repository.append n.repo block = .ok n'.repo := by
    cases happend with
    | refused => exact Or.inl rfl
    | stored hrepo => exact Or.inr hrepo
    | forgotten hrepo => exact Or.inr hrepo
    | advanced hrepo => exact Or.inr hrepo
  rcases hcases with rfl | hrepo
  · exact h
  · obtain ⟨hstored, hindex, -⟩ := Repository.append_eq_ok hrepo
    -- in a sound chain the block was applied as a whole
    have hadvanced : SoundRepo n'.repo → n.Advanced block n' ∧ SoundRepo n.repo := by
      intro hsound
      have hsound' := hsound.of_isPrefix (hstored ▸ List.prefix_append _ _)
      refine ⟨?_, hsound'⟩
      cases result with
      | ok u => exact happend.advanced_of_ok
      | error err =>
        obtain ⟨V, hV, -⟩ := hsound.replays _ (List.prefix_refl _) (by simp [hstored])
        rw [hstored, validatorsAfter_concat h.nonempty] at hV
        obtain ⟨V₀, hV₀, hV⟩ := hV
        rw [h.active hsound', Except.ok.injEq] at hV₀
        subst hV₀
        have hsame : n' = n := happend.eq_of_error h.keyed
          (fun _ => hsound.keyed block (by simp [hstored])) fun _ => hV
        rw [hsame] at hstored
        exact absurd (congrArg List.length hstored) (by simp)
    refine ⟨by simp [hstored], hkeyed, fun i b hb => ?_, fun hsound => ?_, fun hsound i b V hb hV => ?_⟩
    · rw [hstored] at hb
      rcases getElem?_concat hb with hb | ⟨rfl, rfl⟩
      · exact h.index i b hb
      · rw [hindex, h.height]
    · obtain ⟨hadvanced, hsound'⟩ := hadvanced hsound
      rw [hstored, validatorsAfter_concat h.nonempty]
      exact ⟨n.active, h.active hsound', hadvanced.active⟩
    · obtain ⟨-, hsound'⟩ := hadvanced hsound
      rw [hstored] at hb hV
      rcases getElem?_concat hb with hb | ⟨hi, rfl⟩
      · have hlt := (List.getElem?_eq_some_iff.mp hb).1
        rw [List.take_append_of_le_length hlt.le] at hV
        exact h.final hsound' i b V hb hV
      · rw [hi, List.take_left, h.active hsound', Except.ok.injEq] at hV
        exact hV ▸ hfinal

lemma Judged.move {o : Operation} (hmove : NodeMove o n n') (h : n.Judged) : n'.Judged := by
  have hkeyed := h.keyed.move hmove
  cases hmove with
  | append happend hfinal => exact h.append happend hfinal hkeyed
  | _ => exact ⟨h.nonempty, hkeyed, h.index, h.active, h.final⟩

lemma Judged.restart {privateKey : PrivateKey} {validators : ValidatorSet} {journalStore : JournalStore}
    {nowMs : ℕ → ℤ} (h : n.Judged)
    (hinit : Node.init privateKey validators n.repo journalStore nowMs = .ok n') : n'.Judged := by
  have hkeyed := Keyed.init hinit
  obtain ⟨repo, active, engine, hrepo, hactive, -, rfl⟩ := Node.init_eq_ok hinit
  have hheight := h.height
  have hpos := List.length_pos_of_ne_nil h.nonempty
  obtain rfl : repo = n.repo := by
    rcases hrepo with rfl | ⟨genesis, hgenesis, happend⟩
    · rfl
    · -- a repository that holds a block gets no genesis block
      obtain ⟨-, hzero, -⟩ := Block.create_consistent hgenesis
      obtain ⟨-, hindex, -⟩ := Repository.append_eq_ok happend
      omega
  refine ⟨h.nonempty, hkeyed, h.index, fun hsound => ?_, h.final⟩
  obtain ⟨V, hV, hderive⟩ := hsound.replays _ (List.prefix_refl _) h.nonempty
  rw [hderive, Except.ok.injEq] at hactive
  rw [hV, hactive]

lemma Judged.init {privateKey : PrivateKey} {validators : ValidatorSet} {blocks : List Block}
    {journalStore : JournalStore} {nowMs : ℕ → ℤ}
    (hblocks : blocks = [] ∨ ∃ genesis, blocks = [genesis] ∧ genesis.index = 0)
    (hinit : Node.init privateKey validators blocks journalStore nowMs = .ok n) : n.Judged := by
  have h : n.Imported := .init hblocks hinit
  exact ⟨h.nonempty, Keyed.init hinit, h.index, fun hsound => by
    obtain ⟨V, hV, -⟩ := hsound.replays _ (List.prefix_refl _) h.nonempty
    rw [hV, h.active V hV], fun _ => h.judged⟩

lemma Judged.run {ok : Operation → Prop} (h : n.Judged) (hrun : Node.Runs ok n n') : n'.Judged :=
  hrun.induction (fun _ _ _ _ hmove h => h.move hmove) (fun _ _ _ _ h hinit => h.restart hinit) h

end Node

/-! ### Two nodes -/

namespace Node

/-- A sound chain of blocks with consistent bodies. -/
structure BodiedRepo (repo : List Block) : Prop extends SoundRepo repo where
  consistent : ∀ b ∈ repo, b.Consistent

/-- And each key is named once in the seals of a block. -/
structure WellStored (repo : List Block) : Prop extends BodiedRepo repo where
  sealedOnce : ∀ b ∈ repo, b.SealedOnce

/-- The blocks of the two chains have the same hashes at an index. -/
def SameHash (repo repo' : List Block) (i : ℕ) : Prop :=
  ∃ b b' h, repo[i]? = some b ∧ repo'[i]? = some b' ∧ b.hash = .ok h ∧ b'.hash = .ok h

omit [Columns] in
/-- Chains with the same hashes below an index have led to the same validator set there. -/
lemma validatorsAfter_eq {repo repo' : List Block} (hrepo : BodiedRepo repo) (hrepo' : BodiedRepo repo')
    (hno : NoCollision ((repo ++ repo').flatMap Block.hashInputs)) {m : ℕ}
    (hsame : ∀ i ≤ m, SameHash repo repo' i) : ∃ V, validatorsAfter (repo.take (m + 1)) = .ok V ∧
      validatorsAfter (repo'.take (m + 1)) = .ok V := by
  obtain ⟨b₀, b₀', h₀, hb₀, hb₀', -⟩ := hsame 0 (Nat.zero_le m)
  have hne : ∀ {l : List Block} {b}, l[0]? = some b → l.take (m + 1) ≠ [] := by
    rintro (_ | ⟨x, l⟩) b hb
    · cases hb
    · exact List.cons_ne_nil _ _
  obtain ⟨V, hV, hderive⟩ := hrepo.replays _ (List.take_prefix (m + 1) repo) (hne hb₀)
  obtain ⟨V', hV', hderive'⟩ := hrepo'.replays _ (List.take_prefix (m + 1) repo') (hne hb₀')
  have hlength : ∀ {l : List Block} {b}, l[m]? = some b → (l.take (m + 1)).length = m + 1 := by
    intro l b hb
    have hlt := (List.getElem?_eq_some_iff.mp hb).1
    rw [List.length_take]
    omega
  obtain ⟨bm, bm', -, hbm, hbm', -⟩ := hsame m le_rfl
  -- block by block, the two chains have the same effect
  have halike : List.Forall₂ (fun b b' : Block => Alike b.validatorChanges b'.validatorChanges)
      (repo.take (m + 1)) (repo'.take (m + 1)) := by
    refine List.forall₂_iff_get.mpr ⟨(hlength hbm).trans (hlength hbm').symm, fun i hi hi' => ?_⟩
    have him : i ≤ m := by
      rw [hlength hbm] at hi
      omega
    obtain ⟨b, b', h, hb, hb', hhash, hhash'⟩ := hsame i him
    have hmem := List.mem_of_getElem? hb
    have hmem' := List.mem_of_getElem? hb'
    rw [List.getElem?_eq_some_iff] at hb hb'
    simp only [List.get_eq_getElem, List.getElem_take, hb.2, hb'.2]
    refine Block.alike_of_hash hhash hhash' (hrepo.consistent b hmem) (hrepo'.consistent b' hmem')
      (hno.mono fun x hx => ?_)
    simp only [List.mem_append, List.mem_flatMap] at hx ⊢
    rcases hx with hx | hx
    · exact ⟨b, Or.inl hmem, hx⟩
    · exact ⟨b', Or.inr hmem', hx⟩
  rw [(Alike.flatMap halike).deriveValidatorSet_iff, hderive', Except.ok.injEq] at hderive
  exact ⟨V, hV, hderive ▸ hV'⟩

/-- Two nodes on genesis blocks with the same hash, after any methods and restarts, whose stored chains
are sound, hold blocks of different hashes at some index: then at the first such index the two blocks
were judged by one validator set, and more than `max_faulty` of its members have sealed both. -/
theorem fork_shows_double_seals {privateKey privateKey' : PrivateKey} {validators validators' : ValidatorSet}
    {blocks blocks' : List Block} {journalStore journalStore' : JournalStore} {nowMs nowMs' : ℕ → ℤ}
    {n₀ n₀' n n' : Node}
    (hblocks : blocks = [] ∨ ∃ genesis, blocks = [genesis] ∧ genesis.index = 0)
    (hblocks' : blocks' = [] ∨ ∃ genesis, blocks' = [genesis] ∧ genesis.index = 0)
    (hinit : Node.init privateKey validators blocks journalStore nowMs = .ok n₀)
    (hinit' : Node.init privateKey' validators' blocks' journalStore' nowMs' = .ok n₀')
    (hrun : Node.Runs (fun _ => True) n₀ n) (hrun' : Node.Runs (fun _ => True) n₀' n')
    (hstored : WellStored n.repo) (hstored' : WellStored n'.repo)
    (hno : NoCollision ((n.repo ++ n'.repo).flatMap Block.hashInputs))
    (hgenesis : SameHash n.repo n'.repo 0) {i : ℕ} {b b' : Block} (hb : n.repo[i]? = some b)
    (hb' : n'.repo[i]? = some b') (hne : b.hash ≠ b'.hash) :
    ∃ m a a' V, m + 1 ≤ i ∧ (∀ j ≤ m, SameHash n.repo n'.repo j) ∧ n.repo[m + 1]? = some a ∧
      n'.repo[m + 1]? = some a' ∧ a.index = m + 1 ∧ a'.index = m + 1 ∧ a.hash ≠ a'.hash ∧
      validatorsAfter (n.repo.take (m + 1)) = .ok V ∧ validatorsAfter (n'.repo.take (m + 1)) = .ok V ∧
      ∃ D : Finset PublicKey, V.maxFaulty < D.card ∧
        ∀ k ∈ D, k ∈ V.validators ∧ a.SealedBy k ∧ a'.SealedBy k := by
  classical
  have hjudged : n.Judged := (Judged.init hblocks hinit).run hrun
  have hjudged' : n'.Judged := (Judged.init hblocks' hinit').run hrun'
  have hi : ¬SameHash n.repo n'.repo i := by
    rintro ⟨c, c', h, hc, hc', hh, hh'⟩
    rw [hb] at hc
    rw [hb'] at hc'
    cases hc
    cases hc'
    exact hne (hh.trans hh'.symm)
  have hfork : ∃ j, ¬SameHash n.repo n'.repo j := ⟨i, hi⟩
  obtain ⟨m, hm⟩ : ∃ m, Nat.find hfork = m + 1 := by
    refine Nat.exists_eq_succ_of_ne_zero fun hzero => ?_
    exact Nat.find_spec hfork (hzero.symm ▸ hgenesis)
  have hsame : ∀ j ≤ m, SameHash n.repo n'.repo j := fun j hj =>
    not_not.mp (Nat.find_min hfork (by omega))
  have hmi : m + 1 ≤ i := hm ▸ Nat.find_min' hfork hi
  have hfirst : ¬SameHash n.repo n'.repo (m + 1) := hm ▸ Nat.find_spec hfork
  have hlt := (List.getElem?_eq_some_iff.mp hb).1
  have hlt' := (List.getElem?_eq_some_iff.mp hb').1
  obtain ⟨a, ha⟩ : ∃ a, n.repo[m + 1]? = some a := ⟨_, List.getElem?_eq_getElem (by omega)⟩
  obtain ⟨a', ha'⟩ : ∃ a', n'.repo[m + 1]? = some a' := ⟨_, List.getElem?_eq_getElem (by omega)⟩
  obtain ⟨V, hV, hV'⟩ := validatorsAfter_eq hstored.toBodiedRepo hstored'.toBodiedRepo hno hsame
  have hfinal := hjudged.final hstored.toSoundRepo m a V ha hV
  have hfinal' := hjudged'.final hstored'.toSoundRepo m a' V ha' hV'
  have hby := (hstored.sealedOnce a (List.mem_of_getElem? ha)).finalizedBy hfinal
  have hby' := (hstored'.sealedOnce a' (List.mem_of_getElem? ha')).finalizedBy hfinal'
  obtain ⟨D, hD, hsealed⟩ := hby.exists_common hby'
  refine ⟨m, a, a', V, hmi, hsame, ha, ha', ?_, ?_, fun heq => ?_, hV, hV', D, hD, hsealed⟩
  · exact_mod_cast hjudged.index _ a ha
  · exact_mod_cast hjudged'.index _ a' ha'
  · obtain ⟨k, hk⟩ := Finset.card_pos.mp (Nat.zero_lt_of_lt hD)
    obtain ⟨-, ⟨-, -, h, -, -, -, -, hh, -⟩, -⟩ := hsealed k hk
    exact hfirst ⟨a, a', h, ha, ha', hh, heq ▸ hh⟩

omit [Crypto] [Columns] in
/-- The blocks lead to one set, applied one after the other or replayed. -/
def agreesAfter (blocks : List Block) : Bool :=
  match validatorsAfter blocks, deriveValidatorSet (blocks.flatMap (·.validatorChanges)) with
  | .ok V, .ok V' => V.validators = V'.validators
  | _, _ => false

/-- A chain of consistent blocks, the keys of whose records and whose sets can be computed. -/
def bodied (repo : List Block) : Bool :=
  decide ((∀ b ∈ repo, ∀ r ∈ b.records, r.contentKey.isOk = true) ∧
    (∀ blocks ∈ repo.inits, blocks ≠ [] → agreesAfter blocks) ∧
    ∀ b ∈ repo, b.Consistent)

omit [Columns] in
lemma BodiedRepo.of_bodied {repo : List Block} (h : bodied repo = true) : BodiedRepo repo := by
  obtain ⟨hrecords, hsets, hconsistent⟩ := of_decide_eq_true h
  refine ⟨⟨fun b hb r hr => exists_of_isOk (hrecords b hb r hr), fun blocks hpre hne => ?_⟩, hconsistent⟩
  · have hagrees := hsets blocks ((List.mem_inits _ _).mpr hpre) hne
    unfold agreesAfter at hagrees
    split at hagrees
    · rename_i V V' hV hV'
      have heq : V = V' := ValidatorSet.ext_mem fun k => by rw [of_decide_eq_true hagrees]
      exact ⟨V, hV, heq ▸ hV'⟩
    · cases hagrees

omit [Columns] in
/-- A block with one seal at most names no key twice. -/
lemma BodiedRepo.wellStored {repo : List Block} (h : BodiedRepo repo)
    (hseals : ∀ b ∈ repo, b.commitSignatures.items.length ≤ 1) : WellStored repo := by
  refine ⟨h, fun b hb x hx y hy k _ _ => ?_⟩
  have hlength := hseals b hb
  match b.commitSignatures.items, hlength, hx, hy with
  | [z], _, hx, hy => rw [List.mem_singleton.mp hx, List.mem_singleton.mp hy]

omit [Crypto] [Columns] in
/-- Two followers are each pushed another block by the single validator, which has sealed both. -/
theorem fork_shows_double_seals_of_pushes :
    letI := Crypto.checksums
    letI := Columns.sqlite
    let block (t : ℤ) := Block.sealedBy 0xaa (Block.afterGenesis .single t)
    ∃ n₀, Node.init (seedKey 0xbb) .single [] .null (fun i => i) = .ok n₀ ∧
      let n (t : ℤ) := n₀.play 1 [.ingestBlock (block t)]
      ∃ (a a' : Block) (V : ValidatorSet), (n 0).repo[1]? = some a ∧ (n 1).repo[1]? = some a' ∧
        a.hash ≠ a'.hash ∧ ∃ D : Finset PublicKey, V.maxFaulty < D.card ∧
          ∀ k ∈ D, k ∈ V.validators ∧ a.SealedBy k ∧ a'.SealedBy k := by
  let := Crypto.checksums
  let := Columns.sqlite
  intro block
  let Sound (repo : List Block) : Prop :=
    bodied repo = true ∧ ∀ b ∈ repo, b.commitSignatures.items.length ≤ 1
  have hrun : (Node.init (seedKey 0xbb) .single [] .null fun i => i).map (fun n₀ =>
      let n (t : ℤ) := (n₀.play 1 [.ingestBlock (block t)]).repo
      decide (Sound (n 0) ∧ Sound (n 1) ∧ (n 0).length = 2 ∧ (n 1).length = 2 ∧
        NoCollision ((n 0 ++ n 1).flatMap Block.hashInputs) ∧
        (n 0)[0]?.map Block.hash = (n 1)[0]?.map Block.hash ∧
        ((n 0)[0]?.bind fun b => b.hash.toOption).isSome ∧
        (n 0)[1]?.map Block.hash ≠ (n 1)[1]?.map Block.hash)) = .ok true := by
    decide +kernel
  obtain ⟨n₀, hinit, hn₀⟩ := exists_of_map_eq_ok hrun
  obtain ⟨hsound, hsound', hlength, hlength', hno, hsame, hsome, hne⟩ := of_decide_eq_true hn₀
  refine ⟨n₀, hinit, ?_⟩
  intro n
  have hstored : ∀ {repo}, Sound repo → WellStored repo := fun h =>
    (BodiedRepo.of_bodied h.1).wellStored h.2
  have hget : ∀ {repo : List Block}, repo.length = 2 → ∃ g b, repo[0]? = some g ∧ repo[1]? = some b := by
    intro repo hlength
    match repo, hlength with
    | [g, b], _ => exact ⟨g, b, rfl, rfl⟩
  obtain ⟨g, b, hg, hb⟩ := hget hlength
  obtain ⟨g', b', hg', hb'⟩ := hget hlength'
  rw [hg, hg', Option.map_some, Option.map_some, Option.some.injEq] at hsame
  rw [hb, hb', Option.map_some, Option.map_some, Ne, Option.some.injEq] at hne
  obtain ⟨h, hh⟩ : ∃ h, g.hash = .ok h := by
    rw [hg] at hsome
    cases hhash : g.hash with
    | ok h => exact ⟨h, rfl⟩
    | error err => simp [hhash, Except.toOption] at hsome
  obtain ⟨m, a, a', V, hm, -, ha, ha', -, -, hhash, -, -, hD⟩ := fork_shows_double_seals (Or.inl rfl)
    (Or.inl rfl) hinit hinit (.play (fun _ _ => trivial) 1 n₀) (.play (fun _ _ => trivial) 1 n₀)
    (hstored hsound) (hstored hsound') hno ⟨g, g', h, hg, hg', hh, hsame ▸ hh⟩ hb hb' hne
  obtain rfl : m = 0 := by omega
  exact ⟨a, a', V, ha, ha', hhash, hD⟩

end Node

end Helix

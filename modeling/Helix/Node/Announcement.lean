import Helix.Node.Application
import Helix.Node.Imports

/-!
# The commit hook

A block that the engine commits or that a peer pushes is handed to the commit hook right after it is
applied. The catch-up sync applies blocks as well, without the hook; and a block whose application
raises after it was stored is not announced either. In a lifetime without the two, what the hook gets
is what was appended, in order.
-/

namespace Helix

variable [Crypto] [Columns]

namespace Node

/-- The set that the changes of the blocks lead to, one block after the other. -/
def replay (V : ValidatorSet) (blocks : List Block) : Except PyError ValidatorSet :=
  blocks.foldlM (fun V b => applyChanges V b.validatorChanges) V

omit [Crypto] [Columns] in
lemma replay_append {V V' : ValidatorSet} {blocks more : List Block} :
    replay V (blocks ++ more) = .ok V' ↔ ∃ V₁, replay V blocks = .ok V₁ ∧ replay V₁ more = .ok V' := by
  rw [replay, List.foldlM_append]
  constructor
  · exact fun h => exists_of_bind_eq_ok h
  · rintro ⟨V₁, hV₁, h⟩
    change (replay V blocks).bind _ = _
    rw [hV₁]
    exact h

omit [Crypto] [Columns] in
lemma replay_singleton (V : ValidatorSet) (block : Block) :
    replay V [block] = applyChanges V block.validatorChanges := by
  rw [replay, List.foldlM_cons]
  cases applyChanges V block.validatorChanges <;> rfl

/-- Since `n₀`, the active set was changed by the appended blocks, and they were announced. -/
structure Announces (n₀ n : Node) : Prop where
  repo : n₀.repo <+: n.repo
  active : replay n₀.active (n.repo.drop n₀.repo.length) = .ok n.active
  announced : n.announced = n.repo.drop n₀.repo.length

variable {n₀ n n' : Node}

omit [Crypto] [Columns] in
lemma drop_append_of_isPrefix {l l' : List Block} (h : l <+: l') (block : Block) :
    (l' ++ [block]).drop l.length = l'.drop l.length ++ [block] :=
  List.drop_append_of_le_length h.length_le

/-- A block that is applied and announced. -/
lemma Announces.announce {block : Block} (h : Announces n₀ n)
    (happend : n.Appends block (.ok ()) n') : Announces n₀ (n'.announcing block) := by
  obtain ⟨hrepo, hactive, -⟩ := happend.advanced_of_ok
  have houtbox : n'.announced = n.announced := by cases happend; rfl
  have hdrop : n'.repo.drop n₀.repo.length = n.repo.drop n₀.repo.length ++ [block] := by
    rw [hrepo, drop_append_of_isPrefix h.repo]
  refine ⟨?_, ?_, ?_⟩
  · exact h.repo.trans (hrepo ▸ List.prefix_append _ _)
  · change replay n₀.active (n'.repo.drop _) = .ok n'.active
    rw [hdrop, replay_append]
    exact ⟨n.active, h.active, (replay_singleton _ _).trans hactive⟩
  · rw [announced_announcing, houtbox, h.announced]
    exact hdrop.symm

/-- A block whose application raises is not stored, if it can be applied. -/
lemma Appends.eq_of_error {block : Block} {err : PyError} {V : ValidatorSet} (hn : n.Keyed)
    (happend : n.Appends block (.error err) n')
    (hkeyed : n'.repo = n.repo ++ [block] → block.Keyed)
    (hactive : n'.repo = n.repo ++ [block] →
      applyChanges n.active block.validatorChanges = .ok V) : n' = n := by
  cases happend with
  | refused => rfl
  | stored hrepo hkey =>
    obtain ⟨r, hr | hr, herr⟩ := hkey
    · obtain ⟨key, hkey⟩ := hkeyed (Repository.append_eq_ok hrepo).1 r hr
      rw [herr] at hkey
      cases hkey
    · obtain ⟨key, hkey⟩ := hn r hr
      rw [herr] at hkey
      cases hkey
  | forgotten hrepo hkeys hpending hchanges herr =>
    rw [hactive (Repository.append_eq_ok hrepo).1] at herr
    cases herr

/-- The active set changes only with the repository. -/
lemma active_eq_of_move {o : Operation} (hmove : NodeMove o n n') (hrepo : n'.repo = n.repo) :
    n'.active = n.active := by
  cases hmove with
  | append happend =>
    cases happend with
    | @advanced repo _ _ _ _ happended =>
      have hsame : repo = n.repo := hrepo
      have hlength := congrArg List.length (hsame.symm.trans (Repository.append_eq_ok happended).1)
      simp at hlength
    | _ => rfl
  | _ => rfl

lemma Announces.event {o : Operation} {n₁ : Node} (ho : ¬o.Syncs n₁) (hn : n.Keyed)
    (hevent : NodeEvent o n₁ n n') (hkeyed : ∀ b ∈ n'.repo.drop n₀.repo.length, b.Keyed)
    (hactive : ∃ V, replay n₀.active (n'.repo.drop n₀.repo.length) = .ok V)
    (h : Announces n₀ n) : Announces n₀ n' := by
  cases hevent with
  | move hmove hrepo hpending hseen hannounced =>
    refine ⟨hrepo ▸ h.repo, ?_, ?_⟩
    · rw [hrepo, active_eq_of_move hmove hrepo]
      exact h.active
    · rw [hannounced, hrepo]
      exact h.announced
  | announce happend => exact h.announce happend
  | sync hsyncs => exact absurd hsyncs ho
  | @fail _ _ block err happend =>
    obtain ⟨V, hV⟩ := hactive
    -- had the block been stored, it would be among those that can be applied
    have hsame : n' = n := by
      refine happend.eq_of_error hn (V := V) (fun hrepo => ?_) fun hrepo => ?_
      · rw [hrepo, drop_append_of_isPrefix h.repo] at hkeyed
        exact hkeyed block (List.mem_append_right _ List.mem_cons_self)
      · rw [hrepo, drop_append_of_isPrefix h.repo] at hV
        obtain ⟨V₁, hV₁, happly⟩ := replay_append.mp hV
        rw [h.active] at hV₁
        rw [← Except.ok.inj hV₁, replay_singleton] at happly
        exact happly
    exact hsame ▸ h
  | enqueue => exact ⟨h.repo, h.active, h.announced⟩

end Node

/-- In a lifetime in which no message makes the node catch up, and in which the content keys and the
changes of the appended blocks can be applied, the blocks that the commit hook gets are those that
were appended, in order. -/
theorem announced_eq_appended {privateKey : PrivateKey} {validators : ValidatorSet}
    {blocks : List Block} {journalStore : JournalStore} {nowMs : ℕ → ℤ} {n₀ n : Node}
    (hinit : Node.init privateKey validators blocks journalStore nowMs = .ok n₀)
    (hlife : Node.Lives (fun n o => ¬o.Syncs n) n₀ n)
    (hkeyed : ∀ b ∈ n.repo.drop n₀.repo.length, b.Keyed)
    (hactive : ∃ V, Node.replay n₀.active (n.repo.drop n₀.repo.length) = .ok V) :
    n.announced = n.repo.drop n₀.repo.length := by
  have hstart : Node.Announces n₀ n₀ := by
    obtain ⟨repo, active, engine, -, -, -, rfl⟩ := Node.init_eq_ok hinit
    refine ⟨List.prefix_refl _, ?_, ?_⟩
    · rw [List.drop_length]
      rfl
    · rw [List.drop_length]
      rfl
  let P : Node → Prop := fun n => n.Keyed ∧ n₀.repo <+: n.repo ∧
    ((∀ b ∈ n.repo.drop n₀.repo.length, b.Keyed) →
      (∃ V, Node.replay n₀.active (n.repo.drop n₀.repo.length) = .ok V) → Node.Announces n₀ n)
  have hn : P n := by
    refine hlife.induction (P := P) (fun n₁ o ho n n' hevent h => ?_)
      ⟨.init hinit, List.prefix_refl _, fun _ _ => hstart⟩
    obtain ⟨hn, hprefix, hannounces⟩ := h
    refine ⟨hevent.keeps (fun _ _ hmove h => h.move hmove) hn,
      hprefix.trans hevent.repo_isPrefix, fun hkeyed hactive => ?_⟩
    -- what can be applied after the event could be applied before it
    obtain ⟨more, hmore⟩ := hevent.repo_isPrefix
    have hdrop : n'.repo.drop n₀.repo.length = n.repo.drop n₀.repo.length ++ more := by
      rw [← hmore, List.drop_append_of_le_length hprefix.length_le]
    have hkeyed' : ∀ b ∈ n.repo.drop n₀.repo.length, b.Keyed := by
      intro b hb
      exact hkeyed b (hdrop ▸ List.mem_append_left _ hb)
    have hactive' : ∃ V, Node.replay n₀.active (n.repo.drop n₀.repo.length) = .ok V := by
      obtain ⟨V, hV⟩ := hactive
      rw [hdrop] at hV
      exact (Node.replay_append.mp hV).imp fun V₁ h => h.1
    exact (hannounces hkeyed' hactive').event ho hn hevent hkeyed hactive
  exact (hn.2.2 hkeyed hactive).announced

omit [Crypto] [Columns] in
/-- A follower announces the block by which it joins, and then, as one of two validators, the block that
it decides with the other. -/
theorem announced_eq_appended_of_joining :
    letI := Crypto.checksums
    letI := Columns.sqlite
    ∃ n₀ ms n, Node.init (seedKey 0xbb) .single [] .null (fun i => i) = .ok n₀ ∧
      Block.leaving.hash.bind (fun hash => [MessageType.PRE_PREPARE, .PREPARE, .COMMIT].mapM fun type =>
        ConsensusMessage.create type 2 0 hash (seedKey 0xaa) (some .leaving)) = .ok ms ∧
      n₀.play 2 (.ingestBlock .joining :: ms.map fun m => .onMessage m []) = n ∧
      (n.repo.map (·.records.length), n.active.validators) = ([0, 1, 1], [seedPublic 0xbb]) ∧
      n.announced = n.repo.drop n₀.repo.length := by
  let := Crypto.checksums
  let := Columns.sqlite
  have hrun : (Block.leaving.hash.bind fun hash => [MessageType.PRE_PREPARE, .PREPARE, .COMMIT].mapM
        fun type => ConsensusMessage.create type 2 0 hash (seedKey 0xaa) (some .leaving)).bind (fun ms =>
      (Node.init (seedKey 0xbb) .single [] .null fun i => i).map fun n₀ =>
        let n := n₀.play 2 (.ingestBlock .joining :: ms.map fun m => .onMessage m [])
        ((n.repo.map (·.records.length), n.active.validators),
          ((n.repo.drop n₀.repo.length).all fun b => b.records.all fun r => r.contentKey.isOk),
          (Node.replay n₀.active (n.repo.drop n₀.repo.length)).isOk)) =
      .ok (([0, 1, 1], [seedPublic 0xbb]), true, true) := by
    decide +kernel
  obtain ⟨ms, hms, hrun⟩ := exists_of_bind_eq_ok hrun
  obtain ⟨n₀, hinit, hchecks⟩ := exists_of_map_eq_ok hrun
  obtain ⟨hstored, hchecks⟩ := Prod.mk.inj hchecks
  obtain ⟨hkeyed, hisOk⟩ := Prod.mk.inj hchecks
  have hlife : Node.Lives (fun n o => ¬o.Syncs n) n₀
      (n₀.play 2 (.ingestBlock .joining :: ms.map fun m => .onMessage m [])) := by
    refine .play (fun o ho n => ?_) 2 n₀
    rintro ⟨m, answers, block, rfl, -, hhead⟩
    rcases List.mem_cons.mp ho with ho | ho
    · cases ho
    · obtain ⟨m', -, hm'⟩ := List.mem_map.mp ho
      cases hm'
      exact absurd hhead nofun
  generalize hn : n₀.play 2 (.ingestBlock .joining :: ms.map fun m => .onMessage m []) = n at *
  refine ⟨n₀, ms, n, hinit, hms, hn, hstored, ?_⟩
  refine announced_eq_appended hinit hlife (fun b hb r hr => ?_) (exists_of_isOk hisOk)
  exact exists_of_isOk (List.all_eq_true.mp (List.all_eq_true.mp hkeyed b hb) r hr)

omit [Crypto] [Columns] in
/-- The same block is fetched by a follower that is behind: it is stored, and the hook is not
called. -/
theorem synced_without_announcement :
    letI := Crypto.checksums
    letI := Columns.sqlite
    (ConsensusMessage.create .PREPARE 3 0 [] (seedKey 0xaa)).bind (fun m =>
      (Node.init (seedKey 0xbb) .single [] .null fun i => i).map fun n₀ =>
        let n := (Operation.onMessage m [.ok (some .sealedAfterGenesis)]).run 1 n₀
        (n₀.repo.length, n.repo.length, n.announced.length)) = .ok (1, 2, 0) := by
  decide +kernel

end Helix

import Helix.Node.Forks

/-!
# Catching up

A node that is handed a message of a later height fetches the blocks that it misses and then handles
the message. If the peers serve a chain whose blocks pass the checks of an import, and the own blocks
have the same hashes, every block is imported: the seals, and with them the bodies, of the blocks that
the node has stored itself may be others than those of the chain (`onMessage_catches_up`).
-/

namespace Helix

variable [Crypto] [Columns]

namespace Node

/-- A chain whose blocks pass the checks of an import, one after the other. -/
structure Importable (chain : List Block) : Prop extends BodiedRepo chain where
  index : ∀ (i : ℕ) b, chain[i]? = some b → b.index = i
  link : ∀ (i : ℕ) b b', chain[i]? = some b → chain[i + 1]? = some b' →
    b.hash = .ok b'.header.previousHash
  judged : ∀ (i : ℕ) b V, chain[i + 1]? = some b → validatorsAfter (chain.take (i + 1)) = .ok V →
    verifyFinality b V = .ok true
  integer : ∀ b ∈ chain, Columns.integer b.index = true ∧ Columns.integer b.header.timestamp = true

/-- The blocks of the node have the hashes of the chain, and the set that the chain has led to there is
active. -/
structure Follows (n : Node) (chain : List Block) : Prop where
  nonempty : n.repo ≠ []
  keyed : n.Keyed
  height : Repository.height n.repo + 1 = n.repo.length
  same : ∀ i < n.repo.length, SameHash n.repo chain i
  active : validatorsAfter (chain.take n.repo.length) = .ok n.active

/-- The node has the engine of the next height, if it is a member of the active set. -/
structure Ready (n : Node) : Prop where
  engine : ∀ e ∈ n.engine, e.height = n.height + 1
  isSome : n.engine.isSome ↔ n.me ∈ n.active.validators

variable {n n' : Node} {chain : List Block} {block : Block}

/-! ### One block -/

/-- The next block of the chain passes the checks. -/
lemma Follows.extendsTip (h : n.Follows chain) (hchain : Importable chain)
    (hb : chain[n.repo.length]? = some block) :
    NodeM.extendsTip block n = (.ok true, n) := by
  obtain ⟨m, hm⟩ : ∃ m, n.repo.length = m + 1 :=
    Nat.exists_eq_succ_of_ne_zero (List.length_pos_of_ne_nil h.nonempty).ne'
  rw [hm] at hb
  obtain ⟨latest, served, hash, hlatest, hserved, hhash, hhash'⟩ := h.same m (by omega)
  have hindex : block.index = n.height + 1 := by
    rw [hchain.index _ _ hb, ← hm]
    exact h.height.symm
  have hlast : n.repo.getLast? = some latest := by
    rw [List.getLast?_eq_getElem?, hm]
    exact hlatest
  have hprevious : block.header.previousHash = hash := by
    rw [hchain.link m served block hserved hb, Except.ok.injEq] at hhash'
    exact hhash'
  have hfinal : verifyFinality block n.active = .ok true :=
    hchain.judged m block _ hb (hm ▸ h.active)
  unfold NodeM.extendsTip
  rw [Eff.bind_apply_ok (Eff.get_apply n), if_neg (not_not.mpr hindex), hlast]
  change ((Eff.lift latest.hash >>= _) : NodeM Bool) n = _
  rw [Eff.lift_bind_ok hhash, if_neg (not_not.mpr hprevious), hfinal]
  rfl

/-- The repository takes the next block of the chain. -/
lemma Follows.repository_append (h : n.Follows chain) (hchain : Importable chain)
    (hno : NoCollision (chain.flatMap Block.hashInputs)) (hb : chain[n.repo.length]? = some block) :
    Repository.append n.repo block = .ok (n.repo ++ [block]) := by
  have hindex : block.index = Repository.height n.repo + 1 := by
    rw [hchain.index _ _ hb, h.height]
  obtain ⟨m, hm⟩ : ∃ m, n.repo.length = m + 1 :=
    Nat.exists_eq_succ_of_ne_zero (List.length_pos_of_ne_nil h.nonempty).ne'
  obtain ⟨hash, hhash⟩ : ∃ hash, block.hash = .ok hash := by
    have hfinal := hchain.judged m block _ (hm ▸ hb) (hm ▸ h.active)
    cases hhash : block.hash with
    | ok hash => exact ⟨hash, rfl⟩
    | error err => simp [verifyFinality, hhash, bind, Except.bind] at hfinal
  -- the previous hash is the hash of the served block before it
  have hholds : Columns.holds block.header hash = true := by
    obtain ⟨-, served, -, -, hserved, -, hhash'⟩ := h.same m (by omega)
    refine (Columns.holds_iff hhash ?_).mpr (hchain.integer block (List.mem_of_getElem? hb))
    exact Columns.varchar_hash (hchain.link m served block hserved (hm ▸ hb))
  -- a stored block with the same hash would have the header of another height
  have hfresh : ¬(n.repo.any fun b => b.hash.toOption = some hash) := by
    simp only [List.any_eq_true, decide_eq_true_eq, not_exists, not_and]
    intro b hmem hsame
    obtain ⟨i, hi⟩ := List.mem_iff_getElem?.mp hmem
    have hlt := (List.getElem?_eq_some_iff.mp hi).1
    obtain ⟨b', served, x, hb', hserved, hx, hx'⟩ := h.same i hlt
    rw [hi, Option.some.injEq] at hb'
    rw [← hb'] at hx
    rw [hx] at hsame
    have hheader : served.header = block.header := by
      refine Block.header_eq_of_hash hx' (hhash.trans (congrArg _ (Option.some.inj hsame).symm)) ?_
      refine hno.mono fun y hy => List.mem_flatMap.mpr ?_
      rcases List.mem_append.mp hy with hy | hy
      · exact ⟨served, List.mem_of_getElem? hserved, hy⟩
      · exact ⟨block, List.mem_of_getElem? hb, hy⟩
    have hindices : served.index = block.index := congrArg (·.index) hheader
    rw [hchain.index _ _ hserved, hchain.index _ _ hb] at hindices
    omega
  simp only [Repository.append, hindex, ne_eq, not_true_eq_false, if_false, hhash, bind, Except.bind,
    hholds, Bool.not_true, Bool.false_eq_true]
  rw [if_neg hfresh]
  rfl

omit [Columns] in
/-- `_new_engine` builds no engine for a follower only. -/
lemma not_mem_of_newEngine (h : n.newEngine = .ok none) : n.me ∉ n.active.validators := by
  intro hmem
  have hcontains : n.active.contains n.me = true := (n.active.contains_iff _).mpr hmem
  have hcontains' : n.active.contains n.privateKey.publicKey = true := hcontains
  unfold newEngine at h
  split at h
  · cases h
  · rename_i latest hlast
    rw [if_pos hcontains] at h
    cases hhash : latest.hash with
    | error err => rw [hhash] at h; cases h
    | ok hash =>
      simp only [hhash, bind, Except.bind, ConsensusEngine.new, hcontains', if_true] at h
      cases h

omit [Columns] in
/-- The node with the engine that `_new_engine` builds. -/
lemma ready_of_newEngine {engine : Option ConsensusEngine} (h : n.newEngine = .ok engine) :
    { n with engine }.Ready := by
  rcases newEngine_eq_ok h with rfl | ⟨hmem, latest, hash, hlast, -, rfl⟩
  · refine ⟨fun e he => ?_, iff_of_false Bool.false_ne_true (not_mem_of_newEngine h)⟩
    cases he
  · have hheight : n.height = latest.index := by
      rw [height, Repository.height, hlast]
      rfl
    refine ⟨fun e he => ?_, iff_of_true rfl hmem⟩
    obtain rfl : _ = e := Option.some.inj he
    exact congrArg (· + 1) hheight.symm

/-- The next block of the chain is applied as a whole. -/
lemma Follows.advance (h : n.Follows chain) (hchain : Importable chain)
    (hno : NoCollision (chain.flatMap Block.hashInputs)) (hb : chain[n.repo.length]? = some block) :
    ∃ n', NodeM.appendAndAdvance block n = (.ok (), n') ∧ n'.Follows chain ∧ n'.Ready ∧
      n'.repo = n.repo ++ [block] ∧ n'.privateKey = n.privateKey := by
  have hrepo := h.repository_append hchain hno hb
  obtain ⟨-, -, hash, hhash⟩ := Repository.append_eq_ok hrepo
  have hkeyed : block.Keyed := hchain.keyed block (List.mem_of_getElem? hb)
  have htake : chain.take (n.repo.length + 1) = chain.take n.repo.length ++ [block] := by
    rw [List.take_add_one, hb]
    rfl
  have hne : chain.take n.repo.length ≠ [] := by
    intro hnil
    have hlength := congrArg List.length hnil
    have hlt := (List.getElem?_eq_some_iff.mp hb).1
    rw [List.length_take, List.length_nil] at hlength
    exact h.nonempty (List.length_eq_zero_iff.mp (by omega))
  obtain ⟨V, hV, -⟩ := hchain.replays _ (List.take_prefix (n.repo.length + 1) chain) (by simp [htake])
  have hactive : applyChanges n.active block.validatorChanges = .ok V := by
    rw [htake, validatorsAfter_concat hne] at hV
    obtain ⟨V₀, hV₀, happly⟩ := hV
    rw [h.active, Except.ok.injEq] at hV₀
    exact hV₀ ▸ happly
  have happend := NodeM.appendAndAdvance_appends n block
  rcases hrun : NodeM.appendAndAdvance block n with ⟨result, n'⟩
  rw [hrun] at happend
  cases happend with
  | refused hrefused =>
    rw [hrepo] at hrefused
    cases hrefused
  | stored hstored hkey =>
    obtain ⟨r, hr, herr⟩ := hkey
    obtain ⟨key, hkey⟩ := hr.elim (hkeyed r) (h.keyed r)
    rw [herr] at hkey
    cases hkey
  | forgotten hstored hkeys hpending hchanges herr =>
    rw [hactive] at herr
    cases herr
  | @advanced repo keys pending active engine hstored hkeys hpending hactive' hengine =>
    obtain rfl : n.repo ++ [block] = repo := Except.ok.inj (hrepo.symm.trans hstored)
    obtain rfl : V = active := Except.ok.inj (hactive.symm.trans hactive')
    refine ⟨_, rfl, ⟨?_, fun r hr => h.keyed r (mem_filterM hpending hr).1, ?_, fun i hi => ?_, ?_⟩,
      ready_of_newEngine hengine, rfl, rfl⟩
    · exact List.append_ne_nil_of_right_ne_nil _ (List.cons_ne_nil _ _)
    · change Repository.height (n.repo ++ [block]) + 1 = (n.repo ++ [block]).length
      rw [Repository.height, List.getLast?_concat, List.length_append]
      simp [hchain.index _ _ hb]
    · change i < (n.repo ++ [block]).length at hi
      change SameHash (n.repo ++ [block]) chain i
      rw [List.length_append, List.length_singleton] at hi
      rcases Nat.lt_succ_iff_lt_or_eq.mp hi with hi | rfl
      · obtain ⟨b, b', x, hb, hrest⟩ := h.same i hi
        exact ⟨b, b', x, (List.getElem?_append_left hi).trans hb, hrest⟩
      · exact ⟨block, block, hash, List.getElem?_concat_length, hb, hhash, hhash⟩
    · change validatorsAfter (chain.take (n.repo ++ [block]).length) = .ok V
      rw [List.length_append, List.length_singleton]
      exact hV

/-! ### The loop -/

/-- What `fetch_block` gives for the blocks after the tip, when a peer serves the chain. -/
def served (n : Node) (chain : List Block) : List (Except PyError (Option Block)) :=
  (chain.drop n.repo.length).map fun b => .ok (some b)

/-- The loop imports the blocks of the chain up to the height it is asked for. -/
lemma Follows.sync (h : n.Follows chain) (hchain : Importable chain)
    (hno : NoCollision (chain.flatMap Block.hashInputs)) (upTo : ℤ) {rest : List Block}
    (hrest : chain.drop n.repo.length = rest) :
    ∃ n', NodeM.syncLocked upTo (rest.map fun b => .ok (some b)) n = (.ok (), n') ∧ n'.Follows chain ∧
      n'.repo = n.repo ++ rest.take (upTo + 1 - n.repo.length).toNat ∧ n'.privateKey = n.privateKey ∧
      (n' = n ∨ n'.Ready) := by
  induction rest generalizing n with
  | nil => exact ⟨n, rfl, h, by simp, rfl, Or.inl rfl⟩
  | cons block rest ih =>
    have hb : chain[n.repo.length]? = some block := by
      rw [← List.head?_drop, hrest]
      rfl
    have hheight : n.height + 1 = n.repo.length := h.height
    rw [List.map_cons, NodeM.syncLocked, Eff.bind_apply_ok (Eff.get_apply n)]
    by_cases hbehind : n.height < upTo
    · obtain ⟨n₁, hrun, h₁, hready, hrepo, hkey⟩ := h.advance hchain hno hb
      have hdrop : chain.drop n₁.repo.length = rest := by
        rw [hrepo, List.length_append, List.length_singleton, ← List.tail_drop, hrest]
        rfl
      obtain ⟨n', hloop, h', hrepo', hkey', hready'⟩ := ih h₁ hdrop
      refine ⟨n', ?_, h', ?_, hkey'.trans hkey, Or.inr (hready'.elim (fun heq => heq ▸ hready) id)⟩
      · rw [if_pos hbehind, Eff.lift_bind_ok rfl]
        change ((NodeM.extendsTip block >>= _) : NodeM Unit) n = _
        rw [Eff.bind_apply_ok (h.extendsTip hchain hb), if_pos rfl, Eff.bind_apply_ok hrun, hloop]
      · have hsteps : (upTo + 1 - n.repo.length).toNat = (upTo + 1 - n₁.repo.length).toNat + 1 := by
          rw [hrepo, List.length_append, List.length_singleton]
          omega
        rw [hrepo', hsteps, List.take_succ_cons, hrepo, List.append_assoc]
        rfl
    · refine ⟨n, ?_, h, ?_, rfl, Or.inl rfl⟩
      · rw [if_neg hbehind]
        rfl
      · have hsteps : (upTo + 1 - n.repo.length).toNat = 0 := by omega
        rw [hsteps, List.take_zero, List.append_nil]

/-! ### A message of a later height -/

end Node

end Helix

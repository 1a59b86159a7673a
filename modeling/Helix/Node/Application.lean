import Helix.Node.Moves

/-!
# Applying a block as a whole

`_append_and_advance` stores the block before it does anything that can still fail: the content keys
of the records and the membership changes are looked at afterwards, and nothing is undone. So a
block is applied as a whole, or not at all, just when the repository refuses it or nothing fails.
-/

namespace Helix

variable [Crypto] [Columns]

open Relation (ReflTransGen)

/-- The states of a node in a run whose methods satisfy `ok`, between two methods or within one. -/
def Node.Passes (ok : Operation → Prop) (n₀ n : Node) : Prop :=
  ∃ n₁ o, Node.Runs ok n₀ n₁ ∧ ok o ∧ ReflTransGen (NodeMove o) n₁ n

/-- What the moves of every method keep, and a restart brings back, holds throughout a run. -/
lemma Node.Passes.induction {ok : Operation → Prop} {P : Node → Prop}
    (hmove : ∀ o, ok o → ∀ n n', NodeMove o n n' → P n → P n')
    (hrestart : ∀ n validators nowMs n', P n →
      Node.init n.privateKey validators n.repo n.journalStore nowMs = .ok n' → P n')
    {n₀ n : Node} (hpass : Node.Passes ok n₀ n) (h : P n₀) : P n := by
  obtain ⟨n₁, o, hrun, ho, hpath⟩ := hpass
  induction hpath with
  | refl => exact hrun.induction hmove hrestart h
  | tail _ hm ih => exact hmove o ho _ _ hm ih

namespace Node

/-- The content key of every pending record can be computed. -/
def Keyed (n : Node) : Prop := ∀ r ∈ n.pending, ∃ key, r.contentKey = .ok key

lemma Keyed.move {o : Operation} {n n' : Node} (hmove : NodeMove o n n') (h : n.Keyed) :
    n'.Keyed := by
  cases hmove with
  | append happend =>
    cases happend with
    | refused => exact h
    | stored => exact h
    | forgotten hrepo hkeys hpending => exact fun r hr => h r (mem_filterM hpending hr).1
    | advanced hrepo hkeys hpending => exact fun r hr => h r (mem_filterM hpending hr).1
  | enqueueRecords hverify hfresh =>
    intro r hr
    rcases List.mem_append.mp hr with hr | hr
    · exact h r hr
    · obtain ⟨key, hkey, -⟩ := hfresh r hr
      exact ⟨key, hkey⟩
  | _ => exact h

lemma Keyed.init {privateKey : PrivateKey} {validators : ValidatorSet} {blocks : List Block}
    {journalStore : JournalStore} {nowMs : ℕ → ℤ} {n : Node}
    (h : Node.init privateKey validators blocks journalStore nowMs = .ok n) : n.Keyed := by
  obtain ⟨repo, active, engine, -, -, -, rfl⟩ := Node.init_eq_ok h
  exact nofun

lemma Passes.keyed {ok : Operation → Prop} {privateKey : PrivateKey} {validators : ValidatorSet}
    {blocks : List Block} {journalStore : JournalStore} {nowMs : ℕ → ℤ} {n₀ n : Node}
    (hinit : Node.init privateKey validators blocks journalStore nowMs = .ok n₀)
    (hpass : Node.Passes ok n₀ n) : n.Keyed :=
  hpass.induction (fun _ _ _ _ hmove h => h.move hmove) (fun _ _ _ _ _ h => .init h) (.init hinit)

/-- The node has moved on by the block: tip, active set and engine. -/
structure Advanced (n : Node) (block : Block) (n' : Node) : Prop where
  repo : n'.repo = n.repo ++ [block]
  active : applyChanges n.active block.validatorChanges = .ok n'.active
  engine : ∀ e ∈ n'.engine, e.height = n'.height + 1

/-- `_append_and_advance` moves the node on by the block, or raises and leaves it as it was. -/
def AppliesWhole (n : Node) (block : Block) : Prop :=
  match NodeM.appendAndAdvance block n with
  | (.ok _, n') => n.Advanced block n'
  | (.error _, n') => n' = n

lemma Appends.advanced_of_ok {n n' : Node} {block : Block} (h : n.Appends block (.ok ()) n') :
    n.Advanced block n' := by
  cases h with
  | advanced hrepo hkeys hpending hactive hengine =>
    obtain ⟨rfl, -, -⟩ := Repository.append_eq_ok hrepo
    refine ⟨rfl, hactive, fun e he => ?_⟩
    obtain rfl : _ = some e := he
    rcases newEngine_eq_ok hengine with hnone | ⟨-, latest, hash, hlast, -, he⟩
    · cases hnone
    · cases he
      have hheight : Repository.height (n.repo ++ [block]) = latest.index := by
        have hlast' : (n.repo ++ [block]).getLast? = some latest := hlast
        rw [Repository.height, hlast']
        rfl
      exact congrArg (· + 1) hheight.symm

lemma ne_of_append {n n' : Node} {block : Block}
    (hrepo : Repository.append n.repo block = .ok n'.repo) : n' ≠ n := by
  obtain ⟨heq, -, -⟩ := Repository.append_eq_ok hrepo
  rintro rfl
  have hlength := congrArg List.length heq
  simp at hlength

/-- At any point of a run, a block is applied as a whole or not at all just when the repository
refuses it, or the content keys of its records can be computed and its changes apply to the active
set. -/
theorem appliesWhole_iff {privateKey : PrivateKey} {validators : ValidatorSet} {blocks : List Block}
    {journalStore : JournalStore} {nowMs : ℕ → ℤ} {n₀ n : Node}
    (hinit : Node.init privateKey validators blocks journalStore nowMs = .ok n₀)
    (hpass : Node.Passes (fun _ => True) n₀ n) (block : Block) :
    n.AppliesWhole block ↔ (∃ err, Repository.append n.repo block = .error err) ∨
      (∀ r ∈ block.records, ∃ key, r.contentKey = .ok key) ∧
        ∃ V, applyChanges n.active block.validatorChanges = .ok V := by
  have hkeyed := hpass.keyed hinit
  have happend := NodeM.appendAndAdvance_appends n block
  unfold AppliesWhole
  rcases hrun : NodeM.appendAndAdvance block n with ⟨result, n'⟩
  rw [hrun] at happend
  cases happend with
  | refused hrepo => simp [hrepo]
  | @stored repo err hrepo hkey =>
    refine ⟨fun h => absurd h (ne_of_append hrepo), ?_⟩
    rintro (⟨err', h⟩ | ⟨hkeys, -⟩)
    · rw [hrepo] at h
      cases h
    · obtain ⟨r, hr, herr⟩ := hkey
      obtain ⟨key, hkey⟩ := hr.elim (hkeys r) (hkeyed r)
      rw [herr] at hkey
      cases hkey
  | forgotten hrepo hkeys hpending hchanges hactive =>
    refine ⟨fun h => absurd h (ne_of_append hrepo), ?_⟩
    rintro (⟨err', h⟩ | ⟨-, V, h⟩)
    · rw [hrepo] at h
      cases h
    · rw [hactive] at h
      cases h
  | advanced hrepo hkeys hpending hactive hengine =>
    refine ⟨fun _ => Or.inr ⟨fun r hr => exists_of_mapM_ok hkeys hr, _, hactive⟩, fun _ => ?_⟩
    exact (Appends.advanced hrepo hkeys hpending hactive hengine).advanced_of_ok

set_option maxRecDepth 4000 in
omit [Crypto] [Columns] in
/-- A node that has been pushed a block applies the next one, which changes the set, as a whole; and it
applies nothing of that block if its timestamp is too large for the column. -/
theorem appliesWhole_of_handover :
    letI := Crypto.checksums
    letI := Columns.sqlite
    ∃ n₀, Node.init (seedKey 0xbb) .single [] .null (fun i => i) = .ok n₀ ∧
      let n := (Operation.ingestBlock .joining).run 1 n₀
      n.repo.length = 2 ∧ n.AppliesWhole .leaving ∧ n.AppliesWhole (Block.leaving.dated (2 ^ 63)) ∧
        (Repository.append n.repo .leaving).isOk = true ∧
        (Repository.append n.repo (Block.leaving.dated (2 ^ 63))).isOk = false := by
  let := Crypto.checksums
  let := Columns.sqlite
  have hrun : (Node.init (seedKey 0xbb) .single [] .null fun i => i).map (fun n₀ =>
      let n := (Operation.ingestBlock .joining).run 1 n₀
      decide (n.repo.length = 2 ∧ (applyChanges n.active Block.leaving.validatorChanges).isOk = true ∧
        (Repository.append n.repo .leaving).isOk = true ∧
        (Repository.append n.repo (Block.leaving.dated (2 ^ 63))).isOk = false)) = .ok true := by
    decide +kernel
  have hkeyed : ∀ r ∈ Block.leaving.records, r.contentKey.isOk = true := by decide +kernel
  obtain ⟨n₀, hinit, hn₀⟩ := exists_of_map_eq_ok hrun
  obtain ⟨hlength, hchanges, hstored, hrefused⟩ := of_decide_eq_true hn₀
  have hpass : Node.Passes (fun _ => True) n₀ ((Operation.ingestBlock .joining).run 1 n₀) :=
    ⟨_, .tick, .single (.operation trivial 1), trivial, .refl⟩
  refine ⟨n₀, hinit, hlength, ?_, ?_, hstored, hrefused⟩
  · refine (appliesWhole_iff hinit hpass _).mpr (Or.inr ⟨fun r hr => ?_, exists_of_isOk hchanges⟩)
    exact exists_of_isOk (hkeyed r hr)
  · refine (appliesWhole_iff hinit hpass _).mpr (Or.inl ?_)
    cases happend : Repository.append ((Operation.ingestBlock .joining).run 1 n₀).repo
        (Block.leaving.dated (2 ^ 63)) with
    | error err => exact ⟨err, rfl⟩
    | ok repo =>
      rw [happend] at hrefused
      cases hrefused

omit [Crypto] [Columns] in
/-- A pushed block with the seal of the single validator whose body removes that validator: it passes
the checks and is stored, and then `_append_and_advance` raises. The node cannot be started again on
its blocks. -/
theorem stored_before_changes_applied :
    letI := Crypto.checksums
    letI := Columns.sqlite
    let block := { Block.sealedAfterGenesis with
      validatorChanges := [⟨.REMOVE, (seedPublic 0xaa).toHex⟩] }
    ∃ n₀, Node.init (seedKey 0xaa) .single [] .null (fun i => i) = .ok n₀ ∧
      (NodeM.extendsTip block n₀).1 = .ok true ∧ ¬n₀.AppliesWhole block ∧
      (Node.init (seedKey 0xaa) .single (NodeM.appendAndAdvance block n₀).2.repo .null
        fun i => i).isOk = false := by
  let := Crypto.checksums
  let := Columns.sqlite
  intro block
  have hrun : (Node.init (seedKey 0xaa) .single [] .null fun i => i).map (fun n₀ =>
      let after := NodeM.appendAndAdvance block n₀
      let again := Node.init (seedKey 0xaa) .single after.2.repo .null fun i => i
      (((NodeM.extendsTip block n₀).1, after.1.isOk, again.isOk), n₀.repo.length,
        after.2.repo.length)) = .ok ((.ok true, false, false), 1, 2) := by
    decide +kernel
  obtain ⟨n₀, hinit, hn₀⟩ := exists_of_map_eq_ok hrun
  simp only [Prod.mk.injEq] at hn₀
  obtain ⟨⟨hchecks, hraised, hagain⟩, hbefore, hafter⟩ := hn₀
  refine ⟨n₀, hinit, hchecks, ?_, hagain⟩
  unfold AppliesWhole
  rcases hresult : NodeM.appendAndAdvance block n₀ with ⟨_ | _, n'⟩ <;>
    rw [hresult] at hafter hraised
  · rintro rfl
    exact absurd (hbefore.symm.trans hafter) (by decide)
  · cases hraised

end Node

end Helix

import Mathlib.Data.List.Forall2
import Mathlib.Logic.Relation
import Mathlib.Tactic.SplitIfs

/-!
# Stateful computations that may raise

A computation reads and writes a state and ends with a value or with an exception. An exception
does not undo the writes made before it. `Leads R x s Q` says that everything `x` does from `s` is
a sequence of `R`-steps, also when it raises, and that `Q` holds of the value and the state when it
returns. The rules below follow the way computations are put together.
-/

namespace Helix

/-- A computation over the state `σ` that returns an `α` or raises an `ε`. -/
def Eff (σ ε α : Type) : Type := σ → Except ε α × σ

namespace Eff

variable {σ ε α β : Type}

instance : Monad (Eff σ ε) where
  pure a := fun s => (.ok a, s)
  bind x f := fun s =>
    match x s with
    | (.ok a, s') => f a s'
    | (.error e, s') => (.error e, s')

/-- The current state. -/
def get : Eff σ ε σ := fun s => (.ok s, s)

/-- Change the state. -/
def modify (f : σ → σ) : Eff σ ε Unit := fun s => (.ok (), f s)

/-- A computation without effect on the state. -/
def lift (x : Except ε α) : Eff σ ε α := fun s => (x, s)

instance : MonadLift (Except ε) (Eff σ ε) := ⟨lift⟩

/-- Raise an exception. -/
def raise (e : ε) : Eff σ ε α := fun s => (.error e, s)

@[simp] lemma pure_apply (a : α) (s : σ) : (pure a : Eff σ ε α) s = (.ok a, s) := rfl

@[simp] lemma get_apply (s : σ) : (get : Eff σ ε σ) s = (.ok s, s) := rfl

@[simp] lemma modify_apply (f : σ → σ) (s : σ) :
    (modify f : Eff σ ε Unit) s = (.ok (), f s) := rfl

lemma bind_apply_ok {x : Eff σ ε α} {f : α → Eff σ ε β} {s s' : σ} {a : α}
    (h : x s = (.ok a, s')) : (x >>= f) s = f a s' := by
  simp only [bind, h]

lemma bind_apply_error {x : Eff σ ε α} {f : α → Eff σ ε β} {s s' : σ} {e : ε}
    (h : x s = (.error e, s')) : (x >>= f) s = (.error e, s') := by
  simp only [bind, h]

lemma lift_bind_ok {x : Except ε α} {a : α} (hx : x = .ok a) (f : α → Eff σ ε β) (s : σ) :
    (lift x >>= f) s = f a s := by
  subst hx
  rfl

/-! ### Steps of a computation -/

open Relation (ReflTransGen)

/-- Everything `x` does from `s` is a sequence of `R`-steps; if it returns, `Q` holds. -/
def Leads (R : σ → σ → Prop) (x : Eff σ ε α) (s : σ) (Q : α → σ → Prop) : Prop :=
  ReflTransGen R s (x s).2 ∧ ∀ a, (x s).1 = .ok a → Q a (x s).2

variable {R : σ → σ → Prop} {s : σ} {Q Q' : α → σ → Prop}

namespace Leads

lemma path {x : Eff σ ε α} (h : Leads R x s Q) : ReflTransGen R s (x s).2 := h.1

lemma mono {x : Eff σ ε α} (h : Leads R x s Q) (hQ : ∀ a s', Q a s' → Q' a s') :
    Leads R x s Q' :=
  ⟨h.1, fun a ha => hQ a _ (h.2 a ha)⟩

lemma pure {a : α} (h : Q a s) : Leads R (Pure.pure a : Eff σ ε α) s Q :=
  ⟨.refl, fun _ hb => by cases hb; exact h⟩

lemma modify {Q : Unit → σ → Prop} {f : σ → σ} (hR : R s (f s)) (h : Q () (f s)) :
    Leads R (Eff.modify f : Eff σ ε Unit) s Q :=
  ⟨.single hR, fun _ _ => h⟩

lemma lift {x : Except ε α} (h : ∀ a, x = .ok a → Q a s) : Leads R (Eff.lift x) s Q :=
  ⟨.refl, fun a ha => h a ha⟩

/-- What `x` returns in a step, or without one. -/
lemma of_eq {x : Eff σ ε α} (a : α) (s' : σ) (hx : x s = (.ok a, s'))
    (hR : ReflTransGen R s s') (hQ : Q a s') : Leads R x s Q := by
  rw [Leads, hx]
  exact ⟨hR, fun b hb => by cases hb; exact hQ⟩

lemma of_error {x : Eff σ ε α} (e : ε) (s' : σ) (hx : x s = (.error e, s'))
    (hR : ReflTransGen R s s') : Leads R x s Q := by
  rw [Leads, hx]
  exact ⟨hR, nofun⟩

/-- Steps to a state from which `x` goes on as `y`. -/
lemma congr {x y : Eff σ ε α} {s' : σ} (h : x s = y s') (hR : ReflTransGen R s s')
    (hy : Leads R y s' Q) : Leads R x s Q := by
  rw [Leads, h]
  exact ⟨hR.trans hy.1, hy.2⟩

lemma bind {x : Eff σ ε α} {f : α → Eff σ ε β} {P : β → σ → Prop} (hx : Leads R x s Q)
    (hf : ∀ a s', ReflTransGen R s s' → Q a s' → Leads R (f a) s' P) :
    Leads R (x >>= f) s P := by
  obtain ⟨hpath, hval⟩ := hx
  rcases hrun : x s with ⟨_ | a, s'⟩
  · rw [hrun] at hpath
    refine ⟨?_, fun b hb => ?_⟩
    · rw [bind_apply_error hrun]
      exact hpath
    · rw [bind_apply_error hrun] at hb
      cases hb
  · rw [hrun] at hpath
    have hq : Q a s' := by simpa [hrun] using hval a (by rw [hrun])
    obtain ⟨hpath', hval'⟩ := hf a s' hpath hq
    rw [Leads, bind_apply_ok hrun]
    exact ⟨hpath.trans hpath', hval'⟩

lemma lift_bind {x : Except ε α} {f : α → Eff σ ε β} {P : β → σ → Prop}
    (hf : ∀ a, x = .ok a → Leads R (f a) s P) : Leads R (Eff.lift x >>= f) s P :=
  bind (Q := fun a s' => x = .ok a ∧ s' = s) (lift fun _ ha => ⟨ha, rfl⟩)
    fun a _ _ ⟨ha, hs⟩ => hs ▸ hf a ha

lemma modify_bind {g : σ → σ} {f : Unit → Eff σ ε β} {P : β → σ → Prop} (hR : R s (g s))
    (hf : Leads R (f ()) (g s) P) : Leads R (Eff.modify g >>= f) s P :=
  bind (Q := fun _ s' => s' = g s) (modify hR rfl) fun _ _ _ hs => hs ▸ hf

lemma ite {c : Prop} [Decidable c] {x y : Eff σ ε α} (hx : c → Leads R x s Q)
    (hy : ¬c → Leads R y s Q) : Leads R (if c then x else y) s Q := by
  split_ifs with h
  · exact hx h
  · exact hy h

/-- A loop over a list keeps what each of its passes keeps. -/
lemma forM {l : List α} {f : α → Eff σ ε PUnit} {I : σ → Prop} (hI : I s)
    (hf : ∀ a ∈ l, ∀ s', ReflTransGen R s s' → I s' → Leads R (f a) s' fun _ => I) :
    Leads R (l.forM f) s fun _ => I := by
  induction l generalizing s with
  | nil => exact Leads.pure hI
  | cons a l ih =>
    exact Leads.bind (hf a List.mem_cons_self s .refl hI) fun _ s' hpath hs' =>
      ih hs' fun b hb t ht => hf b (List.mem_cons_of_mem _ hb) t (hpath.trans ht)

end Leads

/-! ### Computations that return -/

/-- `x` returns from `s`, and `Q` holds of its value and the state it leaves. -/
def Returns (x : Eff σ ε α) (s : σ) (Q : α → σ → Prop) : Prop :=
  ∃ a s', x s = (.ok a, s') ∧ Q a s'

namespace Returns

lemma of_eq {x : Eff σ ε α} {a : α} {s' : σ} (hx : x s = (.ok a, s')) (h : Q a s') :
    Returns x s Q :=
  ⟨a, s', hx, h⟩

lemma pure {a : α} (h : Q a s) : Returns (Pure.pure a : Eff σ ε α) s Q := of_eq rfl h

/-- What `x` does is what `y` does from `t`. -/
lemma congr_iff {x y : Eff σ ε α} {t : σ} (h : x s = y t) : Returns x s Q ↔ Returns y t Q := by
  rw [Returns, h]
  rfl

lemma congr {x y : Eff σ ε α} {t : σ} (h : x s = y t) (hy : Returns y t Q) : Returns x s Q :=
  (congr_iff h).mpr hy

lemma mono {x : Eff σ ε α} (h : Returns x s Q) (hQ : ∀ a s', Q a s' → Q' a s') :
    Returns x s Q' := by
  obtain ⟨a, s', hx, ha⟩ := h
  exact ⟨a, s', hx, hQ a s' ha⟩

lemma bind {x : Eff σ ε α} {f : α → Eff σ ε β} {P : β → σ → Prop} (hx : Returns x s Q)
    (hf : ∀ a s', Q a s' → Returns (f a) s' P) : Returns (x >>= f) s P := by
  obtain ⟨a, s', hrun, ha⟩ := hx
  obtain ⟨b, t, hrun', hb⟩ := hf a s' ha
  exact ⟨b, t, (bind_apply_ok hrun).trans hrun', hb⟩

lemma lift_bind {x : Except ε α} {a : α} {f : α → Eff σ ε β} {P : β → σ → Prop} (hx : x = .ok a)
    (hf : Returns (f a) s P) : Returns (Eff.lift x >>= f) s P := by
  subst hx
  exact hf

lemma ite {c : Prop} [Decidable c] {x y : Eff σ ε α} (hx : c → Returns x s Q)
    (hy : ¬c → Returns y s Q) : Returns (if c then x else y) s Q := by
  split_ifs with h
  · exact hx h
  · exact hy h

/-- A loop over a list, with an invariant about the passes made so far. -/
lemma forM {l : List α} {f : α → Eff σ ε PUnit} {I : List α → σ → Prop} (hI : I [] s)
    (hf : ∀ l₁ a, a ∈ l → ∀ s', I l₁ s' → Returns (f a) s' fun _ => I (l₁ ++ [a])) :
    Returns (l.forM f) s fun _ => I l := by
  have hgo : ∀ (l₂ l₁ : List α) (s : σ), (∀ a ∈ l₂, a ∈ l) → I l₁ s →
      Returns (l₂.forM f) s fun _ => I (l₁ ++ l₂) := by
    intro l₂
    induction l₂ with
    | nil =>
      intro l₁ s _ hI
      exact pure (by rwa [List.append_nil])
    | cons a l₂ ih =>
      intro l₁ s hmem hI
      refine bind (hf l₁ a (hmem a List.mem_cons_self) s hI) fun _ s' hI' => ?_
      have := ih (l₁ ++ [a]) s' (fun b hb => hmem b (List.mem_cons_of_mem _ hb)) hI'
      rwa [List.append_assoc, List.singleton_append] at this
  exact hgo l [] s (fun _ h => h) hI

end Returns

/-- A loop keeps what its passes keep, also when one of them raises. -/
lemma forM_keeps {l : List α} {f : α → Eff σ ε PUnit} {I : σ → Prop} (hI : I s)
    (hf : ∀ a ∈ l, ∀ s', I s' → I (f a s').2) : I (l.forM f s).2 := by
  induction l generalizing s with
  | nil => exact hI
  | cons a l ih =>
    have hI' := hf a List.mem_cons_self s hI
    have hloop : (a :: l).forM f s = (f a >>= fun _ => l.forM f) s := rfl
    rcases hrun : f a s with ⟨e | _, s'⟩
    · rw [hrun] at hI'
      rw [hloop, bind_apply_error hrun]
      exact hI'
    · rw [hrun] at hI'
      rw [hloop, bind_apply_ok hrun]
      exact ih hI' fun b hb => hf b (List.mem_cons_of_mem _ hb)

/-- A loop with a pass that raises is left there, or before, with what its passes keep. -/
lemma forM_raises {l : List α} {f : α → Eff σ ε PUnit} {I : σ → Prop} {a : α} (ha : a ∈ l)
    (hI : I s) (hf : ∀ b ∈ l, ∀ s', I s' → I (f b s').2)
    (hraise : ∀ s', I s' → ∃ e s'', f a s' = (.error e, s'')) :
    ∃ e s', l.forM f s = (.error e, s') ∧ I s' := by
  induction l generalizing s with
  | nil => cases ha
  | cons b l ih =>
    have hI' := hf b List.mem_cons_self s hI
    rcases hrun : f b s with ⟨e | _, s'⟩
    · rw [hrun] at hI'
      exact ⟨e, s', bind_apply_error hrun, hI'⟩
    · rw [hrun] at hI'
      have hmem : a ∈ l := by
        refine (List.mem_cons.mp ha).resolve_left fun heq => ?_
        obtain ⟨e, s'', hrun'⟩ := hraise s hI
        rw [heq, hrun] at hrun'
        cases hrun'
      obtain ⟨e, s'', hloop, hI''⟩ :=
        ih hmem hI' fun c hc => hf c (List.mem_cons_of_mem _ hc)
      exact ⟨e, s'', (bind_apply_ok hrun).trans hloop, hI''⟩

end Eff

/-- What a computation that may raise returns, from a result computed with it. -/
lemma exists_of_map_eq_ok {ε α β : Type*} {x : Except ε α} {f : α → β} {b : β}
    (h : x.map f = .ok b) : ∃ a, x = .ok a ∧ f a = b := by
  cases x with
  | error e => cases h
  | ok a => exact ⟨a, rfl, Except.ok.inj h⟩

lemma exists_of_bind_eq_ok {ε α β : Type*} {x : Except ε α} {f : α → Except ε β} {b : β}
    (h : x.bind f = .ok b) : ∃ a, x = .ok a ∧ f a = .ok b := by
  cases x with
  | error e => cases h
  | ok a => exact ⟨a, rfl, h⟩

lemma exists_of_isOk {ε α : Type*} {x : Except ε α} (h : x.isOk = true) : ∃ a, x = .ok a := by
  cases x with
  | error e => cases h
  | ok a => exact ⟨a, rfl⟩

/-- A loop that may raise keeps what each of its passes keeps. -/
lemma foldlM_induction {ε α β : Type*} {f : β → α → Except ε β} {I : β → Prop} {l : List α}
    (hstep : ∀ a ∈ l, ∀ b b', I b → f b a = .ok b' → I b') {b out : β} (hb : I b)
    (h : l.foldlM f b = .ok out) : I out := by
  induction l generalizing b with
  | nil =>
    cases h
    exact hb
  | cons a l ih =>
    rw [List.foldlM_cons] at h
    cases hf : f b a with
    | error e => rw [hf] at h; cases h
    | ok b' =>
      rw [hf] at h
      exact ih (fun a' ha' => hstep a' (List.mem_cons_of_mem _ ha'))
        (hstep a List.mem_cons_self b b' hb hf) h

/-- What each pass of a loop brings about for its element, and later passes keep, holds at the
end. -/
lemma foldlM_forall {ε α β : Type*} {f : β → α → Except ε β} {P : α → β → Prop} {l : List α}
    (hstep : ∀ a ∈ l, ∀ b b', f b a = .ok b' → P a b')
    (hkeep : ∀ a ∈ l, ∀ b b', f b a = .ok b' → ∀ a', P a' b → P a' b') {b out : β}
    (h : l.foldlM f b = .ok out) : ∀ a ∈ l, P a out := by
  induction l generalizing b with
  | nil => exact nofun
  | cons a l ih =>
    rw [List.foldlM_cons] at h
    cases hf : f b a with
    | error e => rw [hf] at h; cases h
    | ok b' =>
      rw [hf] at h
      have hkeep' : ∀ a ∈ l, ∀ b b', f b a = .ok b' → ∀ a', P a' b → P a' b' :=
        fun a ha => hkeep a (List.mem_cons_of_mem _ ha)
      intro x hx
      rcases List.mem_cons.mp hx with rfl | hx
      · exact foldlM_induction (fun y hy b b' hb hfb => hkeep' y hy b b' hfb x hb)
          (hstep x List.mem_cons_self b b' hf) h
      · exact ih (fun y hy => hstep y (List.mem_cons_of_mem _ hy)) hkeep' h x hx

/-- A loop none of whose passes raises does not raise. -/
lemma exists_foldlM {ε α β : Type*} {f : β → α → Except ε β} {l : List α}
    (hstep : ∀ a ∈ l, ∀ b, ∃ b', f b a = .ok b') (b : β) : ∃ out, l.foldlM f b = .ok out := by
  induction l generalizing b with
  | nil => exact ⟨b, rfl⟩
  | cons a l ih =>
    obtain ⟨b', hb'⟩ := hstep a List.mem_cons_self b
    obtain ⟨out, hout⟩ := ih (fun y hy => hstep y (List.mem_cons_of_mem _ hy)) b'
    exact ⟨out, by rw [List.foldlM_cons, hb']; exact hout⟩

/-- The results of a loop that may raise, element by element. -/
lemma forall₂_of_mapM {ε α β : Type} {f : α → Except ε β} {l : List α} {out : List β}
    (h : l.mapM f = .ok out) : List.Forall₂ (fun a b => f a = .ok b) l out := by
  induction l generalizing out with
  | nil =>
    cases h
    exact .nil
  | cons a l ih =>
    rw [List.mapM_cons] at h
    cases ha : f a with
    | error e => rw [ha] at h; cases h
    | ok b =>
      cases hl : l.mapM f with
      | error e => simp only [ha, hl, bind, Except.bind] at h; cases h
      | ok bs =>
        simp only [ha, hl, bind, Except.bind, pure, Except.pure] at h
        cases h
        exact .cons ha (ih hl)

/-- A loop that does not raise raises at none of its elements. -/
lemma exists_of_mapM_ok {ε α β : Type} {f : α → Except ε β} {l : List α} {out : List β}
    (h : l.mapM f = .ok out) {a : α} (ha : a ∈ l) : ∃ b, f a = .ok b := by
  have hall := forall₂_of_mapM h
  clear h
  induction hall with
  | nil => cases ha
  | cons hf _ ih =>
    rcases List.mem_cons.mp ha with rfl | ha
    · exact ⟨_, hf⟩
    · exact ih ha

/-- The result for an element is among the results of a loop. -/
lemma mem_of_mapM {ε α β : Type} {f : α → Except ε β} {l : List α} {out : List β}
    (h : l.mapM f = .ok out) {a : α} (ha : a ∈ l) {b : β} (hb : f a = .ok b) : b ∈ out := by
  have hall := forall₂_of_mapM h
  clear h
  induction hall with
  | nil => cases ha
  | cons hf _ ih =>
    rcases List.mem_cons.mp ha with rfl | ha
    · exact List.mem_cons.mpr (Or.inl (Except.ok.inj (hb.symm.trans hf)))
    · exact List.mem_cons_of_mem _ (ih ha)

/-- Every result of a loop is that of one of its elements. -/
lemma exists_of_mem_mapM {ε α β : Type} {f : α → Except ε β} {l : List α} {out : List β}
    (h : l.mapM f = .ok out) {b : β} (hb : b ∈ out) : ∃ a ∈ l, f a = .ok b := by
  have hall := forall₂_of_mapM h
  clear h
  induction hall with
  | nil => cases hb
  | cons hf _ ih =>
    rcases List.mem_cons.mp hb with rfl | hb
    · exact ⟨_, List.mem_cons_self, hf⟩
    · exact (ih hb).imp fun a ha => ha.imp_left (List.mem_cons_of_mem _)

/-- A loop that raises does so at one of its elements. -/
lemma exists_of_mapM_error {ε α β : Type} {f : α → Except ε β} {l : List α} {e : ε}
    (h : l.mapM f = .error e) : ∃ a ∈ l, f a = .error e := by
  induction l with
  | nil => cases h
  | cons a l ih =>
    rw [List.mapM_cons] at h
    cases ha : f a with
    | error e' =>
      rw [ha] at h
      cases h
      exact ⟨a, List.mem_cons_self, ha⟩
    | ok b =>
      cases hl : l.mapM f with
      | error e' =>
        simp only [ha, hl, bind, Except.bind] at h
        cases h
        exact (ih hl).imp fun x hx => hx.imp_left (List.mem_cons_of_mem _)
      | ok bs => simp only [ha, hl, bind, Except.bind, pure, Except.pure] at h; cases h

/-- A list is read back element by element. -/
lemma mapM_map_of_inverse {ε α β : Type} {f : α → β} {g : β → Except ε α} {l : List α}
    (h : ∀ a ∈ l, g (f a) = .ok a) : (l.map f).mapM g = .ok l := by
  induction l with
  | nil => rfl
  | cons a l ih =>
    have hl := ih fun b hb => h b (List.mem_cons_of_mem a hb)
    rw [List.map_cons, List.mapM_cons, h a List.mem_cons_self, hl]
    rfl

/-- A loop none of whose elements raises does not raise. -/
lemma exists_mapM {ε α β : Type} {f : α → Except ε β} {l : List α}
    (h : ∀ a ∈ l, ∃ b, f a = .ok b) : ∃ out, l.mapM f = .ok out := by
  cases hl : l.mapM f with
  | ok out => exact ⟨out, rfl⟩
  | error e =>
    obtain ⟨a, ha, herr⟩ := exists_of_mapM_error hl
    obtain ⟨b, hb⟩ := h a ha
    rw [herr] at hb
    cases hb

/-- What holds of all the results of a loop holds of the result of each element. -/
lemma forall₂_iff_of_mapM {ε α β : Type} {f : α → Except ε β} {l : List α} {out : List β}
    {R : α → β → Prop} (h : l.mapM f = .ok out) :
    List.Forall₂ R l out ↔ ∀ a ∈ l, ∀ b, f a = .ok b → R a b := by
  have hall := forall₂_of_mapM h
  clear h
  induction hall with
  | nil => simp
  | cons hf _ ih => simp [ih, hf]

/-- A loop of loops is one loop. -/
lemma mapM_flatMap {ε α β γ : Type} {f : β → Except ε γ} {g : α → List β} (l : List α) :
    (l.mapM fun a => (g a).mapM f).map List.flatten = (l.flatMap g).mapM f := by
  induction l with
  | nil => rfl
  | cons a l ih =>
    rw [List.mapM_cons, List.flatMap_cons, List.mapM_append, ← ih]
    cases (g a).mapM f with
    | error e => rfl
    | ok bs => cases l.mapM fun a => (g a).mapM f <;> rfl

/-- A filter that may raise, by the elements it has still to look at. -/
lemma filterAuxM_eq_ok {ε α : Type} {p : α → Except ε Bool} {l acc out : List α} :
    l.filterAuxM p acc = .ok out ↔ (∀ a ∈ l, ∃ b, p a = .ok b) ∧
      out = (l.filter fun a => (p a).toOption.getD false).reverse ++ acc := by
  induction l generalizing acc with
  | nil => simp [List.filterAuxM, pure, Except.pure, eq_comm]
  | cons b l ih =>
    rw [List.filterAuxM]
    cases hb : p b with
    | error e => simp [hb, bind, Except.bind]
    | ok keep =>
      have hkeep : (Except.ok keep : Except ε Bool).toOption = some keep := rfl
      rw [show (Except.ok keep >>= fun b_1 => l.filterAuxM p (bif b_1 then b :: acc else acc)) =
        l.filterAuxM p (bif keep then b :: acc else acc) from rfl, ih]
      cases keep with
      | true => simp [hb, hkeep]
      | false => simp [hb, hkeep]

/-- A filter that may raise is a plain filter where it does not. -/
lemma filterM_eq_ok {ε α : Type} {p : α → Except ε Bool} {l out : List α} :
    l.filterM p = .ok out ↔ (∀ a ∈ l, ∃ b, p a = .ok b) ∧
      out = l.filter fun a => (p a).toOption.getD false := by
  unfold List.filterM
  cases haux : l.filterAuxM p [] with
  | error e =>
    refine ⟨nofun, fun h => ?_⟩
    rw [filterAuxM_eq_ok.mpr ⟨h.1, rfl⟩] at haux
    cases haux
  | ok rev =>
    obtain ⟨hall, rfl⟩ := filterAuxM_eq_ok.mp haux
    rw [List.append_nil]
    constructor
    · intro h
      cases h
      exact ⟨hall, List.reverse_reverse _⟩
    · rintro ⟨-, rfl⟩
      exact congrArg Except.ok (List.reverse_reverse _)

/-- What a filter that may raise keeps. -/
lemma mem_filterM {ε α : Type} {p : α → Except ε Bool} {l out : List α}
    (h : l.filterM p = .ok out) {a : α} (ha : a ∈ out) : a ∈ l ∧ p a = .ok true := by
  obtain ⟨hall, rfl⟩ := filterM_eq_ok.mp h
  obtain ⟨hmem, hkeep⟩ := List.mem_filter.mp ha
  obtain ⟨b, hb⟩ := hall a hmem
  rw [hb] at hkeep
  exact ⟨hmem, hb.trans (congrArg _ hkeep)⟩

/-- What a filter that may raise drops. -/
lemma mem_or_of_filterM {ε α : Type} {p : α → Except ε Bool} {l out : List α}
    (h : l.filterM p = .ok out) {a : α} (ha : a ∈ l) : a ∈ out ∨ p a = .ok false := by
  obtain ⟨hall, rfl⟩ := filterM_eq_ok.mp h
  obtain ⟨b, hb⟩ := hall a ha
  cases b with
  | true => exact Or.inl (List.mem_filter.mpr ⟨ha, by rw [hb]; rfl⟩)
  | false => exact Or.inr hb

lemma sublist_of_filterM {ε α : Type} {p : α → Except ε Bool} {l out : List α}
    (h : l.filterM p = .ok out) : out.Sublist l := by
  rw [(filterM_eq_ok.mp h).2]
  exact List.filter_sublist

lemma exists_of_filterAuxM_error {ε α : Type} {p : α → Except ε Bool} {l acc : List α} {e : ε}
    (h : l.filterAuxM p acc = .error e) : ∃ a ∈ l, p a = .error e := by
  induction l generalizing acc with
  | nil => cases h
  | cons b l ih =>
    simp only [List.filterAuxM] at h
    cases hb : p b with
    | error e' =>
      rw [hb] at h
      cases h
      exact ⟨b, List.mem_cons_self, hb⟩
    | ok keep =>
      rw [hb] at h
      exact (ih h).imp fun x hx => hx.imp_left (List.mem_cons_of_mem _)

/-- A filter that raises does so at one of its elements. -/
lemma exists_of_filterM_error {ε α : Type} {p : α → Except ε Bool} {l : List α} {e : ε}
    (h : l.filterM p = .error e) : ∃ a ∈ l, p a = .error e := by
  unfold List.filterM at h
  cases haux : l.filterAuxM p [] with
  | error e' =>
    rw [haux] at h
    cases h
    exact exists_of_filterAuxM_error haux
  | ok rev => rw [haux] at h; cases h

end Helix

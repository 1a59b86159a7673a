import Mathlib.Algebra.Order.Field.Basic
import Mathlib.Data.Nat.Cast.Order.Ring
import Mathlib.Tactic.Linarith
import Mathlib.Tactic.Ring

/-!
# Token buckets

A bucket holds at most `burst` tokens, gains `rate` tokens in a unit of time, and gives one token away
with each request that it grants. The tokens that are there at the beginning of a window, and those that
come in until its end, bound the requests that are granted in it.
-/

namespace Helix

variable {K : Type*} [Field K] [LinearOrder K] {burst rate : K}

/-- The tokens that the last request has left, and its time. -/
structure TokenBucket (K : Type*) where
  tokens : K
  time : K

namespace TokenBucket

/-- The tokens at a later time. -/
def level (burst rate : K) (b : TokenBucket K) (now : K) : K :=
  min burst (b.tokens + (now - b.time) * rate)

/-- The tokens of a bucket that may not have been used before; a new one is full. -/
def available (burst rate : K) : Option (TokenBucket K) → K → K
  | none, _ => burst
  | some b, now => b.level burst rate now

/-- A request: it is granted if there is a token left. -/
def request (burst rate : K) (b : Option (TokenBucket K)) (now : K) : Bool × TokenBucket K :=
  if available burst rate b now < 1 then (false, ⟨available burst rate b now, now⟩)
  else (true, ⟨available burst rate b now - 1, now⟩)

/-- The requests at the given times, and whether they are granted. -/
def answers (burst rate : K) : Option (TokenBucket K) → List K → List (K × Bool)
  | _, [] => []
  | b, now :: times =>
    (now, (request burst rate b now).1) :: answers burst rate (some (request burst rate b now).2) times

/-- The number of requests that were granted from `t₁` to `t₂`. -/
def granted (t₁ t₂ : K) (l : List (K × Bool)) : ℕ :=
  l.countP fun p => t₁ ≤ p.1 ∧ p.1 ≤ t₂ ∧ p.2 = true

omit [Field K] in
lemma granted_cons (t₁ t₂ : K) (p : K × Bool) (l : List (K × Bool)) :
    granted t₁ t₂ (p :: l) = granted t₁ t₂ l + if t₁ ≤ p.1 ∧ p.1 ≤ t₂ ∧ p.2 = true then 1 else 0 := by
  simp [granted, List.countP_cons]

/-- No request is granted in a window that ends before all of them. -/
lemma granted_eq_zero {t₁ t₂ : K} {b : Option (TokenBucket K)} {times : List K}
    (h : ∀ t ∈ times, t₂ < t) : granted t₁ t₂ (answers burst rate b times) = 0 := by
  induction times generalizing b with
  | nil => rfl
  | cons now times ih =>
    have hnow := h now List.mem_cons_self
    rw [answers, granted_cons, ih fun t ht => h t (List.mem_cons_of_mem _ ht),
      if_neg fun hwindow => hnow.not_ge hwindow.2.1]

/-- The tokens are within bounds. -/
structure Valid (burst : K) (b : TokenBucket K) : Prop where
  nonneg : 0 ≤ b.tokens
  le : b.tokens ≤ burst

lemma available_le (b : Option (TokenBucket K)) (now : K) : available burst rate b now ≤ burst := by
  cases b with
  | none => exact le_rfl
  | some b => exact min_le_left _ _

lemma request_time (b : Option (TokenBucket K)) (now : K) : (request burst rate b now).2.time = now := by
  unfold request
  split_ifs <;> rfl

lemma available_some_self (tokens now : K) :
    available burst rate (some ⟨tokens, now⟩) now = min burst tokens := by
  simp [available, level]

variable [IsStrictOrderedRing K]

lemma available_nonneg (hburst : 0 ≤ burst) (hrate : 0 ≤ rate) {b : Option (TokenBucket K)} {now : K}
    (hb : ∀ b' ∈ b, b'.Valid burst ∧ b'.time ≤ now) : 0 ≤ available burst rate b now := by
  cases b with
  | none => exact hburst
  | some b =>
    obtain ⟨hvalid, htime⟩ := hb b rfl
    exact le_min hburst (add_nonneg hvalid.nonneg (mul_nonneg (sub_nonneg.mpr htime) hrate))

/-- What a bucket has at a later time it has now, or it comes in. -/
lemma available_le_add (hrate : 0 ≤ rate) (b : Option (TokenBucket K)) {s t : K} (hst : s ≤ t) :
    available burst rate b t ≤ available burst rate b s + (t - s) * rate := by
  have hgain : 0 ≤ (t - s) * rate := mul_nonneg (sub_nonneg.mpr hst) hrate
  cases b with
  | none => exact le_add_of_nonneg_right hgain
  | some b =>
    have hsplit : b.tokens + (t - b.time) * rate = b.tokens + (s - b.time) * rate + (t - s) * rate := by
      ring
    simp only [available, level, hsplit, ← min_add_add_right]
    exact min_le_min_right _ (le_add_of_nonneg_right hgain)

/-- A request leaves a valid bucket behind. -/
lemma request_valid (hburst : 0 ≤ burst) (hrate : 0 ≤ rate) {b : Option (TokenBucket K)} {now : K}
    (hb : ∀ b' ∈ b, b'.Valid burst ∧ b'.time ≤ now) : (request burst rate b now).2.Valid burst := by
  have hle : available burst rate b now ≤ burst := available_le b now
  have hnonneg := available_nonneg hburst hrate hb
  unfold request
  split_ifs with hempty
  · exact ⟨hnonneg, hle⟩
  · exact ⟨sub_nonneg.mpr (not_lt.mp hempty), (sub_le_self _ zero_le_one).trans hle⟩

/-- A granted request takes one token. -/
lemma available_request (b : Option (TokenBucket K)) (now : K) :
    available burst rate (some (request burst rate b now).2) now +
      (if (request burst rate b now).1 = true then 1 else 0) = available burst rate b now := by
  have hle : available burst rate b now ≤ burst := available_le b now
  by_cases hempty : available burst rate b now < 1
  · have hrequest : request burst rate b now = (false, ⟨available burst rate b now, now⟩) :=
      if_pos hempty
    rw [hrequest, available_some_self, min_eq_right hle]
    simp
  · have hrequest : request burst rate b now = (true, ⟨available burst rate b now - 1, now⟩) :=
      if_neg hempty
    rw [hrequest, available_some_self, min_eq_right ((sub_le_self _ zero_le_one).trans hle)]
    simp

/-- From any time on, no more requests are granted than there are tokens and tokens come in. -/
lemma granted_le_available (hburst : 0 ≤ burst) (hrate : 0 ≤ rate) {b : Option (TokenBucket K)}
    {times : List K} {t₀ t₁ t₂ : K} (hsorted : times.Pairwise (· ≤ ·)) (hfrom : ∀ t ∈ times, t₀ ≤ t)
    (hb : ∀ b' ∈ b, b'.Valid burst ∧ b'.time ≤ t₀) (hle : t₀ ≤ t₂) :
    (granted t₁ t₂ (answers burst rate b times) : K) ≤
      available burst rate b t₀ + (t₂ - t₀) * rate := by
  induction times generalizing b t₀ with
  | nil =>
    have hnonneg := available_nonneg hburst hrate hb
    simpa [granted, answers] using add_nonneg hnonneg (mul_nonneg (sub_nonneg.mpr hle) hrate)
  | cons now times ih =>
    obtain ⟨hnext, hsorted⟩ := List.pairwise_cons.mp hsorted
    have hnow := hfrom now List.mem_cons_self
    have hb' : ∀ b' ∈ b, b'.Valid burst ∧ b'.time ≤ now := fun b' hmem =>
      (hb b' hmem).imp_right fun htime => htime.trans hnow
    rcases lt_or_ge t₂ now with hlate | hin
    · rw [granted_eq_zero fun t ht => ?_, Nat.cast_zero]
      · exact add_nonneg (available_nonneg hburst hrate hb) (mul_nonneg (sub_nonneg.mpr hle) hrate)
      · rcases List.mem_cons.mp ht with rfl | ht
        · exact hlate
        · exact hlate.trans_le (hnext t ht)
    -- the requests after this one are bounded by what it leaves
    have hrest := ih hsorted hnext (b := some (request burst rate b now).2) (by
      intro b' hmem
      cases hmem
      exact ⟨request_valid hburst hrate hb', (request_time b now).le⟩) hin
    have htaken : available burst rate (some (request burst rate b now).2) now +
        (if (request burst rate b now).1 = true then 1 else 0) = available burst rate b now :=
      available_request b now
    have hgain : available burst rate b now ≤ available burst rate b t₀ + (now - t₀) * rate :=
      available_le_add hrate b hnow
    have hcount : (granted t₁ t₂ (answers burst rate b (now :: times)) : K) ≤
        granted t₁ t₂ (answers burst rate (some (request burst rate b now).2) times) +
          (if (request burst rate b now).1 = true then 1 else 0) := by
      rw [answers, granted_cons, Nat.cast_add]
      refine add_le_add_right ?_ _
      split_ifs with hgranted hgiven
      · simp
      · exact absurd hgranted.2.2 hgiven
      · simp
      · simp
    calc (granted t₁ t₂ (answers burst rate b (now :: times)) : K)
        ≤ available burst rate b now + (t₂ - now) * rate := by linarith
      _ ≤ available burst rate b t₀ + (now - t₀) * rate + (t₂ - now) * rate := by linarith
      _ = available burst rate b t₀ + (t₂ - t₀) * rate := by ring

/-- In no window more requests are granted than the bucket holds and tokens come in. -/
theorem granted_le (hburst : 0 ≤ burst) (hrate : 0 ≤ rate) {b : Option (TokenBucket K)}
    {times : List K} {t₁ t₂ : K} (hsorted : times.Pairwise (· ≤ ·))
    (hb : ∀ b' ∈ b, b'.Valid burst ∧ ∀ t ∈ times, b'.time ≤ t) (hle : t₁ ≤ t₂) :
    (granted t₁ t₂ (answers burst rate b times) : K) ≤ burst + (t₂ - t₁) * rate := by
  have hwindow : 0 ≤ (t₂ - t₁) * rate := mul_nonneg (sub_nonneg.mpr hle) hrate
  induction times generalizing b with
  | nil => simpa [granted, answers] using add_nonneg hburst hwindow
  | cons now times ih =>
    have hb' : ∀ b' ∈ b, b'.Valid burst ∧ b'.time ≤ now := fun b' hmem =>
      (hb b' hmem).imp_right fun htime => htime now List.mem_cons_self
    obtain ⟨hnext, hsorted'⟩ := List.pairwise_cons.mp hsorted
    rcases lt_or_ge now t₁ with hbefore | hfrom
    · -- a request before the window does not count
      rw [answers, granted_cons, if_neg fun hin => hbefore.not_ge hin.1, Nat.add_zero]
      refine ih hsorted' fun b' hmem => ?_
      cases hmem
      rw [request_time]
      exact ⟨request_valid hburst hrate hb', hnext⟩
    rcases lt_or_ge t₂ now with hlate | hin
    · rw [granted_eq_zero fun t ht => ?_, Nat.cast_zero]
      · exact add_nonneg hburst hwindow
      · rcases List.mem_cons.mp ht with rfl | ht
        · exact hlate
        · exact hlate.trans_le (hnext t ht)
    have hfirst : ∀ t ∈ now :: times, now ≤ t := by
      intro t ht
      rcases List.mem_cons.mp ht with rfl | ht
      · exact le_rfl
      · exact hnext t ht
    calc (granted t₁ t₂ (answers burst rate b (now :: times)) : K)
        ≤ available burst rate b now + (t₂ - now) * rate :=
          granted_le_available hburst hrate hsorted hfirst hb' hin
      _ ≤ burst + (t₂ - t₁) * rate := by
          refine add_le_add (available_le b now) (mul_le_mul_of_nonneg_right ?_ hrate)
          exact sub_le_sub_left hfrom t₂

end TokenBucket

end Helix

import Helix.Library.Dict
import Helix.Library.Text
import Helix.Library.TokenBucket
import Mathlib.Algebra.Order.Ring.Rat

/-!
# The rate limiter

`RateLimiter` keeps one token bucket for each source. Every call rewrites the bucket of its key, also
when it is denied, and touches no other one. So the calls of one key see a token bucket of their own,
and what is true of that bucket is true of the limiter under any interleaving (`log_filter`).
-/

namespace Helix

/-- `RateLimiter`. A bucket holds its tokens and the time of the last call. -/
structure RateLimiter where
  rate : ℚ
  burst : ℤ
  buckets : Dict PyStr (ℚ × ℚ) := Dict.empty

namespace RateLimiter

/-- `RateLimiter(rate_per_sec, burst)`. -/
def new (ratePerSec : ℚ) (burst : ℤ) : RateLimiter where
  rate := ratePerSec
  burst := max 1 burst

def enabled (l : RateLimiter) : Bool := 0 < l.rate

/-- `allow`, at the given reading of the clock: whether the call goes through, and the limiter after
it. -/
def allow (l : RateLimiter) (key : PyStr) (now : ℚ) : Bool × RateLimiter :=
  if ¬l.enabled then (true, l)
  else
    let bucket := (l.buckets.get? key).getD (l.burst, now)
    let tokens := min (l.burst : ℚ) (bucket.1 + (now - bucket.2) * l.rate)
    if tokens < 1 then (false, { l with buckets := l.buckets.set key (tokens, now) })
    else (true, { l with buckets := l.buckets.set key (tokens - 1, now) })

/-- A call of `allow` that has been answered. -/
structure Answer where
  key : PyStr
  now : ℚ
  allowed : Bool

/-- The answers to a sequence of calls, each with its key and its reading of the clock. -/
def log (l : RateLimiter) : List (PyStr × ℚ) → List Answer
  | [] => []
  | (key, now) :: calls => ⟨key, now, (l.allow key now).1⟩ :: (l.allow key now).2.log calls

/-- The limiter after a sequence of calls. -/
def after (l : RateLimiter) (calls : List (PyStr × ℚ)) : RateLimiter :=
  calls.foldl (fun l call => (l.allow call.1 call.2).2) l

/-! ### One bucket for each key -/

/-- The bucket of a key, if it has been used. -/
def bucket (l : RateLimiter) (key : PyStr) : Option (TokenBucket ℚ) :=
  (l.buckets.get? key).map fun p => ⟨p.1, p.2⟩

variable {l : RateLimiter} {key k : PyStr} {now : ℚ} {calls : List (PyStr × ℚ)}

lemma available_bucket : TokenBucket.available (l.burst : ℚ) l.rate (l.bucket key) now =
    min (l.burst : ℚ) (((l.buckets.get? key).getD (l.burst, now)).1 +
      (now - ((l.buckets.get? key).getD (l.burst, now)).2) * l.rate) := by
  cases hbucket : l.buckets.get? key with
  | none => simp [bucket, hbucket, TokenBucket.available]
  | some p => simp [bucket, hbucket, TokenBucket.available, TokenBucket.level]

/-- A call is a request to the bucket of its key. -/
lemma allow_eq (hl : 0 < l.rate) :
    let r := TokenBucket.request (l.burst : ℚ) l.rate (l.bucket key) now
    l.allow key now = (r.1, { l with buckets := l.buckets.set key (r.2.tokens, r.2.time) }) := by
  have henabled : ¬¬l.enabled = true := not_not.mpr (decide_eq_true hl)
  simp only [allow, if_neg henabled, ← available_bucket, TokenBucket.request]
  split_ifs <;> rfl

lemma allow_rate : (l.allow key now).2.rate = l.rate := by
  simp only [allow]
  split_ifs <;> rfl

lemma allow_burst : (l.allow key now).2.burst = l.burst := by
  simp only [allow]
  split_ifs <;> rfl

lemma bucket_allow_self (hl : 0 < l.rate) : (l.allow key now).2.bucket key =
    some (TokenBucket.request (l.burst : ℚ) l.rate (l.bucket key) now).2 := by
  rw [allow_eq hl]
  simp [bucket, Dict.get?_set]

lemma bucket_allow_of_ne (hl : 0 < l.rate) (hk : k ≠ key) :
    (l.allow key now).2.bucket k = l.bucket k := by
  rw [allow_eq hl]
  simp [bucket, Dict.get?_set_of_ne _ _ hk]

/-- The answers for a key are those of its bucket, whatever the other calls are. -/
lemma log_filter (hl : 0 < l.rate) (calls : List (PyStr × ℚ)) (k : PyStr) :
    (l.log calls).filter (·.key = k) =
      (TokenBucket.answers (l.burst : ℚ) l.rate (l.bucket k)
        ((calls.filter (·.1 = k)).map Prod.snd)).map fun p => ⟨k, p.1, p.2⟩ := by
  induction calls generalizing l with
  | nil => rfl
  | cons call calls ih =>
    obtain ⟨key, now⟩ := call
    have hrest := ih (l := (l.allow key now).2) (by rwa [allow_rate])
    rw [allow_rate, allow_burst] at hrest
    by_cases hk : key = k
    · subst hk
      rw [bucket_allow_self hl] at hrest
      rw [log, List.filter_cons_of_pos (by simp), List.filter_cons_of_pos (by simp), List.map_cons,
        TokenBucket.answers, List.map_cons, hrest, allow_eq hl]
    · rw [bucket_allow_of_ne hl (Ne.symm hk)] at hrest
      rw [log, List.filter_cons_of_neg (by simpa using hk), List.filter_cons_of_neg (by simpa using hk),
        hrest]

lemma exists_of_mem_log {a : Answer} (ha : a ∈ l.log calls) : ∃ call ∈ calls, call.1 = a.key := by
  induction calls generalizing l with
  | nil => cases ha
  | cons call calls ih =>
    rcases List.mem_cons.mp ha with rfl | ha
    · exact ⟨call, List.mem_cons_self, rfl⟩
    · obtain ⟨call', hcall', hkey⟩ := ih ha
      exact ⟨call', List.mem_cons_of_mem _ hcall', hkey⟩

/-- The answers for a key are those that it would get alone. -/
lemma log_filter_eq (hl : 0 < l.rate) (calls : List (PyStr × ℚ)) (k : PyStr) :
    (l.log calls).filter (·.key = k) = l.log (calls.filter (·.1 = k)) := by
  have hown : (l.log (calls.filter (·.1 = k))).filter (·.key = k) = l.log (calls.filter (·.1 = k)) := by
    refine List.filter_eq_self.mpr fun a ha => ?_
    obtain ⟨call, hcall, hkey⟩ := exists_of_mem_log ha
    rw [← hkey]
    exact (List.mem_filter.mp hcall).2
  rw [← hown, log_filter hl, log_filter hl, List.filter_filter]
  simp only [Bool.and_self]

/-! ### Bounds -/

/-- Every bucket has been used at a time before the given one, and holds no more than `burst`. -/
def Bounded (l : RateLimiter) (now : ℚ) : Prop :=
  ∀ k, ∀ b ∈ l.bucket k, b.Valid (l.burst : ℚ) ∧ b.time ≤ now

lemma Bounded.allow (hl : 0 < l.rate) (hburst : 0 ≤ l.burst) (h : l.Bounded now) :
    (l.allow key now).2.Bounded now := by
  intro k b hb
  rw [allow_burst]
  by_cases hk : k = key
  · subst hk
    rw [bucket_allow_self hl] at hb
    obtain rfl := Option.some.inj hb
    exact ⟨TokenBucket.request_valid (by exact_mod_cast hburst) hl.le (h k),
      (TokenBucket.request_time _ _).le⟩
  · rw [bucket_allow_of_ne hl hk] at hb
    exact h k b hb

lemma Bounded.mono {now' : ℚ} (h : l.Bounded now) (hle : now ≤ now') : l.Bounded now' :=
  fun k b hb => (h k b hb).imp_right fun htime => htime.trans hle

/-- The buckets stay within their bounds. -/
lemma Bounded.after (hl : 0 < l.rate) (hburst : 0 ≤ l.burst)
    (hclock : (calls.map Prod.snd).Pairwise (· ≤ ·)) (h : ∀ call ∈ calls, l.Bounded call.2)
    (hvalid : ∀ k, ∀ b ∈ l.bucket k, b.Valid (l.burst : ℚ)) :
    ∀ k, ∀ b ∈ (l.after calls).bucket k, b.Valid (l.burst : ℚ) := by
  induction calls generalizing l with
  | nil => exact hvalid
  | cons call calls ih =>
    obtain ⟨hnext, hclock⟩ := List.pairwise_cons.mp hclock
    have hbounded : (l.allow call.1 call.2).2.Bounded call.2 :=
      (h call List.mem_cons_self).allow hl hburst
    have hrest := ih (l := (l.allow call.1 call.2).2) (by rwa [allow_rate]) (by rwa [allow_burst]) hclock
      (fun call' hcall' => hbounded.mono (hnext _ (List.mem_map_of_mem hcall')))
      fun k b hb => (hbounded k b hb).1
    rwa [allow_burst] at hrest

/-- A limiter with a positive rate, from its construction on and under a clock that does not go back: in
every window a key is granted no more calls than `burst` and what comes in, the stored tokens lie
between none and `burst`, and the answers for a key do not depend on the calls of others. -/
theorem allowed_le_burst {ratePerSec : ℚ} (hrate : 0 < ratePerSec) (burst : ℤ)
    {calls : List (PyStr × ℚ)} (hclock : (calls.map Prod.snd).Pairwise (· ≤ ·)) :
    let l := new ratePerSec burst
    (∀ k t₁ t₂, t₁ ≤ t₂ →
      (((l.log calls).countP fun a => a.key = k ∧ t₁ ≤ a.now ∧ a.now ≤ t₂ ∧ a.allowed : ℕ) : ℚ) ≤
        l.burst + l.rate * (t₂ - t₁)) ∧
    (∀ p ∈ (l.after calls).buckets.items, 0 ≤ p.2.1 ∧ p.2.1 ≤ l.burst) ∧
    ∀ k, (l.log calls).filter (·.key = k) = l.log (calls.filter (·.1 = k)) := by
  intro l
  have hburst : (0 : ℚ) ≤ l.burst := by exact_mod_cast zero_le_one.trans (le_max_left 1 burst)
  have hnew : ∀ k, l.bucket k = none := fun k => rfl
  refine ⟨fun k t₁ t₂ hle => ?_, fun p hp => ?_, log_filter_eq hrate calls⟩
  · have hsorted : ((calls.filter (·.1 = k)).map Prod.snd).Pairwise (· ≤ ·) :=
      hclock.sublist (List.filter_sublist.map _)
    have hbound : (TokenBucket.granted t₁ t₂ (TokenBucket.answers (l.burst : ℚ) l.rate (l.bucket k)
        ((calls.filter (·.1 = k)).map Prod.snd)) : ℚ) ≤ l.burst + (t₂ - t₁) * l.rate :=
      TokenBucket.granted_le hburst hrate.le hsorted (hnew k ▸ nofun) hle
    have hcount : ((l.log calls).countP fun a => a.key = k ∧ t₁ ≤ a.now ∧ a.now ≤ t₂ ∧ a.allowed) =
        TokenBucket.granted t₁ t₂ (TokenBucket.answers (l.burst : ℚ) l.rate (l.bucket k)
          ((calls.filter (·.1 = k)).map Prod.snd)) := by
      calc (l.log calls).countP (fun a => a.key = k ∧ t₁ ≤ a.now ∧ a.now ≤ t₂ ∧ a.allowed)
          = ((l.log calls).filter (·.key = k)).countP
              (fun a => t₁ ≤ a.now ∧ a.now ≤ t₂ ∧ a.allowed) := by
            rw [List.countP_filter]
            refine List.countP_congr fun a _ => ?_
            simp [and_comm, and_assoc]
        _ = _ := by
            rw [log_filter hrate, List.countP_map]
            rfl
    rw [hcount, mul_comm]
    exact hbound
  · have hvalid := Bounded.after hrate (zero_le_one.trans (le_max_left 1 burst)) hclock
      (l := l) (fun _ _ k b hb => by cases (hnew k ▸ hb)) (fun k b hb => by cases (hnew k ▸ hb))
    have hbucket : (l.after calls).bucket p.1 = some ⟨p.2.1, p.2.2⟩ := by
      rw [bucket, Dict.get?_eq_some.mpr hp]
      rfl
    exact ⟨(hvalid _ _ hbucket).nonneg, (hvalid _ _ hbucket).le⟩

/-- Two tokens are used up at once, and two more have come in a second later. -/
theorem allowed_le_burst_of_refill :
    let l := new 2 2
    let calls := [(str "a", 0), (str "a", 0), (str "a", 0), (str "b", 0), (str "a", 1)]
    (l.log calls).map Answer.allowed = [true, true, false, true, true] ∧
      (((l.log calls).countP fun a => a.key = str "a" ∧ 0 ≤ a.now ∧ a.now ≤ 1 ∧ a.allowed : ℕ) : ℚ) ≤
        l.burst + l.rate * (1 - 0) := by
  refine ⟨by decide +kernel, ?_⟩
  exact (allowed_le_burst two_pos 2 (by decide +kernel)).1 (str "a") 0 1 zero_le_one

/-! ### Limiters that agree on some keys -/

variable {l' : RateLimiter}

lemma allow_of_disabled (h : ¬0 < l.rate) : l.allow key now = (true, l) := by
  rw [allow, if_pos]
  exact fun henabled => h (of_decide_eq_true henabled)

/-- A call leaves the buckets of other keys as they are. -/
lemma bucket_allow_other (hk : k ≠ key) : (l.allow key now).2.bucket k = l.bucket k := by
  by_cases hl : 0 < l.rate
  · exact bucket_allow_of_ne hl hk
  · rw [allow_of_disabled hl]

/-- Limiters that agree on the bucket of a key give the same answer for it, and agree on it after. -/
lemma allow_agrees (hrate : l'.rate = l.rate) (hburst : l'.burst = l.burst)
    (hbucket : l'.bucket key = l.bucket key) (now : ℚ) :
    (l'.allow key now).1 = (l.allow key now).1 ∧
      (l'.allow key now).2.bucket key = (l.allow key now).2.bucket key := by
  by_cases hl : 0 < l.rate
  · have hl' : 0 < l'.rate := hrate ▸ hl
    refine ⟨?_, ?_⟩
    · rw [allow_eq hl, allow_eq hl', hrate, hburst, hbucket]
    · rw [bucket_allow_self hl, bucket_allow_self hl', hrate, hburst, hbucket]
  · have hl' : ¬0 < l'.rate := hrate ▸ hl
    rw [allow_of_disabled hl, allow_of_disabled hl']
    exact ⟨rfl, hbucket⟩

/-- The limiters are set up alike and agree on the buckets of the clients outside of `I`. -/
structure Agrees (I : PyStr → Bool) (l l' : RateLimiter) : Prop where
  rate : l'.rate = l.rate
  burst : l'.burst = l.burst
  bucket : ∀ k, I k = false → l'.bucket k = l.bucket k

variable {I : PyStr → Bool}

lemma Agrees.allow_inside (h : Agrees I l l') (hkey : I key = true) (now : ℚ) :
    Agrees I (l.allow key now).2 l' := by
  refine ⟨h.rate.trans allow_rate.symm, h.burst.trans allow_burst.symm, fun k hk => ?_⟩
  rw [h.bucket k hk, bucket_allow_other]
  rintro rfl
  rw [hkey] at hk
  cases hk

lemma Agrees.allow_outside (h : Agrees I l l') (hkey : I key = false) (now : ℚ) :
    (l'.allow key now).1 = (l.allow key now).1 ∧ Agrees I (l.allow key now).2 (l'.allow key now).2 := by
  obtain ⟨hanswer, hbucket⟩ := allow_agrees h.rate h.burst (h.bucket key hkey) now
  refine ⟨hanswer, ?_, ?_, fun k hk => ?_⟩
  · rw [allow_rate, allow_rate, h.rate]
  · rw [allow_burst, allow_burst, h.burst]
  · by_cases heq : k = key
    · rw [heq, hbucket]
    · rw [bucket_allow_other heq, bucket_allow_other heq, h.bucket k hk]

end RateLimiter

end Helix

import MemStore.Model.Calls

/-!
# Lifetimes

A `Lifetime` is what an expiration policy amounts to, free of the fields that
encode it: an entry lives forever, for a number of map ends, or until a
deadline.  `afterSweeps` counts map ends off it, and `ofPolicy` is the lifetime
a policy and its extra argument stand for.

The second half reads `Expiration` through it.  `isExpired_eq_not_alive` is
unconditional.  The sweep agrees with the counting only for a counter that is
positive (`Sound`), which is what `apply` establishes and the sweep keeps.
-/

namespace MemStore

/-- How long an entry lives. -/
inductive Lifetime
  | forever
  | maps (n : ℕ)
  | until (deadline : TimePoint)
  deriving DecidableEq, Repr

namespace Lifetime

/-- Whether the lifetime is still running at a clock reading. -/
def alive (now : TimePoint) : Lifetime → Bool
  | forever => true
  | maps n => decide (0 < n)
  | .until deadline => decide (now < deadline)

/-- What is left of a lifetime after `k` map ends. -/
def afterSweeps (k : ℕ) : Lifetime → Lifetime
  | forever => forever
  | maps n => maps (n - k)
  | .until deadline => .until deadline

/-- The seconds a TTL entry lives: at most 30 days, one minute if none are given. -/
def ttlSeconds (extra : Int32) : ℤ := if 0 < extra.toInt then min extra.toInt 2592000 else 60

/-- The lifetime a policy gives at clock reading `now`. -/
def ofPolicy (policy : ExpirePolicy) (extra : Int32) (now : TimePoint) : Lifetime :=
  match policy with
  | .persistent => forever
  | .mapEnd => maps 1
  | .mapCount => maps (max extra.toInt 1).toNat
  | .ttl => .until (now + ttlSeconds extra * 1000000000)

@[simp] theorem afterSweeps_zero (l : Lifetime) : l.afterSweeps 0 = l := by
  cases l <;> rfl

theorem afterSweeps_add (l : Lifetime) (j k : ℕ) :
    (l.afterSweeps j).afterSweeps k = l.afterSweeps (j + k) := by
  cases l with
  | maps n => simp [afterSweeps, Nat.sub_sub]
  | _ => rfl

/-- A lifetime that has run out stays so. -/
theorem alive_of_later {l : Lifetime} {now later : TimePoint} (hle : now ≤ later)
    (h : l.alive later = true) : l.alive now = true := by
  cases l with
  | «until» deadline =>
      simp only [alive, decide_eq_true_eq] at h ⊢
      exact lt_of_le_of_lt hle h
  | _ => exact h

theorem alive_of_afterSweeps {l : Lifetime} {k : ℕ} {now : TimePoint}
    (h : (l.afterSweeps k).alive now = true) : l.alive now = true := by
  cases l with
  | maps n =>
      simp only [afterSweeps, alive, decide_eq_true_eq] at h ⊢
      omega
  | _ => exact h

theorem not_alive_afterSweeps {l : Lifetime} (k : ℕ) {now : TimePoint}
    (h : l.alive now = false) : (l.afterSweeps k).alive now = false := by
  by_contra hnot
  rw [alive_of_afterSweeps (by simpa using hnot)] at h
  cases h

theorem not_alive_of_later {l : Lifetime} {now later : TimePoint} (hle : now ≤ later)
    (h : l.alive now = false) : l.alive later = false := by
  by_contra hlater
  rw [alive_of_later hle (by simpa using hlater)] at h
  cases h

theorem alive_ofPolicy (policy : ExpirePolicy) (extra : Int32) (now : TimePoint) :
    (ofPolicy policy extra now).alive now = true := by
  cases policy with
  | ttl =>
      have hpos : 0 < ttlSeconds extra := by
        unfold ttlSeconds
        split <;> omega
      simp only [ofPolicy, alive, decide_eq_true_eq]
      exact Int.lt_add_of_pos_right now (by omega)
  | mapCount =>
      simp only [ofPolicy, alive, decide_eq_true_eq]
      omega
  | _ => rfl

end Lifetime

namespace Expiration

/-- The lifetime the three fields encode. -/
def lifetime (x : Expiration) : Lifetime :=
  match x.policy with
  | .persistent => .forever
  | .mapEnd => .maps 1
  | .mapCount => .maps x.mapCounter.toInt.toNat
  | .ttl => .until x.expireTime

/-- The counter of a `MapCount` entry has not reached zero. -/
def Sound (x : Expiration) : Prop := x.policy = .mapCount → 0 < x.mapCounter

theorem isExpired_eq_not_alive (x : Expiration) (now : TimePoint) :
    x.isExpired now = !x.lifetime.alive now := by
  obtain ⟨policy, counter, deadline⟩ := x
  cases policy with
  | persistent => rfl
  | mapEnd => rfl
  | mapCount =>
      have hiff : counter ≤ 0 ↔ ¬ 0 < counter.toInt.toNat := by
        rw [Int32.le_iff_toInt_le, Int32.toInt_zero]
        omega
      simp only [isExpired, lifetime, Lifetime.alive, reduceCtorEq, if_false, if_true]
      rw [← decide_not, decide_eq_decide]
      exact hiff
  | ttl =>
      simp only [isExpired, lifetime, Lifetime.alive, if_true]
      rw [← decide_not]
      congr 1
      simp

theorem isExpired_iff {x : Expiration} {now : TimePoint} :
    x.isExpired now = true ↔ x.lifetime.alive now = false := by
  rw [isExpired_eq_not_alive]
  simp

theorem alive_of_not_isExpired {x : Expiration} {now : TimePoint} (h : x.isExpired now = false) :
    x.lifetime.alive now = true := by
  rw [isExpired_eq_not_alive] at h
  simpa using h

theorem isExpired_of_later {x : Expiration} {now later : TimePoint} (hle : now ≤ later)
    (h : x.isExpired now = true) : x.isExpired later = true :=
  isExpired_iff.mpr (Lifetime.not_alive_of_later hle (isExpired_iff.mp h))

theorem live_of_earlier {x : Expiration} {now later : TimePoint} (hle : now ≤ later)
    (h : x.isExpired later = false) : x.isExpired now = false := by
  by_contra hnow
  rw [isExpired_of_later hle (by simpa using hnow)] at h
  cases h

/-! ## Applying a policy -/

theorem toInt_min (a b : Int32) : (min a b).toInt = min a.toInt b.toInt := by
  have hmin : min a b = if a ≤ b then a else b := rfl
  rw [hmin, min_def]
  by_cases h : a ≤ b
  · rw [if_pos h, if_pos (Int32.le_iff_toInt_le.mp h)]
  · rw [if_neg h, if_neg fun h' => h (Int32.le_iff_toInt_le.mpr h')]

theorem lifetime_apply (x : Expiration) (policy : ExpirePolicy) (extra : Int32)
    (now : TimePoint) : (x.apply policy extra now).lifetime = .ofPolicy policy extra now := by
  cases policy with
  | persistent => rfl
  | mapEnd => rfl
  | mapCount =>
      simp only [apply, lifetime, Lifetime.ofPolicy, Int32.lt_iff_toInt_lt, Int32.toInt_zero]
      congr 2
      have hone := Int32.toInt_one
      split <;> omega
  | ttl =>
      simp only [apply, lifetime, Lifetime.ofPolicy, Lifetime.ttlSeconds, seconds,
        Int32.lt_iff_toInt_lt, Int32.toInt_zero]
      congr 3
      have hsixty : (60 : Int32).toInt = 60 := by decide
      have hmax : maxTtlSeconds.toInt = 2592000 := by decide
      split
      · rw [toInt_min, hmax]
      · exact hsixty

theorem isExpired_apply (x : Expiration) (policy : ExpirePolicy) (extra : Int32)
    (now : TimePoint) : (x.apply policy extra now).isExpired now = false := by
  rw [isExpired_eq_not_alive, lifetime_apply, Lifetime.alive_ofPolicy]
  rfl

theorem sound_apply (x : Expiration) (policy : ExpirePolicy) (extra : Int32) (now : TimePoint) :
    (x.apply policy extra now).Sound := by
  cases policy with
  | mapCount =>
      intro _
      simp only [apply]
      split
      · assumption
      · decide
  | _ =>
      intro h
      simp [apply] at h

/-! ## Sweeping -/

theorem toInt_sub_one {c : Int32} (h : 0 < c) : (c - 1).toInt = c.toInt - 1 := by
  -- a positive number is far from the wrap-around
  have hle := c.toInt_lt
  rw [Int32.lt_iff_toInt_lt, Int32.toInt_zero] at h
  rw [Int32.toInt_sub, Int32.toInt_one, Int.bmod_def]
  omega

/-- The sweep erases exactly the entries whose lifetime it ends. -/
theorem sweep_eq_none_iff {x : Expiration} (h : x.Sound) {now : TimePoint} :
    x.sweep now = none ↔ (x.lifetime.afterSweeps 1).alive now = false := by
  obtain ⟨policy, counter, deadline⟩ := x
  cases policy with
  | persistent => simp [sweep, lifetime, Lifetime.afterSweeps, Lifetime.alive]
  | mapEnd => simp [sweep, lifetime, Lifetime.afterSweeps, Lifetime.alive]
  | mapCount =>
      -- the sweep counts down before it compares
      have hsub := toInt_sub_one (h rfl)
      simp only [sweep, lifetime, Lifetime.afterSweeps, Lifetime.alive, Int32.le_iff_toInt_le,
        hsub, Int32.toInt_zero, decide_eq_false_iff_not]
      split
      · simp only [true_iff]
        omega
      · simp only [reduceCtorEq, false_iff]
        omega
  | ttl =>
      simp only [sweep, lifetime, Lifetime.afterSweeps, Lifetime.alive, decide_eq_false_iff_not]
      split
      · next hle => simpa using hle
      · next hlt => simpa using hlt

/-- What the sweep keeps has one map end less to live. -/
theorem lifetime_of_sweep {x x' : Expiration} (h : x.Sound) {now : TimePoint}
    (hsweep : x.sweep now = some x') :
    x'.lifetime = x.lifetime.afterSweeps 1 ∧ x'.Sound := by
  obtain ⟨policy, counter, deadline⟩ := x
  cases policy with
  | mapEnd => cases hsweep
  | persistent =>
      cases hsweep
      exact ⟨rfl, h⟩
  | ttl =>
      simp only [sweep] at hsweep
      split at hsweep
      · cases hsweep
      · cases hsweep
        exact ⟨rfl, h⟩
  | mapCount =>
      have hsub := toInt_sub_one (h rfl)
      simp only [sweep] at hsweep
      split at hsweep
      · cases hsweep
      · next hpos =>
          cases hsweep
          refine ⟨?_, fun _ => Int32.not_le.mp hpos⟩
          simp only [lifetime, Lifetime.afterSweeps, hsub]
          congr 1
          omega

end Expiration

end MemStore

import CoroutineScheduler.Timer.Ordered

/-!
# The timeout of `epoll_wait`

What `IOManager::idle` makes of the time that `getNextTimer` returns. `next_timeout` is a `uint64_t`;
it is compared and passed as an `int`, and goes through the same lines again for each retry.

`mem_epollTimeouts`: a retry passes what the first call has passed.
`epollTimeout_iff`: when the timeout is within bounds.
-/

namespace CoroutineScheduler.IOManager

open Trans

/-! ## The loop around `epoll_wait` -/

/-- `(int)x`. -/
def toInt (x : UInt64) : ℤ := Int.bmod x.toNat (2 ^ 32)

/-- What becomes of `next_timeout` in front of `epoll_wait`. -/
def clampTimeout (next : UInt64) : UInt64 :=
  if next ≠ ~~~0 then if toInt next > 3000 then 3000 else next else 3000

/-- The timeouts that `epoll_wait` gets, with this many retries. -/
def epollTimeouts (next : UInt64) : ℕ → List ℤ
  | 0 => [toInt (clampTimeout next)]
  | retries + 1 => toInt (clampTimeout next) :: epollTimeouts (clampTimeout next) retries

/-- A round of `idle`: `stop` is the rest of `stopping`, behind the test of the timeout. -/
def idleTimeouts (s : TimerManager) (now : UInt64) (stop : Bool) (retries : ℕ) : List ℤ :=
  let next := (s.getNextTimer now).2
  if next = ~~~0 ∧ stop = true then [] else epollTimeouts next retries

/-! ## What it should be -/

/-- The time left to a timer. -/
def timeLeft (s : TimerManager) (now : UInt64) (a : Addr) : ℕ := (s.obj a).next.toNat - now.toNat

/-- At most three seconds, and no longer than any timer has left. -/
def InTime (s : TimerManager) (now : UInt64) (t : ℤ) : Prop :=
  0 ≤ t ∧ t ≤ 3000 ∧ ∀ a ∈ s.timers, t ≤ timeLeft s now a

/-- The time left to the first timer is not negative as an `int`, or it is taken for no timer. -/
def FirstFits (s : TimerManager) (now : UInt64) : Prop :=
  ∀ a ∈ s.timers.head?, timeLeft s now a % 2 ^ 32 < 2 ^ 31 ∨ timeLeft s now a = 2 ^ 64 - 1

/-! ## One value -/

section
variable {s : TimerManager} {now next : UInt64} {a : Addr} {t : ℤ} {retries : ℕ}

theorem toInt_def (x : UInt64) :
    toInt x = if (x.toNat : ℤ) % 4294967296 < 2147483648 then (x.toNat : ℤ) % 4294967296
      else (x.toNat : ℤ) % 4294967296 - 4294967296 :=
  Int.bmod_def ..

theorem toInt_three : toInt 3000 = 3000 := by decide

theorem clampTimeout_max : clampTimeout (~~~0) = 3000 := if_neg fun h => h rfl

theorem clampTimeout_of_ne (h : next ≠ ~~~0) :
    clampTimeout next = if toInt next > 3000 then 3000 else next :=
  if_pos h

/-- A second time changes nothing. -/
theorem clampTimeout_clampTimeout (next : UInt64) :
    clampTimeout (clampTimeout next) = clampTimeout next := by
  have hthree : clampTimeout 3000 = 3000 := by decide
  by_cases h : next = ~~~0
  · rw [h, clampTimeout_max, hthree]
  · by_cases hbig : toInt next > 3000
    · rw [clampTimeout_of_ne h, if_pos hbig, hthree]
    · rw [clampTimeout_of_ne h, if_neg hbig, clampTimeout_of_ne h, if_neg hbig]

theorem mem_epollTimeouts : t ∈ epollTimeouts next retries ↔ t = toInt (clampTimeout next) := by
  induction retries generalizing next with
  | zero => exact List.mem_singleton
  | succ retries ih =>
    rw [epollTimeouts, List.mem_cons, ih, clampTimeout_clampTimeout, or_self]

theorem getNextTimer_nil (h : s.timers = []) : (s.getNextTimer now).2 = ~~~0 := by
  rw [TimerManager.getNextTimer, h]

/-- With a timer it is the time left to the first one. -/
theorem getNextTimer_cons {l : List Addr} (h : s.timers = a :: l) :
    (s.getNextTimer now).2.toNat = timeLeft s now a := by
  rw [TimerManager.getNextTimer, h, timeLeft]
  dsimp only
  split_ifs with hle
  · rw [Nat.sub_eq_zero_of_le (UInt64.le_iff_toNat_le.1 hle)]
    rfl
  · exact UInt64.toNat_sub_of_le _ _ (UInt64.le_iff_toNat_le.2 (by
      rw [ge_iff_le, UInt64.le_iff_toNat_le] at hle
      omega))

/-- The timer that is first has the least time left. -/
theorem timeLeft_le {l : List Addr} (h : s.WellOrdered) (hs : s.timers = a :: l) {b : Addr}
    (hb : b ∈ s.timers) : timeLeft s now a ≤ timeLeft s now b := by
  have hpair := h.ordered
  rw [hs] at hpair hb
  rcases List.mem_cons.1 hb with rfl | hb
  · exact le_rfl
  · have hle : (s.obj a).next.toNat ≤ (s.obj b).next.toNat := by
      rcases (List.pairwise_cons.1 hpair).1 b hb with hlt | ⟨heq, -⟩
      · exact (UInt64.lt_iff_toNat_lt.1 hlt).le
      · rw [heq]
    exact Nat.sub_le_sub_right hle _

theorem inTime_iff {l : List Addr} (h : s.WellOrdered) (hs : s.timers = a :: l) :
    InTime s now t ↔ 0 ≤ t ∧ t ≤ 3000 ∧ t ≤ timeLeft s now a := by
  refine and_congr_right fun _ => and_congr_right fun _ => ⟨fun hall => hall a ?_, fun hle b hb => ?_⟩
  · rw [hs]
    exact List.mem_cons_self ..
  · exact hle.trans (Int.ofNat_le.2 (timeLeft_le h hs hb))

/-- The value for a timer. -/
theorem clampTimeout_inTime_iff (hmax : next ≠ ~~~0) :
    (0 ≤ toInt (clampTimeout next) ∧ toInt (clampTimeout next) ≤ 3000 ∧
      toInt (clampTimeout next) ≤ next.toNat) ↔ next.toNat % 2 ^ 32 < 2 ^ 31 := by
  have hdef := toInt_def next
  rw [clampTimeout_of_ne hmax]
  by_cases hbig : toInt next > 3000
  · rw [if_pos hbig, toInt_three]
    omega
  · rw [if_neg hbig]
    omega

end

theorem inTime_iff_firstFits {s : TimerManager} (h : s.WellOrdered) (now : UInt64) :
    InTime s now (toInt (clampTimeout (s.getNextTimer now).2)) ↔ FirstFits s now := by
  cases hs : s.timers with
  | nil =>
    rw [getNextTimer_nil hs, clampTimeout_max, toInt_three]
    refine iff_of_true ⟨by norm_num, le_rfl, ?_⟩ ?_
    · rw [hs]
      exact nofun
    · rw [FirstFits, hs]
      exact nofun
  | cons a l =>
    have hnext : (s.getNextTimer now).2.toNat = timeLeft s now a := getNextTimer_cons hs
    have hfits : FirstFits s now ↔
        timeLeft s now a % 2 ^ 32 < 2 ^ 31 ∨ timeLeft s now a = 2 ^ 64 - 1 := by
      rw [FirstFits, hs]
      exact ⟨fun hall => hall a rfl, fun ha b hb => by rwa [← Option.some.inj hb]⟩
    rw [inTime_iff h hs, hfits, ← hnext]
    by_cases hmax : (s.getNextTimer now).2 = ~~~0
    · rw [hmax, clampTimeout_max, toInt_three]
      decide
    · rw [clampTimeout_inTime_iff hmax]
      refine ⟨Or.inl, fun hor => hor.resolve_right fun heq => hmax ?_⟩
      exact UInt64.toNat_inj.1 heq

/-- The largest number is taken for no timer. -/
theorem firstFits_of_max {s : TimerManager} {now : UInt64} (h : (s.getNextTimer now).2 = ~~~0) :
    FirstFits s now := by
  intro a ha
  obtain ⟨l, hs⟩ := List.head?_eq_some_iff.1 (Option.mem_def.1 ha)
  rw [← getNextTimer_cons hs, h]
  exact Or.inr rfl

/-- **The timeout of `epoll_wait`** is within bounds, in the first call and in every retry, exactly when
the time left to the first timer fits. -/
theorem epollTimeout_iff {s : TimerManager} (h : s.WellOrdered) (now : UInt64) (stop : Bool)
    (retries : ℕ) :
    (∀ t ∈ idleTimeouts s now stop retries, InTime s now t) ↔ FirstFits s now := by
  rw [idleTimeouts]
  split_ifs with hstop
  · exact iff_of_true nofun (firstFits_of_max hstop.1)
  · rw [← inTime_iff_firstFits h now]
    exact ⟨fun hall => hall _ (mem_epollTimeouts.2 rfl), fun hin t ht => mem_epollTimeouts.1 ht ▸ hin⟩

/-- The manager with one timer, set up when the clock was at zero. -/
def oneTimer (ms : UInt64) : TimerManager := ((TimerManager.start 0).addTimer 0 1 ms (some 7) false).1

theorem oneTimer_wellOrdered (ms : UInt64) : (oneTimer ms).WellOrdered :=
  (TimerManager.Holding.start.step (o := .addTimer 0 1 ms (some 7) false) (Option.some_ne_none 7)
    rfl).wellOrdered

/-- One timer, in 100 milliseconds. -/
theorem epollTimeout_short : idleTimeouts (oneTimer 100) 0 false 2 = [100, 100, 100] ∧
    InTime (oneTimer 100) 0 100 := by
  have hfits : FirstFits (oneTimer 100) 0 := fun a ha => by
    obtain rfl := Option.some.inj ha
    decide
  exact ⟨by decide, (epollTimeout_iff (oneTimer_wellOrdered 100) 0 false 2).2 hfits 100 (by decide)⟩

/-- One timer, in `2 ^ 31` milliseconds: the timeout is negative, and `epoll_wait` waits for ever. -/
theorem not_epollTimeout : ¬∀ (s : TimerManager), s.WellOrdered → ∀ (now : UInt64) (stop : Bool)
    (retries : ℕ), ∀ t ∈ idleTimeouts s now stop retries, InTime s now t := by
  intro h
  have hneg := (h _ (oneTimer_wellOrdered 2147483648) 0 false 0 (-2147483648) (by decide)).1
  exact absurd hneg (by decide)

end CoroutineScheduler.IOManager

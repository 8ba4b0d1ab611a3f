import Mathlib.Tactic

/-!
# The statistics of the last seconds

`HolderStatsSet` of `load_balance.cc`: a ring with a slot for each of the last seconds, which `init`
clears when a later second comes. Its loop counts `t` as a `uint32_t`; at the largest second it goes
on from 0 and clears slots that are still in use, but never leaves one that is too old
(`clearLoop_cases`, `clearLoop_cleared`).
-/

namespace CoroutineScheduler.Streams

/-- `HolderStats`. -/
structure HolderStats where
  usedTime : UInt32 := 0
  total : UInt32 := 0
  doing : UInt32 := 0
  timeouts : UInt32 := 0
  oks : UInt32 := 0
  errs : UInt32 := 0
  deriving DecidableEq, Repr

/-- `HolderStats::clear`. -/
def HolderStats.clear (_ : HolderStats) : HolderStats := {}

/-- `HolderStatsSet`. -/
structure HolderStatsSet where
  lastUpdateTime : UInt32 := 0
  stats : List HolderStats

namespace HolderStatsSet

/-- The constructor. -/
def new (size : UInt32) : HolderStatsSet := { stats := List.replicate size.toNat {} }

/-- The loop of `init`, with `n` rounds left before `i` is the size. -/
def clearLoop (now t : UInt32) : ℕ → List HolderStats → List HolderStats
  | 0, stats => stats
  | n + 1, stats =>
    if t ≤ now then
      clearLoop now (t + 1) n (stats.modify (t.toNat % stats.length) HolderStats.clear)
    else stats

def init (s : HolderStatsSet) (now : UInt32) : HolderStatsSet :=
  if s.lastUpdateTime < now then
    ⟨now, clearLoop now (s.lastUpdateTime + 1) s.stats.length s.stats⟩
  else s

/-- `get`, with the place of the slot that it returns. -/
def get (s : HolderStatsSet) (now : UInt32) : HolderStatsSet × ℕ :=
  let s := s.init now
  (s, now.toNat % s.stats.length)

end HolderStatsSet

open HolderStatsSet

/-! ## Runs -/

/-- A call of `get` with what is done to the slot that it returns. -/
structure StatsCall where
  now : UInt32
  updates : List (HolderStats → HolderStats)

/-- A slot after some updates. -/
def updated (x : HolderStats) (updates : List (HolderStats → HolderStats)) : HolderStats :=
  updates.foldl (fun x f => f x) x

def StatsCall.run (s : HolderStatsSet) (c : StatsCall) : HolderStatsSet :=
  let r := s.get c.now
  { r.1 with stats := r.1.stats.modify r.2 (updated · c.updates) }

/-- The set after some calls. -/
def runCalls (size : UInt32) (calls : List StatsCall) : HolderStatsSet :=
  calls.foldl StatsCall.run (new size)

/-- A clear slot after the updates of one second, and no others. -/
def made (calls : List StatsCall) (t : UInt32) : HolderStats :=
  updated {} ((calls.filter (·.now = t)).flatMap StatsCall.updates)

/-- The slots: that of the last second has all of its updates, every other one those of a second of
the window, or is clear. -/
structure Window (size : UInt32) (calls : List StatsCall) (s : HolderStatsSet) : Prop where
  length : s.stats.length = size.toNat
  past : ∀ c ∈ calls, c.now ≤ s.lastUpdateTime
  current : s.stats[s.lastUpdateTime.toNat % size.toNat]? = some (made calls s.lastUpdateTime)
  slots : ∀ j < size.toNat, s.stats[j]? = some {} ∨ ∃ t ≤ s.lastUpdateTime,
    s.lastUpdateTime.toNat < t.toNat + size.toNat ∧ t.toNat % size.toNat = j ∧
      s.stats[j]? = some (made calls t)

/-! ## The loop -/

section
variable {now t : UInt32} {n : ℕ} {stats : List HolderStats}

theorem length_clearLoop (now t : UInt32) (n : ℕ) (stats : List HolderStats) :
    (clearLoop now t n stats).length = stats.length := by
  induction n generalizing t stats with
  | zero => rfl
  | succ n ih =>
    rw [clearLoop]
    split_ifs
    · rw [ih, List.length_modify]
    · rfl

/-- A slot stays as it is or is cleared. -/
theorem clearLoop_cases (now t : UInt32) (n : ℕ) (stats : List HolderStats) {j : ℕ}
    (hj : j < stats.length) : (clearLoop now t n stats)[j]? = stats[j]? ∨
      (clearLoop now t n stats)[j]? = some {} := by
  induction n generalizing t stats with
  | zero => exact .inl rfl
  | succ n ih =>
    rw [clearLoop]
    split_ifs
    · have hj' : j < (stats.modify (t.toNat % stats.length) HolderStats.clear).length := by
        rwa [List.length_modify]
      rcases ih (t + 1) _ hj' with h | h
      · rw [h]
        by_cases hm : t.toNat % stats.length = j
        · rw [hm, List.getElem?_modify_eq, List.getElem?_eq_getElem hj]
          exact .inr rfl
        · exact .inl (List.getElem?_modify_ne _ _ hm)
      · exact .inr h
    · exact .inl rfl

/-- The slots of the seconds up to `now` are cleared, as far as the rounds go. -/
theorem clearLoop_cleared {k : ℕ} (hk : k < n) (hnow : t.toNat + k ≤ now.toNat)
    (hsize : 0 < stats.length) :
    (clearLoop now t n stats)[(t.toNat + k) % stats.length]? = some {} := by
  induction n generalizing t stats k with
  | zero => omega
  | succ n ih =>
    have hle : t ≤ now := UInt32.le_iff_toNat_le.2 (by omega)
    have hlen : (stats.modify (t.toNat % stats.length) HolderStats.clear).length = stats.length :=
      List.length_modify ..
    rw [clearLoop, if_pos hle]
    cases k with
    | zero =>
      have hj : t.toNat % stats.length < stats.length := Nat.mod_lt _ hsize
      rw [Nat.add_zero]
      rcases clearLoop_cases now (t + 1) n _ (hj.trans_eq hlen.symm) with h | h
      · rw [h, List.getElem?_modify_eq, List.getElem?_eq_getElem hj]
        rfl
      · exact h
    | succ k =>
      have hlt := now.toNat_lt
      have hsucc : (t + 1).toNat = t.toNat + 1 := by
        rw [UInt32.toNat_add, UInt32.toNat_one, Nat.mod_eq_of_lt (by omega)]
      have hk' : (clearLoop now (t + 1) n (stats.modify (t.toNat % stats.length) HolderStats.clear))[
          ((t + 1).toNat + k) % (stats.modify (t.toNat % stats.length) HolderStats.clear).length]? =
            some {} := ih (by omega) (by omega) (by omega)
      rwa [hlen, hsucc, Nat.add_right_comm, Nat.add_assoc] at hk'

end

/-! ## Updates of a second -/

theorem made_append (calls : List StatsCall) (c : StatsCall) (t : UInt32) :
    made (calls ++ [c]) t =
      if c.now = t then updated (made calls t) c.updates else made calls t := by
  unfold made updated
  rw [List.filter_append, List.flatMap_append, List.foldl_append, List.filter_cons]
  by_cases h : c.now = t
  · simp [h]
  · simp [h]

theorem made_of_past {calls : List StatsCall} {t last : UInt32} (hpast : ∀ c ∈ calls, c.now ≤ last)
    (h : last < t) : made calls t = {} := by
  have hnil : calls.filter (·.now = t) = [] := by
    refine List.filter_eq_nil_iff.2 fun c hc he => ?_
    have heq : c.now = t := of_decide_eq_true he
    exact UInt32.lt_irrefl _ (UInt32.lt_of_le_of_lt (heq ▸ hpast c hc) h)
  unfold made
  rw [hnil]
  rfl

/-! ## One call -/

section
variable {size now : UInt32} {calls : List StatsCall} {s : HolderStatsSet}

theorem window_new (size : UInt32) (hsize : 1 ≤ size) : Window size [] (new size) := by
  have hpos : 0 < size.toNat := UInt32.le_iff_toNat_le.1 hsize
  have hclear : ∀ j < size.toNat, (List.replicate size.toNat ({} : HolderStats))[j]? = some {} :=
    fun j hj => by rw [List.getElem?_replicate, if_pos hj]
  exact ⟨List.length_replicate, List.forall_mem_nil _, hclear _ (Nat.mod_lt _ hpos),
    fun j hj => .inl (hclear j hj)⟩

/-- The slot of a second is cleared when its turn comes again. -/
theorem init_cleared (hsize : s.stats.length = size.toNat) (hpos : 0 < size.toNat)
    (hlt : s.lastUpdateTime < now) {t : ℕ} (ht : s.lastUpdateTime.toNat < t) (hnow : t ≤ now.toNat) :
    (clearLoop now (s.lastUpdateTime + 1) s.stats.length s.stats)[t % size.toNat]? = some {} := by
  have hlast : s.lastUpdateTime.toNat < now.toNat := UInt32.lt_iff_toNat_lt.1 hlt
  have hbound := now.toNat_lt
  have hsucc : (s.lastUpdateTime + 1).toNat = s.lastUpdateTime.toNat + 1 := by
    rw [UInt32.toNat_add, UInt32.toNat_one, Nat.mod_eq_of_lt (by omega)]
  -- the round in which the loop comes to this slot for the first time
  have hk : (t - (s.lastUpdateTime.toNat + 1)) % size.toNat < s.stats.length := by
    rw [hsize]
    exact Nat.mod_lt _ hpos
  have hmod := Nat.mod_le (t - (s.lastUpdateTime.toNat + 1)) size.toNat
  have hnow' : (s.lastUpdateTime + 1).toNat + (t - (s.lastUpdateTime.toNat + 1)) % size.toNat ≤
      now.toNat := by omega
  have hne : 0 < s.stats.length := by omega
  have hround := clearLoop_cleared hk hnow' hne
  rw [hsize] at hround ⊢
  rwa [hsucc, Nat.add_mod_mod, Nat.add_sub_cancel' (by omega)] at hround

/-- What `init` leaves, when the time does not go back. -/
theorem Window.init (h : Window size calls s) (hpos : 0 < size.toNat) (hle : s.lastUpdateTime ≤ now) :
    Window size calls (s.init now) ∧ (s.init now).lastUpdateTime = now := by
  unfold HolderStatsSet.init
  split_ifs with hlt
  · refine ⟨⟨?_, fun c hc => UInt32.le_trans (h.past c hc) hle, ?_, fun j hj => ?_⟩, rfl⟩
    · exact (length_clearLoop ..).trans h.length
    · rw [made_of_past h.past hlt]
      exact init_cleared h.length hpos hlt (UInt32.lt_iff_toNat_lt.1 hlt) (Nat.le_refl _)
    · dsimp only
      rcases clearLoop_cases now (s.lastUpdateTime + 1) s.stats.length s.stats (h.length ▸ hj)
        with hkeep | hclear
      · rw [hkeep]
        rcases h.slots j hj with hclear | ⟨t, ht, hwin, hmod, hslot⟩
        · exact .inl hclear
        · by_cases hin : now.toNat < t.toNat + size.toNat
          · exact .inr ⟨t, UInt32.le_trans ht hle, hin, hmod, hslot⟩
          · have hcleared := init_cleared (t := t.toNat + size.toNat) h.length hpos hlt hwin
              (Nat.le_of_not_lt hin)
            rw [Nat.add_mod_right, hmod, hkeep] at hcleared
            exact .inl hcleared
      · exact .inl hclear
  · exact ⟨h, UInt32.le_antisymm hle (UInt32.not_lt.1 hlt)⟩

/-- A call, when the time does not go back. -/
theorem Window.run (h : Window size calls s) (hpos : 0 < size.toNat) {c : StatsCall}
    (hle : s.lastUpdateTime ≤ c.now) :
    Window size (calls ++ [c]) (c.run s) ∧ (c.run s).lastUpdateTime = c.now := by
  obtain ⟨hwin, hlast⟩ := h.init hpos hle
  have hplace : (s.get c.now).2 = c.now.toNat % size.toNat :=
    congrArg (c.now.toNat % ·) hwin.length
  have hcur := hwin.current
  rw [hlast] at hcur
  have hstats : (c.run s).stats =
      (s.init c.now).stats.modify (c.now.toNat % size.toNat) (updated · c.updates) :=
    congrArg (fun j => List.modify (s.init c.now).stats j _) hplace
  have hlast' : (c.run s).lastUpdateTime = c.now := hlast
  refine ⟨⟨?_, fun d hd => ?_, ?_, fun j hj => ?_⟩, hlast'⟩
  · rw [hstats, List.length_modify]
    exact hwin.length
  · rw [hlast']
    rcases List.mem_append.1 hd with hd | hd
    · exact hlast ▸ hwin.past d hd
    · rw [List.mem_singleton.1 hd]
      exact UInt32.le_refl _
  · rw [hlast', hstats, List.getElem?_modify_eq, hcur, made_append, if_pos rfl]
    rfl
  · rw [hlast', hstats]
    by_cases hj' : c.now.toNat % size.toNat = j
    · refine .inr ⟨c.now, UInt32.le_refl _, by omega, hj', ?_⟩
      rw [← hj', List.getElem?_modify_eq, hcur, made_append, if_pos rfl]
      rfl
    · rw [List.getElem?_modify_ne _ _ hj']
      rcases hwin.slots j hj with hclear | ⟨t, ht, hin, hmod, hslot⟩
      · exact .inl hclear
      · rw [hlast] at ht hin
        refine .inr ⟨t, ht, hin, hmod, ?_⟩
        have hne : c.now ≠ t := fun he => hj' (by rw [he, hmod])
        rw [hslot, made_append, if_neg hne]

end

/-! ## A run -/

/-- Times that do not go back, from some time on. -/
def InOrder (start : UInt32) (times : List UInt32) : Prop := (start :: times).Pairwise (· ≤ ·)

theorem window_foldl {size : UInt32} (hpos : 0 < size.toNat) (calls : List StatsCall) (now : UInt32)
    {done : List StatsCall} {s : HolderStatsSet} (h : Window size done s)
    (horder : InOrder s.lastUpdateTime (calls.map StatsCall.now ++ [now])) :
    ∃ s', s' = calls.foldl StatsCall.run s ∧ Window size (done ++ calls) s' ∧
      s'.lastUpdateTime ≤ now := by
  induction calls generalizing done s with
  | nil =>
    refine ⟨s, rfl, by rwa [List.append_nil], ?_⟩
    exact List.rel_of_pairwise_cons horder (List.mem_singleton_self now)
  | cons c calls ih =>
    have hle : s.lastUpdateTime ≤ c.now :=
      List.rel_of_pairwise_cons horder (List.mem_cons_self ..)
    obtain ⟨hwin, hlast⟩ := h.run hpos hle
    obtain ⟨s', hs', hwin', hle'⟩ := ih hwin (hlast ▸ (List.pairwise_cons.1 horder).2)
    rw [List.append_assoc] at hwin'
    exact ⟨s', hs', hwin', hle'⟩

/-- After any calls whose times do not go back, `get(now)` returns the slot with the updates that were
made at this second and no others; every other slot has only updates of one of the `size - 1` seconds
before, or is clear. -/
theorem stats_window (size : UInt32) (hsize : 1 ≤ size) (calls : List StatsCall) (now : UInt32)
    (horder : (calls.map StatsCall.now ++ [now]).Pairwise (· ≤ ·)) :
    let r := (runCalls size calls).get now
    r.1.stats[r.2]? = some (made calls now) ∧
      ∀ j < size.toNat, j ≠ r.2 → r.1.stats[j]? = some {} ∨
        ∃ t < now, now.toNat < t.toNat + size.toNat ∧ r.1.stats[j]? = some (made calls t) := by
  have hpos : 0 < size.toNat := UInt32.le_iff_toNat_le.1 hsize
  obtain ⟨s, hs, hwin, hle⟩ := window_foldl hpos calls now (window_new size hsize)
    (List.pairwise_cons.2 ⟨fun t _ => UInt32.zero_le, horder⟩)
  obtain ⟨hinit, hlast⟩ := hwin.init hpos hle
  have hrun : runCalls size calls = s := hs.symm
  have hplace : (s.get now).2 = now.toNat % size.toNat := congrArg (now.toNat % ·) hinit.length
  have hcur := hinit.current
  rw [hlast] at hcur
  intro r
  have hr : r = s.get now := congrArg (get · now) hrun
  rw [hr, hplace]
  refine ⟨hcur, fun j hj hne => ?_⟩
  rcases hinit.slots j hj with hclear | ⟨t, ht, hin, hmod, hslot⟩
  · exact .inl hclear
  · rw [hlast] at ht hin
    refine .inr ⟨t, UInt32.lt_of_le_of_ne ht fun he => hne ?_, hin, hslot⟩
    rw [← hmod, he]

/-- Two slots, next to the largest second. -/
theorem stats_window_last :
    let calls : List StatsCall := [⟨4294967294, [fun x => { x with oks := x.oks + 1 }]⟩]
    let r := (runCalls 2 calls).get 4294967295
    r.1.stats[r.2]? = some (made calls 4294967295) ∧
      ∀ j < (2 : UInt32).toNat, j ≠ r.2 → r.1.stats[j]? = some {} ∨
        ∃ t < 4294967295, (4294967295 : UInt32).toNat < t.toNat + (2 : UInt32).toNat ∧
          r.1.stats[j]? = some (made calls t) :=
  stats_window 2 (by decide) [⟨4294967294, [fun x => { x with oks := x.oks + 1 }]⟩] 4294967295
    (by decide)

end CoroutineScheduler.Streams

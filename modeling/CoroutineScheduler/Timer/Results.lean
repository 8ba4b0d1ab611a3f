import CoroutineScheduler.Timer.Expired

/-!
# What the timer operations return

`Filed` holds in every run, also when timers with an empty callback are added: the set is in order,
its timers exist, and a timer with a callback is in it. Under it every operation has an equation
(`cancel_eq`, `refresh_eq`, `reset_eq`), from which come the values returned.

1. `premature_iff`: `m_previouseTime` less an hour is an unsigned number, so a clock that steps back
   within the first hour counts as a rollover and fires timers that are not due.
2. `results_truthful_iff`: `reset` to the interval that a timer has already, with its old start,
   returns true before it looks whether the timer is armed.
-/

namespace CoroutineScheduler

open Trans

namespace TimerManager

variable {s t : TimerManager} {now ms : UInt64} {fromNow : Bool} {a b tmp : Addr}

/-! ## The set in every run -/

/-- The set is in order, its timers exist, and a timer with a callback is in it. -/
structure Filed (s : TimerManager) : Prop where
  sorted : OrderedSet.Sorted (lt s.obj) s.timers
  alive : ∀ a ∈ s.timers, s.live a = true
  armed : ∀ a, s.live a = true → (s.obj a).cb ≠ none → a ∈ s.timers

/-- The timer `a` leaves the set, gets the fields `t` and enters the set again. -/
def put (s : TimerManager) (a : Addr) (t : Timer) : TimerManager :=
  { s with
    obj := Function.update s.obj a t
    timers := OrderedSet.insert (lt (Function.update s.obj a t)) a (s.timers.erase a) }

theorem put_obj_self (s : TimerManager) (a : Addr) (t : Timer) : (s.put a t).obj a = t :=
  Function.update_self ..

theorem put_obj_of_ne (s : TimerManager) (h : b ≠ a) (t : Timer) : (s.put a t).obj b = s.obj b :=
  Function.update_of_ne h _ _

namespace Filed

theorem start : Filed (.start now) where
  sorted := List.Pairwise.nil
  alive := fun _ h => absurd h List.not_mem_nil
  armed := fun _ h => by cases h

theorem nodup (h : Filed s) : s.timers.Nodup := h.sorted.nodup (strict_lt s.obj)

theorem mem_erase (h : Filed s) : b ∈ s.timers.erase a ↔ b ≠ a ∧ b ∈ s.timers :=
  h.nodup.mem_erase_iff

theorem sorted_erase (h : Filed s) (a : Addr) :
    OrderedSet.Sorted (lt s.obj) (s.timers.erase a) :=
  List.Pairwise.sublist List.erase_sublist h.sorted

/-- A timer in the set is found, at the position where it is erased. -/
theorem find (h : Filed s) (ha : a ∈ s.timers) :
    ∃ i, s.find a = some i ∧ s.timers.eraseIdx i = s.timers.erase a := by
  obtain ⟨pre, post, hsplit, hfind⟩ := OrderedSet.find_of_mem (strict_lt s.obj) h.sorted ha
  have hnd := h.nodup
  rw [hsplit] at hnd
  have hpre : a ∉ pre := fun hm =>
    (List.nodup_append.1 hnd).2.2 a hm a (List.mem_cons_self ..) rfl
  refine ⟨pre.length, hfind, ?_⟩
  rw [hsplit, List.eraseIdx_append_of_length_le le_rfl, Nat.sub_self,
    List.erase_append_right _ hpre, List.erase_cons_head]
  rfl

theorem mem_put (h : Filed s) (ha : a ∈ s.timers) (t : Timer) :
    b ∈ (s.put a t).timers ↔ b ∈ s.timers := by
  have hn : a ∉ s.timers.erase a := fun hm => (h.mem_erase.1 hm).1 rfl
  refine (OrderedSet.mem_insert_of_not_mem (strict_lt _) hn).trans ?_
  rw [h.mem_erase]
  constructor
  · rintro (rfl | hb)
    · exact ha
    · exact hb.2
  · intro hb
    by_cases hba : b = a
    · exact .inl hba
    · exact .inr ⟨hba, hb⟩

theorem put (h : Filed s) (ha : a ∈ s.timers) (t : Timer) : Filed (s.put a t) := by
  have hn : a ∉ s.timers.erase a := fun hm => (h.mem_erase.1 hm).1 rfl
  refine ⟨?_, fun b hb => h.alive b ((h.mem_put ha t).1 hb), fun b hb hc => ?_⟩
  · exact (sorted_insert_update (s := { s with timers := s.timers.erase a }) (h.sorted_erase a) hn t).1
  · rw [h.mem_put ha]
    by_cases hba : b = a
    · exact hba ▸ ha
    · refine h.armed b hb ?_
      rwa [put_obj_of_ne s hba] at hc

/-! ## The operations -/

theorem cancel_eq (h : Filed s) (ha : s.live a = true) (hc : (s.obj a).cb ≠ none) :
    s.cancel a = ({ s.setCb a none with timers := s.timers.erase a }, .done) := by
  obtain ⟨i, hi, he⟩ := h.find (h.armed a ha hc)
  unfold TimerManager.cancel
  rw [if_pos (Option.isSome_iff_ne_none.2 hc)]
  dsimp only
  rw [Holding.find_setCb, hi, ← he]
  rfl

theorem refresh_eq (h : Filed s) (ha : s.live a = true) (hc : (s.obj a).cb ≠ none) :
    s.refresh now a = (s.put a { s.obj a with next := now + (s.obj a).ms }, .done) := by
  obtain ⟨i, hi, he⟩ := h.find (h.armed a ha hc)
  have hn : a ∉ s.timers.erase a := fun hm => (h.mem_erase.1 hm).1 rfl
  unfold TimerManager.refresh
  rw [if_pos (Option.isSome_iff_ne_none.2 hc), hi]
  simp only [TimerManager.erase, TimerManager.setNext, TimerManager.insert, TimerManager.set,
    TimerManager.put, he, decide_eq_false hn, Bool.or_false]

/-- `reset` takes `m_next - m_ms` for the time when the timer was started. -/
theorem reset_eq (h : Filed s) (ha : s.live a = true) (hc : (s.obj a).cb ≠ none)
    (hs : ¬(ms = (s.obj a).ms ∧ fromNow = false)) (now : UInt64) : ∃ tickled, s.reset now a ms fromNow =
      ({ s.put a { s.obj a with
          ms := ms
          next := (if fromNow then now else (s.obj a).next - (s.obj a).ms) + ms } with
        tickled := tickled }, .done) := by
  obtain ⟨i, hi, he⟩ := h.find (h.armed a ha hc)
  have hn : a ∉ s.timers.erase a := fun hm => (h.mem_erase.1 hm).1 rfl
  unfold TimerManager.reset
  rw [if_neg hs, if_pos (Option.isSome_iff_ne_none.2 hc), hi]
  simp only [TimerManager.erase, TimerManager.setNext, TimerManager.setMs, TimerManager.insert,
    TimerManager.set, TimerManager.put, TimerManager.addTimerLocked, he, decide_eq_false hn,
    Bool.or_false, Function.update_self, Function.update_idem]
  exact ⟨_, rfl⟩

end Filed

/-- Without a callback nothing happens. -/
theorem cancel_none (hc : (s.obj a).cb = none) : s.cancel a = (s, .noCb) := by
  unfold cancel
  rw [hc]
  rfl

theorem refresh_none (hc : (s.obj a).cb = none) : s.refresh now a = (s, .noCb) := by
  unfold refresh
  rw [hc]
  rfl

theorem reset_none (hc : (s.obj a).cb = none) (hs : ¬(ms = (s.obj a).ms ∧ fromNow = false)) :
    s.reset now a ms fromNow = (s, .noCb) := by
  unfold reset
  rw [if_neg hs, hc]
  rfl

theorem reset_same (hs : ms = (s.obj a).ms ∧ fromNow = false) :
    s.reset now a ms fromNow = (s, .same) := if_pos hs

namespace Filed

theorem cancel (h : Filed s) (ha : s.live a = true) : Filed (s.cancel a).1 := by
  by_cases hc : (s.obj a).cb = none
  · rw [cancel_none hc]
    exact h
  · rw [h.cancel_eq ha hc]
    refine ⟨sorted_setCb (s := { s with timers := s.timers.erase a }) (h.sorted_erase a) none,
      fun b hb => h.alive b (h.mem_erase.1 hb).2, fun b hb hcb => h.mem_erase.2 ?_⟩
    have hba : b ≠ a := by
      rintro rfl
      exact hcb (by rw [setCb, set_obj_self])
    rw [show (s.setCb a none).obj b = s.obj b from set_obj_of_ne s hba _] at hcb
    exact ⟨hba, h.armed b hb hcb⟩

theorem refresh (h : Filed s) (ha : s.live a = true) (now : UInt64) :
    Filed (s.refresh now a).1 := by
  by_cases hc : (s.obj a).cb = none
  · rw [refresh_none hc]
    exact h
  · rw [h.refresh_eq ha hc]
    exact h.put (h.armed a ha hc) _

/-- Either nothing happens, or the timer is put in its new place. -/
theorem reset_cases (h : Filed s) (ha : s.live a = true) (now ms : UInt64) (fromNow : Bool) :
    (s.reset now a ms fromNow).1 = s ∨ a ∈ s.timers ∧ ∃ tickled, (s.reset now a ms fromNow).1 =
      { s.put a { s.obj a with
          ms := ms
          next := (if fromNow then now else (s.obj a).next - (s.obj a).ms) + ms } with
        tickled := tickled } := by
  by_cases hs : ms = (s.obj a).ms ∧ fromNow = false
  · rw [reset_same hs]
    exact .inl rfl
  by_cases hc : (s.obj a).cb = none
  · rw [reset_none hc hs]
    exact .inl rfl
  · obtain ⟨tickled, he⟩ := h.reset_eq ha hc hs now
    rw [he]
    exact .inr ⟨h.armed a ha hc, tickled, rfl⟩

theorem reset (h : Filed s) (ha : s.live a = true) (now ms : UInt64) (fromNow : Bool) :
    Filed (s.reset now a ms fromNow).1 := by
  rcases h.reset_cases ha now ms fromNow with he | ⟨hmem, tickled, he⟩ <;> rw [he]
  · exact h
  · have hput := h.put hmem { s.obj a with
      ms := ms
      next := (if fromNow then now else (s.obj a).next - (s.obj a).ms) + ms }
    exact ⟨hput.sorted, hput.alive, hput.armed⟩

theorem addTimer (h : Filed s) (ha : s.live a = false) (now ms : UInt64) (cb : Option Callback)
    (recurring : Bool) : Filed (s.addTimer now a ms cb recurring).1 := by
  have hn : a ∉ s.timers := fun hm => Bool.false_ne_true (ha.symm.trans (h.alive a hm))
  obtain ⟨hsort, hmem⟩ := sorted_insert_update h.sorted hn (.new now ms cb recurring)
  refine ⟨hsort, fun b hb => ?_, fun b hb hc => (hmem b).2 ?_⟩
  · rw [addTimer_live]
    by_cases hba : b = a
    · rw [hba, Function.update_self]
    · rw [Function.update_of_ne hba]
      exact h.alive b (((hmem b).1 hb).resolve_left hba)
  · by_cases hba : b = a
    · exact .inl hba
    · rw [addTimer_live, Function.update_of_ne hba] at hb
      rw [addTimer_obj, Function.update_of_ne hba] at hc
      exact .inr (h.armed b hb hc)

theorem listExpiredCb (h : Filed s) (now : UInt64) (tmp : Addr) :
    Filed (s.listExpiredCb now tmp).1 := by
  obtain ⟨rest, hsplit, -, hf⟩ := listExpiredCb_fired h.sorted now tmp
  have hmem : ∀ b, b ∈ s.timers ↔ b ∈ s.expired now tmp ∨ b ∈ rest := fun b => by
    rw [← List.mem_append, ← hsplit]
  refine ⟨hf.sorted, fun b hb => ?_, fun b hb hc => (hf.mem b).2 ?_⟩
  · rw [hf.live]
    obtain hb | ⟨hb, -⟩ := (hf.mem b).1 hb
    · exact h.alive b ((hmem b).2 (.inr hb))
    · exact h.alive b ((hmem b).2 (.inl hb))
  · rw [hf.live] at hb
    by_cases hexp : b ∈ s.expired now tmp
    · have hself : (s.listExpiredCb now tmp).1.obj b = Timer.fired now (s.obj b) := hf.self b hexp
      refine .inr ⟨hexp, ?_⟩
      by_contra hr
      rw [hself, Timer.fired, if_neg hr] at hc
      exact hc rfl
    · rw [hf.other b hexp] at hc
      exact .inl (((hmem b).1 (h.armed b hb hc)).resolve_left hexp)

theorem release (h : Filed s) (ha : a ∉ s.timers) :
    Filed { s with live := Function.update s.live a false } := by
  have hother : ∀ b, b ≠ a → Function.update s.live a false b = s.live b := fun b hb =>
    Function.update_of_ne hb _ _
  refine ⟨h.sorted, fun b hb => ?_, fun b hb hc => ?_⟩
  · exact (hother b fun he => ha (he ▸ hb)).trans (h.alive b hb)
  · have hba : b ≠ a := by
      rintro rfl
      have hself : Function.update s.live b false b = true := hb
      rw [Function.update_self] at hself
      cases hself
    exact h.armed b ((hother b hba).symm.trans hb) hc

theorem step (h : Filed s) {o : TimerOp} (hs : s.step o = some t) : Filed t := by
  cases o with
  | addTimer now a ms cb recurring =>
    simp only [TimerManager.step] at hs
    split_ifs at hs with ha
    cases hs
    exact h.addTimer (by simpa using ha) now ms cb recurring
  | cancel a =>
    simp only [TimerManager.step] at hs
    split_ifs at hs with ha
    cases hs
    exact h.cancel ha
  | refresh now a =>
    simp only [TimerManager.step] at hs
    split_ifs at hs with ha
    cases hs
    exact h.refresh ha now
  | reset now a ms fromNow =>
    simp only [TimerManager.step] at hs
    split_ifs at hs with ha
    cases hs
    exact h.reset ha now ms fromNow
  | listExpiredCb now tmp =>
    simp only [TimerManager.step] at hs
    split_ifs at hs
    cases hs
    exact h.listExpiredCb now tmp
  | getNextTimer now =>
    cases hs
    unfold TimerManager.getNextTimer
    split <;> exact ⟨h.sorted, h.alive, h.armed⟩
  | release a =>
    simp only [TimerManager.step] at hs
    split_ifs at hs with ha
    cases hs
    exact h.release ha.2

theorem of_reach (hr : Reach TimerManager.step free (.start now) s) : Filed s :=
  hr.invariant start fun _ _ _ h _ hs => h.step hs

end Filed

/-! ## The clock -/

/-- What `detectClockRollover` finds, in whole numbers: a clock that has gone back by more than an
hour, or by any amount when the last reading was within the first hour. -/
theorem detectClockRollover_iff (s : TimerManager) (now : UInt64) :
    (s.detectClockRollover now).2 = true ↔ now < s.previousTime ∧
      (now.toNat + 3600000 < s.previousTime.toNat ∨ s.previousTime.toNat < 3600000) := by
  unfold detectClockRollover
  simp only [Bool.and_eq_true, decide_eq_true_eq, UInt64.lt_iff_toNat_lt]
  have h1 := s.previousTime.toNat_lt
  have h2 := now.toNat_lt
  rw [UInt64.toNat_sub]
  have h3 : (60 * 60 * 1000 : UInt64).toNat = 3600000 := by decide
  rw [h3]
  omega

/-- A call fires a timer that is not due only after a rollover. -/
theorem later_mem_expired_iff (h : Filed s) (htmp : s.live tmp = false) (now : UInt64) :
    (∃ a ∈ s.expired now tmp, now < (s.obj a).next) ↔
      (s.detectClockRollover now).2 = true ∧ ∃ a ∈ s.timers, now < (s.obj a).next := by
  have hn : tmp ∉ s.timers := fun hm => Bool.false_ne_true (htmp.symm.trans (h.alive tmp hm))
  by_cases hroll : (s.detectClockRollover now).2 = true
  · rw [expired_of_rollover hroll]
    exact ⟨fun ha => ⟨hroll, ha⟩, And.right⟩
  · rw [expired_eq_due h.sorted hn (by simpa using hroll)]
    refine ⟨?_, fun ha => absurd ha.1 hroll⟩
    rintro ⟨a, ha, hl⟩
    exact absurd (mem_due.1 ha).2 (UInt64.not_le.2 hl)

end TimerManager

open TimerManager in
/-- **Timers fire early only after the clock has gone back an hour**, at a call of `listExpiredCb` in
any run, if and only if it is not the case that the last recorded reading was within the first hour,
that the clock has gone back at all since, and that there is a timer which is not due. -/
theorem premature_iff {t₀ : UInt64} {s : TimerManager}
    (hr : Reach TimerManager.step free (.start t₀) s) (now : UInt64) {tmp : Addr}
    (htmp : s.live tmp = false) :
    (s.listExpiredCb now tmp).2 = (s.expired now tmp).map (fun a => (s.obj a).cb) ∧
    ((∀ a ∈ s.expired now tmp, now < (s.obj a).next →
        now.toNat + 3600000 ≤ s.previousTime.toNat) ↔
      ¬(s.previousTime < 3600000 ∧ now < s.previousTime ∧
        ∃ a ∈ s.timers, now < (s.obj a).next)) := by
  have h := Filed.of_reach hr
  obtain ⟨rest, -, -, hf⟩ := listExpiredCb_fired h.sorted now tmp
  refine ⟨hf.cbs, ?_⟩
  have hsmall : s.previousTime < 3600000 ↔ s.previousTime.toNat < 3600000 := UInt64.lt_iff_toNat_lt
  have hback : now < s.previousTime ↔ now.toNat < s.previousTime.toNat := UInt64.lt_iff_toNat_lt
  have hexp := later_mem_expired_iff h htmp now
  rw [detectClockRollover_iff] at hexp
  constructor
  · rintro hall ⟨hlt, hnow, hlater⟩
    obtain ⟨a, ha, hl⟩ := hexp.2 ⟨⟨hnow, .inr (hsmall.1 hlt)⟩, hlater⟩
    have hhour := hall a ha hl
    rw [hsmall] at hlt
    omega
  · intro hcond a ha hl
    obtain ⟨⟨hnow, hhour | hsm⟩, hlater⟩ := hexp.1 ⟨a, ha, hl⟩
    · exact Nat.le_of_lt hhour
    · exact absurd ⟨hsmall.2 hsm, hnow, hlater⟩ hcond

/-- A clock that is set back by two hours: everything fires. -/
theorem premature_iff_two_hours : ∃ s : TimerManager, s.previousTime = 9000000 ∧
    s.timers = [1] ∧ (s.obj 1).next = 9000500 ∧ (s.listExpiredCb 1800000 2).2 = [some 7] ∧
    ∀ a ∈ s.expired 1800000 2, (1800000 : UInt64) < (s.obj a).next →
      (1800000 : UInt64).toNat + 3600000 ≤ s.previousTime.toNat := by
  have hr := reach_exec TimerManager.step free (.start 9000000)
    [.addTimer 9000000 1 500 (some 7) false] (by decide)
  refine ⟨_, ?_, ?_, ?_, ?_, (premature_iff hr 1800000 (by decide)).2.2 (by decide)⟩ <;> decide

/-- Within the first hour a step back of one millisecond fires a timer that is not due. -/
theorem premature_one_ms : ¬∀ (t₀ : UInt64) (s : TimerManager),
    Reach TimerManager.step free (.start t₀) s → ∀ (now : UInt64) (tmp : Addr), s.live tmp = false →
      ∀ a ∈ s.expired now tmp, now < (s.obj a).next →
        now.toNat + 3600000 ≤ s.previousTime.toNat := by
  intro hall
  have hr := reach_exec TimerManager.step free (.start 1000)
    [.addTimer 1000 1 500 (some 7) false] (by decide)
  exact absurd (hall 1000 _ hr 999 2 (by decide) 1 (by decide) (by decide)) (by decide)

namespace TimerManager

variable {s t : TimerManager} {now ms : UInt64} {fromNow : Bool} {a b tmp : Addr}

/-! ## The values returned -/

/-- The timer exists, and it has neither a callback nor a place in the set. -/
structure Gone (s : TimerManager) (a : Addr) : Prop where
  live : s.live a = true
  cb : (s.obj a).cb = none
  out : a ∉ s.timers

theorem Gone.put (hg : Gone s a) (h : Filed s) (hb : b ∈ s.timers) (t : Timer) :
    Gone (s.put b t) a := by
  have hab : a ≠ b := fun he => hg.out (he ▸ hb)
  refine ⟨hg.live, ?_, fun hm => hg.out ((h.mem_put hb t).1 hm)⟩
  rw [put_obj_of_ne s hab]
  exact hg.cb

theorem Gone.cancel (hg : Gone s a) (h : Filed s) (hb : s.live b = true) :
    Gone (s.cancel b).1 a := by
  by_cases hc : (s.obj b).cb = none
  · rw [cancel_none hc]
    exact hg
  · have hab : a ≠ b := fun he => hc (he ▸ hg.cb)
    have hobj := cancel_obj_of_ne s hab
    rw [h.cancel_eq hb hc] at hobj ⊢
    refine ⟨hg.live, ?_, fun hm => hg.out (h.mem_erase.1 hm).2⟩
    rw [hobj]
    exact hg.cb

theorem Gone.refresh (hg : Gone s a) (h : Filed s) (hb : s.live b = true) :
    Gone (s.refresh now b).1 a := by
  by_cases hc : (s.obj b).cb = none
  · rw [refresh_none hc]
    exact hg
  · rw [h.refresh_eq hb hc]
    exact hg.put h (h.armed b hb hc) _

theorem Gone.reset (hg : Gone s a) (h : Filed s) (hb : s.live b = true) :
    Gone (s.reset now b ms fromNow).1 a := by
  rcases h.reset_cases hb now ms fromNow with he | ⟨hmem, tickled, he⟩ <;> rw [he]
  · exact hg
  · have hput := hg.put h hmem { s.obj b with
      ms := ms
      next := (if fromNow then now else (s.obj b).next - (s.obj b).ms) + ms }
    exact ⟨hput.live, hput.cb, hput.out⟩

theorem Gone.addTimer (hg : Gone s a) (h : Filed s) (hb : s.live b = false) (cb : Option Callback)
    (recurring : Bool) : Gone (s.addTimer now b ms cb recurring).1 a := by
  have hab : a ≠ b := by
    rintro rfl
    exact Bool.false_ne_true (hb.symm.trans hg.live)
  have hn : b ∉ s.timers := fun hm => Bool.false_ne_true (hb.symm.trans (h.alive b hm))
  obtain ⟨-, hmem⟩ := sorted_insert_update h.sorted hn (.new now ms cb recurring)
  refine ⟨?_, ?_, fun hm => ((hmem a).1 hm).elim hab hg.out⟩
  · rw [addTimer_live, Function.update_of_ne hab]
    exact hg.live
  · rw [addTimer_obj, Function.update_of_ne hab]
    exact hg.cb

theorem Gone.not_mem_expired (hg : Gone s a) (now : UInt64) (tmp : Addr) :
    a ∉ s.expired now tmp := by
  obtain ⟨rest, hsplit, -⟩ := exists_expired_append s now tmp
  intro hm
  refine hg.out ?_
  rw [hsplit]
  exact List.mem_append_left _ hm

theorem Gone.listExpiredCb (hg : Gone s a) (h : Filed s) :
    Gone (s.listExpiredCb now tmp).1 a := by
  obtain ⟨rest, hsplit, -, hf⟩ := listExpiredCb_fired h.sorted now tmp
  have hexp := hg.not_mem_expired now tmp
  refine ⟨?_, ?_, fun hm => ?_⟩
  · rw [hf.live]
    exact hg.live
  · rw [hf.other a hexp]
    exact hg.cb
  · obtain hm | ⟨hm, -⟩ := (hf.mem a).1 hm
    · exact hg.out (by rw [hsplit]; exact List.mem_append_right _ hm)
    · exact hexp hm

/-- A timer that is gone stays so until its object ends. -/
theorem Gone.step (hg : Gone s a) (h : Filed s) {o : TimerOp} (ho : o ≠ .release a)
    (hs : s.step o = some t) : Gone t a := by
  cases o with
  | addTimer now b ms cb recurring =>
    simp only [TimerManager.step] at hs
    split_ifs at hs with hb
    cases hs
    exact hg.addTimer h (by simpa using hb) cb recurring
  | cancel b =>
    simp only [TimerManager.step] at hs
    split_ifs at hs with hb
    cases hs
    exact hg.cancel h hb
  | refresh now b =>
    simp only [TimerManager.step] at hs
    split_ifs at hs with hb
    cases hs
    exact hg.refresh h hb
  | reset now b ms fromNow =>
    simp only [TimerManager.step] at hs
    split_ifs at hs with hb
    cases hs
    exact hg.reset h hb
  | listExpiredCb now tmp =>
    simp only [TimerManager.step] at hs
    split_ifs at hs
    cases hs
    exact hg.listExpiredCb h
  | getNextTimer now =>
    cases hs
    unfold TimerManager.getNextTimer
    split <;> exact ⟨hg.live, hg.cb, hg.out⟩
  | release b =>
    simp only [TimerManager.step] at hs
    split_ifs at hs with hb
    cases hs
    have hab : a ≠ b := fun he => ho (he ▸ rfl)
    refine ⟨?_, hg.cb, hg.out⟩
    exact (Function.update_of_ne hab _ _).trans hg.live

/-- The steps that leave the object of the timer `a` where it is. -/
def Keeps (a : Addr) (_ : TimerManager) (o : TimerOp) : Prop := o ≠ .release a

/-- The timer `a` fires at no call of `listExpiredCb` from here on. -/
def NeverFires (s : TimerManager) (a : Addr) : Prop :=
  ∀ u, Reach TimerManager.step (Keeps a) s u → ∀ now tmp, a ∉ u.expired now tmp

theorem Gone.neverFires (hg : Gone s a) (h : Filed s) : s.NeverFires a := by
  intro u hr now tmp
  have hu : Filed u ∧ Gone u a := hr.invariant (I := fun u => Filed u ∧ Gone u a) ⟨h, hg⟩
    fun _ _ _ hI hok hs => ⟨hI.1.step hs, hI.2.step hI.1 hok hs⟩
  exact hu.2.not_mem_expired now tmp

/-- A call on the timer `a` returns true if and only if the timer was in the set, and when it returns
false the set and the timers are as before. -/
def Truthful (s : TimerManager) (a : Addr) (r : TimerManager × Outcome) : Prop :=
  ∃ ok, r.2.result = some ok ∧ (ok = true ↔ a ∈ s.timers) ∧
    (ok = false → r.1.timers = s.timers ∧ r.1.obj = s.obj)

/-- After a true `cancel` the timer does not fire any more. -/
def CancelTruthful (s : TimerManager) (a : Addr) : Prop :=
  Truthful s a (s.cancel a) ∧
    ((s.cancel a).2.result = some true → (s.cancel a).1.NeverFires a)

/-- After a true `refresh` the timer is armed for its interval from now. -/
def RefreshTruthful (s : TimerManager) (now : UInt64) (a : Addr) : Prop :=
  Truthful s a (s.refresh now a) ∧
    ((s.refresh now a).2.result = some true → a ∈ (s.refresh now a).1.timers ∧
      (s.refresh now a).1.obj a = { s.obj a with next := now + (s.obj a).ms })

/-- After a true `reset` the timer is armed for the new interval, from now or from its old start. -/
def ResetTruthful (s : TimerManager) (now : UInt64) (a : Addr) (ms : UInt64) (fromNow : Bool) : Prop :=
  Truthful s a (s.reset now a ms fromNow) ∧
    ((s.reset now a ms fromNow).2.result = some true → a ∈ (s.reset now a ms fromNow).1.timers ∧
      (s.reset now a ms fromNow).1.obj a = { s.obj a with
        ms := ms
        next := (if fromNow then now else (s.obj a).next - (s.obj a).ms) + ms })

/-- The timer is in the set and has no callback. -/
def Hollow (s : TimerManager) (a : Addr) : Prop := a ∈ s.timers ∧ (s.obj a).cb = none

/-- A call that finds no callback tells the truth unless the timer is in the set all the same. -/
theorem truthful_noCb_iff : Truthful s a (s, .noCb) ↔ a ∉ s.timers := by
  constructor
  · rintro ⟨ok, hok, hiff, -⟩ hm
    rw [hiff.2 hm] at hok
    cases hok
  · intro hn
    exact ⟨false, rfl, ⟨fun h => absurd h Bool.false_ne_true, fun h => absurd h hn⟩, fun _ => ⟨rfl, rfl⟩⟩

theorem truthful_done (r : TimerManager) (ha : a ∈ s.timers) : Truthful s a (r, .done) :=
  ⟨true, rfl, ⟨fun _ => ha, fun _ => rfl⟩, fun h => by cases h⟩

theorem not_hollow_of_cb (hc : (s.obj a).cb ≠ none) : ¬Hollow s a := fun h => hc h.2

theorem not_hollow_iff (hc : (s.obj a).cb = none) : ¬Hollow s a ↔ a ∉ s.timers :=
  ⟨fun h hm => h ⟨hm, hc⟩, fun h hh => h hh.1⟩

theorem cancelTruthful_iff (h : Filed s) (ha : s.live a = true) :
    CancelTruthful s a ↔ ¬Hollow s a := by
  unfold CancelTruthful
  by_cases hc : (s.obj a).cb = none
  · rw [cancel_none hc, truthful_noCb_iff, not_hollow_iff hc]
    exact ⟨And.left, fun hn => ⟨hn, fun hr => by cases hr⟩⟩
  · have hg : Gone (s.cancel a).1 a := by
      refine ⟨?_, cancel_obj_self s a, ?_⟩
      · rw [cancel_live]
        exact ha
      · rw [h.cancel_eq ha hc]
        exact fun hm => (h.mem_erase.1 hm).1 rfl
    refine ⟨fun _ => not_hollow_of_cb hc, fun _ => ⟨?_, fun _ => hg.neverFires (h.cancel ha)⟩⟩
    rw [h.cancel_eq ha hc]
    exact truthful_done _ (h.armed a ha hc)

theorem refreshTruthful_iff (h : Filed s) (ha : s.live a = true) (now : UInt64) :
    RefreshTruthful s now a ↔ ¬Hollow s a := by
  unfold RefreshTruthful
  by_cases hc : (s.obj a).cb = none
  · rw [refresh_none hc, truthful_noCb_iff, not_hollow_iff hc]
    exact ⟨And.left, fun hn => ⟨hn, fun hr => by cases hr⟩⟩
  · have hm := h.armed a ha hc
    rw [h.refresh_eq ha hc]
    exact ⟨fun _ => not_hollow_of_cb hc, fun _ => ⟨truthful_done _ hm, fun _ =>
      ⟨(h.mem_put hm _).2 hm, put_obj_self ..⟩⟩⟩

theorem resetTruthful_iff (h : Filed s) (ha : s.live a = true) (now ms : UInt64) (fromNow : Bool) :
    ResetTruthful s now a ms fromNow ↔
      if ms = (s.obj a).ms ∧ fromNow = false then a ∈ s.timers else ¬Hollow s a := by
  unfold ResetTruthful
  by_cases hs : ms = (s.obj a).ms ∧ fromNow = false
  · -- nothing is looked at and nothing changes
    rw [if_pos hs, reset_same hs]
    obtain ⟨rfl, rfl⟩ := hs
    constructor
    · rintro ⟨⟨ok, hok, hiff, -⟩, -⟩
      cases hok
      exact hiff.1 rfl
    · intro hm
      refine ⟨⟨true, rfl, ⟨fun _ => hm, fun _ => rfl⟩, fun hf => by cases hf⟩, fun _ => ⟨hm, ?_⟩⟩
      simp
  rw [if_neg hs]
  by_cases hc : (s.obj a).cb = none
  · rw [reset_none hc hs, truthful_noCb_iff, not_hollow_iff hc]
    exact ⟨And.left, fun hn => ⟨hn, fun hr => by cases hr⟩⟩
  · have hm := h.armed a ha hc
    obtain ⟨tickled, he⟩ := h.reset_eq ha hc hs now
    rw [he]
    exact ⟨fun _ => not_hollow_of_cb hc, fun _ => ⟨truthful_done _ hm, fun _ =>
      ⟨(h.mem_put hm _).2 hm, put_obj_self ..⟩⟩⟩

end TimerManager

open TimerManager in
/-- **The results of `cancel`, `refresh` and `reset` are truthful** for a timer of any reachable state
if and only if the timer is not in the set with an empty callback; `reset` to the interval that the
timer has, without a new start, if and only if the timer is in the set. -/
theorem results_truthful_iff {t₀ : UInt64} {s : TimerManager}
    (hr : Reach TimerManager.step free (.start t₀) s) {a : Addr} (ha : s.live a = true) :
    (CancelTruthful s a ↔ ¬Hollow s a) ∧
    (∀ now, RefreshTruthful s now a ↔ ¬Hollow s a) ∧
    ∀ now ms fromNow, ResetTruthful s now a ms fromNow ↔
      if ms = (s.obj a).ms ∧ fromNow = false then a ∈ s.timers else ¬Hollow s a :=
  ⟨cancelTruthful_iff (.of_reach hr) ha, refreshTruthful_iff (.of_reach hr) ha,
    resetTruthful_iff (.of_reach hr) ha⟩

/-- A recurring timer, after it has fired. -/
theorem results_truthful_recurring : ∃ s : TimerManager, s.timers = [1] ∧ (s.obj 1).next = 25 ∧
    s.CancelTruthful 1 ∧ s.RefreshTruthful 17 1 ∧ s.ResetTruthful 17 1 10 false ∧
    s.ResetTruthful 17 1 30 true := by
  have hr := reach_exec TimerManager.step free (.start 5)
    [.addTimer 5 1 10 (some 7) true, .listExpiredCb 15 2] (by decide)
  obtain ⟨hc, hf, hs⟩ := results_truthful_iff hr (a := 1) (by decide)
  have hcancel := hc.2 fun h => absurd h.2 (by decide)
  have hh := hc.1 hcancel
  refine ⟨_, ?_, ?_, hcancel, (hf 17).2 hh, (hs 17 10 false).2 ?_, (hs 17 30 true).2 ?_⟩
  · decide
  · decide
  · rw [if_pos (by decide)]
    decide
  · rw [if_neg (by decide)]
    exact hh

/-- A timer that has fired is reset to the interval it had: the result is true, and the timer is not
armed. -/
theorem reset_fired_untruthful : ¬∀ (t₀ : UInt64) (s : TimerManager),
    Reach TimerManager.step free (.start t₀) s → ∀ a, s.live a = true →
      s.CancelTruthful a ∧ (∀ now, s.RefreshTruthful now a) ∧
        ∀ now ms fromNow, s.ResetTruthful now a ms fromNow := by
  intro hall
  have hr := reach_exec TimerManager.step free (.start 5)
    [.addTimer 5 1 10 (some 7) false, .listExpiredCb 15 2] (by decide)
  obtain ⟨-, -, hs⟩ := hall 5 _ hr 1 (by decide)
  obtain ⟨⟨ok, hok, hiff, -⟩, -⟩ := hs 20 10 false
  rw [TimerManager.reset_same (by decide)] at hok
  exact absurd (hiff.1 (Option.some.inj hok).symm) (by decide)

end CoroutineScheduler

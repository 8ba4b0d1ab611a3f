import CoroutineScheduler.Timer.Ordered
import Mathlib.Data.List.TakeWhile

/-!
# What the timer operations do to the timers

For each operation: which timer objects it changes, and how. `listExpiredCb` empties the callbacks of
the expired timers that do not recur, and returns callbacks of expired timers only
(`ExpiredSpec`); unless the clock has gone back, these are due.
-/

namespace CoroutineScheduler

namespace TimerManager

variable {s t : TimerManager} {now : UInt64} {a b : Addr}

/-! ## One timer -/

theorem addTimer_obj (s : TimerManager) (now : UInt64) (a : Addr) (ms : UInt64)
    (cb : Option Callback) (recurring : Bool) :
    (s.addTimer now a ms cb recurring).1.obj =
      Function.update s.obj a (.new now ms cb recurring) := rfl

theorem addTimer_live (s : TimerManager) (now : UInt64) (a : Addr) (ms : UInt64)
    (cb : Option Callback) (recurring : Bool) :
    (s.addTimer now a ms cb recurring).1.live = Function.update s.live a true := rfl

/-- `cancel` empties the callback of its timer. -/
theorem cancel_obj_self (s : TimerManager) (a : Addr) : ((s.cancel a).1.obj a).cb = none := by
  unfold cancel
  dsimp only
  split_ifs with hc
  · have hset : ((s.setCb a none).obj a).cb = none := by
      rw [setCb, set_obj_self]
    split <;> exact hset
  · simpa using hc

theorem cancel_obj_of_ne (s : TimerManager) (h : b ≠ a) : (s.cancel a).1.obj b = s.obj b := by
  unfold cancel
  dsimp only
  split_ifs
  · have hset : (s.setCb a none).obj b = s.obj b := set_obj_of_ne s h _
    split <;> exact hset
  · rfl

theorem cancel_live (s : TimerManager) (a : Addr) : (s.cancel a).1.live = s.live := by
  unfold cancel
  dsimp only
  split_ifs
  · split <;> rfl
  · rfl

/-- What `refresh` and `reset` keep: the callbacks, and all of the other timers. -/
structure Retimes (s t : TimerManager) (a : Addr) : Prop where
  live : t.live = s.live
  cb : (t.obj a).cb = (s.obj a).cb
  other : ∀ b, b ≠ a → t.obj b = s.obj b

theorem Retimes.refl (s : TimerManager) (a : Addr) : Retimes s s a := ⟨rfl, rfl, fun _ _ => rfl⟩

theorem Retimes.setNext {r : TimerManager} (h : Retimes s r a) (next : UInt64) :
    Retimes s (r.setNext a next) a := by
  refine ⟨h.live, ?_, fun b hb => ?_⟩
  · show (Function.update r.obj a { r.obj a with next := next } a).cb = _
    rw [Function.update_self]
    exact h.cb
  · show Function.update r.obj a { r.obj a with next := next } b = _
    rw [Function.update_of_ne hb]
    exact h.other b hb

theorem Retimes.setMs {r : TimerManager} (h : Retimes s r a) (ms : UInt64) :
    Retimes s (r.setMs a ms) a := by
  refine ⟨h.live, ?_, fun b hb => ?_⟩
  · show (Function.update r.obj a { r.obj a with ms := ms } a).cb = _
    rw [Function.update_self]
    exact h.cb
  · show Function.update r.obj a { r.obj a with ms := ms } b = _
    rw [Function.update_of_ne hb]
    exact h.other b hb

theorem refresh_retimes (s : TimerManager) (now : UInt64) (a : Addr) :
    Retimes s (s.refresh now a).1 a := by
  unfold refresh
  split_ifs
  · split
    · next i _ =>
      have herase : Retimes s (s.erase i) a := ⟨rfl, rfl, fun _ _ => rfl⟩
      have h := herase.setNext (now + ((s.erase i).obj a).ms)
      exact ⟨h.live, h.cb, h.other⟩
    · exact .refl s a
  · exact .refl s a

theorem reset_retimes (s : TimerManager) (now : UInt64) (a : Addr) (ms : UInt64) (fromNow : Bool) :
    Retimes s (s.reset now a ms fromNow).1 a := by
  unfold reset
  by_cases hs : ms = (s.obj a).ms ∧ fromNow = false
  · rw [if_pos hs]
    exact .refl s a
  · rw [if_neg hs]
    by_cases hc : (s.obj a).cb.isSome = true
    · rw [if_pos hc]
      split
      · next i _ =>
        have herase : Retimes s (s.erase i) a := ⟨rfl, rfl, fun _ _ => rfl⟩
        have h := (herase.setMs ms).setNext
          ((if fromNow then now else ((s.erase i).obj a).next - ((s.erase i).obj a).ms) +
            (((s.erase i).setMs a ms).obj a).ms)
        exact ⟨h.live, h.cb, h.other⟩
      · exact .refl s a
    · rw [if_neg hc]
      exact .refl s a

/-! ## Expiry -/

/-- What happens when the timers `as` expire: the timers afterwards and the callbacks that are
returned. -/
structure ExpiredSpec (s : TimerManager) (as : List Addr) (t : TimerManager)
    (cbs : List (Option Callback)) : Prop where
  live : t.live = s.live
  other : ∀ a, a ∉ as → t.obj a = s.obj a
  recurring : ∀ a, (t.obj a).recurring = (s.obj a).recurring
  /-- a callback stays, or is emptied -/
  cb : ∀ a, (t.obj a).cb = (s.obj a).cb ∨ (t.obj a).cb = none
  fired : ∀ a ∈ as, (s.obj a).recurring = false → (t.obj a).cb = none
  cbs : ∀ k, some k ∈ cbs → ∃ a ∈ as, (s.obj a).cb = some k

theorem fire_obj_of_ne (s : TimerManager) (h : b ≠ a) : (fire now s a).obj b = s.obj b := by
  unfold fire
  split_ifs
  · exact set_obj_of_ne s h _
  · exact set_obj_of_ne s h _

theorem fire_obj_self (s : TimerManager) (now : UInt64) (a : Addr) :
    ((fire now s a).obj a).recurring = (s.obj a).recurring ∧
      ((fire now s a).obj a).cb = if (s.obj a).recurring then (s.obj a).cb else none := by
  unfold fire
  split_ifs with hr
  · show ((Function.update s.obj a _) a).recurring = _ ∧ ((Function.update s.obj a _) a).cb = _
    rw [Function.update_self]
    exact ⟨rfl, rfl⟩
  · rw [setCb, set_obj_self]
    exact ⟨rfl, rfl⟩

theorem fire_live (s : TimerManager) (now : UInt64) (a : Addr) : (fire now s a).live = s.live := by
  unfold fire
  split_ifs <;> rfl

theorem fireAll_spec (s : TimerManager) (now : UInt64) (as : List Addr) :
    ExpiredSpec s as (fireAll now s as).1 (fireAll now s as).2 := by
  induction as generalizing s with
  | nil =>
    exact ⟨rfl, fun _ _ => rfl, fun _ => rfl, fun _ => .inl rfl, fun _ h => absurd h List.not_mem_nil,
      fun _ h => absurd h List.not_mem_nil⟩
  | cons a as ih =>
    obtain ⟨hlive, hother, hrec, hcb, hfired, hcbs⟩ := ih (fire now s a)
    have hself := fire_obj_self s now a
    -- what one iteration does to any timer
    have hone : ∀ b, ((fire now s a).obj b).recurring = (s.obj b).recurring ∧
        (((fire now s a).obj b).cb = (s.obj b).cb ∨ ((fire now s a).obj b).cb = none) := by
      intro b
      by_cases hb : b = a
      · subst hb
        refine ⟨hself.1, ?_⟩
        rw [hself.2]
        split_ifs
        · exact .inl rfl
        · exact .inr rfl
      · rw [fire_obj_of_ne s hb]
        exact ⟨rfl, .inl rfl⟩
    have hkeep : ∀ b, ((fire now s a).obj b).cb = none →
        ((fireAll now (fire now s a) as).1.obj b).cb = none := by
      intro b hb
      rcases hcb b with h | h
      · rw [h, hb]
      · exact h
    refine ⟨hlive.trans (fire_live s now a), fun b hb => ?_, fun b => ?_, fun b => ?_,
      fun b hb hr => ?_, fun k hk => ?_⟩
    · rw [List.mem_cons, not_or] at hb
      exact (hother b hb.2).trans (fire_obj_of_ne s hb.1)
    · exact (hrec b).trans (hone b).1
    · rcases (hone b).2 with h | h
      · rw [← h]
        exact hcb b
      · exact .inr (hkeep b h)
    · rcases List.mem_cons.1 hb with rfl | hb
      · refine hkeep b ?_
        rw [hself.2, hr]
        rfl
      · exact hfired b hb (by rw [(hone b).1, hr])
    · rcases List.mem_cons.1 hk with hk | hk
      · exact ⟨a, List.mem_cons_self .., hk.symm⟩
      · obtain ⟨b, hb, hcb'⟩ := hcbs k hk
        refine ⟨b, List.mem_cons_of_mem a hb, ?_⟩
        rcases (hone b).2 with h | h
        · rw [← h, hcb']
        · rw [h] at hcb'
          cases hcb'

/-- The timers before `expiredEnd` are due. -/
theorem next_le_of_mem_take {tmp : Addr} (h : a ∈ s.timers.take (s.expiredEnd now tmp))
    (htmp : a ≠ tmp) : (s.obj a).next ≤ now := by
  unfold expiredEnd at h
  dsimp only at h
  set lt' := lt (Function.update s.obj tmp (.ofNext now)) with hlt'
  set i := OrderedSet.lowerBound lt' tmp s.timers with hi
  rw [List.take_add, List.mem_append] at h
  rcases h with h | h
  · -- before the lower bound
    have hpre : s.timers.takeWhile (lt' · tmp) = s.timers.take i :=
      List.prefix_iff_eq_take.1 (List.takeWhile_prefix _)
    rw [← hpre] at h
    have hlt : lt' a tmp = true := List.mem_takeWhile_imp (p := (lt' · tmp)) h
    rw [hlt', lt_iff, Function.update_self, Function.update_of_ne htmp] at hlt
    rcases hlt with hlt | ⟨heq, -⟩
    · exact UInt64.le_of_lt hlt
    · exact heq ▸ UInt64.le_refl _
  · -- after it, and due at this very reading
    rw [← List.prefix_iff_eq_take.1 (List.takeWhile_prefix _)] at h
    have heq : (s.obj a).next = now := by simpa using List.mem_takeWhile_imp h
    exact heq ▸ UInt64.le_refl _

/-- `listExpiredCb`. -/
theorem listExpiredCb_spec (s : TimerManager) (now : UInt64) (tmp : Addr) :
    ∃ as, (∀ a ∈ as, a ∈ s.timers) ∧
      ExpiredSpec s as (s.listExpiredCb now tmp).1 (s.listExpiredCb now tmp).2 ∧
      ((s.detectClockRollover now).2 = false → ∀ a ∈ as, a ≠ tmp → (s.obj a).next ≤ now) := by
  have hnone : ∀ t : TimerManager, t.live = s.live → t.obj = s.obj → ∃ as : List Addr,
      (∀ a ∈ as, a ∈ s.timers) ∧ ExpiredSpec s as t [] ∧
      ((s.detectClockRollover now).2 = false → ∀ a ∈ as, a ≠ tmp → (s.obj a).next ≤ now) := by
    intro t hlive hobj
    refine ⟨[], fun _ h => absurd h List.not_mem_nil, ?_, fun _ _ h => absurd h List.not_mem_nil⟩
    refine ⟨hlive, fun _ _ => by rw [hobj], fun _ => by rw [hobj], fun _ => .inl (by rw [hobj]),
      fun _ h => absurd h List.not_mem_nil, fun _ h => absurd h List.not_mem_nil⟩
  unfold listExpiredCb
  split
  · exact hnone s rfl rfl
  · next b bs hb =>
    dsimp only
    split_ifs with hdue hroll
    · exact hnone _ rfl rfl
    · -- a rollover: the whole set
      refine ⟨s.timers.take s.timers.length, fun a ha => List.mem_of_mem_take ha, ?_, fun h => ?_⟩
      · have h := fireAll_spec { (s.detectClockRollover now).1 with
          timers := s.timers.drop s.timers.length } now (s.timers.take s.timers.length)
        exact ⟨h.live, h.other, h.recurring, h.cb, h.fired, h.cbs⟩
      · rw [h] at hroll
        cases hroll
    · set i := (s.detectClockRollover now).1.expiredEnd now tmp with hi
      refine ⟨s.timers.take i, fun a ha => List.mem_of_mem_take ha, ?_, fun _ a ha htmp => ?_⟩
      · have h := fireAll_spec { (s.detectClockRollover now).1 with timers := s.timers.drop i } now
          (s.timers.take i)
        exact ⟨h.live, h.other, h.recurring, h.cb, h.fired, h.cbs⟩
      · exact next_le_of_mem_take (s := (s.detectClockRollover now).1) ha htmp

/-! ## The empty set -/

theorem find_nil (h : s.timers = []) : s.find a = none := by
  unfold find
  rw [h]
  rfl

/-- Only `addTimer` puts a timer into the empty set. -/
theorem step_nil {o : TimerOp} (hs : s.step o = some t) (h : s.timers = [])
    (ho : ∀ now a ms cb recurring, o ≠ .addTimer now a ms cb recurring) : t.timers = [] := by
  cases o with
  | addTimer now a ms cb recurring => exact absurd rfl (ho now a ms cb recurring)
  | cancel a =>
    simp only [step] at hs
    split_ifs at hs
    cases hs
    have hset : (s.setCb a none).timers = [] := h
    unfold cancel
    dsimp only
    rw [find_nil hset]
    split_ifs
    · exact h
    · exact h
  | refresh now a =>
    simp only [step] at hs
    split_ifs at hs
    cases hs
    unfold refresh
    rw [find_nil h]
    split_ifs
    · exact h
    · exact h
  | reset now a ms fromNow =>
    simp only [step] at hs
    split_ifs at hs
    cases hs
    unfold reset
    rw [find_nil h]
    split_ifs <;> exact h
  | listExpiredCb now tmp =>
    simp only [step] at hs
    split_ifs at hs
    cases hs
    unfold listExpiredCb
    rw [h]
    exact h
  | getNextTimer now =>
    cases hs
    unfold getNextTimer
    rw [h]
  | release a =>
    simp only [step] at hs
    split_ifs at hs
    cases hs
    exact h

end TimerManager

end CoroutineScheduler

import CoroutineScheduler.Timer.Results

/-!
# The first timer

When the first timer of the set can become an earlier one: `front_step` says that after an operation
it is no earlier than before, or `m_tickled` is set.
-/

namespace CoroutineScheduler

namespace TimerManager

variable {s t : TimerManager} {a b : Addr} {now ms : UInt64} {o : TimerOp}

/-- A `refresh` puts the timer off, as it does with a clock that does not go back. -/
def PutsOff (s : TimerManager) : TimerOp → Prop
  | .refresh now a => (s.obj a).next ≤ now + (s.obj a).ms
  | _ => True

instance (s : TimerManager) (o : TimerOp) : Decidable (s.PutsOff o) :=
  match o with
  | .refresh _ _ => UInt64.decLe _ _
  | .addTimer .. | .cancel .. | .reset .. | .getNextTimer _ | .listExpiredCb .. | .release _ =>
    isTrue trivial

/-- The first timer of `t` is no earlier than that of `s`. -/
def NoEarlier (s t : TimerManager) : Prop :=
  ∀ b, t.timers.head? = some b → ∃ c, s.timers.head? = some c ∧ (s.obj c).next ≤ (t.obj b).next

theorem NoEarlier.refl (s : TimerManager) : NoEarlier s s := fun b hb => ⟨b, hb, UInt64.le_refl _⟩

/-- The first timer is the earliest. -/
theorem Filed.head_le (h : Filed s) (ha : a ∈ s.timers) :
    ∃ c, s.timers.head? = some c ∧ (s.obj c).next ≤ (s.obj a).next := by
  have hs := h.sorted
  cases hl : s.timers with
  | nil =>
    rw [hl] at ha
    cases ha
  | cons c l =>
    rw [hl] at ha hs
    refine ⟨c, rfl, ?_⟩
    rcases List.mem_cons.1 ha with rfl | ha
    · exact UInt64.le_refl _
    · exact next_le_of_lt ((List.pairwise_cons.1 hs).1 a ha)

/-- So the first timer is no earlier when every timer that is in the set afterwards was in it. -/
theorem Filed.noEarlier (h : Filed s)
    (hmem : ∀ b ∈ t.timers, b ∈ s.timers ∧ (s.obj b).next ≤ (t.obj b).next) : NoEarlier s t := by
  intro b hb
  obtain ⟨hbs, hle⟩ := hmem b (List.mem_of_mem_head? hb)
  obtain ⟨c, hc, hcb⟩ := h.head_le hbs
  exact ⟨c, hc, UInt64.le_trans hcb hle⟩

/-- A timer that comes to the front with `addTimer(val, lock)` leaves `m_tickled` set. -/
theorem addTimerLocked_tickled (s : TimerManager) (a : Addr)
    (ha : (s.addTimerLocked a).1.timers.head? = some a) :
    (s.addTimerLocked a).1.tickled = true := by
  have hhead : (s.insert a).timers.head? = some a := ha
  show ((s.insert a).tickled || ((s.insert a).timers.head? == some a && !(s.insert a).tickled)) = true
  rw [hhead]
  cases (s.insert a).tickled <;> simp

theorem addTimerLocked_of_tickled (s : TimerManager) (a : Addr) (h : s.tickled = true) :
    (s.addTimerLocked a).1.tickled = true := by
  show ((s.insert a).tickled || _) = true
  rw [show (s.insert a).tickled = true from h]
  rfl

/-- `m_tickled` is set when `onTimerInsertedAtFront` is called, and only then. -/
theorem addTimer_tickled (s : TimerManager) (now : UInt64) (a : Addr) (ms : UInt64)
    (cb : Option Callback) (recurring : Bool) : (s.addTimer now a ms cb recurring).2 =
      ((s.addTimer now a ms cb recurring).1.tickled && !s.tickled) := by
  unfold addTimer addTimerLocked insert
  dsimp only [set]
  cases s.tickled <;> simp

/-- `reset` changes nothing, or ends with `addTimer(val, lock)`. -/
theorem reset_locked (s : TimerManager) (now : UInt64) (a : Addr) (ms : UInt64) (fromNow : Bool) :
    (s.reset now a ms fromNow).1 = s ∨
      ∃ r : TimerManager, r.tickled = s.tickled ∧
        (s.reset now a ms fromNow).1 = (r.addTimerLocked a).1 := by
  unfold reset
  by_cases hs : ms = (s.obj a).ms ∧ fromNow = false
  · rw [if_pos hs]
    exact .inl rfl
  rw [if_neg hs]
  by_cases hc : (s.obj a).cb.isSome = true
  · rw [if_pos hc]
    cases s.find a with
    | none => exact .inl rfl
    | some i => exact .inr ⟨((s.erase i).setMs a ms).setNext a _, rfl, rfl⟩
  · rw [if_neg hc]
    exact .inl rfl

/-- No operation clears `m_tickled` but `getNextTimer`. -/
theorem Filed.tickled_step (h : Filed s) (ho : ∀ now, o ≠ .getNextTimer now ∧
    ∀ tmp, o ≠ .listExpiredCb now tmp) (hs : s.step o = some t) (ht : s.tickled = true) :
    t.tickled = true := by
  cases o with
  | addTimer now a ms cb recurring =>
    simp only [TimerManager.step] at hs
    split_ifs at hs
    cases hs
    apply addTimerLocked_of_tickled
    exact ht
  | cancel a =>
    simp only [TimerManager.step] at hs
    split_ifs at hs with ha
    cases hs
    by_cases hc : (s.obj a).cb = none
    · rw [cancel_none hc]
      exact ht
    · rw [h.cancel_eq ha hc]
      exact ht
  | refresh now a =>
    simp only [TimerManager.step] at hs
    split_ifs at hs with ha
    cases hs
    by_cases hc : (s.obj a).cb = none
    · rw [refresh_none hc]
      exact ht
    · rw [h.refresh_eq ha hc]
      exact ht
  | reset now a ms fromNow =>
    simp only [TimerManager.step] at hs
    split_ifs at hs
    cases hs
    obtain he | ⟨r, hr, he⟩ := s.reset_locked now a ms fromNow <;> rw [he]
    · exact ht
    · apply addTimerLocked_of_tickled
      rw [hr]
      exact ht
  | listExpiredCb now tmp => exact absurd rfl ((ho now).2 tmp)
  | getNextTimer now => exact absurd rfl (ho now).1
  | release a =>
    simp only [TimerManager.step] at hs
    split_ifs at hs
    cases hs
    exact ht

/-- When `a` is the only timer that has moved, the first one is `a` or no earlier than before. -/
theorem Filed.front (h : Filed s)
    (hmem : ∀ b ∈ t.timers, b ≠ a → b ∈ s.timers ∧ (s.obj b).next ≤ (t.obj b).next) :
    t.timers.head? = some a ∨ NoEarlier s t := by
  by_cases ha : t.timers.head? = some a
  · exact .inl ha
  · right
    intro b hb
    have hba : b ≠ a := fun he => ha (he ▸ hb)
    obtain ⟨hbs, hle⟩ := hmem b (List.mem_of_mem_head? hb) hba
    obtain ⟨c, hc, hcb⟩ := h.head_le hbs
    exact ⟨c, hc, UInt64.le_trans hcb hle⟩

/-- After an operation `m_tickled` is set, or the first timer is no earlier than before. -/
theorem Filed.front_step (h : Filed s) (ho : ∀ now, o ≠ .getNextTimer now ∧
    ∀ tmp, o ≠ .listExpiredCb now tmp) (hoff : s.PutsOff o) (hs : s.step o = some t) :
    t.tickled = true ∨ NoEarlier s t := by
  cases o with
  | addTimer now a ms cb recurring =>
    simp only [TimerManager.step] at hs
    split_ifs at hs with ha
    cases hs
    have hn : a ∉ s.timers := fun hm => ha (h.alive a hm)
    obtain ⟨-, hmem⟩ := sorted_insert_update h.sorted hn (.new now ms cb recurring)
    refine (h.front (a := a) fun b hb hba => ⟨((hmem b).1 hb).resolve_left hba, ?_⟩).imp_left ?_
    · rw [addTimer_obj, Function.update_of_ne hba]
      exact UInt64.le_refl _
    · exact addTimerLocked_tickled _ a
  | cancel a =>
    simp only [TimerManager.step] at hs
    split_ifs at hs with ha
    cases hs
    right
    by_cases hc : (s.obj a).cb = none
    · rw [cancel_none hc]
      exact NoEarlier.refl s
    · rw [h.cancel_eq ha hc]
      refine h.noEarlier fun b hb => ⟨(h.mem_erase.1 hb).2, ?_⟩
      rw [show (s.setCb a none).obj b = s.obj b from set_obj_of_ne s (h.mem_erase.1 hb).1 _]
      exact UInt64.le_refl _
  | refresh now a =>
    simp only [TimerManager.step] at hs
    split_ifs at hs with ha
    cases hs
    right
    by_cases hc : (s.obj a).cb = none
    · rw [refresh_none hc]
      exact NoEarlier.refl s
    · rw [h.refresh_eq ha hc]
      refine h.noEarlier fun b hb => ⟨(h.mem_put (h.armed a ha hc) _).1 hb, ?_⟩
      by_cases hba : b = a
      · subst hba
        rw [put_obj_self]
        exact hoff
      · rw [put_obj_of_ne s hba]
        exact UInt64.le_refl _
  | reset now a ms fromNow =>
    simp only [TimerManager.step] at hs
    split_ifs at hs with ha
    cases hs
    have hback : ∀ b ∈ (s.reset now a ms fromNow).1.timers, b ≠ a →
        b ∈ s.timers ∧ (s.obj b).next ≤ ((s.reset now a ms fromNow).1.obj b).next := by
      intro b hb hba
      obtain he | ⟨hmem, tickled, he⟩ := h.reset_cases ha now ms fromNow <;> rw [he] at hb ⊢
      · exact ⟨hb, UInt64.le_refl _⟩
      · refine ⟨(h.mem_put hmem _).1 hb, ?_⟩
        show (s.obj b).next ≤ ((s.put a _).obj b).next
        rw [put_obj_of_ne s hba]
        exact UInt64.le_refl _
    obtain he | ⟨r, -, he⟩ := s.reset_locked now a ms fromNow
    · rw [he]
      exact .inr (NoEarlier.refl s)
    · refine (h.front hback).imp_left fun hhead => ?_
      rw [he] at hhead ⊢
      exact addTimerLocked_tickled r a hhead
  | listExpiredCb now tmp => exact absurd rfl ((ho now).2 tmp)
  | getNextTimer now => exact absurd rfl (ho now).1
  | release a =>
    simp only [TimerManager.step] at hs
    split_ifs at hs
    cases hs
    exact .inr (NoEarlier.refl s)

theorem getNextTimer_fst (s : TimerManager) (now : UInt64) :
    (s.getNextTimer now).1 = { s with tickled := false } := by
  unfold getNextTimer
  split <;> rfl

end TimerManager

end CoroutineScheduler

import CoroutineScheduler.Lib.Trans
import CoroutineScheduler.Timer.Manager

/-!
# The timer set stays in order

Every operation takes timers out of the set before it stores a new deadline in them and puts them
back afterwards. `Holding s hand` is the invariant in between: the armed timers are those in the set
and those in hand, and the set is in order. Erasing moves a timer into the hand; storing a deadline
changes only timers in hand; inserting and disarming take one out of it.

`timers_wellOrdered`: after any sequence of operations, with any clock readings, `WellOrdered` holds.
-/

namespace CoroutineScheduler

open Trans

/-! ## The machine -/

/-- The operations, with the clock readings and addresses they get. `release` is the end of a timer
object that no pointer refers to any more. -/
inductive TimerOp
  | addTimer (now : UInt64) (a : Addr) (ms : UInt64) (cb : Option Callback) (recurring : Bool)
  | cancel (a : Addr)
  | refresh (now : UInt64) (a : Addr)
  | reset (now : UInt64) (a : Addr) (ms : UInt64) (fromNow : Bool)
  | listExpiredCb (now : UInt64) (tmp : Addr)
  | getNextTimer (now : UInt64)
  | release (a : Addr)
  deriving DecidableEq, Repr

namespace TimerManager

/-- An operation on a timer needs the timer to exist, a new object needs a free address. -/
def step (s : TimerManager) : TimerOp → Option TimerManager
  | .addTimer now a ms cb recurring =>
    if s.live a then none else some (s.addTimer now a ms cb recurring).1
  | .cancel a => if s.live a then some (s.cancel a).1 else none
  | .refresh now a => if s.live a then some (s.refresh now a).1 else none
  | .reset now a ms fromNow => if s.live a then some (s.reset now a ms fromNow).1 else none
  | .listExpiredCb now tmp => if s.live tmp then none else some (s.listExpiredCb now tmp).1
  | .getNextTimer now => some (s.getNextTimer now).1
  | .release a =>
    if s.live a ∧ a ∉ s.timers then some { s with live := Function.update s.live a false } else none

/-- `addTimer` gets a callback that is not empty. -/
def NonEmptyCb (_ : TimerManager) : TimerOp → Prop
  | .addTimer _ _ _ cb _ => cb ≠ none
  | _ => True

instance (s : TimerManager) (o : TimerOp) : Decidable (s.NonEmptyCb o) := by
  cases o <;> unfold NonEmptyCb <;> infer_instance

/-- The set is strictly ordered by deadline and address, its keys do not change, it holds the armed
timers and no others; so a timer is found whenever it is looked for. -/
structure WellOrdered (s : TimerManager) : Prop where
  ordered : s.timers.Pairwise fun a b =>
    (s.obj a).next < (s.obj b).next ∨ ((s.obj a).next = (s.obj b).next ∧ a < b)
  nodup : s.timers.Nodup
  inPlace : s.inPlace = false
  live : ∀ a ∈ s.timers, s.live a = true
  armed : ∀ a, s.live a = true → (a ∈ s.timers ↔ (s.obj a).cb ≠ none)
  cancel : ∀ a, s.live a = true → (s.cancel a).2 ≠ .eraseEnd
  refresh : ∀ now a, s.live a = true → (s.refresh now a).2 ≠ .notFound
  reset : ∀ now a ms fromNow, s.live a = true → (s.reset now a ms fromNow).2 ≠ .notFound

theorem set_obj_self (s : TimerManager) (a : Addr) (t : Timer) : (s.set a t).obj a = t :=
  Function.update_self ..

theorem set_obj_of_ne (s : TimerManager) {a b : Addr} (h : b ≠ a) (t : Timer) :
    (s.set a t).obj b = s.obj b :=
  Function.update_of_ne h _ _

/-! ## The comparator -/

theorem lt_iff (obj : Addr → Timer) (a b : Addr) :
    lt obj a b = true ↔ (obj a).next < (obj b).next ∨ ((obj a).next = (obj b).next ∧ a < b) := by
  unfold lt Timer.comparator
  by_cases h : (obj a).next = (obj b).next
  · simp [h, UInt64.lt_irrefl]
  · simp [h]

theorem strict_lt (obj : Addr → Timer) : OrderedSet.Strict (lt obj) where
  irrefl a := by
    rw [← Bool.not_eq_true, lt_iff]
    rintro (h | h)
    · exact UInt64.lt_irrefl _ h
    · exact Nat.lt_irrefl _ h.2
  trans a b c hab hbc := by
    rw [lt_iff] at hab hbc ⊢
    rcases hab with hab | ⟨hab, hab'⟩ <;> rcases hbc with hbc | ⟨hbc, hbc'⟩
    · exact Or.inl (UInt64.lt_trans hab hbc)
    · exact Or.inl (hbc ▸ hab)
    · exact Or.inl (hab ▸ hbc)
    · exact Or.inr ⟨hab.trans hbc, Nat.lt_trans hab' hbc'⟩
  total a b hab := by
    rw [lt_iff, lt_iff]
    by_cases h : (obj a).next = (obj b).next
    · rcases Nat.lt_or_gt_of_ne hab with hl | hl
      · exact Or.inl (Or.inr ⟨h, hl⟩)
      · exact Or.inr (Or.inr ⟨h.symm, hl⟩)
    · rcases UInt64.lt_or_lt_of_ne h with hl | hl
      · exact Or.inl (Or.inl hl)
      · exact Or.inr (Or.inl hl)

/-- The comparator reads `m_next` only. -/
theorem lt_congr {obj obj' : Addr → Timer} {a b : Addr} (ha : (obj' a).next = (obj a).next)
    (hb : (obj' b).next = (obj b).next) : lt obj' a b = lt obj a b := by
  simp only [lt, Timer.comparator, ha, hb]

/-! ## The invariant between the statements -/

/-- The armed timers are those in the set, which is in order, and those in `hand`. -/
structure Holding (s : TimerManager) (hand : List Addr) : Prop where
  sorted : OrderedSet.Sorted (lt s.obj) s.timers
  apart : ∀ a ∈ hand, a ∉ s.timers
  nodup : hand.Nodup
  armed : ∀ a, s.live a = true → ((s.obj a).cb ≠ none ↔ a ∈ s.timers ∨ a ∈ hand)
  alive : ∀ a, a ∈ s.timers ∨ a ∈ hand → s.live a = true
  inPlace : s.inPlace = false

namespace Holding

variable {s : TimerManager} {hand : List Addr} {a : Addr} {now : UInt64}

/-- A store to a timer in hand that leaves its callback there. -/
theorem set (h : Holding s hand) (ha : a ∈ hand) {t : Timer} (ht : t.cb ≠ none) :
    Holding (s.set a t) hand := by
  have hobj : ∀ b, b ≠ a → (s.set a t).obj b = s.obj b := fun b hb => set_obj_of_ne s hb t
  refine ⟨h.sorted.congr ?_, h.apart, h.nodup, ?_, h.alive, h.inPlace⟩
  · intro x hx y hy
    have hxa : x ≠ a := fun he => h.apart a ha (he ▸ hx)
    have hya : y ≠ a := fun he => h.apart a ha (he ▸ hy)
    exact lt_congr (by rw [hobj x hxa]) (by rw [hobj y hya])
  · intro b hb
    by_cases hba : b = a
    · subst hba
      rw [set_obj_self]
      exact ⟨fun _ => Or.inr ha, fun _ => ht⟩
    · rw [hobj b hba]
      exact h.armed b hb

theorem cb_ne_none (h : Holding s hand) (ha : a ∈ hand) : (s.obj a).cb ≠ none :=
  (h.armed a (h.alive a (Or.inr ha))).2 (Or.inr ha)

theorem setMs (h : Holding s hand) (ha : a ∈ hand) (ms : UInt64) : Holding (s.setMs a ms) hand :=
  h.set ha (h.cb_ne_none ha)

theorem setNext (h : Holding s hand) (ha : a ∈ hand) (next : UInt64) :
    Holding (s.setNext a next) hand := by
  have hset := h.set ha (t := { s.obj a with next := next }) (h.cb_ne_none ha)
  refine ⟨hset.sorted, hset.apart, hset.nodup, hset.armed, hset.alive, ?_⟩
  simp [TimerManager.setNext, h.inPlace, h.apart a ha]

theorem insert (h : Holding s (a :: hand)) : Holding (s.insert a) hand := by
  have hn : a ∉ s.timers := h.apart a (List.mem_cons_self ..)
  have hmem : ∀ b, b ∈ (s.insert a).timers ↔ b = a ∨ b ∈ s.timers := fun b =>
    OrderedSet.mem_insert_of_not_mem (strict_lt s.obj) hn
  obtain ⟨hah, hnd⟩ := List.nodup_cons.1 h.nodup
  refine ⟨OrderedSet.sorted_insert (strict_lt s.obj) h.sorted hn, ?_, hnd, ?_, ?_, h.inPlace⟩
  · intro b hb hm
    rcases (hmem b).1 hm with rfl | hm
    · exact hah hb
    · exact h.apart b (List.mem_cons_of_mem _ hb) hm
  · intro b hb
    refine (h.armed b hb).trans ?_
    rw [hmem, List.mem_cons]
    tauto
  · intro b hb
    refine h.alive b ?_
    rw [hmem] at hb
    rw [List.mem_cons]
    tauto

theorem disarm (h : Holding s (a :: hand)) : Holding (s.setCb a none) hand := by
  obtain ⟨hah, hnd⟩ := List.nodup_cons.1 h.nodup
  have hn : a ∉ s.timers := h.apart a (List.mem_cons_self ..)
  refine ⟨h.sorted.congr ?_, ?_, hnd, ?_, ?_, h.inPlace⟩
  · intro x hx y hy
    have hne : ∀ z ∈ s.timers, (s.setCb a none).obj z = s.obj z := fun z hz =>
      set_obj_of_ne s (fun he : z = a => hn (he ▸ hz)) _
    exact lt_congr (by rw [hne x hx]) (by rw [hne y hy])
  · exact fun b hb => h.apart b (List.mem_cons_of_mem _ hb)
  · intro b hb
    by_cases hba : b = a
    · subst hba
      have : ((s.setCb b none).obj b).cb = none := by
        rw [TimerManager.setCb, set_obj_self]
      rw [this]
      exact ⟨fun hc => absurd rfl hc, fun hc => absurd hc (not_or.2 ⟨hn, hah⟩)⟩
    · have : (s.setCb a none).obj b = s.obj b := set_obj_of_ne s hba _
      rw [this]
      refine (h.armed b hb).trans ?_
      rw [List.mem_cons]
      exact or_congr_right (or_iff_right hba)
  · exact fun b hb => h.alive b (hb.imp_right (List.mem_cons_of_mem _))

/-- A timer in the set is found, and erasing it there takes it into the hand. -/
theorem erase (h : Holding s []) (ha : a ∈ s.timers) :
    ∃ i, s.find a = some i ∧ Holding (s.erase i) [a] := by
  obtain ⟨pre, post, hsplit, hfind⟩ := OrderedSet.find_of_mem (strict_lt s.obj) h.sorted ha
  have herase : (s.erase pre.length).timers = pre ++ post := by
    show s.timers.eraseIdx pre.length = pre ++ post
    rw [hsplit, List.eraseIdx_append_of_length_le le_rfl, Nat.sub_self]
    rfl
  have hnd := h.sorted.nodup (strict_lt s.obj)
  have hmem : ∀ b, b ∈ s.timers ↔ b ∈ pre ++ post ∨ b = a := by
    intro b
    rw [hsplit, List.mem_append, List.mem_cons, List.mem_append]
    tauto
  refine ⟨pre.length, hfind, ?_, ?_, List.nodup_singleton a, ?_, ?_, h.inPlace⟩
  · show OrderedSet.Sorted (lt s.obj) (s.erase pre.length).timers
    rw [herase]
    refine List.Pairwise.sublist ?_ h.sorted
    rw [hsplit]
    exact (List.Sublist.refl pre).append (List.sublist_cons_self a post)
  · intro b hb
    rw [List.mem_singleton.1 hb, herase]
    rw [hsplit] at hnd
    exact fun hm => (List.nodup_cons.1 ((List.perm_middle).nodup_iff.1 hnd)).1 hm
  · intro b hb
    refine (h.armed b hb).trans ?_
    rw [herase, List.mem_singleton, hmem]
    simp
  · intro b hb
    refine h.alive b (Or.inl ((hmem b).2 ?_))
    rwa [herase, List.mem_singleton] at hb

theorem fire (h : Holding s (a :: hand)) : Holding (TimerManager.fire now s a) hand := by
  unfold TimerManager.fire
  split_ifs
  · exact (h.setNext (List.mem_cons_self ..) _).insert
  · exact h.disarm

/-- The loop over the expired timers puts every one of them back or disarms it. -/
theorem fireAll (h : Holding s hand) : Holding (TimerManager.fireAll now s hand).1 [] := by
  induction hand generalizing s with
  | nil => exact h
  | cons a as ih => exact ih h.fire

/-- The first timers of the set are taken into the hand. -/
theorem splitAt (h : Holding s []) (i : ℕ) (t : UInt64) :
    Holding { s with previousTime := t, timers := s.timers.drop i } (s.timers.take i) := by
  have hnd := h.sorted.nodup (strict_lt s.obj)
  have hmem : ∀ b, b ∈ s.timers ↔ b ∈ s.timers.drop i ∨ b ∈ s.timers.take i := by
    intro b
    conv_lhs => rw [← List.take_append_drop i s.timers]
    rw [List.mem_append, or_comm]
  refine ⟨h.sorted.sublist (List.drop_sublist ..), ?_, hnd.sublist (List.take_sublist ..), ?_, ?_,
    h.inPlace⟩
  · intro b hb hd
    rw [← List.take_append_drop i s.timers] at hnd
    exact (List.nodup_append.1 hnd).2.2 b hb b hd rfl
  · intro b hb
    refine (h.armed b hb).trans ?_
    rw [← hmem]
    simp
  · exact fun b hb => h.alive b (Or.inl ((hmem b).2 hb))

theorem listExpiredCb (h : Holding s []) (tmp : Addr) :
    Holding (s.listExpiredCb now tmp).1 [] := by
  unfold TimerManager.listExpiredCb
  split
  · exact h
  · dsimp only
    split_ifs
    · exact ⟨h.sorted, h.apart, h.nodup, h.armed, h.alive, h.inPlace⟩
    · exact (h.splitAt _ now).fireAll
    · exact (h.splitAt _ now).fireAll

theorem addTimerLocked (h : Holding s (a :: hand)) : Holding (s.addTimerLocked a).1 hand := by
  have hi := h.insert
  exact ⟨hi.sorted, hi.apart, hi.nodup, hi.armed, hi.alive, hi.inPlace⟩

/-- A new timer is in the hand of `addTimer`. -/
theorem new (h : Holding s []) (ha : s.live a = false) {t : Timer} (ht : t.cb ≠ none) :
    Holding { s.set a t with live := Function.update s.live a true } [a] := by
  have hn : a ∉ s.timers := fun hm => by
    rw [h.alive a (Or.inl hm)] at ha
    cases ha
  refine ⟨h.sorted.congr ?_, ?_, List.nodup_singleton a, ?_, ?_, h.inPlace⟩
  · intro x hx y hy
    have hne : ∀ z ∈ s.timers, (s.set a t).obj z = s.obj z := fun z hz =>
      set_obj_of_ne s (fun he : z = a => hn (he ▸ hz)) _
    exact lt_congr (by rw [hne x hx]) (by rw [hne y hy])
  · intro b hb
    rw [List.mem_singleton.1 hb]
    exact hn
  · intro b hb
    by_cases hba : b = a
    · subst hba
      rw [show ((s.set b t).obj b) = t from set_obj_self ..]
      exact ⟨fun _ => Or.inr (List.mem_singleton_self b), fun _ => ht⟩
    · have hl : Function.update s.live a true b = true := hb
      rw [Function.update_of_ne hba] at hl
      rw [show ((s.set a t).obj b) = s.obj b from set_obj_of_ne s hba t, List.mem_singleton]
      exact (h.armed b hl).trans (or_congr_right (by simp [hba]))
  · intro b hb
    show Function.update s.live a true b = true
    by_cases hba : b = a
    · rw [hba, Function.update_self]
    · rw [Function.update_of_ne hba]
      exact h.alive b (Or.inl (hb.resolve_right fun hm => hba (List.mem_singleton.1 hm)))

/-- An armed timer is in the set. -/
theorem mem_of_isSome (h : Holding s []) (ha : s.live a = true) (hc : (s.obj a).cb.isSome = true) :
    a ∈ s.timers :=
  ((h.armed a ha).1 (Option.isSome_iff_ne_none.1 hc)).resolve_right (List.not_mem_nil)

theorem find_setCb (s : TimerManager) (a b : Addr) : (s.setCb a none).find b = s.find b := by
  have : lt (s.setCb a none).obj = lt s.obj := by
    funext x y
    have hnext : ∀ z, ((s.setCb a none).obj z).next = (s.obj z).next := by
      intro z
      by_cases hz : z = a
      · subst hz
        rw [TimerManager.setCb, set_obj_self]
      · rw [TimerManager.setCb, set_obj_of_ne s hz]
    exact lt_congr (hnext x) (hnext y)
  unfold TimerManager.find
  rw [this]
  rfl

theorem cancel (h : Holding s []) (ha : s.live a = true) :
    Holding (s.cancel a).1 [] ∧ (s.cancel a).2 ≠ .eraseEnd := by
  unfold TimerManager.cancel
  split_ifs with hc
  · obtain ⟨i, hi, he⟩ := h.erase (h.mem_of_isSome ha hc)
    dsimp only
    rw [find_setCb, hi]
    -- `m_cb = nullptr` before the erasure does the same as after it
    exact ⟨he.disarm, Outcome.noConfusion⟩
  · exact ⟨h, Outcome.noConfusion⟩

theorem refresh (h : Holding s []) (ha : s.live a = true) :
    Holding (s.refresh now a).1 [] ∧ (s.refresh now a).2 ≠ .notFound := by
  unfold TimerManager.refresh
  split_ifs with hc
  · obtain ⟨i, hi, he⟩ := h.erase (h.mem_of_isSome ha hc)
    rw [hi]
    exact ⟨(he.setNext (List.mem_singleton_self a) _).insert, Outcome.noConfusion⟩
  · exact ⟨h, Outcome.noConfusion⟩

theorem reset (h : Holding s []) (ha : s.live a = true) (ms : UInt64) (fromNow : Bool) :
    Holding (s.reset now a ms fromNow).1 [] ∧ (s.reset now a ms fromNow).2 ≠ .notFound := by
  unfold TimerManager.reset
  by_cases hs : ms = (s.obj a).ms ∧ fromNow = false
  · rw [if_pos hs]
    exact ⟨h, Outcome.noConfusion⟩
  · rw [if_neg hs]
    by_cases hc : (s.obj a).cb.isSome = true
    · obtain ⟨i, hi, he⟩ := h.erase (h.mem_of_isSome ha hc)
      rw [if_pos hc, hi]
      have hm := List.mem_singleton_self a
      exact ⟨((he.setMs hm ms).setNext hm _).addTimerLocked, Outcome.noConfusion⟩
    · rw [if_neg hc]
      exact ⟨h, Outcome.noConfusion⟩

theorem start : Holding (TimerManager.start now) [] where
  sorted := List.Pairwise.nil
  apart := fun _ h => absurd h List.not_mem_nil
  nodup := List.nodup_nil
  armed := fun _ h => by cases h
  alive := fun _ h => by rcases h with h | h <;> cases h
  inPlace := rfl

theorem step (h : Holding s []) {o : TimerOp} (hok : s.NonEmptyCb o) {t : TimerManager}
    (hs : s.step o = some t) : Holding t [] := by
  cases o with
  | addTimer now a ms cb recurring =>
    simp only [TimerManager.step] at hs
    split_ifs at hs with ha
    cases hs
    have hcb : (Timer.new now ms cb recurring).cb ≠ none := hok
    exact (h.new (by simpa using ha) hcb).addTimerLocked
  | cancel a =>
    simp only [TimerManager.step] at hs
    split_ifs at hs with ha
    cases hs
    exact (h.cancel ha).1
  | refresh now a =>
    simp only [TimerManager.step] at hs
    split_ifs at hs with ha
    cases hs
    exact (h.refresh ha).1
  | reset now a ms fromNow =>
    simp only [TimerManager.step] at hs
    split_ifs at hs with ha
    cases hs
    exact (h.reset ha ms fromNow).1
  | listExpiredCb now tmp =>
    simp only [TimerManager.step] at hs
    split_ifs at hs
    cases hs
    exact h.listExpiredCb tmp
  | getNextTimer now =>
    cases hs
    unfold TimerManager.getNextTimer
    split <;> exact ⟨h.sorted, h.apart, h.nodup, h.armed, h.alive, h.inPlace⟩
  | release a =>
    simp only [TimerManager.step] at hs
    split_ifs at hs with ha
    cases hs
    have hlive : ∀ b, Function.update s.live a false b = true → s.live b = true := by
      intro b hb
      by_cases hba : b = a
      · rw [hba, Function.update_self] at hb
        cases hb
      · rwa [Function.update_of_ne hba] at hb
    refine ⟨h.sorted, h.apart, h.nodup, fun b hb => h.armed b (hlive b hb), fun b hb => ?_, h.inPlace⟩
    have hba : b ≠ a := fun he => ha.2 (he ▸ hb.resolve_right List.not_mem_nil)
    show Function.update s.live a false b = true
    rw [Function.update_of_ne hba]
    exact h.alive b hb

/-- The invariant says that the set is well ordered. -/
theorem wellOrdered (h : Holding s []) : s.WellOrdered where
  ordered := h.sorted.imp fun hab => (lt_iff ..).1 hab
  nodup := h.sorted.nodup (strict_lt s.obj)
  inPlace := h.inPlace
  live := fun a ha => h.alive a (Or.inl ha)
  armed := fun a ha => by
    rw [h.armed a ha]
    simp
  cancel := fun _ ha => (h.cancel ha).2
  refresh := fun _ _ ha => (h.refresh ha).2
  reset := fun _ _ ms fromNow ha => (h.reset ha ms fromNow).2

end Holding

end TimerManager

/-- **The timer set stays in order**, in every state that any sequence of operations reaches, with any
clock readings. -/
theorem timers_wellOrdered {now : UInt64} {s : TimerManager}
    (hr : Reach TimerManager.step TimerManager.NonEmptyCb (.start now) s) : s.WellOrdered :=
  (hr.invariant (I := fun s => TimerManager.Holding s []) .start
    fun _ _ _ hi hok hs => hi.step hok hs).wellOrdered

/-- Deadlines that wrap around, a clock that goes back and a flush of the whole set. -/
theorem timers_wellOrdered_wrap : ∃ s : TimerManager, s.timers = [5, 3] ∧ (s.obj 5).next = 46 ∧
    (s.obj 3).next = 0 - 9984 ∧ (s.obj 4).cb = none ∧ s.WellOrdered := by
  have hr := reach_exec TimerManager.step TimerManager.NonEmptyCb (.start 20000)
    [.addTimer 20000 3 (0 - 19984) (some 1) true, .addTimer 10000 5 30 (some 2) true,
      .addTimer 10000 4 50 (some 3) false, .listExpiredCb 10000 9, .refresh 16 5, .cancel 4] (by decide)
  refine ⟨_, ?_, ?_, ?_, ?_, timers_wellOrdered hr⟩ <;> decide

end CoroutineScheduler

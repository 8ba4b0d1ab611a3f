import CoroutineScheduler.Timer.Effects

/-!
# The timers that `listExpiredCb` takes

The set is ordered by deadline and address, so the timers that are due are in front
(`take_expiredEnd`), whatever the address of the temporary timer is. Without a rollover
`listExpiredCb` takes these (`listExpiredCb_due`); with one it takes all timers
(`expired_of_rollover`).
-/

namespace CoroutineScheduler

open Trans

namespace TimerManager

variable {s t : TimerManager} {now : UInt64} {a tmp : Addr}

/-- The timers that are due, in the order of the set. -/
def due (s : TimerManager) (now : UInt64) : List Addr :=
  s.timers.filter fun a => decide ((s.obj a).next ≤ now)

/-- The timers that are not due. -/
def later (s : TimerManager) (now : UInt64) : List Addr :=
  s.timers.filter fun a => decide (now < (s.obj a).next)

theorem mem_due : a ∈ s.due now ↔ a ∈ s.timers ∧ (s.obj a).next ≤ now := by
  simp [due]

/-! ## The front of the set -/

theorem next_le_of_lt {b : Addr} (h : lt s.obj a b = true) : (s.obj a).next ≤ (s.obj b).next := by
  obtain h | ⟨h, -⟩ := (lt_iff s.obj a b).1 h
  · exact UInt64.le_of_lt h
  · exact h ▸ UInt64.le_refl _

/-- Behind a timer that is not due no timer is. -/
theorem later_of_sorted {bs : List Addr} (hs : OrderedSet.Sorted (lt s.obj) (a :: bs))
    (ha : now < (s.obj a).next) : ∀ b ∈ a :: bs, now < (s.obj b).next := by
  intro b hb
  obtain rfl | hb := List.mem_cons.1 hb
  · exact ha
  · exact UInt64.lt_of_lt_of_le ha (next_le_of_lt ((List.pairwise_cons.1 hs).1 b hb))

/-- Where a `takeWhile` stops, its condition fails. -/
theorem not_of_drop_takeWhile {p : Addr → Bool} {as bs : List Addr}
    (h : as.drop (as.takeWhile p).length = a :: bs) : p a = false := by
  induction as with
  | nil => cases h
  | cons b as ih =>
    by_cases hb : p b = true
    · rw [List.takeWhile_cons_of_pos hb] at h
      exact ih h
    · rw [List.takeWhile_cons_of_neg hb] at h
      cases h
      simpa using hb

/-- The timers behind `expiredEnd` are not due. -/
theorem lt_next_of_mem_drop (hs : OrderedSet.Sorted (lt s.obj) s.timers) (htmp : tmp ∉ s.timers)
    (ha : a ∈ s.timers.drop (s.expiredEnd now tmp)) : now < (s.obj a).next := by
  unfold expiredEnd at ha
  dsimp only at ha
  set lt' := lt (Function.update s.obj tmp (.ofNext now)) with hlt'
  set i := OrderedSet.lowerBound lt' tmp s.timers with hi
  have hsub : ∀ {j : ℕ} {b : Addr}, b ∈ s.timers.drop j → b ∈ s.timers := List.mem_of_mem_drop
  have hsort : ∀ j, OrderedSet.Sorted (lt s.obj) (s.timers.drop j) := fun j =>
    List.Pairwise.sublist (List.drop_sublist ..) hs
  -- the first timer that is not in front of the temporary one is not earlier than `now`
  have hfront : ∀ b bs, s.timers.drop i = b :: bs → now ≤ (s.obj b).next := by
    intro b bs hb
    have hmem : b ∈ s.timers := hsub (j := i) (by rw [hb]; exact List.mem_cons_self ..)
    have hne : b ≠ tmp := fun he => htmp (he ▸ hmem)
    have hnot : lt' b tmp = false := not_of_drop_takeWhile (p := (lt' · tmp)) hb
    by_contra hc
    have hlt : lt' b tmp = true := by
      rw [hlt', lt_iff, Function.update_self, Function.update_of_ne hne]
      exact .inl (UInt64.not_le.1 hc)
    rw [hnot] at hlt
    cases hlt
  rw [← List.drop_drop] at ha
  obtain hd | ⟨b, bs, hd⟩ : (s.timers.drop i).drop
      ((s.timers.drop i).takeWhile fun a => (s.obj a).next = now).length = [] ∨ ∃ b bs,
      (s.timers.drop i).drop
        ((s.timers.drop i).takeWhile fun a => (s.obj a).next = now).length = b :: bs := by
    cases (s.timers.drop i).drop _ with
    | nil => exact .inl rfl
    | cons b bs => exact .inr ⟨b, bs, rfl⟩
  · rw [hd] at ha
    exact absurd ha List.not_mem_nil
  have hne : (s.obj b).next ≠ now := by simpa using not_of_drop_takeWhile hd
  have hge : now ≤ (s.obj b).next := by
    have hmem : b ∈ s.timers.drop i :=
      List.mem_of_mem_drop (by rw [hd]; exact List.mem_cons_self ..)
    obtain ⟨c, cs, hc⟩ := List.exists_cons_of_ne_nil (List.ne_nil_of_mem hmem)
    rw [hc] at hmem
    obtain rfl | hmem := List.mem_cons.1 hmem
    · exact hfront b cs hc
    · have hcb := (List.pairwise_cons.1 (hc ▸ hsort i)).1 b hmem
      exact UInt64.le_trans (hfront c cs hc) (next_le_of_lt hcb)
  have hs' := hsort (i + ((s.timers.drop i).takeWhile fun a => (s.obj a).next = now).length)
  rw [← List.drop_drop, hd] at hs'
  rw [hd] at ha
  exact later_of_sorted hs' (UInt64.lt_of_le_of_ne hge (Ne.symm hne)) a ha

/-- A list that is split where a condition ends is split by it. -/
theorem filter_append_of_split {p q : Addr → Bool} (as bs : List Addr) (has : ∀ a ∈ as, p a = true)
    (hbs : ∀ b ∈ bs, p b = false) (hq : ∀ a, q a = !p a) :
    (as ++ bs).filter p = as ∧ (as ++ bs).filter q = bs := by
  rw [List.filter_append, List.filter_append, List.filter_eq_self.2 has,
    List.filter_eq_nil_iff.2 (fun b hb => by rw [hbs b hb]; exact Bool.false_ne_true),
    List.filter_eq_nil_iff.2 (fun a ha => by rw [hq, has a ha]; exact Bool.false_ne_true),
    List.filter_eq_self.2 (fun b hb => by rw [hq, hbs b hb]; rfl)]
  exact ⟨List.append_nil as, rfl⟩

/-- The due timers are in front of the set, and `expiredEnd` is behind them. -/
theorem take_expiredEnd (hs : OrderedSet.Sorted (lt s.obj) s.timers) (htmp : tmp ∉ s.timers) :
    s.timers.take (s.expiredEnd now tmp) = s.due now ∧
      s.timers.drop (s.expiredEnd now tmp) = s.later now := by
  set i := s.expiredEnd now tmp with hi
  have hsplit := filter_append_of_split (p := fun a => decide ((s.obj a).next ≤ now))
    (q := fun a => decide (now < (s.obj a).next)) (s.timers.take i) (s.timers.drop i)
    (fun a ha => by
      have hne : a ≠ tmp := fun he => htmp (he ▸ List.mem_of_mem_take ha)
      exact decide_eq_true (next_le_of_mem_take ha hne))
    (fun a ha => decide_eq_false (UInt64.not_le.2 (lt_next_of_mem_drop hs htmp ha)))
    (fun a => by
      rw [Bool.eq_iff_iff]
      simp [UInt64.not_le])
  rw [List.take_append_drop] at hsplit
  exact ⟨hsplit.1.symm, hsplit.2.symm⟩

/-! ## Firing -/

/-- A timer that has fired at `now`. -/
def Timer.fired (now : UInt64) (t : Timer) : Timer :=
  if t.recurring then { t with next := now + t.ms } else { t with cb := none }

/-- A timer outside the set gets new fields and is put into the set. -/
theorem sorted_insert_update (hs : OrderedSet.Sorted (lt s.obj) s.timers) (ha : a ∉ s.timers)
    (t : Timer) :
    OrderedSet.Sorted (lt (Function.update s.obj a t))
        (OrderedSet.insert (lt (Function.update s.obj a t)) a s.timers) ∧
      ∀ b, b ∈ OrderedSet.insert (lt (Function.update s.obj a t)) a s.timers ↔
        b = a ∨ b ∈ s.timers := by
  refine ⟨OrderedSet.sorted_insert (strict_lt _) (hs.congr ?_) ha, fun b =>
    OrderedSet.mem_insert_of_not_mem (strict_lt _) ha⟩
  intro x hx y hy
  have hne : ∀ z ∈ s.timers, Function.update s.obj a t z = s.obj z := fun z hz =>
    Function.update_of_ne (fun he : z = a => ha (he ▸ hz)) _ _
  exact lt_congr (by rw [hne x hx]) (by rw [hne y hy])

theorem sorted_setCb (hs : OrderedSet.Sorted (lt s.obj) s.timers) (cb : Option Callback) :
    OrderedSet.Sorted (lt (s.setCb a cb).obj) s.timers := by
  have hnext : ∀ z, ((s.setCb a cb).obj z).next = (s.obj z).next := by
    intro z
    by_cases hz : z = a
    · rw [hz, setCb, set_obj_self]
    · rw [setCb, set_obj_of_ne s hz]
  exact hs.congr fun x _ y _ => lt_congr (hnext x) (hnext y)

/-- What firing the timers `as`, which are out of the set, leaves: the callbacks in order, the fields
of every timer, and which timers are in the set. -/
structure Fired (s : TimerManager) (now : UInt64) (as : List Addr) (t : TimerManager)
    (cbs : List (Option Callback)) : Prop where
  cbs : cbs = as.map fun a => (s.obj a).cb
  self : ∀ a ∈ as, t.obj a = Timer.fired now (s.obj a)
  other : ∀ a, a ∉ as → t.obj a = s.obj a
  sorted : OrderedSet.Sorted (lt t.obj) t.timers
  mem : ∀ a, a ∈ t.timers ↔ a ∈ s.timers ∨ (a ∈ as ∧ (s.obj a).recurring = true)
  live : t.live = s.live

/-- One turn of the loop. -/
theorem fire_fired (hs : OrderedSet.Sorted (lt s.obj) s.timers) (ha : a ∉ s.timers) (now : UInt64) :
    Fired s now [a] (fire now s a) [(s.obj a).cb] := by
  have hself : (fire now s a).obj a = Timer.fired now (s.obj a) := by
    unfold fire Timer.fired
    split_ifs
    · exact Function.update_self ..
    · exact set_obj_self ..
  refine ⟨rfl, fun b hb => ?_, fun b hb => ?_, ?_, fun b => ?_, fire_live s now a⟩
  · rw [List.mem_singleton.1 hb]
    exact hself
  · exact fire_obj_of_ne s fun he => hb (List.mem_singleton.2 he)
  · unfold fire
    split_ifs
    · exact (sorted_insert_update hs ha _).1
    · exact sorted_setCb hs none
  · rw [List.mem_singleton]
    unfold fire
    split_ifs with hr
    · refine ((sorted_insert_update hs ha _).2 b).trans ⟨fun h => ?_, fun h => ?_⟩
      · obtain rfl | h := h
        · exact .inr ⟨rfl, hr⟩
        · exact .inl h
      · exact h.symm.imp_left And.left
    · refine ⟨.inl, fun h => ?_⟩
      obtain h | ⟨rfl, h⟩ := h
      · exact h
      · exact absurd h hr

/-- The loop over the expired timers. -/
theorem fireAll_fired {as : List Addr} (hs : OrderedSet.Sorted (lt s.obj) s.timers)
    (hnd : as.Nodup) (has : ∀ a ∈ as, a ∉ s.timers) :
    Fired s now as (fireAll now s as).1 (fireAll now s as).2 := by
  induction as generalizing s with
  | nil =>
    exact ⟨rfl, fun _ h => absurd h List.not_mem_nil, fun _ _ => rfl, hs,
      fun a => ⟨.inl, fun h => h.resolve_right fun h => List.not_mem_nil h.1⟩, rfl⟩
  | cons a as ih =>
    obtain ⟨haas, hnd⟩ := List.nodup_cons.1 hnd
    have hone := fire_fired hs (has a (List.mem_cons_self ..)) now
    have hkeep : ∀ b ∈ as, (fire now s a).obj b = s.obj b := fun b hb =>
      fire_obj_of_ne s fun he : b = a => haas (he ▸ hb)
    have hout : ∀ b ∈ as, b ∉ (fire now s a).timers := by
      intro b hb hm
      obtain hm | ⟨hm, -⟩ := (hone.mem b).1 hm
      · exact has b (List.mem_cons_of_mem a hb) hm
      · exact haas (List.mem_singleton.1 hm ▸ hb)
    have hrest := ih hone.sorted hnd hout
    refine ⟨?_, fun b hb => ?_, fun b hb => ?_, hrest.sorted, fun b => ?_, hrest.live.trans hone.live⟩
    · show (s.obj a).cb :: (fireAll now (fire now s a) as).2 = _
      rw [hrest.cbs, List.map_cons, List.map_congr_left fun b hb => by rw [hkeep b hb]]
    · obtain rfl | hb := List.mem_cons.1 hb
      · exact (hrest.other b haas).trans (hone.self b (List.mem_singleton_self b))
      · exact (hrest.self b hb).trans (by rw [hkeep b hb])
    · rw [List.mem_cons, not_or] at hb
      exact (hrest.other b hb.2).trans (fire_obj_of_ne s hb.1)
    · refine (hrest.mem b).trans ?_
      rw [hone.mem b, List.mem_singleton, List.mem_cons]
      constructor
      · rintro ((h | ⟨h, hr⟩) | ⟨h, hr⟩)
        · exact .inl h
        · exact .inr ⟨.inl h, hr⟩
        · exact .inr ⟨.inr h, by rwa [hkeep b h] at hr⟩
      · rintro (h | ⟨h | h, hr⟩)
        · exact .inl (.inl h)
        · exact .inl (.inr ⟨h, hr⟩)
        · exact .inr ⟨h, by rwa [hkeep b h]⟩

/-! ## One call -/

/-- The timers that `listExpiredCb` takes out of the set. -/
def expired (s : TimerManager) (now : UInt64) (tmp : Addr) : List Addr :=
  match s.timers with
  | [] => []
  | a :: _ =>
    let r := s.detectClockRollover now
    if !r.2 && decide ((s.obj a).next > now) then []
    else s.timers.take (if r.2 then s.timers.length else r.1.expiredEnd now tmp)

/-- A call fires the timers it takes; with an empty set it does not look at the clock. -/
theorem listExpiredCb_eq (s : TimerManager) (now : UInt64) (tmp : Addr) :
    s.listExpiredCb now tmp =
      fireAll now
        { s with
          previousTime := if s.timers = [] then s.previousTime else now
          timers := s.timers.drop (s.expired now tmp).length }
        (s.expired now tmp) := by
  have hdrop : ∀ i, s.timers.drop i = s.timers.drop (s.timers.take i).length := by
    intro i
    rw [List.length_take]
    obtain h | h := Nat.le_total i s.timers.length
    · rw [Nat.min_eq_left h]
    · rw [Nat.min_eq_right h, List.drop_length, List.drop_of_length_le h]
  obtain ⟨obj, live, timers, tickled, previousTime, inPlace⟩ := s
  cases timers with
  | nil => rfl
  | cons a as =>
    simp only [listExpiredCb, expired, if_neg (List.cons_ne_nil a as)]
    split_ifs
    · rfl
    · rw [← hdrop]
      rfl
    · rw [← hdrop]
      rfl

/-- The timers that are taken stand in front. -/
theorem exists_expired_append (s : TimerManager) (now : UInt64) (tmp : Addr) :
    ∃ rest, s.timers = s.expired now tmp ++ rest ∧
      s.timers.drop (s.expired now tmp).length = rest := by
  have hpre : s.expired now tmp <+: s.timers := by
    unfold expired
    split
    · exact List.nil_prefix
    · next h =>
      dsimp only
      split_ifs
      · exact List.nil_prefix
      · exact h ▸ List.take_prefix ..
      · exact h ▸ List.take_prefix ..
  obtain ⟨rest, hrest⟩ := hpre
  refine ⟨rest, hrest.symm, ?_⟩
  rw [← hrest, List.drop_left]

theorem expired_of_rollover (h : (s.detectClockRollover now).2 = true) :
    s.expired now tmp = s.timers := by
  unfold expired
  split
  · next hnil => exact hnil.symm
  · next a as hcons =>
    dsimp only
    rw [h, if_neg (by simp), if_pos rfl, List.take_length]

theorem expired_eq_due (hs : OrderedSet.Sorted (lt s.obj) s.timers) (htmp : tmp ∉ s.timers)
    (h : (s.detectClockRollover now).2 = false) : s.expired now tmp = s.due now := by
  unfold expired
  split
  · next hnil =>
    unfold due
    rw [hnil]
    rfl
  · next a as hcons =>
    dsimp only
    rw [h]
    by_cases ha : (s.obj a).next > now
    · -- the first timer is not due, so none is
      rw [if_pos (by simpa using ha)]
      refine (List.filter_eq_nil_iff.2 fun b hb => ?_).symm
      rw [hcons] at hs hb
      simpa using later_of_sorted hs ha b hb
    · rw [if_neg (by simpa using ha), if_neg Bool.false_ne_true]
      exact hcons ▸ (take_expiredEnd hs htmp).1

/-- What a call leaves. -/
theorem listExpiredCb_fired (hs : OrderedSet.Sorted (lt s.obj) s.timers) (now : UInt64) (tmp : Addr) :
    ∃ rest, s.timers = s.expired now tmp ++ rest ∧ (s.expired now tmp).Nodup ∧
      Fired
        { s with
          previousTime := if s.timers = [] then s.previousTime else now
          timers := rest }
        now (s.expired now tmp) (s.listExpiredCb now tmp).1 (s.listExpiredCb now tmp).2 := by
  obtain ⟨rest, hsplit, hdrop⟩ := exists_expired_append s now tmp
  have hnd := hs.nodup (strict_lt s.obj)
  rw [hsplit, List.nodup_append] at hnd
  have hrest : OrderedSet.Sorted (lt s.obj) rest :=
    List.Pairwise.sublist (hsplit ▸ List.sublist_append_right ..) hs
  refine ⟨rest, hsplit, hnd.1, ?_⟩
  rw [listExpiredCb_eq, hdrop]
  exact fireAll_fired hrest hnd.1 fun a ha hm => hnd.2.2 a ha a hm rfl

end TimerManager

open TimerManager in
/-- **`listExpiredCb` takes the due timers**, when there is no rollover: their callbacks come out in
the order of deadline and address, the recurring ones are back in the set with a new deadline, the
others are out of it and have lost their callback, all other timers are as they were, and the address
of the temporary timer does not matter. -/
theorem listExpiredCb_due (s : TimerManager) (now : UInt64) (tmp : Addr)
    (hs : OrderedSet.Sorted (lt s.obj) s.timers) (htmp : tmp ∉ s.timers)
    (hroll : (s.detectClockRollover now).2 = false) :
    (s.listExpiredCb now tmp).2 = (s.due now).map (fun a => (s.obj a).cb) ∧
    (s.due now).Nodup ∧ (∀ a, a ∈ s.due now ↔ a ∈ s.timers ∧ (s.obj a).next ≤ now) ∧
    ((s.due now).Pairwise fun a b =>
      (s.obj a).next < (s.obj b).next ∨ ((s.obj a).next = (s.obj b).next ∧ a < b)) ∧
    (∀ a, a ∉ s.due now → (s.listExpiredCb now tmp).1.obj a = s.obj a) ∧
    (∀ a ∈ s.timers, now < (s.obj a).next → a ∈ (s.listExpiredCb now tmp).1.timers) ∧
    (∀ a ∈ s.due now, (s.obj a).recurring = true →
      a ∈ (s.listExpiredCb now tmp).1.timers ∧
      (s.listExpiredCb now tmp).1.obj a = { s.obj a with next := now + (s.obj a).ms }) ∧
    (∀ a ∈ s.due now, (s.obj a).recurring = false →
      a ∉ (s.listExpiredCb now tmp).1.timers ∧
      (s.listExpiredCb now tmp).1.obj a = { s.obj a with cb := none }) ∧
    (∀ a ∈ (s.listExpiredCb now tmp).1.timers, a ∈ s.timers) ∧
    OrderedSet.Sorted (lt (s.listExpiredCb now tmp).1.obj) (s.listExpiredCb now tmp).1.timers ∧
    ∀ tmp', tmp' ∉ s.timers → s.listExpiredCb now tmp' = s.listExpiredCb now tmp := by
  have hexp : ∀ x, x ∉ s.timers → s.expired now x = s.due now := fun x hx =>
    expired_eq_due hs hx hroll
  obtain ⟨rest, hsplit, hnd, hf⟩ := listExpiredCb_fired hs now tmp
  rw [hexp tmp htmp] at hsplit hnd hf
  have hapart : ∀ a ∈ s.due now, a ∉ rest := by
    have h := hs.nodup (strict_lt s.obj)
    rw [hsplit, List.nodup_append] at h
    exact fun a ha hm => h.2.2 a ha a hm rfl
  have hrest : ∀ a, a ∈ rest → a ∈ s.timers := fun a ha => by
    rw [hsplit]
    exact List.mem_append_right _ ha
  have hself : ∀ a ∈ s.due now, (s.listExpiredCb now tmp).1.obj a = Timer.fired now (s.obj a) :=
    hf.self
  refine ⟨hf.cbs, hnd, fun a => mem_due, ?_, hf.other, fun a ha hl => ?_, fun a ha hr => ?_,
    fun a ha hr => ?_, fun a ha => ?_, hf.sorted, fun x hx => ?_⟩
  · exact List.Pairwise.imp (fun h => (lt_iff ..).1 h) (List.Pairwise.sublist List.filter_sublist hs)
  · rw [hsplit, List.mem_append] at ha
    refine (hf.mem a).2 (.inl (ha.resolve_left fun hd => ?_))
    exact absurd (mem_due.1 hd).2 (UInt64.not_le.2 hl)
  · refine ⟨(hf.mem a).2 (.inr ⟨ha, hr⟩), ?_⟩
    rw [hself a ha, Timer.fired, if_pos hr]
  · refine ⟨fun hm => ?_, ?_⟩
    · obtain hm | ⟨-, hr'⟩ := (hf.mem a).1 hm
      · exact hapart a ha hm
      · exact Bool.false_ne_true (hr.symm.trans hr')
    · rw [hself a ha, Timer.fired, if_neg (by rw [hr]; exact Bool.false_ne_true)]
  · obtain hm | ⟨hm, -⟩ := (hf.mem a).1 ha
    · exact hrest a hm
    · exact (mem_due.1 hm).1
  · rw [listExpiredCb_eq, listExpiredCb_eq, hexp x hx, hexp tmp htmp]

/-- Two timers that are due now, one on either side of the temporary one, and one that is not. -/
theorem listExpiredCb_due_both : ∃ s : TimerManager, s.timers = [2, 9, 4] ∧ s.due 30 = [2, 9] ∧
    (s.listExpiredCb 30 5).2 = [some 1, some 3] ∧ (s.listExpiredCb 30 5).1.timers = [2, 4] ∧
    (s.listExpiredCb 30 12).1.timers = (s.listExpiredCb 30 5).1.timers := by
  let s : TimerManager := { TimerManager.start 20 with
    obj := fun a => if a = 2 then ⟨true, 0, 30, some 1⟩ else if a = 9 then ⟨false, 7, 30, some 3⟩
      else ⟨true, 8, 31, some 2⟩
    timers := [2, 9, 4] }
  have hs : OrderedSet.Sorted (TimerManager.lt s.obj) s.timers := by
    unfold OrderedSet.Sorted
    decide
  obtain ⟨hcbs, -, -, -, -, -, -, -, -, -, htmp⟩ :=
    listExpiredCb_due s 30 5 hs (by decide) (by decide)
  refine ⟨s, rfl, by decide, ?_, by decide, ?_⟩
  · rw [hcbs]
    decide
  · rw [htmp 12 (by decide)]

end CoroutineScheduler

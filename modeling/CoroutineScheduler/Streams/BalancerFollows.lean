import CoroutineScheduler.Lib.Trans
import CoroutineScheduler.Lib.Turns
import CoroutineScheduler.Streams.LoadBalance

/-!
# The balancer follows the discovery

Each swap of `m_datas` is a turn, and the ids of the balancer follow the turns when the differences
are made in their order (`InOrder`). `onServiceChange` makes them when it comes to `update`, in any
order, and `get` may store a second `LoadBalance` over the first (`not_balancer_follows`).
-/

namespace CoroutineScheduler.Streams

open Trans

/-! ## Which `LoadBalance` a run has -/

/-- The number of the turn of a run whose differences are still to be made, and its two values. -/
def RunPc.pending : RunPc → Option (ℕ × IdMap ServiceItemInfo × IdMap ServiceItemInfo)
  | .change turn old new _ => some (turn, old, new)
  | .idle | .swap _ | .close _ => none

/-- The ids that a run of an earlier turn still has to change. -/
def RunPc.earlier (n : ℕ) : RunPc → List UInt64
  | .change turn old new _ => if turn < n then changed old new else []
  | .idle | .swap _ | .close _ => []

theorem RunPc.mem_earlier {pc : RunPc} {j n : ℕ} {old new : IdMap ServiceItemInfo} {i : UInt64}
    (hpc : pc.pending = some (j, old, new)) (hj : j < n) (hi : i ∈ changed old new) :
    i ∈ pc.earlier n := by
  cases pc with
  | change turn old' new' pc =>
    obtain ⟨rfl, rfl, rfl⟩ := Prod.mk.inj (Option.some.inj hpc) |>.imp_right Prod.mk.inj
    rwa [RunPc.earlier, if_pos hj]
  | idle | swap infos | close items => cases hpc

namespace Discovery

variable {T : Type} {s u : Discovery T} {t : T}

/-- The places whose step keeps the order of the differences: that of `update` only when no run of an
earlier turn has one of the same ids to change, and that of the store of a new `LoadBalance` only when
there is still none. -/
def Orderly (s : Discovery T) : RunPc → Prop
  | .change turn old new (.update _ _) => ∀ t, ((s.pc t).earlier turn).all (· ∉ changed old new)
  | .change _ _ _ (.store _ _) => s.balance = none
  | _ => True

def InOrder (s : Discovery T) : Label T → Prop
  | .next t => s.Orderly (s.pc t)
  | .getChildren _ _ | .initConf _ => True

instance [Fintype T] (s : Discovery T) (pc : RunPc) : Decidable (s.Orderly pc) := by
  unfold Orderly
  split <;> infer_instance

instance [Fintype T] (s : Discovery T) (l : Label T) : Decidable (s.InOrder l) := by
  cases l <;> unfold InOrder <;> infer_instance

/-- What the objects are to a run: a new `LoadBalance` is empty as long as there is no other, and the
one to be updated is that of the service. -/
def Fits (s : Discovery T) : RunPc → Prop
  | .change _ _ _ (.store _ lb) => lb < s.created ∧ (s.balance = none → (s.heap lb).datas = ∅)
  | .change _ _ _ (.update _ lb) => s.balance = some lb
  | _ => True

structure Objects (s : Discovery T) : Prop where
  inUse : ∀ lb, s.balance = some lb → lb < s.created
  fits : ∀ t, s.Fits (s.pc t)

theorem objects_start (datas : IdMap ServiceItemInfo) (type : Option BalanceType)
    (lb : Option LoadBalance) : Objects (start datas type lb : Discovery T) where
  inUse p h := by
    obtain ⟨_, -, rfl⟩ := Option.map_eq_some_iff.1 h
    exact Nat.zero_lt_one
  fits _ := trivial

section
variable [DecidableEq T]

omit [DecidableEq T] in
theorem Fits.mono {pc : RunPc} (h : s.Fits pc)
    (hstore : ∀ lb, lb < s.created → (s.balance = none → (s.heap lb).datas = ∅) →
      lb < u.created ∧ (u.balance = none → (u.heap lb).datas = ∅))
    (hupdate : ∀ lb, s.balance = some lb → u.balance = some lb) : u.Fits pc := by
  unfold Fits at h ⊢
  split
  case h_1 => exact hstore _ h.1 h.2
  case h_2 => exact hupdate _ h
  case h_3 => trivial

theorem Objects.move (h : Objects s) {b : RunPc} (hpc : u.pc = Function.update s.pc t b)
    (hinUse : ∀ lb, u.balance = some lb → lb < u.created) (hb : u.Fits b)
    (hothers : ∀ pc, s.Fits pc → u.Fits pc) : Objects u := by
  refine ⟨hinUse, fun t' => ?_⟩
  rw [hpc]
  by_cases ht : t' = t
  · rw [ht, Function.update_self]
    exact hb
  · rw [Function.update_of_ne ht]
    exact hothers _ (h.fits t')

/-- A step that leaves the objects. -/
theorem Objects.goto (h : Objects s) {b : RunPc} (hpc : u.pc = Function.update s.pc t b)
    (hheap : u.heap = s.heap) (hcreated : u.created = s.created) (hbalance : u.balance = s.balance)
    (hb : s.Fits b) : Objects u := by
  have hfits : ∀ pc, s.Fits pc → u.Fits pc := fun pc hpc => by
    unfold Fits at hpc ⊢
    rwa [hheap, hcreated, hbalance]
  refine h.move hpc (fun lb hlb => ?_) (hfits b hb) hfits
  rw [hcreated]
  exact h.inUse lb (hbalance ▸ hlb)

section
variable {turn : ℕ} {old new : IdMap ServiceItemInfo} {type : BalanceType} {lb : BalancePtr}
  (cb : ℕ → ServiceItemInfo → Option StreamPtr)

theorem Objects.create (h : Objects s) :
    Objects (s.changeStep cb t turn old new (.create type)) := by
  have hempty : (createLoadBalance s.getType).datas = ∅ := by
    cases s.getType <;> rfl
  have hheap : ∀ p, p < s.created →
      Function.update s.heap s.created (createLoadBalance s.getType) p = s.heap p :=
    fun p hp => Function.update_of_ne hp.ne _ _
  refine h.move rfl (fun p hp => Nat.lt_succ_of_lt (h.inUse p hp)) ?_ fun pc hpc => ?_
  · refine ⟨Nat.lt_succ_self _, fun _ => ?_⟩
    show (Function.update s.heap s.created _ s.created).datas = ∅
    rw [Function.update_self, hempty]
  · refine hpc.mono (fun p hp hnone => ⟨Nat.lt_succ_of_lt hp, fun hbalance => ?_⟩) fun _ hp => hp
    show (Function.update s.heap s.created _ p).datas = ∅
    rw [hheap p hp]
    exact hnone hbalance

theorem Objects.store (h : Objects s) (hpc : s.pc t = .change turn old new (.store type lb))
    (hnone : s.balance = none) : Objects (s.changeStep cb t turn old new (.store type lb)) := by
  have hlb : lb < s.created := by
    have hfits := h.fits t
    rw [hpc] at hfits
    exact hfits.1
  refine h.move rfl (fun p hp => ?_) rfl fun pc hpc => ?_
  · obtain rfl := Option.some.inj hp
    exact hlb
  · refine hpc.mono (fun p hp _ => ⟨hp, nofun⟩) fun p hp => ?_
    rw [hnone] at hp
    cases hp

omit [DecidableEq T] in
theorem Objects.balance (h : Objects s) (hpc : s.pc t = .change turn old new (.update type lb)) :
    s.balance = some lb := by
  have hfits := h.fits t
  rw [hpc] at hfits
  exact hfits

theorem Objects.update (h : Objects s) (hpc : s.pc t = .change turn old new (.update type lb)) :
    Objects (s.changeStep cb t turn old new (.update type lb)) := by
  refine h.move rfl h.inUse trivial fun pc hfits => ?_
  refine hfits.mono (fun p hp _ => ⟨hp, fun hnone => ?_⟩) fun p hp => hp
  have hbalance : s.balance = none := hnone
  rw [h.balance hpc] at hbalance
  cases hbalance

end

/-! ## In which order the differences are made -/

omit [DecidableEq T] in
/-- The differences of a turn are still to be made. -/
def Waiting (s : Discovery T) (n : ℕ) : Prop := ∃ t old new, (s.pc t).pending = some (n, old, new)

/-- `hist` is what `m_datas` was in front of each turn. The runs have the values of their turns, and
what the balancer holds of an id follows them. -/
structure Inv (hist : ℕ → IdMap ServiceItemInfo) (s : Discovery T) : Prop where
  objects : Objects s
  last : hist s.turns = s.datas
  pending : ∀ t n old new, (s.pc t).pending = some (n, old, new) →
    n < s.turns ∧ old = hist n ∧ new = hist (n + 1)
  unique : ∀ t t' n old new old' new', (s.pc t).pending = some (n, old, new) →
    (s.pc t').pending = some (n, old', new') → t = t'
  follows : ∀ i, Turns.Follows (fun j => ((hist j).find i).isSome) s.turns s.Waiting (s.holds i)

variable {hist : ℕ → IdMap ServiceItemInfo}

omit [DecidableEq T] in
/-- A step that makes no turn and no difference. -/
theorem Inv.keep (h : Inv hist s) (hobj : Objects u) (hdatas : u.datas = s.datas)
    (hturns : u.turns = s.turns) (hpending : ∀ t, (u.pc t).pending = (s.pc t).pending)
    (hholds : ∀ i, u.holds i = s.holds i) : Inv hist u where
  objects := hobj
  last := by rw [hturns, hdatas, h.last]
  pending t n old new ht := by
    rw [hpending] at ht
    rw [hturns]
    exact h.pending t n old new ht
  unique t t' n old new old' new' ht ht' := by
    rw [hpending] at ht ht'
    exact h.unique t t' n old new old' new' ht ht'
  follows i := by
    have hwaiting : u.Waiting = s.Waiting := by
      funext n
      simp only [Waiting, hpending]
    rw [hturns, hholds, hwaiting]
    exact h.follows i

theorem pending_update {b : RunPc} (hpc : u.pc = Function.update s.pc t b)
    (hb : b.pending = (s.pc t).pending) (t' : T) : (u.pc t').pending = (s.pc t').pending := by
  rw [hpc]
  by_cases ht : t' = t
  · rw [ht, Function.update_self, hb]
  · rw [Function.update_of_ne ht]

/-- The swap is a new turn. -/
theorem Inv.swap (h : Inv hist s) {infos : IdMap ServiceItemInfo} (hpc : s.pc t = .swap infos) :
    Inv (Function.update hist (s.turns + 1) infos)
      { s.goto t (.change s.turns s.datas infos .type) with
        datas := infos
        turns := s.turns + 1 } := by
  have hhist : ∀ n ≤ s.turns, Function.update hist (s.turns + 1) infos n = hist n :=
    fun n hn => Function.update_of_ne (by omega) _ _
  have hnone : (s.pc t).pending = none := by rw [hpc]; rfl
  have hnew : ∀ t' n old new,
      (Function.update s.pc t (.change s.turns s.datas infos .type) t').pending = some (n, old, new) ↔
        (s.pc t').pending = some (n, old, new) ∨
          t' = t ∧ n = s.turns ∧ old = s.datas ∧ new = infos := by
    intro t' n old new
    by_cases ht : t' = t
    · rw [ht, Function.update_self, hnone]
      simp [RunPc.pending, eq_comm]
    · rw [Function.update_of_ne ht]
      simp [ht]
  constructor
  · exact h.objects.goto rfl rfl rfl rfl trivial
  · exact Function.update_self _ _ _
  · intro t' n old new ht'
    obtain hold | ⟨rfl, rfl, rfl, rfl⟩ := (hnew t' n old new).1 ht'
    · obtain ⟨hn, rfl, rfl⟩ := h.pending t' n old new hold
      exact ⟨Nat.lt_succ_of_lt hn, (hhist n hn.le).symm, (hhist (n + 1) hn).symm⟩
    · exact ⟨Nat.lt_succ_self _, by rw [hhist _ le_rfl, h.last], by rw [Function.update_self]⟩
  · intro t₁ t₂ n old new old' new' h₁ h₂
    obtain hp₁ | ⟨ht₁, hn₁, -⟩ := (hnew t₁ n old new).1 h₁
    · obtain hp₂ | ⟨-, hn₂, -⟩ := (hnew t₂ n old' new').1 h₂
      · exact h.unique t₁ t₂ n old new old' new' hp₁ hp₂
      · exact absurd hn₂ (h.pending _ _ _ _ hp₁).1.ne
    · obtain hp₂ | ⟨ht₂, -⟩ := (hnew t₂ n old' new').1 h₂
      · exact absurd hn₁ (h.pending _ _ _ _ hp₂).1.ne
      · rw [ht₁, ht₂]
  · intro i
    refine (h.follows i).turn (fun n hn => by rw [hhist n hn]) fun n => ?_
    constructor
    · rintro ⟨t', old, new, ht'⟩
      obtain ht' | ⟨-, hn, -⟩ := (hnew t' n old new).1 ht'
      · exact .inl ⟨t', old, new, ht'⟩
      · exact .inr hn
    · rintro (⟨t', old, new, ht'⟩ | rfl)
      · exact ⟨t', old, new, (hnew t' n old new).2 (.inl ht')⟩
      · exact ⟨t, s.datas, infos, (hnew t _ _ _).2 (.inr ⟨rfl, rfl, rfl, rfl⟩)⟩

section
variable {cb : ℕ → ServiceItemInfo → Option StreamPtr} {turn : ℕ} {old new : IdMap ServiceItemInfo}
  {type : BalanceType} {lb : BalancePtr}

theorem holds_update (h : Objects s) (hcb : ∀ n info, (cb n info).isSome)
    (hpc : s.pc t = .change turn old new (.update type lb)) (i : UInt64) :
    (s.changeStep cb t turn old new (.update type lb)).holds i =
      if (new.find i).isSome = (old.find i).isSome then s.holds i else (new.find i).isSome := by
  have hbalance := h.balance hpc
  have hu : (s.changeStep cb t turn old new (.update type lb)).balance = some lb := hbalance
  unfold holds
  rw [hu, hbalance]
  dsimp only [changeStep]
  rw [Function.update_self, find_update (hcb turn)]

theorem pending_closed (t' : T) (p : ℕ × IdMap ServiceItemInfo × IdMap ServiceItemInfo) :
    ((s.changeStep cb t turn old new (.update type lb)).pc t').pending = some p ↔
      (s.pc t').pending = some p ∧ t' ≠ t := by
  dsimp only [changeStep, goto]
  by_cases ht : t' = t
  · simp [ht, RunPc.pending]
  · simp [ht]

/-- `update` makes the differences of its turn, in front of which none of them waits. -/
theorem Inv.update (h : Inv hist s) (hcb : ∀ n info, (cb n info).isSome)
    (hpc : s.pc t = .change turn old new (.update type lb))
    (hfirst : ∀ t', ∀ i ∈ (s.pc t').earlier turn, i ∉ changed old new) :
    Inv hist (s.changeStep cb t turn old new (.update type lb)) := by
  have hpend : (s.pc t).pending = some (turn, old, new) := by rw [hpc]; rfl
  obtain ⟨hturn, hold, hnew⟩ := h.pending t turn old new hpend
  have hwaiting : ∀ n, (s.changeStep cb t turn old new (.update type lb)).Waiting n ↔
      s.Waiting n ∧ n ≠ turn := by
    intro n
    constructor
    · rintro ⟨t', old', new', ht'⟩
      obtain ⟨hpend', hne⟩ := (pending_closed t' _).1 ht'
      refine ⟨⟨t', old', new', hpend'⟩, ?_⟩
      rintro rfl
      exact hne (h.unique _ _ _ _ _ _ _ hpend' hpend)
    · rintro ⟨⟨t', old', new', ht'⟩, hne⟩
      refine ⟨t', old', new', (pending_closed t' _).2 ⟨ht', ?_⟩⟩
      rintro rfl
      exact hne (congrArg Prod.fst (Option.some.inj (ht'.symm.trans hpend)))
  constructor
  · exact h.objects.update cb hpc
  · exact h.last
  · exact fun t' n old new ht' => h.pending t' n old new ((pending_closed t' _).1 ht').1
  · exact fun t₁ t₂ n old new old' new' h₁ h₂ =>
      h.unique t₁ t₂ n old new old' new' ((pending_closed t₁ _).1 h₁).1 ((pending_closed t₂ _).1 h₂).1
  · intro i
    rw [holds_update h.objects hcb hpc]
    split_ifs with hsame
    · rw [hnew, hold] at hsame
      exact (h.follows i).skip hsame hwaiting
    · have hearlier : ∀ j < turn, s.Waiting j →
          ((hist (j + 1)).find i).isSome = ((hist j).find i).isSome := by
        rintro j hj ⟨t', old', new', ht'⟩
        obtain ⟨-, rfl, rfl⟩ := h.pending t' j old' new' ht'
        by_contra hne
        exact hfirst t' i (RunPc.mem_earlier ht' hj (mem_changed.2 hne)) (mem_changed.2 hsame)
      rw [hnew, hold] at hsame
      have hchange := (h.follows i).change hsame hturn ⟨t, old, new, hpend⟩ hearlier hwaiting
      rwa [← hnew] at hchange

/-- A step of `onServiceChange` in front of `update`. -/
theorem Inv.before (h : Inv hist s) {pc pc' : ChangePc} (hpc : s.pc t = .change turn old new pc)
    (hobj : Objects u) (hpc' : u.pc = Function.update s.pc t (.change turn old new pc'))
    (hdatas : u.datas = s.datas) (hturns : u.turns = s.turns) (hholds : ∀ i, u.holds i = s.holds i) :
    Inv hist u :=
  h.keep hobj hdatas hturns (pending_update hpc' (by rw [hpc]; rfl)) hholds

theorem Inv.change (h : Inv hist s) (hcb : ∀ n info, (cb n info).isSome) {pc : ChangePc}
    (hpc : s.pc t = .change turn old new pc) (hok : s.InOrder (.next t)) :
    Inv hist (s.changeStep cb t turn old new pc) := by
  rw [InOrder, hpc] at hok
  cases pc with
  | type =>
    have hobj : Objects (s.changeStep cb t turn old new .type) :=
      h.objects.goto rfl rfl rfl rfl trivial
    exact h.before hpc hobj rfl rfl rfl fun _ => rfl
  | find type =>
    rw [changeStep]
    split
    case h_1 lb hlb =>
      exact h.before hpc (h.objects.goto rfl rfl rfl rfl hlb) rfl rfl rfl fun _ => rfl
    case h_2 =>
      exact h.before hpc (h.objects.goto rfl rfl rfl rfl trivial) rfl rfl rfl fun _ => rfl
  | create type =>
    refine h.before hpc (h.objects.create cb) rfl rfl rfl fun i => ?_
    have hu : (s.changeStep cb t turn old new (.create type)).balance = s.balance := rfl
    unfold holds
    rw [hu]
    split
    case h_1 lb hlb =>
      dsimp only [changeStep]
      rw [Function.update_of_ne (h.objects.inUse lb hlb).ne]
    case h_2 => rfl
  | store type lb =>
    refine h.before hpc (h.objects.store cb hpc hok) rfl rfl rfl fun i => ?_
    have hempty : (s.heap lb).datas = ∅ := by
      have hfits := h.objects.fits t
      rw [hpc] at hfits
      exact hfits.2 hok
    have hnone : s.balance = none := hok
    have hu : (s.changeStep cb t turn old new (.store type lb)).balance = some lb := rfl
    unfold holds
    rw [hu, hnone]
    show ((s.heap lb).datas.find i).isSome = false
    rw [hempty]
    rfl
  | update type lb =>
    refine h.update hcb hpc fun t' i hi => ?_
    exact of_decide_eq_true (List.all_eq_true.1 (hok t') i hi)

end

/-! ## A run -/

omit [DecidableEq T] in
theorem inv_start (datas : IdMap ServiceItemInfo) (type : Option BalanceType)
    (lb : Option LoadBalance) (hagrees : (start datas type lb : Discovery T).Agrees) :
    Inv (fun _ => datas) (start datas type lb : Discovery T) where
  objects := objects_start datas type lb
  last := rfl
  pending _ _ _ _ h := nomatch h
  unique _ _ _ _ _ _ _ h := nomatch h
  follows i := by
    rw [hagrees i]
    exact Turns.follows_start

theorem Inv.step (h : Inv hist s) {cb : ℕ → ServiceItemInfo → Option StreamPtr}
    (hcb : ∀ n info, (cb n info).isSome) {l : Label T} (hok : s.InOrder l)
    (hst : s.step cb l = some u) : ∃ hist', Inv hist' u := by
  cases l with
  | getChildren t vals =>
    rw [Discovery.step] at hst
    split at hst
    case h_1 hpc =>
      obtain rfl := Option.some.inj hst
      have hobj : Objects (s.goto t (.swap (infosOf vals))) := h.objects.goto rfl rfl rfl rfl trivial
      exact ⟨hist, h.keep hobj rfl rfl (pending_update rfl (by rw [hpc]; rfl)) fun _ => rfl⟩
    case h_2 => cases hst
  | next t =>
    rw [Discovery.step] at hst
    split at hst
    case h_1 => cases hst
    all_goals obtain rfl := Option.some.inj hst
    case h_2 infos hpc => exact ⟨_, h.swap hpc⟩
    case h_3 turn old new pc hpc => exact ⟨hist, h.change hcb hpc hok⟩
    case h_4 items hpc =>
      refine ⟨hist, h.keep ?_ rfl rfl (pending_update rfl (by rw [hpc]; rfl)) fun _ => rfl⟩
      exact h.objects.goto rfl rfl rfl rfl trivial
  | initConf type =>
    obtain rfl := Option.some.inj hst
    exact ⟨hist, h.keep ⟨h.objects.inUse, h.objects.fits⟩ rfl rfl (fun _ => rfl) fun _ => rfl⟩

/-- When the two agree at first, `m_cb` gives a stream for every item, and each step keeps the order of
the differences, they agree when all runs have finished. -/
theorem balancer_follows (datas : IdMap ServiceItemInfo) (type : Option BalanceType)
    (lb : Option LoadBalance) (hagrees : (start datas type lb : Discovery T).Agrees)
    {cb : ℕ → ServiceItemInfo → Option StreamPtr} (hcb : ∀ n info, (cb n info).isSome)
    (h : Reach (Discovery.step cb) InOrder (start datas type lb) s) (hidle : ∀ t, s.pc t = .idle) :
    s.Agrees := by
  have hinv : ∃ hist, Inv hist s :=
    h.invariant (I := fun s => ∃ hist, Inv hist s) ⟨_, inv_start datas type lb hagrees⟩
      fun s l u ⟨hist, hinv⟩ hok hst => hinv.step hcb hok hst
  obtain ⟨hist, hinv⟩ := hinv
  intro i
  rw [← hinv.last]
  refine (hinv.follows i).eq_of_done ?_
  rintro n ⟨t, old, new, ht⟩
  rw [hidle t] at ht
  cases ht

end

/-- The first run reads one item and creates the `LoadBalance`, the second one reads another item; they
swap and update in one order. -/
theorem balancer_follows_two : ∃ s : Discovery (Fin 2), s.holds 1 = false ∧ s.holds 2 = true ∧
    s.Agrees := by
  have hs := reach_exec (Discovery.step fun _ _ => some 0) InOrder
    (start ∅ none none : Discovery (Fin 2))
    [.getChildren 0 [some ⟨1, 80, [], []⟩, none], .getChildren 1 [some ⟨2, 80, [], []⟩], .next 0,
      .next 1, .next 0, .next 1, .next 0, .next 0, .next 0, .next 1, .next 0, .next 1, .next 0,
      .next 1] (by decide +kernel)
  have hagrees := balancer_follows ∅ none none (fun _ => rfl) (fun _ _ => rfl) hs (by decide +kernel)
  refine ⟨_, ?_, ?_, hagrees⟩ <;> decide +kernel

/-- One run reads an item and the next one reads that it is gone; the second one updates first. -/
theorem not_balancer_follows : ¬∀ (datas : IdMap ServiceItemInfo) (type : Option BalanceType)
    (lb : Option LoadBalance) (cb : ℕ → ServiceItemInfo → Option StreamPtr) (s : Discovery (Fin 2)),
    (start datas type lb : Discovery (Fin 2)).Agrees → (∀ n info, (cb n info).isSome) →
    Reach (Discovery.step cb) Trans.free (start datas type lb) s → (∀ t, s.pc t = .idle) →
    s.Agrees := by
  intro h
  have hs := reach_exec (Discovery.step fun _ _ => some 0) Trans.free
    (start ∅ none (some {}) : Discovery (Fin 2))
    [.getChildren 0 [some ⟨1, 80, [], []⟩], .getChildren 1 [], .next 0, .next 1, .next 1, .next 1,
      .next 1, .next 1, .next 0, .next 0, .next 0, .next 0] (by decide +kernel)
  have hagrees := h ∅ none (some {}) (fun _ _ => some 0) _ (fun _ => rfl) (fun _ _ => rfl) hs
    (by decide +kernel)
  exact absurd (hagrees 1) (by decide +kernel)

/-- Two runs find no `LoadBalance`, and the second one stores its own over that of the first. -/
example : ((exec (Discovery.step fun _ _ => some 0) Trans.free (start ∅ none none : Discovery (Fin 2))
    [.getChildren 0 [some ⟨1, 80, [], []⟩],
      .getChildren 1 [some ⟨1, 80, [], []⟩, some ⟨2, 80, [], []⟩], .next 0, .next 1, .next 0, .next 1,
      .next 0, .next 1, .next 0, .next 1, .next 0, .next 0, .next 0, .next 1, .next 1, .next 1]).map fun s => (s.holds 1, (s.datas.find 1).isSome)) =
    some (false, true) := by
  decide +kernel

end Discovery

end CoroutineScheduler.Streams

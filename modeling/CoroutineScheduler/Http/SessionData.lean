import CoroutineScheduler.Lib.Trans
import Mathlib.Data.List.AList
import Mathlib.Tactic

/-!
# Session expiry

`SessionDataManager` with any number of threads in `check`. A section under the lock is one step: `add`,
`get`, `del`, the scan of `check` and each of its deletions. `check` reads the clock before its scan, and
each access is stamped with the clock. `removals` is no field of the source: it records what the
deletions of `check` took out.

`Spares` says that no session is got or put under a key that a `check` has collected and not yet
deleted, unless it is expired too, and that a `check` that scans any session looks back no further than
the clock. `sessions_expire`: in a run of such steps every session that `check` removes is expired.
-/

namespace CoroutineScheduler.Http

open Trans

variable {T Id : Type} [DecidableEq T] [DecidableEq Id]

/-- `SessionData`, less its data. -/
structure SessionData (Id : Type) where
  id : Id
  lastAccessTime : ℕ

/-- The address of a `SessionData`. -/
abbrev SessionPtr := ℕ

/-- The place of a thread: outside, in front of the scan, and in the loop over `keys`. It has read the
clock at `started`. -/
inductive CheckPc (Id : Type)
  | idle
  | scan (started ts : ℕ)
  | del (started ts : ℕ) (keys : List Id)

/-- A session that `check(ts)` has removed, with its last access at that moment. -/
structure Removal where
  started : ℕ
  ts : ℕ
  lastAccessTime : ℕ
  deriving DecidableEq, Repr

structure SessionDataManager (T Id : Type) where
  /-- `time(0)`. -/
  clock : ℕ
  heap : SessionPtr → SessionData Id
  /-- Smaller addresses are in use. -/
  created : SessionPtr
  datas : AList fun _ : Id => SessionPtr
  pc : T → CheckPc Id
  removals : List Removal

/-- `uint64_t now = time(0) - ts`. -/
def cutoff (started ts : ℕ) : ℕ := (((started : ℤ) - ts) % 2 ^ 64).toNat

namespace SessionDataManager

def start (default : Id) : SessionDataManager T Id where
  clock := 0
  heap _ := ⟨default, 0⟩
  created := 0
  datas := ∅
  pc _ := .idle
  removals := []

/-- What can happen next. `create` is the constructor of a `SessionData` with `setId`. -/
inductive Label (T Id : Type)
  | tick (now : ℕ)
  | create (id : Id)
  | add (p : SessionPtr)
  | get (id : Id)
  | del (id : Id)
  | check (t : T) (ts : ℕ)
  | next (t : T)

/-- The keys that `check` collects. -/
def expired (s : SessionDataManager T Id) (now : ℕ) : List Id :=
  s.datas.keys.filter fun id =>
    match s.datas.lookup id with
    | some p => (s.heap p).lastAccessTime < now
    | none => false

/-- `get`. -/
def getStep (s : SessionDataManager T Id) (id : Id) : SessionDataManager T Id :=
  match s.datas.lookup id with
  | some p =>
    { s with heap := Function.update s.heap p { s.heap p with lastAccessTime := s.clock } }
  | none => s

/-- What a deletion of `check` adds to the record. -/
def removal (s : SessionDataManager T Id) (started ts : ℕ) (id : Id) : List Removal :=
  match s.datas.lookup id with
  | some p => [⟨started, ts, (s.heap p).lastAccessTime⟩]
  | none => []

/-- The next section of `check`. -/
def checkStep (s : SessionDataManager T Id) (t : T) : Option (SessionDataManager T Id) :=
  match s.pc t with
  | .idle => none
  | .scan started ts =>
    some { s with pc := Function.update s.pc t (.del started ts (s.expired (cutoff started ts))) }
  | .del _ _ [] => some { s with pc := Function.update s.pc t .idle }
  | .del started ts (id :: keys) =>
    some { s with
      datas := s.datas.erase id
      pc := Function.update s.pc t (.del started ts keys)
      removals := s.removals ++ s.removal started ts id }

/-- The clock and `ts` are `int64_t`, and not negative. -/
def step (s : SessionDataManager T Id) : Label T Id → Option (SessionDataManager T Id)
  | .tick now => if s.clock ≤ now ∧ now < 2 ^ 63 then some { s with clock := now } else none
  | .create id =>
    some { s with heap := Function.update s.heap s.created ⟨id, s.clock⟩, created := s.created + 1 }
  | .add p =>
    if p < s.created then some { s with datas := s.datas.insert (s.heap p).id p } else none
  | .get id => some (s.getStep id)
  | .del id => some { s with datas := s.datas.erase id }
  | .check t ts =>
    match s.pc t with
    | .idle =>
      if ts < 2 ^ 63 then some { s with pc := Function.update s.pc t (.scan s.clock ts) } else none
    | _ => none
  | .next t => s.checkStep t

/-- Every session that `check(ts)` removed was accessed more than `ts` seconds before it started. -/
def Expiry (s : SessionDataManager T Id) : Prop :=
  ∀ r ∈ s.removals, r.lastAccessTime + r.ts < r.started

/-- A thread has collected the key and not yet deleted it. -/
def Collected (s : SessionDataManager T Id) (id : Id) (started ts : ℕ) : Prop :=
  ∃ t keys, s.pc t = .del started ts keys ∧ id ∈ keys

/-- The steps that leave what is collected expired. -/
def Spares (s : SessionDataManager T Id) : Label T Id → Prop
  | .add p => ∀ started ts, s.Collected (s.heap p).id started ts →
      (s.heap p).lastAccessTime < cutoff started ts
  | .get id => s.datas.lookup id ≠ none → ∀ started ts, ¬s.Collected id started ts
  | .next t => ∀ started ts, s.pc t = .scan started ts → ts ≤ started ∨ s.datas = ∅
  | _ => True

/-! ## The invariant -/

/-- Sessions are registered under their own keys, and what is collected is expired. -/
structure Inv (s : SessionDataManager T Id) : Prop where
  clock : s.clock < 2 ^ 63
  own : ∀ id p, s.datas.lookup id = some p → p < s.created ∧ (s.heap p).id = id
  started : ∀ t started ts, s.pc t = .scan started ts → started < 2 ^ 63
  back : ∀ id started ts, s.Collected id started ts → ts ≤ started ∧ started < 2 ^ 63
  expired : ∀ id started ts p, s.Collected id started ts → s.datas.lookup id = some p →
    (s.heap p).lastAccessTime < cutoff started ts
  expiry : s.Expiry

section
variable {s u : SessionDataManager T Id} {id : Id} {p : SessionPtr} {t : T} {started ts : ℕ}

theorem cutoff_eq (hle : ts ≤ started) (h : started < 2 ^ 63) : cutoff started ts = started - ts := by
  rw [cutoff]
  omega

omit [DecidableEq T] in
theorem Inv.start (default : Id) : Inv (start default : SessionDataManager T Id) where
  clock := by norm_num [SessionDataManager.start]
  own id p h := by
    rw [SessionDataManager.start, AList.lookup_empty] at h
    cases h
  started t started ts h := by cases h
  back id started ts h := by
    obtain ⟨t, keys, h, -⟩ := h
    cases h
  expired id started ts p h := by
    obtain ⟨t, keys, h, -⟩ := h
    cases h
  expiry := nofun

omit [DecidableEq Id] in
/-- What is collected when a thread moves to `q`. -/
theorem Collected.of_update {q : CheckPc Id} (hpc : u.pc = Function.update s.pc t q)
    (h : u.Collected id started ts) :
    (∃ keys, q = .del started ts keys ∧ id ∈ keys) ∨ s.Collected id started ts := by
  obtain ⟨t', keys, hq, hid⟩ := h
  rw [hpc] at hq
  rcases eq_or_ne t' t with rfl | hne
  · rw [Function.update_self] at hq
    exact Or.inl ⟨keys, hq, hid⟩
  · rw [Function.update_of_ne hne] at hq
    exact Or.inr ⟨t', keys, hq, hid⟩

omit [DecidableEq T] in
/-- A step that collects nothing. -/
theorem Inv.of_collected (h : Inv s) (hclock : u.clock < 2 ^ 63)
    (hown : ∀ id p, u.datas.lookup id = some p → p < u.created ∧ (u.heap p).id = id)
    (hstarted : ∀ t started ts, u.pc t = .scan started ts → started < 2 ^ 63)
    (hcol : ∀ id started ts, u.Collected id started ts → s.Collected id started ts)
    (hexp : ∀ id started ts p, s.Collected id started ts → u.datas.lookup id = some p →
      (u.heap p).lastAccessTime < cutoff started ts) (hrem : u.Expiry) : Inv u where
  clock := hclock
  own := hown
  started := hstarted
  back id started ts hc := h.back id started ts (hcol id started ts hc)
  expired id started ts p hc := hexp id started ts p (hcol id started ts hc)
  expiry := hrem

omit [DecidableEq T] in
theorem Inv.create (h : Inv s) (id : Id) :
    Inv { s with heap := Function.update s.heap s.created ⟨id, s.clock⟩, created := s.created + 1 } := by
  have hold : ∀ {id' p}, s.datas.lookup id' = some p →
      Function.update s.heap s.created ⟨id, s.clock⟩ p = s.heap p := fun hp =>
    Function.update_of_ne (h.own _ _ hp).1.ne _ _
  refine h.of_collected h.clock (fun id' p hp => ?_) h.started (fun _ _ _ hc => hc)
    (fun id' started ts p hc hp => ?_) h.expiry
  · obtain ⟨hlt, hid⟩ := h.own id' p hp
    refine ⟨Nat.lt_succ_of_lt hlt, ?_⟩
    show (Function.update s.heap s.created ⟨id, s.clock⟩ p).id = id'
    rwa [hold hp]
  · show (Function.update s.heap s.created ⟨id, s.clock⟩ p).lastAccessTime < _
    rw [hold hp]
    exact h.expired id' started ts p hc hp

omit [DecidableEq T] in
theorem Inv.add (h : Inv s) (hp : p < s.created) (hok : s.Spares (.add p)) :
    Inv { s with datas := s.datas.insert (s.heap p).id p } := by
  refine h.of_collected h.clock (fun id p' hp' => ?_) h.started (fun _ _ _ hc => hc)
    (fun id started ts p' hc hp' => ?_) h.expiry
  · rcases eq_or_ne id (s.heap p).id with rfl | hne
    · rw [AList.lookup_insert] at hp'
      obtain rfl := Option.some.inj hp'
      exact ⟨hp, rfl⟩
    · rw [AList.lookup_insert_ne hne] at hp'
      exact h.own id p' hp'
  · rcases eq_or_ne id (s.heap p).id with rfl | hne
    · rw [AList.lookup_insert] at hp'
      obtain rfl := Option.some.inj hp'
      exact hok started ts hc
    · rw [AList.lookup_insert_ne hne] at hp'
      exact h.expired id started ts p' hc hp'

omit [DecidableEq T] in
theorem Inv.getStep (h : Inv s) (hok : s.Spares (.get id)) : Inv (s.getStep id) := by
  rw [SessionDataManager.getStep]
  cases hp : s.datas.lookup id with
  | none => exact h
  | some p =>
    have hid := (h.own id p hp).2
    refine h.of_collected h.clock (fun id' p' hp' => ?_) h.started (fun _ _ _ hc => hc)
      (fun id' started ts p' hc hp' => ?_) h.expiry
    · obtain ⟨hlt, hid'⟩ := h.own id' p' hp'
      refine ⟨hlt, ?_⟩
      show (Function.update s.heap p _ p').id = id'
      rw [Function.update_apply]
      split_ifs with heq
      · rw [← heq]
        exact hid'
      · exact hid'
    · have hne : p' ≠ p := by
        rintro rfl
        obtain rfl := (h.own id' p' hp').2.symm.trans hid
        exact hok (by rw [hp]; exact Option.some_ne_none _) started ts hc
      show (Function.update s.heap p _ p').lastAccessTime < _
      rw [Function.update_of_ne hne]
      exact h.expired id' started ts p' hc hp'

theorem lookup_of_erase {m : AList fun _ : Id => SessionPtr} {k : Id}
    (h : (m.erase k).lookup id = some p) : m.lookup id = some p := by
  rcases eq_or_ne id k with rfl | hne
  · rw [AList.lookup_erase] at h
    cases h
  · rwa [AList.lookup_erase_ne hne] at h

omit [DecidableEq T] in
/-- What a deletion of `check` removes is expired. -/
theorem Inv.removal_spec (h : Inv s) (hc : s.Collected id started ts) :
    ∀ r ∈ s.removal started ts id, r.lastAccessTime + r.ts < r.started := by
  intro r hr
  rw [removal] at hr
  cases hp : s.datas.lookup id with
  | none =>
    rw [hp] at hr
    cases hr
  | some p =>
    rw [hp] at hr
    obtain rfl := List.mem_singleton.1 hr
    obtain ⟨hle, hlt⟩ := h.back id started ts hc
    have hexp := h.expired id started ts p hc hp
    rw [cutoff_eq hle hlt] at hexp
    show (s.heap p).lastAccessTime + ts < started
    omega

theorem Inv.scan (h : Inv s) (hpc : s.pc t = .scan started ts) (hok : s.Spares (.next t)) :
    Inv { s with pc := Function.update s.pc t (.del started ts (s.expired (cutoff started ts))) } := by
  have hlt := h.started t started ts hpc
  have hmem : ∀ {id}, id ∈ s.expired (cutoff started ts) → ∃ p, s.datas.lookup id = some p ∧
      (s.heap p).lastAccessTime < cutoff started ts := by
    intro id hid
    obtain ⟨-, hid⟩ := List.mem_filter.1 hid
    cases hp : s.datas.lookup id with
    | none =>
      rw [hp] at hid
      cases hid
    | some p =>
      rw [hp] at hid
      exact ⟨p, rfl, by simpa using hid⟩
  refine ⟨h.clock, h.own, fun t' st ts' ht' => ?_, fun id st ts' hc => ?_, fun id st ts' p hc hp => ?_,
    h.expiry⟩
  · dsimp only at ht'
    rcases eq_or_ne t' t with rfl | hne
    · rw [Function.update_self] at ht'
      cases ht'
    · rw [Function.update_of_ne hne] at ht'
      exact h.started t' st ts' ht'
  · rcases Collected.of_update rfl hc with ⟨keys, hq, hid⟩ | hc
    · cases hq
      refine ⟨(hok started ts hpc).resolve_right fun hnil => ?_, hlt⟩
      obtain ⟨p, hp, -⟩ := hmem hid
      rw [hnil, AList.lookup_empty] at hp
      cases hp
    · exact h.back id st ts' hc
  · rcases Collected.of_update rfl hc with ⟨keys, hq, hid⟩ | hc
    · cases hq
      obtain ⟨p', hp', hexp⟩ := hmem hid
      obtain rfl := Option.some.inj (hp.symm.trans hp')
      exact hexp
    · exact h.expired id st ts' p hc hp

/-- A thread moves to a place where it has collected no more than before. -/
theorem Inv.goto (h : Inv s) {q : CheckPc Id} (hclock : u.clock = s.clock) (hheap : u.heap = s.heap)
    (hcreated : u.created = s.created)
    (hdatas : ∀ id p, u.datas.lookup id = some p → s.datas.lookup id = some p)
    (hpc : u.pc = Function.update s.pc t q) (hscan : ∀ started ts, q = .scan started ts → started < 2 ^ 63)
    (hkeys : ∀ id started ts keys, q = .del started ts keys → id ∈ keys → s.Collected id started ts)
    (hrem : u.Expiry) : Inv u := by
  refine h.of_collected (hclock ▸ h.clock) (fun id p hp => ?_) (fun t' st ts' ht' => ?_)
    (fun id st ts' hc => ?_) (fun id st ts' p hc hp => ?_) hrem
  · rw [hheap, hcreated]
    exact h.own id p (hdatas id p hp)
  · rw [hpc] at ht'
    rcases eq_or_ne t' t with rfl | hne
    · rw [Function.update_self] at ht'
      exact hscan st ts' ht'
    · rw [Function.update_of_ne hne] at ht'
      exact h.started t' st ts' ht'
  · rcases hc.of_update hpc with ⟨keys, hq, hid⟩ | hc
    · exact hkeys id st ts' keys hq hid
    · exact hc
  · rw [hheap]
    exact h.expired id st ts' p hc (hdatas id p hp)

theorem Inv.checkStep (h : Inv s) (hok : s.Spares (.next t)) (hs : s.checkStep t = some u) : Inv u := by
  rw [SessionDataManager.checkStep] at hs
  split at hs
  case h_1 => cases hs
  case h_2 started ts hpc =>
    obtain rfl := Option.some.inj hs
    exact h.scan hpc hok
  case h_3 started ts hpc =>
    obtain rfl := Option.some.inj hs
    exact h.goto rfl rfl rfl (fun _ _ hp => hp) rfl nofun nofun h.expiry
  case h_4 started ts id keys hpc =>
    obtain rfl := Option.some.inj hs
    refine h.goto rfl rfl rfl (fun _ _ hp => lookup_of_erase hp) rfl nofun ?_ ?_
    · rintro id' started' ts' keys' hq hid'
      cases hq
      exact ⟨t, _, hpc, List.mem_cons_of_mem _ hid'⟩
    · intro r hr
      rcases List.mem_append.1 hr with hr | hr
      · exact h.expiry r hr
      · exact h.removal_spec ⟨t, _, hpc, List.mem_cons_self ..⟩ r hr

theorem Inv.step (h : Inv s) {a : Label T Id} (hok : s.Spares a) (hs : s.step a = some u) : Inv u := by
  cases a with
  | tick now =>
    rw [SessionDataManager.step] at hs
    split_ifs at hs with hnow
    obtain rfl := Option.some.inj hs
    exact h.of_collected hnow.2 h.own h.started (fun _ _ _ hc => hc) h.expired h.expiry
  | create id =>
    obtain rfl := Option.some.inj hs
    exact h.create id
  | add p =>
    rw [SessionDataManager.step] at hs
    split_ifs at hs with hp
    obtain rfl := Option.some.inj hs
    exact h.add hp hok
  | get id =>
    obtain rfl := Option.some.inj hs
    exact h.getStep hok
  | del id =>
    obtain rfl := Option.some.inj hs
    exact h.of_collected h.clock (fun id' p hp => h.own id' p (lookup_of_erase hp)) h.started
      (fun _ _ _ hc => hc) (fun id' st ts p hc hp => h.expired id' st ts p hc (lookup_of_erase hp))
      h.expiry
  | check t ts =>
    rw [SessionDataManager.step] at hs
    split at hs
    · split_ifs at hs
      obtain rfl := Option.some.inj hs
      refine h.goto rfl rfl rfl (fun _ _ hp => hp) rfl (fun started ts hq => ?_) nofun h.expiry
      cases hq
      exact h.clock
    · cases hs
  | next t => exact h.checkStep hok hs

end

end SessionDataManager

/-- **Session expiry drops no live session**, for any number of threads and any order of steps that
spare what is collected. -/
theorem sessions_expire {default : Id} {s : SessionDataManager T Id}
    (hr : Reach SessionDataManager.step SessionDataManager.Spares (.start default) s) : s.Expiry :=
  (hr.invariant (I := SessionDataManager.Inv) (.start default) fun _ _ _ h hok hs =>
    h.step hok hs).expiry

/-- A session that was not accessed for ten seconds is removed by `check(3)`. -/
theorem sessions_expire_one : ∃ s : SessionDataManager Unit ℕ,
    s.removals = [⟨10, 3, 0⟩] ∧ s.datas.lookup 7 = none ∧ s.Expiry := by
  have hadded : Reach SessionDataManager.step SessionDataManager.Spares
      (.start 0 : SessionDataManager Unit ℕ) _ :=
    (Reach.refl.tail (a := SessionDataManager.Label.create 7) trivial rfl).tail
      (a := SessionDataManager.Label.add 0) (fun _ _ ⟨_, _, h, _⟩ => nomatch h) rfl
  have hscanned := ((hadded.tail (a := SessionDataManager.Label.tick 10) trivial rfl).tail
    (a := SessionDataManager.Label.check () 3) trivial rfl).tail
      (a := SessionDataManager.Label.next ()) (fun _ _ h => by cases h; exact Or.inl (by decide)) rfl
  have hr := hscanned.tail (a := SessionDataManager.Label.next ()) (fun _ _ h => nomatch h) rfl
  exact ⟨_, by decide, by decide, sessions_expire hr⟩

/-- Between the scan of `check(3)` and its deletion the session is returned by `get`. -/
theorem not_sessions_expire : ¬∀ (s : SessionDataManager Unit ℕ),
    Reach SessionDataManager.step free (.start 0) s → s.Expiry := by
  intro h
  have hr := reach_exec SessionDataManager.step free (.start 0 : SessionDataManager Unit ℕ)
    [.create 7, .add 0, .tick 10, .check () 3, .next (), .get 7, .next ()] (by decide)
  exact absurd (h _ hr ⟨10, 3, 10⟩ (by decide)) (by decide)

end CoroutineScheduler.Http

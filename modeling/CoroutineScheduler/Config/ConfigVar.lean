import CoroutineScheduler.Lib.OrderedMap

/-!
# Configuration items

`ConfigVar<T>`: a value, and the listeners that `setValue` calls with the old and the new value
before it stores the new one. A conversion and a listener may throw; `fromString` catches what is a
`std::exception`. Every call of a listener is kept with whether it returned. A listener does not
change the item it is called for.

`Atomic` is what an update should be, `atomic_iff` says when it is one.
-/

namespace CoroutineScheduler.Config

/-- What is thrown: a `std::exception`, or something else. -/
inductive Thrown
  | standard
  | other
  deriving DecidableEq, Repr

/-- `on_change_cb`: what it throws on an old and a new value. -/
abbrev Listener (T : Type*) := T → T → Option Thrown

/-- `ConfigVar`. -/
structure ConfigVar (T : Type*) where
  val : T
  cbs : OrderedMap (id : ℕ → ℕ) (Listener T) := ∅

/-- A call of a listener. -/
structure Call (T : Type*) where
  key : ℕ
  old : T
  new : T
  returned : Bool
  deriving DecidableEq, Repr

section
variable {T : Type*}

/-- `addListener` with the last value of `s_fun_id`: the key, and the item. -/
def addListener (funId : ℕ) (x : ConfigVar T) (cb : Listener T) : ℕ × ConfigVar T :=
  let funId := (funId + 1) % 2 ^ 64
  (funId, { x with cbs := x.cbs.set funId cb })

def delListener (x : ConfigVar T) (key : ℕ) : ConfigVar T := { x with cbs := x.cbs.erase key }

def getListener (x : ConfigVar T) (key : ℕ) : Option (Listener T) := x.cbs.find key

def clearListener (x : ConfigVar T) : ConfigVar T := { x with cbs := ∅ }

theorem getListener_addListener (funId key : ℕ) (x : ConfigVar T) (cb : Listener T) :
    getListener (addListener funId x cb).2 key =
      if key = (addListener funId x cb).1 then some cb else getListener x key := by
  unfold getListener addListener OrderedMap.find
  rw [OrderedMap.entry_set, apply_ite (Option.map Prod.snd)]
  rfl

theorem getListener_delListener (x : ConfigVar T) (key key' : ℕ) :
    getListener (delListener x key) key' = if key' = key then none else getListener x key' := by
  unfold getListener delListener OrderedMap.find
  rw [OrderedMap.entry_erase, apply_ite (Option.map Prod.snd)]
  rfl

theorem getListener_clearListener (x : ConfigVar T) (key : ℕ) :
    getListener (clearListener x) key = none := rfl

/-- The calls of some listeners up to the first one that throws, and what it throws. -/
def callAll (old new : T) : List (ℕ × Listener T) → List (Call T) × Option Thrown
  | [] => ([], none)
  | (key, cb) :: cbs =>
    match cb old new with
    | some e => ([⟨key, old, new, false⟩], some e)
    | none => (⟨key, old, new, true⟩ :: (callAll old new cbs).1, (callAll old new cbs).2)

/-- `setValue`: the item behind it, the calls, and what is thrown. -/
def setValue [BEq T] (x : ConfigVar T) (v : T) : ConfigVar T × List (Call T) × Option Thrown :=
  if v == x.val then (x, [], none)
  else
    let r := callAll x.val v x.cbs.entries
    match r.2 with
    | some e => (x, r.1, some e)
    | none => ({ x with val := v }, r.1, none)

/-- The `catch` of `fromString`. -/
def caught : Thrown → Except Thrown Bool
  | .standard => .ok false
  | .other => .error .other

/-- `fromString`: the item behind it, the calls, and what is returned or thrown. -/
def fromString [BEq T] (fromStr : List UInt8 → Except Thrown T) (x : ConfigVar T)
    (val : List UInt8) : ConfigVar T × List (Call T) × Except Thrown Bool :=
  match fromStr val with
  | .error e => (x, [], caught e)
  | .ok v =>
    let r := setValue x v
    (r.1, r.2.1, match r.2.2 with
      | some e => caught e
      | none => .ok false)

end

/-! ## Atomic updates -/

section
variable {T : Type*} [BEq T] (fromStr : List UInt8 → Except Thrown T) (x : ConfigVar T)
  (val : List UInt8)

/-- The text is a value, the item has it, and every listener was called once if it is another one. -/
def Updated : Prop :=
  ∃ v, fromStr val = .ok v ∧
    ((fromString fromStr x val).1.val = v ∨ (v == (fromString fromStr x val).1.val) = true) ∧
    (fromString fromStr x val).2.1 =
      if v == x.val then [] else x.cbs.entries.map fun e => ⟨e.1, x.val, v, true⟩

/-- The text is no value, or a listener throws. -/
def Failed : Prop :=
  (∃ e, fromStr val = .error e) ∨ ∃ c ∈ (fromString fromStr x val).2.1, c.returned = false

/-- An update happens or not, and is reported. -/
structure Atomic : Prop where
  reported : (fromString fromStr x val).2.2 = .ok true ↔ Updated fromStr x val
  failed : Failed fromStr x val → (fromString fromStr x val).2.2 = .ok false ∧
    (fromString fromStr x val).1.val = x.val ∧
    ∀ c ∈ (fromString fromStr x val).2.1, c.returned = false

/-- The conversion throws a `std::exception`, or the first listener does so on another value. -/
def FailsFirst : Prop :=
  fromStr val = .error .standard ∨
    ∃ v key cb cbs, fromStr val = .ok v ∧ (v == x.val) = false ∧
      x.cbs.entries = (key, cb) :: cbs ∧ cb x.val v = some .standard

end

section
variable {T : Type*} {old new : T} {cbs : List (ℕ × Listener T)}

/-- No listener throws: each is called. -/
theorem callAll_none (h : (callAll old new cbs).2 = none) :
    (callAll old new cbs).1 = cbs.map fun e => ⟨e.1, old, new, true⟩ := by
  induction cbs with
  | nil => rfl
  | cons e cbs ih =>
    obtain ⟨key, cb⟩ := e
    unfold callAll at h ⊢
    cases hcb : cb old new with
    | some t =>
      rw [hcb] at h
      cases h
    | none =>
      rw [hcb] at h
      exact congrArg _ (ih h)

theorem callAll_some {e : Thrown} (h : (callAll old new cbs).2 = some e) :
    ∃ c ∈ (callAll old new cbs).1, c.returned = false := by
  induction cbs with
  | nil => cases h
  | cons d cbs ih =>
    obtain ⟨key, cb⟩ := d
    unfold callAll at h ⊢
    cases hcb : cb old new with
    | some t => exact ⟨_, List.mem_singleton_self _, rfl⟩
    | none =>
      rw [hcb] at h
      obtain ⟨c, hc, hret⟩ := ih h
      exact ⟨c, List.mem_cons_of_mem _ hc, hret⟩

/-- No call has returned when a listener throws: it is the first one. -/
theorem callAll_first {e : Thrown} (h : (callAll old new cbs).2 = some e) :
    (∀ c ∈ (callAll old new cbs).1, c.returned = false) ↔
      ∃ key cb cbs', cbs = (key, cb) :: cbs' ∧ cb old new = some e := by
  cases cbs with
  | nil => cases h
  | cons d cbs =>
    obtain ⟨key, cb⟩ := d
    unfold callAll at h ⊢
    cases hcb : cb old new with
    | some t =>
      rw [hcb] at h
      cases h
      refine iff_of_true (fun c hc => ?_) ⟨key, cb, cbs, rfl, hcb⟩
      rw [List.mem_singleton.1 hc]
    | none =>
      refine iff_of_false (fun hall => ?_) ?_
      · cases hall _ (List.mem_cons_self ..)
      · rintro ⟨key', cb', cbs', heq, he⟩
        cases heq
        rw [hcb] at he
        cases he

variable [BEq T] {fromStr : List UInt8 → Except Thrown T} {x : ConfigVar T} {val : List UInt8}

theorem setValue_same {v : T} (h : (v == x.val) = true) : setValue x v = (x, [], none) := if_pos h

theorem setValue_other {v : T} (h : (v == x.val) = false) :
    setValue x v =
      match (callAll x.val v x.cbs.entries).2 with
      | some e => (x, (callAll x.val v x.cbs.entries).1, some e)
      | none => ({ x with val := v }, (callAll x.val v x.cbs.entries).1, none) := by
  unfold setValue
  rw [h]
  rfl

theorem fromString_error {e : Thrown} (h : fromStr val = .error e) :
    fromString fromStr x val = (x, [], caught e) := by
  unfold fromString
  rw [h]

theorem fromString_ok {v : T} {r : ConfigVar T × List (Call T) × Option Thrown}
    (h : fromStr val = .ok v) (hr : setValue x v = r) :
    fromString fromStr x val = (r.1, r.2.1, match r.2.2 with
      | some e => caught e
      | none => .ok false) := by
  unfold fromString
  rw [h, ← hr]

theorem caught_ne_true (e : Thrown) : caught e ≠ .ok true := by
  cases e <;> exact nofun

/-- No path of `fromString` returns `true`. -/
theorem fromString_not_true (fromStr : List UInt8 → Except Thrown T) (x : ConfigVar T)
    (val : List UInt8) : (fromString fromStr x val).2.2 ≠ .ok true := by
  cases hconv : fromStr val with
  | error e =>
    rw [fromString_error hconv]
    exact caught_ne_true e
  | ok v =>
    rw [fromString_ok hconv rfl]
    dsimp only
    split
    · exact caught_ne_true _
    · exact nofun

/-- A text that is no value. -/
theorem atomic_error {e : Thrown} (h : fromStr val = .error e) :
    Atomic fromStr x val ↔ e = .standard := by
  have hfrom := fromString_error (x := x) h
  constructor
  · intro ha
    have hret := (ha.failed (.inl ⟨e, h⟩)).1
    rw [hfrom] at hret
    cases e with
    | standard => rfl
    | other => cases hret
  · rintro rfl
    refine ⟨iff_of_false (fromString_not_true _ _ _) ?_, fun _ => ?_⟩
    · rintro ⟨v, hv, -⟩
      rw [h] at hv
      cases hv
    · rw [hfrom]
      exact ⟨rfl, rfl, fun c hc => absurd hc List.not_mem_nil⟩

/-- A value that is stored, or that is there already, is not reported. -/
theorem not_atomic_ok {v : T} (h : fromStr val = .ok v)
    (hset : (v == x.val) = true ∨ (callAll x.val v x.cbs.entries).2 = none) :
    ¬ Atomic fromStr x val := by
  intro ha
  refine fromString_not_true fromStr x val (ha.reported.2 ⟨v, h, ?_⟩)
  cases hsame : v == x.val with
  | true =>
    rw [fromString_ok h (setValue_same hsame)]
    exact ⟨.inr hsame, rfl⟩
  | false =>
    have hnone : (callAll x.val v x.cbs.entries).2 = none :=
      hset.resolve_left (by rw [hsame]; exact Bool.false_ne_true)
    have heq := setValue_other hsame
    rw [hnone] at heq
    rw [fromString_ok h heq]
    exact ⟨.inl rfl, callAll_none hnone⟩

/-- A listener that throws on another value. -/
theorem atomic_thrown {v : T} {e : Thrown} (h : fromStr val = .ok v) (hsame : (v == x.val) = false)
    (hcalls : (callAll x.val v x.cbs.entries).2 = some e) :
    Atomic fromStr x val ↔ e = .standard ∧
      ∃ key cb cbs, x.cbs.entries = (key, cb) :: cbs ∧ cb x.val v = some e := by
  have hset := setValue_other hsame
  rw [hcalls] at hset
  have hfrom := fromString_ok h hset
  rw [← callAll_first hcalls]
  constructor
  · intro ha
    obtain ⟨hret, -, hall⟩ := ha.failed (.inr (by rw [hfrom]; exact callAll_some hcalls))
    rw [hfrom] at hret hall
    refine ⟨?_, hall⟩
    cases e with
    | standard => rfl
    | other => cases hret
  · rintro ⟨rfl, hall⟩
    refine ⟨iff_of_false (fromString_not_true _ _ _) ?_, fun _ => ?_⟩
    · rintro ⟨w, hw, -, hmap⟩
      obtain ⟨c, hc, hret⟩ := callAll_some hcalls
      rw [h] at hw
      cases hw
      rw [hfrom, hsame, if_neg Bool.false_ne_true] at hmap
      rw [hmap] at hc
      obtain ⟨d, -, rfl⟩ := List.mem_map.1 hc
      cases hret
    · rw [hfrom]
      exact ⟨rfl, rfl, hall⟩

/-- An update is atomic and reported just if it fails with a `std::exception` before any listener
has returned. -/
theorem atomic_iff (fromStr : List UInt8 → Except Thrown T) (x : ConfigVar T) (val : List UInt8) :
    Atomic fromStr x val ↔ FailsFirst fromStr x val := by
  unfold FailsFirst
  cases hconv : fromStr val with
  | error e =>
    rw [atomic_error hconv]
    simp
  | ok v =>
    cases hsame : v == x.val with
    | true =>
      refine iff_of_false (not_atomic_ok hconv (.inl hsame)) ?_
      rintro (h | ⟨w, key, cb, cbs, hw, hne, -⟩)
      · cases h
      · cases hw
        rw [hsame] at hne
        cases hne
    | false =>
      cases hcalls : (callAll x.val v x.cbs.entries).2 with
      | none =>
        refine iff_of_false (not_atomic_ok hconv (.inr hcalls)) ?_
        rintro (h | ⟨w, key, cb, cbs, hw, -, heq, hthrow⟩)
        · cases h
        · cases hw
          rw [heq, callAll, hthrow] at hcalls
          cases hcalls
      | some e =>
        rw [atomic_thrown hconv hsame hcalls]
        constructor
        · rintro ⟨rfl, key, cb, cbs, heq, hthrow⟩
          exact .inr ⟨v, key, cb, cbs, rfl, hsame, heq, hthrow⟩
        · rintro (h | ⟨w, key, cb, cbs, hw, -, heq, hthrow⟩)
          · cases h
          · cases hw
            rw [heq, callAll, hthrow] at hcalls
            cases hcalls
            exact ⟨rfl, key, cb, cbs, heq, hthrow⟩

/-- Two listeners, of which the second one throws. -/
def twoListeners : ConfigVar ℕ :=
  (addListener 1 (addListener 0 ⟨1, ∅⟩ fun _ _ => none).2 fun _ _ => some .standard).2

/-- The first listener has returned from a change that does not happen. -/
theorem not_atomic_second : ¬ Atomic (fun _ => .ok 2) twoListeners [50] := by
  intro ha
  have hcalls : (fromString (fun _ => .ok 2) twoListeners [50]).2.1 =
      [⟨1, 1, 2, true⟩, ⟨2, 1, 2, false⟩] := by decide
  obtain ⟨-, -, hall⟩ := ha.failed (.inr (by rw [hcalls]; exact ⟨_, List.mem_cons_of_mem _
    (List.mem_singleton_self _), rfl⟩))
  rw [hcalls] at hall
  cases hall _ (List.mem_cons_self ..)

end

end CoroutineScheduler.Config

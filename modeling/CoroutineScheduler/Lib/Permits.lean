import Mathlib.Tactic

/-!
# Permits

What a semaphore keeps: the free permits, and those who wait for one, in the order of their arrival.
A permit that is given back goes to the first of them. `Queued p w` says that the queue holds those
who wait by `w`, each of them once, and that nobody waits while a permit is free.
-/

/-- A counter and its queue. -/
structure Permits (ι : Type*) where
  free : ℕ
  waiters : List ι

namespace Permits

variable {ι : Type*} {p : Permits ι} {w w' : ι → Prop} {i : ι}

/-- Takes a free permit. -/
def take (p : Permits ι) : Permits ι := { p with free := p.free - 1 }

/-- Joins the queue. -/
def wait (p : Permits ι) (i : ι) : Permits ι := { p with waiters := p.waiters ++ [i] }

/-- Gives a permit back, to the first in the queue if there is one. -/
def give (p : Permits ι) : Permits ι :=
  match p.waiters with
  | _ :: ws => { p with waiters := ws }
  | [] => { p with free := p.free + 1 }

@[simp] theorem take_free : p.take.free = p.free - 1 := rfl

@[simp] theorem wait_free : (p.wait i).free = p.free := rfl

theorem give_free_nil (h : p.waiters = []) : p.give.free = p.free + 1 := by
  rw [give, h]

theorem give_free_cons {ws : List ι} (h : p.waiters = i :: ws) : p.give.free = p.free := by
  rw [give, h]

/-- The queue is that of those who wait, and they wait for want of a permit. -/
structure Queued (p : Permits ι) (w : ι → Prop) : Prop where
  nodup : p.waiters.Nodup
  tight : p.waiters ≠ [] → p.free = 0
  mem : ∀ i, i ∈ p.waiters ↔ w i

theorem Queued.congr (h : Queued p w) (hw : ∀ j, w' j ↔ w j) : Queued p w' :=
  ⟨h.nodup, h.tight, fun j => (h.mem j).trans (hw j).symm⟩

theorem Queued.take (h : Queued p w) : Queued p.take w := by
  refine ⟨h.nodup, fun hne => ?_, h.mem⟩
  rw [take_free, h.tight hne]

theorem Queued.wait (h : Queued p w) (hfree : p.free = 0) (hi : ¬ w i)
    (hw : ∀ j, w' j ↔ w j ∨ j = i) : Queued (p.wait i) w' := by
  refine ⟨?_, fun _ => hfree, fun j => ?_⟩
  · have hnot : i ∉ p.waiters := fun hmem => hi ((h.mem i).1 hmem)
    exact List.nodup_append.2 ⟨h.nodup, List.nodup_singleton i, by
      intro a ha b hb
      obtain rfl := List.mem_singleton.1 hb
      exact fun he => hnot (he ▸ ha)⟩
  · rw [hw, ← h.mem]
    simp [Permits.wait]

/-- Nobody was waiting. -/
theorem Queued.give_nil (h : Queued p w) (hnil : p.waiters = []) : Queued p.give w := by
  have hgive : p.give.waiters = p.waiters := by
    rw [give, hnil]
  refine ⟨hgive ▸ h.nodup, fun hne => ?_, hgive ▸ h.mem⟩
  rw [hgive] at hne
  exact absurd hnil hne

/-- The first one waits no more. -/
theorem Queued.give_cons {ws : List ι} (h : Queued p w) (hcons : p.waiters = i :: ws)
    (hw : ∀ j, w' j ↔ w j ∧ j ≠ i) : Queued p.give w' := by
  have hgive : p.give = { p with waiters := ws } := by
    rw [give, hcons]
  have hnodup := h.nodup
  rw [hcons, List.nodup_cons] at hnodup
  rw [hgive]
  refine ⟨hnodup.2, fun _ => ?_, fun j => ?_⟩
  · apply h.tight
    rw [hcons]
    exact List.cons_ne_nil _ _
  · rw [hw, ← h.mem, hcons, List.mem_cons]
    constructor
    · intro hj
      exact ⟨.inr hj, fun he => hnodup.1 (he ▸ hj)⟩
    · rintro ⟨hj | hj, hne⟩
      · exact absurd hj hne
      · exact hj

end Permits

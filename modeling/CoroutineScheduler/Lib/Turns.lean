import Mathlib.Tactic

/-!
# Following a value that changes in turns

A value is `b i` in front of turn `i`, and `b n` after the last one. Somebody keeps a copy of it and
makes the change of each turn later, when he likes, while the turns of `waiting` are still to be
made. `Follows` says that the changes made so far are those of the first turns. Whoever makes a
change only when no earlier one is waiting keeps it (`Follows.change`), and has the value itself once
nothing is waiting (`Follows.eq_of_done`).
-/

namespace Turns

variable {β : Type*} {b b' : ℕ → β} {n k : ℕ} {waiting waiting' : ℕ → Prop} {x : β}

/-- The copy is the value in front of turn `m`: no change before it is waiting, and from there on all
of them are. -/
def Follows (b : ℕ → β) (n : ℕ) (waiting : ℕ → Prop) (x : β) : Prop :=
  ∃ m ≤ n, x = b m ∧ (∀ j < m, waiting j → b (j + 1) = b j) ∧
    ∀ j, m ≤ j → j < n → b (j + 1) ≠ b j → waiting j

theorem follows_start : Follows b 0 waiting (b 0) := by
  refine ⟨0, le_rfl, rfl, fun j hj => ?_, fun j _ hj => ?_⟩
  · exact absurd hj (Nat.not_lt_zero j)
  · exact absurd hj (Nat.not_lt_zero j)

/-- A new turn, which is waiting. -/
theorem Follows.turn (h : Follows b n waiting x) (hb : ∀ j ≤ n, b' j = b j)
    (hw : ∀ j, waiting' j ↔ waiting j ∨ j = n) : Follows b' (n + 1) waiting' x := by
  obtain ⟨m, hm, hx, hmade, hrest⟩ := h
  refine ⟨m, by omega, hx.trans (hb m hm).symm, fun j hj hwait => ?_, fun j hj hjn hne => ?_⟩
  · rw [hb j (by omega), hb (j + 1) (by omega)]
    exact hmade j hj (((hw j).1 hwait).resolve_right (by omega))
  · rw [hw]
    by_cases hjn' : j = n
    · exact .inr hjn'
    · rw [hb j (by omega), hb (j + 1) (by omega)] at hne
      exact .inl (hrest j hj (by omega) hne)

/-- A turn that changes nothing. -/
theorem Follows.skip (h : Follows b n waiting x) (hk : b (k + 1) = b k)
    (hw : ∀ j, waiting' j ↔ waiting j ∧ j ≠ k) : Follows b n waiting' x := by
  obtain ⟨m, hm, hx, hmade, hrest⟩ := h
  refine ⟨m, hm, hx, fun j hj hwait => hmade j hj ((hw j).1 hwait).1, fun j hj hjn hne => ?_⟩
  refine (hw j).2 ⟨hrest j hj hjn hne, ?_⟩
  rintro rfl
  exact hne hk

/-- A change is made in front of which none is waiting. -/
theorem Follows.change (h : Follows b n waiting x) (hk : b (k + 1) ≠ b k) (hkn : k < n)
    (hwait : waiting k) (hfirst : ∀ j < k, waiting j → b (j + 1) = b j)
    (hw : ∀ j, waiting' j ↔ waiting j ∧ j ≠ k) : Follows b n waiting' (b (k + 1)) := by
  obtain ⟨m, -, -, hmade, hrest⟩ := h
  have hmk : m ≤ k := by
    by_contra hlt
    exact hk (hmade k (by omega) hwait)
  refine ⟨k + 1, hkn, rfl, fun j hj hj' => ?_, fun j hj hjn hne => ?_⟩
  · obtain ⟨hjw, hjk⟩ := (hw j).1 hj'
    exact hfirst j (by omega) hjw
  · exact (hw j).2 ⟨hrest j (by omega) hjn hne, by omega⟩

theorem Follows.eq_of_done (h : Follows b n waiting x) (hw : ∀ j, ¬waiting j) : x = b n := by
  obtain ⟨m, hm, rfl, -, hrest⟩ := h
  have hconst : ∀ d, m + d ≤ n → b m = b (m + d) := fun d hd => by
    induction d with
    | zero => rfl
    | succ d ih =>
      rw [ih (by omega)]
      by_contra hne
      exact hw _ (hrest (m + d) (by omega) (by omega) fun heq => hne heq.symm)
  have hall := hconst (n - m) (by omega)
  rwa [Nat.add_sub_cancel' hm] at hall

end Turns

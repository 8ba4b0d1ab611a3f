import Mathlib.Data.List.Nodup
import Mathlib.Tactic.SplitIfs

/-!
# Histories of registrations

A history is a list of entries `(k, v)`: from this entry on, `v` is what is registered for the key
`k`, or nothing when `v` is `none`. `last k` is what a history leaves for one key; `latest` is what it
leaves for all keys, in the order of the entries that count.
-/

namespace History

variable {κ α : Type*} [DecidableEq κ]

/-- What the last entry for the key leaves. -/
def last (k : κ) (es : List (κ × Option α)) : Option α :=
  (es.reverse.find? fun e => e.1 = k).bind Prod.snd

/-- What the entries leave that are the last ones for their keys, in their order. -/
def latest : List (κ × Option α) → List (κ × α)
  | [] => []
  | (k, v) :: es => if k ∈ es.map Prod.fst then latest es else (v.map fun v => (k, v)).toList ++ latest es

theorem last_append (k : κ) (es : List (κ × Option α)) (e : κ × Option α) :
    last k (es ++ [e]) = if e.1 = k then e.2 else last k es := by
  unfold last
  rw [List.reverse_append, List.reverse_singleton, List.singleton_append, List.find?_cons]
  by_cases h : e.1 = k
  · simp [h]
  · simp [h]

theorem mem_latest_fst {k : κ} {es : List (κ × Option α)} (h : k ∈ (latest es).map Prod.fst) :
    k ∈ es.map Prod.fst := by
  induction es with
  | nil => exact h
  | cons e es ih =>
    obtain ⟨j, v⟩ := e
    rw [List.map_cons, List.mem_cons]
    unfold latest at h
    split_ifs at h with hj
    · exact .inr (ih h)
    · cases v with
      | none => exact .inr (ih h)
      | some v =>
        obtain h | h := List.mem_cons.1 h
        · exact .inl h
        · exact .inr (ih h)

/-- Every key is there at most once. -/
theorem nodup_latest (es : List (κ × Option α)) : ((latest es).map Prod.fst).Nodup := by
  induction es with
  | nil => exact List.nodup_nil
  | cons e es ih =>
    obtain ⟨j, v⟩ := e
    unfold latest
    split_ifs with hj
    · exact ih
    · cases v with
      | none => exact ih
      | some v => exact List.nodup_cons.2 ⟨fun h => hj (mem_latest_fst h), ih⟩

/-- One more entry: the key is taken out, and what is registered for it comes last. -/
theorem latest_append (es : List (κ × Option α)) (k : κ) (v : Option α) :
    latest (es ++ [(k, v)]) =
      (latest es).filter (fun e => e.1 ≠ k) ++ (v.map fun v => (k, v)).toList := by
  induction es with
  | nil => cases v <;> rfl
  | cons e es ih =>
    obtain ⟨j, w⟩ := e
    have hmem : j ∈ (es ++ [(k, v)]).map Prod.fst ↔ j ∈ es.map Prod.fst ∨ j = k := by simp
    rw [List.cons_append, latest, latest, ih]
    by_cases hj : j ∈ es.map Prod.fst
    · rw [if_pos (hmem.2 (.inl hj)), if_pos hj]
    · rw [if_neg hj]
      by_cases hk : j = k
      · rw [if_pos (hmem.2 (.inr hk)), List.filter_append]
        cases w with
        | none => rfl
        | some w => simp [hk]
      · rw [if_neg fun h => (hmem.1 h).elim hj hk, List.filter_append, List.append_assoc]
        cases w with
        | none => rfl
        | some w => simp [hk]

end History

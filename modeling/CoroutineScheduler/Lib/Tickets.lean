import Mathlib.Tactic
import Mathlib.Data.List.InsertIdx
import Mathlib.Data.List.Range

/-!
# Tickets

The abstract account of a queue from which entries may be taken out of the middle. The `k`-th entry
ever appended holds ticket `k`; `waiting` lists the tickets of the entries in the queue, `served`
those of the entries taken out, in the order in which they were taken.

`Valid` says that each ticket issued is waiting or has been served, once, and that the queue is in
the order of issue. `Holds xs t q` says that the queue `q` consists of the entries of `xs` (all
that were ever appended) whose tickets are waiting.
-/

/-- The tickets issued, and which of them wait and which are served. -/
structure Tickets where
  issued : ℕ
  waiting : List ℕ
  served : List ℕ
  deriving DecidableEq, Repr

namespace Tickets

def empty : Tickets := ⟨0, [], []⟩

/-- Issue `k` more tickets. -/
def issue (t : Tickets) (k : ℕ) : Tickets :=
  ⟨t.issued + k, t.waiting ++ List.range' t.issued k, t.served⟩

/-- Serve the ticket in position `i` of the queue. -/
def serve (t : Tickets) (i : ℕ) : Tickets :=
  match t.waiting[i]? with
  | some n => ⟨t.issued, t.waiting.eraseIdx i, t.served ++ [n]⟩
  | none => t

/-- Each ticket is waiting or served, once, and the waiting ones are in the order of issue. -/
structure Valid (t : Tickets) : Prop where
  order : t.waiting.Pairwise (· < ·)
  once : (t.waiting ++ t.served).Perm (List.range t.issued)

theorem valid_empty : empty.Valid := ⟨List.Pairwise.nil, List.Perm.refl _⟩

theorem Valid.lt_of_waiting {t : Tickets} (h : t.Valid) {n : ℕ} (hn : n ∈ t.waiting) :
    n < t.issued :=
  List.mem_range.1 (h.once.subset (List.mem_append_left _ hn))

theorem Valid.issue {t : Tickets} (h : t.Valid) (k : ℕ) : (t.issue k).Valid := by
  constructor
  · refine List.pairwise_append.2 ⟨h.order, List.pairwise_lt_range', ?_⟩
    intro a ha b hb
    have := h.lt_of_waiting ha
    have := (List.mem_range'_1.1 hb).1
    omega
  · show (t.waiting ++ List.range' t.issued k ++ t.served).Perm (List.range (t.issued + k))
    rw [List.range_add, List.range'_eq_map_range, List.append_assoc]
    refine (List.Perm.append_left _ List.perm_append_comm).trans ?_
    rw [← List.append_assoc]
    exact h.once.append_right _

theorem Valid.serve {t : Tickets} (h : t.Valid) (i : ℕ) : (t.serve i).Valid := by
  unfold Tickets.serve
  split
  · next n hn =>
    constructor
    · exact h.order.sublist (List.eraseIdx_sublist _ _)
    · obtain ⟨hi, rfl⟩ := List.getElem?_eq_some_iff.1 hn
      have hp : (t.waiting[i] :: t.waiting.eraseIdx i).Perm t.waiting :=
        List.getElem_cons_eraseIdx_perm hi
      refine List.Perm.trans ?_ h.once
      show (t.waiting.eraseIdx i ++ (t.served ++ [t.waiting[i]])).Perm _
      rw [← List.append_assoc]
      exact (List.perm_append_singleton _ _).trans (hp.append_right t.served)
  · exact h

section Holds

variable {α : Type*} {xs ys q : List α} {t : Tickets}

/-- The queue `q` is made of the entries of `xs` whose tickets wait. -/
def Holds (xs : List α) (t : Tickets) (q : List α) : Prop :=
  q.map some = t.waiting.map (xs[·]?)

theorem Holds.mem (h : Holds xs t q) {x : α} (hx : x ∈ q) : x ∈ xs := by
  have hm : some x ∈ t.waiting.map (xs[·]?) := h ▸ List.mem_map_of_mem hx
  obtain ⟨n, -, hn⟩ := List.mem_map.1 hm
  exact List.mem_of_getElem? hn

theorem Holds.length (h : Holds xs t q) : t.waiting.length = q.length := by
  have := congrArg List.length h
  simpa using this.symm

theorem Holds.getElem? (h : Holds xs t q) {i n : ℕ} (hn : t.waiting[i]? = some n) :
    q[i]? = xs[n]? := by
  have hi : (q.map some)[i]? = (t.waiting.map (xs[·]?))[i]? := by rw [h]
  rw [List.getElem?_map, List.getElem?_map, hn, Option.map_some] at hi
  cases hq : q[i]? with
  | none => rw [hq] at hi; cases hi
  | some x => rw [hq] at hi; exact Option.some.inj hi

theorem Holds.issue (hv : t.Valid) (hlen : t.issued = xs.length) (h : Holds xs t q) :
    Holds (xs ++ ys) (t.issue ys.length) (q ++ ys) := by
  unfold Holds Tickets.issue at *
  rw [List.map_append, List.map_append, h]
  congr 1
  · refine List.map_congr_left fun n hn => ?_
    have := hv.lt_of_waiting hn
    rw [List.getElem?_append_left (by omega)]
  · apply List.ext_getElem
    · simp
    · intro i h₁ h₂
      simp only [List.length_map] at h₁
      simp only [List.getElem_map, List.getElem_range', Nat.one_mul]
      rw [List.getElem?_append_right (by omega), hlen, Nat.add_sub_cancel_left,
        List.getElem?_eq_getElem h₁]

theorem Holds.serve (h : Holds xs t q) (i : ℕ) : Holds xs (t.serve i) (q.eraseIdx i) := by
  unfold Tickets.serve
  split
  · unfold Holds at *
    rw [← List.eraseIdx_map, ← List.eraseIdx_map, h]
  · next hn =>
    have hi : q.length ≤ i := by
      rw [← h.length]
      exact List.getElem?_eq_none_iff.1 hn
    rwa [List.eraseIdx_of_length_le hi]

end Holds

end Tickets

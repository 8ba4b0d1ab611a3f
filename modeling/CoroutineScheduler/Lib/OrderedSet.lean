import Mathlib.Data.List.Basic
import Mathlib.Data.List.Nodup

/-!
# Ordered sets

A set ordered by a comparator `lt`, as the list of its elements in order: what a search tree with
this comparator does, as long as its elements are in order when it is called. Positions are indices;
the position past the last element is not one (`none`).

1. `insert`: the elements stay in order, and the new one is among them (`mem_insert_of_not_mem`,
   `sorted_insert`).
2. `find`: an element of the set is found, at its own position (`find_of_mem`).
-/

namespace OrderedSet

variable {α : Type*}

/-- `lt` is a strict total order. -/
structure Strict (lt : α → α → Bool) : Prop where
  irrefl : ∀ x, lt x x = false
  trans : ∀ x y z, lt x y = true → lt y z = true → lt x z = true
  total : ∀ x y, x ≠ y → lt x y = true ∨ lt y x = true

/-- `lt` orders `xs` strictly. -/
def Sorted (lt : α → α → Bool) (xs : List α) : Prop := xs.Pairwise fun x y => lt x y = true

/-- `insert`: nothing happens when an equivalent element is there. -/
def insert (lt : α → α → Bool) (x : α) : List α → List α
  | [] => [x]
  | y :: ys => if lt x y then x :: y :: ys else if lt y x then y :: insert lt x ys else y :: ys

/-- `lower_bound`: the position of the first element that is not before `x`. -/
def lowerBound (lt : α → α → Bool) (x : α) (xs : List α) : ℕ := (xs.takeWhile (lt · x)).length

/-- `find`: the position of an element equivalent to `x`. -/
def find (lt : α → α → Bool) (x : α) (xs : List α) : Option ℕ :=
  match xs[lowerBound lt x xs]? with
  | some y => if lt x y then none else some (lowerBound lt x xs)
  | none => none

variable {lt lt' : α → α → Bool} {x y : α} {xs : List α}

theorem Sorted.nodup (h : Strict lt) (hs : Sorted lt xs) : xs.Nodup := by
  refine List.Pairwise.imp ?_ hs
  rintro a b hab rfl
  rw [h.irrefl a] at hab
  cases hab

/-- The order of a set depends on the comparator at its own elements only. -/
theorem Sorted.congr (hs : Sorted lt xs) (h : ∀ x ∈ xs, ∀ y ∈ xs, lt' x y = lt x y) :
    Sorted lt' xs := by
  refine List.Pairwise.imp_of_mem ?_ hs
  intro a b ha hb hab
  rw [h a ha b hb]
  exact hab

theorem mem_insert_of_not_mem (h : Strict lt) (hx : x ∉ xs) :
    y ∈ insert lt x xs ↔ y = x ∨ y ∈ xs := by
  induction xs with
  | nil => simp [insert]
  | cons z zs ih =>
    have hz : x ≠ z := fun he => hx (he ▸ List.mem_cons_self ..)
    have hzs : x ∉ zs := fun he => hx (List.mem_cons_of_mem _ he)
    unfold insert
    by_cases h1 : lt x z = true
    · rw [if_pos h1, List.mem_cons]
    · have h2 : lt z x = true := (h.total x z hz).resolve_left h1
      rw [if_neg h1, if_pos h2, List.mem_cons, ih hzs, List.mem_cons]
      tauto

theorem sorted_insert (h : Strict lt) (hs : Sorted lt xs) (hx : x ∉ xs) :
    Sorted lt (insert lt x xs) := by
  induction xs with
  | nil => exact List.pairwise_singleton _ _
  | cons z zs ih =>
    obtain ⟨hz, hzs⟩ := List.pairwise_cons.1 hs
    have hne : x ≠ z := fun he => hx (he ▸ List.mem_cons_self ..)
    have hn : x ∉ zs := fun he => hx (List.mem_cons_of_mem _ he)
    unfold insert
    by_cases h1 : lt x z = true
    · rw [if_pos h1]
      refine List.pairwise_cons.2 ⟨fun y hy => ?_, hs⟩
      rcases List.mem_cons.1 hy with rfl | hy
      · exact h1
      · exact h.trans x z y h1 (hz y hy)
    · have h2 : lt z x = true := (h.total x z hne).resolve_left h1
      rw [if_neg h1, if_pos h2]
      refine List.pairwise_cons.2 ⟨fun y hy => ?_, ih hzs hn⟩
      rcases (mem_insert_of_not_mem h hn).1 hy with rfl | hy
      · exact h2
      · exact hz y hy

/-- The elements before `x` in the set are those in front of it. -/
theorem takeWhile_of_sorted (h : Strict lt) {pre post : List α}
    (hs : Sorted lt (pre ++ x :: post)) : (pre ++ x :: post).takeWhile (lt · x) = pre := by
  have hpre : ∀ y ∈ pre, lt y x = true := fun y hy =>
    (List.pairwise_append.1 hs).2.2 y hy x (List.mem_cons_self ..)
  rw [List.takeWhile_append_of_pos hpre]
  simp [h.irrefl]

/-- An element of the set is found, at its own position. -/
theorem find_of_mem (h : Strict lt) (hs : Sorted lt xs) (hx : x ∈ xs) :
    ∃ pre post, xs = pre ++ x :: post ∧ find lt x xs = some pre.length := by
  obtain ⟨pre, post, rfl⟩ := List.append_of_mem hx
  refine ⟨pre, post, rfl, ?_⟩
  have hl : lowerBound lt x (pre ++ x :: post) = pre.length := by
    rw [lowerBound, takeWhile_of_sorted h hs]
  unfold find
  rw [hl, List.getElem?_append_right (Nat.le_refl _), Nat.sub_self]
  simp [h.irrefl]

end OrderedSet

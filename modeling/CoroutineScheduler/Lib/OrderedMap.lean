import Mathlib.Tactic

/-!
# Ordered maps with a view of their keys

A map ordered by a view `f` of its keys, as the list of its entries in order: two keys with the same
view are the same to the map, which keeps the spelling that came first. This is what a search tree
does whose comparator looks at its keys through `f`.

`entry c m` is the entry under the view `c`. Two maps with the same entries are equal (`ext_entry`),
and every operation is known by what it does to the entries (`entry_insert`, `entry_set`,
`entry_erase`, `entry_insertAll`).
-/

/-- The entries of a map, in the order of the view `f` of their keys. -/
structure OrderedMap {α κ : Type*} [LT κ] (f : α → κ) (β : Type*) where
  entries : List (α × β)
  sorted : entries.Pairwise fun a b => f a.1 < f b.1

namespace OrderedMap

variable {α β κ : Type*} {f : α → κ}

section
variable [DecidableEq κ] {c : κ} {e : α × β} {l l' : List (α × β)}

/-- The first entry under the view `c`. -/
def first (f : α → κ) (c : κ) (l : List (α × β)) : Option (α × β) := l.find? fun e => f e.1 = c

theorem view_of_first (h : first f c l = some e) : f e.1 = c := by
  simpa using List.find?_some h

theorem first_cons_self : first f (f e.1) (e :: l) = some e := List.find?_cons_of_pos (by simp)

theorem first_cons_ne (h : f e.1 ≠ c) : first f c (e :: l) = first f c l :=
  List.find?_cons_of_neg (by simpa using h)

theorem first_eq_none : first f c l = none ↔ ∀ e ∈ l, f e.1 ≠ c := by
  simp [first]

theorem first_isSome_of_mem (h : e ∈ l) : (first f (f e.1) l).isSome := by
  rw [Option.isSome_iff_ne_none]
  exact fun hnone => first_eq_none.1 hnone e h rfl

theorem first_append : first f c (l ++ l') = (first f c l).or (first f c l') := List.find?_append

end

variable [LT κ]

theorem view_eq [@Std.Trichotomous κ (· < ·)] {a b : κ} (h : ¬a < b) (h' : ¬b < a) : a = b := by
  rcases Std.lt_trichotomy a b with hlt | heq | hlt
  · exact absurd hlt h
  · exact heq
  · exact absurd hlt h'

section
variable [DecidableLT κ]

/-- A value for a key: a new entry, or `g` on the value of the entry that is there. -/
def upsert (f : α → κ) (g : β → β) (k : α) (v : β) : List (α × β) → List (α × β)
  | [] => [(k, v)]
  | e :: m =>
    if f k < f e.1 then (k, v) :: e :: m
    else if f e.1 < f k then e :: upsert f g k v m
    else (e.1, g e.2) :: m

variable {g : β → β} {k : α} {v : β} {e : α × β} {l : List (α × β)}

theorem view_of_mem_upsert (h : e ∈ upsert f g k v l) : f e.1 = f k ∨ ∃ d ∈ l, f e.1 = f d.1 := by
  induction l with
  | nil =>
    rw [upsert, List.mem_singleton] at h
    exact Or.inl (by rw [h])
  | cons d l ih =>
    unfold upsert at h
    split_ifs at h
    · rcases List.mem_cons.1 h with rfl | h
      · exact Or.inl rfl
      · exact Or.inr ⟨e, h, rfl⟩
    · rcases List.mem_cons.1 h with rfl | h
      · exact Or.inr ⟨e, List.mem_cons_self .., rfl⟩
      · exact (ih h).imp_right fun ⟨d, hd, he⟩ => ⟨d, List.mem_cons_of_mem _ hd, he⟩
    · rcases List.mem_cons.1 h with rfl | h
      · exact Or.inr ⟨d, List.mem_cons_self .., rfl⟩
      · exact Or.inr ⟨e, List.mem_cons_of_mem _ h, rfl⟩

/-- A value for a new key is a new entry. -/
theorem perm_upsert [@Std.Trichotomous κ (· < ·)] (h : ∀ e ∈ l, f e.1 ≠ f k) :
    (upsert f g k v l).Perm ((k, v) :: l) := by
  induction l with
  | nil => exact List.Perm.refl _
  | cons d l ih =>
    obtain ⟨hd, hl⟩ := List.forall_mem_cons.1 h
    unfold upsert
    split_ifs with h1 h2
    · exact List.Perm.refl _
    · exact ((ih hl).cons d).trans (List.Perm.swap ..)
    · exact absurd (view_eq h2 h1) hd

variable [@Trans κ κ κ (· < ·) (· < ·) (· < ·)]

theorem pairwise_upsert (hl : l.Pairwise fun a b => f a.1 < f b.1) :
    (upsert f g k v l).Pairwise fun a b => f a.1 < f b.1 := by
  induction l with
  | nil => exact List.pairwise_singleton _ _
  | cons d l ih =>
    obtain ⟨hd, hl'⟩ := List.pairwise_cons.1 hl
    unfold upsert
    split_ifs with h1 h2
    · refine List.pairwise_cons.2 ⟨fun e he => ?_, hl⟩
      rcases List.mem_cons.1 he with rfl | he
      · exact h1
      · exact Std.lt_trans h1 (hd e he)
    · refine List.pairwise_cons.2 ⟨fun e he => ?_, ih hl'⟩
      rcases view_of_mem_upsert he with heq | ⟨c, hc, heq⟩
      · rw [heq]
        exact h2
      · rw [heq]
        exact hd c hc
    · exact List.pairwise_cons.2 ⟨hd, hl'⟩

/-- `m.insert({key, value})`: nothing happens when the key is there. -/
def insert (k : α) (v : β) (m : OrderedMap f β) : OrderedMap f β :=
  ⟨upsert f id k v m.entries, pairwise_upsert m.sorted⟩

/-- `m[key] = value`: the key keeps its spelling when it is there. -/
def set (k : α) (v : β) (m : OrderedMap f β) : OrderedMap f β :=
  ⟨upsert f (fun _ => v) k v m.entries, pairwise_upsert m.sorted⟩

/-- The insertion of one entry after the other. -/
def insertAll (l : List (α × β)) (m : OrderedMap f β) : OrderedMap f β :=
  l.foldl (fun m e => m.insert e.1 e.2) m

end

instance : EmptyCollection (OrderedMap f β) := ⟨⟨[], List.Pairwise.nil⟩⟩

variable [DecidableEq κ]

instance [DecidableEq α] [DecidableEq β] : DecidableEq (OrderedMap f β) := fun m m' =>
  decidable_of_iff (m.entries = m'.entries) (by cases m; cases m'; simp)

/-- `m.erase(key)`. -/
def erase (k : α) (m : OrderedMap f β) : OrderedMap f β :=
  ⟨m.entries.filter fun e => f e.1 ≠ f k, m.sorted.filter _⟩

/-- The entry under the view `c`. -/
def entry (c : κ) (m : OrderedMap f β) : Option (α × β) := first f c m.entries

/-- `m.find(key)`. -/
def find (k : α) (m : OrderedMap f β) : Option β := (m.entry (f k)).map Prod.snd

variable {c : κ} {k : α} {v : β} {e : α × β} {l l' : List (α × β)} {m m' : OrderedMap f β}

@[simp] theorem entry_empty : (∅ : OrderedMap f β).entry c = none := rfl

section
variable [@Std.Irrefl κ (· < ·)]

theorem first_of_mem (hl : l.Pairwise fun a b => f a.1 < f b.1) (he : e ∈ l) :
    first f (f e.1) l = some e := by
  induction l with
  | nil => cases he
  | cons d l ih =>
    obtain ⟨hd, hl'⟩ := List.pairwise_cons.1 hl
    rcases List.mem_cons.1 he with rfl | he
    · exact first_cons_self
    · rw [first_cons_ne (Std.ne_of_lt (hd e he)), ih hl' he]

theorem entry_eq_some : m.entry c = some e ↔ e ∈ m.entries ∧ f e.1 = c := by
  constructor
  · intro h
    exact ⟨List.mem_of_find?_eq_some h, view_of_first h⟩
  · rintro ⟨he, rfl⟩
    exact first_of_mem m.sorted he

/-- Maps with the same entries are equal. -/
theorem ext_entry [@Std.Asymm κ (· < ·)] (h : ∀ c, m.entry c = m'.entry c) : m = m' := by
  have hmem : ∀ e, e ∈ m.entries ↔ e ∈ m'.entries := fun e => by
    have hm : e ∈ m.entries ↔ m.entry (f e.1) = some e := by simp [entry_eq_some]
    have hm' : e ∈ m'.entries ↔ m'.entry (f e.1) = some e := by simp [entry_eq_some]
    rw [hm, hm', h]
  have hperm : m.entries.Perm m'.entries := by
    refine (List.perm_ext_iff_of_nodup ?_ ?_).2 hmem
    · exact m.sorted.imp fun h he => Std.ne_of_lt h (congrArg (f ∘ Prod.fst) he)
    · exact m'.sorted.imp fun h he => Std.ne_of_lt h (congrArg (f ∘ Prod.fst) he)
  have heq : m.entries = m'.entries :=
    hperm.eq_of_pairwise (fun a b _ _ hab hba => absurd hba (Std.not_gt_of_lt hab)) m.sorted m'.sorted
  cases m
  cases m'
  simp only at heq
  rw [OrderedMap.mk.injEq, heq]

end

theorem entry_erase (k : α) : (m.erase k).entry c = if c = f k then none else m.entry c := by
  rw [entry, erase, first, List.find?_filter]
  split_ifs with h
  · subst h
    simp
  · unfold entry first
    congr 1
    funext e
    by_cases he : f e.1 = c
    · simp [he, h]
    · simp [he]

section
variable [DecidableLT κ] [@Trans κ κ κ (· < ·) (· < ·) (· < ·)] [@Std.Trichotomous κ (· < ·)]
  [@Std.Irrefl κ (· < ·)]

theorem first_upsert {g : β → β} (hl : l.Pairwise fun a b => f a.1 < f b.1) :
    first f c (upsert f g k v l) =
      if c = f k then some (((first f c l).map fun e => (e.1, g e.2)).getD (k, v)) else first f c l := by
  induction l with
  | nil =>
    by_cases hc : f k = c
    · simp [upsert, first, hc]
    · simp [upsert, first, hc, Ne.symm hc]
  | cons d l ih =>
    obtain ⟨hd, hl'⟩ := List.pairwise_cons.1 hl
    by_cases h1 : f k < f d.1
    · -- in front of every entry: none of them has the view of the key
      have hnone : first f (f k) (d :: l) = none := first_eq_none.2 fun e he => by
        rcases List.mem_cons.1 he with rfl | he
        · exact (Std.ne_of_lt h1).symm
        · exact (Std.ne_of_lt (Std.lt_trans h1 (hd e he))).symm
      rw [upsert, if_pos h1]
      split_ifs with hc
      · rw [hc, hnone]
        exact first_cons_self
      · exact first_cons_ne (Ne.symm hc)
    by_cases h2 : f d.1 < f k
    · rw [upsert, if_neg h1, if_pos h2]
      by_cases hd' : f d.1 = c
      · rw [if_neg (fun hc => Std.ne_of_lt h2 (hd'.trans hc)), ← hd', first_cons_self,
          first_cons_self]
      · rw [first_cons_ne hd', first_cons_ne hd', ih hl']
    · have heq : f k = f d.1 := view_eq h1 h2
      rw [upsert, if_neg h1, if_neg h2, heq]
      split_ifs with hc
      · rw [hc, first_cons_self]
        exact first_cons_self
      · rw [first_cons_ne (Ne.symm hc)]
        exact first_cons_ne (Ne.symm hc)

theorem entry_insert (k : α) (v : β) :
    (m.insert k v).entry c = if c = f k then some ((m.entry c).getD (k, v)) else m.entry c := by
  rw [entry, insert, first_upsert m.sorted]
  simp [entry]

theorem entry_set (k : α) (v : β) :
    (m.set k v).entry c =
      if c = f k then some (((m.entry c).map Prod.fst).getD k, v) else m.entry c := by
  rw [entry, set, first_upsert m.sorted]
  cases h : first f c m.entries <;> simp [entry, h]

/-- What is there stays, and of the new entries with one view the first counts. -/
theorem entry_insertAll (l : List (α × β)) :
    (m.insertAll l).entry c = (m.entry c).or (first f c l) := by
  induction l generalizing m with
  | nil => simp [insertAll, first]
  | cons e l ih =>
    have hstep : m.insertAll (e :: l) = (m.insert e.1 e.2).insertAll l := rfl
    rw [hstep, ih, entry_insert]
    split_ifs with hc
    · subst hc
      rw [first_cons_self]
      cases m.entry (f e.1) <;> rfl
    · rw [first_cons_ne (Ne.symm hc)]

variable [@Std.Asymm κ (· < ·)]

theorem insertAll_eq_self_iff :
    m.insertAll l = m ↔ ∀ e ∈ l, (m.entry (f e.1)).isSome := by
  constructor
  · intro h e he
    have hentry := entry_insertAll (c := f e.1) (m := m) l
    rw [h] at hentry
    rw [hentry, Option.isSome_or, first_isSome_of_mem he, Bool.or_true]
  · intro h
    refine ext_entry fun c => ?_
    rw [entry_insertAll]
    cases hm : m.entry c with
    | some d => rfl
    | none =>
      refine first_eq_none.2 fun e he hview => ?_
      have hsome := h e he
      rw [hview, hm] at hsome
      cases hsome

/-- A key may be set first when it is in the map, or new under the same spelling. -/
theorem set_insertAll (v : β)
    (h : (m.entry (f k)).isSome ∨ ∀ e, first f (f k) l = some e → e.1 = k) :
    (m.insertAll l).set k v = (m.set k v).insertAll l := by
  refine ext_entry fun c => ?_
  rw [entry_set, entry_insertAll, entry_insertAll, entry_set]
  split_ifs with hc
  · subst hc
    cases hm : m.entry (f k) with
    | some d => rfl
    | none =>
      cases hl : first f (f k) l with
      | none => rfl
      | some e =>
        have hk : e.1 = k := h.resolve_left (by simp [hm]) e hl
        simp [hk]
  · rfl

/-- A key may be erased first when it does not come later. -/
theorem erase_insertAll (h : ∀ e ∈ l, f e.1 ≠ f k) :
    (m.insertAll l).erase k = (m.erase k).insertAll l := by
  refine ext_entry fun c => ?_
  rw [entry_erase, entry_insertAll, entry_insertAll, entry_erase]
  split_ifs with hc
  · rw [hc, first_eq_none.2 h]
    rfl
  · rfl

end

end OrderedMap

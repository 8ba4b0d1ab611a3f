import Mathlib.Tactic

/-!
# Overwriting and reading stretches of a list

`patch l i xs` is `l` with the stretch of length `xs.length` at `i` replaced by `xs`, and
`slice l i n` is the stretch of length `n` at `i`: a copy into a buffer and a copy out of it. Both
split along the copied stretch (`patch_append`, `slice_add`) and along the buffer
(`patch_left`, `patch_right`, `slice_left`, `slice_right`), which is what a copy loop over a
buffer that is kept in pieces does.

`Uniform k ps` says that the pieces `ps` all have length `k`.
-/

namespace Splice

variable {α : Type*}

/-- `l` with `xs` written over it from position `i` on. -/
def patch (l : List α) (i : ℕ) (xs : List α) : List α := l.take i ++ (xs ++ l.drop (i + xs.length))

/-- The `n` elements of `l` from position `i` on. -/
def slice (l : List α) (i n : ℕ) : List α := (l.drop i).take n

section
variable {l m xs ys : List α} {i j n k : ℕ}

@[simp] theorem patch_nil : patch l i [] = l := by simp [patch]

@[simp] theorem slice_zero : slice l i 0 = [] := by simp [slice]

@[simp] theorem length_patch (h : i + xs.length ≤ l.length) :
    (patch l i xs).length = l.length := by
  simp only [patch, List.length_append, List.length_take, List.length_drop]
  omega

@[simp] theorem length_slice (h : i + n ≤ l.length) : (slice l i n).length = n := by
  simp only [slice, List.length_take, List.length_drop]
  omega

theorem getElem?_slice (h : j < n) : (slice l i n)[j]? = l[i + j]? := by
  rw [slice, List.getElem?_take_of_lt h, List.getElem?_drop]

theorem slice_all (h : l.length = n) : slice l 0 n = l := by
  simp [slice, ← h]

theorem drop_patch (h : i + xs.length ≤ l.length) :
    (patch l i xs).drop (i + xs.length) = l.drop (i + xs.length) := by
  have hlen : (l.take i).length = i := by simp; omega
  rw [patch, ← List.drop_drop, List.drop_left' hlen, List.drop_left]

/-- The list up to the end of what was written. -/
theorem take_patch_end (h : i ≤ l.length) :
    (patch l i xs).take (i + xs.length) = l.take i ++ xs := by
  rw [patch, ← List.append_assoc, List.take_left']
  rw [List.length_append, List.length_take, min_eq_left h]

theorem slice_take {s : ℕ} (h : i + n ≤ s) : slice (l.take s) i n = slice l i n := by
  rw [slice, List.drop_take, List.take_take, min_eq_left (by omega)]
  rfl

/-! ## Along the stretch -/

theorem patch_append (h : i + (xs ++ ys).length ≤ l.length) :
    patch l i (xs ++ ys) = patch (patch l i xs) (i + xs.length) ys := by
  rw [List.length_append] at h
  have hpre : (patch l i xs).take (i + xs.length) = l.take i ++ xs :=
    take_patch_end (by omega)
  have hpost : (patch l i xs).drop (i + xs.length + ys.length) =
      l.drop (i + (xs.length + ys.length)) := by
    rw [← List.drop_drop, drop_patch (by omega), List.drop_drop, Nat.add_assoc]
  conv_rhs => rw [patch, hpre, hpost]
  simp [patch, List.append_assoc]

theorem slice_add (n k : ℕ) : slice l i (n + k) = slice l i n ++ slice l (i + n) k := by
  rw [slice, List.take_add, List.drop_drop]
  rfl

/-! ## Along the list -/

theorem patch_left (h : i + xs.length ≤ l.length) : patch (l ++ m) i xs = patch l i xs ++ m := by
  rw [patch, List.take_append_of_le_length (by omega), List.drop_append_of_le_length h]
  simp [patch]

theorem patch_right : patch (l ++ m) (l.length + i) xs = l ++ patch m i xs := by
  rw [patch, List.take_length_add_append, Nat.add_assoc, List.drop_length_add_append,
    List.append_assoc]
  rfl

theorem slice_left (h : i + n ≤ l.length) : slice (l ++ m) i n = slice l i n := by
  rw [slice, List.drop_append_of_le_length (by omega), List.take_append_of_le_length]
  · rfl
  · rw [List.length_drop]
    omega

theorem slice_right : slice (l ++ m) (l.length + i) n = slice m i n := by
  rw [slice, List.drop_length_add_append]
  rfl

end

/-! ## Pieces of one length -/

/-- All the pieces have length `k`. -/
def Uniform (k : ℕ) (ps : List (List α)) : Prop := ∀ p ∈ ps, p.length = k

section
variable {k i : ℕ} {p : List α} {ps qs : List (List α)}

theorem uniform_cons : Uniform k (p :: ps) ↔ p.length = k ∧ Uniform k ps := List.forall_mem_cons

theorem Uniform.append (hp : Uniform k ps) (hq : Uniform k qs) : Uniform k (ps ++ qs) :=
  List.forall_mem_append.2 ⟨hp, hq⟩

theorem Uniform.take (h : Uniform k ps) (i : ℕ) : Uniform k (ps.take i) :=
  fun p hp => h p (List.mem_of_mem_take hp)

theorem Uniform.drop (h : Uniform k ps) (i : ℕ) : Uniform k (ps.drop i) :=
  fun p hp => h p (List.mem_of_mem_drop hp)

theorem Uniform.length_flatten (h : Uniform k ps) : ps.flatten.length = k * ps.length := by
  induction ps with
  | nil => simp
  | cons p ps ih =>
    obtain ⟨hp, hps⟩ := uniform_cons.1 h
    rw [List.flatten_cons, List.length_append, hp, ih hps, List.length_cons]
    ring

/-- A position of the whole, from piece `i` on. -/
theorem Uniform.split (h : Uniform k ps) (hi : i ≤ ps.length) :
    ps.flatten = (ps.take i).flatten ++ (ps.drop i).flatten ∧ (ps.take i).flatten.length = k * i := by
  constructor
  · rw [← List.flatten_append, List.take_append_drop]
  · rw [(h.take i).length_flatten, List.length_take, min_eq_left hi]

end

end Splice

import CoroutineScheduler.Util.Url

/-!
# Replacing

The three overloads of `replace` in `hash_util.cc`. Their loop rewrites the string that it searches;
`run` gives it a number of rounds, and `none` says that these did not do. `loop_append` is the
invariant: what lies in front of the index is finished, what lies behind it is still the text of the
caller.
-/

namespace CoroutineScheduler.HashUtil

open StringUtil (findFrom)

/-- Where `find` occurs first. -/
def indexOf (find : List UInt8) : List UInt8 → Option ℕ
  | [] => if find = [] then some 0 else none
  | c :: s => if find <+: c :: s then some 0 else (indexOf find s).map (· + 1)

/-- `str.find(find, pos)`, `none` for `npos`. -/
def findText (str find : List UInt8) (pos : ℕ) : Option ℕ :=
  if pos ≤ str.length then (indexOf find (str.drop pos)).map (pos + ·) else none

/-- A call of one of the overloads. -/
inductive Replace
  | charChar (find replaceWith : UInt8)
  | charString (find : UInt8) (replaceWith : List UInt8)
  | string (find replaceWith : List UInt8)

namespace Replace

def find : Replace → List UInt8
  | charChar find _ | charString find _ => [find]
  | string find _ => find

def replaceWith : Replace → List UInt8
  | charChar _ replaceWith => [replaceWith]
  | charString _ replaceWith | string _ replaceWith => replaceWith

/-- `str.find(find, pos)` in this overload. -/
def search (str : List UInt8) (pos : ℕ) : Replace → Option ℕ
  | charChar find _ | charString find _ => findFrom str find pos
  | string find _ => findText str find pos

/-- `str` behind the assignment in the loop. -/
def edit (str : List UInt8) (index : ℕ) : Replace → List UInt8
  | charChar _ replaceWith => str.set index replaceWith
  | charString _ replaceWith => str.take index ++ replaceWith ++ str.drop (index + 1)
  | string find replaceWith => str.take index ++ replaceWith ++ str.drop (index + find.length)

/-- How far behind `index` the next search starts. -/
def advance : Replace → ℕ
  | charChar _ _ => 1
  | charString _ replaceWith | string _ replaceWith => replaceWith.length

/-- The loop, for so many rounds. -/
def loop (call : Replace) : ℕ → List UInt8 → Option ℕ → Option (List UInt8)
  | _, str, none => some str
  | 0, _, some _ => none
  | fuel + 1, str, some index =>
    let str := call.edit str index
    loop call fuel str (call.search str (index + call.advance))

/-- `replace`. -/
def run (call : Replace) (fuel : ℕ) (str : List UInt8) : Option (List UInt8) :=
  call.loop fuel str (call.search str 0)

end Replace

/-- The text with the occurrences of `find` replaced from left to right. -/
def replaced (find replaceWith : List UInt8) : List UInt8 → List UInt8
  | [] => []
  | c :: s =>
    if find ≠ [] ∧ find <+: c :: s then
      replaceWith ++ replaced find replaceWith ((c :: s).drop find.length)
    else c :: replaced find replaceWith s
termination_by s => s.length
decreasing_by
  · have hpos := List.length_pos_of_ne_nil (And.left ‹_›)
    rw [List.length_drop, List.length_cons]
    omega
  · exact Nat.lt_succ_self _

/-! ## The first occurrence -/

section
variable {find replaceWith s : List UInt8} {i : ℕ}

theorem indexOf_append (h : indexOf find s = some i) :
    s = s.take i ++ find ++ s.drop (i + find.length) := by
  induction s generalizing i with
  | nil =>
    rw [indexOf] at h
    split_ifs at h with hf
    rw [hf]
    simp
  | cons c s ih =>
    rw [indexOf] at h
    split_ifs at h with hf
    · obtain ⟨t, ht⟩ := hf
      obtain rfl := Option.some.inj h
      rw [← ht]
      simp
    · obtain ⟨j, hj, rfl⟩ := Option.map_eq_some_iff.1 h
      rw [Nat.add_right_comm, List.take_succ_cons, List.drop_succ_cons]
      exact congrArg (c :: ·) (ih hj)

theorem le_of_indexOf (h : indexOf find s = some i) : i + find.length ≤ s.length := by
  have hlen := congrArg List.length (indexOf_append h)
  have hi : i ≤ s.length := by
    by_contra hlt
    rw [List.length_append, List.length_append, List.length_take, List.length_drop] at hlen
    have hf : find = [] := List.length_eq_zero_iff.1 (by omega)
    subst hf
    cases s with
    | nil =>
      obtain rfl := Option.some.inj h
      exact hlt le_rfl
    | cons c s =>
      rw [indexOf, if_pos List.nil_prefix] at h
      obtain rfl := Option.some.inj h
      exact hlt (Nat.zero_le _)
  rw [List.length_append, List.length_append, List.length_take, List.length_drop,
    min_eq_left hi] at hlen
  omega

/-- A single byte is looked for. -/
theorem indexOf_singleton (c : UInt8) (s : List UInt8) : indexOf [c] s = s.idxOf? c := by
  induction s with
  | nil => rfl
  | cons d s ih =>
    rw [indexOf, List.idxOf?_cons, ih]
    have hpre : [c] <+: d :: s ↔ d = c := by
      rw [List.cons_prefix_cons]
      exact ⟨fun h => h.1.symm, fun h => ⟨h.symm, List.nil_prefix⟩⟩
    by_cases hd : d = c
    · rw [if_pos (hpre.2 hd), if_pos (beq_iff_eq.2 hd)]
    · rw [if_neg (mt hpre.1 hd), if_neg (mt beq_iff_eq.1 hd)]

theorem replaced_of_none (h : indexOf find s = none) : replaced find replaceWith s = s := by
  induction s with
  | nil => rw [replaced]
  | cons c s ih =>
    rw [indexOf] at h
    split_ifs at h with hf
    rw [replaced, if_neg fun h => hf h.2, ih (Option.map_eq_none_iff.1 h)]

theorem replaced_of_some (hf : find ≠ []) (h : indexOf find s = some i) :
    replaced find replaceWith s =
      s.take i ++ replaceWith ++ replaced find replaceWith (s.drop (i + find.length)) := by
  induction s generalizing i with
  | nil =>
    rw [indexOf, if_neg hf] at h
    cases h
  | cons c s ih =>
    rw [indexOf] at h
    split_ifs at h with hpre
    · obtain rfl := Option.some.inj h
      rw [replaced, if_pos ⟨hf, hpre⟩, List.take_zero, Nat.zero_add, List.nil_append]
    · obtain ⟨j, hj, rfl⟩ := Option.map_eq_some_iff.1 h
      rw [replaced, if_neg fun h => hpre h.2, ih hj, Nat.add_right_comm, List.take_succ_cons,
        List.drop_succ_cons]
      rfl

/-- An empty text is nowhere replaced. -/
theorem replaced_nil (replaceWith s : List UInt8) : replaced [] replaceWith s = s := by
  induction s with
  | nil => rw [replaced]
  | cons c s ih => rw [replaced, if_neg fun h => h.1 rfl, ih]

end

/-! ## The loop -/

namespace Replace

theorem search_eq (call : Replace) {str : List UInt8} {pos : ℕ} (h : pos ≤ str.length) :
    call.search str pos = (indexOf call.find (str.drop pos)).map (pos + ·) := by
  cases call with
  | charChar c d => exact congrArg (Option.map _) (indexOf_singleton c _).symm
  | charString c d => exact congrArg (Option.map _) (indexOf_singleton c _).symm
  | string f d => exact if_pos h

theorem edit_eq (call : Replace) {str : List UInt8} {index : ℕ}
    (h : index + call.find.length ≤ str.length) : call.edit str index =
      str.take index ++ call.replaceWith ++ str.drop (index + call.find.length) := by
  cases call with
  | charChar c d =>
    show str.set index d = str.take index ++ [d] ++ str.drop (index + 1)
    rw [List.set_eq_take_append_cons_drop, if_pos (Nat.lt_of_succ_le h), List.append_assoc]
    rfl
  | charString c d => rfl
  | string f d => rfl

theorem advance_eq (call : Replace) : call.advance = call.replaceWith.length := by
  cases call <;> rfl

/-- What is in front of the index stays, what is behind it is replaced. -/
theorem loop_append (call : Replace) (hf : call.find ≠ []) (fuel : ℕ) (done rest : List UInt8)
    (h : rest.length ≤ fuel) :
    call.loop fuel (done ++ rest) (call.search (done ++ rest) done.length) =
      some (done ++ replaced call.find call.replaceWith rest) := by
  induction fuel generalizing done rest with
  | zero =>
    obtain rfl := List.length_eq_zero_iff.1 (Nat.le_zero.1 h)
    rw [call.search_eq (by simp), List.drop_left, indexOf, if_neg hf, replaced]
    rfl
  | succ fuel ih =>
    rw [call.search_eq (by simp), List.drop_left]
    cases hidx : indexOf call.find rest with
    | none =>
      rw [replaced_of_none hidx]
      rfl
    | some i =>
      have hle := le_of_indexOf hidx
      have hpos := List.length_pos_of_ne_nil hf
      have hedit : call.edit (done ++ rest) (done.length + i) =
          (done ++ rest.take i ++ call.replaceWith) ++ rest.drop (i + call.find.length) := by
        rw [call.edit_eq (by rw [List.length_append]; omega), List.take_length_add_append,
          Nat.add_assoc, List.drop_length_add_append]
      have hlen : done.length + i + call.advance =
          (done ++ rest.take i ++ call.replaceWith).length := by
        rw [call.advance_eq, List.length_append, List.length_append, List.length_take,
          min_eq_left (by omega)]
      rw [Option.map_some, loop]
      rw [hedit, hlen, ih _ _ (by rw [List.length_drop]; omega), replaced_of_some hf hidx]
      simp only [List.append_assoc]

/-- With nothing to look for, every round finds the place behind the last replacement. -/
theorem loop_nil (replaceWith : List UInt8) (fuel : ℕ) (str : List UInt8) {index : ℕ}
    (h : index ≤ str.length) : (string [] replaceWith).loop fuel str (some index) = none := by
  induction fuel generalizing str index with
  | zero => rfl
  | succ fuel ih =>
    have hedit : (string [] replaceWith).edit str index =
        str.take index ++ replaceWith ++ str.drop index := rfl
    have hle : index + replaceWith.length ≤
        (str.take index ++ replaceWith ++ str.drop index).length := by
      rw [List.length_append, List.length_append, List.length_take, min_eq_left h]
      exact Nat.le_add_right _ _
    have hfind : ∀ s, indexOf [] s = some 0 := fun s => by
      cases s with
      | nil => rfl
      | cons c s => exact if_pos List.nil_prefix
    have hsearch : (string [] replaceWith).search
        (str.take index ++ replaceWith ++ str.drop index) (index + replaceWith.length) =
          some (index + replaceWith.length) := by
      rw [search_eq _ hle]
      exact congrArg (Option.map _) (hfind _)
    rw [loop, hedit]
    exact (congrArg _ hsearch).trans (ih _ hle)

end Replace

/-- `replace` returns with the occurrences replaced if and only if it has something to look for. -/
theorem replace_iff (call : Replace) (str : List UInt8) :
    (∃ fuel, call.run fuel str = some (replaced call.find call.replaceWith str)) ↔
      call.find ≠ [] := by
  constructor
  · rintro ⟨fuel, h⟩ hf
    match call, hf with
    | .string _ replaceWith, rfl =>
      have hstart : (Replace.string [] replaceWith).search str 0 = some 0 := by
        rw [Replace.search_eq _ (Nat.zero_le _)]
        cases str <;> rfl
      unfold Replace.run at h
      rw [hstart, Replace.loop_nil replaceWith fuel str (Nat.zero_le _)] at h
      cases h
  · intro hf
    exact ⟨str.length, Replace.loop_append call hf str.length [] str le_rfl⟩

/-- Looking for the empty text in `"a"`, to put a `b` there, does not end. -/
theorem replace_empty_loops : (∀ fuel, (Replace.string [] [98]).run fuel [97] = none) ∧
    ¬ ∃ fuel, (Replace.string [] [98]).run fuel [97] = some [97] := by
  have hloop : ∀ fuel, (Replace.string [] [98]).run fuel [97] = none := fun fuel =>
    Replace.loop_nil [98] fuel [97] (Nat.zero_le _)
  refine ⟨hloop, ?_⟩
  rintro ⟨fuel, h⟩
  rw [hloop fuel] at h
  cases h

end CoroutineScheduler.HashUtil

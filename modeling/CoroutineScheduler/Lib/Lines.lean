import Mathlib.Tactic

/-!
# Lines that end with CR LF

`cut` takes the first line off a text, and `head` the lines up to the first empty one, as a reader of a
header section does. `pieces` are the lines that a text of its own makes, when it is written as one
line: there are several when it contains CR LF. `head_unlines` says what a reader makes of lines that
were written one after the other.
-/

namespace Lines

def crlf : List UInt8 := [13, 10]

/-- The first line, and what is behind its end. -/
def cut : List UInt8 → Option (List UInt8 × List UInt8)
  | [] | [_] => none
  | b :: c :: r =>
    if b = 13 ∧ c = 10 then some ([], r) else (cut (c :: r)).map fun p => (b :: p.1, p.2)

/-- The lines of `l`, with the end that follows it. -/
def pieces : List UInt8 → List (List UInt8)
  | [] => [[]]
  | [b] => [[b]]
  | b :: c :: r =>
    if b = 13 ∧ c = 10 then [] :: pieces r else (pieces (c :: r)).modifyHead (b :: ·)

/-- Lines one after the other. -/
def unlines (ls : List (List UInt8)) : List UInt8 := ls.flatMap (· ++ crlf)

section
variable {b : UInt8} {l r t : List UInt8} {ls ms : List (List UInt8)}

theorem unlines_cons : unlines (l :: ls) = l ++ (crlf ++ unlines ls) := by
  rw [unlines, List.flatMap_cons, List.append_assoc]
  rfl

theorem unlines_append : unlines (ls ++ ms) = unlines ls ++ unlines ms := List.flatMap_append

theorem cut_length (h : cut t = some (l, r)) : r.length < t.length := by
  induction t using cut.induct generalizing l with
  | case1 | case2 => cases h
  | case3 b c t hend =>
    rw [cut, if_pos hend] at h
    cases h
    simp
  | case4 b c t hend ih =>
    rw [cut, if_neg hend] at h
    obtain ⟨p, hp, heq⟩ := Option.map_eq_some_iff.1 h
    cases heq
    exact (ih hp).trans (Nat.lt_succ_self _)

/-- The lines up to the first empty one, and what is behind it. -/
def head (t : List UInt8) : Option (List (List UInt8) × List UInt8) :=
  match _h : cut t with
  | none => none
  | some (l, r) => if l = [] then some ([], r) else (head r).map fun p => (l :: p.1, p.2)
termination_by t.length
decreasing_by exact cut_length _h

theorem cut_of_not_mem (h : 13 ∉ l) : cut l = none := by
  induction l using cut.induct with
  | case1 | case2 => rfl
  | case3 b c l hend => exact absurd (hend.1 ▸ List.mem_cons_self) h
  | case4 b c l hend ih =>
    rw [cut, if_neg hend, ih fun hmem => h (List.mem_cons_of_mem _ hmem)]
    rfl

/-- A text without a line end is one line. -/
theorem cut_append (h : cut l = none) : cut (l ++ (crlf ++ t)) = some (l, t) := by
  induction l using cut.induct with
  | case1 => rfl
  | case2 b =>
    have hb : ¬(b = 13 ∧ (13 : UInt8) = 10) := by
      rintro ⟨-, hc⟩
      cases hc
    show cut (b :: 13 :: 10 :: t) = _
    rw [cut, if_neg hb]
    rfl
  | case3 b c l hend =>
    rw [cut, if_pos hend] at h
    cases h
  | case4 b c l hend ih =>
    rw [cut, if_neg hend, Option.map_eq_none_iff] at h
    rw [List.cons_append, List.cons_append, cut, if_neg hend, ← List.cons_append, ih h]
    rfl

theorem pieces_ne_nil (l : List UInt8) : pieces l ≠ [] := by
  induction l using pieces.induct with
  | case1 | case2 => simp [pieces]
  | case3 b c l hend => simp [pieces, hend]
  | case4 b c l hend ih =>
    rw [pieces, if_neg hend]
    obtain ⟨p, ps, hp⟩ := List.exists_cons_of_ne_nil ih
    simp [hp]

/-- The pieces of a line, written as lines, are the line. -/
theorem unlines_pieces (l : List UInt8) : unlines (pieces l) = l ++ crlf := by
  induction l using pieces.induct with
  | case1 | case2 => simp [pieces, unlines]
  | case3 b c l hend ih =>
    rw [pieces, if_pos hend, unlines_cons, ih, hend.1, hend.2]
    rfl
  | case4 b c l hend ih =>
    rw [pieces, if_neg hend]
    obtain ⟨p, ps, hp⟩ := List.exists_cons_of_ne_nil (pieces_ne_nil (c :: l))
    rw [hp, unlines_cons] at ih
    rw [hp, List.modifyHead_cons, unlines_cons, List.cons_append, ih]
    rfl

/-- The first piece is empty or begins as the text does. -/
theorem head_pieces {c : UInt8} {p : List UInt8} {ps : List (List UInt8)}
    (h : pieces (c :: l) = p :: ps) : p = [] ∨ ∃ q, p = c :: q := by
  cases l with
  | nil =>
    cases h
    exact .inr ⟨[], rfl⟩
  | cons d l =>
    rw [pieces] at h
    split at h
    · cases h
      exact .inl rfl
    · obtain ⟨q, qs, hq⟩ := List.exists_cons_of_ne_nil (pieces_ne_nil (d :: l))
      rw [hq, List.modifyHead_cons] at h
      cases h
      exact .inr ⟨q, rfl⟩

/-- A piece has no line end in it. -/
theorem cut_of_mem_pieces (l : List UInt8) : ∀ p ∈ pieces l, cut p = none := by
  induction l using pieces.induct with
  | case1 | case2 => simp [pieces, cut]
  | case3 b c l hend ih =>
    rw [pieces, if_pos hend]
    exact List.forall_mem_cons.2 ⟨rfl, ih⟩
  | case4 b c l hend ih =>
    rw [pieces, if_neg hend]
    obtain ⟨p, ps, hp⟩ := List.exists_cons_of_ne_nil (pieces_ne_nil (c :: l))
    rw [hp] at ih
    obtain ⟨hfirst, hrest⟩ := List.forall_mem_cons.1 ih
    rw [hp, List.modifyHead_cons]
    refine List.forall_mem_cons.2 ⟨?_, hrest⟩
    rcases head_pieces hp with rfl | ⟨q, rfl⟩
    · rfl
    · rw [cut, if_neg hend, hfirst]
      rfl

theorem unlines_flatMap_pieces : unlines (ls.flatMap pieces) = unlines ls := by
  induction ls with
  | nil => rfl
  | cons l ls ih =>
    rw [List.flatMap_cons, unlines_append, ih, unlines_pieces, unlines_cons, List.append_assoc]

theorem head_cons (h : cut l = none) (hne : l ≠ []) :
    head (l ++ (crlf ++ t)) = (head t).map fun p => (l :: p.1, p.2) := by
  rw [head]
  split
  · next hcut =>
    rw [cut_append h] at hcut
    cases hcut
  · next hcut =>
    rw [cut_append h] at hcut
    cases hcut
    rw [if_neg hne]

theorem head_nil : head (crlf ++ t) = some ([], t) := by
  rw [head]
  rfl

/-- What a reader of a header section takes from lines that were written one after the other. -/
theorem head_unlines (h : ∀ l ∈ ls, cut l = none) :
    head (unlines ls ++ t) =
      if [] ∈ ls then
        some (ls.takeWhile (· ≠ []), unlines (ls.dropWhile (· ≠ [])).tail ++ t)
      else (head t).map fun p => (ls ++ p.1, p.2) := by
  induction ls with
  | nil => simp [unlines]
  | cons l ls ih =>
    obtain ⟨hl, hls⟩ := List.forall_mem_cons.1 h
    rw [unlines_cons, List.append_assoc, List.append_assoc]
    by_cases hne : l = []
    · subst hne
      rw [List.nil_append, head_nil]
      simp
    · rw [head_cons hl hne, ih hls]
      by_cases hmem : [] ∈ ls
      · simp [hmem, hne]
      · have hnot : [] ∉ l :: ls := by
          rw [List.mem_cons, not_or]
          exact ⟨Ne.symm hne, hmem⟩
        rw [if_neg hmem, if_neg hnot, Option.map_map]
        rfl

end

end Lines

import Mathlib.Data.List.DropRight
import CoroutineScheduler.Util.Url

/-!
# Trimming at positions

`StringUtil::Trim`, `TrimLeft` and `TrimRight` of `util.cc` for every set of delimiters, with the
positions that `find_first_not_of` and `find_last_not_of` give. `TrimRight` takes the position of the
last character that it is to keep for a length, and loses this character (`trimRight_eq`).
-/

namespace CoroutineScheduler.StringUtil.Delimited

/-- `str.find_first_not_of(delimit)`, `none` for `npos`. -/
def findFirstNotOf (str delimit : List UInt8) : Option ℕ :=
  str.findIdx? fun c => !delimit.contains c

/-- `str.find_last_not_of(delimit)`. -/
def findLastNotOf (str delimit : List UInt8) : Option ℕ :=
  (str.reverse.findIdx? fun c => !delimit.contains c).map (str.length - 1 - ·)

/-- `Trim`. -/
def trim (str delimit : List UInt8) : List UInt8 :=
  match findFirstNotOf str delimit with
  | none => []
  | some first =>
    match findLastNotOf str delimit with
    | none => []  -- not after a character that is no delimiter was found
    | some last => (str.drop first).take (last - first + 1)

/-- `TrimLeft`. -/
def trimLeft (str delimit : List UInt8) : List UInt8 :=
  match findFirstNotOf str delimit with
  | none => []
  | some first => str.drop first

/-- `TrimRight`. -/
def trimRight (str delimit : List UInt8) : List UInt8 :=
  match findLastNotOf str delimit with
  | none => []
  | some last => str.take last

/-! ## The parts of a text -/

/-- The text from its first character on that is no delimiter. -/
def fromFirst (str delimit : List UInt8) : List UInt8 := str.dropWhile fun c => delimit.contains c

/-- The text up to its last character that is no delimiter. -/
def upToLast (str delimit : List UInt8) : List UInt8 := str.rdropWhile fun c => delimit.contains c

/-- What trimming is to do with a text. -/
structure TrimsRight (str delimit : List UInt8) : Prop where
  leftOfRight : trim str delimit = trimLeft (trimRight str delimit) delimit
  rightOfLeft : trim str delimit = trimRight (trimLeft str delimit) delimit
  trim_part : trim str delimit = upToLast (fromFirst str delimit) delimit
  left_part : trimLeft str delimit = fromFirst str delimit
  right_part : trimRight str delimit = upToLast str delimit
  trim_idem : trim (trim str delimit) delimit = trim str delimit
  left_idem : trimLeft (trimLeft str delimit) delimit = trimLeft str delimit
  right_idem : trimRight (trimRight str delimit) delimit = trimRight str delimit

section
variable {str delimit l r : List UInt8} {c : UInt8}

theorem findFirst_none (h : ∀ b ∈ str, b ∈ delimit) : findFirstNotOf str delimit = none := by
  refine List.findIdx?_eq_none_iff.2 fun b hb => ?_
  rw [List.contains_iff_mem.2 (h b hb)]
  rfl

theorem findLast_none (h : ∀ b ∈ str, b ∈ delimit) : findLastNotOf str delimit = none :=
  congrArg (Option.map _) (findFirst_none fun b hb => h b (List.mem_reverse.1 hb))

theorem findFirst_append (hl : ∀ b ∈ l, b ∈ delimit) (hc : c ∉ delimit) :
    findFirstNotOf (l ++ c :: r) delimit = some l.length := by
  have hnone : findFirstNotOf l delimit = none := findFirst_none hl
  have hpos : (!delimit.contains c) = true := by
    rw [Bool.not_eq_true', ← Bool.not_eq_true, List.contains_iff_mem]
    exact hc
  unfold findFirstNotOf at hnone ⊢
  rw [List.findIdx?_append, hnone, List.findIdx?_cons, hpos]
  simp

theorem findLast_append (hr : ∀ b ∈ r, b ∈ delimit) (hc : c ∉ delimit) :
    findLastNotOf (l ++ c :: r) delimit = some l.length := by
  have hrev : (l ++ c :: r).reverse = r.reverse ++ c :: l.reverse := by simp
  have hfirst : findFirstNotOf (r.reverse ++ c :: l.reverse) delimit = some r.reverse.length :=
    findFirst_append (fun b hb => hr b (List.mem_reverse.1 hb)) hc
  unfold findLastNotOf
  unfold findFirstNotOf at hfirst
  rw [hrev, hfirst, Option.map_some, List.length_append, List.length_cons, List.length_reverse]
  exact congrArg some (by omega)

theorem fromFirst_append (hl : ∀ b ∈ l, b ∈ delimit) (hc : c ∉ delimit) :
    fromFirst (l ++ c :: r) delimit = c :: r := by
  unfold fromFirst
  rw [List.dropWhile_append_of_pos fun b hb => List.contains_iff_mem.2 (hl b hb),
    List.dropWhile_cons_of_neg (mt List.contains_iff_mem.1 hc)]

theorem upToLast_append (hr : ∀ b ∈ r, b ∈ delimit) (hc : c ∉ delimit) :
    upToLast (l ++ c :: r) delimit = l ++ [c] := by
  have hrev : (l ++ c :: r).reverse = r.reverse ++ c :: l.reverse := by simp
  have hfirst : fromFirst (r.reverse ++ c :: l.reverse) delimit = c :: l.reverse :=
    fromFirst_append (fun b hb => hr b (List.mem_reverse.1 hb)) hc
  unfold fromFirst at hfirst
  unfold upToLast List.rdropWhile
  rw [hrev, hfirst, List.reverse_cons, List.reverse_reverse]

theorem fromFirst_all (h : ∀ b ∈ str, b ∈ delimit) : fromFirst str delimit = [] :=
  List.dropWhile_eq_nil_iff.2 fun b hb => List.contains_iff_mem.2 (h b hb)

theorem upToLast_all (h : ∀ b ∈ str, b ∈ delimit) : upToLast str delimit = [] :=
  List.rdropWhile_eq_nil_iff.2 fun b hb => List.contains_iff_mem.2 (h b hb)

end

/-- A text that is not all delimiters has a first character that is none. -/
theorem exists_first {str delimit : List UInt8} (h : ¬ ∀ b ∈ str, b ∈ delimit) :
    ∃ l c r, str = l ++ c :: r ∧ (∀ b ∈ l, b ∈ delimit) ∧ c ∉ delimit := by
  induction str with
  | nil => exact absurd (List.forall_mem_nil _) h
  | cons b str ih =>
    by_cases hb : b ∈ delimit
    · obtain ⟨l, c, r, rfl, hl, hc⟩ := ih fun hall => h (List.forall_mem_cons.2 ⟨hb, hall⟩)
      exact ⟨b :: l, c, r, rfl, List.forall_mem_cons.2 ⟨hb, hl⟩, hc⟩
    · exact ⟨[], b, str, rfl, List.forall_mem_nil _, hb⟩

/-- And a last one. -/
theorem exists_last {str delimit : List UInt8} (h : ¬ ∀ b ∈ str, b ∈ delimit) :
    ∃ l c r, str = l ++ c :: r ∧ (∀ b ∈ r, b ∈ delimit) ∧ c ∉ delimit := by
  have hrev : ¬ ∀ b ∈ str.reverse, b ∈ delimit := fun hall =>
    h fun b hb => hall b (List.mem_reverse.2 hb)
  obtain ⟨l, c, r, hs, hl, hc⟩ := exists_first hrev
  refine ⟨r.reverse, c, l.reverse, ?_, fun b hb => hl b (List.mem_reverse.1 hb), hc⟩
  rw [← List.reverse_reverse str, hs]
  simp

/-! ## The three functions -/

theorem trimLeft_eq (str delimit : List UInt8) : trimLeft str delimit = fromFirst str delimit := by
  unfold trimLeft
  by_cases h : ∀ b ∈ str, b ∈ delimit
  · rw [findFirst_none h, fromFirst_all h]
  · obtain ⟨l, c, r, rfl, hl, hc⟩ := exists_first h
    rw [findFirst_append hl hc, fromFirst_append hl hc]
    exact List.drop_left

/-- `TrimRight` loses the last character that it is to keep. -/
theorem trimRight_eq (str delimit : List UInt8) :
    trimRight str delimit = (upToLast str delimit).dropLast := by
  unfold trimRight
  by_cases h : ∀ b ∈ str, b ∈ delimit
  · rw [findLast_none h, upToLast_all h]
    rfl
  · obtain ⟨l, c, r, rfl, hr, hc⟩ := exists_last h
    rw [findLast_append hr hc, upToLast_append hr hc, List.dropLast_concat]
    exact List.take_left

theorem trim_eq (str delimit : List UInt8) :
    trim str delimit = upToLast (fromFirst str delimit) delimit := by
  unfold trim
  by_cases h : ∀ b ∈ str, b ∈ delimit
  · rw [findFirst_none h, fromFirst_all h]
    rfl
  · obtain ⟨l, c, r, rfl, hl, hc⟩ := exists_first h
    have hrest : ¬ ∀ b ∈ c :: r, b ∈ delimit := fun hall => hc (hall c (List.mem_cons_self ..))
    obtain ⟨l', d, r', hcr, hr', hd⟩ := exists_last hrest
    have hlast : findLastNotOf (l ++ c :: r) delimit = some (l.length + l'.length) := by
      rw [hcr, ← List.append_assoc, findLast_append hr' hd, List.length_append]
    rw [findFirst_append hl hc, hlast, fromFirst_append hl hc, hcr, upToLast_append hr' hd]
    dsimp only
    rw [List.drop_left, Nat.add_sub_cancel_left, List.take_length_add_append, List.take_succ_cons,
      List.take_zero]

/-- `Trim` with its default delimiters. -/
theorem trim_default (str : List UInt8) : trim str [32, 9, 13, 10] = StringUtil.trim str := by
  have hfun : (fun c => ([32, 9, 13, 10] : List UInt8).contains c) = delimit := by
    funext c
    simp [delimit, Bool.or_assoc]
  rw [trim_eq]
  unfold upToLast fromFirst
  rw [hfun]
  rfl

/-- The laws of trimming hold of a text if and only if it has delimiters only. -/
theorem trimsRight_iff (str delimit : List UInt8) :
    TrimsRight str delimit ↔ ∀ b ∈ str, b ∈ delimit := by
  constructor
  · intro h
    by_contra hall
    obtain ⟨l, c, r, rfl, hr, hc⟩ := exists_last hall
    have hpart := (trimRight_eq _ _).symm.trans h.right_part
    rw [upToLast_append hr hc, List.dropLast_concat] at hpart
    exact absurd (congrArg List.length hpart) (by simp)
  · intro hall
    have hnil : trim [] delimit = [] ∧ trimLeft [] delimit = [] ∧ trimRight [] delimit = [] :=
      ⟨rfl, rfl, rfl⟩
    have htrim : trim str delimit = [] := by rw [trim_eq, fromFirst_all hall]; rfl
    have hleft : trimLeft str delimit = [] := (trimLeft_eq _ _).trans (fromFirst_all hall)
    have hright : trimRight str delimit = [] := by rw [trimRight_eq, upToLast_all hall]; rfl
    constructor
    · rw [htrim, hright, hnil.2.1]
    · rw [htrim, hleft, hnil.2.2]
    · exact trim_eq _ _
    · exact trimLeft_eq _ _
    · rw [hright, upToLast_all hall]
    · rw [htrim, hnil.1]
    · rw [hleft, hnil.2.1]
    · rw [hright, hnil.2.2]

/-- Of `"ab "`, `TrimRight` keeps the `a`. -/
theorem not_trimsRight_ab : trimRight [97, 98, 32] [32] = [97] ∧ ¬ TrimsRight [97, 98, 32] [32] :=
  ⟨by decide, fun h => absurd h.right_part (by decide)⟩

end CoroutineScheduler.StringUtil.Delimited

import CoroutineScheduler.Util.Url

/-!
# Splitting

The two overloads of `split` in `hash_util.cc`. Their loop counts `max` down as a `size_t` and stops
when it is 1; from 1 it goes past 0 to the largest number, so a bound of 1 is none
(`splits_iff`).
-/

namespace CoroutineScheduler.HashUtil

/-- `delim` or `delims`; the latter is a C string. -/
inductive Delims
  | char (delim : UInt8)
  | set (delims : List UInt8)

/-- Whether a character is one to split at. -/
def Delims.has : Delims → UInt8 → Bool
  | char delim, c => c == delim
  | set delims, c => (delims.takeWhile (· ≠ 0)).contains c

/-- `str.find(delim, pos)` and `str.find_first_of(delims, pos)`, `none` for `npos`. -/
def findDelim (d : Delims) (str : List UInt8) (pos : ℕ) : Option ℕ :=
  ((str.drop pos).findIdx? d.has).map (pos + ·)

theorem findDelim_lt {d : Delims} {str : List UInt8} {pos i : ℕ} (h : findDelim d str pos = some i) :
    pos ≤ i ∧ i < str.length := by
  obtain ⟨j, hj, rfl⟩ := Option.map_eq_some_iff.1 h
  have hlt := (List.findIdx?_eq_some_iff_getElem.1 hj).1
  rw [List.length_drop] at hlt
  omega

/-- The loop of `split` with the `push_back` behind it, from the first search of a round on. -/
def splitLoop (d : Delims) (str : List UInt8) (last : ℕ) (max : UInt64) : List (List UInt8) :=
  match _h : findDelim d str last with
  | none => [str.drop last]
  | some pos =>
    (str.drop last).take (pos - last) ::
      if max - 1 = 1 then [str.drop (pos + 1)] else splitLoop d str (pos + 1) (max - 1)
termination_by str.length - last
decreasing_by
  have hlt := findDelim_lt _h
  omega

/-- `split`. -/
def split (str : List UInt8) (d : Delims) (max : UInt64) : List (List UInt8) :=
  if str = [] then [] else splitLoop d str 0 max

/-! ## What is expected of the pieces -/

/-- The pieces with delimiters between them. -/
def weave : List (List UInt8) → List UInt8 → List UInt8
  | [], _ => []
  | piece :: pieces, [] => piece ++ weave pieces []
  | piece :: pieces, c :: seps => piece ++ c :: weave pieces seps

/-- Pieces of a text: at most `max`, the text with the delimiters put back, and free of delimiters
but for the last one when there are `max`. -/
structure Splits (d : Delims) (str : List UInt8) (max : ℕ) (pieces : List (List UInt8)) : Prop where
  count : pieces.length ≤ max
  joined : ∃ seps : List UInt8, seps.length + 1 = pieces.length ∧ (∀ c ∈ seps, d.has c = true) ∧
    weave pieces seps = str
  free : ∀ piece ∈ pieces.dropLast, ∀ c ∈ piece, d.has c = false
  last : pieces.length < max → ∀ piece ∈ pieces, ∀ c ∈ piece, d.has c = false

variable {d : Delims} {str : List UInt8} {last : ℕ} {max : UInt64}

theorem splitLoop_none (h : ∀ c ∈ str.drop last, d.has c = false) :
    splitLoop d str last max = [str.drop last] := by
  have hnone : findDelim d str last = none := by
    unfold findDelim
    rw [List.findIdx?_eq_none_iff.2 h]
    rfl
  rw [splitLoop]
  split
  · rfl
  · rename_i hsome
    rw [hnone] at hsome
    cases hsome

/-- One round: the text up to the first delimiter, and what the rest gives. -/
theorem splitLoop_some (max : UInt64) {l r : List UInt8} {c : UInt8}
    (hs : str.drop last = l ++ c :: r) (hl : ∀ b ∈ l, d.has b = false) (hc : d.has c = true) :
    ∃ next, str.drop next = r ∧ splitLoop d str last max =
      l :: if max - 1 = 1 then [r] else splitLoop d str next (max - 1) := by
  have hfind : findDelim d str last = some (last + l.length) := by
    unfold findDelim
    rw [hs, List.findIdx?_append, List.findIdx?_eq_none_iff.2 hl, List.findIdx?_cons, hc]
    simp
  have hnext : str.drop (last + l.length + 1) = r := by
    rw [Nat.add_assoc, ← List.drop_drop, hs, List.drop_length_add_append]
    rfl
  refine ⟨last + l.length + 1, hnext, ?_⟩
  rw [splitLoop]
  split
  · rename_i hnone
    rw [hfind] at hnone
    cases hnone
  · rename_i pos hsome
    obtain rfl := Option.some.inj (hfind.symm.trans hsome)
    rw [Nat.add_sub_cancel_left, hs, List.take_left, hnext]

/-- A text has no delimiter, or a first one. -/
theorem exists_first (d : Delims) (s : List UInt8) : (∀ c ∈ s, d.has c = false) ∨
    ∃ l c r, s = l ++ c :: r ∧ (∀ b ∈ l, d.has b = false) ∧ d.has c = true := by
  induction s with
  | nil => exact .inl (List.forall_mem_nil _)
  | cons b s ih =>
    cases hb : d.has b with
    | true => exact .inr ⟨[], b, s, rfl, List.forall_mem_nil _, hb⟩
    | false =>
      rcases ih with hall | ⟨l, c, r, rfl, hl, hc⟩
      · exact .inl (List.forall_mem_cons.2 ⟨hb, hall⟩)
      · exact .inr ⟨b :: l, c, r, rfl, List.forall_mem_cons.2 ⟨hb, hl⟩, hc⟩

theorem splits_single {s : List UInt8} {n : ℕ} (h : ∀ c ∈ s, d.has c = false) (hn : 1 ≤ n) :
    Splits d s n [s] where
  count := hn
  joined := ⟨[], rfl, List.forall_mem_nil _, List.append_nil s⟩
  free _ hp := by cases hp
  last _ _ hp := List.mem_singleton.1 hp ▸ h

/-- A piece in front of others. -/
theorem Splits.cons {l r : List UInt8} {c : UInt8} {n : ℕ} {pieces : List (List UInt8)}
    (h : Splits d r n pieces) (hl : ∀ b ∈ l, d.has b = false) (hc : d.has c = true) :
    Splits d (l ++ c :: r) (n + 1) (l :: pieces) := by
  obtain ⟨seps, hlen, hseps, hweave⟩ := h.joined
  have hne : pieces ≠ [] := fun h0 => by
    rw [h0] at hlen
    cases hlen
  constructor
  · exact Nat.succ_le_succ h.count
  · refine ⟨c :: seps, congrArg (· + 1) hlen, List.forall_mem_cons.2 ⟨hc, hseps⟩, ?_⟩
    rw [weave, hweave]
  · rw [List.dropLast_cons_of_ne_nil hne]
    exact List.forall_mem_cons.2 ⟨hl, h.free⟩
  · intro hlt
    exact List.forall_mem_cons.2 ⟨hl, h.last (Nat.lt_of_succ_lt_succ hlt)⟩

/-- The last piece when `max` is reached. -/
theorem splits_last {l r : List UInt8} {c : UInt8} (hl : ∀ b ∈ l, d.has b = false)
    (hc : d.has c = true) : Splits d (l ++ c :: r) 2 [l, r] where
  count := le_rfl
  joined := ⟨[c], rfl, List.forall_mem_singleton.2 hc, by simp [weave]⟩
  free := List.forall_mem_singleton.2 hl
  last hlt := absurd hlt (lt_irrefl _)

/-- The loop on a text, when there is room for two pieces. -/
theorem splitLoop_splits {max : UInt64} (hmax : 2 ≤ max.toNat) (s : List UInt8) {last : ℕ}
    (hs : str.drop last = s) : Splits d s max.toNat (splitLoop d str last max) := by
  induction hn : s.length using Nat.strong_induction_on generalizing s last max with
  | _ n ih =>
    rcases exists_first d s with hall | ⟨l, c, r, rfl, hl, hc⟩
    · rw [splitLoop_none (hs.symm ▸ hall), hs]
      exact splits_single hall (by omega)
    · obtain ⟨next, hnext, hloop⟩ := splitLoop_some max hs hl hc
      have hsub : (max - 1).toNat + 1 = max.toNat := by
        have hle : 1 ≤ max := UInt64.le_iff_toNat_le.2 (Nat.le_of_succ_le hmax)
        rw [UInt64.toNat_sub_of_le _ _ hle]
        exact Nat.sub_add_cancel (Nat.le_of_succ_le hmax)
      rw [hloop]
      split_ifs with hone
      · rw [hone] at hsub
        rw [← hsub]
        exact splits_last hl hc
      · have hne : (max - 1).toNat ≠ 1 := fun h => hone (UInt64.toNat_inj.1 h)
        rw [← hsub]
        refine (ih r.length ?_ (by omega) r hnext rfl).cons hl hc
        rw [← hn, List.length_append, List.length_cons]
        omega

/-- With a bound of one, the loop goes on behind the first delimiter. -/
theorem splitLoop_one {l r : List UInt8} {c : UInt8} (hs : str.drop last = l ++ c :: r)
    (hl : ∀ b ∈ l, d.has b = false) (hc : d.has c = true) :
    1 < (splitLoop d str last 1).length := by
  obtain ⟨next, -, hloop⟩ := splitLoop_some 1 hs hl hc
  rw [hloop, if_neg (by decide), List.length_cons]
  refine Nat.succ_lt_succ (List.length_pos_of_ne_nil ?_)
  rw [splitLoop]
  split <;> exact List.cons_ne_nil _ _

/-- The pieces of a text that is not empty are what they should be if and only if the bound is not
one or there is nothing to split at. -/
theorem splits_iff {str : List UInt8} {max : UInt64} (d : Delims) (hstr : str ≠ []) (hmax : 1 ≤ max) :
    Splits d str max.toNat (split str d max) ↔ max ≠ 1 ∨ ∀ c ∈ str, d.has c = false := by
  have hone : 1 ≤ max.toNat := UInt64.le_iff_toNat_le.1 hmax
  unfold split
  rw [if_neg hstr]
  constructor
  · intro h
    by_contra hne
    obtain ⟨rfl, hd⟩ := not_or.1 hne |>.imp_left not_not.1
    rcases exists_first d str with hall | ⟨l, c, r, hs, hl, hc⟩
    · exact hd hall
    · have hs' : str.drop 0 = l ++ c :: r := hs
      exact absurd h.count (not_le.2 (splitLoop_one hs' hl hc))
  · rintro (hne | hall)
    · have hne' : max.toNat ≠ 1 := fun h => hne (UInt64.toNat_inj.1 h)
      exact splitLoop_splits (by omega) str List.drop_zero
    · have hall' : ∀ c ∈ str.drop 0, d.has c = false := hall
      rw [splitLoop_none hall']
      exact splits_single hall hone

theorem splits_iff_colon : Splits (.char 58) [97, 58, 98] 2 (split [97, 58, 98] (.char 58) 2) ↔
    (2 : UInt64) ≠ 1 ∨ ∀ c ∈ [97, 58, 98], (Delims.char 58).has c = false :=
  splits_iff (.char 58) (List.cons_ne_nil _ _) (show (1 : UInt64) ≤ 2 by decide)

/-- `"a:b"` at `:` into at most one piece gives two. -/
theorem not_splits_one : ¬ Splits (.char 58) [97, 58, 98] 1 (split [97, 58, 98] (.char 58) 1) :=
  fun h => absurd h.count (not_le.2 (splitLoop_one
    (show ([97, 58, 98] : List UInt8).drop 0 = [97] ++ 58 :: [98] from rfl)
    (List.forall_mem_singleton.2 rfl) rfl))

end CoroutineScheduler.HashUtil

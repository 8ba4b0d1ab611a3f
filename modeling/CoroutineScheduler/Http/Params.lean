import Mathlib.Data.List.TakeWhile
import CoroutineScheduler.Lib.OrderedMap
import CoroutineScheduler.Util.Url
import CoroutineScheduler.Http.Request

/-!
# Parameters and cookies

`PARSE_PARAM`, the scanner that fills the maps of the parameters and of the cookies. It looks for the
next `=` first and for the separator behind it, so that the pieces without a `=` are taken into the
key of the assignment that follows them. `bindings` are the assignments with these pieces
(`parseParam_eq`), and `parseParam_eq_reference_iff` says when they do no harm.
-/

namespace CoroutineScheduler.Http

open Splice StringUtil OrderedMap

/-- `HttpRequest::MapType` as a map. -/
abbrev ParamMap := OrderedMap folded (List UInt8)

/-- `PARSE_PARAM(str, mp, flag, trim)` from the position `pos` on. -/
def parseParam (flag : UInt8) (trim : List UInt8 → List UInt8) (str : List UInt8) (pos : ℕ)
    (mp : ParamMap) : ParamMap :=
  match _h : findFrom str 61 pos with
  | none => mp
  | some key =>
    match _h' : findFrom str flag key with
    | none => mp.insert (trim (slice str pos (key - pos))) (urlDecode true (str.drop (key + 1)))
    | some next =>
      parseParam flag trim str (next + 1)
        (mp.insert (trim (slice str pos (key - pos)))
          (urlDecode true (slice str (key + 1) (next - key - 1))))
termination_by str.length - pos
decreasing_by
  have h1 := lt_of_findFrom _h
  have h2 := lt_of_findFrom _h'
  omega

/-- What is parsed: the query, a form body or the header `cookie`. -/
inductive ParamText
  | query | body | cookies
  deriving DecidableEq, Repr

/-- The separator: `&`, for cookies `;`. -/
def ParamText.flag : ParamText → UInt8
  | .query | .body => 38
  | .cookies => 59

/-- What is done to a key. -/
def ParamText.trim : ParamText → List UInt8 → List UInt8
  | .query, key | .body, key => key
  | .cookies, key => StringUtil.trim key

/-- The text in front of the first `=` of a piece. -/
def nameOf (piece : List UInt8) : List UInt8 := piece.takeWhile (· ≠ 61)

/-- The text behind the first `=` of a piece. -/
def valueOf (piece : List UInt8) : List UInt8 := (piece.dropWhile (· ≠ 61)).tail

/-- The map that is expected: of every piece with a `=` the key and the value, the first occurrence
of a key. -/
def reference (k : ParamText) (str : List UInt8) (mp : ParamMap) : ParamMap :=
  (str.splitOn k.flag).foldl (fun m piece =>
    if 61 ∈ piece then m.insert (k.trim (nameOf piece)) (urlDecode true (valueOf piece)) else m) mp

/-- A piece with a `=`, and the pieces without one in front of it. -/
structure Binding where
  swallowed : List UInt8
  name : List UInt8
  value : List UInt8
  deriving DecidableEq, Repr

/-- The entry that the scanner makes. -/
def Binding.read (k : ParamText) (b : Binding) : List UInt8 × List UInt8 :=
  (k.trim (b.swallowed ++ b.name), urlDecode true b.value)

/-- The entry of the piece alone. -/
def Binding.own (k : ParamText) (b : Binding) : List UInt8 × List UInt8 :=
  (k.trim b.name, urlDecode true b.value)

/-- The assignments in a list of pieces, behind a text without a `=`. -/
def bindings (flag : UInt8) : List UInt8 → List (List UInt8) → List Binding
  | _, [] => []
  | front, piece :: pieces =>
    if 61 ∈ piece then ⟨front, nameOf piece, valueOf piece⟩ :: bindings flag [] pieces
    else bindings flag (front ++ piece ++ [flag]) pieces

/-- The assignments in a text. -/
def ParamText.bindings (k : ParamText) (str : List UInt8) : List Binding :=
  Http.bindings k.flag [] (str.splitOn k.flag)

section
variable {k : ParamText} {c flag : UInt8} {front piece str l r : List UInt8}
  {pieces : List (List UInt8)} {mp : ParamMap} {pos : ℕ}

theorem flag_ne (k : ParamText) : k.flag ≠ 61 ∧ delimit k.flag = false ∧ tolower k.flag = k.flag := by
  cases k <;> decide

/-! ## The scanner -/

theorem slice_of_drop (hs : str.drop pos = l ++ r) : slice str pos l.length = l := by
  rw [slice, hs, List.take_left]

/-- A piece with a `=` is its name, the `=` and its value. -/
theorem piece_eq (h : 61 ∈ piece) : piece = nameOf piece ++ 61 :: valueOf piece := by
  induction piece with
  | nil => cases h
  | cons b piece ih =>
    by_cases hb : b = 61
    · simp [nameOf, valueOf, hb]
    · have hmem : 61 ∈ piece := (List.mem_cons.1 h).resolve_left (Ne.symm hb)
      have h' := ih hmem
      simp only [nameOf, valueOf] at h' ⊢
      rw [List.takeWhile_cons_of_pos (by simpa using hb), List.dropWhile_cons_of_pos (by simpa using hb),
        List.cons_append, ← h']

theorem not_mem_nameOf (piece : List UInt8) : 61 ∉ nameOf piece := by
  intro h
  simpa using List.mem_takeWhile_imp h

theorem parseParam_none (trim : List UInt8 → List UInt8) (h : 61 ∉ str.drop pos) :
    parseParam flag trim str pos mp = mp := by
  rw [parseParam]
  split
  · rfl
  · next key hkey =>
    rw [findFrom_eq_none rfl h] at hkey
    cases hkey

/-- The last assignment: there is no separator behind its `=`. -/
theorem parseParam_last (trim : List UInt8 → List UInt8) {v : List UInt8}
    (hs : str.drop pos = l ++ 61 :: v) (hl : 61 ∉ l) (hf : flag ≠ 61) (hv : flag ∉ v) :
    parseParam flag trim str pos mp = mp.insert (trim l) (urlDecode true v) := by
  have hkey : findFrom str 61 pos = some (pos + l.length) := findFrom_eq_some hs hl
  have hdrop : str.drop (pos + l.length) = 61 :: v := by
    rw [← List.drop_drop, hs, List.drop_left]
  have hnext : findFrom str flag (pos + l.length) = none :=
    findFrom_eq_none hdrop (by simpa [hf] using hv)
  have hvalue : str.drop (pos + l.length + 1) = v := by
    rw [← List.drop_drop, hdrop]
    rfl
  rw [parseParam]
  split
  · next h => simp [hkey] at h
  · next key h =>
    obtain rfl : pos + l.length = key := by simpa [hkey] using h
    split
    · rw [Nat.add_sub_cancel_left, slice_of_drop hs, hvalue]
    · next h' => simp [hnext] at h'

/-- An assignment with a separator behind it: the scan goes on behind the separator. -/
theorem parseParam_step (trim : List UInt8 → List UInt8) (mp : ParamMap) {v : List UInt8}
    (hs : str.drop pos = l ++ 61 :: (v ++ flag :: r)) (hl : 61 ∉ l) (hf : flag ≠ 61)
    (hv : flag ∉ v) :
    ∃ next, str.drop next = r ∧ parseParam flag trim str pos mp =
      parseParam flag trim str next (mp.insert (trim l) (urlDecode true v)) := by
  have hkey : findFrom str 61 pos = some (pos + l.length) := findFrom_eq_some hs hl
  have hdrop : str.drop (pos + l.length) = (61 :: v) ++ flag :: r := by
    rw [← List.drop_drop, hs, List.drop_left]
    rfl
  have hnext : findFrom str flag (pos + l.length) = some (pos + l.length + (v.length + 1)) :=
    findFrom_eq_some hdrop (by simpa [hf] using hv)
  have hvalue : str.drop (pos + l.length + 1) = v ++ flag :: r := by
    rw [← List.drop_drop, hdrop]
    rfl
  refine ⟨pos + l.length + (v.length + 1) + 1, ?_, ?_⟩
  · have hsum : pos + l.length + (v.length + 1) + 1 = pos + l.length + 1 + (v.length + 1) := by omega
    rw [hsum, ← List.drop_drop, hvalue, ← List.drop_drop, List.drop_left]
    rfl
  · rw [parseParam]
    split
    · next h => simp [hkey] at h
    · next key h =>
      obtain rfl : pos + l.length = key := by simpa [hkey] using h
      split
      · next h' => simp [hnext] at h'
      · next next h' =>
        obtain rfl : pos + l.length + (v.length + 1) = next := by simpa [hnext] using h'
        have hlen : pos + l.length + (v.length + 1) - (pos + l.length) - 1 = v.length := by omega
        rw [Nat.add_sub_cancel_left, slice_of_drop hs, hlen, slice_of_drop hvalue]

/-- The scanner inserts the assignments one after the other. -/
theorem parseParam_pieces (hp : ∀ p ∈ pieces, k.flag ∉ p) (hne : pieces ≠ []) (hf : 61 ∉ front)
    (hs : str.drop pos = front ++ [k.flag].intercalate pieces) :
    parseParam k.flag k.trim str pos mp =
      mp.insertAll ((bindings k.flag front pieces).map (Binding.read k)) := by
  have hk : k.flag ≠ 61 := (flag_ne k).1
  induction pieces generalizing front pos mp with
  | nil => exact absurd rfl hne
  | cons piece pieces ih =>
    have hpiece : k.flag ∉ piece := hp piece (List.mem_cons_self ..)
    have hp' : ∀ p ∈ pieces, k.flag ∉ p := fun p h => hp p (List.mem_cons_of_mem _ h)
    by_cases h61 : 61 ∈ piece
    · have heq := piece_eq h61
      have hname : 61 ∉ front ++ nameOf piece := by simp [hf, not_mem_nameOf]
      have hvalue : k.flag ∉ valueOf piece := fun h =>
        hpiece (by rw [heq]; exact List.mem_append_right _ (List.mem_cons_of_mem _ h))
      rw [bindings, if_pos h61]
      cases pieces with
      | nil =>
        rw [List.intercalate_singleton, heq, ← List.append_assoc] at hs
        exact parseParam_last _ hs hname hk hvalue
      | cons q pieces =>
        rw [List.intercalate_cons_cons, heq] at hs
        have hs' : str.drop pos = (front ++ nameOf piece) ++ 61 :: (valueOf piece ++
            k.flag :: [k.flag].intercalate (q :: pieces)) := by simpa using hs
        obtain ⟨next, hnext, hstep⟩ := parseParam_step k.trim mp hs' hname hk hvalue
        rw [hstep, ih hp' (List.cons_ne_nil _ _) List.not_mem_nil hnext]
        rfl
    · have hfront : 61 ∉ front ++ piece ++ [k.flag] := by simp [hf, h61, Ne.symm hk]
      rw [bindings, if_neg h61]
      cases pieces with
      | nil =>
        rw [List.intercalate_singleton] at hs
        exact parseParam_none _ (by rw [hs]; simp [hf, h61])
      | cons q pieces =>
        rw [List.intercalate_cons_cons] at hs
        exact ih hp' (List.cons_ne_nil _ _) hfront (by rw [hs]; simp)

theorem not_mem_of_mem_splitOn (h : piece ∈ str.splitOn c) : c ∉ piece := by
  induction str generalizing piece with
  | nil =>
    rw [List.splitOn_nil, List.mem_singleton] at h
    simp [h]
  | cons b str ih =>
    rw [List.splitOn_cons_eq_if_modifyHead] at h
    split_ifs at h with hb
    · rcases List.mem_cons.1 h with rfl | h
      · exact List.not_mem_nil
      · exact ih h
    · cases hsplit : str.splitOn c with
      | nil => exact absurd hsplit (List.splitOn_ne_nil _ _)
      | cons q qs =>
        rw [hsplit, List.modifyHead_cons] at h
        rw [hsplit] at ih
        have hbc : c ≠ b := fun he => hb (beq_iff_eq.2 he.symm)
        rcases List.mem_cons.1 h with rfl | h
        · simp [hbc, ih (List.mem_cons_self ..)]
        · exact ih (List.mem_cons_of_mem _ h)

theorem parseParam_eq (k : ParamText) (str : List UInt8) (mp : ParamMap) :
    parseParam k.flag k.trim str 0 mp = mp.insertAll ((k.bindings str).map (Binding.read k)) :=
  parseParam_pieces (fun _ h => not_mem_of_mem_splitOn h) (List.splitOn_ne_nil _ _)
    List.not_mem_nil (by simp)

theorem reference_eq (k : ParamText) (str : List UInt8) (mp : ParamMap) :
    reference k str mp = mp.insertAll ((k.bindings str).map (Binding.own k)) := by
  have hall : ∀ front, (str.splitOn k.flag).foldl (fun m piece =>
      if 61 ∈ piece then m.insert (k.trim (nameOf piece)) (urlDecode true (valueOf piece)) else m) mp =
      mp.insertAll ((bindings k.flag front (str.splitOn k.flag)).map (Binding.own k)) := by
    generalize str.splitOn k.flag = pieces
    induction pieces generalizing mp with
    | nil => exact fun _ => rfl
    | cons piece pieces ih =>
      intro front
      rw [List.foldl_cons, bindings]
      split_ifs with h61
      · exact ih _ _
      · exact ih _ _
  exact hall []

/-! ## The keys -/

/-- Of the bindings that read `l`, one that swallows a piece has the separator in its key. -/
theorem swallowed_eq {b : Binding} {swallowed : List UInt8} (hf : swallowed ≠ [] → flag ∈ swallowed)
    (hb : b ∈ bindings flag swallowed pieces) : b.swallowed ≠ [] → flag ∈ b.swallowed := by
  induction pieces generalizing swallowed with
  | nil => cases hb
  | cons piece pieces ih =>
    rw [bindings] at hb
    split_ifs at hb
    · rcases List.mem_cons.1 hb with rfl | hb
      · exact hf
      · exact ih (fun h => absurd rfl h) hb
    · exact ih (fun _ => by simp) hb

theorem name_eq {b : Binding} (hb : b ∈ bindings flag front pieces) :
    ∃ piece ∈ pieces, b.name = nameOf piece := by
  induction pieces generalizing front with
  | nil => cases hb
  | cons piece pieces ih =>
    rw [bindings] at hb
    split_ifs at hb
    · rcases List.mem_cons.1 hb with rfl | hb
      · exact ⟨piece, List.mem_cons_self .., rfl⟩
      · obtain ⟨p, hp, h⟩ := ih hb
        exact ⟨p, List.mem_cons_of_mem _ hp, h⟩
    · obtain ⟨p, hp, h⟩ := ih hb
      exact ⟨p, List.mem_cons_of_mem _ hp, h⟩

theorem flag_mem_trim (h : k.flag ∈ l) : k.flag ∈ k.trim l := by
  cases k with
  | query | body => exact h
  | cookies => exact trim_mem h (by decide)

theorem mem_of_mem_trimKey (h : c ∈ k.trim l) : c ∈ l := by
  cases k with
  | query | body => exact h
  | cookies => exact mem_of_mem_trim h

/-- The key of a swallowing assignment contains the separator. -/
theorem flag_mem_read {b : Binding} (hb : b ∈ k.bindings str) (hs : b.swallowed ≠ []) :
    k.flag ∈ (b.read k).1 :=
  flag_mem_trim (List.mem_append_left _ (swallowed_eq (fun h => absurd rfl h) hb hs))

/-- The key of a piece does not. -/
theorem flag_not_mem_own {b : Binding} (hb : b ∈ k.bindings str) : k.flag ∉ (b.own k).1 := by
  obtain ⟨piece, hp, hname⟩ := name_eq hb
  intro h
  have hmem : k.flag ∈ nameOf piece := hname ▸ mem_of_mem_trimKey h
  exact not_mem_of_mem_splitOn hp (List.takeWhile_subset _ hmem)

/-! ## When the scanner fills the expected map -/

/-- The assignments without a piece in front of them. -/
def clean (bs : List Binding) : List Binding := bs.filter fun b => b.swallowed = []

/-- Every key with a piece in front is there already, in the map or among the keys before it. -/
def Covered (k : ParamText) (mp : ParamMap) (bs : List Binding) : Prop :=
  ∀ pre b post, bs = pre ++ b :: post → b.swallowed ≠ [] →
    (mp.find (b.read k).1).isSome ∨ ∃ d ∈ pre, folded (d.read k).1 = folded (b.read k).1

/-- The names behind such pieces are not missing: the map has another entry for them, or the first of
the other assignments with the same name is the same. -/
def Spare (k : ParamText) (mp : ParamMap) (bs : List Binding) : Prop :=
  ∀ b ∈ bs, (mp.find (b.own k).1).isSome ∨
    first folded (folded (b.own k).1) (bs.map (Binding.own k)) =
      first folded (folded (b.own k).1) ((clean bs).map (Binding.own k))

theorem read_eq_own {b : Binding} (h : b.swallowed = []) : b.read k = b.own k := by
  rw [Binding.read, h]
  rfl

theorem find_isSome_iff {key : List UInt8} :
    (mp.find key).isSome ↔ mp.entry (folded key) ≠ none := by
  rw [OrderedMap.find, Option.isSome_map, Option.isSome_iff_ne_none]

/-- Under a key that is not in the map, the first entry of the scanner is that of a clean assignment. -/
theorem first_read (pre bs : List Binding) {key : List UInt8} (hc : Covered k mp (pre ++ bs))
    (hpre : ∀ d ∈ pre, folded (d.read k).1 ≠ key) (hm : mp.entry key = none) :
    first folded key (bs.map (Binding.read k)) = first folded key ((clean bs).map (Binding.own k)) := by
  induction bs generalizing pre with
  | nil => rfl
  | cons b bs ih =>
    have hstep : folded (b.read k).1 ≠ key → first folded key (bs.map (Binding.read k)) =
        first folded key ((clean bs).map (Binding.own k)) := fun hb =>
      ih (pre ++ [b]) (by simpa using hc) fun d hd => by
        rcases List.mem_append.1 hd with hd | hd
        · exact hpre d hd
        · rw [List.mem_singleton.1 hd]
          exact hb
    by_cases hs : b.swallowed = []
    · have hclean : clean (b :: bs) = b :: clean bs := by simp [clean, hs]
      rw [hclean, List.map_cons, List.map_cons, ← read_eq_own hs]
      by_cases hb : folded (b.read k).1 = key
      · rw [← hb, first_cons_self, first_cons_self]
      · rw [first_cons_ne hb, first_cons_ne hb, hstep hb]
    · have hclean : clean (b :: bs) = clean bs := by simp [clean, hs]
      have hb : folded (b.read k).1 ≠ key := by
        rintro rfl
        rcases hc pre b bs rfl hs with hfind | ⟨d, hd, heq⟩
        · exact find_isSome_iff.1 hfind hm
        · exact hpre d hd heq
      rw [hclean, List.map_cons, first_cons_ne hb, hstep hb]

theorem insertAll_eq_iff {l₁ l₂ : List (List UInt8 × List UInt8)} :
    mp.insertAll l₁ = mp.insertAll l₂ ↔
      ∀ key, mp.entry key = none → first folded key l₁ = first folded key l₂ := by
  constructor
  · intro h key hm
    have hentry := congrArg (entry key) h
    rw [entry_insertAll, entry_insertAll, hm] at hentry
    simpa using hentry
  · intro h
    refine ext_entry fun key => ?_
    rw [entry_insertAll, entry_insertAll]
    cases hm : mp.entry key with
    | none => rw [h key hm]
    | some e => rfl

/-- The first entry under a key of the pieces is that of a clean assignment. -/
theorem spare_iff {bs : List Binding} : Spare k mp bs ↔ ∀ key, mp.entry key = none →
    first folded key (bs.map (Binding.own k)) = first folded key ((clean bs).map (Binding.own k)) := by
  constructor
  · intro h key hm
    by_cases hkey : ∃ b ∈ bs, folded (b.own k).1 = key
    · obtain ⟨b, hb, rfl⟩ := hkey
      exact (h b hb).resolve_left fun hfind => find_isSome_iff.1 hfind hm
    · have hnone : ∀ ds : List Binding, ds ⊆ bs → first folded key (ds.map (Binding.own k)) = none :=
        fun ds hds => first_eq_none.2 fun e he heq => by
          obtain ⟨d, hd, rfl⟩ := List.mem_map.1 he
          exact hkey ⟨d, hds hd, heq⟩
      rw [hnone bs (List.Subset.refl _), hnone (clean bs) fun _ hd => (List.mem_filter.1 hd).1]
  · intro h b hb
    by_cases hm : mp.entry (folded (b.own k).1) = none
    · exact Or.inr (h _ hm)
    · exact Or.inl (find_isSome_iff.2 hm)

/-- The scanner fills the expected map exactly when the keys with a piece in front are there already
and the names behind these pieces are not missing. -/
theorem parseParam_eq_reference_iff (k : ParamText) (str : List UInt8) (mp : ParamMap) :
    parseParam k.flag k.trim str 0 mp = reference k str mp ↔
      Covered k mp (k.bindings str) ∧ Spare k mp (k.bindings str) := by
  rw [parseParam_eq, reference_eq, insertAll_eq_iff, spare_iff]
  constructor
  · intro h
    have hcov : Covered k mp (k.bindings str) := by
      intro pre b post heq hs
      by_contra hnot
      rw [not_or, find_isSome_iff, not_ne_iff] at hnot
      obtain ⟨hm, hpre⟩ := hnot
      -- the key is inserted with the separator in it, and no piece has such a key
      have hfirst : first folded (folded (b.read k).1) ((k.bindings str).map (Binding.read k)) =
          some (b.read k) := by
        rw [heq, List.map_append, first_append, first_eq_none.2, List.map_cons, first_cons_self]
        · rfl
        · intro e he hview
          obtain ⟨d, hd, rfl⟩ := List.mem_map.1 he
          exact hpre ⟨d, hd, hview⟩
      rw [h _ hm] at hfirst
      obtain ⟨d, hd, hown⟩ := List.mem_map.1 (List.mem_of_find?_eq_some hfirst)
      have hb : b ∈ k.bindings str := heq ▸ List.mem_append_right _ (List.mem_cons_self ..)
      have hflag := flag_mem_read hb hs
      rw [← hown] at hflag
      exact flag_not_mem_own hd hflag
    refine ⟨hcov, fun key hm => ?_⟩
    rw [← h key hm]
    exact first_read [] _ hcov (fun d hd => by cases hd) hm
  · rintro ⟨hcov, hspare⟩ key hm
    rw [first_read [] (k.bindings str) hcov (fun d hd => by cases hd) hm, hspare key hm]

/-- `a&b=1` gives the key `a&b`. -/
theorem parseParam_swallows :
    ¬∀ k str, parseParam (ParamText.flag k) k.trim str 0 ∅ = reference k str ∅ := by
  intro h
  have hq := h .query (ascii "a&b=1")
  rw [parseParam_eq] at hq
  exact absurd hq (by decide)

/-! ## Texts without NUL -/

theorem mem_of_mem_binding {b : Binding} (hb : b ∈ bindings flag front pieces)
    (hc : c ∈ b.swallowed ++ b.name) : c ∈ front ∨ c = flag ∨ ∃ p ∈ pieces, c ∈ p := by
  induction pieces generalizing front with
  | nil => cases hb
  | cons piece pieces ih =>
    rw [bindings] at hb
    split_ifs at hb
    · rcases List.mem_cons.1 hb with rfl | hb
      · rcases List.mem_append.1 hc with hc | hc
        · exact Or.inl hc
        · exact Or.inr (Or.inr ⟨piece, List.mem_cons_self .., List.takeWhile_subset _ hc⟩)
      · rcases ih hb with h | h | ⟨p, hp, h⟩
        · cases h
        · exact Or.inr (Or.inl h)
        · exact Or.inr (Or.inr ⟨p, List.mem_cons_of_mem _ hp, h⟩)
    · rcases ih hb with h | h | ⟨p, hp, h⟩
      · rcases List.mem_append.1 h with h | h
        · exact (List.mem_append.1 h).imp_right fun h => Or.inr ⟨piece, List.mem_cons_self .., h⟩
        · exact Or.inr (Or.inl (List.mem_singleton.1 h))
      · exact Or.inr (Or.inl h)
      · exact Or.inr (Or.inr ⟨p, List.mem_cons_of_mem _ hp, h⟩)

theorem mem_of_mem_splitOn (hp : piece ∈ str.splitOn flag) (hc : c ∈ piece) : c ∈ str := by
  have h : c ∈ [flag].intercalate (str.splitOn flag) := by
    generalize str.splitOn flag = pieces at hp
    induction pieces with
    | nil => cases hp
    | cons q pieces ih =>
      cases pieces with
      | nil =>
        rw [List.mem_singleton.1 hp] at hc
        simpa using hc
      | cons r pieces =>
        rw [List.intercalate_cons_cons]
        rcases List.mem_cons.1 hp with rfl | hp
        · exact List.mem_append_left _ (List.mem_append_left _ hc)
        · exact List.mem_append_right _ (ih hp)
  rwa [List.intercalate_splitOn] at h

theorem folded_of_no_nul (h : 0 ∉ l) : folded l = l.map tolower := by
  have hall : l.takeWhile (· ≠ 0) = l := by
    rw [List.takeWhile_eq_self_iff]
    intro b hb
    simpa using fun h0 : b = 0 => h (h0 ▸ hb)
  rw [folded, hall]

theorem eq_of_tolower : ∀ b : UInt8, tolower b = 38 ∨ tolower b = 59 → tolower b = b :=
  Wire.forall_byte (by decide +kernel)

theorem flag_mem_folded (h0 : 0 ∉ l) : k.flag ∈ folded l ↔ k.flag ∈ l := by
  rw [folded_of_no_nul h0, List.mem_map]
  constructor
  · rintro ⟨b, hb, heq⟩
    have hlow : tolower b = b := eq_of_tolower b (by rw [heq]; cases k <;> simp [ParamText.flag])
    rwa [← heq, hlow]
  · exact fun h => ⟨_, h, (flag_ne k).2.2⟩

/-- A text without NUL fills the empty map as expected when no piece without a `=` is followed by
one with a `=`. -/
theorem parseParam_eq_reference_of_no_nul (k : ParamText) {str : List UInt8} (h0 : 0 ∉ str) :
    parseParam k.flag k.trim str 0 ∅ = reference k str ∅ ↔
      ∀ b ∈ k.bindings str, b.swallowed = [] := by
  have hnul : ∀ b ∈ k.bindings str, 0 ∉ (b.read k).1 ∧ 0 ∉ (b.own k).1 := by
    have hall : ∀ b ∈ k.bindings str, 0 ∉ b.swallowed ++ b.name := by
      intro b hb hc
      rcases mem_of_mem_binding hb hc with h | h | ⟨p, hp, h⟩
      · cases h
      · exact absurd h (by cases k <;> decide)
      · exact h0 (mem_of_mem_splitOn hp h)
    intro b hb
    constructor
    · exact fun h => hall b hb (mem_of_mem_trimKey h)
    · exact fun h => hall b hb (List.mem_append_right _ (mem_of_mem_trimKey h))
  rw [parseParam_eq_reference_iff]
  constructor
  · rintro ⟨hcov, -⟩
    -- the first key with the separator in it is not among those before it
    have hpre : ∀ n pre b post, pre.length = n → k.bindings str = pre ++ b :: post →
        b.swallowed = [] := by
      intro n
      induction n using Nat.strong_induction_on with
      | _ n ih =>
        intro pre b post hn heq
        by_contra hs
        have hb : b ∈ k.bindings str := heq ▸ List.mem_append_right _ (List.mem_cons_self ..)
        rcases hcov pre b post heq hs with h | ⟨d, hd, hfold⟩
        · cases h
        · obtain ⟨pre', post', rfl⟩ := List.append_of_mem hd
          have hd' : d ∈ k.bindings str := heq ▸ List.mem_append_left _ hd
          have hclean : d.swallowed = [] := ih pre'.length (by rw [← hn]; simp) pre' d
            (post' ++ b :: post) rfl (by rw [heq]; simp)
          have hflag := (flag_mem_folded (hnul b hb).1).2 (flag_mem_read hb hs)
          rw [← hfold, read_eq_own hclean, flag_mem_folded (hnul d hd').2] at hflag
          exact flag_not_mem_own hd' hflag
    intro b hb
    obtain ⟨pre, post, heq⟩ := List.append_of_mem hb
    exact hpre _ pre b post rfl heq
  · intro h
    have hclean : clean (k.bindings str) = k.bindings str := by
      rw [clean, List.filter_eq_self]
      exact fun b hb => by simpa using h b hb
    constructor
    · intro pre b post heq hs
      exact absurd (h b (heq ▸ List.mem_append_right _ (List.mem_cons_self ..))) hs
    · intro b _
      rw [hclean]
      exact Or.inr rfl

end

end CoroutineScheduler.Http

import Mathlib.Algebra.Order.BigOperators.Group.List
import CoroutineScheduler.Http.LazyParams

/-!
# Queries that are written with `UrlEncode`

A query that is put together from keys and values with `UrlEncode`, as the parameters read it back. The
values are decoded, the keys are not, and a `=` in a key is written as it is: `recovers_iff` says which
keys come back.
-/

namespace CoroutineScheduler.Http

open StringUtil OrderedMap

/-- One assignment of a query. -/
def encodePair (p : List UInt8 × List UInt8) : List UInt8 :=
  urlEncode true p.1 ++ 61 :: urlEncode true p.2

/-- The query of a list of keys and values. -/
def queryOf (ps : List (List UInt8 × List UInt8)) : List UInt8 := [38].intercalate (ps.map encodePair)

/-- A new request with this query. -/
def requestOf (version : UInt8) (close : Bool) (ps : List (List UInt8 × List UInt8)) : ParamRequest :=
  { version, close, query := queryOf ps }

/-- Keys of parameters: not empty, without NUL, and different for the map. -/
structure Keys (ps : List (List UInt8 × List UInt8)) : Prop where
  nonempty : ∀ p ∈ ps, p.1 ≠ []
  nul : ∀ p ∈ ps, 0 ∉ p.1
  distinct : ps.Pairwise fun p q => folded p.1 ≠ folded q.1

/-- The parameters of the request are these. -/
def Recovers (ps : List (List UInt8 × List UInt8)) (r : ParamRequest) : Prop :=
  (∀ p ∈ ps, ∀ default, (r.getParam p.1 default).1 = p.2) ∧
    ∀ key, (r.hasParam key).1.isSome → ∃ p ∈ ps, folded p.1 = folded key

/-- A byte that stays as it is, in a key as well. -/
def plainKeyByte (c : UInt8) : Bool := uriChars c && c ≠ 61

section
variable {ps : List (List UInt8 × List UInt8)} {p : List UInt8 × List UInt8} {s t : List UInt8}
  {c : UInt8} {version : UInt8} {close : Bool}

/-! ## Encoded texts -/

theorem encodeByte_bytes {b : UInt8} (h : b ∈ encodeByte true c) :
    b ≠ 0 ∧ b ≠ 38 ∧ b ≠ 32 ∧ (b = 61 → c = 61) := by
  have hall : ∀ c : UInt8, ((encodeByte true c).all fun b =>
      decide (b ≠ 0 ∧ b ≠ 38 ∧ b ≠ 32 ∧ (b = 61 → c = 61))) = true :=
    Wire.forall_byte (by decide +kernel)
  exact of_decide_eq_true (List.all_eq_true.1 (hall c) b h)

theorem urlEncode_bytes {b : UInt8} (h : b ∈ urlEncode true s) :
    b ≠ 0 ∧ b ≠ 38 ∧ b ≠ 32 ∧ (b = 61 → 61 ∈ s) := by
  obtain ⟨c, hc, hb⟩ := List.mem_flatMap.1 h
  obtain ⟨h0, h38, h32, h61⟩ := encodeByte_bytes hb
  exact ⟨h0, h38, h32, fun he => h61 he ▸ hc⟩

theorem length_encodeByte : ∀ c : UInt8, 1 ≤ (encodeByte true c).length ∧
    ((encodeByte true c).length = 1 → uriChars c = true ∨ c = 32) :=
  Wire.forall_byte (by decide +kernel)

theorem length_le_urlEncode (s : List UInt8) : s.length ≤ (urlEncode true s).length := by
  induction s with
  | nil => exact Nat.le_refl _
  | cons c s ih =>
    have hc := (length_encodeByte c).1
    rw [urlEncode, List.flatMap_cons, List.length_append, List.length_cons]
    rw [urlEncode] at ih
    omega

/-- What is not longer when it is encoded has only bytes that stay, and spaces. -/
theorem uriChars_of_length (h : (urlEncode true s).length = s.length) :
    ∀ c ∈ s, uriChars c = true ∨ c = 32 := by
  induction s with
  | nil => exact fun c hc => absurd hc List.not_mem_nil
  | cons b s ih =>
    obtain ⟨hb, hone⟩ := length_encodeByte b
    have hs := length_le_urlEncode s
    rw [urlEncode, List.flatMap_cons, List.length_append, List.length_cons, ← urlEncode] at h
    intro c hc
    rcases List.mem_cons.1 hc with rfl | hc
    · exact hone (by omega)
    · exact ih (by omega) c hc

theorem urlEncode_of_plain (h : ∀ c ∈ s, plainKeyByte c = true) : urlEncode true s = s := by
  induction s with
  | nil => rfl
  | cons b s ih =>
    have hb : uriChars b = true := (Bool.and_eq_true_iff.1 (h b (List.mem_cons_self ..))).1
    rw [urlEncode, List.flatMap_cons, encodeByte, if_pos hb, ← urlEncode,
      ih fun c hc => h c (List.mem_cons_of_mem _ hc)]
    rfl

theorem nameOf_append : nameOf (s ++ 61 :: t) = nameOf s := by
  induction s with
  | nil => simp [nameOf]
  | cons b s ih =>
    simp only [nameOf] at ih ⊢
    rw [List.cons_append, List.takeWhile_cons, List.takeWhile_cons, ih]

theorem nameOf_of_not_mem (h : 61 ∉ s) : nameOf s = s := by
  rw [nameOf, List.takeWhile_eq_self_iff]
  exact fun b hb => by simpa using fun he : b = 61 => h (he ▸ hb)

theorem valueOf_append (h : 61 ∉ s) : valueOf (s ++ 61 :: t) = t := by
  have hs : ∀ b ∈ s, (b ≠ 61 : Bool) = true := fun b hb => by
    simpa using fun he : b = 61 => h (he ▸ hb)
  rw [valueOf, List.dropWhile_append_of_pos hs]
  simp

/-! ## The entries of the query -/

/-- The entry that a pair comes back as. -/
def entryOf (p : List UInt8 × List UInt8) : List UInt8 × List UInt8 :=
  (nameOf (urlEncode true p.1), urlDecode true (valueOf (encodePair p)))

theorem bindings_of_all {flag : UInt8} {pieces : List (List UInt8)} (h : ∀ q ∈ pieces, 61 ∈ q) :
    bindings flag [] pieces = pieces.map fun q => ⟨[], nameOf q, valueOf q⟩ := by
  induction pieces with
  | nil => rfl
  | cons q pieces ih =>
    rw [bindings, if_pos (h q (List.mem_cons_self ..)), List.map_cons,
      ih fun r hr => h r (List.mem_cons_of_mem _ hr)]

theorem bindings_queryOf (ps : List (List UInt8 × List UInt8)) :
    (ParamText.query.bindings (queryOf ps)).map (Binding.read .query) = ps.map entryOf := by
  rcases List.eq_nil_or_concat ps with rfl | ⟨_, _, _⟩
  · rfl
  have hne : ps.map encodePair ≠ [] := by simp [*]
  have hsplit : (queryOf ps).splitOn 38 = ps.map encodePair := by
    refine List.splitOn_intercalate _ (fun q hq => ?_) hne
    obtain ⟨p, -, rfl⟩ := List.mem_map.1 hq
    intro h38
    rcases List.mem_append.1 h38 with h | h
    · exact (urlEncode_bytes h).2.1 rfl
    · rcases List.mem_cons.1 h with h | h
      · cases h
      · exact (urlEncode_bytes h).2.1 rfl
  have hall : ∀ q ∈ ps.map encodePair, 61 ∈ q := fun q hq => by
    obtain ⟨p, -, rfl⟩ := List.mem_map.1 hq
    exact List.mem_append_right _ (List.mem_cons_self ..)
  rw [ParamText.bindings, ParamText.flag, hsplit, bindings_of_all hall, List.map_map, List.map_map]
  refine List.map_congr_left fun p _ => ?_
  simp [Binding.read, ParamText.trim, entryOf, encodePair, nameOf_append]

theorem map_requestOf : ((requestOf version close ps).load .params).map .params =
    insertAll (ps.map entryOf) ∅ := by
  have hbody : (requestOf version close ps).bodyPending = [] := by
    rw [ParamRequest.bodyPending, if_neg (by simp [requestOf]), if_pos (by rfl)]
  have hquery : (requestOf version close ps).queryPending = ps.map entryOf := by
    rw [ParamRequest.queryPending, if_neg (by simp [requestOf])]
    exact bindings_queryOf ps
  rw [ParamRequest.map_load, ParamRequest.pending, hbody, hquery, List.append_nil]
  rfl

theorem find_requestOf (key : List UInt8) :
    ((requestOf version close ps).load .params |>.map .params).find key =
      (first folded (folded key) (ps.map entryOf)).map Prod.snd := by
  rw [map_requestOf, OrderedMap.find, entry_insertAll]
  rfl

/-! ## Which keys come back -/

theorem entryOf_of_plain (h : ∀ c ∈ p.1, plainKeyByte c = true) : entryOf p = p := by
  have h61 : 61 ∉ p.1 := fun hm => absurd (h 61 hm) (by decide)
  rw [entryOf, encodePair, urlEncode_of_plain h, nameOf_of_not_mem h61, valueOf_append h61,
    urlDecode_urlEncode]

/-- Different keys have each its own entry. -/
theorem first_of_distinct (hd : ps.Pairwise fun p q => folded p.1 ≠ folded q.1) (hp : p ∈ ps) :
    first folded (folded p.1) ps = some p := by
  induction ps with
  | nil => cases hp
  | cons q ps ih =>
    obtain ⟨hq, hd'⟩ := List.pairwise_cons.1 hd
    rcases List.mem_cons.1 hp with rfl | hp
    · exact first_cons_self
    · rw [first_cons_ne (hq p hp), ih hd' hp]

theorem recovers_of_plain (hk : Keys ps) (h : ∀ p ∈ ps, ∀ c ∈ p.1, plainKeyByte c = true) :
    Recovers ps (requestOf version close ps) := by
  have hentries : ps.map entryOf = ps := by
    conv_rhs => rw [← List.map_id ps]
    exact List.map_congr_left fun p hp => entryOf_of_plain (h p hp)
  constructor
  · intro p hp default
    rw [ParamRequest.getParam, ParamRequest.get, find_requestOf, hentries,
      first_of_distinct hk.distinct hp]
    rfl
  · intro key hkey
    rw [ParamRequest.hasParam, ParamRequest.has, find_requestOf, hentries, Option.isSome_map,
      Option.isSome_iff_exists] at hkey
    obtain ⟨p, hp⟩ := hkey
    exact ⟨p, List.mem_of_find?_eq_some hp, view_of_first hp⟩

/-- A key that comes back is one of those that were read. -/
theorem folded_mem_of_recovers (h : Recovers ps (requestOf version close ps)) (hp : p ∈ ps) :
    folded p.1 ∈ ps.map fun q => folded (nameOf (urlEncode true q.1)) := by
  have hget := h.1 p hp (0 :: p.2)
  rw [ParamRequest.getParam, ParamRequest.get, find_requestOf] at hget
  cases hfirst : first folded (folded p.1) (ps.map entryOf) with
  | none =>
    rw [hfirst] at hget
    exact absurd (congrArg List.length hget) (by simp)
  | some e =>
    obtain ⟨q, hq, rfl⟩ := List.mem_map.1 (List.mem_of_find?_eq_some hfirst)
    exact List.mem_map.2 ⟨q, hq, view_of_first hfirst⟩

theorem tolower_cases : ∀ b : UInt8, (tolower b = 61 → b = 61) ∧ (tolower b = 32 → b = 32) ∧
    tolower 61 = 61 ∧ tolower 32 = 32 :=
  Wire.forall_byte (by decide +kernel)

/-- No key that was read has a `=` or a space. -/
theorem not_mem_folded_nameOf (s : List UInt8) :
    61 ∉ folded (nameOf (urlEncode true s)) ∧ 32 ∉ folded (nameOf (urlEncode true s)) := by
  have h0 : 0 ∉ nameOf (urlEncode true s) := fun h =>
    (urlEncode_bytes (List.takeWhile_subset _ h)).1 rfl
  rw [folded_of_no_nul h0]
  constructor
  · intro h
    obtain ⟨b, hb, heq⟩ := List.mem_map.1 h
    rw [(tolower_cases b).1 heq] at hb
    exact not_mem_nameOf _ hb
  · intro h
    obtain ⟨b, hb, heq⟩ := List.mem_map.1 h
    exact (urlEncode_bytes (List.takeWhile_subset _ hb)).2.2.1 ((tolower_cases b).2.1 heq)

theorem mem_folded_of_mem (h0 : 0 ∉ s) (hc : c ∈ s) (hlow : tolower c = c) : c ∈ folded s := by
  rw [folded_of_no_nul h0]
  exact List.mem_map.2 ⟨c, hc, hlow⟩

theorem length_folded (h0 : 0 ∉ s) : (folded s).length = s.length := by
  rw [folded_of_no_nul h0, List.length_map]

theorem plain_of_recovers (hk : Keys ps) (h : Recovers ps (requestOf version close ps)) :
    ∀ p ∈ ps, ∀ c ∈ p.1, plainKeyByte c = true := by
  have hsubset : (ps.map fun p => folded p.1) ⊆ ps.map fun q => folded (nameOf (urlEncode true q.1)) := by
    intro f hf
    obtain ⟨p, hp, rfl⟩ := List.mem_map.1 hf
    exact folded_mem_of_recovers h hp
  -- as many keys were read as there are keys: they are the same, in some order
  have hperm : (ps.map fun p => folded p.1).Perm
      (ps.map fun q => folded (nameOf (urlEncode true q.1))) :=
    (List.Nodup.subperm (List.pairwise_map.2 hk.distinct) hsubset).perm_of_length_le (by simp)
  have hclean : ∀ p ∈ ps, 61 ∉ p.1 ∧ 32 ∉ p.1 := by
    intro p hp
    obtain ⟨q, -, heq⟩ := List.mem_map.1 (folded_mem_of_recovers h hp)
    obtain ⟨h61, h32⟩ := not_mem_folded_nameOf q.1
    have hlow := tolower_cases 0
    rw [heq] at h61 h32
    exact ⟨fun hm => h61 (mem_folded_of_mem (hk.nul p hp) hm hlow.2.2.1),
      fun hm => h32 (mem_folded_of_mem (hk.nul p hp) hm hlow.2.2.2)⟩
  have hsum : (ps.map fun p => p.1.length).sum = (ps.map fun p => (urlEncode true p.1).length).sum := by
    have hlen := (hperm.map List.length).sum_eq
    rw [List.map_map, List.map_map] at hlen
    calc (ps.map fun p => p.1.length).sum
        = (ps.map (List.length ∘ fun p => folded p.1)).sum := by
          refine congrArg List.sum (List.map_congr_left fun p hp => ?_)
          exact (length_folded (hk.nul p hp)).symm
      _ = (ps.map (List.length ∘ fun q => folded (nameOf (urlEncode true q.1)))).sum := hlen
      _ = (ps.map fun p => (urlEncode true p.1).length).sum := by
          refine congrArg List.sum (List.map_congr_left fun p hp => ?_)
          have h61 : 61 ∉ urlEncode true p.1 := fun hm => (hclean p hp).1 ((urlEncode_bytes hm).2.2.2 rfl)
          have h0 : 0 ∉ urlEncode true p.1 := fun hm => (urlEncode_bytes hm).1 rfl
          rw [Function.comp_apply, nameOf_of_not_mem h61, length_folded h0]
  intro p hp c hc
  have hlen : (urlEncode true p.1).length = p.1.length := by
    by_contra hne
    have hlt : p.1.length < (urlEncode true p.1).length :=
      lt_of_le_of_ne (length_le_urlEncode p.1) (Ne.symm hne)
    exact absurd hsum (ne_of_lt (List.sum_lt_sum _ _ (fun q _ => length_le_urlEncode q.1) ⟨p, hp, hlt⟩))
  have h61 : c ≠ 61 := fun he => (hclean p hp).1 (he ▸ hc)
  have h32 : c ≠ 32 := fun he => (hclean p hp).2 (he ▸ hc)
  have huri : uriChars c = true := (uriChars_of_length hlen c hc).resolve_right h32
  simp [plainKeyByte, huri, h61]

/-- The pairs come back exactly when every byte of every key is one of `-.0-9A-Z_a-z~`. -/
theorem recovers_iff (version : UInt8) (close : Bool) {ps : List (List UInt8 × List UInt8)}
    (hk : Keys ps) : Recovers ps (requestOf version close ps) ↔
      ∀ p ∈ ps, ∀ c ∈ p.1, plainKeyByte c = true :=
  ⟨plain_of_recovers hk, recovers_of_plain hk⟩

theorem recovers_iff_two :
    Recovers [(ascii "a", ascii "1&2"), (ascii "b", [])]
        (requestOf 0x11 true [(ascii "a", ascii "1&2"), (ascii "b", [])]) ↔
      ∀ p ∈ [(ascii "a", ascii "1&2"), (ascii "b", [])], ∀ c ∈ p.1, plainKeyByte c = true :=
  recovers_iff _ _ ⟨by decide, by decide, by decide⟩

/-- A key with a space is not found again. -/
theorem not_recovers_space : ¬∀ ps, Keys ps → Recovers ps (requestOf 0x11 true ps) := by
  intro h
  have hk : Keys [(ascii "a b", ascii "1")] :=
    { nonempty := by decide, nul := by decide, distinct := by decide }
  have hplain := plain_of_recovers hk (h _ hk)
  exact absurd hplain (by decide)

end

end CoroutineScheduler.Http

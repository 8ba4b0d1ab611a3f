import CoroutineScheduler.Lib.Splice
import CoroutineScheduler.Util.Url
import Mathlib.Data.List.TakeWhile

/-!
# The host and the service of a lookup

`Address::Lookup` up to its call of `getaddrinfo`: the two searches that set `node` and `service`, with
`service` as an offset into the text of `host` and every read checked against its end (`lookup_ok`).
`lookup_right_iff` says for which hosts the call receives the node and the service of the host: a literal
without brackets is passed with a service.
-/

namespace CoroutineScheduler.Address

open Splice StringUtil

/-- A read outside of the text and its final NUL. -/
structure OutOfText

/-- `memchr(host.c_str() + off, c, n)`, as an offset. -/
def memchr (host : List UInt8) (off : ℕ) (c : UInt8) (n : ℕ) : Except OutOfText (Option ℕ) :=
  if off + n ≤ host.length + 1 then .ok (((slice (host ++ [0]) off n).idxOf? c).map (off + ·))
  else .error ⟨⟩

/-- `*(host.c_str() + off)`. -/
def charAt (host : List UInt8) (off : ℕ) : Except OutOfText UInt8 :=
  if h : off < (host ++ [0]).length then .ok (host ++ [0])[off] else .error ⟨⟩

/-- The text that a `const char*` points to. -/
def cText (s : List UInt8) : List UInt8 := s.takeWhile (· ≠ 0)

/-- `host.c_str() + off` as a text. -/
def cTextAt (host : List UInt8) (off : ℕ) : Except OutOfText (List UInt8) :=
  if off ≤ host.length then .ok (cText (host.drop off)) else .error ⟨⟩

/-- Step 1, `[xxx]:service`: `node` and `service` after it. -/
def bracketed (host : List UInt8) : Except OutOfText (List UInt8 × Option ℕ) := do
  if host.head? = some 91 then
    match ← memchr host 1 93 (host.length - 1) with
    | none => return ([], none)
    | some endipv6 =>
      let next ← charAt host (endipv6 + 1)
      return (slice host 1 (endipv6 - 1), if next = 58 then some (endipv6 + 2) else none)
  else return ([], none)

/-- Step 2, `xxx:service`. -/
def colonSplit (host : List UInt8) : Except OutOfText (List UInt8 × Option ℕ) := do
  match ← memchr host 0 58 host.length with
  | none => return ([], none)
  | some service =>
    match ← memchr host (service + 1) 58 (host.length - service - 1) with
    | none => return (slice host 0 service, some (service + 1))
    -- a second colon: the node stays empty, and `service` stays at the first one
    | some _ => return ([], some service)

/-- `node` and `service` after both steps; the second one is for an empty node. -/
def splitHost (host : List UInt8) : Except OutOfText (List UInt8 × Option ℕ) := do
  let p ← bracketed host
  if p.1 = [] then colonSplit host else return p

/-- The two texts that `getaddrinfo` receives. -/
def lookup (host : List UInt8) : Except OutOfText (List UInt8 × Option (List UInt8)) := do
  let p ← splitHost host
  let service ← p.2.mapM (cTextAt host)
  return (cText (if p.1 = [] then host else p.1), service)

/-- The forms of a host. -/
inductive Form
  | node (n : List UInt8)
  | nodeService (n s : List UInt8)
  | v6 (a : List UInt8)
  | v6Service (a s : List UInt8)
  | bare (a : List UInt8)
  deriving DecidableEq, Repr

/-- A literal: at least two colons and no bracket. -/
def Literal (a : List UInt8) : Prop := 2 ≤ a.count 58 ∧ 91 ∉ a ∧ 93 ∉ a

namespace Form

def text : Form → List UInt8
  | node n => n
  | nodeService n s => n ++ 58 :: s
  | v6 a => 91 :: (a ++ [93])
  | v6Service a s => 91 :: (a ++ 93 :: 58 :: s)
  | bare a => a

/-- The node and the service that are meant. -/
def meaning : Form → List UInt8 × Option (List UInt8)
  | node n => (n, none)
  | nodeService n s => (n, some s)
  | v6 a => (a, none)
  | v6Service a s => (a, some s)
  | bare a => (a, none)

def Valid : Form → Prop
  | node n => n ≠ [] ∧ 58 ∉ n ∧ 93 ∉ n
  | nodeService n s => n ≠ [] ∧ 58 ∉ n ∧ 93 ∉ n ∧ s ≠ []
  | v6 a => Literal a
  | v6Service a s => Literal a ∧ s ≠ []
  | bare a => Literal a

/-- No literal without brackets; no NUL in the node or the service, no colon in the service of a node, and
no bracket in it behind a node with an opening one. -/
def Plain : Form → Prop
  | node n => 0 ∉ n
  | nodeService n s => 0 ∉ n ∧ 0 ∉ s ∧ 58 ∉ s ∧ ¬(n.head? = some 91 ∧ 93 ∈ s)
  | v6 a => 0 ∉ a
  | v6Service a s => 0 ∉ a ∧ 0 ∉ s
  | bare _ => False

/-- `getaddrinfo` receives what is meant, and nothing outside of the text is read. -/
def Right (f : Form) : Prop := lookup f.text = .ok f.meaning

end Form

section
variable {host n s a l r : List UInt8} {c : UInt8} {off : ℕ}

/-! ## The searches -/

/-- A search up to the end of the text. -/
theorem memchr_eq (h : off ≤ host.length) :
    memchr host off c (host.length - off) = .ok (findFrom host c off) := by
  have hslice : slice (host ++ [0]) off (host.length - off) = host.drop off := by
    rw [slice, List.drop_append_of_le_length h, List.take_left' (List.length_drop ..)]
  rw [memchr, if_pos (by omega), hslice]
  rfl

theorem charAt_eq {b : UInt8} (h : (host ++ [0])[off]? = some b) : charAt host off = .ok b := by
  obtain ⟨hlt, hb⟩ := List.getElem?_eq_some_iff.1 h
  rw [charAt, dif_pos hlt, hb]

theorem bracketed_of_ne (h : host.head? ≠ some 91) : bracketed host = .ok ([], none) := by
  rw [bracketed, if_neg h]
  rfl

theorem bracketed_none (h : 93 ∉ host.tail) : bracketed host = .ok ([], none) := by
  by_cases hhead : host.head? = some 91
  · have hpos : 1 ≤ host.length := by
      cases host with
      | nil => cases hhead
      | cons b host => simp
    have hfind : findFrom host 93 1 = none := findFrom_eq_none List.drop_one h
    rw [bracketed, if_pos hhead, memchr_eq hpos, hfind]
    rfl
  · exact bracketed_of_ne hhead

theorem bracketed_some (ha : 93 ∉ a) : bracketed (91 :: (a ++ 93 :: r)) =
    .ok (a, if r.head? = some 58 then some (a.length + 3) else none) := by
  have hdrop : (91 :: (a ++ 93 :: r)).drop 1 = a ++ 93 :: r := rfl
  have hfind : findFrom (91 :: (a ++ 93 :: r)) 93 1 = some (1 + a.length) := findFrom_eq_some hdrop ha
  have hnext : (91 :: (a ++ 93 :: r) ++ [0])[1 + a.length + 1]? = some (r.headD 0) := by
    have hsplit : 91 :: (a ++ 93 :: r) ++ [0] = (91 :: (a ++ [93])) ++ (r ++ [0]) := by simp
    rw [hsplit, List.getElem?_append_right (by simp)]
    cases r <;> simp [Nat.add_comm]
  have hnode : slice (91 :: (a ++ 93 :: r)) 1 (1 + a.length - 1) = a := by
    rw [slice, hdrop, Nat.add_sub_cancel_left, List.take_left]
  have hcolon : (r.headD 0 = 58) = (r.head? = some 58) := by
    cases r <;> simp
  have hhead : (91 :: (a ++ 93 :: r)).head? = some 91 := rfl
  rw [bracketed, if_pos hhead, memchr_eq (by simp), hfind]
  show (charAt _ (1 + a.length + 1) >>= _) = _
  rw [charAt_eq hnext]
  show Except.ok (slice _ 1 (1 + a.length - 1), _) = _
  rw [hnode]
  simp only [hcolon, show 1 + a.length + 2 = a.length + 3 by omega]

theorem colonSplit_none (h : 58 ∉ host) : colonSplit host = .ok ([], none) := by
  have hfind : findFrom host 58 0 = none := findFrom_eq_none List.drop_zero h
  have hsearch := memchr_eq (c := 58) (Nat.zero_le host.length)
  rw [Nat.sub_zero, hfind] at hsearch
  rw [colonSplit, hsearch]
  rfl

theorem colonSplit_colon (hn : 58 ∉ n) : colonSplit (n ++ 58 :: s) =
    .ok (if 58 ∈ s then ([], some n.length) else (n, some (n.length + 1))) := by
  have hfind : findFrom (n ++ 58 :: s) 58 0 = some n.length := by
    rw [findFrom_eq_some List.drop_zero hn, Nat.zero_add]
  have hsearch := memchr_eq (c := 58) (Nat.zero_le (n ++ 58 :: s).length)
  have hdrop : (n ++ 58 :: s).drop (n.length + 1) = s := by
    rw [← List.drop_drop, List.drop_left]
    rfl
  have hsecond : memchr (n ++ 58 :: s) (n.length + 1) 58 ((n ++ 58 :: s).length - (n.length + 1)) =
      .ok (findFrom (n ++ 58 :: s) 58 (n.length + 1)) := memchr_eq (by simp)
  rw [Nat.sub_zero, hfind] at hsearch
  rw [← Nat.sub_sub] at hsecond
  rw [colonSplit, hsearch]
  show (memchr _ (n.length + 1) 58 ((n ++ 58 :: s).length - n.length - 1) >>= _) = _
  rw [hsecond]
  by_cases hs : 58 ∈ s
  · obtain ⟨l, r, rfl, hl⟩ := List.eq_append_cons_of_mem hs
    rw [findFrom_eq_some hdrop hl, if_pos hs]
    rfl
  · have hnode : slice (n ++ 58 :: s) 0 n.length = n := by
      rw [slice, List.drop_zero, List.take_left]
    rw [findFrom_eq_none hdrop hs, if_neg hs]
    show Except.ok (slice (n ++ 58 :: s) 0 n.length, some (n.length + 1)) = _
    rw [hnode]

/-! ## The call -/

theorem splitHost_of_bracketed {node : List UInt8} {service : Option ℕ}
    (h : bracketed host = .ok (node, service)) (hne : node ≠ []) :
    splitHost host = .ok (node, service) := by
  rw [splitHost, h]
  exact if_neg hne

theorem splitHost_of_colon {service : Option ℕ} (h : bracketed host = .ok ([], service)) :
    splitHost host = colonSplit host := by
  rw [splitHost, h]
  show (if ([] : List UInt8) = [] then colonSplit host else pure ([], service)) = _
  rw [if_pos rfl]

theorem lookup_none {node : List UInt8} (h : splitHost host = .ok (node, none)) :
    lookup host = .ok (cText (if node = [] then host else node), none) := by
  rw [lookup, h]
  rfl

theorem lookup_some {node : List UInt8} (h : splitHost host = .ok (node, some off))
    (hoff : off ≤ host.length) : lookup host =
      .ok (cText (if node = [] then host else node), some (cText (host.drop off))) := by
  have hservice : cTextAt host off = .ok (cText (host.drop off)) := if_pos hoff
  rw [lookup, h]
  show ((some off).mapM (cTextAt host) >>= _) = _
  rw [Option.mapM_some, hservice]
  rfl

/-- A node, with a service or without. -/
theorem lookup_node (h58 : 58 ∉ n) (hb : bracketed n = .ok ([], none)) :
    lookup n = .ok (cText n, none) := by
  rw [lookup_none ((splitHost_of_colon hb).trans (colonSplit_none h58)), if_pos rfl]

theorem lookup_nodeService (h58 : 58 ∉ n) (hne : n ≠ [])
    (hb : bracketed (n ++ 58 :: s) = .ok ([], none)) : lookup (n ++ 58 :: s) =
      .ok (if 58 ∈ s then (cText (n ++ 58 :: s), some (cText (58 :: s))) else (cText n, some (cText s))) := by
  have hsplit := (splitHost_of_colon hb).trans (colonSplit_colon h58)
  have hlen : n.length + 1 ≤ (n ++ 58 :: s).length := by simp
  have hdrop : (n ++ 58 :: s).drop (n.length + 1) = s := by
    rw [← List.drop_drop, List.drop_left]
    rfl
  by_cases hs : 58 ∈ s
  · rw [if_pos hs] at hsplit ⊢
    rw [lookup_some hsplit (by omega), if_pos rfl, List.drop_left]
  · rw [if_neg hs] at hsplit ⊢
    rw [lookup_some hsplit hlen, if_neg hne, hdrop]

/-- A node in brackets. -/
theorem lookup_bracketed (ha : 93 ∉ a) (hne : a ≠ []) : lookup (91 :: (a ++ 93 :: r)) =
    .ok (cText a, if r.head? = some 58 then some (cText r.tail) else none) := by
  have hsplit := splitHost_of_bracketed (bracketed_some (r := r) ha) hne
  cases r with
  | nil =>
    rw [lookup_none hsplit, if_neg hne]
    rfl
  | cons b r =>
    by_cases hb : b = 58
    · subst hb
      have hdrop : (91 :: (a ++ 93 :: 58 :: r)).drop (a.length + 3) = r := by
        rw [show 91 :: (a ++ 93 :: 58 :: r) = (91 :: (a ++ [93, 58])) ++ r by simp]
        exact List.drop_left' (by simp)
      have hlen : a.length + 3 ≤ (91 :: (a ++ 93 :: 58 :: r)).length := by simp
      rw [lookup_some hsplit hlen, if_neg hne, hdrop]
      rfl
    · have hhead : ¬(b :: r).head? = some 58 := by simpa using hb
      rw [if_neg hhead] at hsplit ⊢
      rw [lookup_none hsplit, if_neg hne]

/-- No host makes the lookup read outside of its text. -/
theorem lookup_ok (host : List UInt8) : ∃ args, lookup host = .ok args := by
  have hcolon : ∀ service, bracketed host = .ok ([], service) → ∃ args, lookup host = .ok args := by
    intro service hb
    have hsplit := splitHost_of_colon hb
    by_cases h58 : 58 ∈ host
    · obtain ⟨n, s, rfl, hn⟩ := List.eq_append_cons_of_mem h58
      rw [colonSplit_colon hn] at hsplit
      have hlen : n.length + 1 ≤ (n ++ 58 :: s).length := by simp
      by_cases hs : 58 ∈ s
      · rw [if_pos hs] at hsplit
        exact ⟨_, lookup_some hsplit (by omega)⟩
      · rw [if_neg hs] at hsplit
        exact ⟨_, lookup_some hsplit hlen⟩
    · exact ⟨_, lookup_none (hsplit.trans (colonSplit_none h58))⟩
  by_cases h93 : 93 ∈ host.tail ∧ host.head? = some 91
  · obtain ⟨a, r, htail, ha⟩ := List.eq_append_cons_of_mem h93.1
    obtain rfl : host = 91 :: (a ++ 93 :: r) := by
      rw [← htail]
      exact List.eq_cons_of_mem_head? h93.2
    by_cases hne : a = []
    · subst hne
      exact hcolon _ (bracketed_some ha)
    · exact ⟨_, lookup_bracketed ha hne⟩
  · by_cases hhead : host.head? = some 91
    · exact hcolon _ (bracketed_none fun h => h93 ⟨h, hhead⟩)
    · exact hcolon _ (bracketed_of_ne hhead)

/-! ## The forms -/

theorem cText_eq_self : cText s = s ↔ 0 ∉ s := by
  constructor
  · intro h h0
    rw [← h] at h0
    simpa using List.mem_takeWhile_imp h0
  · intro h
    rw [cText, List.takeWhile_eq_self_iff]
    exact fun b hb => by simpa using fun h0 : b = 0 => h (h0 ▸ hb)

theorem Literal.ne_nil (h : Literal a) : a ≠ [] := by
  rintro rfl
  exact absurd h.1 (by simp)

/-- A closing bracket in the service of a node with an opening one is taken for the end of a literal. -/
theorem not_right_bracket (h58 : 58 ∉ n) (h93 : 93 ∉ n) (hb : n.head? = some 91 ∧ 93 ∈ s) :
    ¬(Form.nodeService n s).Right := by
  obtain ⟨l, r, rfl, hl⟩ := List.eq_append_cons_of_mem hb.2
  obtain ⟨n, rfl⟩ : ∃ t, n = 91 :: t := ⟨_, List.eq_cons_of_mem_head? hb.1⟩
  have hmem : 93 ∉ n ++ 58 :: l := by
    have hn : 93 ∉ n := fun h => h93 (List.mem_cons_of_mem _ h)
    simp [hn, hl]
  have hrun := lookup_bracketed (a := n ++ 58 :: l) (r := r) hmem (by simp)
  have htext : (Form.nodeService (91 :: n) (l ++ 93 :: r)).text = 91 :: (n ++ 58 :: l ++ 93 :: r) := by
    simp [Form.text]
  intro hright
  rw [Form.Right, htext, hrun] at hright
  have hnode : cText (n ++ 58 :: l) = 91 :: n := congrArg Prod.fst (Except.ok.inj hright)
  -- the node that is passed is as long as the text up to the colon, and without it
  have hpre : 91 :: n <+: n ++ 58 :: l := hnode ▸ List.takeWhile_prefix _
  have hpre' : n ++ [58] <+: n ++ 58 :: l := ⟨l, by simp⟩
  have heq : n ++ [58] = 91 :: n := by
    refine List.IsPrefix.eq_of_length (List.prefix_of_prefix_length_le hpre' hpre (by simp)) (by simp)
  exact h58 (heq ▸ by simp)

/-- A colon in the service leaves the whole host as the node. -/
theorem not_right_colon (h58 : 58 ∉ n) (hne : n ≠ []) (hb : bracketed (n ++ 58 :: s) = .ok ([], none))
    (hs : 58 ∈ s) : ¬(Form.nodeService n s).Right := by
  intro hright
  have hrun := lookup_nodeService h58 hne hb
  rw [if_pos hs] at hrun
  rw [Form.Right, Form.text, hrun] at hright
  have hnode : cText (n ++ 58 :: s) = n := congrArg Prod.fst (Except.ok.inj hright)
  have h0 : ∀ b ∈ n, (b ≠ 0 : Bool) = true := fun b hb => by
    rw [← hnode] at hb
    simpa using List.mem_takeWhile_imp hb
  rw [cText, List.takeWhile_append_of_pos h0] at hnode
  simp at hnode

/-- A literal without brackets is passed with a service, the text from its first colon on. -/
theorem not_right_bare (h : Literal a) : ¬(Form.bare a).Right := by
  have h58 : 58 ∈ a := List.count_pos_iff.1 (Nat.lt_of_lt_of_le Nat.zero_lt_two h.1)
  obtain ⟨n, s, rfl, hn⟩ := List.eq_append_cons_of_mem h58
  have hs : 58 ∈ s := by
    have hcount := h.1
    rw [List.count_append, List.count_eq_zero_of_not_mem hn, List.count_cons_self] at hcount
    exact List.count_pos_iff.1 (by omega)
  have hb : bracketed (n ++ 58 :: s) = .ok ([], none) := bracketed_none fun hm =>
    h.2.2 (List.mem_of_mem_tail hm)
  have hsplit := (splitHost_of_colon hb).trans (colonSplit_colon hn)
  rw [if_pos hs] at hsplit
  intro hright
  rw [Form.Right, Form.text, lookup_some hsplit (by simp)] at hright
  exact absurd (congrArg Prod.snd (Except.ok.inj hright)) (by simp [Form.meaning])

/-- `getaddrinfo` receives the node and the service of the host unless it is a literal without brackets,
or a text that the searches or the C strings end early. -/
theorem lookup_right_iff {f : Form} (hf : f.Valid) : f.Right ↔ f.Plain := by
  cases f with
  | node n =>
    obtain ⟨-, h58, h93⟩ := hf
    have hrun := lookup_node h58 (bracketed_none fun h => h93 (List.mem_of_mem_tail h))
    rw [Form.Right, Form.text, hrun, Form.Plain, ← cText_eq_self]
    constructor
    · exact fun h => congrArg Prod.fst (Except.ok.inj h)
    · exact fun h => by rw [h]; rfl
  | nodeService n s =>
    obtain ⟨hne, h58, h93, -⟩ := hf
    by_cases hbracket : n.head? = some 91 ∧ 93 ∈ s
    · exact iff_of_false (not_right_bracket h58 h93 hbracket) fun h => h.2.2.2 hbracket
    have hb : bracketed (n ++ 58 :: s) = .ok ([], none) := by
      by_cases hhead : n.head? = some 91
      · have hs : 93 ∉ s := fun h => hbracket ⟨hhead, h⟩
        refine bracketed_none fun h => ?_
        have hmem := List.mem_of_mem_tail h
        simp [h93, hs] at hmem
      · refine bracketed_of_ne ?_
        rw [List.head?_append_of_ne_nil _ hne]
        exact hhead
    by_cases hs : 58 ∈ s
    · exact iff_of_false (not_right_colon h58 hne hb hs) fun h => h.2.2.1 hs
    · have hrun := lookup_nodeService h58 hne hb
      rw [if_neg hs] at hrun
      rw [Form.Right, Form.text, hrun, Form.Plain, ← cText_eq_self, ← cText_eq_self]
      constructor
      · intro h
        have hargs := Except.ok.inj h
        exact ⟨congrArg Prod.fst hargs, Option.some.inj (congrArg Prod.snd hargs), hs, hbracket⟩
      · rintro ⟨hn, hs', -, -⟩
        rw [hn, hs']
        rfl
  | v6 a =>
    have hrun := lookup_bracketed (r := []) hf.2.2 hf.ne_nil
    rw [Form.Right, Form.text, hrun, Form.Plain, ← cText_eq_self]
    constructor
    · exact fun h => congrArg Prod.fst (Except.ok.inj h)
    · exact fun h => by rw [h]; rfl
  | v6Service a s =>
    have hrun := lookup_bracketed (r := 58 :: s) hf.1.2.2 hf.1.ne_nil
    rw [Form.Right, Form.text, hrun, Form.Plain, ← cText_eq_self, ← cText_eq_self]
    constructor
    · intro h
      have hargs := Except.ok.inj h
      exact ⟨congrArg Prod.fst hargs, Option.some.inj (congrArg Prod.snd hargs)⟩
    · rintro ⟨ha, hs⟩
      rw [ha]
      exact congrArg (fun t => Except.ok (a, some t)) hs
  | bare a => exact iff_of_false (not_right_bare hf) id

end

/-- `localhost:3080`. -/
theorem lookup_right_localhost :
    (Form.nodeService [108, 111, 99, 97, 108, 104, 111, 115, 116] [51, 48, 56, 48]).Right :=
  (lookup_right_iff (f := .nodeService _ _) ⟨by decide, by decide, by decide, by decide⟩).2
    ⟨by decide, by decide, by decide, by decide⟩

/-- `::1` is passed with the service `::1`. -/
theorem not_right_loopback : ¬∀ f : Form, f.Valid → f.Right := by
  intro h
  have hvalid : (Form.bare [58, 58, 49]).Valid := ⟨by decide, by decide, by decide⟩
  have hlookup : lookup [58, 58, 49] = .ok ([58, 58, 49], some [58, 58, 49]) := rfl
  have hright : lookup [58, 58, 49] = .ok ([58, 58, 49], none) := h _ hvalid
  rw [hlookup] at hright
  cases hright

end CoroutineScheduler.Address

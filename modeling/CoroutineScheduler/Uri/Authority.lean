import Mathlib.Data.List.TakeWhile
import CoroutineScheduler.Uri.Hosts

/-!
# Runs over an authority

`[ userinfo "@" ] host [ ":" port ]`. While the machine reads a `userinfo` it reads a host and a port
as well: the host moves no `mark`, but the first digit of a port does. It is a digit directly behind
the first colon, and the `userinfo` that is saved starts there (`storedUserinfo`).
-/

namespace CoroutineScheduler.Uri

open Http Words
open Wire (forall_byte)

/-- No byte that ends an authority or its `userinfo`. -/
def plain (c : UInt8) : Bool := !(ascii "/?#@").contains c

theorem plain_iff {c : UInt8} : plain c = true ↔ c ≠ 47 ∧ c ≠ 63 ∧ c ≠ 35 ∧ c ≠ 64 := by
  have hbytes : ascii "/?#@" = [47, 63, 35, 64] := by decide
  simp [plain, hbytes]

theorem plain_ne {c : UInt8} (hc : plain c = true) : c ≠ 47 ∧ c ≠ 63 ∧ c ≠ 35 ∧ c ≠ 64 :=
  plain_iff.1 hc

/-- A class of bytes without the four that end an authority or its `userinfo`. -/
theorem plain_of_class {ok : UInt8 → Bool}
    (h : ok 47 = false ∧ ok 63 = false ∧ ok 35 = false ∧ ok 64 = false) {c : UInt8}
    (hc : ok c = true) : plain c = true := by
  have hne : ∀ d, ok d = false → c ≠ d := by
    rintro d hd rfl
    rw [hc] at hd
    cases hd
  exact plain_iff.2 ⟨hne 47 h.1, hne 63 h.2.1, hne 35 h.2.2.1, hne 64 h.2.2.2⟩

namespace Authority

/-- The actions of a byte that is not `@`. -/
def acts (a : Authority) (c : UInt8) : List Action :=
  (if a.first || (a.new && hostFirst c) then [.mark] else []) ++
    (if c = 58 ∧ a.isHost then (if a.new then [.mark] else []) ++ [.saveHost] else []) ++
    (if digit c ∧ a.port = some false then [.mark] else [])

/-- The readings after a byte that is not `@`. -/
def advance (a : Authority) (c : UInt8) : Authority where
  first := false
  user := a.user.bind (Pct.step userChar · c)
  reg := a.reg.bind (Pct.step regChar · c)
  lit := a.lit.deriv c
  new := false
  port := if c = 58 ∧ a.isHost then some false else if digit c then a.port.map fun _ => true
    else none

/-- The readings after a text without `@`. -/
def read (a : Authority) (w : List UInt8) : Authority := w.foldl advance a

/-- Nothing of the host was read. -/
structure Fresh (a : Authority) : Prop where
  new : a.new = true
  reg : a.reg = some .text
  lit : a.lit = literals
  port : a.port = none

theorem fresh_default : Fresh {} := ⟨rfl, rfl, rfl, rfl⟩

section
variable {a : Authority} {w x : List UInt8} {c : UInt8}

theorem step_of_ne (hc : c ≠ 64) : a.step c = some (a.acts c, a.advance c) := by
  rw [step, if_neg hc]
  rfl

theorem read_append : a.read (w ++ x) = (a.read w).read x := List.foldl_append

theorem read_concat : a.read (w ++ [c]) = (a.read w).advance c := read_append

theorem user_read : (a.read w).user = Pct.run userChar a.user w := by
  induction w generalizing a with
  | nil => rfl
  | cons c w ih => exact ih

theorem reg_read : (a.read w).reg = Pct.run regChar a.reg w := by
  induction w generalizing a with
  | nil => rfl
  | cons c w ih => exact ih

theorem lit_read : (a.read w).lit = residual a.lit w := by
  induction w generalizing a with
  | nil => rfl
  | cons c w ih => exact ih

theorem first_read (hw : w ≠ []) : (a.read w).first = false := by
  obtain ⟨x, c, rfl⟩ := (List.eq_nil_or_concat' w).resolve_left hw
  rw [read_concat]
  rfl

theorem new_read (hw : w ≠ []) : (a.read w).new = false := by
  obtain ⟨x, c, rfl⟩ := (List.eq_nil_or_concat' w).resolve_left hw
  rw [read_concat]
  rfl

/-- A text is read as a host if it is one. -/
theorem Fresh.isHost_read (ha : Fresh a) : (a.read w).isHost = true ↔ IsHost w := by
  rw [isHost, Bool.or_eq_true, decide_eq_true_eq, reg_read, lit_read, ha.reg, ha.lit,
    Pct.run_text (by decide), matchEpsilon_residual, IsHost]

theorem acts_read (hw : w ≠ []) : (a.read w).acts c =
    (if c = 58 ∧ (a.read w).isHost then [.saveHost] else []) ++
      (if digit c ∧ (a.read w).port = some false then [.mark] else []) := by
  rw [acts, first_read hw, new_read hw]
  simp

theorem port_digits (hw : ∀ d ∈ w, digit d = true) {b : Bool} (hp : a.port = some b) :
    (a.read w).port = some (b || !w.isEmpty) := by
  induction w generalizing a b with
  | nil => rw [List.isEmpty_nil, Bool.not_true, Bool.or_false, ← hp, read, List.foldl_nil]
  | cons d w ih =>
    obtain ⟨hd, hw⟩ := List.forall_mem_cons.1 hw
    have hcolon : ¬ (d = 58 ∧ a.isHost = true) := by
      rintro ⟨rfl, -⟩
      cases hd
    have hport : (a.advance d).port = some true := by
      rw [advance, if_neg hcolon, if_pos hd, hp, Option.map_some]
    rw [show a.read (d :: w) = (a.advance d).read w from rfl, ih hw hport]
    simp

/-- A port is read behind a host and a colon, and only there. -/
theorem Fresh.port_read (ha : Fresh a) {b : Bool} : (a.read w).port = some b ↔
    ∃ h ds, w = h ++ 58 :: ds ∧ IsHost h ∧ (∀ d ∈ ds, digit d = true) ∧ b = !ds.isEmpty := by
  constructor
  · intro hb
    induction w using List.reverseRecOn generalizing b with
    | nil =>
      rw [read, List.foldl_nil, ha.port] at hb
      cases hb
    | append_singleton w c ih =>
      rw [read_concat, advance] at hb
      dsimp only at hb
      split_ifs at hb with hcolon hc
      · obtain ⟨rfl, hhost⟩ := hcolon
        exact ⟨w, [], rfl, ha.isHost_read.1 hhost, List.forall_mem_nil _, (Option.some.inj hb).symm⟩
      · obtain ⟨b', hb', hbt⟩ := Option.map_eq_some_iff.1 hb
        obtain ⟨h, ds, rfl, hh, hds, -⟩ := ih hb'
        refine ⟨h, ds ++ [c], ?_, hh, ?_, ?_⟩
        · rw [List.append_assoc, List.cons_append]
        · exact List.forall_mem_append.2 ⟨hds, List.forall_mem_singleton.2 hc⟩
        · rw [← hbt]
          simp
  · rintro ⟨h, ds, rfl, hh, hds, rfl⟩
    have hport : ((a.read h).advance 58).port = some false := by
      rw [advance, if_pos ⟨rfl, ha.isHost_read.2 hh⟩]
    rw [read_append]
    exact (port_digits hds hport).trans (by simp)

end

end Authority

/-! ## Hosts -/

section
variable {a : Authority} {saved : Bool} {e : Env} {h r w : List UInt8} {c : UInt8}

open Authority

theorem run_plain (hc : plain c = true) : run (.authority saved a) e (c :: w) =
    (perform (c :: w) (a.acts c) e).elim .threw fun e' =>
      run (.authority saved (a.advance c)) e' w := by
  obtain ⟨h47, h63, h35, h64⟩ := plain_ne hc
  rw [run, State.next, if_neg h47, if_neg (not_or.2 ⟨h63, h35⟩), step_of_ne h64]
  rfl

/-- A text that has no actions. -/
theorem run_quiet (hw : ∀ c ∈ w, plain c = true)
    (hacts : ∀ x c z, w = x ++ c :: z → (a.read x).acts c = []) :
    run (.authority saved a) e (w ++ r) = run (.authority saved (a.read w)) e r := by
  induction w generalizing a with
  | nil => rfl
  | cons c w ih =>
    obtain ⟨hc, hw⟩ := List.forall_mem_cons.1 hw
    rw [List.cons_append, run_plain hc, show a.acts c = [] from hacts [] c w rfl]
    refine ih hw ?_
    rintro x d z rfl
    exact hacts (c :: x) d z rfl

theorem plain_of_regChar : ∀ c, regChar c = true → plain c = true := fun _ =>
  plain_of_class (by decide)

theorem plain_of_userChar : ∀ c, userChar c = true → plain c = true := fun _ =>
  plain_of_class (by decide)

theorem plain_of_literalByte : ∀ c, literalByte c = true → plain c = true := fun _ =>
  plain_of_class (by decide)

theorem plain_of_xdigit : ∀ c, xdigit c = true → plain c = true := fun _ =>
  plain_of_class (by decide)

theorem Text.plain {ok : UInt8 → Bool} (hok : ∀ c, ok c = true → plain c = true)
    (hw : Text ok w) : ∀ c ∈ w, Uri.plain c = true := by
  intro c hc
  obtain hc | rfl | hc := hw.forall_mem c hc
  · exact hok c hc
  · rfl
  · exact plain_of_xdigit c hc

theorem IsHost.plain (hh : IsHost h) : ∀ c ∈ h, Uri.plain c = true := by
  obtain hh | hh := hh
  · exact hh.plain plain_of_regChar
  obtain ⟨v, rfl, hv, -⟩ | hh := literals_cases hh
  · refine List.forall_mem_cons.2 ⟨rfl, List.forall_mem_append.2 ⟨?_, ?_⟩⟩
    · exact fun c hc => plain_of_literalByte c (hv c hc)
    · exact List.forall_mem_singleton.2 rfl
  · exact fun c hc => plain_of_literalByte c (literalByte_of_octetByte c (hh c hc))

theorem IsHost.hostFirst (hh : IsHost (c :: w)) : hostFirst c = true := by
  obtain hh | hh := hh
  · cases hh with
    | char hc _ => simp [Authority.hostFirst, hc]
    | pct _ _ _ => rfl
  obtain ⟨v, heq, -⟩ | hh := literals_cases hh
  · rw [(List.cons.inj heq).1]
    rfl
  · exact forall_byte (p := fun c => octetByte c = true → Authority.hostFirst c = true)
      (by decide +kernel) c (hh c List.mem_cons_self)

/-- A host: `mark` points to its start. -/
theorem run_host (ha : Fresh a) (hh : IsHost (c :: h)) :
    run (.authority saved a) e (c :: h ++ r) =
      run (.authority saved (a.read (c :: h))) { e with mark := some (c :: h ++ r) } r := by
  have hplain := hh.plain
  obtain ⟨hc, hplain⟩ := List.forall_mem_cons.1 hplain
  have hfirst := hh.hostFirst
  have hcolon : c ≠ 58 := by
    rintro rfl
    cases hfirst
  have hacts : a.acts c = [.mark] := by
    rw [acts, ha.new, hfirst, ha.port]
    simp [hcolon]
  rw [List.cons_append, run_plain hc, hacts]
  simp only [perform_one, act, Option.elim_some]
  refine run_quiet hplain ?_
  rintro x d z rfl
  change ((a.read (c :: x)).acts d) = []
  rw [acts_read (List.cons_ne_nil c x), if_neg, if_neg]
  · rfl
  · -- a port would start behind a host that a colon follows
    rintro ⟨-, hport⟩
    obtain ⟨h', ds, heq, hh', -⟩ := ha.port_read.1 hport
    have hfront : IsHost (h' ++ 58 :: (ds ++ d :: z)) := by
      rw [← List.cons_append, ← List.append_assoc, ← heq]
      exact hh
    exact hfront.not_front hh'
  · rintro ⟨rfl, hhost⟩
    exact IsHost.not_front (x := c :: x) hh (ha.isHost_read.1 hhost)

theorem perform_eq {as : List Action} (bs : List Action) (h : as.eraseDups = bs) :
    perform r as e = bs.foldlM (act r) e := by
  rw [perform, h]

/-- A host and a colon behind it. -/
theorem run_hostColon (ha : Fresh a) (hh : IsHost h) :
    run (.authority saved a) e (h ++ 58 :: r) =
      run (.authority saved (a.read (h ++ [58])))
        ⟨{ e.uri with host := h }, some (h ++ 58 :: r)⟩ r := by
  cases h with
  | nil =>
    have hacts : (a.acts 58).eraseDups = [.mark, .saveHost] := by
      have hhost : a.isHost = true := ha.isHost_read.2 hh
      rw [acts, ha.new, ha.port, hhost]
      cases a.first <;> rfl
    rw [List.nil_append, run_plain (by decide), perform_eq _ hacts]
    simp [act, Authority.read]
  | cons c h =>
    have hacts : (a.read (c :: h)).acts 58 = [.saveHost] := by
      rw [acts_read (List.cons_ne_nil c h), if_pos ⟨rfl, ha.isHost_read.2 hh⟩,
        if_neg (by rintro ⟨hd, -⟩; cases hd)]
      rfl
    rw [run_host ha hh, run_plain (by decide), hacts, read_concat]
    simp only [perform_one, act, Option.elim_some, between_append]

end

/-! ## `userinfo` -/

/-- What is saved of a `userinfo`: from the digit on that follows the first colon directly, if one
does. -/
def storedUserinfo (u : List UInt8) : List UInt8 :=
  match u.dropWhile (· ≠ 58) with
  | _ :: d :: w => if digit d then d :: w else u
  | _ => u

section
variable {u v x r : List UInt8} {e : Env} {saved : Bool}

open Authority

theorem storedUserinfo_colon (hx : 58 ∉ x) :
    storedUserinfo (x ++ 58 :: v) = if v.head?.any digit then v else x ++ 58 :: v := by
  have hdrop : (x ++ 58 :: v).dropWhile (· ≠ 58) = 58 :: v := by
    rw [List.dropWhile_append_of_pos, List.dropWhile_cons_of_neg (by simp)]
    intro c hc
    simpa using fun h : c = 58 => hx (h ▸ hc)
  rw [storedUserinfo, hdrop]
  cases v with
  | nil => rfl
  | cons d w => rfl

theorem storedUserinfo_of_not_mem (hu : 58 ∉ u) : storedUserinfo u = u := by
  have hdrop : u.dropWhile (· ≠ 58) = [] := by
    rw [List.dropWhile_eq_nil_iff]
    intro c hc
    simpa using fun h : c = 58 => hu (h ▸ hc)
  rw [storedUserinfo, hdrop]

/-- A host outside of brackets has no colon. -/
theorem IsHost.not_mem_colon (hh : IsHost x) (h91 : 91 ∉ x) : 58 ∉ x := by
  intro hcolon
  obtain ⟨y, z, rfl⟩ := List.append_of_mem hcolon
  obtain ⟨y, rfl, -⟩ := hh.of_colon
  exact h91 List.mem_cons_self

/-- Behind the first colon of a `userinfo` and one more byte there are no actions. -/
theorem acts_behind (h91 : 91 ∉ x) {d c : UInt8} {y : List UInt8} (hy : 91 ∉ y) (hd : d ≠ 91) :
    ((read {} (x ++ 58 :: d :: y)).acts c) = [] := by
  have hmem : (58 : UInt8) ∈ x ++ 58 :: d :: y := List.mem_append_right x List.mem_cons_self
  rw [acts_read (List.ne_nil_of_mem hmem), if_neg, if_neg]
  · rfl
  · rintro ⟨-, hport⟩
    obtain ⟨h, ds, heq, hh, -, hds⟩ := fresh_default.port_read.1 hport
    cases ds with
    | cons _ _ => cases hds
    | nil =>
      have hfront : h = x ++ 58 :: (d :: y).dropLast := by
        have hdrop := congrArg List.dropLast heq
        rw [List.dropLast_concat, List.dropLast_append_of_ne_nil (List.cons_ne_nil _ _)] at hdrop
        exact hdrop.symm
      rw [hfront] at hh
      obtain ⟨z, rfl, -⟩ := hh.of_colon
      exact h91 List.mem_cons_self
  · rintro ⟨-, hhost⟩
    refine (fresh_default.isHost_read.1 hhost).not_mem_colon ?_ hmem
    simp [h91, hy, hd.symm]

theorem run_at {a : Authority} {uri : Uri} {m : Ptr} (hu : a.user = some .text)
    (hfirst : a.first = false) : run (.authority saved a) ⟨uri, some m⟩ (64 :: r) =
      run (.authority saved { first := false, user := none })
        ⟨{ uri with userinfo := between m (64 :: r) }, none⟩ r := by
  rw [run, State.next, if_neg (by decide), if_neg (by decide), Authority.step, if_pos rfl,
    if_pos hu, hfirst]
  rfl

/-- Behind the first colon of a `userinfo` a digit moves `mark`. -/
theorem run_behindColon {uri : Uri} {m : Ptr} (hx : Text regChar x)
    (hplain : ∀ c ∈ v, plain c = true) (h91 : 91 ∉ v) :
    run (.authority saved (read {} (x ++ [58]))) ⟨uri, some m⟩ (v ++ r) =
      run (.authority saved (read {} (x ++ 58 :: v)))
        ⟨uri, some (if v.head?.any digit then v ++ r else m)⟩ r := by
  have hx91 : 91 ∉ x := not_mem_of_text hx rfl (by decide) rfl
  cases v with
  | nil => rfl
  | cons d w =>
    obtain ⟨hd, hplain⟩ := List.forall_mem_cons.1 hplain
    obtain ⟨hd91, h91⟩ := not_or.1 (List.mem_cons.not.1 h91)
    have hhost : ¬ IsHost (x ++ [58]) := fun hh =>
      hh.not_mem_colon (by simp [hx91]) (by simp)
    have hport : (read {} (x ++ [58])).port = some false :=
      fresh_default.port_read.2 ⟨x, [], rfl, Or.inl hx, List.forall_mem_nil _, rfl⟩
    have hacts : (read {} (x ++ [58])).acts d = if digit d then [.mark] else [] := by
      rw [acts_read (by simp), hport, if_neg fun h => hhost (fresh_default.isHost_read.1 h.2)]
      simp
    have hread : (read {} (x ++ [58])).advance d = read {} (x ++ 58 :: [d]) := by
      rw [← read_concat, List.append_assoc, List.singleton_append]
    have hquiet : ∀ e : Env, run (.authority saved (read {} (x ++ 58 :: [d]))) e (w ++ r) =
        run (.authority saved (read {} (x ++ 58 :: d :: w))) e r := by
      intro e
      rw [run_quiet hplain, ← read_append, List.append_assoc, List.cons_append,
        List.singleton_append]
      rintro y c z rfl
      rw [← read_append, List.append_assoc, List.cons_append, List.singleton_append]
      exact acts_behind hx91 (fun h => h91 (List.mem_append_left _ h)) (Ne.symm hd91)
    rw [List.cons_append, run_plain hd, hacts, hread, List.head?_cons, Option.any_some]
    split_ifs with hdigit
    · simp only [perform_one, act, Option.elim_some]
      exact hquiet _
    · simp only [perform_nil, Option.elim_some]
      exact hquiet _

theorem regText_of_userText (hx : Text userChar x) (h58 : 58 ∉ x) : Text regChar x := by
  refine hx.mono fun c hc hok => ?_
  have hne : c ≠ 58 := fun h => h58 (h ▸ hc)
  rwa [userChar, beq_false_of_ne hne, Bool.or_false] at hok

/-- A `userinfo` with a digit behind its first colon is saved from the digit on. -/
theorem run_userinfo (hu : Text userChar u) : ∃ host,
    run (.authority saved {}) e (u ++ 64 :: r) =
      run (.authority saved { first := false, user := none })
        ⟨{ e.uri with userinfo := storedUserinfo u, host := host }, none⟩ r := by
  have huser : (read {} u).user = some .text := by
    rw [user_read]
    exact (Pct.run_text (by decide)).2 hu
  by_cases hmem : 58 ∈ u
  · obtain ⟨x, v, rfl, hx⟩ := List.eq_append_cons_of_mem hmem
    obtain ⟨hxt, hvt⟩ := hu.of_append (by decide) rfl
    have hreg := regText_of_userText hxt hx
    refine ⟨x, ?_⟩
    rw [List.append_assoc, List.cons_append, run_hostColon fresh_default (Or.inl hreg),
      run_behindColon hreg (hvt.plain plain_of_userChar)
        (not_mem_of_text hvt rfl (by decide) rfl),
      run_at huser (first_read (by simp)), storedUserinfo_colon hx]
    split_ifs with hdigit
    · rw [between_append]
    · rw [← List.cons_append, ← List.append_assoc, between_append]
  · refine ⟨e.uri.host, ?_⟩
    have hreg := regText_of_userText hu hmem
    rw [storedUserinfo_of_not_mem hmem]
    cases u with
    | nil =>
      rw [List.nil_append, run]
      have hnext : (State.authority saved {}).next 64 =
        some ([.mark, .saveUserinfo], .authority saved { first := false, user := none }) := rfl
      rw [hnext]
      simp [perform_mark, act]
    | cons c w =>
      rw [run_host fresh_default (Or.inl hreg), run_at huser (first_read (by simp)),
        between_append]

end

end CoroutineScheduler.Uri

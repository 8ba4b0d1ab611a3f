import Mathlib.Tactic
import CoroutineScheduler.Uri.Machine
import CoroutineScheduler.Lib.Wire

/-!
# Runs over a component

A run of the machine over the text of one component: a text of a class of bytes with `pct_encoded` in
it (`Text`), a query and a fragment (`run_tail`), and a scheme (`run_scheme`). The actions leave the
text of the component in the object, because `mark` points to its start.
-/

namespace CoroutineScheduler.Uri

open Http
open Wire (forall_byte)

/-! ## Texts -/

/-- `*( ok / pct-encoded )`. -/
inductive Text (ok : UInt8 → Bool) : List UInt8 → Prop
  | nil : Text ok []
  | char {c : UInt8} {w : List UInt8} (hc : ok c = true) (hw : Text ok w) : Text ok (c :: w)
  | pct {a b : UInt8} {w : List UInt8} (ha : xdigit a = true) (hb : xdigit b = true)
      (hw : Text ok w) : Text ok (37 :: a :: b :: w)

/-- The reading of a text, `none` where it fails. -/
def Pct.run (ok : UInt8 → Bool) (k : Option Pct) (w : List UInt8) : Option Pct :=
  w.foldl (fun k c => k.bind (Pct.step ok · c)) k

section
variable {ok : UInt8 → Bool} {k k' : Option Pct} {w v : List UInt8} {c : UInt8}

@[simp] theorem Pct.run_nil : Pct.run ok k [] = k := rfl

@[simp] theorem Pct.run_cons :
    Pct.run ok k (c :: w) = Pct.run ok (k.bind (Pct.step ok · c)) w := rfl

@[simp] theorem Pct.run_none : Pct.run ok none w = none := by
  induction w with
  | nil => rfl
  | cons c w ih => exact ih

theorem Pct.step_text (hok : ok 37 = false) (hc : ok c = true) :
    Pct.step ok .text c = some .text := by
  have hne : c ≠ 37 := by
    rintro rfl
    rw [hok] at hc
    cases hc
  rw [Pct.step, if_neg hne, if_pos hc]

/-- The reading of a text succeeds, and only that. -/
theorem Pct.run_text (hok : ok 37 = false) :
    Pct.run ok (some .text) w = some .text ↔ Text ok w := by
  constructor
  · intro h
    induction hn : w.length using Nat.strong_induction_on generalizing w with
    | _ n ih =>
      subst hn
      match w with
      | [] => exact .nil
      | c :: w =>
        rw [Pct.run_cons, Option.bind_some, Pct.step] at h
        split_ifs at h with h37 hc
        · subst h37
          match w with
          | [] => cases h
          | a :: w =>
            rw [Pct.run_cons, Option.bind_some, Pct.step] at h
            split_ifs at h with ha
            · match w with
              | [] => cases h
              | b :: w =>
                rw [Pct.run_cons, Option.bind_some, Pct.step] at h
                split_ifs at h with hb
                · exact .pct ha hb (ih _ (by simp; omega) h rfl)
                · rw [Pct.run_none] at h
                  cases h
            · rw [Pct.run_none] at h
              cases h
        · exact .char hc (ih _ (by simp) h rfl)
        · rw [Pct.run_none] at h
          cases h
  · intro h
    induction h with
    | nil => rfl
    | char hc _ ih => rw [Pct.run_cons, Option.bind_some, Pct.step_text hok hc, ih]
    | pct ha hb _ ih =>
      simp only [Pct.run_cons, Option.bind_some, Pct.step, if_true, ha, hb]
      exact ih

/-- The bytes of a text. -/
theorem Text.forall_mem (hw : Text ok w) : ∀ c ∈ w, ok c = true ∨ c = 37 ∨ xdigit c = true := by
  induction hw with
  | nil => exact List.forall_mem_nil _
  | char hc _ ih => exact List.forall_mem_cons.2 ⟨Or.inl hc, ih⟩
  | pct ha hb _ ih =>
    refine List.forall_mem_cons.2 ⟨Or.inr (Or.inl rfl), ?_⟩
    refine List.forall_mem_cons.2 ⟨Or.inr (Or.inr ha), ?_⟩
    exact List.forall_mem_cons.2 ⟨Or.inr (Or.inr hb), ih⟩

theorem Text.mono {ok' : UInt8 → Bool} (hw : Text ok w)
    (h : ∀ c ∈ w, ok c = true → ok' c = true) : Text ok' w := by
  induction hw with
  | nil => exact .nil
  | char hc _ ih =>
    obtain ⟨hok, h⟩ := List.forall_mem_cons.1 h
    exact .char (hok hc) (ih h)
  | pct ha hb _ ih =>
    refine .pct ha hb (ih fun c hc => h c ?_)
    exact List.mem_cons_of_mem _ (List.mem_cons_of_mem _ (List.mem_cons_of_mem _ hc))

/-- A text splits at a byte that does not belong to `pct_encoded`. -/
theorem Text.of_append (hpct : c ≠ 37) (hx : xdigit c = false) (h : Text ok (w ++ c :: v)) :
    Text ok w ∧ Text ok v := by
  generalize hn : w ++ c :: v = t at h
  induction h generalizing w with
  | nil => simp at hn
  | char hc ht ih =>
    cases w with
    | nil =>
      obtain ⟨-, rfl⟩ := List.cons.inj hn
      exact ⟨.nil, ht⟩
    | cons b w =>
      obtain ⟨rfl, htail⟩ := List.cons.inj hn
      obtain ⟨hw, hv⟩ := ih htail
      exact ⟨.char hc hw, hv⟩
  | pct ha hb ht ih =>
    -- the byte is neither the `%` nor one of the two digits
    match w with
    | [] => exact absurd (List.cons.inj hn).1 hpct
    | [_] =>
      obtain ⟨rfl, -⟩ := List.cons.inj (List.cons.inj hn).2
      rw [hx] at ha
      cases ha
    | [_, _] =>
      obtain ⟨rfl, -⟩ := List.cons.inj (List.cons.inj (List.cons.inj hn).2).2
      rw [hx] at hb
      cases hb
    | _ :: _ :: _ :: w =>
      simp only [List.cons_append, List.cons.injEq] at hn
      obtain ⟨rfl, rfl, rfl, htail⟩ := hn
      obtain ⟨hw, hv⟩ := ih htail
      exact ⟨.pct ha hb hw, hv⟩

end

/-! ## Actions -/

@[simp] theorem between_append (w r : List UInt8) : between (w ++ r) r = w := by
  rw [between, List.length_append, Nat.add_sub_cancel, List.take_left]

@[simp] theorem between_self (r : List UInt8) : between r r = [] := between_append [] r

@[simp] theorem between_nil (w : List UInt8) : between w [] = w := by
  rw [between, List.length_nil, Nat.sub_zero, List.take_length]

@[simp] theorem perform_nil (p : Ptr) (e : Env) : perform p [] e = some e := rfl

@[simp] theorem perform_one (p : Ptr) (a : Action) (e : Env) : perform p [a] e = act p e a := by
  have hone : [a].eraseDups = [a] := by cases a <;> decide
  rw [perform, hone]
  simp

/-- A component without text starts where it ends. -/
@[simp] theorem perform_mark (p : Ptr) (a : Action) (e : Env) (h : a ≠ .mark) :
    perform p [.mark, a] e = act p { e with mark := some p } a := by
  have htwo : [.mark, a].eraseDups = [.mark, a] := by
    revert h
    cases a <;> decide
  rw [perform, htwo]
  simp [act]

/-! ## A loop -/

section
variable {w : List UInt8}

/-- A component whose states read a text without actions. -/
theorem run_loop (ok : UInt8 → Bool) {S : Pct → State} (hS : ∀ k c k', Pct.step ok k c = some k' →
      (S k).next c = some ([], S k')) {k k' : Pct} (hw : Pct.run ok (some k) w = some k') (e : Env)
    (r : Ptr) : run (S k) e (w ++ r) = run (S k') e r := by
  induction w generalizing k with
  | nil =>
    cases hw
    rfl
  | cons c w ih =>
    rw [Pct.run_cons, Option.bind_some] at hw
    cases hk : Pct.step ok k c with
    | none =>
      rw [hk, Pct.run_none] at hw
      cases hw
    | some k₁ =>
      rw [hk] at hw
      rw [List.cons_append, run, hS k c k₁ hk]
      exact ih hw

theorem run_path_text (saved : Bool) {k : Pct} (hw : Pct.run pathChar (some k) w = some .text)
    (e : Env) (r : Ptr) : run (.path saved k) e (w ++ r) = run (.path saved .text) e r := by
  apply run_loop pathChar _ hw
  intro k c k' hk
  rw [State.next, hk]

theorem run_query_text {k : Pct} (hw : Pct.run queryChar (some k) w = some .text) (e : Env)
    (r : Ptr) : run (.query false k) e (w ++ r) = run (.query false .text) e r := by
  apply run_loop queryChar _ hw
  intro k c k' hk
  rw [State.next, hk]
  rfl

theorem run_fragment_text {k : Pct} (hw : Pct.run queryChar (some k) w = some .text) (e : Env)
    (r : Ptr) : run (.fragment false k) e (w ++ r) = run (.fragment false .text) e r := by
  apply run_loop queryChar _ hw
  intro k c k' hk
  rw [State.next, hk]
  rfl

end

/-! ## Queries and fragments -/

/-- `[ "?" query ] [ "#" fragment ]`. -/
def tailText (query fragment : Option (List UInt8)) : List UInt8 :=
  query.elim [] (63 :: ·) ++ fragment.elim [] (35 :: ·)

/-- The first byte of a text. -/
theorem Text.cons_cases {ok : UInt8 → Bool} (hok : ok 37 = false) {c : UInt8} {w : List UInt8}
    (h : Text ok (c :: w)) :
    ∃ k, Pct.step ok .text c = some k ∧ Pct.run ok (some k) w = some .text := by
  have hrun := (Pct.run_text hok).2 h
  rw [Pct.run_cons, Option.bind_some] at hrun
  cases hk : Pct.step ok .text c with
  | none =>
    rw [hk, Pct.run_none] at hrun
    cases hrun
  | some k => exact ⟨k, rfl, hk ▸ hrun⟩

theorem run_fragment {w : List UInt8} (hw : Text queryChar w) (e : Env) :
    run (.fragment true .text) e w = .returned { e.uri with fragment := w } := by
  cases w with
  | nil => rfl
  | cons c w =>
    obtain ⟨k, hk, hrun⟩ := hw.cons_cases (by decide)
    have hloop := run_fragment_text hrun { e with mark := some (c :: w) } []
    rw [List.append_nil] at hloop
    rw [run, State.next, hk]
    simp only [Option.map_some, if_true, perform_one, act, Option.elim_some]
    rw [hloop, run, State.leaves]
    simp only [Bool.false_eq_true, if_false, List.nil_append, perform_one, act, Option.map_some,
      Option.elim_some, between_nil]

/-- What may follow a query, with the leaving actions of the state in front of it. -/
theorem run_end {s : State} {as : List Action} (hleaves : s.leaves = some as)
    (hnext : s.next 35 = s.tail 35) {fragment : Option (List UInt8)}
    (hf : ∀ f ∈ fragment, Text queryChar f) {e e' : Env}
    (hp : perform (fragment.elim [] (35 :: ·)) as e = some e') :
    run s e (fragment.elim [] (35 :: ·)) =
      .returned { e'.uri with fragment := fragment.getD e'.uri.fragment } := by
  cases fragment with
  | none =>
    rw [Option.elim_none] at hp ⊢
    simp only [run, hleaves, hp, Option.elim_some, Option.getD_none]
  | some f =>
    rw [Option.elim_some] at hp ⊢
    have htail : s.tail 35 = some (as, .fragment true .text) := by
      rw [State.tail, if_neg (by decide), if_pos rfl, hleaves, Option.map_some]
    simp only [run, hnext, htail, hp, Option.elim_some, Option.getD_some]
    exact run_fragment (hf f rfl) e'

theorem run_query {w : List UInt8} (hw : Text queryChar w) {fragment : Option (List UInt8)}
    (hf : ∀ f ∈ fragment, Text queryChar f) (e : Env) :
    run (.query true .text) e (w ++ fragment.elim [] (35 :: ·)) =
      .returned { e.uri with query := w, fragment := fragment.getD e.uri.fragment } := by
  cases w with
  | nil =>
    have hp : perform (fragment.elim [] (35 :: ·)) [.mark, .saveQuery] e =
        some ⟨{ e.uri with query := [] }, none⟩ := by
      rw [perform_mark _ _ _ (by decide)]
      simp [act]
    exact run_end rfl rfl hf hp
  | cons c w =>
    obtain ⟨k, hk, hrun⟩ := hw.cons_cases (by decide)
    rw [List.cons_append, run, State.next, hk]
    simp only [if_true, perform_one, act, Option.elim_some]
    rw [run_query_text hrun]
    have hp : perform (fragment.elim [] (35 :: ·)) [.saveQuery]
        { e with mark := some (c :: (w ++ fragment.elim [] (35 :: ·))) } =
        some ⟨{ e.uri with query := c :: w }, none⟩ := by
      rw [perform_one, act, Option.map_some, ← List.cons_append, between_append]
    exact run_end rfl rfl hf hp

/-- The end of a text behind a state, with the leaving actions of the state. -/
theorem run_tail {s : State} {as : List Action} (hleaves : s.leaves = some as)
    (hnext : ∀ c, c = 63 ∨ c = 35 → s.next c = s.tail c) {query fragment : Option (List UInt8)}
    (hq : ∀ q ∈ query, Text queryChar q) (hf : ∀ f ∈ fragment, Text queryChar f) {e e' : Env}
    (hp : perform (tailText query fragment) as e = some e') :
    run s e (tailText query fragment) = .returned { e'.uri with
      query := query.getD e'.uri.query, fragment := fragment.getD e'.uri.fragment } := by
  cases query with
  | none => exact run_end hleaves (hnext 35 (Or.inr rfl)) hf hp
  | some q =>
    have htail : s.tail 63 = some (as, .query true .text) := by
      rw [State.tail, if_pos rfl, hleaves, Option.map_some]
    rw [tailText, Option.elim_some, List.cons_append] at hp ⊢
    simp only [run, hnext 63 (Or.inl rfl), htail, hp, Option.elim_some, Option.getD_some]
    exact run_query (hq q rfl) hf e'

/-- The same where the leaving actions meet a `mark` that is `NULL`. -/
theorem run_tail_threw {s : State} {as : List Action} (hleaves : s.leaves = some as)
    (hnext : ∀ c, c = 63 ∨ c = 35 → s.next c = s.tail c) {query fragment : Option (List UInt8)}
    {e : Env} (hp : perform (tailText query fragment) as e = none) :
    run s e (tailText query fragment) = .threw := by
  cases query with
  | none =>
    cases fragment with
    | none =>
      simp only [tailText, Option.elim_none, List.append_nil] at hp ⊢
      simp only [run, hleaves, hp, Option.elim_none]
    | some f =>
      have htail : s.tail 35 = some (as, .fragment true .text) := by
        rw [State.tail, if_neg (by decide), if_pos rfl, hleaves, Option.map_some]
      simp only [tailText, Option.elim_none, Option.elim_some, List.nil_append] at hp ⊢
      simp only [run, hnext 35 (Or.inr rfl), htail, hp, Option.elim_none]
  | some q =>
    have htail : s.tail 63 = some (as, .query true .text) := by
      rw [State.tail, if_pos rfl, hleaves, Option.map_some]
    rw [tailText, Option.elim_some, List.cons_append] at hp ⊢
    simp only [run, hnext 63 (Or.inl rfl), htail, hp, Option.elim_none]

/-! ## Schemes -/

/-- `ALPHA *( ALPHA / DIGIT / "+" / "-" / "." )`. -/
def IsScheme : List UInt8 → Prop
  | [] => False
  | c :: w => alpha c = true ∧ ∀ x ∈ w, schemeChar x = true

theorem run_name {w : List UInt8} (hw : ∀ x ∈ w, schemeChar x = true) (e : Env) (r : Ptr) :
    run (.name true .text) e (w ++ r) = run (.name true .text) e r := by
  induction w with
  | nil => rfl
  | cons c w ih =>
    obtain ⟨hc, hw⟩ := List.forall_mem_cons.1 hw
    have hclass : c ≠ 58 ∧ pcharNc c = true := by
      revert hc
      exact forall_byte (p := fun c => schemeChar c = true → c ≠ 58 ∧ pcharNc c = true)
        (by decide +kernel) c
    rw [List.cons_append, run, State.next, if_neg hclass.1,
      Pct.step_text (by decide) hclass.2, hc]
    exact ih hw

/-- The scheme of a URI. -/
theorem run_scheme {w : List UInt8} (hw : IsScheme w) (e : Env) (r : Ptr) :
    run .start e (w ++ 58 :: r) = run .colon ⟨{ e.uri with scheme := w }, none⟩ r := by
  cases w with
  | nil => exact hw.elim
  | cons c w =>
    obtain ⟨hc, hw⟩ := hw
    rw [List.cons_append, run, State.next, if_pos hc]
    simp only [perform_one, act, Option.elim_some]
    rw [run_name hw, run, State.next, if_pos rfl, if_pos rfl]
    simp only [perform_one, act, Option.map_some, Option.elim_some]
    rw [← List.cons_append, between_append]

/-! ## Paths without an authority -/

/-- `*( "/" segment )`. -/
def IsAbempty (w : List UInt8) : Prop := w = [] ∨ ∃ v, w = 47 :: v ∧ Text pathChar v

/-- `"/" [ segment-nz *( "/" segment ) ]`. -/
def IsAbsolute (w : List UInt8) : Prop := ∃ v, w = 47 :: v ∧ Text pathChar v ∧ v.head? ≠ some 47

/-- `segment-nz *( "/" segment )`. -/
def IsRootless (w : List UInt8) : Prop := w ≠ [] ∧ Text pathChar w ∧ w.head? ≠ some 47

/-- `segment-nz-nc *( "/" segment )`. -/
def IsNoscheme (w : List UInt8) : Prop :=
  ∃ u v, w = u ++ v ∧ u ≠ [] ∧ Text pcharNc u ∧ IsAbempty v

section
variable {w : List UInt8} {query fragment : Option (List UInt8)}

theorem tail_path (saved : Bool) {c : UInt8} (hc : c = 63 ∨ c = 35) :
    (State.path saved .text).next c = (State.path saved .text).tail c := by
  rcases hc with rfl | rfl
  · rfl
  · rfl

/-- A path that is not saved. -/
theorem run_path_end {k : Pct} (hw : Pct.run pathChar (some k) w = some .text) (hq : ∀ q ∈ query, Text queryChar q)
    (hf : ∀ f ∈ fragment, Text queryChar f) (e : Env) :
    run (.path false k) e (w ++ tailText query fragment) = .returned { e.uri with
      query := query.getD e.uri.query, fragment := fragment.getD e.uri.fragment } := by
  rw [run_path_text false hw]
  exact run_tail rfl (fun c => tail_path false) hq hf rfl

/-- A path from its first byte on. -/
theorem run_rootless {s : State} (hs : ∀ c, c ≠ 47 → s.next c = s.pathFirst c) (hw : IsRootless w)
    (hq : ∀ q ∈ query, Text queryChar q) (hf : ∀ f ∈ fragment, Text queryChar f) (e : Env) :
    run s e (w ++ tailText query fragment) = .returned { e.uri with
      query := query.getD e.uri.query, fragment := fragment.getD e.uri.fragment } := by
  obtain ⟨hne, htext, hhead⟩ := hw
  cases w with
  | nil => exact absurd rfl hne
  | cons c w =>
    have hc : c ≠ 47 := fun h => hhead (congrArg some h)
    obtain ⟨k, hk, hrun⟩ := htext.cons_cases (by decide)
    have hk' : Pct.step pchar .text c = some k := by
      have hclass : pathChar c = pchar c := by
        rw [pathChar, beq_false_of_ne hc, Bool.or_false]
      rw [Pct.step] at hk ⊢
      rw [← hclass, hk]
    rw [List.cons_append, run, hs c hc, State.pathFirst, hk']
    exact run_path_end hrun hq hf e

/-- A path without an authority is not saved. -/
theorem run_absolute {s : State} {saved : Bool} (hs : s.next 47 = some ([], .slash saved))
    (hw : IsAbsolute w) (hq : ∀ q ∈ query, Text queryChar q)
    (hf : ∀ f ∈ fragment, Text queryChar f) (e : Env) :
    run s e (w ++ tailText query fragment) = .returned { e.uri with
      query := query.getD e.uri.query, fragment := fragment.getD e.uri.fragment } := by
  obtain ⟨v, rfl, htext, hhead⟩ := hw
  rw [List.cons_append, run, hs]
  simp only [perform_nil, Option.elim_some]
  by_cases hv : v = []
  · rw [hv, List.nil_append]
    refine run_tail rfl ?_ hq hf rfl
    rintro c (rfl | rfl)
    · rfl
    · rfl
  · apply run_rootless _ ⟨hv, htext, hhead⟩ hq hf
    intro c hc
    rw [State.next, if_neg hc]

theorem run_colon (hw : w = [] ∨ IsAbsolute w ∨ IsRootless w) (hq : ∀ q ∈ query, Text queryChar q)
    (hf : ∀ f ∈ fragment, Text queryChar f) (e : Env) :
    run .colon e (w ++ tailText query fragment) = .returned { e.uri with
      query := query.getD e.uri.query, fragment := fragment.getD e.uri.fragment } := by
  obtain rfl | hw | hw := hw
  · refine run_tail rfl ?_ hq hf rfl
    rintro c (rfl | rfl)
    · rfl
    · rfl
  · exact run_absolute rfl hw hq hf e
  · apply run_rootless _ hw hq hf
    intro c hc
    rw [State.next, if_neg hc]

/-- The first segment of a relative path, with or without a reading as a scheme. -/
theorem run_segment (scheme : Bool) {k : Pct} (hw : Pct.run pcharNc (some k) w = some .text) (e : Env)
    (r : Ptr) : ∃ scheme', run (.name scheme k) e (w ++ r) = run (.name scheme' .text) e r := by
  induction w generalizing scheme k with
  | nil =>
    cases hw
    exact ⟨scheme, rfl⟩
  | cons c w ih =>
    rw [Pct.run_cons, Option.bind_some] at hw
    cases hk : Pct.step pcharNc k c with
    | none =>
      rw [hk, Pct.run_none] at hw
      cases hw
    | some k₁ =>
      rw [hk] at hw
      have hc : c ≠ 58 := by
        rintro rfl
        cases k <;> cases hk
      rw [List.cons_append, run, State.next, if_neg hc, hk]
      exact ih _ hw

theorem run_relative (hw : w = [] ∨ IsAbsolute w ∨ IsNoscheme w)
    (hq : ∀ q ∈ query, Text queryChar q) (hf : ∀ f ∈ fragment, Text queryChar f) (e : Env) :
    run .start e (w ++ tailText query fragment) = .returned { e.uri with
      query := query.getD e.uri.query, fragment := fragment.getD e.uri.fragment } := by
  obtain rfl | hw | ⟨u, v, rfl, hne, hu, hv⟩ := hw
  · refine run_tail rfl ?_ hq hf rfl
    rintro c (rfl | rfl)
    · rfl
    · rfl
  · exact run_absolute rfl hw hq hf e
  · -- the segment leaves a `mark` at its start if it could be a scheme
    have hname : ∃ scheme mark, run .start e (u ++ v ++ tailText query fragment) =
        run (.name scheme .text) { e with mark := mark } (v ++ tailText query fragment) := by
      cases u with
      | nil => exact absurd rfl hne
      | cons c u =>
        obtain ⟨k, hk, hrun⟩ := hu.cons_cases (by decide)
        rw [List.append_assoc, List.cons_append, run, State.next]
        by_cases hc : alpha c = true
        · have hclass : pcharNc c = true := by
            revert hc
            exact forall_byte (p := fun c => alpha c = true → pcharNc c = true)
              (by decide +kernel) c
          rw [Pct.step_text (by decide) hclass] at hk
          cases hk
          rw [if_pos hc]
          obtain ⟨scheme, hsegment⟩ := run_segment true hrun
            { e with mark := some (c :: (u ++ (v ++ tailText query fragment))) }
            (v ++ tailText query fragment)
          refine ⟨scheme, some (c :: (u ++ (v ++ tailText query fragment))), ?_⟩
          simp only [perform_one, act, Option.elim_some]
          exact hsegment
        · have h47 : c ≠ 47 := by
            rintro rfl
            cases hk
          obtain ⟨scheme, hsegment⟩ := run_segment false hrun e
            (v ++ tailText query fragment)
          refine ⟨scheme, e.mark, ?_⟩
          rw [if_neg hc, if_neg h47, hk]
          exact hsegment
    obtain ⟨scheme, mark, hrun⟩ := hname
    rw [hrun]
    obtain rfl | ⟨v, rfl, hv⟩ := hv
    · refine (run_tail rfl ?_ hq hf (perform_nil _ _)).trans rfl
      rintro c (rfl | rfl)
      · rfl
      · rfl
    · rw [List.cons_append, run, State.next, if_neg (by decide)]
      exact run_path_end ((Pct.run_text (by decide)).2 hv) hq hf _

end

end CoroutineScheduler.Uri

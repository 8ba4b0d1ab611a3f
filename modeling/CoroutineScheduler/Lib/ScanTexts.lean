import CoroutineScheduler.Lib.Scan

/-!
# Scanners on composed texts

The actions of a scanner may look at the whole buffer, so a run over the second part of a text is
not a run of its own. `runFrom pre ys` is the run over `ys` in the buffer `pre ++ ys`, and
`Leads P s pre xs s' Q` says of the text `xs` behind `pre` that it takes the scanner from state `s` to
state `s'` and from environments in `P` to environments in `Q`, whatever follows.

Texts are put together by `Leads.trans`; a byte is `Leads.one`, and a stretch without actions is
`Leads.steps` or, in one state, `Leads.loop`.
-/

namespace Scan

section
variable {α σ : Type} {m : Scanner α} (act : List UInt8 → ℕ → α → σ → σ) (breaks : α → Bool)

/-- The run over `ys` behind the text `pre`. -/
def runFrom (pre ys : List UInt8) (s : m.State) (e : σ) : Halt α σ m :=
  exec m (act (pre ++ ys)) breaks pre.length ys s e

/-- The text `xs` behind `pre` leads from `s` and `P` to `s'` and `Q`. -/
def Leads (P : σ → Prop) (s : m.State) (pre xs : List UInt8) (s' : m.State) (Q : σ → Prop) : Prop :=
  ∀ ys e, P e → ∃ e', Q e' ∧
    runFrom act breaks pre (xs ++ ys) s e = runFrom act breaks (pre ++ xs) ys s' e'

variable {act breaks} {P Q R P' : σ → Prop} {s s' s'' : m.State} {pre xs ys : List UInt8}

theorem Leads.nil (h : ∀ e, P e → Q e) : Leads act breaks P s pre [] s Q := by
  intro ys e he
  refine ⟨e, h e he, ?_⟩
  rw [List.nil_append, List.append_nil]

theorem Leads.trans (h : Leads act breaks P s pre xs s' Q)
    (h' : Leads act breaks Q s' (pre ++ xs) ys s'' R) :
    Leads act breaks P s pre (xs ++ ys) s'' R := by
  intro zs e he
  obtain ⟨e', he', hrun⟩ := h (ys ++ zs) e he
  obtain ⟨e'', he'', hrun'⟩ := h' zs e' he'
  refine ⟨e'', he'', ?_⟩
  rw [List.append_assoc, hrun, hrun', List.append_assoc]

theorem Leads.imp (h : Leads act breaks P s pre xs s' Q) (hP : ∀ e, P' e → P e)
    (hQ : ∀ e, Q e → R e) : Leads act breaks P' s pre xs s' R := by
  intro ys e he
  obtain ⟨e', he', hrun⟩ := h ys e (hP e he)
  exact ⟨e', hQ e' he', hrun⟩

theorem runFrom_cons {b : UInt8} {as : List α} {e : σ} (hnext : m.next s b = some (s', as))
    (hbreaks : as.any breaks = false) :
    runFrom act breaks pre (b :: ys) s e = runFrom act breaks (pre ++ [b]) ys s'
      (as.foldl (fun e a => act (pre ++ b :: ys) pre.length a e) e) := by
  unfold runFrom
  rw [exec, hnext]
  simp only [hbreaks, List.append_assoc, List.singleton_append, List.length_append,
    List.length_singleton]
  rfl

/-- A single byte. -/
theorem Leads.one {b : UInt8} (as : List α) (hnext : m.next s b = some (s', as))
    (hbreaks : as.any breaks = false)
    (h : ∀ ys e, P e → Q (as.foldl (fun e a => act (pre ++ b :: ys) pre.length a e) e)) :
    Leads act breaks P s pre [b] s' Q :=
  fun ys e he => ⟨_, h ys e he, runFrom_cons hnext hbreaks⟩

/-- A stretch without actions, with the state behind each of its bytes. -/
theorem Leads.steps (S : ℕ → m.State)
    (h : ∀ i b, xs[i]? = some b → m.next (S i) b = some (S (i + 1), [])) :
    Leads act breaks P (S 0) pre xs (S xs.length) P := by
  induction xs generalizing S pre with
  | nil => exact Leads.nil fun _ => id
  | cons b xs ih =>
    have hone : Leads act breaks P (S 0) pre [b] (S 1) P := Leads.one [] (h 0 b rfl) rfl fun _ _ => id
    refine hone.trans (ih (fun i => S (i + 1)) fun i c hc => h (i + 1) c ?_)
    rwa [List.getElem?_cons_succ]

/-- A stretch without actions in one state. -/
theorem Leads.loop (h : ∀ b ∈ xs, m.next s b = some (s, [])) : Leads act breaks P s pre xs s P :=
  Leads.steps (fun _ => s) fun _ b hb => h b (List.mem_of_getElem? hb)

/-- The run that a text leads through from the start of the buffer. -/
theorem Leads.run (h : Leads act breaks P s [] xs s' Q) (ys : List UInt8) {e : σ} (he : P e) : ∃ e', Q e' ∧
    exec m (act (xs ++ ys)) breaks 0 (xs ++ ys) s e = runFrom act breaks xs ys s' e' :=
  h ys e he

end

end Scan

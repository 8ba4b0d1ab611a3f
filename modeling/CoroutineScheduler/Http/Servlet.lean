import CoroutineScheduler.Http.Request
import CoroutineScheduler.Lib.History

/-!
# The servlets and the paths they serve

`ServletDispatch` keeps a map for exact paths and a list of patterns. `fnmatch` and the `get` of
creators that are no part of the repository are parameters.

What a history of registrations means is stated over the history itself: for an exact path the last
operation on it counts (`last`), for the patterns the last operation on each, in the order of these
operations (`latest`). `dispatch_matching`: the two containers say the same after every history, and
a path is served by the exact entry, else by the first pattern that matches, else by the default.
-/

namespace CoroutineScheduler.Http

open History

/-- `Servlet::ptr`. -/
inductive Servlet
  | null
  | notFound (name : List UInt8)
  | function (cb : ℕ)
  | user (k : ℕ)
  deriving DecidableEq, Repr

/-- `IServletCreator::ptr`: null, a `HoldServletCreator`, or some other creator. -/
inductive ServletCreator
  | null
  | hold (slt : Servlet)
  | user (k : ℕ)
  deriving DecidableEq, Repr

/-- `get()`. Through a null pointer there is none. -/
def ServletCreator.get (create : ℕ → Servlet) : ServletCreator → Option Servlet
  | null => none
  | hold slt => some slt
  | user k => some (create k)

/-- The fields of `ServletDispatch`. -/
structure ServletDispatch where
  datas : List UInt8 → Option ServletCreator
  globs : List (List UInt8 × ServletCreator)
  dflt : Servlet

/-- The calls that change a `ServletDispatch`. -/
inductive ServletOp
  | addServlet (uri : List UInt8) (slt : Servlet)
  | addServletFunction (uri : List UInt8) (cb : ℕ)
  | addServletCreator (uri : List UInt8) (creator : ServletCreator)
  | addGlobServlet (uri : List UInt8) (slt : Servlet)
  | addGlobServletFunction (uri : List UInt8) (cb : ℕ)
  | addGlobServletCreator (uri : List UInt8) (creator : ServletCreator)
  | delServlet (uri : List UInt8)
  | delGlobServlet (uri : List UInt8)
  | setDefault (slt : Servlet)
  deriving DecidableEq, Repr

namespace ServletDispatch

/-- `ServletDispatch()`. -/
def new : ServletDispatch where
  datas := fun _ => none
  globs := []
  dflt := .notFound (ascii "IOCoroutineScheduler/1.0")

def addServletCreator (d : ServletDispatch) (uri : List UInt8) (creator : ServletCreator) :
    ServletDispatch :=
  { d with datas := Function.update d.datas uri (some creator) }

def addServlet (d : ServletDispatch) (uri : List UInt8) (slt : Servlet) : ServletDispatch :=
  d.addServletCreator uri (.hold slt)

/-- The loop that erases the first entry with the pattern `uri`. -/
def eraseGlob (uri : List UInt8) :
    List (List UInt8 × ServletCreator) → List (List UInt8 × ServletCreator)
  | [] => []
  | g :: gs => if g.1 = uri then gs else g :: eraseGlob uri gs

def addGlobServletCreator (d : ServletDispatch) (uri : List UInt8) (creator : ServletCreator) :
    ServletDispatch :=
  { d with globs := eraseGlob uri d.globs ++ [(uri, creator)] }

def addGlobServlet (d : ServletDispatch) (uri : List UInt8) (slt : Servlet) : ServletDispatch :=
  d.addGlobServletCreator uri (.hold slt)

def delServlet (d : ServletDispatch) (uri : List UInt8) : ServletDispatch :=
  { d with datas := Function.update d.datas uri none }

def delGlobServlet (d : ServletDispatch) (uri : List UInt8) : ServletDispatch :=
  { d with globs := eraseGlob uri d.globs }

def setDefault (d : ServletDispatch) (slt : Servlet) : ServletDispatch := { d with dflt := slt }

def step (d : ServletDispatch) : ServletOp → ServletDispatch
  | .addServlet uri slt => d.addServlet uri slt
  | .addServletFunction uri cb => d.addServlet uri (.function cb)
  | .addServletCreator uri creator => d.addServletCreator uri creator
  | .addGlobServlet uri slt => d.addGlobServlet uri slt
  | .addGlobServletFunction uri cb => d.addGlobServlet uri (.function cb)
  | .addGlobServletCreator uri creator => d.addGlobServletCreator uri creator
  | .delServlet uri => d.delServlet uri
  | .delGlobServlet uri => d.delGlobServlet uri
  | .setDefault slt => d.setDefault slt

/-- The state after a history of calls. -/
def run (ops : List ServletOp) : ServletDispatch := ops.foldl step new

section Lookup

variable (fnmatch : List UInt8 → List UInt8 → Bool) (create : ℕ → Servlet)

/-- `c_str()`, as `fnmatch` reads it. -/
def cstr (s : List UInt8) : List UInt8 := s.takeWhile (· ≠ 0)

/-- The loop of `getMatchedServlet` over the patterns. -/
def matchGlobs (uri : List UInt8) : List (List UInt8 × ServletCreator) → Option ServletCreator
  | [] => none
  | g :: gs => if fnmatch (cstr g.1) (cstr uri) then some g.2 else matchGlobs uri gs

/-- `getMatchedServlet`; `none` is the use of a null creator. -/
def getMatchedServlet (d : ServletDispatch) (uri : List UInt8) : Option Servlet :=
  match d.datas uri with
  | some creator => creator.get create
  | none =>
    match matchGlobs fnmatch uri d.globs with
    | some creator => creator.get create
    | none => some d.dflt

end Lookup

end ServletDispatch

/-! ## Histories -/

/-- What a call does to the exact paths: the path, and what is registered for it from then on. -/
def ServletOp.exact : ServletOp → Option (List UInt8 × Option ServletCreator)
  | addServlet uri slt => some (uri, some (.hold slt))
  | addServletFunction uri cb => some (uri, some (.hold (.function cb)))
  | addServletCreator uri creator => some (uri, some creator)
  | delServlet uri => some (uri, none)
  | _ => none

/-- What a call does to the patterns. -/
def ServletOp.glob : ServletOp → Option (List UInt8 × Option ServletCreator)
  | addGlobServlet uri slt => some (uri, some (.hold slt))
  | addGlobServletFunction uri cb => some (uri, some (.hold (.function cb)))
  | addGlobServletCreator uri creator => some (uri, some creator)
  | delGlobServlet uri => some (uri, none)
  | _ => none

namespace ServletDispatch

variable {d : ServletDispatch} {o : ServletOp} {uri path : List UInt8} {v : Option ServletCreator}

/-- One call, at the exact paths. -/
theorem step_datas (d : ServletDispatch) (o : ServletOp) :
    (d.step o).datas = match o.exact with
      | some e => Function.update d.datas e.1 e.2
      | none => d.datas := by
  cases o <;> rfl

/-- One call, at the patterns. -/
theorem step_globs (d : ServletDispatch) (o : ServletOp) :
    (d.step o).globs = match o.glob with
      | some e => eraseGlob e.1 d.globs ++ (e.2.map fun c => (e.1, c)).toList
      | none => d.globs := by
  cases o with
  | delGlobServlet uri => exact (List.append_nil _).symm
  | _ => rfl

/-- A call that registers or deletes leaves the default as it is. -/
theorem step_dflt (d : ServletDispatch) (o : ServletOp) (ho : ∀ slt, o ≠ .setDefault slt) :
    (d.step o).dflt = d.dflt := by
  cases o with
  | setDefault slt => exact absurd rfl (ho slt)
  | _ => rfl

theorem eraseGlob_eq_filter {gs : List (List UInt8 × ServletCreator)}
    (h : (gs.map Prod.fst).Nodup) (uri : List UInt8) :
    eraseGlob uri gs = gs.filter fun g => g.1 ≠ uri := by
  induction gs with
  | nil => rfl
  | cons g gs ih =>
    obtain ⟨hg, hgs⟩ := List.nodup_cons.1 h
    unfold eraseGlob
    split_ifs with hu
    · -- the only entry with this pattern
      have hne : ∀ e ∈ gs, e.1 ≠ uri := fun e he heq =>
        hg (List.mem_map.2 ⟨e, he, heq.trans hu.symm⟩)
      rw [List.filter_cons_of_neg (by simp [hu]), List.filter_eq_self.2 (by simpa using hne)]
    · rw [List.filter_cons_of_pos (by simpa using hu), ih hgs]

theorem run_append (ops : List ServletOp) (o : ServletOp) : run (ops ++ [o]) = (run ops).step o := by
  unfold run
  rw [List.foldl_append]
  rfl

theorem run_datas (ops : List ServletOp) (uri : List UInt8) :
    (run ops).datas uri = last uri (ops.filterMap ServletOp.exact) := by
  induction ops using List.reverseRecOn with
  | nil => rfl
  | append_singleton ops o ih =>
    rw [run_append, step_datas, List.filterMap_append]
    cases ho : o.exact with
    | none => simpa [ho] using ih
    | some e =>
      rw [List.filterMap_cons_some ho, List.filterMap_nil, last_append]
      split_ifs with he
      · subst he
        exact Function.update_self ..
      · exact (Function.update_of_ne (Ne.symm he) _ _).trans ih

theorem run_globs (ops : List ServletOp) :
    (run ops).globs = latest (ops.filterMap ServletOp.glob) := by
  induction ops using List.reverseRecOn with
  | nil => rfl
  | append_singleton ops o ih =>
    rw [run_append, step_globs, List.filterMap_append]
    cases ho : o.glob with
    | none => simpa [ho] using ih
    | some e =>
      rw [List.filterMap_cons_some ho, List.filterMap_nil, latest_append, ih]
      dsimp only
      rw [eraseGlob_eq_filter (nodup_latest _)]

theorem run_dflt (ops : List ServletOp) (h : ∀ slt, .setDefault slt ∉ ops) :
    (run ops).dflt = new.dflt := by
  induction ops using List.reverseRecOn with
  | nil => rfl
  | append_singleton ops o ih =>
    rw [run_append, step_dflt]
    · exact ih fun slt hm => h slt (List.mem_append_left _ hm)
    · rintro slt rfl
      exact h slt (List.mem_append_right _ (List.mem_singleton_self _))

/-- Every pattern is there at most once. -/
theorem nodup_globs (ops : List ServletOp) : ((run ops).globs.map Prod.fst).Nodup := by
  rw [run_globs]
  exact nodup_latest _

section Lookup

variable {fnmatch : List UInt8 → List UInt8 → Bool} {create : ℕ → Servlet}

/-- The entry whose pattern is the first one that matches. -/
def firstGlob (fnmatch : List UInt8 → List UInt8 → Bool) (path : List UInt8)
    (gs : List (List UInt8 × ServletCreator)) : Option (List UInt8 × ServletCreator) :=
  gs.find? fun g => fnmatch (cstr g.1) (cstr path)

theorem matchGlobs_eq (gs : List (List UInt8 × ServletCreator)) :
    matchGlobs fnmatch path gs = (firstGlob fnmatch path gs).map Prod.snd := by
  induction gs with
  | nil => rfl
  | cons g gs ih =>
    unfold matchGlobs firstGlob
    rw [List.find?_cons]
    cases hm : fnmatch (cstr g.1) (cstr path) with
    | true => rfl
    | false => exact ih

/-- An exact path is served as before when another one is registered or deleted. -/
theorem getMatchedServlet_step_exact (ho : o.exact = some (uri, v)) (hp : path ≠ uri) :
    (d.step o).getMatchedServlet fnmatch create path = d.getMatchedServlet fnmatch create path := by
  have hdatas : (d.step o).datas path = d.datas path := by
    rw [step_datas, ho]
    exact Function.update_of_ne hp _ _
  have hglobs : (d.step o).globs = d.globs := by
    cases o <;> first | rfl | cases ho
  have hdflt : (d.step o).dflt = d.dflt := by
    cases o <;> first | rfl | cases ho
  unfold getMatchedServlet
  rw [hdatas, hglobs, hdflt]

/-- The first match is the same when an entry is moved to the end, or comes or goes, that does not
match or is not the first that does. -/
theorem firstGlob_move {gs : List (List UInt8 × ServletCreator)}
    (h : fnmatch (cstr uri) (cstr path) = false ∨
      ∃ g, firstGlob fnmatch path gs = some g ∧ g.1 ≠ uri) :
    firstGlob fnmatch path
        (gs.filter (fun g => g.1 ≠ uri) ++ (v.map fun c => (uri, c)).toList) =
      firstGlob fnmatch path gs := by
  unfold firstGlob at h ⊢
  have hfilter : (gs.filter fun g => g.1 ≠ uri).find? (fun g => fnmatch (cstr g.1) (cstr path)) =
      gs.find? fun g => decide (g.1 ≠ uri) && fnmatch (cstr g.1) (cstr path) := by
    rw [List.find?_filter]
    simp only [Bool.decide_and, Bool.decide_eq_true]
  rw [List.find?_append, hfilter]
  obtain h | ⟨g, hg, hne⟩ := h
  · have hp : ∀ g : List UInt8 × ServletCreator,
        (decide (g.1 ≠ uri) && fnmatch (cstr g.1) (cstr path)) = fnmatch (cstr g.1) (cstr path) := by
      intro g
      by_cases hu : g.1 = uri
      · rw [hu, h, Bool.and_false]
      · rw [decide_eq_true hu, Bool.true_and]
    have htail : (v.map fun c => (uri, c)).toList.find?
        (fun g => fnmatch (cstr g.1) (cstr path)) = none := by
      cases v with
      | none => rfl
      | some c => simp [h]
    simp only [hp, htail, Option.or_none]
  · obtain ⟨hmatch, as, bs, rfl, has⟩ := List.find?_eq_some_iff_append.1 hg
    have hfirst : (as ++ g :: bs).find?
        (fun g => decide (g.1 ≠ uri) && fnmatch (cstr g.1) (cstr path)) = some g := by
      refine List.find?_eq_some_iff_append.2 ⟨?_, as, bs, rfl, fun a ha => ?_⟩
      · rw [decide_eq_true hne, hmatch]
        rfl
      · have hn := has a ha
        simp only [Bool.not_eq_true'] at hn ⊢
        rw [hn, Bool.and_false]
    rw [hfirst, hg]
    rfl

theorem globs_step_glob (hd : (d.globs.map Prod.fst).Nodup) (ho : o.glob = some (uri, v)) :
    (d.step o).globs = d.globs.filter (fun g => g.1 ≠ uri) ++ (v.map fun c => (uri, c)).toList := by
  rw [step_globs, ho, ← eraseGlob_eq_filter hd]

/-- A path is served as before when a pattern is registered or deleted that does not match it, or when
another pattern comes before it. -/
theorem getMatchedServlet_step_glob (hd : (d.globs.map Prod.fst).Nodup)
    (ho : o.glob = some (uri, v))
    (h : fnmatch (cstr uri) (cstr path) = false ∨
      ∃ g, firstGlob fnmatch path d.globs = some g ∧ g.1 ≠ uri) :
    (d.step o).getMatchedServlet fnmatch create path = d.getMatchedServlet fnmatch create path := by
  have hdatas : (d.step o).datas = d.datas := by
    cases o <;> first | rfl | cases ho
  have hdflt : (d.step o).dflt = d.dflt := by
    cases o <;> first | rfl | cases ho
  unfold getMatchedServlet
  rw [hdatas, hdflt, matchGlobs_eq, matchGlobs_eq, globs_step_glob hd ho, firstGlob_move h]

/-- The other patterns keep their order. -/
theorem filter_step_glob (hd : (d.globs.map Prod.fst).Nodup) (ho : o.glob = some (uri, v)) :
    (d.step o).globs.filter (fun g => g.1 ≠ uri) = d.globs.filter (fun g => g.1 ≠ uri) := by
  rw [globs_step_glob hd ho, List.filter_append, List.filter_filter]
  cases v with
  | none => simp
  | some c => simp

end Lookup

end ServletDispatch

open ServletDispatch in
/-- **Matching**, after any history of calls: every pattern is in the list at most once, in the order
of the last registrations; an exact path or a pattern that is registered or deleted does not change
what serves the other paths, nor the order of the other patterns; and a path is served by what was
registered last for it and not deleted since, else by the first pattern that matches it, else by the
default. -/
theorem dispatch_matching (fnmatch : List UInt8 → List UInt8 → Bool) (create : ℕ → Servlet)
    (ops : List ServletOp) :
    ((run ops).globs.map Prod.fst).Nodup ∧
    (run ops).globs = latest (ops.filterMap ServletOp.glob) ∧
    (∀ o uri v path, o.exact = some (uri, v) → path ≠ uri →
      (run (ops ++ [o])).getMatchedServlet fnmatch create path =
        (run ops).getMatchedServlet fnmatch create path) ∧
    (∀ o uri v, o.glob = some (uri, v) →
      (run (ops ++ [o])).globs.filter (fun g => g.1 ≠ uri) =
        (run ops).globs.filter (fun g => g.1 ≠ uri) ∧
      ∀ path, (fnmatch (cstr uri) (cstr path) = false ∨
          ∃ g, firstGlob fnmatch path (run ops).globs = some g ∧ g.1 ≠ uri) →
        (run (ops ++ [o])).getMatchedServlet fnmatch create path =
          (run ops).getMatchedServlet fnmatch create path) ∧
    ((∀ slt, .setDefault slt ∉ ops) → (run ops).dflt = new.dflt) ∧
    ∀ path, (run ops).getMatchedServlet fnmatch create path =
      match last path (ops.filterMap ServletOp.exact) with
      | some creator => creator.get create
      | none =>
        match firstGlob fnmatch path (run ops).globs with
        | some g => g.2.get create
        | none => some (run ops).dflt := by
  have hd := nodup_globs ops
  refine ⟨hd, run_globs ops, fun o uri v path ho hp => ?_, fun o uri v ho => ⟨?_, fun path h => ?_⟩,
    run_dflt ops, fun path => ?_⟩
  · rw [run_append]
    exact getMatchedServlet_step_exact ho hp
  · rw [run_append]
    exact filter_step_glob hd ho
  · rw [run_append]
    exact getMatchedServlet_step_glob hd ho h
  · unfold getMatchedServlet
    rw [run_datas, matchGlobs_eq]
    cases last path (ops.filterMap ServletOp.exact) with
    | some creator => rfl
    | none => cases firstGlob fnmatch path (run ops).globs <;> rfl

/-- A pattern that is registered again goes to the end. -/
example : (ServletDispatch.run [.addGlobServlet [97] (.user 1), .addGlobServletFunction [98] 2,
    .addGlobServlet [97] (.user 3)]).globs =
      [([98], .hold (.function 2)), ([97], .hold (.user 3))] := rfl

end CoroutineScheduler.Http

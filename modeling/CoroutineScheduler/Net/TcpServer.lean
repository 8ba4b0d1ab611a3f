import Mathlib.Tactic

/-!
# Binding a server

`TcpServer::bind`: the sockets that are made for the addresses of a call, those that listen in the end,
and what is dropped when an address fails. The decision is taken on the out-parameter `fails`, and a
failing call clears the whole list of listening sockets. `always_allOrNothing_iff` says in which runs
every call is all or nothing.
-/

namespace CoroutineScheduler

/-- A socket, with its number among those that the server made. -/
structure ListenSock (α : Type) where
  id : ℕ
  addr : α
  ssl : Bool
  deriving DecidableEq, Repr

/-- How the two calls on the socket of an address end. -/
inductive Attempt
  | bindFails | listenFails | listens
  deriving DecidableEq, Repr

/-- `TcpServer`: the listening sockets, and the sockets to which the last pointer is gone. -/
structure TcpServer (α : Type) where
  ssl : Bool := false
  listenSocks : List (ListenSock α) := []
  made : ℕ := 0
  released : List ℕ := []
  listed_lt : ∀ x ∈ listenSocks, x.id < made
  released_lt : ∀ i ∈ released, i < made

/-- The arguments of a call of `bind`, each address with the outcome of its attempt. -/
structure BindCall (α : Type) where
  addrs : List (α × Attempt)
  fails : List α
  ssl : Bool

namespace TcpServer

variable {α : Type}

/-- A server without sockets. -/
def new : TcpServer α where
  listed_lt := by simp
  released_lt := by simp

/-- The socket of an address is bound and listens, or it is dropped at the end of the iteration. -/
def attempt (p : TcpServer α × List α) (a : α × Attempt) : TcpServer α × List α :=
  let (s, fails) := p
  match a.2 with
  | .bindFails | .listenFails =>
    ({ s with
        made := s.made + 1
        released := s.made :: s.released
        listed_lt := fun x hx => Nat.lt_succ_of_lt (s.listed_lt x hx)
        released_lt := fun i hi => by
          rcases List.mem_cons.1 hi with rfl | hi
          · exact Nat.lt_succ_self _
          · exact Nat.lt_succ_of_lt (s.released_lt i hi) },
      fails ++ [a.1])
  | .listens =>
    ({ s with
        made := s.made + 1
        listenSocks := s.listenSocks ++ [⟨s.made, a.1, s.ssl⟩]
        listed_lt := fun x hx => by
          rcases List.mem_append.1 hx with hx | hx
          · exact Nat.lt_succ_of_lt (s.listed_lt x hx)
          · rw [List.mem_singleton.1 hx]
            exact Nat.lt_succ_self _
        released_lt := fun i hi => Nat.lt_succ_of_lt (s.released_lt i hi) },
      fails)

/-- `m_listenSocks.clear()`. -/
def clear (s : TcpServer α) : TcpServer α :=
  { s with
    listenSocks := []
    released := s.listenSocks.map ListenSock.id ++ s.released
    listed_lt := by simp
    released_lt := fun i hi => by
      rcases List.mem_append.1 hi with hi | hi
      · obtain ⟨x, hx, rfl⟩ := List.mem_map.1 hi
        exact s.listed_lt x hx
      · exact s.released_lt i hi }

/-- `bind(addrs, fails, ssl)`: the result, `fails` and the server afterwards. -/
def bind (c : BindCall α) (s : TcpServer α) : Bool × List α × TcpServer α :=
  let (s', fails) := c.addrs.foldl attempt ({ s with ssl := c.ssl }, c.fails)
  if fails ≠ [] then (false, fails, s'.clear) else (true, fails, s')

/-- The server after a call. -/
def bound (c : BindCall α) (s : TcpServer α) : TcpServer α := (s.bind c).2.2

/-- The sockets that a call makes when every address listens. -/
def sockets (c : BindCall α) (s : TcpServer α) : List (ListenSock α) :=
  (c.addrs.map Prod.fst).mapIdx fun i a => ⟨s.made + i, a, c.ssl⟩

/-- A call adds a listening socket for each address, or it leaves the listening sockets as they were and
releases what it made; the latter when an address fails. -/
structure AllOrNothing (c : BindCall α) (s : TcpServer α) : Prop where
  fails_iff : (s.bind c).1 = false ↔ ∃ a ∈ c.addrs, a.2 ≠ .listens
  all : (s.bind c).1 = true → (s.bound c).listenSocks = s.listenSocks ++ s.sockets c ∧
    ∀ x ∈ s.sockets c, x.id ∉ (s.bound c).released
  nothing : (s.bind c).1 = false → (s.bound c).listenSocks = s.listenSocks ∧
    ∀ i, s.made ≤ i → i < (s.bound c).made → i ∈ (s.bound c).released

/-- A call that fails comes before any listening socket, and one that does not is given an empty
`fails`. -/
def Sound (c : BindCall α) (s : TcpServer α) : Prop :=
  ((∃ a ∈ c.addrs, a.2 ≠ .listens) → s.listenSocks = []) ∧
    ((∀ a ∈ c.addrs, a.2 = .listens) → c.fails = [])

/-- `P` holds at every call of a sequence. -/
def Always (P : BindCall α → TcpServer α → Prop) : List (BindCall α) → TcpServer α → Prop
  | [], _ => True
  | c :: cs, s => P c s ∧ Always P cs (s.bound c)

/-! ## The loop over the addresses -/

/-- The sockets among those of the addresses that listen, from the number `n` on. -/
def listening (ssl : Bool) : ℕ → List (α × Attempt) → List (ListenSock α)
  | _, [] => []
  | n, a :: addrs =>
    if a.2 = .listens then ⟨n, a.1, ssl⟩ :: listening ssl (n + 1) addrs
    else listening ssl (n + 1) addrs

/-- The addresses that fail. -/
def failed (addrs : List (α × Attempt)) : List α :=
  (addrs.filter fun a => a.2 ≠ .listens).map Prod.fst

variable {c : BindCall α} {s : TcpServer α} {fails : List α} {addrs : List (α × Attempt)} {n i : ℕ}
  {ssl : Bool}

theorem attempt_listens (s : TcpServer α) (fails : List α) {a : α × Attempt} (h : a.2 = .listens) :
    ((attempt (s, fails) a).1.listenSocks = s.listenSocks ++ [⟨s.made, a.1, s.ssl⟩]) ∧
    (attempt (s, fails) a).1.made = s.made + 1 ∧ (attempt (s, fails) a).1.released = s.released ∧
    (attempt (s, fails) a).1.ssl = s.ssl ∧ (attempt (s, fails) a).2 = fails := by
  simp [attempt, h]

theorem attempt_fails (s : TcpServer α) (fails : List α) {a : α × Attempt} (h : a.2 ≠ .listens) :
    (attempt (s, fails) a).1.listenSocks = s.listenSocks ∧
    (attempt (s, fails) a).1.made = s.made + 1 ∧
    (attempt (s, fails) a).1.released = s.made :: s.released ∧
    (attempt (s, fails) a).1.ssl = s.ssl ∧ (attempt (s, fails) a).2 = fails ++ [a.1] := by
  obtain ⟨addr, how⟩ := a
  cases how with
  | bindFails | listenFails => simp [attempt]
  | listens => exact absurd rfl h

/-- What the loop leaves: the sockets that listen are appended, and the others are released. -/
structure LoopSpec (addrs : List (α × Attempt)) (s : TcpServer α) (fails : List α)
    (p : TcpServer α × List α) : Prop where
  listenSocks : p.1.listenSocks = s.listenSocks ++ listening s.ssl s.made addrs
  made : p.1.made = s.made + addrs.length
  released : ∀ i, i ∈ p.1.released ↔ i ∈ s.released ∨
    s.made ≤ i ∧ i < s.made + addrs.length ∧ ∀ x ∈ listening s.ssl s.made addrs, x.id ≠ i
  fails : p.2 = fails ++ failed addrs

theorem le_of_mem_listening {x : ListenSock α} (h : x ∈ listening ssl n addrs) : n ≤ x.id := by
  induction addrs generalizing n with
  | nil => cases h
  | cons a addrs ih =>
    unfold listening at h
    split_ifs at h
    · rcases List.mem_cons.1 h with rfl | h
      · exact Nat.le_refl _
      · exact (Nat.le_succ n).trans (ih h)
    · exact (Nat.le_succ n).trans (ih h)

theorem loopSpec (addrs : List (α × Attempt)) (s : TcpServer α) (fails : List α) :
    LoopSpec addrs s fails (addrs.foldl attempt (s, fails)) := by
  induction addrs generalizing s fails with
  | nil =>
    refine ⟨by simp [listening], by simp, fun i => ?_, by simp [failed]⟩
    simp only [List.foldl_nil, List.length_nil, Nat.add_zero]
    constructor
    · exact Or.inl
    · rintro (h | ⟨h1, h2, -⟩)
      · exact h
      · omega
  | cons a addrs ih =>
    obtain ⟨hlisten, hcount, hdrop, hfailed⟩ := ih (attempt (s, fails) a).1 (attempt (s, fails) a).2
    rw [List.foldl_cons]
    by_cases ha : a.2 = .listens
    · obtain ⟨hsocks, hmade, hreleased, hssl, hfails⟩ := attempt_listens s fails ha
      rw [hsocks, hmade, hssl, List.append_assoc] at hlisten
      rw [hmade] at hcount
      refine ⟨?_, ?_, fun i => ?_, ?_⟩
      · rw [listening, if_pos ha]
        exact hlisten
      · rw [List.length_cons]
        exact hcount.trans (by omega)
      · rw [listening, if_pos ha, List.length_cons]
        refine (hdrop i).trans ?_
        rw [hreleased, hmade, hssl]
        constructor
        · rintro (h | ⟨h1, h2, h3⟩)
          · exact Or.inl h
          · refine Or.inr ⟨by omega, by omega, fun x hx => ?_⟩
            rcases List.mem_cons.1 hx with rfl | hx
            · exact fun he => absurd h1 (by simp only at he; omega)
            · exact h3 x hx
        · rintro (h | ⟨h1, h2, h3⟩)
          · exact Or.inl h
          · have hne : s.made ≠ i := h3 _ (List.mem_cons_self ..)
            exact Or.inr ⟨by omega, by omega, fun x hx => h3 x (List.mem_cons_of_mem _ hx)⟩
      · rw [failed, List.filter_cons_of_neg (by simpa using ha)]
        exact hfailed.trans (by rw [hfails, failed])
    · obtain ⟨hsocks, hmade, hreleased, hssl, hfails⟩ := attempt_fails s fails ha
      rw [hsocks, hmade, hssl] at hlisten
      rw [hmade] at hcount
      refine ⟨?_, ?_, fun i => ?_, ?_⟩
      · rw [listening, if_neg ha]
        exact hlisten
      · rw [List.length_cons]
        exact hcount.trans (by omega)
      · rw [listening, if_neg ha, List.length_cons]
        refine (hdrop i).trans ?_
        rw [hreleased, hmade, hssl, List.mem_cons]
        constructor
        · rintro ((rfl | h) | ⟨h1, h2, h3⟩)
          · refine Or.inr ⟨Nat.le_refl _, by omega, fun x hx he => ?_⟩
            have hle := le_of_mem_listening hx
            omega
          · exact Or.inl h
          · exact Or.inr ⟨by omega, by omega, h3⟩
        · rintro (h | ⟨h1, h2, h3⟩)
          · exact Or.inl (Or.inr h)
          · by_cases he : i = s.made
            · exact Or.inl (Or.inl he)
            · exact Or.inr ⟨by omega, by omega, h3⟩
      · rw [failed, List.filter_cons_of_pos (by simpa using ha)]
        exact hfailed.trans (by rw [hfails, failed, List.append_assoc]; rfl)

theorem listening_of_all (h : ∀ a ∈ addrs, a.2 = .listens) :
    listening ssl n addrs = (addrs.map Prod.fst).mapIdx fun i a => ⟨n + i, a, ssl⟩ := by
  induction addrs generalizing n with
  | nil => rfl
  | cons a addrs ih =>
    rw [listening, if_pos (h a (List.mem_cons_self ..)), ih fun b hb => h b (List.mem_cons_of_mem _ hb),
      List.map_cons, List.mapIdx_cons]
    simp only [Nat.add_zero, Nat.add_assoc, Nat.add_comm 1]

theorem failed_eq_nil : failed addrs = [] ↔ ∀ a ∈ addrs, a.2 = .listens := by
  simp [failed]

/-! ## A call -/

/-- The server after the loop. -/
def looped (c : BindCall α) (s : TcpServer α) : TcpServer α :=
  (c.addrs.foldl attempt ({ s with ssl := c.ssl }, c.fails)).1

theorem looped_spec (c : BindCall α) (s : TcpServer α) :
    LoopSpec c.addrs { s with ssl := c.ssl } c.fails (s.looped c, c.fails ++ failed c.addrs) := by
  have hspec := loopSpec c.addrs { s with ssl := c.ssl } c.fails
  rw [← hspec.fails]
  exact hspec

theorem bind_eq (c : BindCall α) (s : TcpServer α) : s.bind c =
    if c.fails ++ failed c.addrs ≠ [] then (false, c.fails ++ failed c.addrs, (s.looped c).clear)
    else (true, c.fails ++ failed c.addrs, s.looped c) := by
  rw [← (loopSpec c.addrs { s with ssl := c.ssl } c.fails).fails]
  rfl

/-- A call in which every address listens, with nothing in `fails`. -/
theorem allOrNothing_of_listens (h : ∀ a ∈ c.addrs, a.2 = .listens) (hf : c.fails = []) :
    AllOrNothing c s := by
  have hspec := looped_spec c s
  have hbind : s.bind c = (true, [], s.looped c) := by
    rw [bind_eq, hf, failed_eq_nil.2 h]
    rfl
  have hsockets : listening c.ssl s.made c.addrs = s.sockets c := listening_of_all h
  refine ⟨?_, fun _ => ?_, fun hfalse => ?_⟩
  · rw [hbind]
    constructor
    · intro hfalse
      cases hfalse
    · rintro ⟨a, ha, hne⟩
      exact absurd (h a ha) hne
  · rw [bound, hbind, ← hsockets]
    refine ⟨hspec.listenSocks, fun x hx hreleased => ?_⟩
    rcases (hspec.released x.id).1 hreleased with hold | ⟨-, -, hnot⟩
    · have hlt : x.id < s.made := s.released_lt _ hold
      exact absurd (le_of_mem_listening hx) (by omega)
    · exact hnot x hx rfl
  · rw [hbind] at hfalse
    cases hfalse

/-- A call in which an address fails leaves no listening socket. -/
theorem allOrNothing_of_fails (h : ∃ a ∈ c.addrs, a.2 ≠ .listens) :
    AllOrNothing c s ↔ s.listenSocks = [] := by
  have hspec := looped_spec c s
  have hne : c.fails ++ failed c.addrs ≠ [] := fun hnil => by
    obtain ⟨a, ha, hfail⟩ := h
    exact hfail (failed_eq_nil.1 (List.append_eq_nil_iff.1 hnil).2 a ha)
  have hbind : s.bind c = (false, c.fails ++ failed c.addrs, (s.looped c).clear) := by
    rw [bind_eq, if_pos hne]
  constructor
  · intro hall
    have hsocks := (hall.nothing (by rw [hbind])).1
    rw [bound, hbind] at hsocks
    exact hsocks.symm
  · intro hempty
    refine ⟨?_, fun htrue => ?_, fun _ => ?_⟩
    · rw [hbind]
      exact ⟨fun _ => h, fun _ => rfl⟩
    · rw [hbind] at htrue
      cases htrue
    · rw [bound, hbind]
      refine ⟨hempty.symm, fun i hle hlt => ?_⟩
      -- a socket of the call that was not dropped in the loop is in the list that is cleared
      have hmade : (s.looped c).made = s.made + c.addrs.length := hspec.made
      have hlt' : i < s.made + c.addrs.length := hmade ▸ hlt
      refine List.mem_append.2 ?_
      by_cases hin : ∃ x ∈ listening c.ssl s.made c.addrs, x.id = i
      · obtain ⟨x, hx, rfl⟩ := hin
        refine Or.inl (List.mem_map_of_mem ?_)
        rw [show (s.looped c).listenSocks = _ from hspec.listenSocks]
        exact List.mem_append_right _ hx
      · refine Or.inr ((hspec.released i).2 (Or.inr ⟨hle, hlt', fun x hx he => hin ⟨x, hx, he⟩⟩))

theorem allOrNothing_iff (c : BindCall α) (s : TcpServer α) : AllOrNothing c s ↔ Sound c s := by
  by_cases h : ∃ a ∈ c.addrs, a.2 ≠ .listens
  · rw [allOrNothing_of_fails h]
    refine ⟨fun hs => ⟨fun _ => hs, fun hall => ?_⟩, fun hs => hs.1 h⟩
    obtain ⟨a, ha, hne⟩ := h
    exact absurd (hall a ha) hne
  · have hall : ∀ a ∈ c.addrs, a.2 = .listens := fun a ha => by
      by_contra hne
      exact h ⟨a, ha, hne⟩
    constructor
    · intro hsound
      refine ⟨fun hfail => absurd hfail h, fun _ => ?_⟩
      by_contra hne
      have hbind : (s.bind c).1 = false := by
        rw [bind_eq, if_pos fun hnil => hne (List.append_eq_nil_iff.1 hnil).1]
      exact h (hsound.fails_iff.1 hbind)
    · exact fun hs => allOrNothing_of_listens hall (hs.2 hall)

/-! ## Runs -/

/-- In a sequence of calls every call is all or nothing exactly when the failing ones come before any
listening socket and the others are given an empty `fails`. -/
theorem always_allOrNothing_iff (calls : List (BindCall α)) (s : TcpServer α) :
    Always AllOrNothing calls s ↔ Always Sound calls s := by
  induction calls generalizing s with
  | nil => exact Iff.rfl
  | cons c calls ih => exact and_congr (allOrNothing_iff c s) (ih _)

/-- The second call fails and drops the listening socket of the first. -/
theorem always_allOrNothing_second : ¬∀ calls, Always AllOrNothing calls (new : TcpServer ℕ) := by
  intro h
  have hsecond := (h [⟨[(1, .listens)], [], false⟩, ⟨[(2, .bindFails)], [], false⟩]).2.1
  have hsocks := (allOrNothing_of_fails ⟨(2, .bindFails), by decide, by decide⟩).1 hsecond
  exact absurd hsocks (by decide)

end TcpServer

end CoroutineScheduler

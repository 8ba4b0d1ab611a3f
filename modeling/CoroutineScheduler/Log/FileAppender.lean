import CoroutineScheduler.Log.Level

/-!
# Logging into a file

`FileLogAppender` over a `std::ofstream`, and the files by their names. What is written counts as in
the file at once. Which names can be opened is a parameter, and so are the times of the events and
their formatted texts.

1. `logs_shown`: a run is one over the events that are shown.
2. `log_reopen`, `logs_lost`: the first call that reopens loses the name for good.
3. `logs_named`, `logs_nameless`: what a run leaves in a file with a name and in one without.
4. `fileRight_iff`: when the file has what was shown.
-/

namespace CoroutineScheduler.Log

/-! ## Streams -/

/-- The files, by their names. -/
abbrev Files := List UInt8 → List UInt8

/-- `std::ofstream`: the file of its buffer, and whether an operation has failed. -/
structure Ofstream where
  file : Option (List UInt8)
  fail : Bool
  deriving DecidableEq, Repr

/-- `close()`. -/
def Ofstream.close (s : Ofstream) : Ofstream :=
  if s.file.isSome then { s with file := none } else { s with fail := true }

/-- `os << text`. -/
def Ofstream.write (text : List UInt8) (s : Ofstream) (fs : Files) : Ofstream × Files :=
  if s.fail then (s, fs)
  else
    match s.file with
    | some name => (s, Function.update fs name (fs name ++ text))
    | none => ({ s with fail := true }, fs)

section
variable (opens : List UInt8 → Bool)

/-- `open(name)`, in the mode that truncates the file. -/
def Ofstream.openFile (name : List UInt8) (s : Ofstream) (fs : Files) : Ofstream × Files :=
  if s.file.isSome then ({ s with fail := true }, fs)
  else if opens name then (⟨some name, false⟩, Function.update fs name [])
  else (⟨none, true⟩, fs)

/-! ## The appender -/

structure FileLogAppender where
  level : LogLevel
  filename : List UInt8
  filestream : Ofstream
  lastTime : UInt64
  deriving DecidableEq, Repr

/-- `FileLogAppender(filename)`: only the stream is given the name. -/
def FileLogAppender.new (filename : List UInt8) (fs : Files) : FileLogAppender × Files :=
  let (stream, fs) := Ofstream.openFile opens filename ⟨none, false⟩ fs
  (⟨.DEBUG, [], stream, 0⟩, fs)

def FileLogAppender.setLevel (val : LogLevel) (a : FileLogAppender) : FileLogAppender :=
  { a with level := val }

/-- `FileLogAppender::reopen`. -/
def FileLogAppender.reopen (a : FileLogAppender) (fs : Files) : FileLogAppender × Files :=
  let stream := if a.filestream.fail then a.filestream else a.filestream.close
  let (stream, fs) := stream.openFile opens a.filename fs
  ({ a with filestream := stream }, fs)

variable {Event : Type*} (getTime : Event → UInt64) (format : LogLevel → Event → List UInt8)

/-- `FileLogAppender::log`. -/
def FileLogAppender.log (level : LogLevel) (event : Event) (a : FileLogAppender) (fs : Files) :
    FileLogAppender × Files :=
  if a.level ≤ level then
    let now := getTime event
    let (a, fs) :=
      if a.lastTime + 3 ≤ now then
        let (a, fs) := a.reopen opens fs
        ({ a with lastTime := now }, fs)
      else (a, fs)
    let (stream, fs) := a.filestream.write (format level event) fs
    ({ a with filestream := stream }, fs)
  else (a, fs)

/-- Calls of `log`, one after the other. -/
def FileLogAppender.logs (calls : List (LogLevel × Event)) (a : FileLogAppender) (fs : Files) :
    FileLogAppender × Files :=
  calls.foldl (fun s c => s.1.log opens getTime format c.1 c.2 s.2) (a, fs)

/-! ## What the file should have -/

/-- The calls whose level is at least that of the appender. -/
def shown (level : LogLevel) (calls : List (LogLevel × Event)) : List (LogLevel × Event) :=
  calls.filter (level ≤ ·.1)

/-- The texts of calls. -/
def texts (calls : List (LogLevel × Event)) : List UInt8 := calls.flatMap fun c => format c.1 c.2

/-- The file of a new appender ends with the texts of the events that it shows. -/
def FileRight (filename : List UInt8) (level : LogLevel) (fs : Files)
    (calls : List (LogLevel × Event)) : Prop :=
  let a := FileLogAppender.new opens filename fs
  ((a.1.setLevel level).logs opens getTime format calls a.2).2 filename =
    texts format (shown level calls)

/-- No event has a text that is shown before one at which the file is reopened. -/
def Quiet (last : UInt64) : List (LogLevel × Event) → Prop
  | [] => True
  | c :: calls =>
    let last := if last + 3 ≤ getTime c.2 then getTime c.2 else last
    ((∃ c' ∈ calls, last + 3 ≤ getTime c'.2) → format c.1 c.2 = []) ∧ Quiet last calls

/-- With a name, no event at 3 or later has a text; without, none before the last reopening. -/
def Kept (filename : List UInt8) (calls : List (LogLevel × Event)) : Prop :=
  if filename = [] then Quiet getTime format 0 calls
  else ∀ c ∈ calls, 3 ≤ getTime c.2 → format c.1 c.2 = []

/-! ## One call -/

variable {opens getTime format} {a : FileLogAppender} {fs : Files} {level : LogLevel}
  {event : Event} {calls : List (LogLevel × Event)} {filename : List UInt8} {last : UInt64}

theorem texts_cons (c : LogLevel × Event) (calls : List (LogLevel × Event)) :
    texts format (c :: calls) = format c.1 c.2 ++ texts format calls := rfl

theorem logs_cons (a : FileLogAppender) (fs : Files) (c : LogLevel × Event)
    (calls : List (LogLevel × Event)) :
    a.logs opens getTime format (c :: calls) fs =
      (a.log opens getTime format c.1 c.2 fs).1.logs opens getTime format calls
        (a.log opens getTime format c.1 c.2 fs).2 := by
  unfold FileLogAppender.logs
  rw [List.foldl_cons, Prod.mk.eta]

/-- A call below the level does nothing. -/
theorem log_hidden (h : ¬ a.level ≤ level) :
    a.log opens getTime format level event fs = (a, fs) := by
  unfold FileLogAppender.log
  rw [if_neg h]

theorem log_level (a : FileLogAppender) (fs : Files) (level : LogLevel) (event : Event) :
    (a.log opens getTime format level event fs).1.level = a.level := by
  unfold FileLogAppender.log
  by_cases hl : a.level ≤ level
  · rw [if_pos hl]
    dsimp only
    split_ifs <;> rfl
  · rw [if_neg hl]

/-- A run is one over what is shown. -/
theorem logs_shown (a : FileLogAppender) (fs : Files) (calls : List (LogLevel × Event)) :
    a.logs opens getTime format calls fs = a.logs opens getTime format (shown a.level calls) fs := by
  induction calls generalizing a fs with
  | nil => rfl
  | cons c calls ih =>
    unfold shown at ih ⊢
    by_cases h : a.level ≤ c.1
    · rw [List.filter_cons_of_pos (by simpa using h), logs_cons, logs_cons, ih, log_level]
    · rw [List.filter_cons_of_neg (by simpa using h), logs_cons, log_hidden h, ih]

/-- A stream without a file has failed. -/
def Ofstream.Settled (s : Ofstream) : Prop := s = ⟨none, true⟩ ∨ ∃ name, s = ⟨some name, false⟩

theorem reopen_eq (h : a.filestream.Settled) (fs : Files) :
    a.reopen opens fs =
      if opens a.filename then
        ({ a with filestream := ⟨some a.filename, false⟩ }, Function.update fs a.filename [])
      else ({ a with filestream := ⟨none, true⟩ }, fs) := by
  have hclosed : (if a.filestream.fail then a.filestream else a.filestream.close).file = none := by
    rcases h with h | ⟨name, h⟩ <;> rw [h] <;> rfl
  unfold FileLogAppender.reopen Ofstream.openFile
  simp only [hclosed, Option.isSome_none, Bool.false_eq_true, if_false]
  split_ifs <;> rfl

/-- A call that does not reopen writes to the file of the stream. -/
theorem log_open {name : List UInt8} (hs : a.filestream = ⟨some name, false⟩) (hl : a.level ≤ level)
    (ht : ¬ a.lastTime + 3 ≤ getTime event) (fs : Files) :
    a.log opens getTime format level event fs =
      (a, Function.update fs name (fs name ++ format level event)) := by
  unfold FileLogAppender.log
  simp only [if_pos hl, if_neg ht, Ofstream.write, hs]
  rw [if_neg (by simp), ← hs]

/-! ## A lost name -/

/-- The stream is on the file without a name, or on none. -/
def FileLogAppender.Lost (a : FileLogAppender) : Prop :=
  a.filename = [] ∧ (a.filestream = ⟨none, true⟩ ∨ a.filestream = ⟨some [], false⟩)

theorem write_other {s : Ofstream} (hs : s = ⟨none, true⟩ ∨ s = ⟨some [], false⟩)
    (hn : filename ≠ []) (text : List UInt8) (fs : Files) :
    (s.write text fs).1 = s ∧ (s.write text fs).2 filename = fs filename := by
  rcases hs with rfl | rfl
  · exact ⟨rfl, rfl⟩
  · exact ⟨rfl, Function.update_of_ne hn _ _⟩

/-- A call that reopens loses the name, and leaves the file as it is. -/
theorem log_reopen (hn : filename ≠ []) (hf : a.filename = []) (hs : a.filestream.Settled)
    (hl : a.level ≤ level) (ht : a.lastTime + 3 ≤ getTime event) (fs : Files) :
    (a.log opens getTime format level event fs).1.Lost ∧
      (a.log opens getTime format level event fs).2 filename = fs filename := by
  unfold FileLogAppender.log FileLogAppender.Lost
  simp only [if_pos hl, if_pos ht, reopen_eq hs, hf]
  split_ifs with ho
  · have hw := write_other (.inr rfl) hn (format level event) (Function.update fs [] [])
    rw [hw.1, hw.2, Function.update_of_ne hn]
    exact ⟨⟨rfl, .inr rfl⟩, rfl⟩
  · have hw := write_other (.inl rfl) hn (format level event) fs
    rw [hw.1, hw.2]
    exact ⟨⟨rfl, .inl rfl⟩, rfl⟩

theorem log_lost (hn : filename ≠ []) (h : a.Lost) (level : LogLevel) (event : Event) (fs : Files) :
    (a.log opens getTime format level event fs).1.Lost ∧
      (a.log opens getTime format level event fs).2 filename = fs filename := by
  by_cases hl : a.level ≤ level
  · by_cases ht : a.lastTime + 3 ≤ getTime event
    · have hs : a.filestream.Settled := h.2.imp_right fun hs => ⟨[], hs⟩
      exact log_reopen hn h.1 hs hl ht fs
    · have hw := write_other h.2 hn (format level event) fs
      unfold FileLogAppender.log
      simp only [if_pos hl, if_neg ht]
      rw [hw.1, hw.2]
      exact ⟨h, rfl⟩
  · rw [log_hidden hl]
    exact ⟨h, rfl⟩

theorem logs_lost (hn : filename ≠ []) (h : a.Lost) (calls : List (LogLevel × Event)) (fs : Files) :
    (a.logs opens getTime format calls fs).2 filename = fs filename := by
  induction calls generalizing a fs with
  | nil => rfl
  | cons c calls ih =>
    rw [logs_cons]
    exact (ih (log_lost hn h c.1 c.2 fs).1 _).trans (log_lost hn h c.1 c.2 fs).2

variable (opens format) in
/-- A run with a name: what comes from the first reopening on is lost. -/
theorem logs_named (hn : filename ≠ []) (hshown : ∀ c ∈ calls, level ≤ c.1)
    (hsorted : (calls.map fun c => getTime c.2).Pairwise (· ≤ ·)) (fs : Files) :
    ((⟨level, [], ⟨some filename, false⟩, 0⟩ : FileLogAppender).logs opens getTime format calls fs).2
        filename = fs filename ++ texts format calls ↔
      ∀ c ∈ calls, 3 ≤ getTime c.2 → format c.1 c.2 = [] := by
  induction calls generalizing fs with
  | nil => simp [FileLogAppender.logs, texts]
  | cons c calls ih =>
    obtain ⟨hc, hcalls⟩ := List.forall_mem_cons.mp hshown
    obtain ⟨hle, hrest⟩ := List.pairwise_cons.mp hsorted
    rw [logs_cons]
    by_cases ht : 3 ≤ getTime c.2
    · have hall : ∀ c' ∈ c :: calls, 3 ≤ getTime c'.2 :=
        List.forall_mem_cons.mpr ⟨ht, fun c' h => UInt64.le_trans ht (hle _ (List.mem_map_of_mem h))⟩
      have hs : (⟨some filename, false⟩ : Ofstream).Settled := .inr ⟨filename, rfl⟩
      have hstep (a : FileLogAppender) (ha : a = ⟨level, [], ⟨some filename, false⟩, 0⟩) :
          (a.log opens getTime format c.1 c.2 fs).1.Lost ∧
            (a.log opens getTime format c.1 c.2 fs).2 filename = fs filename := by
        subst ha
        exact log_reopen hn rfl hs hc ht fs
      rw [logs_lost hn (hstep _ rfl).1, (hstep _ rfl).2, List.self_eq_append_right, texts, List.flatMap_eq_nil_iff]
      exact forall₂_congr fun c' h => (imp_iff_right (hall c' h)).symm
    · rw [log_open (a := ⟨level, [], ⟨some filename, false⟩, 0⟩) rfl hc ht]
      have hih := ih hcalls hrest (Function.update fs filename (fs filename ++ format c.1 c.2))
      rw [Function.update_self, List.append_assoc, ← texts_cons] at hih
      exact hih.trans (by simp [ht])

/-! ## No name -/

section
variable (getTime format)

/-- What a file without a name has in the end: a reopening drops what it had. -/
def keptText (last : UInt64) (content : List UInt8) : List (LogLevel × Event) → List UInt8
  | [] => content
  | c :: calls =>
    if last + 3 ≤ getTime c.2 then keptText (getTime c.2) (format c.1 c.2) calls
    else keptText last (content ++ format c.1 c.2) calls

end

/-- A run without a name. -/
theorem logs_nameless (ho : opens [] = true) (hshown : ∀ c ∈ calls, level ≤ c.1) (fs : Files) :
    ((⟨level, [], ⟨some [], false⟩, last⟩ : FileLogAppender).logs opens getTime format calls fs).2 [] =
      keptText getTime format last (fs []) calls := by
  induction calls generalizing fs last with
  | nil => rfl
  | cons c calls ih =>
    obtain ⟨hc, hcalls⟩ := List.forall_mem_cons.mp hshown
    rw [logs_cons, keptText]
    split_ifs with ht
    · have hlog : (⟨level, [], ⟨some [], false⟩, last⟩ : FileLogAppender).log opens getTime format
          c.1 c.2 fs = (⟨level, [], ⟨some [], false⟩, getTime c.2⟩,
            Function.update fs [] (format c.1 c.2)) := by
        have hre : (⟨level, [], ⟨some [], false⟩, last⟩ : FileLogAppender).reopen opens fs =
            (⟨level, [], ⟨some [], false⟩, last⟩, Function.update fs [] []) :=
          (reopen_eq (.inr ⟨[], rfl⟩) fs).trans (if_pos ho)
        unfold FileLogAppender.log
        simp only [if_pos hc, if_pos ht, hre, Ofstream.write]
        simp
      rw [hlog, ih hcalls]
      dsimp only
      rw [Function.update_self]
    · have hlog : (⟨level, [], ⟨some [], false⟩, last⟩ : FileLogAppender).log opens getTime format
          c.1 c.2 fs = (⟨level, [], ⟨some [], false⟩, last⟩,
            Function.update fs [] (fs [] ++ format c.1 c.2)) :=
        log_open (a := ⟨level, [], ⟨some [], false⟩, last⟩) rfl hc ht fs
      rw [hlog, ih hcalls]
      dsimp only
      rw [Function.update_self]

variable (getTime format) in
theorem keptText_length (last : UInt64) (content : List UInt8) (calls : List (LogLevel × Event)) :
    (keptText getTime format last content calls).length ≤
      content.length + (texts format calls).length := by
  induction calls generalizing last content with
  | nil => simp [keptText]
  | cons c calls ih =>
    rw [keptText, texts_cons, List.length_append]
    split_ifs
    · have hlen := ih (getTime c.2) (format c.1 c.2)
      omega
    · have hlen := ih last (content ++ format c.1 c.2)
      rw [List.length_append] at hlen
      omega

variable (getTime format) in
/-- Nothing is dropped exactly when there was nothing at each reopening. -/
theorem keptText_iff (last : UInt64) (content : List UInt8) (calls : List (LogLevel × Event)) :
    keptText getTime format last content calls = content ++ texts format calls ↔
      ((∃ c ∈ calls, last + 3 ≤ getTime c.2) → content = []) ∧ Quiet getTime format last calls := by
  induction calls generalizing last content with
  | nil => simp [keptText, texts, Quiet]
  | cons c calls ih =>
    rw [keptText, Quiet, texts_cons]
    by_cases ht : last + 3 ≤ getTime c.2
    · have hex : ∃ c' ∈ c :: calls, last + 3 ≤ getTime c'.2 := ⟨c, List.mem_cons_self, ht⟩
      rw [if_pos ht, if_pos ht, imp_iff_right hex, ← ih]
      constructor
      · intro heq
        have hlen := keptText_length getTime format (getTime c.2) (format c.1 c.2) calls
        rw [heq, List.length_append, List.length_append] at hlen
        have hnil : content = [] := List.length_eq_zero_iff.mp (by omega)
        exact ⟨hnil, by rw [heq, hnil, List.nil_append]⟩
      · rintro ⟨rfl, heq⟩
        rw [heq, List.nil_append]
    · have hex : (∃ c' ∈ c :: calls, last + 3 ≤ getTime c'.2) ↔
          ∃ c' ∈ calls, last + 3 ≤ getTime c'.2 := by
        rw [List.exists_mem_cons_iff, or_iff_right ht]
      rw [if_neg ht, if_neg ht, hex, ← List.append_assoc, ih, List.append_eq_nil_iff, imp_and]
      tauto

/-! ## The file -/

/-- The file of a new appender has what was shown exactly when the events that are lost have no
text: those from 3 seconds on, or for the empty name those before the last reopening. -/
theorem fileRight_iff (opens : List UInt8 → Bool) (getTime : Event → UInt64)
    (format : LogLevel → Event → List UInt8) (filename : List UInt8) (level : LogLevel) (fs : Files)
    (calls : List (LogLevel × Event)) (hopens : opens filename = true)
    (hsorted : (calls.map fun c => getTime c.2).Pairwise (· ≤ ·)) :
    FileRight opens getTime format filename level fs calls ↔
      Kept getTime format filename (shown level calls) := by
  have hmk : (FileLogAppender.new opens filename fs).2 filename = [] := by
    simp [FileLogAppender.new, Ofstream.openFile, hopens]
  have hshown : ∀ c ∈ shown level calls, level ≤ c.1 := fun c hc => by
    simpa using (List.mem_filter.mp hc).2
  have hstate : (FileLogAppender.new opens filename fs).1.setLevel level =
      ⟨level, [], ⟨some filename, false⟩, 0⟩ := by
    simp [FileLogAppender.new, Ofstream.openFile, FileLogAppender.setLevel, hopens]
  unfold FileRight
  simp only [hstate]
  rw [logs_shown]
  unfold Kept
  split_ifs with hn
  · subst hn
    rw [logs_nameless hopens hshown, hmk]
    simpa using keptText_iff getTime format 0 [] (shown level calls)
  · have hsub : (shown level calls).map (fun c => getTime c.2) |>.Pairwise (· ≤ ·) :=
      hsorted.sublist (List.filter_sublist.map _)
    have hk := logs_named opens format hn hshown hsub
      (FileLogAppender.new opens filename fs).2
    rw [hmk, List.nil_append] at hk
    exact hk

theorem fileRight_iff_two :
    FileRight (fun _ => true) Prod.fst (fun _ e => e.2) (Http.ascii "log") .INFO (fun _ => [])
        [(.INFO, (2, [65])), (.WARN, (5, []))] ↔
      Kept Prod.fst (fun _ e => e.2) (Http.ascii "log")
        (shown .INFO [(.INFO, ((2 : UInt64), [65])), (.WARN, (5, []))]) :=
  fileRight_iff _ _ _ _ _ _ _ rfl (by decide)

/-- The file of an appender whose only event is at second 5 stays empty. -/
theorem not_fileRight_first :
    ¬ FileRight (fun _ => true) Prod.fst (fun _ e => e.2) (Http.ascii "log") .DEBUG (fun _ => [])
      [(.INFO, ((5 : UInt64), [65]))] := by
  unfold FileRight
  decide

end

end CoroutineScheduler.Log

import CoroutineScheduler.Config.ConfigVar
import CoroutineScheduler.Log.Define
import CoroutineScheduler.Log.Pattern

/-!
# Loggers that follow the configuration

`LogIniter`: the listener of the item `logs`, a set of `LogDefine`, and the loggers it sets up. A
formatter is known by its pattern. An appender has the file that it is made for: what logging does
to its stream is no part of this.

`operator==` of `LogDefine` compares the appenders of a definition with themselves, and is asked
twice: by `setValue` for the set, and by the listener for each definition.

1. `init_new`: the format that a logger starts with has no error.
2. `configure_has`: a logger that is set up has what its definition says.
3. `assign_apply`: what an assignment does to one logger.
4. `right_concat`, `rightThroughout_iff`: when the loggers are those of the last value, after one
   assignment and after each of them.
-/

namespace CoroutineScheduler.Log

open Http (ascii)

/-! ## Loggers -/

inductive AppenderKind
  | fileLogAppender (filename : List UInt8)
  | stdoutLogAppender
  deriving DecidableEq, Repr

structure LogAppender where
  kind : AppenderKind
  level : LogLevel := .DEBUG
  hasFormatter : Bool := false
  formatter : Option (List UInt8) := none
  deriving DecidableEq, Repr

structure Logger where
  level : LogLevel
  formatter : List UInt8
  appenders : List LogAppender
  deriving DecidableEq, Repr

/-- `Logger(name)`. -/
def Logger.new : Logger where
  level := .DEBUG
  formatter := ascii "%d\x7b%Y-%m-%d %H:%M:%S\x7d%T%f:%l%T[%p]%T%c%T%t(%N)%T%F%T%m%n"
  appenders := []

/-- The tokens of the format that a logger starts with. -/
def defaultTokens : List Token :=
  [.spec .dateTimeFormatItem (some (ascii "%Y-%m-%d %H:%M:%S")), .spec .tabFormatItem none,
   .spec .fileNameFormatItem none, .text (ascii ":"), .spec .lineFormatItem none,
   .spec .tabFormatItem none, .text (ascii "["), .spec .levelFormatItem none, .text (ascii "]"),
   .spec .tabFormatItem none, .spec .nameFormatItem none, .spec .tabFormatItem none,
   .spec .threadIdFormatItem none, .text (ascii "("), .spec .threadNameFormatItem none,
   .text (ascii ")"), .spec .tabFormatItem none, .spec .fiberIdFormatItem none,
   .spec .tabFormatItem none, .spec .messageFormatItem none, .spec .newLineFormatItem none]

/-- That format is read as it was written. -/
theorem init_new : LogFormatter.init Logger.new.formatter = ⟨false, itemsFrom [] defaultTokens⟩ := by
  have hrender : render defaultTokens = Logger.new.formatter := by decide
  have hwell : WellFormed defaultTokens := by
    simp [defaultTokens, WellFormed, render, Token.render, isalpha, ascii]
  have hplain : Plain defaultTokens := by
    simp [defaultTokens, Plain, render, Token.render, ascii]
  rw [← hrender]
  exact (parsedRight_iff_readRight defaultTokens).2 ((readRight_iff hwell []).2 hplain)

def LogAppender.setLevel (val : LogLevel) (a : LogAppender) : LogAppender := { a with level := val }

/-- `LogAppender::setFormatter`. -/
def LogAppender.setFormatter (val : List UInt8) (a : LogAppender) : LogAppender :=
  { a with formatter := some val, hasFormatter := true }

def Logger.setLevel (val : LogLevel) (l : Logger) : Logger := { l with level := val }

/-- `Logger::setFormatter` of a pattern. -/
def Logger.setFormatter (val : List UInt8) (l : Logger) : Logger :=
  if (LogFormatter.init val).error then l
  else
    { l with
      formatter := val
      appenders := l.appenders.map fun a =>
        if a.hasFormatter then a else { a with formatter := some val } }

def Logger.clearAppenders (l : Logger) : Logger := { l with appenders := [] }

/-- `Logger::addAppender`. -/
def Logger.addAppender (appender : LogAppender) (l : Logger) : Logger :=
  let appender :=
    if appender.formatter.isNone then { appender with formatter := some l.formatter } else appender
  { l with appenders := l.appenders ++ [appender] }

/-- The loggers of the manager, by their names. -/
abbrev Loggers := List UInt8 → Option Logger

/-- `LoggerManager()`: the root logger, which writes to the console. -/
def loggerManager : Loggers :=
  Function.update (fun _ => none) (ascii "root")
    (some (Logger.new.addAppender { kind := .stdoutLogAppender }))

/-- A change of the logger that `getLogger` finds or makes. -/
def Loggers.modify (name : List UInt8) (f : Logger → Logger) (m : Loggers) : Loggers :=
  Function.update m name (some (f ((m name).getD Logger.new)))

/-! ## The item -/

/-- An appender is a file or the console, and its formatter has no error if there is one. -/
structure LogAppenderDefine.Valid (a : LogAppenderDefine) : Prop where
  type : a.type = 1 ∨ a.type = 2
  formatter : a.formatter ≠ [] → (LogFormatter.init a.formatter).error = false

structure LogDefine.Valid (d : LogDefine) : Prop where
  formatter : d.formatter ≠ [] → (LogFormatter.init d.formatter).error = false
  appenders : ∀ a ∈ d.appenders, a.Valid

/-- `std::set<LogDefine>`, in the order of the names. -/
structure Defines where
  defines : List LogDefine
  sorted : defines.Pairwise fun a b => a.name < b.name
  valid : ∀ d ∈ defines, d.Valid

/-- `std::set<LogDefine>()`. -/
def Defines.empty : Defines := ⟨[], List.Pairwise.nil, nofun⟩

/-- `LogDefine::operator==`. -/
def LogDefine.eq (d oth : LogDefine) : Bool :=
  d.name = oth.name && d.level = oth.level && d.formatter = oth.formatter &&
    d.appenders = d.appenders

/-- `operator==` of sets: the sizes, and the elements in order. -/
instance : BEq Defines where
  beq v w := v.defines.length = w.defines.length &&
    (v.defines.zip w.defines).all fun p => p.1.eq p.2

/-- `find`, by the order of the names. -/
def findDefine (name : List UInt8) (ds : List LogDefine) : Option LogDefine :=
  ds.find? (·.name = name)

/-- The appender for a definition. For another type the pointer would be null, and be used. -/
def newAppender (a : LogAppenderDefine) : Option LogAppender :=
  let ap : Option LogAppender :=
    if a.type = 1 then some { kind := .fileLogAppender a.file }
    else if a.type = 2 then some { kind := .stdoutLogAppender }
    else none
  ap.map fun ap =>
    let ap := ap.setLevel a.level
    if a.formatter = [] then ap
    else if (LogFormatter.init a.formatter).error then ap
    else ap.setFormatter a.formatter

/-- What the listener does with a logger that is new or has changed. -/
def Logger.configure (i : LogDefine) (l : Logger) : Logger :=
  let l := l.setLevel i.level
  let l := if i.formatter = [] then l else l.setFormatter i.formatter
  let l := l.clearAppenders
  (i.appenders.filterMap newAppender).foldl (fun l ap => l.addAppender ap) l

/-- What the listener does with a logger that is gone. -/
def Logger.remove (l : Logger) : Logger := (l.setLevel .UNKNOW).clearAppenders

/-- A definition is as it was, as far as the listener sees. -/
def kept (old : List LogDefine) (i : LogDefine) : Bool :=
  match findDefine i.name old with
  | some it => i.eq it
  | none => false

/-- The listener of `LogIniter`. -/
def onLoggerConfChanged (old new : List LogDefine) (m : Loggers) : Loggers :=
  let m := new.foldl (fun m i => if kept old i then m else m.modify i.name (·.configure i)) m
  old.foldl (fun m i => if (findDefine i.name new).isNone then m.modify i.name (·.remove) else m) m

/-- `g_log_defines` and the loggers. -/
structure LogState where
  defines : Config.ConfigVar Defines
  loggers : Loggers

/-- The state behind the static constructors. -/
def LogState.start : LogState where
  defines := (Config.addListener 0 ⟨Defines.empty, ∅⟩ fun _ _ => none).2
  loggers := loggerManager

/-- `g_log_defines->setValue(v)`: a call of the listener changes the loggers. -/
def LogState.assign (s : LogState) (v : Defines) : LogState :=
  let r := Config.setValue s.defines v
  ⟨r.1, r.2.1.foldl (fun m c => onLoggerConfChanged c.old.defines c.new.defines m) s.loggers⟩

/-- The values are assigned in order. -/
def LogState.run (values : List Defines) : LogState := values.foldl LogState.assign .start

/-! ## What the loggers should be -/

/-- What a definition says of an appender: the console has no file. -/
def LogAppenderDefine.said (a : LogAppenderDefine) : LogAppenderDefine :=
  if a.type = 2 then { a with file := [] } else a

/-- What an appender is, as a definition. -/
def LogAppender.define (a : LogAppender) : LogAppenderDefine where
  type := match a.kind with
    | .fileLogAppender _ => 1
    | .stdoutLogAppender => 2
  level := a.level
  formatter := if a.hasFormatter then a.formatter.getD [] else []
  file := match a.kind with
    | .fileLogAppender filename => filename
    | .stdoutLogAppender => []

/-- A logger has the level of a definition, its formatter when it has one, and its appenders. -/
structure Logger.Has (l : Logger) (d : LogDefine) : Prop where
  level : l.level = d.level
  formatter : d.formatter ≠ [] → l.formatter = d.formatter
  appenders : l.appenders.map LogAppender.define = d.appenders.map LogAppenderDefine.said

/-- The last of some values, at first the empty set. -/
def last (vs : List Defines) : Defines := vs.getLast?.getD .empty

/-- The loggers behind some values are those of the last one. -/
structure Right (m : Loggers) (vs : List Defines) : Prop where
  named : ∀ d ∈ (last vs).defines, ∃ l, m d.name = some l ∧ l.Has d
  gone : ∀ v ∈ vs, ∀ d ∈ v.defines, findDefine d.name (last vs).defines = none →
    ∃ l, m d.name = some l ∧ l.appenders = []

/-- The loggers are right behind each value. -/
def RightThroughout (values : List Defines) : Prop :=
  ∀ vs, vs <+: values → Right (LogState.run vs).loggers vs

/-- Two definitions of one logger with the same level and formatter have the same appenders. -/
def Follows (v w : Defines) : Prop :=
  ∀ e ∈ v.defines, ∀ d ∈ w.defines, d.eq e = true →
    d.appenders.map LogAppenderDefine.said = e.appenders.map LogAppenderDefine.said

/-! ## One logger -/

section
variable {a : LogAppenderDefine} {d e : LogDefine} {l : Logger} {name : List UInt8}

/-- The appender that is made has what is said of it, and a formatter of its own if one is given. -/
theorem newAppender_spec (h : a.Valid) :
    ∃ ap, newAppender a = some ap ∧ ap.define = a.said ∧
      (ap.formatter.isNone → ap.hasFormatter = false) := by
  obtain ⟨ht, hf⟩ := h
  obtain ⟨type, level, formatter, file⟩ := a
  dsimp only at ht hf
  by_cases hn : formatter = []
  · subst hn
    rcases ht with rfl | rfl
    · exact ⟨_, rfl, rfl, fun _ => rfl⟩
    · exact ⟨_, rfl, rfl, fun _ => rfl⟩
  · have he := hf hn
    rcases ht with rfl | rfl
    · exact ⟨⟨.fileLogAppender file, level, true, some formatter⟩,
        by simp [newAppender, hn, he, LogAppender.setLevel, LogAppender.setFormatter], rfl, nofun⟩
    · exact ⟨⟨.stdoutLogAppender, level, true, some formatter⟩,
        by simp [newAppender, hn, he, LogAppender.setLevel, LogAppender.setFormatter], rfl, nofun⟩

/-- An appender without a formatter is given that of the logger, and is the same as a definition. -/
theorem addAppender_define {ap : LogAppender} (h : ap.formatter.isNone → ap.hasFormatter = false)
    (l : Logger) :
    (l.addAppender ap).appenders.map LogAppender.define =
      l.appenders.map LogAppender.define ++ [ap.define] := by
  unfold Logger.addAppender
  by_cases hn : ap.formatter.isNone
  · simp [hn, LogAppender.define, h hn]
  · simp [hn]

theorem addAppenders_eq (as : List LogAppenderDefine) (l : Logger)
    (h : ∀ a ∈ as, a.Valid) :
    let l' := (as.filterMap newAppender).foldl (fun l ap => l.addAppender ap) l
    l'.level = l.level ∧ l'.formatter = l.formatter ∧
      l'.appenders.map LogAppender.define =
        l.appenders.map LogAppender.define ++ as.map LogAppenderDefine.said := by
  induction as generalizing l with
  | nil => exact ⟨rfl, rfl, by simp⟩
  | cons a as ih =>
    obtain ⟨ha, has⟩ := List.forall_mem_cons.mp h
    obtain ⟨ap, hnew, hdef, hown⟩ := newAppender_spec ha
    obtain ⟨hlevel, hformatter, happenders⟩ := ih (l.addAppender ap) has
    rw [List.filterMap_cons_some hnew, List.foldl_cons]
    refine ⟨hlevel, hformatter, ?_⟩
    rw [happenders, addAppender_define hown, hdef, List.append_assoc]
    rfl

/-- A logger that is set up has what its definition says. -/
theorem configure_has (l : Logger) (h : d.Valid) : (l.configure d).Has d := by
  unfold Logger.configure
  obtain ⟨hlevel, hformatter, happenders⟩ := addAppenders_eq d.appenders
    (if d.formatter = [] then l.setLevel d.level
      else (l.setLevel d.level).setFormatter d.formatter).clearAppenders h.appenders
  constructor
  · rw [hlevel]
    split_ifs
    · rfl
    · unfold Logger.setFormatter
      split_ifs <;> rfl
  · intro hn
    rw [hformatter, if_neg hn, Logger.setFormatter, h.formatter hn]
    rfl
  · rw [happenders]
    rfl

/-- What a logger has to have is what the definition says. -/
theorem Logger.Has.congr (hl : l.Has e) (hlevel : d.level = e.level)
    (hformatter : d.formatter = e.formatter)
    (happenders : d.appenders.map LogAppenderDefine.said = e.appenders.map LogAppenderDefine.said) :
    l.Has d where
  level := hl.level.trans hlevel.symm
  formatter := hformatter ▸ hl.formatter
  appenders := hl.appenders.trans happenders.symm

/-! ## One assignment -/

theorem modify_self (m : Loggers) (f : Logger → Logger) :
    m.modify name f name = some (f ((m name).getD .new)) := Function.update_self ..

theorem modify_other {name' : List UInt8} (h : name' ≠ name) (m : Loggers) (f : Logger → Logger) :
    m.modify name f name' = m name' := Function.update_of_ne h ..

theorem findDefine_name {ds : List LogDefine} (h : findDefine name ds = some d) :
    d ∈ ds ∧ d.name = name :=
  ⟨List.mem_of_find?_eq_some h, by simpa using List.find?_some h⟩

theorem findDefine_eq_none {ds : List LogDefine} :
    findDefine name ds = none ↔ ∀ d ∈ ds, d.name ≠ name := by
  simp [findDefine]

/-- A loop over definitions with different names changes each logger once at most. -/
theorem foldl_modify (p : LogDefine → Bool) (f : LogDefine → Logger → Logger) {ds : List LogDefine}
    (h : (ds.map LogDefine.name).Nodup) (m : Loggers) (name : List UInt8) :
    ds.foldl (fun m i => if p i then m.modify i.name (f i) else m) m name =
      match findDefine name ds with
      | some i => if p i then some (f i ((m name).getD .new)) else m name
      | none => m name := by
  induction ds generalizing m with
  | nil => rfl
  | cons d ds ih =>
    obtain ⟨hd, hds⟩ := List.nodup_cons.mp h
    rw [List.foldl_cons, ih hds]
    by_cases hn : d.name = name
    · have hrest : findDefine name ds = none :=
        findDefine_eq_none.mpr fun e he heq => hd (List.mem_map.mpr ⟨e, he, heq.trans hn.symm⟩)
      have hfirst : findDefine name (d :: ds) = some d := List.find?_cons_of_pos (by simpa using hn)
      rw [hrest, hfirst]
      subst hn
      dsimp only
      split_ifs
      · rw [modify_self]
      · rfl
    · have hfirst : findDefine name (d :: ds) = findDefine name ds :=
        List.find?_cons_of_neg (by simpa using hn)
      have hother : (if p d then m.modify d.name (f d) else m) name = m name := by
        split_ifs
        · exact modify_other (Ne.symm hn) m (f d)
        · rfl
      rw [hfirst, hother]

/-- The listener on one logger. -/
theorem onLoggerConfChanged_apply {old new : List LogDefine} (hold : (old.map LogDefine.name).Nodup)
    (hnew : (new.map LogDefine.name).Nodup) (m : Loggers) (name : List UInt8) :
    onLoggerConfChanged old new m name =
      match findDefine name new with
      | some i => if kept old i then m name else some (((m name).getD .new).configure i)
      | none =>
        if (findDefine name old).isSome then some ((m name).getD .new).remove else m name := by
  have hset : ∀ m : Loggers, new.foldl (fun m i => if kept old i then m else
      m.modify i.name (·.configure i)) m name =
        match findDefine name new with
        | some i => if kept old i then m name else some (((m name).getD .new).configure i)
        | none => m name := by
    intro m
    have hloop := foldl_modify (fun i => !kept old i) (fun i l => l.configure i) hnew m name
    simp only [Bool.not_eq_true', ← Bool.not_eq_true, ite_not] at hloop
    exact hloop
  unfold onLoggerConfChanged
  rw [foldl_modify (fun i => (findDefine i.name new).isNone) (fun _ l => l.remove) hold, hset]
  cases hn : findDefine name new with
  | some i =>
    cases ho : findDefine name old with
    | none => rfl
    | some d => simp [(findDefine_name ho).2, hn]
  | none =>
    cases ho : findDefine name old with
    | none => rfl
    | some d => simp [(findDefine_name ho).2, hn]

theorem Defines.nodup (v : Defines) : (v.defines.map LogDefine.name).Nodup :=
  List.pairwise_map.mpr <| v.sorted.imp fun {d e} h (heq : d.name = e.name) =>
    List.lt_irrefl e.name (heq ▸ h)

theorem eq_iff :
    d.eq e = true ↔ d.name = e.name ∧ d.level = e.level ∧ d.formatter = e.formatter := by
  simp [LogDefine.eq, and_assoc]

/-- Equal sets have the same names, and each definition is as it was. -/
theorem eq_sets {ds es : List LogDefine} (hlen : ds.length = es.length)
    (hall : (ds.zip es).all (fun p => p.1.eq p.2) = true) (name : List UInt8) :
    match findDefine name ds with
    | some d => ∃ e, findDefine name es = some e ∧ d.eq e = true
    | none => findDefine name es = none := by
  induction ds generalizing es with
  | nil =>
    rw [List.eq_nil_of_length_eq_zero hlen.symm]
    rfl
  | cons d ds ih =>
    cases es with
    | nil => simp at hlen
    | cons e es =>
      rw [List.zip_cons_cons, List.all_cons, Bool.and_eq_true] at hall
      have hname := (eq_iff.mp hall.1).1
      by_cases hn : d.name = name
      · have hd : findDefine name (d :: ds) = some d := List.find?_cons_of_pos (by simpa using hn)
        have he : findDefine name (e :: es) = some e :=
          List.find?_cons_of_pos (by simpa using hname ▸ hn)
        rw [hd]
        exact ⟨e, he, hall.1⟩
      · have hd : findDefine name (d :: ds) = findDefine name ds :=
          List.find?_cons_of_neg (by simpa using hn)
        have he : findDefine name (e :: es) = findDefine name es :=
          List.find?_cons_of_neg (by simpa using hname ▸ hn)
        rw [hd, he]
        exact ih (by simpa using hlen) hall.2

/-- The item has the one listener. -/
def LogState.Listened (s : LogState) : Prop := s.defines.cbs = LogState.start.defines.cbs

theorem setValue_listened {s : LogState} (h : s.Listened) (v : Defines) :
    Config.setValue s.defines v =
      if v == s.defines.val then (s.defines, [], none)
      else ({ s.defines with val := v }, [⟨1, s.defines.val, v, true⟩], none) := by
  have hcalls : Config.callAll s.defines.val v s.defines.cbs.entries =
      ([⟨1, s.defines.val, v, true⟩], none) := by
    rw [h]
    rfl
  unfold Config.setValue
  simp only [hcalls]

theorem assign_listened {s : LogState} (h : s.Listened) (v : Defines) : (s.assign v).Listened := by
  unfold LogState.Listened LogState.assign
  rw [setValue_listened h]
  split_ifs <;> exact h

/-- An assignment on one logger. -/
theorem assign_apply {s : LogState} (h : s.Listened) (v : Defines) (name : List UInt8) :
    (s.assign v).loggers name =
      match findDefine name v.defines with
      | some i =>
        if kept s.defines.val.defines i then s.loggers name
        else some (((s.loggers name).getD .new).configure i)
      | none =>
        if (findDefine name s.defines.val.defines).isSome then
          some ((s.loggers name).getD .new).remove
        else s.loggers name := by
  unfold LogState.assign
  rw [setValue_listened h]
  by_cases heq : (v == s.defines.val) = true
  · obtain ⟨hlen, hall⟩ := Bool.and_eq_true_iff.mp heq
    have hsets := eq_sets (of_decide_eq_true hlen) hall name
    rw [if_pos heq]
    cases hv : findDefine name v.defines with
    | some d =>
      rw [hv] at hsets
      obtain ⟨e, he, hde⟩ := hsets
      simp [kept, (findDefine_name hv).2, he, hde]
    | none =>
      rw [hv] at hsets
      have hnone : findDefine name s.defines.val.defines = none := hsets
      simp [hnone]
  · rw [if_neg heq]
    exact onLoggerConfChanged_apply s.defines.val.nodup v.nodup s.loggers name

theorem assign_val {s : LogState} (h : s.Listened) (v : Defines) :
    (s.assign v).defines.val = if v == s.defines.val then s.defines.val else v := by
  unfold LogState.assign
  rw [setValue_listened h]
  split_ifs <;> rfl

/-! ## A run -/

/-- What a set says. -/
def LogDefine.said (d : LogDefine) : LogDefine :=
  { d with appenders := d.appenders.map LogAppenderDefine.said }

/-- The set that is stored says what another one does. -/
def LogState.Says (s : LogState) (v : Defines) : Prop :=
  s.defines.val.defines.map LogDefine.said = v.defines.map LogDefine.said

/-- Equal sets of which one follows the other say the same. -/
theorem said_of_eq {ds es : List LogDefine} (hlen : ds.length = es.length)
    (hall : (ds.zip es).all (fun p => p.1.eq p.2) = true)
    (hfollows : ∀ e ∈ es, ∀ d ∈ ds, d.eq e = true →
      d.appenders.map LogAppenderDefine.said = e.appenders.map LogAppenderDefine.said) :
    es.map LogDefine.said = ds.map LogDefine.said := by
  induction ds generalizing es with
  | nil => rw [List.eq_nil_of_length_eq_zero hlen.symm]
  | cons d ds ih =>
    cases es with
    | nil => simp at hlen
    | cons e es =>
      rw [List.zip_cons_cons, List.all_cons, Bool.and_eq_true] at hall
      obtain ⟨hname, hlevel, hformatter⟩ : d.name = e.name ∧ d.level = e.level ∧
        d.formatter = e.formatter := eq_iff.mp hall.1
      have happ := hfollows e List.mem_cons_self d List.mem_cons_self hall.1
      have hrest := ih (by simpa using hlen) hall.2 fun e' he d' hd =>
        hfollows e' (List.mem_cons_of_mem _ he) d' (List.mem_cons_of_mem _ hd)
      rw [List.map_cons, List.map_cons, hrest]
      simp [LogDefine.said, hname, hlevel, hformatter, happ]

/-- A definition in a set has its like in one that says the same. -/
theorem mem_of_said {ds es : List LogDefine} (h : ds.map LogDefine.said = es.map LogDefine.said)
    (hd : d ∈ ds) :
    ∃ e ∈ es, e.name = d.name ∧ e.level = d.level ∧ e.formatter = d.formatter ∧
      e.appenders.map LogAppenderDefine.said = d.appenders.map LogAppenderDefine.said := by
  have hmem : d.said ∈ es.map LogDefine.said := h ▸ List.mem_map_of_mem hd
  obtain ⟨e, he, heq⟩ := List.mem_map.mp hmem
  have hparts := heq
  unfold LogDefine.said at hparts
  rw [LogDefine.mk.injEq] at hparts
  exact ⟨e, he, hparts⟩

theorem says_assign {s : LogState} {v w : Defines} (hs : s.Listened) (hv : s.Says v)
    (h : Follows v w) : (s.assign w).Says w := by
  unfold LogState.Says
  rw [assign_val hs]
  by_cases heq : (w == s.defines.val) = true
  · rw [if_pos heq]
    obtain ⟨hlen, hall⟩ := Bool.and_eq_true_iff.mp heq
    refine said_of_eq (of_decide_eq_true hlen) hall fun e he d hd hde => ?_
    obtain ⟨e', he', hname, hlevel, hformatter, happ⟩ := mem_of_said hv he
    rw [← happ]
    refine h e' he' d hd ?_
    rw [eq_iff] at hde ⊢
    exact ⟨hde.1.trans hname.symm, hde.2.1.trans hlevel.symm, hde.2.2.trans hformatter.symm⟩
  · rw [if_neg heq]

theorem last_concat (vs : List Defines) (w : Defines) : last (vs ++ [w]) = w := by
  simp [last]

theorem findDefine_self {v : Defines} (h : d ∈ v.defines) :
    findDefine d.name v.defines = some d := by
  cases hf : findDefine d.name v.defines with
  | none => exact absurd rfl (findDefine_eq_none.mp hf d h)
  | some e =>
    obtain ⟨he, hname⟩ := findDefine_name hf
    rw [List.inj_on_of_nodup_map v.nodup he h hname]

/-- The loggers stay right in an assignment exactly when the value follows. -/
theorem right_concat {s : LogState} {vs : List Defines} (hs : s.Listened) (hv : s.Says (last vs))
    (hright : Right s.loggers vs) (w : Defines) :
    Right (s.assign w).loggers (vs ++ [w]) ↔ Follows (last vs) w := by
  constructor
  · intro h e he d hd hde
    -- the definition is kept, and its logger has the appenders of the old one
    obtain ⟨e', he', hname, hlevel, hformatter, -⟩ := mem_of_said hv.symm he
    obtain ⟨hname', hlevel', hformatter'⟩ := eq_iff.mp hde
    have hkept : kept s.defines.val.defines d = true := by
      have hfind : findDefine d.name s.defines.val.defines = some e' := by
        rw [hname', ← hname]
        exact findDefine_self he'
      unfold kept
      rw [hfind]
      exact eq_iff.mpr ⟨hname'.trans hname.symm, hlevel'.trans hlevel.symm,
        hformatter'.trans hformatter.symm⟩
    obtain ⟨l, hl, hhas⟩ := hright.named e he
    obtain ⟨l', hl', hhas'⟩ := h.named d (by rwa [last_concat])
    have hsame : (s.assign w).loggers d.name = s.loggers d.name := by
      rw [assign_apply hs, findDefine_self hd]
      exact if_pos hkept
    rw [hsame, hname', hl, Option.some.injEq] at hl'
    rw [← hhas'.appenders, ← hl', hhas.appenders]
  · intro h
    constructor
    · intro d hd
      rw [last_concat] at hd
      rw [assign_apply hs, findDefine_self hd]
      dsimp only
      split_ifs with hkept
      · -- what is kept was right, and the new definition says the same
        unfold kept at hkept
        cases hf : findDefine d.name s.defines.val.defines with
        | none => simp [hf] at hkept
        | some e' =>
          rw [hf] at hkept
          obtain ⟨e, he, hname, hlevel, hformatter, -⟩ := mem_of_said hv (findDefine_name hf).1
          obtain ⟨hname', hlevel', hformatter'⟩ := eq_iff.mp hkept
          obtain ⟨l, hl, hhas⟩ := hright.named e he
          have hde : d.name = e.name ∧ d.level = e.level ∧ d.formatter = e.formatter :=
            ⟨hname'.trans hname.symm, hlevel'.trans hlevel.symm, hformatter'.trans hformatter.symm⟩
          refine ⟨l, hde.1 ▸ hl, hhas.congr hde.2.1 hde.2.2 (h e he d hd (eq_iff.mpr hde))⟩
      · exact ⟨_, rfl, configure_has _ (w.valid d hd)⟩
    · intro v hvs d hd hgone
      rw [last_concat] at hgone
      rw [assign_apply hs, hgone]
      dsimp only
      split_ifs with hold
      · exact ⟨_, rfl, rfl⟩
      · -- what is neither in the value nor in the stored one was gone before
        have hmem : v ∈ vs := by
          refine (List.mem_append.mp hvs).resolve_right fun hw => ?_
          rw [List.mem_singleton.mp hw] at hd
          exact findDefine_eq_none.mp hgone d hd rfl
        refine hright.gone v hmem d hd (findDefine_eq_none.mpr fun e he heq => hold ?_)
        obtain ⟨e', he', hname, -⟩ := mem_of_said hv.symm he
        rw [← heq, ← hname, findDefine_self he']
        rfl

theorem run_concat (vs : List Defines) (w : Defines) :
    LogState.run (vs ++ [w]) = (LogState.run vs).assign w := by
  simp [LogState.run]

theorem run_listened (vs : List Defines) : (LogState.run vs).Listened := by
  induction vs using List.reverseRecOn with
  | nil => rfl
  | append_singleton vs w ih =>
    rw [run_concat]
    exact assign_listened ih w

theorem isChain_concat (vs : List Defines) (w : Defines) :
    (vs ++ [w]).IsChain Follows ↔ vs.IsChain Follows ∧ Follows (last vs) w := by
  rw [List.isChain_append, and_congr_right_iff]
  intro _
  unfold last
  cases vs.getLast? with
  | none => simp [Follows, Defines.empty]
  | some v => simp

theorem says_run {vs : List Defines} (h : vs.IsChain Follows) :
    (LogState.run vs).Says (last vs) := by
  induction vs using List.reverseRecOn with
  | nil => rfl
  | append_singleton vs w ih =>
    obtain ⟨hvs, hw⟩ := (isChain_concat vs w).mp h
    rw [run_concat, last_concat]
    exact says_assign (run_listened vs) (ih hvs) hw

/-- The loggers are those of the last value behind each assignment exactly when each value follows
the one before. -/
theorem rightThroughout_iff (values : List Defines) :
    RightThroughout values ↔ values.IsChain Follows := by
  unfold RightThroughout
  induction values using List.reverseRecOn with
  | nil =>
    refine iff_of_true (fun vs hvs => ?_) List.isChain_nil
    rw [List.prefix_nil.mp hvs]
    exact ⟨nofun, nofun⟩
  | append_singleton vs w ih =>
    rw [isChain_concat, ← ih]
    constructor
    · intro h
      have hvs : ∀ us, us <+: vs → Right (LogState.run us).loggers us :=
        fun us hus => h us (hus.trans (List.prefix_append vs [w]))
      refine ⟨hvs, ?_⟩
      rw [← right_concat (run_listened vs) (says_run (ih.mp hvs)) (hvs vs List.prefix_rfl),
        ← run_concat]
      exact h (vs ++ [w]) List.prefix_rfl
    · rintro ⟨hvs, hw⟩ us hus
      rcases List.prefix_concat_iff.mp hus with rfl | hus
      · rw [run_concat]
        exact (right_concat (run_listened vs) (says_run (ih.mp hvs)) (hvs vs List.prefix_rfl) w).2 hw
      · exact hvs us hus

/-- A set of one definition, of the root logger at level `INFO`. -/
def rootOnly (a : LogAppenderDefine) (ht : a.type = 1 ∨ a.type = 2) (hf : a.formatter = []) :
    Defines where
  defines := [⟨ascii "root", .INFO, [], [a]⟩]
  sorted := List.pairwise_singleton _ _
  valid := by
    intro d hd
    rw [List.mem_singleton.mp hd]
    refine ⟨fun h => absurd rfl h, fun a' ha => ?_⟩
    rw [List.mem_singleton.mp ha]
    exact ⟨ht, fun h => absurd hf h⟩

/-- A new file for the root logger, behind the console. -/
def movedToFile : List Defines :=
  [rootOnly ⟨2, .DEBUG, [], []⟩ (.inr rfl) rfl,
   rootOnly ⟨1, .DEBUG, [], ascii "log.txt"⟩ (.inl rfl) rfl]

/-- The root logger still writes to the console. -/
theorem not_right_movedToFile :
    ((LogState.run movedToFile).loggers (ascii "root")).map Logger.appenders =
        some [⟨.stdoutLogAppender, .DEBUG, false, Logger.new.formatter⟩] ∧
      ¬ Right (LogState.run movedToFile).loggers movedToFile := by
  have hlog : ((LogState.run movedToFile).loggers (ascii "root")).map Logger.appenders =
      some [⟨.stdoutLogAppender, .DEBUG, false, Logger.new.formatter⟩] := by decide
  refine ⟨hlog, fun h => ?_⟩
  obtain ⟨l, hl, hhas⟩ := h.named ⟨ascii "root", .INFO, [], [⟨1, .DEBUG, [], ascii "log.txt"⟩]⟩
    List.mem_cons_self
  rw [hl, Option.map_some, Option.some.injEq] at hlog
  have happ := hhas.appenders
  rw [hlog] at happ
  exact absurd happ (by decide)

end

end CoroutineScheduler.Log

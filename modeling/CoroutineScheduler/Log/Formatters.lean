import CoroutineScheduler.Lib.Trans
import CoroutineScheduler.Log.Level
import CoroutineScheduler.Log.Pattern

/-!
# Formatters of appenders

Loggers and appenders as objects with addresses: an appender may be attached to several loggers, and
its formatter is a pointer that may be null. An appender without a formatter of its own is lent that of
a logger, by `addAppender` when its pointer is null and by `Logger::setFormatter`.

`Keeps` says of an operation that it does not take the formatter away from an attached appender, and
that it leaves no appender with one logger only and the formatter of another.
`formatters_supplied`: in a run of such operations `Supplied` holds in every state.
-/

namespace CoroutineScheduler.Log.Formatters

open Trans

/-! ## The objects -/

abbrev LoggerPtr := ℕ

abbrev AppenderPtr := ℕ

/-- The address of a `LogFormatter`: that of the constructor of a logger, or a later one. -/
inductive FormatterPtr
  | initial (l : LoggerPtr)
  | made (n : ℕ)
  deriving DecidableEq, Repr

structure LogAppender where
  level : LogLevel := .DEBUG
  hasFormatter : Bool := false
  formatter : Option FormatterPtr := none
  deriving DecidableEq, Repr

/-- `hasRoot` is for a logger that `getLogger` has made: its `m_root` is the root logger. -/
structure Logger where
  level : LogLevel := .DEBUG
  appenders : List AppenderPtr := []
  formatter : FormatterPtr
  hasRoot : Bool
  deriving DecidableEq, Repr

/-- The address of the root logger. -/
def root : LoggerPtr := 0

/-- The objects, and how many formatters were made of a pattern. -/
structure Logging where
  appender : AppenderPtr → LogAppender
  logger : LoggerPtr → Logger
  made : ℕ

namespace Logging

/-- New loggers, and appenders without a formatter, of any level. -/
def start (level : AppenderPtr → LogLevel) : Logging where
  appender a := { level := level a }
  logger l := { formatter := .initial l, hasRoot := l ≠ root }
  made := 0

/-! ## The operations -/

/-- `LogAppender::setFormatter`. -/
def setAppenderFormatter (s : Logging) (a : AppenderPtr) (val : Option FormatterPtr) : Logging :=
  { s with
    appender := Function.update s.appender a
      { s.appender a with formatter := val, hasFormatter := val.isSome } }

/-- A store to the fields of a logger. -/
def setLogger (s : Logging) (l : LoggerPtr) (lg : Logger) : Logging :=
  { s with logger := Function.update s.logger l lg }

/-- `Logger::addAppender`. -/
def addAppender (s : Logging) (l : LoggerPtr) (a : AppenderPtr) : Logging :=
  { s with
    appender :=
      if (s.appender a).formatter = none then
        Function.update s.appender a { s.appender a with formatter := some (s.logger l).formatter }
      else s.appender
    logger := Function.update s.logger l
      { s.logger l with appenders := (s.logger l).appenders ++ [a] } }

/-- `Logger::delAppender`. -/
def delAppender (s : Logging) (l : LoggerPtr) (a : AppenderPtr) : Logging :=
  s.setLogger l { s.logger l with appenders := (s.logger l).appenders.erase a }

/-- `Logger::clearAppenders`. -/
def clearAppenders (s : Logging) (l : LoggerPtr) : Logging :=
  s.setLogger l { s.logger l with appenders := [] }

/-- `Logger::setFormatter` of a pointer. -/
def setFormatter (s : Logging) (l : LoggerPtr) (val : FormatterPtr) : Logging :=
  { s.setLogger l { s.logger l with formatter := val } with
    appender := fun a =>
      if a ∈ (s.logger l).appenders ∧ (s.appender a).hasFormatter = false then
        { s.appender a with formatter := some val }
      else s.appender a }

/-- `Logger::setFormatter` of a pattern. -/
def setPattern (s : Logging) (l : LoggerPtr) (val : List UInt8) : Logging :=
  let t := { s with made := s.made + 1 }
  if (LogFormatter.init val).error then t else t.setFormatter l (.made s.made)

/-! ## Logging -/

/-- `log` of an appender: the formatter that it uses, if any; `none` when it dereferences null. -/
def appenderLog (s : Logging) (level : LogLevel) (a : AppenderPtr) : Option (List FormatterPtr) :=
  if (s.appender a).level ≤ level then (s.appender a).formatter.map ([·]) else some []

/-- The loop over the appenders. -/
def appendersLog (s : Logging) (level : LogLevel) : List AppenderPtr → Option (List FormatterPtr)
  | [] => some []
  | a :: as => (s.appenderLog level a).bind fun fs => (s.appendersLog level as).map (fs ++ ·)

/-- `Logger::log`, with what the root logger does. -/
def logVia (s : Logging) (level : LogLevel) (viaRoot : Option (List FormatterPtr)) (l : LoggerPtr) :
    Option (List FormatterPtr) :=
  if (s.logger l).level ≤ level then
    if (s.logger l).appenders = [] then viaRoot
    else s.appendersLog level (s.logger l).appenders
  else some []

/-- `Logger::log`; the root logger has no `m_root`. -/
def log (s : Logging) (level : LogLevel) (l : LoggerPtr) : Option (List FormatterPtr) :=
  s.logVia level (if (s.logger l).hasRoot then s.logVia level (some []) root else some []) l

/-- The operations on loggers and appenders. -/
inductive Op
  | addAppender (l : LoggerPtr) (a : AppenderPtr)
  | delAppender (l : LoggerPtr) (a : AppenderPtr)
  | clearAppenders (l : LoggerPtr)
  | setFormatter (l : LoggerPtr) (val : FormatterPtr)
  | setPattern (l : LoggerPtr) (val : List UInt8)
  | setAppenderFormatter (a : AppenderPtr) (val : Option FormatterPtr)

def step (s : Logging) : Op → Option Logging
  | .addAppender l a => some (s.addAppender l a)
  | .delAppender l a => some (s.delAppender l a)
  | .clearAppenders l => some (s.clearAppenders l)
  | .setFormatter l val => some (s.setFormatter l val)
  | .setPattern l val => some (s.setPattern l val)
  | .setAppenderFormatter a val => some (s.setAppenderFormatter a val)

/-! ## What should hold -/

/-- The appender is attached to the logger. -/
def Has (s : Logging) (l : LoggerPtr) (a : AppenderPtr) : Prop := a ∈ (s.logger l).appenders

/-- Of the loggers but `p`, the appender is attached to `l` only. -/
def Only (s : Logging) (p : LoggerPtr → Prop) (l : LoggerPtr) (a : AppenderPtr) : Prop :=
  s.Has l a ∧ ∀ l', s.Has l' a → l' = l ∨ p l'

/-- The appender has a formatter of its own, or that of the logger. -/
def Follows (s : Logging) (l : LoggerPtr) (a : AppenderPtr) : Prop :=
  (s.appender a).hasFormatter = true ∨ (s.appender a).formatter = some (s.logger l).formatter

structure Supplied (s : Logging) : Prop where
  /-- every attached appender has a formatter -/
  formatter : ∀ l a, s.Has l a → (s.appender a).formatter ≠ none
  /-- it is that of the logger, for an appender of one logger that has none of its own -/
  follows : ∀ l a, s.Only (fun _ => False) l a → s.Follows l a
  /-- `log` dereferences no null -/
  log : ∀ l level, (s.log level l).isSome

/-- An operation that keeps the appenders supplied: an appender that is attached where it is attached to
no other logger has no formatter or the right one; an appender that is left with one logger has the
formatter of that one; and the formatter of an attached appender is not made null. -/
def Keeps (s : Logging) : Op → Prop
  | .addAppender l a =>
    (∀ l', s.Has l' a → l' = l) → (s.appender a).formatter = none ∨ s.Follows l a
  | .delAppender l a =>
    a ∉ (s.logger l).appenders.erase a → ∀ l' ≠ l, s.Only (· = l) l' a → s.Follows l' a
  | .clearAppenders l => ∀ a, s.Has l a → ∀ l' ≠ l, s.Only (· = l) l' a → s.Follows l' a
  | .setAppenderFormatter a val => val = none → ∀ l, ¬s.Has l a
  | _ => True

/-- What a run keeps of it. -/
structure Inv (s : Logging) : Prop where
  formatter : ∀ l a, s.Has l a → (s.appender a).formatter ≠ none
  follows : ∀ l a, s.Only (fun _ => False) l a → s.Follows l a

section
variable {s t : Logging} {l l' : LoggerPtr} {a b : AppenderPtr} {val : FormatterPtr}
  {p : LoggerPtr → Prop}

theorem only_iff : s.Only (fun _ => False) l a ↔ s.Has l a ∧ ∀ l', s.Has l' a → l' = l := by
  simp only [Only, or_false]

theorem Follows.congr (hf : t.appender a = s.appender a)
    (hl : (t.logger l).formatter = (s.logger l).formatter) : t.Follows l a ↔ s.Follows l a := by
  rw [Follows, Follows, hf, hl]

/-! ## Logging with a formatter -/

theorem appendersLog_isSome (level : LogLevel) {as : List AppenderPtr}
    (h : ∀ a ∈ as, (s.appender a).formatter ≠ none) : (s.appendersLog level as).isSome := by
  induction as with
  | nil => rfl
  | cons a as ih =>
    obtain ⟨ha, has⟩ := List.forall_mem_cons.1 h
    obtain ⟨f, hf⟩ := Option.ne_none_iff_exists'.1 ha
    obtain ⟨fs, hfs⟩ := Option.isSome_iff_exists.1 (ih has)
    rw [appendersLog, appenderLog, hf, hfs]
    split_ifs <;> rfl

theorem logVia_isSome (h : Inv s) (level : LogLevel) {r : Option (List FormatterPtr)} (hr : r.isSome)
    (l : LoggerPtr) : (s.logVia level r l).isSome := by
  rw [logVia]
  split_ifs
  · exact hr
  · exact appendersLog_isSome level (h.formatter l)
  · rfl

theorem Inv.supplied (h : Inv s) : s.Supplied where
  formatter := h.formatter
  follows := h.follows
  log l level := by
    refine logVia_isSome h level ?_ l
    split_ifs
    · exact logVia_isSome h level rfl root
    · rfl

/-! ## What the operations do -/

theorem Inv.start (level : AppenderPtr → LogLevel) : Inv (Logging.start level) where
  formatter _ _ ha := absurd ha List.not_mem_nil
  follows _ _ ha := absurd ha.1 List.not_mem_nil

theorem addAppender_logger : (s.addAppender l a).logger = Function.update s.logger l
    { s.logger l with appenders := (s.logger l).appenders ++ [a] } := rfl

theorem has_addAppender : (s.addAppender l a).Has l' b ↔ s.Has l' b ∨ (l' = l ∧ b = a) := by
  rcases eq_or_ne l' l with rfl | hl
  · simp [Has, addAppender]
  · simp [Has, addAppender, hl]

theorem addAppender_formatter :
    ((s.addAppender l a).logger l').formatter = (s.logger l').formatter := by
  rcases eq_or_ne l' l with rfl | hl
  · rw [addAppender_logger, Function.update_self]
  · rw [addAppender_logger, Function.update_of_ne hl]

theorem addAppender_ne (h : b ≠ a) : (s.addAppender l a).appender b = s.appender b := by
  rw [addAppender]
  dsimp only
  split_ifs
  · rw [Function.update_of_ne h]
  · rfl

theorem addAppender_of_none (h : (s.appender a).formatter = none) :
    (s.addAppender l a).appender a =
      { s.appender a with formatter := some (s.logger l).formatter } := by
  rw [addAppender]
  dsimp only
  rw [if_pos h, Function.update_self]

theorem addAppender_of_some (h : (s.appender a).formatter ≠ none) :
    (s.addAppender l a).appender a = s.appender a := by
  rw [addAppender]
  dsimp only
  rw [if_neg h]

theorem Inv.addAppender_iff (h : Inv s) :
    Inv (s.addAppender l a) ↔ s.Keeps (.addAppender l a) := by
  constructor
  · intro ht honly
    have hnew : (s.addAppender l a).Only (fun _ => False) l a := only_iff.2
      ⟨has_addAppender.2 (Or.inr ⟨rfl, rfl⟩), fun l' hl' =>
        (has_addAppender.1 hl').elim (honly l') And.left⟩
    by_cases hnone : (s.appender a).formatter = none
    · exact Or.inl hnone
    · exact Or.inr ((Follows.congr (addAppender_of_some hnone) addAppender_formatter).1
        (ht.follows l a hnew))
  · intro hok
    refine ⟨fun l' b hb => ?_, fun l' b hb => ?_⟩
    · rcases eq_or_ne b a with rfl | hba
      · by_cases hnone : (s.appender b).formatter = none
        · rw [addAppender_of_none hnone]
          exact Option.some_ne_none _
        · rwa [addAppender_of_some hnone]
      · rw [addAppender_ne hba]
        exact h.formatter l' b ((has_addAppender.1 hb).resolve_right fun hc => hba hc.2)
    · obtain ⟨hhas, honly⟩ := only_iff.1 hb
      rcases eq_or_ne b a with rfl | hba
      · obtain rfl := honly l (has_addAppender.2 (Or.inr ⟨rfl, rfl⟩))
        have hle := hok fun l' hl' => honly l' (has_addAppender.2 (Or.inl hl'))
        by_cases hnone : (s.appender b).formatter = none
        · refine Or.inr ?_
          rw [addAppender_of_none hnone, addAppender_formatter]
        · exact (Follows.congr (addAppender_of_some hnone) addAppender_formatter).2
            (hle.resolve_left hnone)
      · refine (Follows.congr (addAppender_ne hba) addAppender_formatter).2 (h.follows l' b ?_)
        refine only_iff.2 ⟨(has_addAppender.1 hhas).resolve_right fun hc => hba hc.2, ?_⟩
        exact fun l'' hl'' => honly l'' (has_addAppender.2 (Or.inl hl''))

/-- An operation that takes appenders out of a logger. -/
theorem Inv.remove_iff (h : Inv s) (hf : t.appender = s.appender)
    (hl : ∀ l', (t.logger l').formatter = (s.logger l').formatter)
    (hother : ∀ l' b, l' ≠ l → (t.Has l' b ↔ s.Has l' b)) (hsub : ∀ b, t.Has l b → s.Has l b) :
    Inv t ↔ ∀ b, s.Has l b → ¬t.Has l b → ∀ l' ≠ l, s.Only (· = l) l' b → s.Follows l' b := by
  have hfollows : ∀ l' b, t.Follows l' b ↔ s.Follows l' b := fun l' b =>
    Follows.congr (by rw [hf]) (hl l')
  have hless : ∀ l' b, t.Has l' b → s.Has l' b := by
    intro l' b hb
    rcases eq_or_ne l' l with rfl | hne
    · exact hsub b hb
    · exact (hother l' b hne).1 hb
  constructor
  · intro ht b _ hlost l' hne hb
    refine (hfollows l' b).1 (ht.follows l' b (only_iff.2 ⟨(hother l' b hne).2 hb.1, ?_⟩))
    intro l'' hl''
    refine (hb.2 l'' (hless l'' b hl'')).resolve_right ?_
    rintro rfl
    exact hlost hl''
  · intro hok
    refine ⟨fun l' b hb => ?_, fun l' b hb => (hfollows l' b).2 ?_⟩
    · rw [hf]
      exact h.formatter l' b (hless l' b hb)
    · obtain ⟨hhas, honly⟩ := only_iff.1 hb
      have hrest : ∀ l'', s.Has l'' b → l'' = l' ∨ l'' = l := by
        intro l'' hl''
        rcases eq_or_ne l'' l with rfl | hne
        · exact Or.inr rfl
        · exact Or.inl (honly l'' ((hother l'' b hne).2 hl''))
      by_cases hlost : s.Has l b ∧ ¬t.Has l b
      · have hne : l' ≠ l := by
          rintro rfl
          exact hlost.2 hhas
        exact hok b hlost.1 hlost.2 l' hne ⟨hless l' b hhas, hrest⟩
      · refine h.follows l' b (only_iff.2 ⟨hless l' b hhas, fun l'' hl'' => ?_⟩)
        rcases hrest l'' hl'' with heq | rfl
        · exact heq
        · exact honly l'' (by_contra fun hc => hlost ⟨hl'', hc⟩)

theorem setLogger_logger {lg : Logger} :
    (s.setLogger l lg).logger = Function.update s.logger l lg := rfl

theorem has_setLogger {lg : Logger} :
    (s.setLogger l lg).Has l' b ↔ if l' = l then b ∈ lg.appenders else s.Has l' b := by
  rw [Has, setLogger_logger, Function.update_apply]
  split_ifs <;> rfl

theorem setLogger_formatter {lg : Logger} (h : lg.formatter = (s.logger l).formatter) :
    ((s.setLogger l lg).logger l').formatter = (s.logger l').formatter := by
  rw [setLogger_logger, Function.update_apply]
  split_ifs with hl
  · rw [h, hl]
  · rfl

theorem Inv.delAppender_iff (h : Inv s) :
    Inv (s.delAppender l a) ↔ s.Keeps (.delAppender l a) := by
  have hhas : ∀ b, (s.delAppender l a).Has l b ↔ b ∈ (s.logger l).appenders.erase a := fun b => by
    rw [delAppender, has_setLogger, if_pos rfl]
  rw [h.remove_iff (t := s.delAppender l a) (l := l) rfl (fun _ => setLogger_formatter rfl)
    (fun l' b hne => by rw [delAppender, has_setLogger, if_neg hne])
    (fun b hb => List.mem_of_mem_erase ((hhas b).1 hb))]
  constructor
  · intro hall hlost l' hne honly
    by_cases ha : s.Has l a
    · exact hall a ha (fun hc => hlost ((hhas a).1 hc)) l' hne honly
    · refine h.follows l' a (only_iff.2 ⟨honly.1, fun l'' hl'' => (honly.2 l'' hl'').resolve_right ?_⟩)
      rintro rfl
      exact ha hl''
  · intro hok b hb hlost
    obtain rfl : b = a := by
      by_contra hne
      exact hlost ((hhas b).2 ((List.mem_erase_of_ne hne).2 hb))
    exact hok fun hc => hlost ((hhas b).2 hc)

theorem Inv.clearAppenders_iff (h : Inv s) :
    Inv (s.clearAppenders l) ↔ s.Keeps (.clearAppenders l) := by
  have hhas : ∀ b, ¬(s.clearAppenders l).Has l b := fun b hb => by
    rw [clearAppenders, has_setLogger, if_pos rfl] at hb
    exact List.not_mem_nil hb
  rw [h.remove_iff (t := s.clearAppenders l) (l := l) rfl (fun _ => setLogger_formatter rfl)
    (fun l' b hne => by rw [clearAppenders, has_setLogger, if_neg hne])
    (fun b hb => absurd hb (hhas b))]
  exact ⟨fun hall b hb => hall b hb (hhas b), fun hok b hb _ => hok b hb⟩

theorem has_setFormatter : (s.setFormatter l val).Has l' b ↔ s.Has l' b := by
  show (s.setLogger l { s.logger l with formatter := val }).Has l' b ↔ _
  rw [has_setLogger]
  split_ifs with hl
  · rw [hl]
    rfl
  · rfl

/-- A new formatter of a logger is that of all its appenders without one of their own. -/
theorem Inv.setFormatter (h : Inv s) : Inv (s.setFormatter l val) := by
  refine ⟨fun l' b hb => ?_, fun l' b hb => ?_⟩
  · show (if _ then _ else _ : LogAppender).formatter ≠ none
    split_ifs
    · exact Option.some_ne_none _
    · exact h.formatter l' b (has_setFormatter.1 hb)
  · obtain ⟨hhas, honly⟩ := only_iff.1 hb
    have hb' : s.Only (fun _ => False) l' b := only_iff.2
      ⟨has_setFormatter.1 hhas, fun l'' hl'' => honly l'' (has_setFormatter.2 hl'')⟩
    by_cases hlent : b ∈ (s.logger l).appenders ∧ (s.appender b).hasFormatter = false
    · obtain rfl := (only_iff.1 hb').2 l hlent.1
      refine Or.inr ?_
      show (if _ then _ else _ : LogAppender).formatter =
        some (Function.update s.logger l { s.logger l with formatter := val } l).formatter
      rw [if_pos hlent, Function.update_self]
    · have hsame : (s.setFormatter l val).appender b = s.appender b := if_neg hlent
      rcases eq_or_ne l' l with rfl | hne
      · refine Or.inl ?_
        rw [hsame]
        by_contra hc
        exact hlent ⟨hb'.1, by simpa using hc⟩
      · have hlogger : ((s.setFormatter l val).logger l').formatter = (s.logger l').formatter := by
          show (Function.update s.logger l _ l').formatter = _
          rw [Function.update_of_ne hne]
        exact (Follows.congr hsame hlogger).2 (h.follows l' b hb')

theorem Inv.setPattern (h : Inv s) (val : List UInt8) : Inv (s.setPattern l val) := by
  have hmade : Inv { s with made := s.made + 1 } := ⟨h.formatter, h.follows⟩
  rw [Logging.setPattern]
  split_ifs
  · exact hmade
  · exact hmade.setFormatter

theorem Inv.setAppenderFormatter_iff (h : Inv s) {v : Option FormatterPtr} :
    Inv (s.setAppenderFormatter a v) ↔ s.Keeps (.setAppenderFormatter a v) := by
  have hself : (s.setAppenderFormatter a v).appender a =
      { s.appender a with formatter := v, hasFormatter := v.isSome } := Function.update_self ..
  have hne : ∀ b, b ≠ a → (s.setAppenderFormatter a v).appender b = s.appender b := fun b hb =>
    Function.update_of_ne hb ..
  constructor
  · rintro ht rfl l hl
    exact ht.formatter l a hl (by rw [hself])
  · intro hok
    refine ⟨fun l' b hb => ?_, fun l' b hb => ?_⟩
    · rcases eq_or_ne b a with rfl | hba
      · rw [hself]
        exact fun hv => hok hv l' hb
      · rw [hne b hba]
        exact h.formatter l' b hb
    · rcases eq_or_ne b a with rfl | hba
      · refine Or.inl ?_
        rw [hself]
        exact Option.isSome_iff_ne_none.2 fun hv => hok hv l' hb.1
      · exact (Follows.congr (hne b hba) rfl).2 (h.follows l' b hb)

/-- An operation keeps the invariant exactly when `Keeps` says so. -/
theorem Inv.step_iff (h : Inv s) {o : Op} (hs : s.step o = some t) : Inv t ↔ s.Keeps o := by
  cases o with
  | addAppender l a =>
    obtain rfl := Option.some.inj hs
    exact h.addAppender_iff
  | delAppender l a =>
    obtain rfl := Option.some.inj hs
    exact h.delAppender_iff
  | clearAppenders l =>
    obtain rfl := Option.some.inj hs
    exact h.clearAppenders_iff
  | setFormatter l val =>
    obtain rfl := Option.some.inj hs
    exact iff_of_true h.setFormatter trivial
  | setPattern l val =>
    obtain rfl := Option.some.inj hs
    exact iff_of_true (h.setPattern val) trivial
  | setAppenderFormatter a val =>
    obtain rfl := Option.some.inj hs
    exact h.setAppenderFormatter_iff

end

end Logging

/-- **Attached appenders have a formatter**, in every state of a run whose operations keep it. -/
theorem formatters_supplied {level : AppenderPtr → LogLevel} {s : Logging}
    (hr : Reach Logging.step Logging.Keeps (Logging.start level) s) : s.Supplied :=
  (hr.invariant (I := Logging.Inv) (.start level) fun _ _ _ h hok hs => (h.step_iff hs).2 hok).supplied

/-- An appender is attached, and its logger gets another formatter. -/
theorem formatters_supplied_lent : ∃ s : Logging, s.log .INFO 1 = some [.made 5] ∧ s.Supplied := by
  have hr : Reach Logging.step Logging.Keeps (Logging.start fun _ => .DEBUG)
      (((Logging.start fun _ => .DEBUG).addAppender 1 0).setFormatter 1 (.made 5)) :=
    (Reach.refl.tail (a := .addAppender 1 0) (fun _ => Or.inl rfl) rfl).tail
      (a := .setFormatter 1 (.made 5)) trivial rfl
  exact ⟨_, by decide, formatters_supplied hr⟩

/-- The formatter of an attached appender is made null, and the next `log` dereferences it. -/
theorem not_formatters_supplied : ¬∀ (level : AppenderPtr → LogLevel) (s : Logging),
    Reach Logging.step free (Logging.start level) s → s.Supplied := by
  intro h
  have hr : Reach Logging.step free (Logging.start fun _ => .DEBUG)
      (((Logging.start fun _ => .DEBUG).addAppender 1 0).setAppenderFormatter 0 none) :=
    (Reach.refl.tail (a := .addAppender 1 0) trivial rfl).tail
      (a := .setAppenderFormatter 0 none) trivial rfl
  exact absurd ((h _ _ hr).log 1 .INFO) (by decide)

end CoroutineScheduler.Log.Formatters

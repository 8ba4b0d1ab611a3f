import CoroutineScheduler.Config.Yaml
import CoroutineScheduler.Log.Level

/-!
# Definitions of loggers

`LogAppenderDefine` and `LogDefine`, and their texts. `ss << node` and `YAML::Load` are parameters:
what is modelled of a text is the tree that it is printed from or loaded as.

1. `readAppender_toYaml`: what comes back of one appender.
2. `fromString_toString`: what comes back of a definition.
3. `roundTrip_iff`: a definition comes back when no appender has a level, and every one is a file or
   the console.
-/

namespace CoroutineScheduler.Log

open Http (ascii)

/-! ## The definitions -/

structure LogAppenderDefine where
  /-- 1 for a file, 2 for the console. -/
  type : ℤ
  level : LogLevel
  formatter : List UInt8
  file : List UInt8
  deriving DecidableEq, Repr

structure LogDefine where
  name : List UInt8
  level : LogLevel
  formatter : List UInt8
  appenders : List LogAppenderDefine
  deriving DecidableEq, Repr

/-- `LogAppenderDefine()`. -/
def LogAppenderDefine.default : LogAppenderDefine := ⟨0, .UNKNOW, [], []⟩

/-- `LogDefine()`. -/
def LogDefine.default : LogDefine := ⟨[], .UNKNOW, [], []⟩

/-! ## To YAML -/

/-- The tree of an appender. -/
def LogAppenderDefine.toYaml (a : LogAppenderDefine) : Yaml :=
  let pairs : List (List UInt8 × Yaml) :=
    (if a.type = 1 then
      [(ascii "type", Yaml.scalar (ascii "FileLogAppender")), (ascii "file", .scalar a.file)]
    else if a.type = 2 then [(ascii "type", Yaml.scalar (ascii "StdoutLogAppender"))]
    else []) ++
    (if a.level ≠ .UNKNOW then [(ascii "level", Yaml.scalar a.level.toString)] else []) ++
    (if a.formatter ≠ [] then [(ascii "formatter", Yaml.scalar a.formatter)] else [])
  -- a node without a key is null
  if pairs = [] then .null else .map pairs

/-- The tree of a definition. -/
def LogDefine.toYaml (i : LogDefine) : Yaml :=
  let pairs : List (List UInt8 × Yaml) :=
    [(ascii "name", Yaml.scalar i.name)] ++
    (if i.level ≠ .UNKNOW then [(ascii "level", Yaml.scalar i.level.toString)] else []) ++
    (if i.formatter ≠ [] then [(ascii "formatter", Yaml.scalar i.formatter)] else []) ++
    (if i.appenders ≠ [] then
      [(ascii "appenders", Yaml.seq (i.appenders.map LogAppenderDefine.toYaml))] else [])
  .map pairs

/-! ## From YAML -/

/-- What the conversion throws: the parser's exception, that of a subscript of a text, that of a
conversion, or `logic_error("log config name is null")`. -/
inductive CastError
  | parserException | badSubscript | badConversion | nameIsNull
  deriving DecidableEq, Repr

/-- `node[key]`, `none` where it is not defined. -/
def field (key : List UInt8) : Yaml → Except CastError (Option Yaml)
  | .map pairs => .ok (pairs.lookup key)
  | .scalar _ => .error .badSubscript
  | _ => .ok none

/-- `node.as<std::string>()`: only a text converts. -/
def asString : Yaml → Except CastError (List UInt8)
  | .scalar text => .ok text
  | _ => .error .badConversion

/-- `node[key].as<std::string>()` where it is defined, otherwise empty. -/
def fieldText (key : List UInt8) (node : Yaml) : Except CastError (List UInt8) := do
  match ← field key node with
  | some value => asString value
  | none => .ok []

/-- `node[0]`, …, `node[node.size() - 1]`. A map is taken for one without numbers as keys. -/
def elements : Yaml → List Yaml
  | .seq items => items
  | _ => []

/-- The body of the loop over the appenders, `none` where it continues. -/
def readAppender (a : Yaml) : Except CastError (Option LogAppenderDefine) := do
  match ← field (ascii "type") a with
  | none => .ok none
  | some type =>
    let type ← asString type
    if type = ascii "FileLogAppender" then
      match ← field (ascii "file") a with
      | none => .ok none
      | some file =>
        let file ← asString file
        let formatter ← fieldText (ascii "formatter") a
        -- the level is not read
        .ok (some { LogAppenderDefine.default with type := 1, file, formatter })
    else if type = ascii "StdoutLogAppender" then
      let formatter ← fieldText (ascii "formatter") a
      .ok (some { LogAppenderDefine.default with type := 2, formatter })
    else .ok none

/-- The loop over the appenders. -/
def readAppenders : List Yaml → Except CastError (List LogAppenderDefine)
  | [] => .ok []
  | a :: rest => do
    let lad ← readAppender a
    let lads ← readAppenders rest
    .ok (lad.toList ++ lads)

/-- What the conversion makes of a node. -/
def readDefine (n : Yaml) : Except CastError LogDefine := do
  match ← field (ascii "name") n with
  | none => .error .nameIsNull
  | some name =>
    let name ← asString name
    let level ← fieldText (ascii "level") n
    let formatter ← fieldText (ascii "formatter") n
    let appenders ←
      match ← field (ascii "appenders") n with
      | some appenders => readAppenders (elements appenders)
      | none => .ok []
    .ok ⟨name, .fromString level, formatter, appenders⟩

section
variable (emit : Yaml → List UInt8) (load : List UInt8 → Option Yaml)

/-- `LexicalCast<LogDefine, std::string>`. -/
def LogDefine.toString (i : LogDefine) : List UInt8 := emit i.toYaml

/-- `LexicalCast<std::string, LogDefine>`. -/
def LogDefine.fromString (v : List UInt8) : Except CastError LogDefine :=
  match load v with
  | none => .error .parserException
  | some n => readDefine n

/-- A definition comes back from its text. -/
def RoundTrip (d : LogDefine) : Prop :=
  LogDefine.fromString load (d.toString emit) = .ok d

end

/-! ## What comes back -/

/-- What comes back of an appender. -/
def LogAppenderDefine.stored (a : LogAppenderDefine) : Option LogAppenderDefine :=
  if a.type = 1 then some { a with level := .UNKNOW }
  else if a.type = 2 then some { a with level := .UNKNOW, file := [] }
  else none

theorem readAppender_toYaml (a : LogAppenderDefine) : readAppender a.toYaml = .ok a.stored := by
  obtain ⟨type, level, formatter, file⟩ := a
  unfold LogAppenderDefine.toYaml LogAppenderDefine.stored
  by_cases h₁ : type = 1
  · subst h₁
    by_cases hl : level = .UNKNOW <;> by_cases hf : formatter = [] <;>
      simp only [hl, hf, if_true, if_false, ne_eq, not_true_eq_false, not_false_eq_true] <;> rfl
  · by_cases h₂ : type = 2
    · subst h₂
      by_cases hl : level = .UNKNOW <;> by_cases hf : formatter = [] <;>
        simp only [hl, hf, if_true, if_false, ne_eq, not_true_eq_false, not_false_eq_true] <;> rfl
    · -- without a type the appender is passed over
      by_cases hl : level = .UNKNOW <;> by_cases hf : formatter = [] <;>
        simp only [h₁, h₂, hl, hf, if_true, if_false, ne_eq, not_true_eq_false,
          not_false_eq_true] <;> rfl

theorem readAppenders_map (as : List LogAppenderDefine) :
    readAppenders (as.map LogAppenderDefine.toYaml) =
      .ok (as.filterMap LogAppenderDefine.stored) := by
  induction as with
  | nil => rfl
  | cons a as ih =>
    rw [List.map_cons, readAppenders, readAppender_toYaml, ih, List.filterMap_cons]
    cases a.stored <;> rfl

/-- The fields of a definition, each found under its key. -/
theorem field_toYaml (d : LogDefine) :
    field (ascii "name") d.toYaml = .ok (some (.scalar d.name)) ∧
      fieldText (ascii "level") d.toYaml =
        .ok (if d.level = .UNKNOW then [] else d.level.toString) ∧
      fieldText (ascii "formatter") d.toYaml = .ok d.formatter ∧
      field (ascii "appenders") d.toYaml =
        .ok (if d.appenders = [] then none
          else some (.seq (d.appenders.map LogAppenderDefine.toYaml))) := by
  obtain ⟨name, level, formatter, appenders⟩ := d
  unfold LogDefine.toYaml
  by_cases hl : level = .UNKNOW <;> by_cases hf : formatter = [] <;>
    by_cases ha : appenders = [] <;>
    simp only [hl, hf, ha, if_true, if_false, ne_eq, not_true_eq_false, not_false_eq_true] <;>
    exact ⟨rfl, rfl, rfl, rfl⟩

/-- The name, the level and the formatter come back, and of the appenders what comes back of each. -/
theorem readDefine_toYaml (d : LogDefine) :
    readDefine d.toYaml =
      .ok { d with appenders := d.appenders.filterMap LogAppenderDefine.stored } := by
  obtain ⟨hname, hlevel, hformatter, happenders⟩ := field_toYaml d
  have hfrom :
      LogLevel.fromString (if d.level = .UNKNOW then [] else d.level.toString) = d.level := by
    split_ifs with h
    · rw [h]
      rfl
    · exact LogLevel.fromString_toString d.level
  unfold readDefine
  simp only [hname, hlevel, hformatter, happenders, asString, bind, Except.bind, hfrom]
  split_ifs with h
  · rw [h]
    rfl
  · simp only [elements, readAppenders_map]

theorem stored_eq_some_self (a : LogAppenderDefine) :
    a.stored = some a ↔ a.level = .UNKNOW ∧ (a.type = 1 ∨ a.type = 2 ∧ a.file = []) := by
  obtain ⟨type, level, formatter, file⟩ := a
  unfold LogAppenderDefine.stored
  split_ifs with h₁ h₂ <;> simp_all [eq_comm]

section
variable {emit : Yaml → List UInt8} {load : List UInt8 → Option Yaml}

theorem fromString_toString (d : LogDefine) (h : load (emit d.toYaml) = some d.toYaml) :
    LogDefine.fromString load (d.toString emit) =
      .ok { d with appenders := d.appenders.filterMap LogAppenderDefine.stored } := by
  unfold LogDefine.fromString LogDefine.toString
  rw [h]
  exact readDefine_toYaml d

/-- A definition whose tree is loaded as it was printed comes back exactly when no appender has a
level, and each is a file, or the console without a file. -/
theorem roundTrip_iff (d : LogDefine) (h : load (emit d.toYaml) = some d.toYaml) :
    RoundTrip emit load d ↔
      ∀ a ∈ d.appenders, a.level = .UNKNOW ∧ (a.type = 1 ∨ a.type = 2 ∧ a.file = []) := by
  have hall : d.appenders.filterMap LogAppenderDefine.stored = d.appenders ↔
      ∀ a ∈ d.appenders, a.stored = some a := by
    simpa using List.filterMap_eq_map_iff_forall_eq_some (f := LogAppenderDefine.stored) (g := id)
  unfold RoundTrip
  rw [fromString_toString d h, Except.ok.injEq, ← forall₂_congr fun a _ => stored_eq_some_self a,
    ← hall]
  obtain ⟨name, level, formatter, appenders⟩ := d
  simp

theorem roundTrip_iff_console :
    RoundTrip (fun _ => ascii "name: root\nappenders:\n  - type: StdoutLogAppender")
        (fun _ => some (.map [(ascii "name", .scalar (ascii "root")), (ascii "appenders",
          .seq [.map [(ascii "type", .scalar (ascii "StdoutLogAppender"))]])]))
        ⟨ascii "root", .UNKNOW, [], [⟨2, .UNKNOW, [], []⟩]⟩ ↔
      ∀ a ∈ [(⟨2, .UNKNOW, [], []⟩ : LogAppenderDefine)],
        a.level = .UNKNOW ∧ (a.type = 1 ∨ a.type = 2 ∧ a.file = []) :=
  roundTrip_iff ⟨ascii "root", .UNKNOW, [], [⟨2, .UNKNOW, [], []⟩]⟩ rfl

/-- The level of an appender is printed and not read. -/
theorem not_roundTrip_level :
    let d : LogDefine := ⟨ascii "root", .INFO, [], [⟨1, .ERROR, [], ascii "log.txt"⟩]⟩
    let emit : Yaml → List UInt8 := fun _ =>
      ascii "name: root\nlevel: INFO\nappenders:\n" ++
        ascii "  - type: FileLogAppender\n    file: log.txt\n    level: ERROR"
    let load : List UInt8 → Option Yaml := fun _ => some d.toYaml
    load (emit d.toYaml) = some d.toYaml ∧
      LogDefine.fromString load (d.toString emit) =
        .ok ⟨ascii "root", .INFO, [], [⟨1, .UNKNOW, [], ascii "log.txt"⟩]⟩ ∧
      ¬ RoundTrip emit load d := by
  intro d emit load
  have hread : LogDefine.fromString load (d.toString emit) =
      .ok ⟨ascii "root", .INFO, [], [⟨1, .UNKNOW, [], ascii "log.txt"⟩]⟩ := rfl
  refine ⟨rfl, hread, fun h => ?_⟩
  rw [RoundTrip, hread, Except.ok.injEq] at h
  exact absurd h (by decide)

end

end CoroutineScheduler.Log

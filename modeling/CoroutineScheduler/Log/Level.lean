import CoroutineScheduler.Http.Request

/-! Levels of log events, and their texts. -/

namespace CoroutineScheduler.Log

open Http (ascii)

inductive LogLevel
  | UNKNOW | DEBUG | INFO | WARN | ERROR | FATAL
  deriving DecidableEq, Repr

/-- The value of the enumerator. -/
def LogLevel.value : LogLevel → ℕ
  | .UNKNOW => 0
  | .DEBUG => 1
  | .INFO => 2
  | .WARN => 3
  | .ERROR => 4
  | .FATAL => 5

instance : LE LogLevel := ⟨fun a b => a.value ≤ b.value⟩

instance : DecidableLE LogLevel := fun a b => inferInstanceAs (Decidable (a.value ≤ b.value))

/-- `LogLevel::ToString`. -/
def LogLevel.toString : LogLevel → List UInt8
  | .DEBUG => ascii "DEBUG"
  | .INFO => ascii "INFO"
  | .WARN => ascii "WARN"
  | .ERROR => ascii "ERROR"
  | .FATAL => ascii "FATAL"
  | .UNKNOW => ascii "UNKNOW"

/-- `LogLevel::FromString`. -/
def LogLevel.fromString (str : List UInt8) : LogLevel :=
  if str = ascii "debug" then .DEBUG
  else if str = ascii "info" then .INFO
  else if str = ascii "warn" then .WARN
  else if str = ascii "error" then .ERROR
  else if str = ascii "fatal" then .FATAL
  else if str = ascii "DEBUG" then .DEBUG
  else if str = ascii "INFO" then .INFO
  else if str = ascii "WARN" then .WARN
  else if str = ascii "ERROR" then .ERROR
  else if str = ascii "FATAL" then .FATAL
  else .UNKNOW

theorem LogLevel.fromString_toString (level : LogLevel) : fromString level.toString = level := by
  cases level <;> rfl

end CoroutineScheduler.Log

import CoroutineScheduler.Timer.Effects
import Mathlib.Data.Int.Basic

/-!
# The hooked `sleep`, `usleep` and `nanosleep`

Each of them adds a timer that schedules the calling fiber again, and holds the fiber. They differ in
the integers that the interval goes through: `sleep` multiplies in an `unsigned int`, `usleep` rounds
down, `nanosleep` rounds down and goes through an `int`, which is then taken for a `uint64_t`.

`sleeps_iff`: for each function, the arguments for which the timer expires neither too early nor a
whole millisecond late.
-/

namespace CoroutineScheduler

/-- `struct timespec`, with `time_t` and `long` of 64 bits. -/
structure Timespec where
  tv_sec : Int64
  tv_nsec : Int64
  deriving DecidableEq

/-- The interval that `sleep` gives to `addTimer`: `seconds * 1000` in an `unsigned int`. -/
def sleepMs (seconds : UInt32) : UInt64 := (seconds * 1000).toUInt64

/-- The interval of `usleep`: `usec / 1000`. -/
def usleepMs (usec : UInt32) : UInt64 := (usec / 1000).toUInt64

/-- The interval of `nanosleep`: `int timeout_ms`, converted to `uint64_t`. -/
def nanosleepMs (req : Timespec) : UInt64 :=
  (req.tv_sec * 1000 + req.tv_nsec / 1000 / 1000).toInt32.toInt64.toUInt64

/-- What a hooked sleep does before it holds its fiber: a timer at address `a` with the callback
`resume`, which schedules the fiber. On a thread that is not hooked the system call is made instead
(`none`). -/
def hookedSleep (hook : Bool) (m : TimerManager) (now : UInt64) (a : Addr) (resume : Callback)
    (ms : UInt64) : Option TimerManager :=
  if hook then some (m.addTimer now a ms (some resume) false).1 else none

def sleep (hook : Bool) (m : TimerManager) (now : UInt64) (a : Addr) (resume : Callback)
    (seconds : UInt32) : Option TimerManager :=
  hookedSleep hook m now a resume (sleepMs seconds)

def usleep (hook : Bool) (m : TimerManager) (now : UInt64) (a : Addr) (resume : Callback)
    (usec : UInt32) : Option TimerManager :=
  hookedSleep hook m now a resume (usleepMs usec)

def nanosleep (hook : Bool) (m : TimerManager) (now : UInt64) (a : Addr) (resume : Callback)
    (req : Timespec) : Option TimerManager :=
  hookedSleep hook m now a resume (nanosleepMs req)

/-- `EINVAL` is for the others. -/
def Timespec.Valid (req : Timespec) : Prop :=
  0 ≤ req.tv_sec.toInt ∧ 0 ≤ req.tv_nsec.toInt ∧ req.tv_nsec.toInt < 1000000000

/-- The timer at `a` waits for at least `n` units of which a millisecond has `unit`, and for less than
a millisecond more; so long is it, too, from `now` to its deadline. -/
def OnTime (m : TimerManager) (now : UInt64) (a : Addr) (n unit : ℕ) : Prop :=
  n ≤ (m.obj a).ms.toNat * unit ∧ (m.obj a).ms.toNat * unit < n + unit ∧
    n ≤ ((m.obj a).next - now).toNat * unit

/-- The deadline is the interval away. -/
theorem onTime_hookedSleep_iff (m : TimerManager) (now : UInt64) (a : Addr) (resume : Callback)
    (ms : UInt64) (n unit : ℕ) :
    (∃ m', hookedSleep true m now a resume ms = some m' ∧ OnTime m' now a n unit) ↔
      n ≤ ms.toNat * unit ∧ ms.toNat * unit < n + unit := by
  have hobj : (m.addTimer now a ms (some resume) false).1.obj a =
      .new now ms (some resume) false := by
    rw [TimerManager.addTimer_obj, Function.update_self]
  have hiff : OnTime (m.addTimer now a ms (some resume) false).1 now a n unit ↔
      n ≤ ms.toNat * unit ∧ ms.toNat * unit < n + unit := by
    have hnext : now + ms - now = ms := by
      rw [UInt64.add_comm]
      exact UInt64.add_sub_cancel ..
    unfold OnTime
    rw [hobj]
    simp only [Timer.new, hnext]
    exact ⟨fun h => ⟨h.1, h.2.1⟩, fun h => ⟨h.1, h.2, h.1⟩⟩
  constructor
  · rintro ⟨m', hm, h⟩
    cases hm
    exact hiff.1 h
  · exact fun h => ⟨_, rfl, hiff.2 h⟩

theorem sleepMs_toNat (seconds : UInt32) :
    (sleepMs seconds).toNat = seconds.toNat * 1000 % 2 ^ 32 := by
  simp [sleepMs]

theorem usleepMs_toNat (usec : UInt32) : (usleepMs usec).toNat = usec.toNat / 1000 := by
  simp [usleepMs]

/-- A signed number that is taken for an unsigned one. -/
theorem toNat_toUInt64 (x : Int64) : x.toUInt64.toNat = (x.toInt % 2 ^ 64).toNat := by
  conv_lhs => rw [← Int64.ofInt_toInt x]
  show (Int64.ofInt x.toInt).toBitVec.toNat = _
  rw [Int64.toBitVec_ofInt, BitVec.toNat_ofInt]
  rfl

/-- A number that fits stays what it is. -/
theorem bmod_self {x : ℤ} (h0 : 0 ≤ x) (h : x < 2 ^ 63) : x.bmod (2 ^ 64) = x :=
  Int.bmod_eq_of_le (by omega) (by omega)

/-- The division of a `long` that is not negative. -/
theorem toInt_div_thousand {x : Int64} (h : 0 ≤ x.toInt) : (x / 1000).toInt = x.toInt / 1000 := by
  rw [Int64.toInt_div_of_ne_right _ _ (by decide), Int.tdiv_eq_ediv_of_nonneg h]
  rfl

/-- The milliseconds of a `timespec`, before they are converted to `int`. -/
theorem timespec_toInt {req : Timespec} (hv : req.Valid) (hsec : req.tv_sec.toInt ≤ 2 ^ 31) :
    (req.tv_sec * 1000 + req.tv_nsec / 1000 / 1000).toInt =
      req.tv_sec.toInt * 1000 + req.tv_nsec.toInt / 1000000 := by
  obtain ⟨hs, hn, hlt⟩ := hv
  have hnsec : (req.tv_nsec / 1000 / 1000).toInt = req.tv_nsec.toInt / 1000000 := by
    have h1 := toInt_div_thousand hn
    rw [toInt_div_thousand (by rw [h1]; omega), h1, Int.ediv_ediv_of_nonneg (by norm_num)]
    norm_num
  have hmul : (req.tv_sec * 1000).toInt = req.tv_sec.toInt * 1000 := by
    rw [Int64.toInt_mul]
    exact bmod_self (by rw [show (1000 : Int64).toInt = 1000 from rfl]; omega)
      (by rw [show (1000 : Int64).toInt = 1000 from rfl]; omega)
  rw [Int64.toInt_add, hmul, hnsec]
  exact bmod_self (by omega) (by omega)

/-- The interval of `nanosleep` is right up to `INT_MAX`; from there on it is shorter by a multiple of
2^32 ms, or a negative number that is taken for a huge one. -/
theorem nanosleepMs_toNat {req : Timespec} (hv : req.Valid) (hsec : req.tv_sec.toInt ≤ 2 ^ 31) :
    let v := req.tv_sec.toInt * 1000 + req.tv_nsec.toInt / 1000000
    (v < 2 ^ 31 ∧ ((nanosleepMs req).toNat : ℤ) = v) ∨
      (2 ^ 31 ≤ v ∧ (((nanosleepMs req).toNat : ℤ) < v ∨
        2 ^ 64 - 2 ^ 31 ≤ ((nanosleepMs req).toNat : ℤ))) := by
  intro v
  have hbounds : 0 ≤ v ∧ v < 2 ^ 42 := by
    obtain ⟨hs, hn, hlt⟩ := hv
    constructor <;> omega
  have hval : ((nanosleepMs req).toNat : ℤ) = v.bmod (2 ^ 32) % 2 ^ 64 := by
    unfold nanosleepMs
    rw [toNat_toUInt64, Int32.toInt_toInt64, Int64.toInt_toInt32, timespec_toInt hv hsec]
    exact Int.toNat_of_nonneg (Int.emod_nonneg _ (by norm_num))
  rw [hval, Int.bmod_def]
  norm_num
  split_ifs <;> omega

/-- The requested time in nanoseconds. -/
def Timespec.nanoseconds (req : Timespec) : ℕ :=
  (req.tv_sec.toInt * 1000000000 + req.tv_nsec.toInt).toNat

theorem nanosleepMs_onTime_iff {req : Timespec} (hv : req.Valid) (hsec : req.tv_sec.toInt ≤ 2 ^ 31) :
    (req.nanoseconds ≤ (nanosleepMs req).toNat * 1000000 ∧
      (nanosleepMs req).toNat * 1000000 < req.nanoseconds + 1000000) ↔
    1000000 ∣ req.tv_nsec.toInt ∧
      req.tv_sec.toInt * 1000 + req.tv_nsec.toInt / 1000000 < 2 ^ 31 := by
  have hms := nanosleepMs_toNat hv hsec
  obtain ⟨hs, hn, hlt⟩ := hv
  have hns : (req.nanoseconds : ℤ) = req.tv_sec.toInt * 1000000000 + req.tv_nsec.toInt :=
    Int.toNat_of_nonneg (by omega)
  dsimp only at hms
  constructor
  · intro h
    obtain ⟨hv, hms⟩ | ⟨-, hms | hms⟩ := hms
    · exact ⟨by omega, hv⟩
    · omega
    · omega
  · rintro ⟨⟨k, hk⟩, hv⟩
    obtain ⟨-, hms⟩ | ⟨hv', -⟩ := hms
    · omega
    · omega

/-- **Hooked sleeps**: the timer that brings the fiber back expires neither early nor a millisecond
late, for `sleep` if and only if the product fits an `unsigned int`, for `usleep` and `nanosleep` only
when whole milliseconds are asked for, and for `nanosleep` if these fit an `int` as well. -/
theorem sleeps_iff (m : TimerManager) (now : UInt64) (a : Addr) (resume : Callback) :
    (∀ seconds, (∃ m', sleep true m now a resume seconds = some m' ∧
      OnTime m' now a (seconds.toNat * 1000) 1) ↔ seconds.toNat ≤ 4294967) ∧
    (∀ usec, (∃ m', usleep true m now a resume usec = some m' ∧
      OnTime m' now a usec.toNat 1000) ↔ 1000 ∣ usec.toNat) ∧
    ∀ req : Timespec, req.Valid → req.tv_sec.toInt ≤ 2 ^ 31 →
      ((∃ m', nanosleep true m now a resume req = some m' ∧
        OnTime m' now a req.nanoseconds 1000000) ↔
      1000000 ∣ req.tv_nsec.toInt ∧
        req.tv_sec.toInt * 1000 + req.tv_nsec.toInt / 1000000 < 2 ^ 31) := by
  refine ⟨fun seconds => ?_, fun usec => ?_, fun req hv hsec => ?_⟩
  · rw [sleep, onTime_hookedSleep_iff, sleepMs_toNat]
    omega
  · rw [usleep, onTime_hookedSleep_iff, usleepMs_toNat]
    omega
  · rw [nanosleep, onTime_hookedSleep_iff]
    exact nanosleepMs_onTime_iff hv hsec

/-- `sleep` for some fifty days, `usleep` for a millisecond and a half, `nanosleep` for some twenty-five
days: 704 ms, one millisecond and more than 2^63 ms. -/
theorem sleeps_wrong :
    ¬(∀ seconds, ∃ m', sleep true (.start 0) 5 1 7 seconds = some m' ∧
      OnTime m' 5 1 (seconds.toNat * 1000) 1) ∧
    ¬(∀ usec, ∃ m', usleep true (.start 0) 5 1 7 usec = some m' ∧ OnTime m' 5 1 usec.toNat 1000) ∧
    ¬∀ req : Timespec, req.Valid → req.tv_sec.toInt ≤ 2 ^ 31 →
      ∃ m', nanosleep true (.start 0) 5 1 7 req = some m' ∧
        OnTime m' 5 1 req.nanoseconds 1000000 := by
  refine ⟨fun h => ?_, fun h => ?_, fun h => ?_⟩
  · have hs := h 4294968
    rw [sleep, onTime_hookedSleep_iff] at hs
    exact absurd hs.1 (by decide)
  · have hs := h 1500
    rw [usleep, onTime_hookedSleep_iff] at hs
    exact absurd hs.1 (by decide)
  · have hs := h ⟨2147484, 0⟩ (by unfold Timespec.Valid; decide) (by decide)
    rw [nanosleep, onTime_hookedSleep_iff] at hs
    exact absurd hs.2 (by decide)

end CoroutineScheduler

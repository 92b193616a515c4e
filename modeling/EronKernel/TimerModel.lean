import EronKernel.ByteMemory
import Mathlib.Tactic

/-!
# The clock of timer.c

The timer interrupt counts ticks; the clock is the number of ticks divided by
the frequency. Every read of the clock is one load of the tick counter. As
long as the counter does not wrap the clock goes up by at most one with every
tick, so it takes every value between two of its readings.
-/

namespace EronKernel.TimerModel

open ByteMemory

/-- The statics of timer.c. -/
structure Timer where
  /-- ticks. -/
  ticks : Word
  /-- frequency. -/
  frequency : Word
  deriving DecidableEq

/-- timer_tick, as far as the clock goes. -/
def Timer.tick (t : Timer) : Timer := {t with ticks := t.ticks+1}

/-- timer_seconds. -/
def timerSeconds (t : Timer) : Word := t.ticks/t.frequency

/-- timer_uptime_hours. -/
def timerUptimeHours (t : Timer) : Word := timerSeconds t/3600

/-- timer_uptime_minutes. -/
def timerUptimeMinutes (t : Timer) : Word := timerSeconds t%3600/60

/-- timer_uptime_seconds. -/
def timerUptimeSeconds (t : Timer) : Word := timerSeconds t%60

/-- The clock as a number. -/
theorem toNat_timerSeconds (t : Timer) :
    (timerSeconds t).toNat=t.ticks.toNat/t.frequency.toNat := BitVec.toNat_udiv

/-- The hours as a number. -/
theorem toNat_timerUptimeHours (t : Timer) :
    (timerUptimeHours t).toNat=(timerSeconds t).toNat/3600 := BitVec.toNat_udiv

/-- The minutes as a number. -/
theorem toNat_timerUptimeMinutes (t : Timer) :
    (timerUptimeMinutes t).toNat=(timerSeconds t).toNat%3600/60 := by
  unfold timerUptimeMinutes
  rw [BitVec.toNat_udiv,BitVec.toNat_umod]
  rfl

/-- The seconds as a number. -/
theorem toNat_timerUptimeSeconds (t : Timer) :
    (timerUptimeSeconds t).toNat=(timerSeconds t).toNat%60 := BitVec.toNat_umod

/-- A tick that does not wrap the counter. -/
theorem toNat_tick {t : Timer} (hfit : t.ticks.toNat+1<2^32) : t.tick.ticks.toNat=t.ticks.toNat+1 := by
  unfold Timer.tick
  rw [BitVec.toNat_add]
  exact Nat.mod_eq_of_lt hfit

/-- A later state of the same timer, without a wrap of the counter between. -/
def Later (t u : Timer) : Prop := t.frequency=u.frequency ∧ t.ticks.toNat ≤ u.ticks.toNat

/-- A timer is not before itself. -/
theorem Later.refl (t : Timer) : Later t t := ⟨rfl,Nat.le_refl _⟩

/-- Later than a later state. -/
theorem Later.trans {t u v : Timer} (htu : Later t u) (huv : Later u v) : Later t v :=
  ⟨htu.1.trans huv.1,Nat.le_trans htu.2 huv.2⟩

/-- A tick that does not wrap the counter makes the timer later. -/
theorem later_tick {t : Timer} (hfit : t.ticks.toNat+1<2^32) : Later t t.tick :=
  ⟨rfl,by rw [toNat_tick hfit]; exact Nat.le_succ _⟩

/-- The clock does not go back. -/
theorem Later.seconds_le {t u : Timer} (h : Later t u) :
    (timerSeconds t).toNat ≤ (timerSeconds u).toNat := by
  rw [toNat_timerSeconds,toNat_timerSeconds,h.1]
  exact Nat.div_le_div_right h.2

/-- A tick leaves the clock alone or moves it by one second. -/
theorem timerSeconds_tick {t : Timer} (hfit : t.ticks.toNat+1<2^32) :
    (timerSeconds t.tick).toNat=(timerSeconds t).toNat ∨
      (timerSeconds t.tick).toNat=(timerSeconds t).toNat+1 := by
  rw [toNat_timerSeconds,toNat_timerSeconds,toNat_tick hfit]
  change (t.ticks.toNat+1)/t.frequency.toNat=_ ∨ (t.ticks.toNat+1)/t.frequency.toNat=_
  rw [Nat.succ_div]
  split_ifs
  · exact Or.inr rfl
  · exact Or.inl rfl

end EronKernel.TimerModel

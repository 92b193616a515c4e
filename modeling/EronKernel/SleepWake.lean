import EronKernel.SyscallHeap
import EronKernel.TimerModel

/-!
# Waking up from SYS_SLEEP

The loop of SYS_SLEEP adds the requested seconds to the clock and gives up the
processor until the clock has reached the sum; what happens between two turns
is arbitrary. The sum is taken in 32 bits: when it wraps, the loop is left
before the time is over, though the tick counter itself does not wrap.
-/

namespace EronKernel.SleepWake

open ByteMemory FuelLoop TimerModel SyscallModel

variable {F : Type} {resume : ℕ→Kernel F→Kernel F} {fuel : ℕ} {k : Kernel F} {tf : Trapframe}

/-- The timer of a kernel; timer_seconds reads its clock. -/
def clock (k : Kernel F) : Timer := ⟨k.ticks,k.frequency⟩

/-- Between two turns the counter goes on and does not wrap. -/
def Ticking (resume : ℕ→Kernel F→Kernel F) : Prop :=
  ∀ turn k,Later (clock k) (clock (resume turn k))

/-- The call was not over before its time. -/
def WokeInTime (k : Kernel F) (tf : Trapframe) (out : Outcome F) : Prop :=
  (timerSeconds k).toNat+tf.ebx.toNat ≤ (timerSeconds out.kernel).toNat

/-- The case of SYS_SLEEP. -/
theorem syscallHandle_sleep (he : tf.eax=Syscall.sysSleep.number) :
    syscallHandle resume fuel k tf=
      (runLoop (sleepTurn resume (timerSeconds k+tf.ebx)) fuel (1,resume 0 k)).bind fun k =>
        reply tf k 0 := by
  rw [syscallHandle,he,Syscall.ofNumber_number]

/-- The loop is left only when the clock has reached the sum. -/
theorem sleepTurn_done {target : Word} {state : ℕ×Kernel F} {out : Kernel F}
    (hturn : sleepTurn resume target state=.done out) : target ≤ timerSeconds out := by
  unfold sleepTurn at hturn
  dsimp only at hturn
  split_ifs at hturn with hlt
  obtain rfl := Turn.done.inj hturn
  exact BitVec.not_lt.mp hlt

/-- On the exit the clock has reached the 32-bit sum. -/
theorem sleep_reaches_target (he : tf.eax=Syscall.sysSleep.number) {out : Outcome F}
    (hrun : syscallHandle resume fuel k tf=some out) :
    timerSeconds k+tf.ebx ≤ timerSeconds out.kernel := by
  rw [syscallHandle_sleep he] at hrun
  obtain ⟨l,hloop,hreply⟩ := Option.bind_eq_some_iff.mp hrun
  cases hreply
  exact runLoop_invariant (fun _ => True) _ (fun _ _ _ _ => trivial)
    (fun _ _ _ hdone => sleepTurn_done hdone) trivial hloop

/-- Whatever runs between the turns: when SYS_SLEEP returns, the clock has
advanced by the requested seconds exactly when the sum of the clock at the
call and the request did not wrap. -/
theorem sleep_wakes_in_time_iff (he : tf.eax=Syscall.sysSleep.number) {out : Outcome F}
    (hrun : syscallHandle resume fuel k tf=some out) :
    WokeInTime k tf out ↔ (timerSeconds k).toNat+tf.ebx.toNat<2^32 := by
  have hreach := sleep_reaches_target he hrun
  rw [BitVec.le_def,BitVec.toNat_add] at hreach
  unfold WokeInTime
  constructor
  · intro hwoke
    exact Nat.lt_of_le_of_lt hwoke (timerSeconds out.kernel).isLt
  · intro hfits
    rwa [Nat.mod_eq_of_lt hfits] at hreach

/-- A kernel one second after its start. -/
def secondKernel : Kernel Unit := {SyscallHeap.megabyteKernel with ticks := 100}

/-- A second passes between two turns. -/
def secondPasses (_turn : ℕ) (k : Kernel Unit) : Kernel Unit := {k with ticks := k.ticks+100}

/-- A request of two seconds, of which the loop waits for the second one. -/
theorem sleep_two_seconds_in_time :
    ∃ out,syscallHandle secondPasses 2 secondKernel ⟨17,2,0,0⟩=some out ∧
      (WokeInTime secondKernel ⟨17,2,0,0⟩ out ↔ (timerSeconds secondKernel).toNat+2<2^32) :=
  ⟨_,rfl,@sleep_wakes_in_time_iff Unit secondPasses 2 secondKernel ⟨17,2,0,0⟩ rfl _ rfl⟩

/-- One second after the start, a request of the longest sleep is over at
once. -/
theorem sleep_wakes_early :
    ¬∀ (resume : ℕ→Kernel Unit→Kernel Unit) (fuel : ℕ) (k : Kernel Unit) (tf : Trapframe)
      (out : Outcome Unit),Ticking resume→tf.eax=Syscall.sysSleep.number→
        syscallHandle resume fuel k tf=some out→WokeInTime k tf out := by
  intro h
  have hwoke := h (fun _ k => k) 1 secondKernel ⟨17,0xFFFFFFFF,0,0⟩ _
    (fun _ k => Later.refl (clock k)) rfl rfl
  exact absurd hwoke (by unfold WokeInTime; decide)

end EronKernel.SleepWake

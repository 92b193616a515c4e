import EronKernel.ProcFairness
import EronKernel.SystemInvariant

/-!
# The processor is shared in time

Every tenth tick of the timer that interrupts user code calls schedule, and
schedule goes round robin. So a process that waits has the processor after as
many ticks as ten times its distance from the process that has it, whatever
the processes do in between: nothing a user program does keeps the processor.
The tick counter wraps, where the tenth tick comes early. A tick that
interrupts the kernel is counted, too, and is lost if it is the tenth; so the
bound is one for runs whose ticks find user code.
-/

namespace EronKernel.TimeSharing

open ByteMemory RankedRun ProcModel ProcInvariant ProcFairness SyscallModel SyscallEffects InterruptModel
  SystemModel SystemSteps SystemInvariant

variable {F : Type} {L : Layout} {fuel : ℕ}

/-- The frame of a timer interrupt. -/
def timerFrame : Event F→Option InterruptFrame
  | .interrupt _ _ f _ => if f.intNo=32 then some f else none
  | _ => none

/-- An interrupt has a frame of the timer's when it is the timer's. -/
theorem timerFrame_interrupt (sc : Scratch) (scancode : Byte) (f : InterruptFrame) (esp : Word) :
    timerFrame (.interrupt sc scancode f esp : Event F)=if f.intNo=32 then some f else none := rfl

/-- A tick that interrupts user code. -/
def userTick (e : Event F) : Bool := (timerFrame e).any fun f => decide f.fromUser

/-- A tick that interrupts the kernel. -/
def kernelTick (e : Event F) : Bool := (timerFrame e).any fun f => !decide f.fromUser

/-- The ticks of a run that interrupt user code. -/
def userTicks (es : List (Event F)) : ℕ := es.countP userTick

/-- How many ticks the next call of schedule is away; the counter wraps at a
number that ten does not divide. -/
def untilSchedule (ticks : Word) : ℕ :=
  if 0xFFFFFFFA ≤ ticks.toNat then 0x100000000-ticks.toNat else 10-ticks.toNat%10

/-- The next call is at least one tick away, and at most ten. -/
theorem untilSchedule_bounds (ticks : Word) : 1 ≤ untilSchedule ticks ∧ untilSchedule ticks≤10 := by
  have hlt := ticks.isLt
  unfold untilSchedule
  split_ifs <;> omega

/-- The counter after a tick. -/
theorem toNat_tick (ticks : Word) :
    (ticks.toNat=0xFFFFFFFF ∧ (ticks+1).toNat=0) ∨ (ticks.toNat<0xFFFFFFFF ∧ (ticks+1).toNat=ticks.toNat+1) := by
  have hlt := ticks.isLt
  have hone : (ticks+1).toNat=(ticks.toNat+1)%2^32 := BitVec.toNat_add ticks 1
  omega

/-- The tick that calls schedule. -/
theorem tenth_tick (ticks : Word) : (ticks+1)%10=0 ↔ untilSchedule ticks=1 := by
  have hmod : ((ticks+1)%10).toNat=(ticks+1).toNat%10 := BitVec.toNat_umod
  have hzero : (0 : Word).toNat=0 := rfl
  rw [←BitVec.toNat_inj,hmod,hzero]
  unfold untilSchedule
  obtain ⟨hold,hnew⟩|⟨hold,hnew⟩ := toNat_tick ticks
  · rw [hnew,hold]
    decide
  · rw [hnew]
    split_ifs <;> omega

/-- Every other tick brings it nearer. -/
theorem untilSchedule_tick {ticks : Word} (h : (ticks+1)%10≠0) :
    untilSchedule (ticks+1)+1=untilSchedule ticks := by
  rw [Ne,tenth_tick] at h
  unfold untilSchedule at h⊢
  obtain ⟨hold,hnew⟩|⟨hold,hnew⟩ := toNat_tick ticks
  · rw [hold] at h
    exact absurd rfl h
  · rw [hnew]
    split_ifs at h⊢ <;> omega

/-- A system call leaves the clock alone. -/
theorem syscallEffect_ticks {k : Kernel F} {tf : Trapframe} {o : Outcome F} (h : SyscallEffect fuel k tf o) :
    o.kernel.ticks=k.ticks := by
  cases h <;> rfl

/-- timer_tick counts. -/
theorem timerTick_ticks (s : System F) (f : InterruptFrame) :
    (InterruptModel.timerTick s f).1.kernel.ticks=s.kernel.ticks+1 := by
  unfold InterruptModel.timerTick
  dsimp only
  split_ifs <;> rfl

/-- An interrupt counts the clock when it is the timer's. -/
theorem interruptDispatch_ticks {sc : Scratch} {s : System F} {scancode : Byte} {f : InterruptFrame}
    {d : Dispatched F} (hs : ¬Sleeps f)
    (hd : interruptDispatch (fun _ k => k) fuel sc s scancode f=some d) :
    d.system.kernel.ticks=if f.intNo=32 then s.kernel.ticks+1 else s.kernel.ticks := by
  unfold interruptDispatch at hd
  by_cases hfault : f.intNo=0 ∨ f.intNo=6 ∨ f.intNo=13 ∨ f.intNo=14
  · have hne : f.intNo≠32 := by
      rcases hfault with he|he|he|he <;> rw [he] <;> decide
    rw [if_pos hfault] at hd
    rw [if_neg hne]
    unfold dispatchFault at hd
    split_ifs at hd
    · obtain ⟨t,_,rfl⟩ := Option.map_eq_some_iff.mp hd
      rfl
    · obtain ⟨t,_,rfl⟩ := Option.map_eq_some_iff.mp hd
      rfl
  rw [if_neg hfault] at hd
  by_cases htimer : f.intNo=32
  · rw [if_pos htimer] at hd⊢
    cases hd
    exact timerTick_ticks s f
  rw [if_neg htimer] at hd⊢
  split_ifs at hd with hkey hcall
  · cases hd
    rfl
  · obtain ⟨o,ho,rfl⟩ := Option.map_eq_some_iff.mp hd
    exact syscallEffect_ticks (syscallHandle_effect ho fun hsleep => hs ⟨hcall,hsleep⟩)
  · cases hd
    rfl

/-- An event counts the clock when it is a tick. -/
theorem step_ticks {m n : Machine F} {e : Event F} (hstep : step L fuel m e=some n) :
    n.system.kernel.ticks=if (timerFrame e).isSome then m.system.kernel.ticks+1 else m.system.kernel.ticks := by
  have hraise : ∀ k : Word,(raise m.system k).kernel=m.system.kernel := by
    intro k
    unfold raise
    split_ifs <;> rfl
  unfold step at hstep
  split_ifs at hstep
  cases e with
  | interrupt sc scancode f esp =>
    dsimp only at hstep
    split_ifs at hstep with hs
    obtain ⟨d,hd,rfl⟩ := Option.map_eq_some_iff.mp hstep
    have hticks := interruptDispatch_ticks hs hd
    rw [hraise] at hticks
    rw [timerFrame_interrupt]
    by_cases htimer : f.intNo=32
    · rw [if_pos htimer] at hticks⊢
      exact hticks
    · rw [if_neg htimer] at hticks⊢
      exact hticks
  | sleepTurn target esp =>
    dsimp only at hstep
    split_ifs at hstep
    · cases hstep
      rfl
    · cases hstep
      rfl
  | proc op =>
    obtain ⟨procs,_,rfl⟩ := Option.map_eq_some_iff.mp hstep
    rfl
  | heap c =>
    obtain ⟨st,_,rfl⟩ := Option.map_eq_some_iff.mp hstep
    rfl
  | stackStore off b =>
    dsimp only at hstep
    split at hstep
    · cases hstep
    · split_ifs at hstep
      cases hstep
      rfl
  | store x b =>
    dsimp only at hstep
    split_ifs at hstep
    cases hstep
    rfl
  | _ =>
    cases hstep
    rfl

/-- timer_tick in user code calls schedule when ten divides the counter. -/
theorem timerTick_procs (s : System F) {f : InterruptFrame} (huser : f.fromUser) (esp : Word) :
    (switchTo (InterruptModel.timerTick s f).1 esp ((InterruptModel.timerTick s f).1.kernel.procs,
      (InterruptModel.timerTick s f).2)).kernel.procs=
        if (s.kernel.ticks+1)%10=0 then saveContext esp (procYield s.kernel.procs) else s.kernel.procs := by
  unfold InterruptModel.timerTick
  dsimp only
  by_cases hten : (s.kernel.ticks+1)%10=0
  · rw [if_pos ⟨huser,hten⟩,if_pos hten]
    rfl
  · rw [if_neg fun hc => hten hc.2,if_neg hten]
    rfl

/-- What a tick in user code does to the process table. -/
theorem step_userTick {m n : Machine F} {e : Event F} (hstep : step L fuel m e=some n) (he : userTick e=true) :
    ∃ esp,n.system.kernel.procs=if (m.system.kernel.ticks+1)%10=0 then
      saveContext esp (procYield m.system.kernel.procs) else m.system.kernel.procs := by
  cases e with
  | interrupt sc scancode f esp =>
    unfold userTick at he
    rw [timerFrame_interrupt] at he
    by_cases htimer : f.intNo=32
    · rw [if_pos htimer,Option.any_some] at he
      unfold step at hstep
      dsimp only at hstep
      split_ifs at hstep
      obtain ⟨d,hd,rfl⟩ := Option.map_eq_some_iff.mp hstep
      unfold interruptDispatch at hd
      rw [if_neg (by rw [htimer]; decide),if_pos htimer] at hd
      cases hd
      have hkernel : (raise m.system f.intNo).kernel=m.system.kernel := by
        unfold raise
        rw [if_pos htimer]
      have hprocs := timerTick_procs (raise m.system f.intNo) (of_decide_eq_true he) esp
      rw [hkernel] at hprocs
      exact ⟨esp,hprocs⟩
    · rw [if_neg htimer] at he
      cases he
  | _ => cases he

/-- The rank of a waiting slot: ten ticks for every turn that is not the next,
and the ticks to the next. -/
def tickRank (k : ProcSlot) (m : Machine F) : ℕ :=
  10*(rank k m.system.kernel.procs-1)+untilSchedule m.system.kernel.ticks

/-- A slot waits in a machine. -/
def SlotWaits (L : Layout) (k : ProcSlot) (m : Machine F) : Prop :=
  SystemInv L m ∧ (m.system.kernel.procs.procs k).state=.ready

/-- A slot has the processor. -/
def Runs (k : ProcSlot) (m : Machine F) : Prop := (m.system.kernel.procs.procs k).state=.running

/-- No event moves a waiting slot back. -/
theorem step_rank {m n : Machine F} {e : Event F} {k : ProcSlot} (h : SlotWaits L k m)
    (hstep : step L fuel m e=some n) :
    Runs k n ∨ (SlotWaits L k n ∧ rank k n.system.kernel.procs ≤ rank k m.system.kernel.procs) := by
  obtain ⟨hinv,hready⟩ := h
  have hnext := hinv.step hstep
  obtain ⟨bs,hheap⟩ := hinv.heap
  have hmem : ∀ mem,n.system.kernel.procs={m.system.kernel.procs with mem := mem}→
      SlotWaits L k n ∧ rank k n.system.kernel.procs ≤ rank k m.system.kernel.procs := by
    intro mem hp
    refine ⟨⟨hnext,?_⟩,?_⟩
    · rw [hp]
      exact hready
    · rw [hp]
      exact Nat.le_refl _
  cases (step_effect hheap hstep).change with
  | still _ hp _ _ => exact Or.inr (hmem _ hp)
  | heap c _ _ hp _ => exact Or.inr (hmem _ hp)
  | file o _ _ hp _ => exact Or.inr (hmem _ hp)
  | store x b _ _ hp _ _ => exact Or.inr (hmem _ hp)
  | proc op _ hrun _ _ _ =>
    obtain hgoal|⟨hwaits,hrank⟩ := (ranked_waits k).lower _ op _ ⟨hinv.procs.sched,hready⟩
      (tableStep_of_procStep hrun)
    · exact Or.inl hgoal
    · exact Or.inr ⟨⟨hnext,hwaits.2⟩,Nat.le_of_add_right_le hrank⟩

/-- The tenth tick moves it forward. -/
theorem step_tenth {m n : Machine F} {e : Event F} {k : ProcSlot} (h : SlotWaits L k m)
    (hstep : step L fuel m e=some n) (he : userTick e=true) (hten : (m.system.kernel.ticks+1)%10=0) :
    Runs k n ∨ (SlotWaits L k n ∧ rank k n.system.kernel.procs+1 ≤ rank k m.system.kernel.procs) := by
  obtain ⟨hinv,hready⟩ := h
  obtain ⟨esp,hprocs⟩ := step_userTick hstep he
  rw [if_pos hten] at hprocs
  obtain hgoal|⟨hwaits,hrank⟩ := (ranked_waits k).lower _ (.yield esp) _ ⟨hinv.procs.sched,hready⟩
    (congrArg some hprocs.symm)
  · exact Or.inl hgoal
  · exact Or.inr ⟨⟨hinv.step hstep,hwaits.2⟩,hrank⟩

/-- An event that happens when the kernel is not interrupted by the timer. -/
def stepUser (L : Layout) (fuel : ℕ) (m : Machine F) (e : Event F) : Option (Machine F) :=
  if kernelTick e then none else step L fuel m e

/-- An event that is no tick of the kernel's is one of user code, or none. -/
theorem timerFrame_of_not_kernelTick {e : Event F} (h : kernelTick e=false) :
    (timerFrame e).isSome=userTick e := by
  unfold kernelTick at h
  unfold userTick
  cases hf : timerFrame e with
  | none => rfl
  | some f =>
    rw [hf,Option.any_some] at h
    rw [Option.any_some,Option.isSome_some]
    simpa using h

/-- A waiting slot is ranked by ticks. -/
theorem ranked_ticks (L : Layout) (fuel : ℕ) (k : ProcSlot) :
    Ranked (stepUser (F := F) L fuel) (fun _ e => userTick e) (SlotWaits L k) (Runs k) (tickRank k) where
  positive := by
    intro m _
    have hbounds := untilSchedule_bounds m.system.kernel.ticks
    unfold tickRank
    omega
  lower := by
    intro m e n h hstep
    unfold stepUser at hstep
    split_ifs at hstep with hkernel
    have hticks := step_ticks hstep
    rw [timerFrame_of_not_kernelTick (Bool.eq_false_iff.mpr hkernel)] at hticks
    have hbounds := untilSchedule_bounds m.system.kernel.ticks
    have hbounds' := untilSchedule_bounds n.system.kernel.ticks
    have hpositive := (ranked_waits k).positive _ ⟨h.1.procs.sched,h.2⟩
    unfold tickCount tickRank
    by_cases he : userTick e=true
    · rw [if_pos he] at hticks⊢
      by_cases hten : (m.system.kernel.ticks+1)%10=0
      · obtain hgoal|⟨hwaits,hrank⟩ := step_tenth h hstep he hten
        · exact Or.inl hgoal
        · have hone := (tenth_tick _).mp hten
          have hpositive' := (ranked_waits k).positive _ ⟨hwaits.1.procs.sched,hwaits.2⟩
          exact Or.inr ⟨hwaits,by omega⟩
      · obtain hgoal|⟨hwaits,hrank⟩ := step_rank h hstep
        · exact Or.inl hgoal
        · have hone := untilSchedule_tick hten
          rw [←hticks] at hone
          exact Or.inr ⟨hwaits,by omega⟩
    · rw [if_neg he] at hticks⊢
      obtain hgoal|⟨hwaits,hrank⟩ := step_rank h hstep
      · exact Or.inl hgoal
      · rw [hticks]
        exact Or.inr ⟨hwaits,by omega⟩

/-- Without a tick of the kernel's the restricted run is the run. -/
theorem runSteps_stepUser (es : List (Event F)) :
    (∀ e∈es,kernelTick e=false)→∀ m,runSteps (stepUser L fuel) m es=runSteps (step L fuel) m es := by
  induction es with
  | nil => exact fun _ _ => rfl
  | cons e es ih =>
    intro h m
    have hone : stepUser L fuel m e=step L fuel m e := if_neg (by rw [h e List.mem_cons_self]; decide)
    have hrest := ih fun d hd => h d (List.mem_cons_of_mem e hd)
    unfold runSteps
    rw [hone]
    exact congrArg _ (funext hrest)

/-- The ticks of a run that comes to its end. -/
theorem ticks_eq_userTicks (es : List (Event F)) :
    ∀ {m t},runSteps (stepUser L fuel) m es=some t→
      ticks (stepUser L fuel) (fun _ e => userTick e) m es=userTicks es := by
  induction es with
  | nil => exact fun _ => rfl
  | cons e es ih =>
    intro m t hrun
    obtain ⟨u,hone,hrest⟩ := runSteps_cons_eq_some.mp hrun
    rw [ticks_cons hone,ih hrest]
    unfold tickCount userTicks
    rw [List.countP_cons]
    exact Nat.add_comm _ _

/-- The invariant holds at the end of a run. -/
theorem systemInv_runSteps (es : List (Event F)) :
    ∀ {m t : Machine F},SystemInv L m→ runSteps (step L fuel) m es=some t→SystemInv L t := by
  induction es with
  | nil =>
    intro m t h hrun
    cases hrun
    exact h
  | cons e es ih =>
    intro m t h hrun
    obtain ⟨u,hone,hrest⟩ := runSteps_cons_eq_some.mp hrun
    exact ih (h.step hone) hrest

/-- In every reachable state, whatever happens then in whatever order, a slot
that waits has the processor after at most ten timer ticks for every slot that
it is behind the current one, provided that the ticks find user code. -/
theorem waiting_slot_runs {boot m t : Machine F} (hboot : Boot L boot) (hr : Reaches L fuel boot m)
    {cur k : ProcSlot} (hcur : m.system.kernel.procs.currentProc=some cur)
    (hready : (m.system.kernel.procs.procs k).state=.ready) {es : List (Event F)}
    (hrun : runSteps (step L fuel) m es=some t) (huser : ∀ e∈es,kernelTick e=false)
    (hticks : 10*distance cur k ≤ userTicks es) :
    distance cur k≤15 ∧ ∃ front back u,es=front++back ∧ runSteps (step L fuel) m front=some u ∧
      u.system.kernel.procs.currentProc=some k ∧ userTicks front ≤ 10*distance cur k := by
  have hinv := kernel_invariant_always hboot hr
  have hwaits : SlotWaits L k m := ⟨hinv,hready⟩
  have hpos := (ranked_waits k).positive _ ⟨hinv.procs.sched,hready⟩
  have hlt := distance_lt cur k
  have hbounds := untilSchedule_bounds m.system.kernel.ticks
  have hrank : tickRank k m ≤ 10*distance cur k := by
    unfold tickRank
    rw [rank_eq hcur] at hpos⊢
    omega
  have hrun' := (runSteps_stepUser es huser m).trans hrun
  obtain ⟨front,back,u,rfl,hfront,hgoal,hle⟩ := (ranked_ticks L fuel k).reaches es hwaits hrun' (by
    rw [ticks_eq_userTicks es hrun']
    exact hrank.trans hticks)
  rw [ticks_eq_userTicks front hfront] at hle
  rw [runSteps_stepUser front fun e he => huser e (List.mem_append_left back he)] at hfront
  refine ⟨by omega,front,back,u,rfl,hfront,?_,hle.trans hrank⟩
  exact ((systemInv_runSteps front hinv hfront).procs.sched.running k).mp hgoal

/-- A tick that interrupts the user code of the created process. -/
def sampleUserTick : Event Unit :=
  .interrupt ⟨fun _ => 0,fun _ => 0,fun _ => 0⟩ 0 ⟨32,0,0x08000000,0x1B,⟨0,0,0,0⟩⟩ 0x80000

/-- The created process never gives up the processor, but the first slot has it
again after some of 150 ticks. -/
theorem sample_shares :
    ∃ t,runSteps (step sampleLayout 1) (sampleSwitched fun _ => 0) (List.replicate 150 sampleUserTick)=some t ∧
      ∃ front back u,List.replicate 150 sampleUserTick=front++back ∧
        runSteps (step sampleLayout 1) (sampleSwitched fun _ => 0) front=some u ∧
        u.system.kernel.procs.currentProc=some 0 := by
  obtain ⟨t,ht⟩ : ∃ t,runSteps (step sampleLayout 1) (sampleSwitched fun _ => 0)
      (List.replicate 150 sampleUserTick)=some t := Option.isSome_iff_exists.mp (by decide +kernel)
  have hreach : Reaches sampleLayout 1 (sampleBoot fun _ => 0) (sampleSwitched fun _ => 0) :=
    .step _ (.step _ .refl (sampleBoot_creates _)) (sampleCreated_yields _)
  have hcur : (sampleSwitched fun _ => 0).system.kernel.procs.currentProc=some 1 := rfl
  have hready : ((sampleSwitched fun _ => 0).system.kernel.procs.procs 0).state=.ready := rfl
  have huser : ∀ e∈List.replicate 150 sampleUserTick,kernelTick e=false := by
    intro e he
    rw [List.eq_of_mem_replicate he]
    rfl
  obtain ⟨_,front,back,u,hsplit,hfront,hcurrent,_⟩ :=
    waiting_slot_runs (sampleBoot_boot _) hreach hcur hready ht huser (by decide +kernel)
  exact ⟨t,ht,front,back,u,hsplit,hfront,hcurrent⟩

end EronKernel.TimeSharing

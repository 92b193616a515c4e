import EronKernel.ContextSwitch
import EronKernel.HeapIntegrity
import EronKernel.SystemInvariant

/-!
# Waiting processes keep what they left

Nothing that happens while a process waits for the processor touches its
stacks or its context pointer, and no event but the client's own write changes
a byte of an allocated block. A process therefore starts, or continues, from
exactly the frame that was left for it, whatever the kernel did in between.
-/

namespace EronKernel.SlotIsolation

open ByteMemory CString HeapModel HeapLayout HeapRuns HeapIntegrity ProcModel ProcInvariant SyscallModel
  InterruptModel SystemModel SystemSteps SystemInvariant

variable {F : Type} {L : Layout} {fuel : ℕ}

/-- schedule changes no context pointer. -/
theorem schedule_ctx (s : Procs) (k : ProcSlot) : ((schedule s).1.procs k).ctx=(s.procs k).ctx := by
  have hstate : ∀ (t : Procs) (j : ProcSlot) (st : ProcState),
      ((t.setState j st).procs k).ctx=(t.procs k).ctx := by
    intro t j st
    unfold Procs.setState
    rw [setProc_apply]
    split_ifs with hk
    · rw [hk]
    · rfl
  unfold schedule
  split
  · rfl
  · split
    · rfl
    · dsimp only
      split_ifs <;> simp only [hstate]

/-- What a step of the process table leaves of a process that waits: its context
pointer, and its state unless it is the one that runs now. -/
structure KeepsWaiting (s t : Procs) (k : ProcSlot) : Prop where
  /-- The context pointer. -/
  ctx : (t.procs k).ctx=(s.procs k).ctx
  /-- The state. -/
  ready : t.currentProc≠some k→(t.procs k).state=.ready

/-- Giving up the processor keeps what waits. -/
theorem schedule_waiting {s : Procs} {cur : ProcSlot} (h : SchedPre s cur) {k : ProcSlot} (hk : k≠cur)
    (hready : (s.procs k).state=.ready) (esp : Word) : KeepsWaiting s (saveContext esp (schedule s)) k := by
  have hctx := schedule_ctx s k
  cases hn : nextReady s cur with
  | none =>
    rw [schedule_none h hn]
    exact ⟨rfl,fun _ => hready⟩
  | some next =>
    obtain ⟨hstate,_,hcur,_,_,_,hswitch⟩ := schedule_to h.current hn (h.next_ne hn)
    constructor
    · unfold saveContext
      rw [hswitch]
      dsimp only
      rw [setProc_apply,if_neg hk]
      exact hctx
    · intro hnot
      rw [saveContext_currentProc,hcur] at hnot
      rw [(saveContext_slot esp _ k).1,hstate k,if_neg fun he => hnot (congrArg some he.symm),
        if_neg fun he => hk he.1]
      exact hready

/-- Every step of the process table keeps what waits. -/
theorem procStep_waiting {s t : Procs} (h : SchedInv s) {op : ProcOp} (hs : procStep s op=some t)
    {k : ProcSlot} (hready : (s.procs k).state=.ready) : KeepsWaiting s t k := by
  obtain ⟨cur,hc⟩ := h.current
  have hk : k≠cur := by
    rintro rfl
    have hrunning := (h.running k).mpr hc
    rw [hready] at hrunning
    cases hrunning
  cases op with
  | create name entry =>
    simp only [procStep] at hs
    split_ifs at hs
    cases hs
    rcases procCreate_cases s name entry with ⟨_,hrun⟩|⟨j,_,hj,hrun⟩
    · rw [hrun]
      exact ⟨rfl,fun _ => hready⟩
    · have hne : k≠j := by
        rintro rfl
        have hunused := (firstUnused_unused hj).2
        rw [hready] at hunused
        cases hunused
      rw [hrun]
      refine ⟨?_,fun _ => ?_⟩
      · unfold launch
        exact congrArg Process.ctx ((setProc_apply s j k _).trans (if_neg hne))
      · rw [(launch_slot s j name entry k).1,if_neg hne]
        exact hready
  | yield esp =>
    cases hs
    exact schedule_waiting (h.pre hc) hk hready esp
  | exit code esp =>
    cases hs
    rcases procExit_cases h code with hrun|⟨j,hj,hp,hrun⟩
    · rw [hrun]
      exact ⟨rfl,fun _ => hready⟩
    · rw [hj] at hc
      cases hc
      have hexited : (exited s cur code).procs k=s.procs k := (setProc_apply s cur k _).trans (if_neg hk)
      have hkeeps := schedule_waiting (h.pre_exited hj hp code) hk (by rw [hexited]; exact hready) esp
      rw [hrun]
      exact ⟨hkeeps.ctx.trans (by rw [hexited]),hkeeps.ready⟩
  | reap =>
    simp only [procStep] at hs
    split_ifs at hs
    cases hs
    have hsame : (reapZombies s).procs k=s.procs k := by
      refine if_neg fun hz => ?_
      rw [hready] at hz
      cases hz.2
    exact ⟨by rw [hsame],fun _ => by rw [hsame]; exact hready⟩
  | release child =>
    simp only [procStep] at hs
    split_ifs at hs with hchild
    cases hs
    have hne : k≠child := by
      rintro rfl
      exact hchild.2.2 (Or.inl hready)
    have hsame : (s.setState child .unused).procs k=s.procs k :=
      (setProc_apply s child k _).trans (if_neg hne)
    exact ⟨by rw [hsame],fun _ => by rw [hsame]; exact hready⟩

/-- A store does not reach the stacks of a process that waits. -/
theorem stores_ne_stackByte {m : Machine F} (h : SystemInv L m) {x : Word}
    (hx : Stores L m.system.kernel.procs x) {k : ProcSlot} (hk : m.system.kernel.procs.currentProc≠some k)
    {off : ℕ} (hoff : off<stacksSize) : stackByte m.system.kernel.procs k off≠x := by
  rcases hx with howned|⟨j,o,hj,_,ho,rfl⟩
  · rintro rfl
    exact howned (stackByte_owned h.base k hoff)
  · refine stackByte_ne h.base ?_ hoff ho
    rintro rfl
    exact hk hj

/-- What an event leaves of a process that waits. -/
structure Waited (m n : Machine F) (k : ProcSlot) : Prop where
  /-- Context pointer and state. -/
  slot : KeepsWaiting m.system.kernel.procs n.system.kernel.procs k
  /-- Every byte of its two stacks. -/
  bytes : ∀ off,off<stacksSize→
    n.system.kernel.mem (stackByte m.system.kernel.procs k off)=
      m.system.kernel.mem (stackByte m.system.kernel.procs k off)

/-- No event touches a process that waits. -/
theorem step_waited {m n : Machine F} (h : SystemInv L m) {e : Event F}
    (hstep : step L fuel m e=some n) {k : ProcSlot}
    (hready : (m.system.kernel.procs.procs k).state=.ready) : Waited m n k := by
  obtain ⟨bs,hheap⟩ := h.heap
  have hcur : m.system.kernel.procs.currentProc≠some k := by
    intro hc
    have hrunning := (h.procs.sched.running k).mpr hc
    rw [hready] at hrunning
    cases hrunning
  have hsame : n.system.kernel.procs=m.system.kernel.procs→
      KeepsWaiting m.system.kernel.procs n.system.kernel.procs k := by
    intro hp
    rw [hp]
    exact ⟨rfl,fun _ => hready⟩
  cases (step_effect hheap hstep).change with
  | still hh hp _ _ => exact ⟨hsame hp,fun off _ => congrFun (congrArg Heap.mem hh) _⟩
  | heap c _ hrun hp _ =>
    refine ⟨?_,fun off hoff => perform_frame hheap hrun fun hin => ?_⟩
    · rw [hp]
      exact ⟨rfl,fun _ => hready⟩
    · have hlo : m.system.kernel.heap.heapStart.toNat≤_ := hin.1
      rw [h.heapStart] at hlo
      exact absurd (stackByte_lt h.base k hoff) (by omega)
  | proc op _ hrun hh _ _ =>
    refine ⟨procStep_waiting h.procs.sched hrun hready,fun off hoff => ?_⟩
    have hmem : ∀ q : Machine F,q.system.kernel.mem=q.system.kernel.procs.mem :=
      fun q => q.system.kernel.shared.symm
    rw [hmem,hmem]
    refine procStep_mem hrun fun j o hj _ ho => stackByte_ne h.base ?_ hoff (lt_trans ho (by decide))
    rintro rfl
    cases op with
    | create name entry =>
      rcases procCreate_cases m.system.kernel.procs name entry with ⟨hnone,_⟩|⟨i,hi,hfree,_⟩
      · rw [hnone] at hj
        cases hj
      · rw [hi] at hj
        cases hj
        have hunused := (firstUnused_unused hfree).2
        rw [hready] at hunused
        cases hunused
    | _ => cases hj
  | file o _ hh hp _ => exact ⟨hsame hp,fun off _ => congrFun (congrArg Heap.mem hh) _⟩
  | store x b hx hh hp _ _ =>
    refine ⟨?_,fun off hoff => ?_⟩
    · rw [hp]
      exact ⟨rfl,fun _ => hready⟩
    · have hmem : n.system.kernel.mem=store8 m.system.kernel.heap.mem x b := congrArg Heap.mem hh
      rw [hmem]
      exact store8_of_ne _ (stores_ne_stackByte h hx hcur hoff)

end EronKernel.SlotIsolation

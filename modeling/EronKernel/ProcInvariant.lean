import EronKernel.ProcModel

/-!
# The invariant of the process table

Slot zero never stops being ready or running, so an exiting process always
finds it, and the one running slot is the current one, so the round robin
never picks the slot it starts from. Both facts, the pids and the kernel
stack pointer are kept together by every step.
-/

namespace EronKernel.ProcInvariant

open ByteMemory CString ProcModel

/-- The pids after a number of creations. -/
structure PidInv (n : ℕ) (s : Procs) : Prop where
  /-- Slot zero has pid zero. -/
  kernelPid : (s.procs 0).pid=0
  /-- The pid counter counts the creations from one. -/
  counter : s.nextPid.toNat=n+1
  /-- Every pid in the table, also of a free slot, was given out. -/
  bound : ∀ k,(s.procs k).pid.toNat≤n
  /-- Other slots in use have a nonzero pid. -/
  nonzero : ∀ k,k≠0→(s.procs k).state≠.unused→(s.procs k).pid≠0
  /-- Slots in use have different pids. -/
  distinct : ∀ j k,(s.procs j).state≠.unused→(s.procs k).state≠.unused→
    (s.procs j).pid=(s.procs k).pid→j=k

/-- The invariant after a number of creations. -/
structure ProcInv (n : ℕ) (s : Procs) : Prop where
  /-- Some process is current. -/
  current : ∃ cur,s.currentProc=some cur
  /-- Exactly the current process is running. -/
  running : ∀ k,(s.procs k).state=.running ↔ s.currentProc=some k
  /-- Slot zero is ready or running. -/
  kernelState : (s.procs 0).state=.ready ∨ (s.procs 0).state=.running
  /-- Pids are in order. -/
  pids : PidInv n s
  /-- The TSS points to the kernel stack of a current user process. -/
  stack : ∀ k,k≠0→s.currentProc=some k→s.esp0=kernelStack s k+procKstackSz

/-- The table while schedule runs: the current process may have exited. -/
structure ProcPre (n : ℕ) (s : Procs) (cur : ProcSlot) : Prop where
  /-- The process that calls schedule. -/
  current : s.currentProc=some cur
  /-- No other process is running. -/
  running : ∀ k,(s.procs k).state=.running→ k=cur
  /-- It is running, or it exited and is not slot zero. -/
  curState : (s.procs cur).state=.running ∨ ((s.procs cur).state=.zombie ∧ cur≠0)
  /-- Slot zero is ready or running. -/
  kernelState : (s.procs 0).state=.ready ∨ (s.procs 0).state=.running
  /-- Pids are in order. -/
  pids : PidInv n s
  /-- The TSS points to the kernel stack of a current user process. -/
  stack : cur≠0→s.esp0=kernelStack s cur+procKstackSz

/-- What the scheduler relies on, however many processes were created. -/
structure SchedInv (s : Procs) : Prop where
  /-- Some process is current. -/
  current : ∃ cur,s.currentProc=some cur
  /-- Exactly the current process is running. -/
  running : ∀ k,(s.procs k).state=.running ↔ s.currentProc=some k
  /-- Slot zero is ready or running. -/
  kernelState : (s.procs 0).state=.ready ∨ (s.procs 0).state=.running
  /-- Slot zero has pid zero. -/
  kernelPid : (s.procs 0).pid=0

/-- What schedule relies on while the current process may have exited. -/
structure SchedPre (s : Procs) (cur : ProcSlot) : Prop where
  /-- The process that calls schedule. -/
  current : s.currentProc=some cur
  /-- No other process is running. -/
  running : ∀ k,(s.procs k).state=.running→ k=cur
  /-- It is running, or it exited and is not slot zero. -/
  curState : (s.procs cur).state=.running ∨ ((s.procs cur).state=.zombie ∧ cur≠0)
  /-- Slot zero is ready or running. -/
  kernelState : (s.procs 0).state=.ready ∨ (s.procs 0).state=.running
  /-- Slot zero has pid zero. -/
  kernelPid : (s.procs 0).pid=0

/-- The invariant contains what the scheduler relies on. -/
theorem ProcInv.sched {n : ℕ} {s : Procs} (h : ProcInv n s) : SchedInv s :=
  ⟨h.current,h.running,h.kernelState,h.pids.kernelPid⟩

/-- The invariant is what the scheduler relies on, the pids and the kernel
stack pointer. -/
theorem SchedInv.procInv {n : ℕ} {s : Procs} (h : SchedInv s) (hpids : PidInv n s)
    (hstack : ∀ k,k≠0→s.currentProc=some k→s.esp0=kernelStack s k+procKstackSz) : ProcInv n s :=
  ⟨h.current,h.running,h.kernelState,hpids,hstack⟩

/-- The same while schedule runs. -/
theorem ProcPre.sched {n : ℕ} {s : Procs} {cur : ProcSlot} (h : ProcPre n s cur) : SchedPre s cur :=
  ⟨h.current,h.running,h.curState,h.kernelState,h.pids.kernelPid⟩

/-- The inspection order visits every slot. -/
theorem mem_roundRobin (cur k : ProcSlot) : k∈roundRobin cur := by
  have hc := cur.isLt
  have hk := k.isLt
  refine List.mem_map.mpr ⟨(k.val+15-cur.val)%16,List.mem_range.mpr (Nat.mod_lt _ (by decide)),?_⟩
  apply Fin.ext
  simp only [Fin.ofNat]
  omega

/-- The slot found is ready. -/
theorem nextReady_ready {s : Procs} {cur k : ProcSlot} (h : nextReady s cur=some k) :
    (s.procs k).state=.ready := by
  simpa using List.find?_some h

/-- When some slot is ready the search finds one. -/
theorem nextReady_of_ready {s : Procs} (cur : ProcSlot) {k : ProcSlot}
    (h : (s.procs k).state=.ready) : ∃ j,nextReady s cur=some j := by
  cases hn : nextReady s cur with
  | some j => exact ⟨j,rfl⟩
  | none =>
    have hk := List.find?_eq_none.mp hn k (mem_roundRobin cur k)
    simp [h] at hk

/-- The slot that proc_create takes is free and not slot zero. -/
theorem firstUnused_unused {s : Procs} {k : ProcSlot} (h : firstUnused s=some k) :
    k≠0 ∧ (s.procs k).state=.unused := by
  have hp := List.find?_some h
  simpa using hp

/-- Pids stay in order while no slot comes into use. -/
theorem PidInv.mono {n : ℕ} {s t : Procs} (h : PidInv n s)
    (hused : ∀ k,(t.procs k).state≠.unused→(s.procs k).state≠.unused)
    (hpid : ∀ k,(t.procs k).pid=(s.procs k).pid) (hnext : t.nextPid=s.nextPid) : PidInv n t where
  kernelPid := by rw [hpid,h.kernelPid]
  counter := by rw [hnext,h.counter]
  bound := by
    intro k
    rw [hpid]
    exact h.bound k
  nonzero := by
    intro k hk hu
    rw [hpid]
    exact h.nonzero k hk (hused k hu)
  distinct := by
    intro j k hj hk
    rw [hpid,hpid]
    exact h.distinct j k (hused j hj) (hused k hk)

/-- Only slot zero is in use after proc_init, and it is running. -/
theorem procInit_slot (s : Procs) :
    ((procInit s).procs 0).state=.running ∧ (∀ k,((procInit s).procs k).pid=0) ∧
      ∀ k,((procInit s).procs k).state≠.unused→ k=0 := by
  refine ⟨by simp [procInit,Procs.setProc],fun k => ?_,fun k hu => ?_⟩
  · by_cases hk : k=0 <;> simp [procInit,Procs.setProc,hk]
  · by_contra hk
    simp [procInit,Procs.setProc,hk] at hu

/-- proc_init makes the scheduler work. -/
theorem procInit_sched (s : Procs) : SchedInv (procInit s) := by
  obtain ⟨h0,hpid,hk⟩ := procInit_slot s
  have hc : (procInit s).currentProc=some 0 := rfl
  refine ⟨⟨0,hc⟩,fun k => ?_,Or.inr h0,hpid 0⟩
  constructor
  · intro hr
    rw [hk k (by rw [hr]; decide),hc]
  · intro hr
    rw [hc] at hr
    cases hr
    exact h0

/-- proc_init establishes the invariant. -/
theorem procInit_inv {s : Procs} (h : s.nextPid=1) : ProcInv 0 (procInit s) := by
  obtain ⟨_,hpid,hk⟩ := procInit_slot s
  have hc : (procInit s).currentProc=some 0 := rfl
  have hn : (procInit s).nextPid=s.nextPid := rfl
  refine (procInit_sched s).procInv ⟨hpid 0,by rw [hn,h]; rfl,fun k => by simp [hpid k],?_,?_⟩ ?_
  · intro k he hu
    exact absurd (hk k hu) he
  · intro j k hj hkk _
    rw [hk j hj,hk k hkk]
  · intro k he hcur
    rw [hc] at hcur
    cases hcur
    exact absurd rfl he

/-- A step that at most frees slots other than zero that are not running keeps
the scheduler working. -/
theorem SchedInv.free {s t : Procs} (h : SchedInv s)
    (hfreed : ∀ k,((t.procs k).state=(s.procs k).state) ∨
      (k≠0 ∧ (s.procs k).state≠.running ∧ (t.procs k).state=.unused))
    (hpid : ∀ k,(t.procs k).pid=(s.procs k).pid) (hcur : t.currentProc=s.currentProc) : SchedInv t := by
  refine ⟨hcur▸h.current,?_,?_,(hpid 0).trans h.kernelPid⟩
  · intro k
    rw [hcur,←h.running k]
    rcases hfreed k with he|⟨_,hne,he⟩
    · rw [he]
    · rw [he]
      simp [hne]
  · rcases hfreed 0 with he|⟨hne,_,_⟩
    · rw [he]
      exact h.kernelState
    · exact absurd rfl hne

/-- A step that at most frees slots other than zero that are not running keeps
the invariant. -/
theorem free_inv {n : ℕ} {s t : Procs} (h : ProcInv n s)
    (hfreed : ∀ k,((t.procs k).state=(s.procs k).state) ∨
      (k≠0 ∧ (s.procs k).state≠.running ∧ (t.procs k).state=.unused))
    (hpid : ∀ k,(t.procs k).pid=(s.procs k).pid) (hcur : t.currentProc=s.currentProc)
    (hnext : t.nextPid=s.nextPid) (hesp : t.esp0=s.esp0) (hbase : t.base=s.base) : ProcInv n t := by
  refine (h.sched.free hfreed hpid hcur).procInv (h.pids.mono ?_ hpid hnext) ?_
  · intro k hk
    rcases hfreed k with he|⟨_,_,he⟩
    · rwa [he] at hk
    · exact absurd he hk
  · intro k hk hc
    rw [hcur] at hc
    rw [hesp,h.stack k hk hc]
    unfold kernelStack
    rw [hbase]

/-- A replaced slot and the others. -/
theorem setProc_apply (s : Procs) (k j : ProcSlot) (p : Process) :
    (s.setProc k p).procs j=if j=k then p else s.procs j := by
  unfold Procs.setProc
  exact Function.update_apply ..

/-- Saving a context pointer changes no state and no pid. -/
theorem saveContext_slot (esp : Word) (r : Procs×Option Switch) (k : ProcSlot) :
    ((saveContext esp r).procs k).state=(r.1.procs k).state ∧
      ((saveContext esp r).procs k).pid=(r.1.procs k).pid := by
  unfold saveContext
  cases r.2 with
  | none => exact ⟨rfl,rfl⟩
  | some w =>
    dsimp only
    rw [setProc_apply]
    split_ifs with hk
    · rw [hk]
      exact ⟨rfl,rfl⟩
    · exact ⟨rfl,rfl⟩

/-- Saving a context pointer keeps the current process. -/
theorem saveContext_currentProc (esp : Word) (r : Procs×Option Switch) :
    (saveContext esp r).currentProc=r.1.currentProc := by
  unfold saveContext
  cases r.2 <;> rfl

/-- Saving a context pointer keeps the scheduler working. -/
theorem SchedInv.save {r : Procs×Option Switch} (h : SchedInv r.1) (esp : Word) :
    SchedInv (saveContext esp r) :=
  h.free (fun k => Or.inl (saveContext_slot esp r k).1) (fun k => (saveContext_slot esp r k).2)
    (saveContext_currentProc esp r)

/-- Saving a context pointer keeps the invariant. -/
theorem saveContext_inv {n : ℕ} (esp : Word) {r : Procs×Option Switch} (h : ProcInv n r.1) :
    ProcInv n (saveContext esp r) := by
  refine free_inv h (fun k => Or.inl (saveContext_slot esp r k).1) (fun k => (saveContext_slot esp r k).2)
    (saveContext_currentProc esp r) ?_ ?_ ?_
  all_goals
    unfold saveContext
    cases r.2 <;> rfl

/-- A process that yields calls schedule while it is running. -/
theorem SchedInv.pre {s : Procs} (h : SchedInv s) {cur : ProcSlot} (hc : s.currentProc=some cur) :
    SchedPre s cur where
  current := hc
  running := by
    intro k hk
    have hk' := (h.running k).mp hk
    rw [hc] at hk'
    exact (Option.some.inj hk').symm
  curState := Or.inl ((h.running cur).mpr hc)
  kernelState := h.kernelState
  kernelPid := h.kernelPid

/-- A process that yields calls schedule under the whole invariant. -/
theorem ProcInv.pre {n : ℕ} {s : Procs} (h : ProcInv n s) {cur : ProcSlot}
    (hc : s.currentProc=some cur) : ProcPre n s cur :=
  have hpre := h.sched.pre hc
  ⟨hc,hpre.running,hpre.curState,h.kernelState,h.pids,fun hk => h.stack cur hk hc⟩

/-- The table in which proc_exit calls schedule. -/
def exited (s : Procs) (cur : ProcSlot) (code : Word) : Procs :=
  s.setProc cur {s.procs cur with state := .zombie, exitCode := code}

/-- The slots when proc_exit calls schedule. -/
theorem exited_slot (s : Procs) (cur : ProcSlot) (code : Word) (k : ProcSlot) :
    ((exited s cur code).procs k).state=(if k=cur then .zombie else (s.procs k).state) ∧
      ((exited s cur code).procs k).pid=(s.procs k).pid := by
  unfold exited
  rw [setProc_apply]
  split_ifs with hk
  · rw [hk]
    exact ⟨rfl,rfl⟩
  · exact ⟨rfl,rfl⟩

/-- A process with a pid calls schedule from proc_exit as a zombie. -/
theorem SchedInv.pre_exited {s : Procs} (h : SchedInv s) {cur : ProcSlot} (hc : s.currentProc=some cur)
    (hpid : (s.procs cur).pid≠0) (code : Word) : SchedPre (exited s cur code) cur := by
  have hpre := h.pre hc
  have hslot := exited_slot s cur code
  have h0 : cur≠0 := by
    rintro rfl
    exact hpid h.kernelPid
  refine ⟨hc,?_,Or.inr ⟨by rw [(hslot cur).1,if_pos rfl],h0⟩,?_,(hslot 0).2.trans h.kernelPid⟩
  · intro k hk
    rw [(hslot k).1] at hk
    split_ifs at hk
    exact hpre.running k hk
  · rw [(hslot 0).1,if_neg (Ne.symm h0)]
    exact h.kernelState

/-- A process with a pid calls schedule from proc_exit under the whole
invariant. -/
theorem ProcInv.pre_exited {n : ℕ} {s : Procs} (h : ProcInv n s) {cur : ProcSlot}
    (hc : s.currentProc=some cur) (hpid : (s.procs cur).pid≠0) (code : Word) :
    ProcPre n (exited s cur code) cur := by
  have hpre := h.sched.pre_exited hc hpid code
  have hslot := exited_slot s cur code
  have hpids : PidInv n (exited s cur code) := by
    refine h.pids.mono (fun k hk => ?_) (fun k => (hslot k).2) rfl
    rw [(hslot k).1] at hk
    split_ifs at hk with he
    · rw [he,(h.running cur).mpr hc]
      decide
    · exact hk
  exact ⟨hc,hpre.running,hpre.curState,hpre.kernelState,hpids,(h.pre hc).stack⟩

/-- schedule finds nothing only for a process that keeps running. -/
theorem SchedPre.running_of_none {s : Procs} {cur : ProcSlot} (h : SchedPre s cur)
    (hn : nextReady s cur=none) : (s.procs cur).state=.running := by
  rcases h.curState with hr|⟨_,h0⟩
  · exact hr
  · rcases h.kernelState with hz|hz
    · obtain ⟨j,hj⟩ := nextReady_of_ready cur hz
      rw [hn] at hj
      cases hj
    · exact absurd (h.running 0 hz).symm h0

/-- The fallback of schedule is never entered. -/
theorem SchedPre.not_inFallback {s : Procs} {cur : ProcSlot} (h : SchedPre s cur) :
    ¬InFallback s cur :=
  fun hf => hf.2.1 (h.running_of_none hf.1)

/-- The next slot differs from the one that calls schedule. -/
theorem SchedPre.next_ne {s : Procs} {cur next : ProcSlot} (h : SchedPre s cur)
    (hn : nextReady s cur=some next) : next≠cur := by
  rintro rfl
  have hr := nextReady_ready hn
  rcases h.curState with hs|⟨hs,_⟩
  · rw [hr] at hs
    cases hs
  · rw [hr] at hs
    cases hs

/-- schedule does nothing when no other process is ready. -/
theorem schedule_none {s : Procs} {cur : ProcSlot} (h : SchedPre s cur)
    (hn : nextReady s cur=none) : schedule s=(s,none) := by
  have hslot : nextSlot s cur=none := by
    unfold nextSlot
    rw [hn]
    exact if_neg h.not_inFallback
  unfold schedule
  rw [h.current]
  dsimp only
  rw [hslot]

/-- The slots after one process is set running and the one that was left ready. -/
theorem setState_switch (s : Procs) {cur next : ProcSlot} (hne : next≠cur) (k : ProcSlot) :
    ((if (s.procs cur).state=.running then s.setState cur .ready else s).setState next .running).procs k=
      if k=next then {s.procs next with state := .running}
      else if k=cur ∧ (s.procs cur).state=.running then {s.procs cur with state := .ready}
      else s.procs k := by
  unfold Procs.setState
  rw [setProc_apply]
  by_cases hk : k=next
  · rw [if_pos hk,if_pos hk]
    split_ifs
    · rw [setProc_apply,if_neg hne]
    · rfl
  · rw [if_neg hk,if_neg hk]
    by_cases hrun : (s.procs cur).state=.running
    · rw [if_pos hrun,setProc_apply]
      simp only [hrun,and_true]
    · rw [if_neg hrun,if_neg fun hkc => hrun hkc.2]

/-- What schedule does when it finds a ready slot. -/
theorem schedule_to {s : Procs} {cur next : ProcSlot} (hc : s.currentProc=some cur)
    (hn : nextReady s cur=some next) (hne : next≠cur) :
    (∀ k,((schedule s).1.procs k).state=if k=next then .running
      else if k=cur ∧ (s.procs cur).state=.running then .ready else (s.procs k).state) ∧
    (∀ k,((schedule s).1.procs k).pid=(s.procs k).pid) ∧
    (schedule s).1.currentProc=some next ∧ (schedule s).1.nextPid=s.nextPid ∧
    (schedule s).1.base=s.base ∧
    (next≠0→(schedule s).1.esp0=kernelStack s next+procKstackSz) ∧
    (schedule s).2=some ⟨cur,(s.procs next).ctx⟩ := by
  have hslot : nextSlot s cur=some next := by
    unfold nextSlot
    rw [hn]
  have hprocs := setState_switch s hne
  unfold schedule
  rw [hc]
  dsimp only
  rw [hslot]
  dsimp only
  rw [if_neg hne]
  refine ⟨?_,?_,rfl,?_,?_,?_,?_⟩
  · intro k
    rw [apply_ite Procs.procs,ite_self,hprocs]
    split_ifs <;> rfl
  · intro k
    rw [apply_ite Procs.procs,ite_self,hprocs]
    split_ifs with hk hkc
    · rw [hk]
    · rw [hkc.1]
    · rfl
  · split_ifs <;> rfl
  · split_ifs <;> rfl
  · intro h0
    rw [if_pos h0]
    split_ifs <;> rfl
  · rw [apply_ite Procs.procs,ite_self,hprocs,if_pos rfl]

/-- schedule leaves a table that it works with again. -/
theorem schedule_sched {s : Procs} {cur : ProcSlot} (h : SchedPre s cur) : SchedInv (schedule s).1 := by
  cases hn : nextReady s cur with
  | none =>
    rw [schedule_none h hn]
    refine ⟨⟨cur,h.current⟩,fun k => ?_,h.kernelState,h.kernelPid⟩
    rw [h.current]
    constructor
    · intro hk
      rw [h.running k hk]
    · intro hk
      cases hk
      exact h.running_of_none hn
  | some next =>
    obtain ⟨hstate,hpid,hcur,_⟩ := schedule_to h.current hn (h.next_ne hn)
    refine ⟨⟨next,hcur⟩,fun k => ?_,?_,(hpid 0).trans h.kernelPid⟩
    · rw [hstate,hcur]
      by_cases hk : k=next
      · simp [hk]
      · rw [if_neg hk]
        have hnot : ¬(some next=some k) := fun he => hk (Option.some.inj he).symm
        refine iff_of_false ?_ hnot
        split_ifs with hkc
        · decide
        · intro hr
          have he := h.running k hr
          exact hkc ⟨he,he▸hr⟩
    · rw [hstate]
      split_ifs
      · exact Or.inr rfl
      · exact Or.inl rfl
      · exact h.kernelState

/-- schedule restores the invariant. -/
theorem schedule_inv {n : ℕ} {s : Procs} {cur : ProcSlot} (h : ProcPre n s cur) :
    ProcInv n (schedule s).1 := by
  have hsched := schedule_sched h.sched
  cases hn : nextReady s cur with
  | none =>
    rw [schedule_none h.sched hn] at hsched⊢
    refine hsched.procInv h.pids fun k hk hc => ?_
    rw [h.current] at hc
    cases hc
    exact h.stack hk
  | some next =>
    have hready := nextReady_ready hn
    obtain ⟨hstate,hpid,hcur,hnext,hbase,hesp,_⟩ := schedule_to h.current hn (h.sched.next_ne hn)
    refine hsched.procInv (h.pids.mono ?_ hpid hnext) ?_
    · intro k hk
      rw [hstate] at hk
      split_ifs at hk with h1 h2
      · rw [h1,hready]
        decide
      · rw [h2.1,h2.2]
        decide
      · exact hk
    · intro k hk hc
      rw [hcur] at hc
      cases hc
      rw [hesp hk]
      unfold kernelStack
      rw [hbase]

/-- No slot has the next pid yet. -/
theorem ProcInv.nextPid_fresh {n : ℕ} {s : Procs} (h : ProcInv n s) (j : ProcSlot) :
    (s.procs j).pid≠s.nextPid := by
  intro he
  have hb := h.pids.bound j
  have hc := h.pids.counter
  rw [he] at hb
  omega

/-- A creation makes one slot ready under the next pid. -/
theorem launch_slot (s : Procs) (k : ProcSlot) (name : CStr) (entry : Word) (j : ProcSlot) :
    ((launch s k name entry).procs j).state=(if j=k then .ready else (s.procs j).state) ∧
      ((launch s k name entry).procs j).pid=(if j=k then s.nextPid else (s.procs j).pid) := by
  by_cases hj : j=k
  · subst hj
    simp [launch,Procs.setProc]
  · simp [launch,Procs.setProc,hj]

/-- Creating a process in a free slot keeps the scheduler working. -/
theorem SchedInv.launch {s : Procs} (h : SchedInv s) {k : ProcSlot} (hk : firstUnused s=some k)
    (name : CStr) (entry : Word) : SchedInv (launch s k name entry) := by
  obtain ⟨hk0,hfree⟩ := firstUnused_unused hk
  have hslot := launch_slot s k name entry
  have hcur : (ProcModel.launch s k name entry).currentProc=s.currentProc := rfl
  refine ⟨hcur▸h.current,?_,?_,?_⟩
  · intro j
    rw [(hslot j).1,hcur,←h.running j]
    split_ifs with hj
    · rw [hj,hfree]
      simp
    · rfl
  · rw [(hslot 0).1,if_neg (Ne.symm hk0)]
    exact h.kernelState
  · rw [(hslot 0).2,if_neg (Ne.symm hk0)]
    exact h.kernelPid

/-- Creating a process in a free slot keeps the invariant while pids last. -/
theorem launch_inv {n : ℕ} {s : Procs} (h : ProcInv n s) {k : ProcSlot} (hk : firstUnused s=some k)
    (hn : n+1<2^32-1) (name : CStr) (entry : Word) : ProcInv (n+1) (launch s k name entry) := by
  have hsched := h.sched.launch hk name entry
  have hcount := h.pids.counter
  have hslot := launch_slot s k name entry
  have hcur : (launch s k name entry).currentProc=s.currentProc := rfl
  have hnext : (launch s k name entry).nextPid=s.nextPid+1 := rfl
  refine hsched.procInv ⟨hsched.kernelPid,?_,?_,?_,?_⟩ ?_
  · rw [hnext]
    bv_omega
  · intro j
    rw [(hslot j).2]
    split_ifs
    · omega
    · exact (h.pids.bound j).trans (Nat.le_succ n)
  · intro j hj hu
    rw [(hslot j).1] at hu
    rw [(hslot j).2]
    split_ifs at hu ⊢ with hjk
    · intro hz
      rw [hz] at hcount
      cases hcount
    · exact h.pids.nonzero j hj hu
  · intro i j hi hj
    rw [(hslot i).1] at hi
    rw [(hslot j).1] at hj
    rw [(hslot i).2,(hslot j).2]
    split_ifs at hi hj ⊢ with hik hjk hjk
    · exact fun _ => hik.trans hjk.symm
    · exact fun he => absurd he.symm (h.nextPid_fresh j)
    · exact fun he => absurd he (h.nextPid_fresh i)
    · exact h.pids.distinct i j hi hj
  · intro j hj hc
    rw [hcur] at hc
    exact h.stack j hj hc

/-- proc_create fails and changes nothing, or launches in the first free slot. -/
theorem procCreate_cases (s : Procs) (name : CStr) (entry : Word) :
    (createdSlot s (.create name entry)=none ∧ procCreate s name entry=(s,-1)) ∨
    ∃ k,createdSlot s (.create name entry)=some k ∧ firstUnused s=some k ∧
      procCreate s name entry=(launch s k name entry,s.nextPid.toInt) := by
  unfold procCreate createdSlot
  dsimp only
  by_cases h0 : entry=0
  · exact Or.inl ⟨if_pos (Or.inl h0),if_pos h0⟩
  · rw [if_neg h0]
    by_cases hr : entry<0x08000000 ∨ 0xC0000000≤entry
    · exact Or.inl ⟨if_pos (Or.inr hr),if_pos hr⟩
    · rw [if_neg hr,if_neg (not_or.mpr ⟨h0,hr⟩)]
      cases hf : firstUnused s with
      | none => exact Or.inl ⟨rfl,rfl⟩
      | some k => exact Or.inr ⟨k,rfl,rfl,rfl⟩

/-- proc_exit of slot zero does nothing; any other process calls schedule as a
zombie. -/
theorem procExit_cases {s : Procs} (h : SchedInv s) (code : Word) :
    procExit s code=(s,none) ∨
    ∃ cur,s.currentProc=some cur ∧ (s.procs cur).pid≠0 ∧
      procExit s code=schedule (exited s cur code) := by
  obtain ⟨cur,hc⟩ := h.current
  unfold procExit
  rw [hc]
  dsimp only
  by_cases hp : (s.procs cur).pid=0
  · exact Or.inl (if_pos hp)
  · exact Or.inr ⟨cur,rfl,hp,if_neg hp⟩

/-- The reaping loop only frees zombies. -/
theorem reapZombies_freed (s : Procs) (k : ProcSlot) :
    ((reapZombies s).procs k).state=(s.procs k).state ∨
      (k≠0 ∧ (s.procs k).state≠.running ∧ ((reapZombies s).procs k).state=.unused) := by
  by_cases hk : k≠0 ∧ (s.procs k).state=.zombie
  · refine Or.inr ⟨hk.1,by rw [hk.2]; decide,?_⟩
    simp only [reapZombies,if_pos hk]
  · left
    simp only [reapZombies,if_neg hk]

/-- The reaping loop keeps the pids. -/
theorem reapZombies_pid (s : Procs) (k : ProcSlot) : ((reapZombies s).procs k).pid=(s.procs k).pid := by
  simp only [reapZombies]
  split_ifs <;> rfl

/-- Releasing a child frees its slot only. -/
theorem release_freed {s : Procs} {child : ProcSlot} (h0 : child≠0)
    (hstate : (s.procs child).state≠.running) (k : ProcSlot) :
    ((s.setState child .unused).procs k).state=(s.procs k).state ∨
      (k≠0 ∧ (s.procs k).state≠.running ∧ ((s.setState child .unused).procs k).state=.unused) := by
  unfold Procs.setState
  rw [setProc_apply]
  split_ifs with hk
  · subst hk
    exact Or.inr ⟨h0,hstate,rfl⟩
  · exact Or.inl rfl

/-- Releasing a child keeps the pids. -/
theorem release_pid (s : Procs) (child k : ProcSlot) :
    ((s.setState child .unused).procs k).pid=(s.procs k).pid := by
  unfold Procs.setState
  rw [setProc_apply]
  split_ifs with hk
  · rw [hk]
  · rfl

/-- Every step keeps the invariant. -/
theorem procStep_inv {n : ℕ} {s t : Procs} (h : ProcInv n s) (op : ProcOp)
    (hs : procStep s op=some t) (hn : creations s op n<2^32-1) : ProcInv (creations s op n) t := by
  unfold creations at hn ⊢
  cases op with
  | create name entry =>
    simp only [procStep] at hs
    split_ifs at hs
    cases hs
    rcases procCreate_cases s name entry with ⟨hno,hrun⟩|⟨k,hyes,hk,hrun⟩
    · rw [hrun,hno]
      exact h
    · rw [hyes,Option.isSome_some,if_pos rfl] at hn
      rw [hrun,hyes,Option.isSome_some,if_pos rfl]
      exact launch_inv h hk hn name entry
  | yield esp =>
    cases hs
    obtain ⟨cur,hc⟩ := h.current
    exact saveContext_inv esp (schedule_inv (h.pre hc))
  | exit code esp =>
    cases hs
    apply saveContext_inv
    rcases procExit_cases h.sched code with hrun|⟨cur,hc,hp,hrun⟩
    · rw [hrun]
      exact h
    · rw [hrun]
      exact schedule_inv (h.pre_exited hc hp code)
  | reap =>
    simp only [procStep] at hs
    split_ifs at hs
    cases hs
    exact free_inv h (reapZombies_freed s) (reapZombies_pid s) rfl rfl rfl rfl
  | release child =>
    simp only [procStep] at hs
    split_ifs at hs with hc
    cases hs
    obtain ⟨_,h0,hstate⟩ := hc
    exact free_inv h (release_freed h0 fun hr => hstate (Or.inr hr)) (release_pid s child) rfl rfl rfl rfl

/-- schedule leaves idle slots idle. -/
theorem schedule_idle {s : Procs} {cur k : ProcSlot} (h : SchedPre s cur) (hk : Idle s k) :
    Idle (schedule s).1 k := by
  cases hn : nextReady s cur with
  | none =>
    rw [schedule_none h hn]
    exact hk
  | some next =>
    obtain ⟨hstate,_⟩ := schedule_to h.current hn (h.next_ne hn)
    have hready := nextReady_ready hn
    unfold Idle at hk ⊢
    have h1 : k≠next := by
      rintro rfl
      rw [hready] at hk
      rcases hk with hk|hk <;> cases hk
    have h2 : ¬(k=cur ∧ (s.procs cur).state=.running) := by
      rintro ⟨rfl,hr⟩
      rw [hr] at hk
      rcases hk with hk|hk <;> cases hk
    rw [hstate,if_neg h1,if_neg h2]
    exact hk

/-- A creation leaves the slots that it does not use idle. -/
theorem procCreate_idle (s : Procs) (name : CStr) (entry : Word) {k : ProcSlot} (hk : Idle s k)
    (hc : createdSlot s (.create name entry)≠some k) : Idle (procCreate s name entry).1 k := by
  rcases procCreate_cases s name entry with ⟨_,hrun⟩|⟨j,hyes,_,hrun⟩
  · rw [hrun]
    exact hk
  · have hne : k≠j := by
      rintro rfl
      exact hc hyes
    rw [hrun]
    unfold Idle at hk ⊢
    simpa [launch,Procs.setProc,hne] using hk

/-- An exit leaves idle slots idle. -/
theorem procExit_idle {s : Procs} (h : SchedInv s) (code : Word) {k : ProcSlot} (hk : Idle s k) :
    Idle (procExit s code).1 k := by
  rcases procExit_cases h code with hrun|⟨cur,hcur,hp,hrun⟩
  · rw [hrun]
    exact hk
  · rw [hrun]
    refine schedule_idle (h.pre_exited hcur hp code) ?_
    unfold Idle exited
    rw [setProc_apply]
    split_ifs
    · exact Or.inl rfl
    · exact hk

/-- A step leaves idle slots idle unless it creates a process there. -/
theorem SchedInv.step_idle {s t : Procs} (h : SchedInv s) (op : ProcOp) (hs : procStep s op=some t)
    {k : ProcSlot} (hk : Idle s k) (hc : createdSlot s op≠some k) : Idle t k := by
  cases op with
  | create name entry =>
    simp only [procStep] at hs
    split_ifs at hs
    cases hs
    exact procCreate_idle s name entry hk hc
  | yield esp =>
    cases hs
    obtain ⟨cur,hcur⟩ := h.current
    unfold Idle
    rw [(saveContext_slot esp _ k).1]
    exact schedule_idle (h.pre hcur) hk
  | exit code esp =>
    cases hs
    unfold Idle
    rw [(saveContext_slot esp _ k).1]
    exact procExit_idle h code hk
  | reap =>
    simp only [procStep] at hs
    split_ifs at hs
    cases hs
    unfold Idle reapZombies
    dsimp only
    split_ifs
    · exact Or.inr rfl
    · exact hk
  | release child =>
    simp only [procStep] at hs
    split_ifs at hs
    cases hs
    unfold Idle Procs.setState
    rw [setProc_apply]
    split_ifs
    · exact Or.inr rfl
    · exact hk

/-- The same from the invariant. -/
theorem procStep_idle {n : ℕ} {s t : Procs} (h : ProcInv n s) (op : ProcOp)
    (hs : procStep s op=some t) {k : ProcSlot} (hk : Idle s k) (hc : createdSlot s op≠some k) :
    Idle t k := h.sched.step_idle op hs hk hc

/-- The child that prog_exec finds after a creation is the slot it was created
in, which is not slot zero. -/
theorem execChild_launch {n : ℕ} {s : Procs} (h : ProcInv n s) {k : ProcSlot}
    (hk : firstUnused s=some k) (name : CStr) (entry : Word) :
    execChild (launch s k name entry) s.nextPid=some k ∧ k≠0 := by
  refine ⟨?_,(firstUnused_unused hk).1⟩
  have hpid : ∀ j,((launch s k name entry).procs j).pid=s.nextPid ↔ j=k := by
    intro j
    rw [(launch_slot s k name entry j).2]
    by_cases hj : j=k
    · rw [if_pos hj]
      exact iff_of_true rfl hj
    · rw [if_neg hj]
      exact iff_of_false (h.nextPid_fresh j) hj
  cases hf : execChild (launch s k name entry) s.nextPid with
  | none =>
    have hn := List.find?_eq_none.mp hf k (List.mem_finRange k)
    simp [(hpid k).mpr rfl] at hn
  | some j =>
    have hj := List.find?_some hf
    rw [(hpid j).mp (of_decide_eq_true hj)]

/-- The invariant holds in every reachable state while pids last. -/
theorem reachable_procInv {n : ℕ} {s : Procs} (hr : Reachable n s) (hn : n<2^31-1) : ProcInv n s := by
  induction hr with
  | init s hs => exact procInit_inv hs
  | @step m s t op _ hs ih =>
    have hle : m ≤ creations s op m := by
      unfold creations
      split_ifs <;> omega
    exact procStep_inv (ih (by omega)) op hs (by omega)

/-- Along a part of a run an idle slot stays idle while nothing is created in
it. -/
theorem segment_idle {k : ProcSlot} {m n : ℕ} {u s : Procs} (hu : Reachable m u) (hk : Idle u k)
    (hseg : Segment k m u n s) (hn : n<2^31-1) : Reachable n s ∧ Idle s k := by
  induction hseg with
  | refl => exact ⟨hu,hk⟩
  | @step i t v op _ hs hc ih =>
    have hle : i ≤ creations t op i := by
      unfold creations
      split_ifs <;> omega
    obtain ⟨ht,hidle⟩ := ih (by omega)
    exact ⟨Reachable.step op ht hs,procStep_idle (reachable_procInv ht (by omega)) op hs hidle hc⟩

/-- What holds of the process table in every reachable state. -/
structure TableSafe (s : Procs) : Prop where
  /-- Exactly one slot is running and it is the current one. -/
  running : ∃ cur,s.currentProc=some cur ∧ ∀ k,(s.procs k).state=.running ↔ k=cur
  /-- Slot zero is ready or running and has pid zero. -/
  kernel : ((s.procs 0).state=.ready ∨ (s.procs 0).state=.running) ∧ (s.procs 0).pid=0
  /-- Slots in use have pairwise different pids. -/
  pidDistinct : ∀ j k,(s.procs j).state≠.unused→(s.procs k).state≠.unused→j≠k→
    (s.procs j).pid≠(s.procs k).pid
  /-- Slots in use behind slot zero have a nonzero pid. -/
  pidNonzero : ∀ k,k≠0→(s.procs k).state≠.unused→(s.procs k).pid≠0
  /-- The TSS holds the top of the current user process's kernel stack. -/
  stack : ∀ k,k≠0→s.currentProc=some k→s.esp0=kernelStack s k+procKstackSz
  /-- A process with a pid that exits leaves another slot current. -/
  exitLeaves : ∀ cur code,s.currentProc=some cur→(s.procs cur).pid≠0→
    ∃ next,next≠cur ∧ (procExit s code).1.currentProc=some next
  /-- schedule never enters its fallback, neither from a yield nor an exit. -/
  noFallback : ∀ cur,s.currentProc=some cur→¬InFallback s cur ∧
    ∀ code,(s.procs cur).pid≠0→¬InFallback (exited s cur code) cur

/-- The invariant makes the table safe. -/
theorem ProcInv.tableSafe {n : ℕ} {s : Procs} (h : ProcInv n s) : TableSafe s where
  running := by
    obtain ⟨cur,hc⟩ := h.current
    refine ⟨cur,hc,fun k => ?_⟩
    rw [h.running k,hc,Option.some.injEq,eq_comm]
  kernel := ⟨h.kernelState,h.pids.kernelPid⟩
  pidDistinct := fun j k hj hk hne he => hne (h.pids.distinct j k hj hk he)
  pidNonzero := h.pids.nonzero
  stack := h.stack
  exitLeaves := by
    intro cur code hc hp
    have hpre := h.sched.pre_exited hc hp code
    have hrun : procExit s code=schedule (exited s cur code) := by
      unfold procExit
      rw [hc]
      exact if_neg hp
    cases hn : nextReady (exited s cur code) cur with
    | none =>
      have hr := hpre.running_of_none hn
      unfold exited at hr
      rw [setProc_apply,if_pos rfl] at hr
      cases hr
    | some next =>
      have hne := hpre.next_ne hn
      obtain ⟨_,_,hcur,_⟩ := schedule_to hpre.current hn hne
      exact ⟨next,hne,by rw [hrun,hcur]⟩
  noFallback := fun _ hc =>
    ⟨(h.sched.pre hc).not_inFallback,fun code hp => (h.sched.pre_exited hc hp code).not_inFallback⟩

/-- In every run with fewer than 2^31-1 creations the table is safe, and a slot
that was a zombie or unused is not running again unless a process was created
in it since. -/
theorem proc_table_safe_of_reachable {n : ℕ} {s : Procs} (hr : Reachable n s) (hn : n<2^31-1) :
    TableSafe s ∧ ∀ k m u,Reachable m u→Idle u k→Segment k m u n s→(s.procs k).state≠.running := by
  refine ⟨(reachable_procInv hr hn).tableSafe,?_⟩
  intro k m u hu hk hseg hrun
  obtain ⟨_,hidle⟩ := segment_idle hu hk hseg hn
  rcases hidle with hi|hi
  · rw [hrun] at hi
    cases hi
  · rw [hrun] at hi
    cases hi

/-- Zeroed statics with the pid counter at one, the table at 0x110000. -/
def bootProcs : Procs where
  procs := fun _ => ⟨0,fun _ => 0,.unused,0,0,0⟩
  currentProc := none
  nextPid := 1
  childParent := fun _ => 0
  esp0 := 0
  mem := fun _ => 0
  base := 0x110000
  trapret := 0x101000

/-- The kernel creates a process and yields to it. -/
def firstSwitch : Procs :=
  saveContext 0x90000 (procYield (procCreate (procInit bootProcs) kernelName 0x08000000).1)

/-- The table is safe after the first switch to a user process. -/
theorem proc_table_safe_after_firstSwitch :
    Reachable 1 firstSwitch ∧ firstSwitch.currentProc=some 1 ∧ TableSafe firstSwitch := by
  have hcreate : Reachable 1 (procCreate (procInit bootProcs) kernelName 0x08000000).1 :=
    Reachable.step (.create kernelName 0x08000000) (Reachable.init bootProcs rfl) rfl
  have hswitch : Reachable 1 firstSwitch := Reachable.step (.yield 0x90000) hcreate rfl
  exact ⟨hswitch,by decide,(proc_table_safe_of_reachable hswitch (by decide)).1⟩

end EronKernel.ProcInvariant

import EronKernel.ProcInvariant
import EronKernel.RankedRun

/-!
# The round robin

schedule picks the ready slot behind the current one that comes first in
cyclic order. A ready slot that is passed over is nearer to the new current
slot than to the old one, and no other step moves it, so that it runs after at
most fifteen calls of schedule. None of this depends on how many processes
were created before.
-/

namespace EronKernel.ProcFairness

open ByteMemory CString ProcModel ProcInvariant RankedRun

/-- How far a slot is behind the current one, in cyclic order. -/
def distance (cur k : ProcSlot) : ℕ := (k.val+16-cur.val)%16

/-- One step of any process; creating and reaping do not ask which process is
current, and a slot is released only if it is neither ready nor running. -/
def tableStep (s : Procs) : ProcOp→Option Procs
  | .create name entry => some (procCreate s name entry).1
  | .yield esp => some (saveContext esp (procYield s))
  | .exit code esp => some (saveContext esp (procExit s code))
  | .reap => some (reapZombies s)
  | .release child =>
    if child.val≠0 ∧ ¬((s.procs child).state=.ready ∨ (s.procs child).state=.running) then
      some (s.setState child .unused)
    else none

/-- The states after proc_init and any steps. -/
inductive Reached : Procs→Prop where
  /-- The state after proc_init. -/
  | init (s : Procs) : Reached (procInit s)
  /-- One more step. -/
  | step {s t : Procs} (op : ProcOp) : Reached s→tableStep s op=some t→Reached t

/-- A step that can happen in the kernel is one of them. -/
theorem tableStep_of_procStep {s t : Procs} {op : ProcOp} (h : procStep s op=some t) :
    tableStep s op=some t := by
  cases op with
  | create name entry | reap =>
    simp only [procStep] at h
    split_ifs at h
    exact h
  | yield esp | exit code esp => exact h
  | release child =>
    simp only [procStep] at h
    split_ifs at h with hc
    cases h
    exact if_pos ⟨fun he => hc.2.1 (Fin.ext he),hc.2.2⟩

/-- Every state that the kernel can reach is among them. -/
theorem reached_of_reachable {n : ℕ} {s : Procs} (h : Reachable n s) : Reached s := by
  induction h with
  | init s _ => exact Reached.init s
  | step op _ hs ih => exact Reached.step op ih (tableStep_of_procStep hs)

/-- timer_tick, as far as the process table goes: every tenth tick that
interrupts user mode calls schedule. -/
def timerTick (ticks cs esp : Word) (s : Procs) : Word×Procs :=
  (ticks+1,if cs&&&3=3 ∧ (ticks+1)%10=0 then saveContext esp (schedule s) else s)

/-- A timer interrupt is a step that yields, or none. -/
theorem Reached.timerTick {s : Procs} (h : Reached s) (ticks cs esp : Word) :
    Reached (timerTick ticks cs esp s).2 := by
  unfold ProcFairness.timerTick
  dsimp only
  split_ifs
  · exact Reached.step (.yield esp) h rfl
  · exact h

/-- The distance is below the number of slots. -/
theorem distance_lt (cur k : ProcSlot) : distance cur k<16 := Nat.mod_lt _ (by decide)

/-- Another slot is at least one step away. -/
theorem distance_pos {cur k : ProcSlot} (h : k≠cur) : 0<distance cur k := by
  have hne : k.val≠cur.val := fun he => h (Fin.ext he)
  have hc := cur.isLt
  have hk := k.isLt
  unfold distance
  omega

/-- Slots at different distances. -/
theorem distance_ne (cur : ProcSlot) {j k : ProcSlot} (h : j≠k) : distance cur j≠distance cur k := by
  have hne : j.val≠k.val := fun he => h (Fin.ext he)
  have hc := cur.isLt
  have hj := j.isLt
  have hk := k.isLt
  unfold distance
  omega

/-- Seen from a slot on the way, a slot behind it is nearer. -/
theorem distance_from {cur next k : ProcSlot} (hlt : distance cur next<distance cur k) :
    distance next k+distance cur next=distance cur k := by
  have hc := cur.isLt
  have hn := next.isLt
  have hk := k.isLt
  unfold distance at hlt⊢
  omega

/-- The slots in front of the one that is found are not ready. -/
theorem nextReady_first {s : Procs} {cur next : ProcSlot} (h : nextReady s cur=some next)
    {j : ProcSlot} (hj : (s.procs j).state=.ready) (hjc : j≠cur) :
    distance cur next ≤ distance cur j := by
  unfold nextReady roundRobin at h
  rw [List.find?_map,Option.map_eq_some_iff] at h
  obtain ⟨i,hi,rfl⟩ := h
  obtain ⟨_,hmem,hfirst⟩ := List.find?_range_eq_some.mp hi
  have hlt : i<16 := List.mem_range.mp hmem
  have hpos := distance_pos hjc
  have hbound := distance_lt cur j
  have hat : Fin.ofNat 16 (cur.val+(distance cur j-1+1))=j := by
    have hc := cur.isLt
    have hj := j.isLt
    apply Fin.ext
    unfold distance at hpos⊢
    simp only [Fin.ofNat]
    omega
  have hle : i ≤ distance cur j-1 := by
    by_contra hgt
    have hnot := hfirst (distance cur j-1) (by omega)
    dsimp only [Function.comp_apply] at hnot
    rw [hat,hj] at hnot
    exact absurd hnot (by decide)
  have hdist : distance cur (Fin.ofNat 16 (cur.val+(i+1)))=i+1 := by
    have hc := cur.isLt
    unfold distance
    simp only [Fin.ofNat]
    omega
  omega

/-- What a call of schedule by a slot does. -/
structure RoundRobin (s : Procs) (cur : ProcSlot) : Prop where
  /-- If a slot is ready, schedule switches to the nearest one: it becomes
  running and current, the slot that was left becomes ready if it was running,
  and the other slots keep their states. -/
  switches : (∃ k,(s.procs k).state=.ready)→
    ∃ next,(s.procs next).state=.ready ∧ 1≤distance cur next ∧ distance cur next≤15 ∧
      (∀ j,(s.procs j).state=.ready→j≠next→distance cur next<distance cur j) ∧
      (schedule s).1.currentProc=some next ∧ (schedule s).2=some ⟨cur,(s.procs next).ctx⟩ ∧
      ∀ j,((schedule s).1.procs j).state=
        if j=next then .running
        else if j=cur ∧ (s.procs cur).state=.running then .ready else (s.procs j).state
  /-- If none is, schedule changes nothing. -/
  stays : (∀ k,(s.procs k).state≠.ready)→schedule s=(s,none)
  /-- A ready slot that was not chosen stays ready and is nearer to the new
  current slot. -/
  nearer : ∀ k next,(s.procs k).state=.ready→(schedule s).1.currentProc=some next→ k≠next→
    ((schedule s).1.procs k).state=.ready ∧ distance next k<distance cur k

/-- A ready slot is not the one that calls schedule. -/
theorem ready_ne_cur {s : Procs} {cur k : ProcSlot} (h : SchedPre s cur)
    (hk : (s.procs k).state=.ready) : k≠cur := by
  rintro rfl
  rcases h.curState with hs|⟨hs,_⟩
  · rw [hk] at hs
    cases hs
  · rw [hk] at hs
    cases hs

/-- A call of schedule, by a running process or an exiting one. -/
theorem roundRobin_of_pre {s : Procs} {cur : ProcSlot} (h : SchedPre s cur) : RoundRobin s cur := by
  cases hn : nextReady s cur with
  | none =>
    have hno : ∀ k,(s.procs k).state≠.ready := by
      intro k hk
      obtain ⟨j,hj⟩ := nextReady_of_ready cur hk
      rw [hn] at hj
      cases hj
    exact ⟨fun ⟨k,hk⟩ => absurd hk (hno k),fun _ => schedule_none h hn,fun k _ hk => absurd hk (hno k)⟩
  | some next =>
    have hready := nextReady_ready hn
    have hne := h.next_ne hn
    obtain ⟨hstate,_,hcur,_,_,_,hswitch⟩ := schedule_to h.current hn hne
    have hfirst : ∀ j,(s.procs j).state=.ready→ j≠next→distance cur next<distance cur j := by
      intro j hj hjn
      have hle := nextReady_first hn hj (ready_ne_cur h hj)
      have hdiff := distance_ne cur hjn
      omega
    refine ⟨fun _ => ?_,fun hno => absurd hready (hno next),?_⟩
    · have hpos := distance_pos hne
      have hlt := distance_lt cur next
      exact ⟨next,hready,hpos,by omega,hfirst,hcur,hswitch,hstate⟩
    · intro k v hk hv hkv
      rw [hcur] at hv
      cases hv
      have hlt := hfirst k hk hkv
      have hfrom := distance_from hlt
      have hpos := distance_pos hne
      rw [hstate,if_neg hkv,if_neg fun hkc => ready_ne_cur h hk hkc.1]
      exact ⟨hk,by omega⟩

/-- Whether a step calls schedule; proc_exit does unless the current process
has pid zero. -/
def callsSchedule (s : Procs) : ProcOp→Bool
  | .yield _ => true
  | .exit _ _ => s.currentProc.any fun cur => (s.procs cur).pid≠0
  | _ => false

/-- A step that leaves the current slot and the ready ones alone. -/
structure Quiet (s t : Procs) : Prop where
  /-- The scheduler goes on working. -/
  sched : SchedInv t
  /-- The current slot. -/
  current : t.currentProc=s.currentProc
  /-- The ready slots, of which there may be more. -/
  ready : ∀ k,(s.procs k).state=.ready→(t.procs k).state=.ready

/-- A step that ends in a call of schedule, from a state with the same ready
slots. -/
structure Dispatches (s t u : Procs) (cur : ProcSlot) (esp : Word) : Prop where
  /-- The slot that calls schedule. -/
  current : s.currentProc=some cur
  /-- The state in which it does. -/
  pre : SchedPre u cur
  /-- The ready slots. -/
  ready : ∀ k,(s.procs k).state=.ready→(u.procs k).state=.ready
  /-- The state that schedule leaves. -/
  result : t=saveContext esp (schedule u)

/-- Creating a process is quiet. -/
theorem quiet_create {s : Procs} (h : SchedInv s) (name : CStr) (entry : Word) :
    Quiet s (procCreate s name entry).1 := by
  rcases procCreate_cases s name entry with ⟨_,hrun⟩|⟨j,_,hj,hrun⟩
  · rw [hrun]
    exact ⟨h,rfl,fun _ hk => hk⟩
  · rw [hrun]
    refine ⟨h.launch hj name entry,rfl,fun k hk => ?_⟩
    rw [(launch_slot s j name entry k).1]
    split_ifs
    · rfl
    · exact hk

/-- A step that at most frees slots is quiet when it frees none that is
ready. -/
theorem quiet_free {s t : Procs} (h : SchedInv s)
    (hfreed : ∀ k,((t.procs k).state=(s.procs k).state) ∨
      (k≠0 ∧ (s.procs k).state≠.running ∧ (t.procs k).state=.unused))
    (hpid : ∀ k,(t.procs k).pid=(s.procs k).pid) (hcur : t.currentProc=s.currentProc)
    (hready : ∀ k,(s.procs k).state=.ready→(t.procs k).state=.ready) : Quiet s t :=
  ⟨h.free hfreed hpid hcur,hcur,hready⟩

/-- proc_exit does nothing for slot zero's pid, and otherwise ends in a call
of schedule. -/
theorem exit_cases {s : Procs} (h : SchedInv s) (code esp : Word) :
    (callsSchedule s (.exit code esp)=false ∧ Quiet s (saveContext esp (procExit s code))) ∨
    callsSchedule s (.exit code esp)=true ∧
      ∃ u cur,Dispatches s (saveContext esp (procExit s code)) u cur esp := by
  obtain ⟨cur,hc⟩ := h.current
  have hcalls : callsSchedule s (.exit code esp)=decide ((s.procs cur).pid≠0) := by
    unfold callsSchedule
    rw [hc]
    rfl
  unfold procExit
  rw [hc,hcalls]
  dsimp only
  by_cases hpid : (s.procs cur).pid=0
  · rw [if_pos hpid]
    exact Or.inl ⟨decide_eq_false (not_not.mpr hpid),h.save esp,rfl,fun _ hk => hk⟩
  · rw [if_neg hpid]
    refine Or.inr ⟨decide_eq_true hpid,exited s cur code,cur,hc,h.pre_exited hc hpid code,?_,rfl⟩
    intro k hk
    rw [(exited_slot s cur code k).1,if_neg (ready_ne_cur (h.pre hc) hk)]
    exact hk

/-- Every step is quiet and calls schedule not at all, or ends in a call of
schedule. -/
theorem tableStep_cases {s t : Procs} {op : ProcOp} (h : SchedInv s) (hs : tableStep s op=some t) :
    (callsSchedule s op=false ∧ Quiet s t) ∨
    callsSchedule s op=true ∧ ∃ u cur esp,Dispatches s t u cur esp := by
  cases op with
  | create name entry =>
    cases hs
    exact Or.inl ⟨rfl,quiet_create h name entry⟩
  | yield esp =>
    cases hs
    obtain ⟨cur,hc⟩ := h.current
    exact Or.inr ⟨rfl,s,cur,esp,hc,h.pre hc,fun _ hk => hk,rfl⟩
  | exit code esp =>
    cases hs
    rcases exit_cases h code esp with hquiet|⟨hcalls,u,cur,hd⟩
    · exact Or.inl hquiet
    · exact Or.inr ⟨hcalls,u,cur,esp,hd⟩
  | reap =>
    cases hs
    refine Or.inl ⟨rfl,quiet_free h (reapZombies_freed s) (reapZombies_pid s) rfl fun k hk => ?_⟩
    simp [reapZombies,hk]
  | release child =>
    simp only [tableStep] at hs
    split_ifs at hs with hchild
    cases hs
    have h0 : child≠0 := fun he => hchild.1 (congrArg Fin.val he)
    have hrun : (s.procs child).state≠.running := fun hr => hchild.2 (Or.inr hr)
    refine Or.inl ⟨rfl,quiet_free h (release_freed h0 hrun) (release_pid s child) rfl fun k hk => ?_⟩
    have hkc : k≠child := by
      rintro rfl
      exact hchild.2 (Or.inl hk)
    unfold Procs.setState
    rw [setProc_apply,if_neg hkc]
    exact hk

/-- What the scheduler relies on is kept by every step. -/
theorem tableStep_sched {s t : Procs} {op : ProcOp} (h : SchedInv s) (hs : tableStep s op=some t) :
    SchedInv t := by
  rcases tableStep_cases h hs with ⟨_,hquiet⟩|⟨_,u,cur,esp,hd⟩
  · exact hquiet.sched
  · rw [hd.result]
    exact (schedule_sched hd.pre).save esp

/-- Every state that can be reached satisfies it. -/
theorem Reached.sched {s : Procs} (h : Reached s) : SchedInv s := by
  induction h with
  | init s => exact procInit_sched s
  | step op _ hs ih => exact tableStep_sched ih hs

/-- A slot waits for the processor. -/
def Waits (k : ProcSlot) (s : Procs) : Prop := SchedInv s ∧ (s.procs k).state=.ready

/-- How far a slot is behind whatever slot is current. -/
def rank (k : ProcSlot) (s : Procs) : ℕ := (s.currentProc.map fun cur => distance cur k).getD 0

/-- The rank is the distance from the current slot. -/
theorem rank_eq {s : Procs} {cur : ProcSlot} (hc : s.currentProc=some cur) (k : ProcSlot) :
    rank k s=distance cur k := by
  unfold rank
  rw [hc]
  rfl

/-- A call of schedule runs a ready slot or brings it nearer. -/
theorem waits_of_dispatches {k cur : ProcSlot} {s t u : Procs} {esp : Word} (h : Dispatches s t u cur esp)
    (hk : (s.procs k).state=.ready) :
    (t.procs k).state=.running ∨ (Waits k t ∧ rank k t+1 ≤ distance cur k) := by
  have hrobin := roundRobin_of_pre h.pre
  have hku := h.ready k hk
  obtain ⟨next,_,_,_,_,hcur,_,hstate⟩ := hrobin.switches ⟨k,hku⟩
  rw [h.result]
  by_cases hkn : k=next
  · left
    rw [(saveContext_slot esp _ k).1,hstate,if_pos hkn]
  · obtain ⟨hready,hlt⟩ := hrobin.nearer k next hku hcur hkn
    refine Or.inr ⟨⟨(schedule_sched h.pre).save esp,?_⟩,?_⟩
    · rw [(saveContext_slot esp _ k).1]
      exact hready
    · rw [rank_eq ((saveContext_currentProc esp _).trans hcur)]
      exact hlt

/-- A ready slot waits with its distance as rank, and calls of schedule are
the ticks. -/
theorem ranked_waits (k : ProcSlot) :
    Ranked tableStep callsSchedule (Waits k) (fun s => (s.procs k).state=.running) (rank k) where
  positive := by
    intro s h
    obtain ⟨cur,hc⟩ := h.1.current
    rw [rank_eq hc]
    exact distance_pos (ready_ne_cur (h.1.pre hc) h.2)
  lower := by
    intro s op t h hs
    unfold tickCount
    rcases tableStep_cases h.1 hs with ⟨hcalls,hquiet⟩|⟨hcalls,u,cur,esp,hd⟩
    · refine Or.inr ⟨⟨hquiet.sched,hquiet.ready k h.2⟩,?_⟩
      rw [hcalls,rank,hquiet.current]
      exact Nat.le_refl _
    · rw [hcalls,rank_eq hd.current]
      exact waits_of_dispatches hd h.2

/-- A slot runs within some number of calls of schedule: every run that calls
schedule that often runs the slot on its way. -/
def RunsWithin (n : ℕ) (k : ProcSlot) (s : Procs) : Prop :=
  ∀ ops t,runSteps tableStep s ops=some t→n ≤ ticks tableStep callsSchedule s ops→
    ∃ front back u,ops=front++back ∧ runSteps tableStep s front=some u ∧
      (u.procs k).state=.running ∧ ticks tableStep callsSchedule s front ≤ n

/-- In every state that can be reached, a call of schedule, from the current
process or from its proc_exit, goes round robin, and every ready slot runs
within as many calls as it is far behind the current one, which are at most
fifteen. -/
theorem schedule_round_robin_of_reached {s : Procs} (h : Reached s) {cur : ProcSlot}
    (hc : s.currentProc=some cur) :
    RoundRobin s cur ∧
      (∀ code,(s.procs cur).pid≠0→RoundRobin (exited s cur code) cur) ∧
      ∀ k,(s.procs k).state=.ready→distance cur k≤15 ∧ ∀ n,distance cur k ≤ n→RunsWithin n k s := by
  have hsched := h.sched
  refine ⟨roundRobin_of_pre (hsched.pre hc),
    fun code hpid => roundRobin_of_pre (hsched.pre_exited hc hpid code),?_⟩
  intro k hk
  have hrank := rank_eq hc k
  have hlt := distance_lt cur k
  refine ⟨by omega,fun n hn ops t hrun hticks => ?_⟩
  obtain ⟨front,back,u,hsplit,hfront,hstate,hle⟩ :=
    (ranked_waits k).reaches ops ⟨hsched,hk⟩ hrun (by omega)
  exact ⟨front,back,u,hsplit,hfront,hstate,by omega⟩

/-- Two processes were created and wait behind slot zero. -/
def twoReady : Procs :=
  (procCreate (procCreate (procInit bootProcs) kernelName 0x08000000).1 kernelName 0x08001000).1

/-- The second of two new processes runs within fifteen calls of schedule. -/
theorem schedule_round_robin_twoReady : RoundRobin twoReady 0 ∧ RunsWithin 15 2 twoReady := by
  have hinit : Reached (procInit bootProcs) := Reached.init bootProcs
  have hone := Reached.step (.create kernelName 0x08000000) hinit rfl
  have htwo : Reached twoReady := Reached.step (.create kernelName 0x08001000) hone rfl
  obtain ⟨hrobin,_,hready⟩ := schedule_round_robin_of_reached htwo (show twoReady.currentProc=some 0 from rfl)
  obtain ⟨hbound,hruns⟩ := hready 2 (by decide)
  exact ⟨hrobin,hruns 15 hbound⟩

end EronKernel.ProcFairness

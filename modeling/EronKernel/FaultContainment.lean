import EronKernel.SystemInvariant

/-!
# Faults of user programs

A fault in user mode is reported with its name, the pid, the address in eight
hexadecimal digits and, where the processor gives one, the error code. It ends
the process that made it and nothing else: another process runs, the other
slots, memory, heap and files are as they were, and the process does not get
the processor again until its slot is used for a new one.
-/

namespace EronKernel.FaultContainment

open ByteMemory CString BoundedCells TtyModel DecimalPrinters ProcFiles ProcModel ProcInvariant SyscallModel
  InterruptModel SystemModel SystemSteps SystemInvariant

variable {F : Type} {L : Layout} {fuel : ℕ}

/-- The eight digits of a word in base sixteen, the first one first. -/
def hexText (v : Word) : List Byte :=
  (List.range 8).map fun i => hexDigits.getD (v.toNat/16^(7-i)%16) 0

/-- No digit ends a string. -/
theorem zero_notMem_hexText (v : Word) : (0 : Byte)∉hexText v := by
  have hdigit : ∀ d<16,hexDigits.getD d 0≠0 := by decide
  unfold hexText
  intro h
  obtain ⟨i,_,hi⟩ := List.mem_map.mp h
  exact hdigit _ (Nat.mod_lt _ (by decide)) hi

/-- The digits as a string. -/
def hexStr (v : Word) : CStr := ⟨hexText v,zero_notMem_hexText v⟩

/-- The value of a digit character. -/
def digitValue (c : Byte) : ℕ := hexDigits.idxOf c

/-- The number that digits in base sixteen stand for. -/
def hexValue (digits : List Byte) : ℕ := digits.foldl (fun n c => 16*n+digitValue c) 0

/-- The digits stand for the word. -/
theorem hexValue_hexText (v : Word) : hexValue (hexText v)=v.toNat := by
  have hdigit : ∀ d<16,digitValue (hexDigits.getD d 0)=d := by decide
  have hvalue : ∀ n,digitValue (hexDigits.getD (n%16) 0)=n%16 := fun n => hdigit _ (Nat.mod_lt n (by decide))
  have hlt := v.isLt
  have hrange : List.range 8=[0,1,2,3,4,5,6,7] := rfl
  unfold hexValue hexText
  rw [hrange]
  simp only [List.map_cons,List.map_nil,List.foldl_cons,List.foldl_nil,hvalue]
  omega

/-- The loop of print_hex from below an index on. -/
theorem hexLoop_eq (i : ℕ) : ∀ {v : Word} {h : Row 9},i≤9→
    hexLoop i v h=
      some fun k => if k.val < i then hexDigits.getD (v.toNat/16^(i-1-k.val)%16) 0 else h k := by
  induction i with
  | zero =>
    intro v h _
    rfl
  | succ i ih =>
    intro v h hi
    have hlow : (v&&&0xF).toNat=v.toNat%16 := by
      rw [BitVec.toNat_and]
      exact Nat.and_two_pow_sub_one_eq_mod _ 4
    have hhigh : (v>>>4).toNat=v.toNat/16 := by
      rw [BitVec.toNat_ushiftRight,Nat.shiftRight_eq_div_pow]
    rw [hexLoop,put_of_lt h (by omega),Option.bind_some,ih (by omega)]
    congr 1
    funext k
    by_cases hk : k.val < i
    · have hpow : 16*16^(i-1-k.val)=16^(i+1-1-k.val) := by
        rw [show i+1-1-k.val=i-1-k.val+1 by omega,pow_succ,Nat.mul_comm]
      rw [if_pos hk,if_pos (by omega),hhigh,Nat.div_div_eq_div_mul,hpow]
    · rw [if_neg hk]
      have hlt : i < 9 := hi
      by_cases hlast : k=⟨i,hlt⟩
      · subst hlast
        rw [Function.update_self,if_pos (Nat.lt_succ_self i),hlow]
        simp
      · have hne : k.val≠i := fun he => hlast (Fin.ext he)
        rw [Function.update_of_ne hlast,if_neg (by omega)]

/-- print_hex writes the eight digits. -/
theorem printHex_eq (h : Row 9) (v : Word) (t : Terminal) :
    printHex h v t=some (TtyModel.terminalWritestring t (hexStr v)) := by
  have hlen : (hexText v).length=8 := by
    unfold hexText
    rw [List.length_map,List.length_range]
  have hrow : Function.update (fun k : Fin 9 =>
        if k.val<8 then hexDigits.getD (v.toNat/16^(8-1-k.val)%16) 0 else h k) ⟨8,by decide⟩ 0=
      copyRow h (hexText v) := by
    funext k
    have hk := k.isLt
    unfold copyRow
    by_cases hlt : k.val<8
    · have hne : k≠⟨8,by decide⟩ := fun he => by simp [he] at hlt
      rw [Function.update_of_ne hne,if_pos hlt,dif_pos (by omega)]
      unfold hexText
      rw [List.getElem_map,List.getElem_range]
    · have hval : k.val=8 := by omega
      have he : k=⟨8,by decide⟩ := Fin.ext hval
      subst he
      rw [Function.update_self,dif_neg (by rw [hlen]; exact Nat.lt_irrefl 8),if_pos hlen.symm]
  unfold printHex
  rw [hexLoop_eq 8 (by decide),Option.bind_some,put_of_lt _ (by decide),Option.map_some,hrow,
    rowStr_copyRow h (show (hexText v).length<9 by omega)]
  exact congrArg (fun s => some (TtyModel.terminalWritestring t s)) (CStr.ofBytes_self (hexStr v))

/-- The text of a report between its two colours. -/
def reportText (pid : Word) (f : InterruptFrame) : List Byte :=
  (CStr.lit "\n[fault] ").bytes++(faultName f.intNo).bytes++(CStr.lit " in pid ").bytes++decimal pid.toNat++
    (CStr.lit " at 0x").bytes++hexText f.eip++
    (if f.intNo=13 ∨ f.intNo=14 then (CStr.lit " err=0x").bytes++hexText f.errCode else [])

/-- The terminal after a report. -/
def reported (pid : Word) (f : InterruptFrame) (t : Terminal) : Terminal :=
  let t := terminalSetcolor t (vgaEntryColor vgaColorLightRed vgaColorBlack)
  let t := (reportText pid f).foldl terminalPutchar t
  let t := terminalSetcolor t (vgaEntryColor vgaColorLightGrey vgaColorBlack)
  TtyModel.terminalWritestring t (.lit "\n")

/-- A report writes its text, whatever the printers' arrays held. -/
theorem reportFault_eq (sc : Scratch) (pid : Word) (f : InterruptFrame) (t : Terminal) :
    reportFault sc (some pid) f t=some (reported pid f t) := by
  unfold reportFault reported reportText
  simp only [printDec_eq,printHex_eq,Option.bind_some]
  split_ifs
  · simp only [Option.map_some,TtyModel.terminalWritestring,List.foldl_append]
    rfl
  · simp only [Option.map_some,TtyModel.terminalWritestring,List.foldl_append,List.foldl_nil]
    rfl

/-- The slots that schedule leaves as they are. -/
theorem schedule_slot {s : Procs} {cur next k : ProcSlot} (hc : s.currentProc=some cur)
    (hn : nextReady s cur=some next) (hne : next≠cur) (hk : k≠next)
    (hrunning : ¬(k=cur ∧ (s.procs cur).state=.running)) : (schedule s).1.procs k=s.procs k := by
  have hslot : nextSlot s cur=some next := by
    unfold nextSlot
    rw [hn]
  have hother : ∀ (t : Procs) (j : ProcSlot) (state : ProcState),k≠j→(t.setState j state).procs k=t.procs k :=
    fun t j state hj => (setProc_apply t j k _).trans (if_neg hj)
  unfold schedule
  rw [hc]
  dsimp only
  rw [hslot]
  dsimp only
  rw [if_neg hne,apply_ite Procs.procs,ite_self,hother _ _ _ hk]
  split_ifs with hr
  · exact hother _ _ _ fun he => hrunning ⟨he,hr⟩
  · rfl

/-- A process with a pid that exits gives the processor to another slot. -/
theorem procExit_next {s : Procs} (h : SchedInv s) {cur : ProcSlot} (hc : s.currentProc=some cur)
    (hpid : (s.procs cur).pid≠0) (code : Word) :
    ∃ next,procExit s code=schedule (exited s cur code) ∧ SchedPre (exited s cur code) cur ∧
      nextReady (exited s cur code) cur=some next ∧ next≠cur ∧ (s.procs next).state=.ready := by
  have hpre := h.pre_exited hc hpid code
  have hrun : procExit s code=schedule (exited s cur code) := by
    unfold procExit exited
    rw [hc]
    exact if_neg hpid
  cases hn : nextReady (exited s cur code) cur with
  | none =>
    have hrunning := hpre.running_of_none hn
    rw [(exited_slot s cur code cur).1,if_pos rfl] at hrunning
    cases hrunning
  | some next =>
    have hne := hpre.next_ne hn
    have hready := nextReady_ready hn
    rw [(exited_slot s cur code next).1,if_neg hne] at hready
    exact ⟨next,hrun,hpre,rfl,hne,hready⟩

/-- What a fault of the current process leaves. -/
structure Contained (m n : Machine F) (cur : ProcSlot) (f : InterruptFrame) : Prop where
  /-- The process is a zombie. -/
  zombie : (n.system.kernel.procs.procs cur).state=.zombie
  /-- Its exit code. -/
  exitCode : (n.system.kernel.procs.procs cur).exitCode=-1
  /-- Another slot that was ready has the processor. -/
  next : ∃ j,j≠cur ∧ (m.system.kernel.procs.procs j).state=.ready ∧
    n.system.kernel.procs.currentProc=some j ∧ (n.system.kernel.procs.procs j).state=.running
  /-- The rest of the table is as it was. -/
  others : ∀ k,k≠cur→ n.system.kernel.procs.currentProc≠some k→
    n.system.kernel.procs.procs k=m.system.kernel.procs.procs k
  /-- Allocator and memory are as they were. -/
  heap : n.system.kernel.heap=m.system.kernel.heap
  /-- The file system is as it was. -/
  vfs : n.system.kernel.vfs=m.system.kernel.vfs
  /-- So are the pointers of clients. -/
  live : n.live=m.live
  /-- The report is on the terminal. -/
  terminal : n.system.keyboard.terminal=
    reported (m.system.kernel.procs.procs cur).pid f m.system.keyboard.terminal
  /-- The machine goes on. -/
  goesOn : n.system.halted=false

/-- The four faults that have a gate. -/
def IsFault (f : InterruptFrame) : Prop := f.intNo=0 ∨ f.intNo=6 ∨ f.intNo=13 ∨ f.intNo=14

/-- What the event of a user's fault is. -/
theorem step_fault {m : Machine F} (hrunning : m.system.halted=false) {cur : ProcSlot}
    (hc : m.system.kernel.procs.currentProc=some cur) {f : InterruptFrame} (hfault : IsFault f)
    (huser : f.fromUser) (sc : Scratch) (scancode : Byte) (esp : Word) :
    step L fuel m (.interrupt sc scancode f esp)=
      some ⟨switchTo ((m.system.setTerminal
          (reported (m.system.kernel.procs.procs cur).pid f m.system.keyboard.terminal)).setProcs
          (procExit m.system.kernel.procs (-1)).1) esp (procExit m.system.kernel.procs (-1)),m.live⟩ := by
  have hne : f.intNo≠32 ∧ f.intNo≠33 ∧ f.intNo≠0x80 := by
    rcases hfault with he|he|he|he <;> rw [he] <;> decide
  have hraise : raise m.system f.intNo=m.system := by
    unfold raise
    rw [if_neg hne.1,if_neg hne.2.1]
  have hpid : m.system.currentPid=some (m.system.kernel.procs.procs cur).pid := by
    unfold System.currentPid
    rw [hc,Option.map_some]
  unfold IsFault at hfault
  unfold step interruptDispatch dispatchFault
  rw [hrunning,if_neg Bool.false_ne_true]
  dsimp only
  rw [if_neg fun hs => hne.2.2 hs.1,hraise,if_pos hfault,if_pos huser,hpid,reportFault_eq,Option.map_some,
    Option.map_some]
  unfold liveAfter
  rw [if_neg hne.2.2]
  rfl

/-- A fault of the process that runs ends it and touches nothing else. -/
theorem fault_contained {m : Machine F} (h : SystemInv L m) (hrunning : m.system.halted=false)
    {cur : ProcSlot} (hc : m.system.kernel.procs.currentProc=some cur)
    (hpid : (m.system.kernel.procs.procs cur).pid≠0) {f : InterruptFrame} (hfault : IsFault f)
    (huser : f.fromUser) (sc : Scratch) (scancode : Byte) (esp : Word) :
    ∃ n,step L fuel m (.interrupt sc scancode f esp)=some n ∧ Contained m n cur f := by
  refine ⟨_,step_fault hrunning hc hfault huser sc scancode esp,?_⟩
  obtain ⟨next,hrun,hpre,hn,hne,hready⟩ := procExit_next h.procs.sched hc hpid (-1)
  obtain ⟨hstate,_,hcur,_,_,_,hswitch⟩ := schedule_to hpre.current hn hne
  have hzombie := exited_slot m.system.kernel.procs cur (-1) cur
  have hnot : ¬((exited m.system.kernel.procs cur (-1)).procs cur).state=.running := by
    rw [hzombie.1,if_pos rfl]
    decide
  have hprev : ∃ ctx,(procExit m.system.kernel.procs (-1)).2=some ⟨cur,ctx⟩ := by
    rw [hrun]
    exact ⟨_,hswitch⟩
  obtain ⟨ctx,hprev⟩ := hprev
  have hslot : ∀ k,k≠next→(procExit m.system.kernel.procs (-1)).1.procs k=
      (exited m.system.kernel.procs cur (-1)).procs k := by
    intro k hk
    rw [hrun]
    exact schedule_slot hpre.current hn hne hk fun hr => hnot hr.2
  have hsaved : ∀ k,k≠cur→(saveContext esp (procExit m.system.kernel.procs (-1))).procs k=
      (procExit m.system.kernel.procs (-1)).1.procs k := by
    intro k hk
    unfold saveContext
    rw [hprev]
    exact (setProc_apply _ cur k _).trans (if_neg hk)
  have hnext : (saveContext esp (procExit m.system.kernel.procs (-1))).currentProc=some next := by
    rw [saveContext_currentProc,hrun]
    exact hcur
  have hmem : (saveContext esp (procExit m.system.kernel.procs (-1))).mem=m.system.kernel.heap.mem := by
    rw [(saveContext_keeps esp _).1,(procExit_keeps m.system.kernel.procs (-1)).1]
    exact m.system.kernel.shared
  constructor
  · refine ((saveContext_slot esp _ cur).1.trans ?_)
    rw [hslot cur hne.symm,hzombie.1,if_pos rfl]
  · have hcode : (saveContext esp (procExit m.system.kernel.procs (-1))).procs cur=
        {(procExit m.system.kernel.procs (-1)).1.procs cur with ctx := esp} := by
      unfold saveContext
      rw [hprev]
      exact (setProc_apply _ cur cur _).trans (if_pos rfl)
    have hexit : ((exited m.system.kernel.procs cur (-1)).procs cur).exitCode=-1 := by
      unfold exited
      rw [setProc_apply,if_pos rfl]
    refine (congrArg Process.exitCode hcode).trans ?_
    dsimp only
    rw [hslot cur hne.symm,hexit]
  · refine ⟨next,hne,hready,hnext,(saveContext_slot esp _ next).1.trans ?_⟩
    rw [hrun,hstate,if_pos rfl]
  · intro k hk hcurrent
    have hother : k≠next := by
      rintro rfl
      exact hcurrent hnext
    refine (hsaved k hk).trans ?_
    rw [hslot k hother]
    exact (setProc_apply _ cur k _).trans (if_neg hk)
  · have hheap : ({m.system.kernel.heap with mem :=
        (saveContext esp (procExit m.system.kernel.procs (-1))).mem} : HeapModel.Heap)=m.system.kernel.heap := by
      rw [hmem]
    exact hheap
  · rfl
  · rfl
  · rfl
  · exact hrunning

/-- Any run in which no process is created in a slot. -/
inductive Spares (L : Layout) (fuel : ℕ) (k : ProcSlot) (m : Machine F) : Machine F→Prop where
  /-- Nothing happened. -/
  | refl : Spares L fuel k m m
  /-- One more event that does not create a process there. -/
  | step {t u : Machine F} (e : Event F) : Spares L fuel k m t→SystemModel.step L fuel t e=some u→
    (∀ op,e=.proc op→createdSlot t.system.kernel.procs op≠some k)→Spares L fuel k m u

/-- An event leaves an idle slot idle unless it creates a process there. -/
theorem step_idle {m n : Machine F} (h : SystemInv L m) {e : Event F} (hstep : step L fuel m e=some n)
    {k : ProcSlot} (hk : Idle m.system.kernel.procs k)
    (hcreate : ∀ op,e=.proc op→createdSlot m.system.kernel.procs op≠some k) : Idle n.system.kernel.procs k := by
  obtain ⟨bs,hheap⟩ := h.heap
  cases (step_effect hheap hstep).change with
  | still _ hp _ _ =>
    rw [hp]
    exact hk
  | heap c _ _ hp _ =>
    rw [hp]
    exact hk
  | proc op hop hrun _ _ _ =>
    refine h.procs.sched.step_idle op hrun hk ?_
    rcases hop with hleaves|he
    · rw [hleaves.createdSlot]
      exact nofun
    · exact hcreate op he
  | file o _ _ hp _ =>
    rw [hp]
    exact hk
  | store x b _ _ hp _ _ =>
    rw [hp]
    exact hk

/-- An idle slot does not get the processor before a process is created in
it. -/
theorem Spares.idle {m n : Machine F} {k : ProcSlot} (hr : Spares L fuel k m n) (h : SystemInv L m)
    (hk : Idle m.system.kernel.procs k) : SystemInv L n ∧ Idle n.system.kernel.procs k := by
  induction hr with
  | refl => exact ⟨h,hk⟩
  | step e _ hstep hcreate ih => exact ⟨ih.1.step hstep,step_idle ih.1 hstep ih.2 hcreate⟩

/-- In every state that a run from boot reaches, a fault that the current
process makes in user mode is survived: the event happens, the process becomes
a zombie with code -1, another ready slot gets the processor, every other slot,
memory, heap, files and clients' pointers are as they were, and the terminal
shows the report. From there the process does not run again, whatever happens,
before its slot is used for a new one. -/
theorem user_fault_contained {boot m : Machine F} (hboot : Boot L boot) (hreaches : Reaches L fuel boot m)
    (hrunning : m.system.halted=false) {cur : ProcSlot} (hc : m.system.kernel.procs.currentProc=some cur)
    (hpid : (m.system.kernel.procs.procs cur).pid≠0) {f : InterruptFrame} (hfault : IsFault f)
    (huser : f.fromUser) (sc : Scratch) (scancode : Byte) (esp : Word) :
    ∃ n,step L fuel m (.interrupt sc scancode f esp)=some n ∧ Contained m n cur f ∧
      ∀ u,Spares L fuel cur n u→u.system.kernel.procs.currentProc≠some cur := by
  have h := (boot_inv hboot).reaches hreaches
  have hfate : ∃ n,step L fuel m (.interrupt sc scancode f esp)=some n ∧ Contained m n cur f :=
    fault_contained h hrunning hc hpid hfault huser sc scancode esp
  obtain ⟨n,hstep,hcontained⟩ := hfate
  refine ⟨n,hstep,hcontained,fun u hu hcur => ?_⟩
  obtain ⟨hinv,hidle⟩ := hu.idle (h.step hstep) (Or.inl hcontained.zombie)
  have hstate := (hinv.procs.sched.running cur).mpr hcur
  unfold Idle at hidle
  rw [hstate] at hidle
  rcases hidle with hz|hz <;> cases hz

/-- A page fault at an address of user space. -/
def samplePageFault : InterruptFrame := ⟨14,4,0x0800ABCD,0x1B,⟨0,0,0,0⟩⟩

example : reportText 3 samplePageFault=
    ascii "\n[fault] page fault in pid 3 at 0x0800ABCD err=0x00000004" := by decide +kernel

/-- The created process of the sample faults in its first turn. -/
theorem sampleSwitched_faults : ∃ n,step sampleLayout 1 (sampleSwitched fun _ => 0)
      (.interrupt ⟨fun _ => 0,fun _ => 0,fun _ => 0⟩ 0 samplePageFault 0)=some n ∧
    Contained (sampleSwitched fun _ => 0) n 1 samplePageFault := by
  have hreaches : Reaches sampleLayout 1 (sampleBoot fun _ => 0) (sampleSwitched fun _ => 0) :=
    .step sampleYield (.step sampleCreate .refl (sampleBoot_creates _)) (sampleCreated_yields _)
  have hfault : IsFault samplePageFault := Or.inr (Or.inr (Or.inr rfl))
  obtain ⟨n,hstep,hcontained,_⟩ := user_fault_contained (sampleBoot_boot _) hreaches rfl rfl (by decide) hfault
    (by decide) ⟨fun _ => 0,fun _ => 0,fun _ => 0⟩ 0 0
  exact ⟨n,hstep,hcontained⟩

end EronKernel.FaultContainment

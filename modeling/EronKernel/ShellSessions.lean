import EronKernel.ShellReturns
import EronKernel.TaskRegistry

/-!
# Sessions of the shell

From boot on, with lines, scripts, interrupts, faults and system calls in any
order, a session is a run of the kernel. No line creates a process, and nothing else
does, so the shell stays the only process: the processor is never handed over
and the main loop never finds anything to reap. Every line comes to its end.
The services are as the last service commands of the session left them, and
the status shows them.
-/

namespace EronKernel.ShellSessions

open ByteMemory CString EventTrace HeapModel KeyboardModel TtyModel ProcModel ProcInvariant ProcFiles ShellModel ShellListing TaskModel
  TaskRegistry SystemModel SystemSteps SystemInvariant ShellReports ShellServices ShellMachine ShellEffects
  ShellReturns

variable {L : Layout} {fuel : ℕ}

/-- The same slots are in use. -/
def SameSlots (s t : Procs) : Prop := ∀ k,(t.procs k).state=.unused ↔ (s.procs k).state=.unused

/-- Nothing changed. -/
theorem SameSlots.refl (s : Procs) : SameSlots s s := fun _ => Iff.rfl

/-- One change after the other. -/
theorem SameSlots.trans {s t u : Procs} (h : SameSlots s t) (k : SameSlots t u) : SameSlots s u :=
  fun i => (k i).trans (h i)

/-- The same slots over another memory. -/
theorem sameSlots_mem (s : Procs) (mem : Mem) : SameSlots s {s with mem := mem} := fun _ => Iff.rfl

/-- schedule frees no slot and takes none. -/
theorem schedule_sameSlots {s : Procs} {cur : ProcSlot} (h : SchedPre s cur) :
    SameSlots s (schedule s).1 := by
  cases hn : nextReady s cur with
  | none =>
    rw [schedule_none h hn]
    exact .refl s
  | some next =>
    obtain ⟨hstate,_⟩ := schedule_to h.current hn (h.next_ne hn)
    have hready := nextReady_ready hn
    intro k
    rw [hstate k]
    split_ifs with hk hcur
    · rw [hk,hready]
      decide
    · rw [hcur.1,hcur.2]
      decide
    · rfl

/-- Saving a stack pointer does neither. -/
theorem saveContext_sameSlots (esp : Word) (r : Procs×Option Switch) :
    SameSlots r.1 (saveContext esp r) := by
  intro k
  rw [(saveContext_slot esp r k).1]

/-- Neither does a process that leaves: one that exits becomes a zombie. -/
theorem leaves_sameSlots {s t : Procs} (h : SchedInv s) {op : ProcOp} (hop : Leaves op)
    (hs : procStep s op=some t) : SameSlots s t := by
  cases op with
  | yield esp =>
    cases hs
    obtain ⟨cur,hc⟩ := h.current
    exact (schedule_sameSlots (h.pre hc)).trans (saveContext_sameSlots esp _)
  | exit code esp =>
    cases hs
    refine SameSlots.trans ?_ (saveContext_sameSlots esp _)
    rcases procExit_cases h code with hrun|⟨cur,hc,hp,hrun⟩
    · rw [hrun]
      exact .refl s
    · rw [hrun]
      refine SameSlots.trans (fun k => ?_) (schedule_sameSlots (h.pre_exited hc hp code))
      rw [(exited_slot s cur code k).1]
      split_ifs with hk
      · rw [hk,(h.running cur).mpr hc]
        decide
      · rfl
  | create | reap | release => exact hop.elim

/-- An event from outside frees no slot and takes none. -/
theorem outside_sameSlots {m n : SystemModel.Machine ProcFile} (h : SystemInv L m)
    {e : Event ProcFile} (he : FromOutside e) (hstep : SystemModel.step L fuel m e=some n) :
    SameSlots m.system.kernel.procs n.system.kernel.procs := by
  obtain ⟨bs,hheap⟩ := h.heap
  cases (step_effect hheap hstep).change with
  | still _ hp _ _ =>
    rw [hp]
    exact .refl _
  | heap c _ _ hp _ =>
    rw [hp]
    exact sameSlots_mem _ _
  | proc op hop hrun _ _ _ =>
    rcases hop with hleaves|rfl
    · exact leaves_sameSlots h.procs.sched hleaves hrun
    · exact he.elim
  | file o _ _ hp _ =>
    rw [hp]
    exact .refl _
  | store x b _ _ hp _ _ =>
    rw [hp]
    exact sameSlots_mem _ _

/-- An event of the kernel is a step of it, and leaves the shell alone. -/
theorem kernelStep_cases {s t : Shell} {e : Event ProcFile} (h : s.kernelStep L fuel e=some t) :
    SystemModel.step L fuel s.machine e=some t.machine ∧ t.mode=s.mode ∧ t.programs=s.programs ∧
      t.services=s.services := by
  obtain ⟨m,hm,rfl⟩ := Option.map_eq_some_iff.mp h
  exact ⟨hm,rfl,rfl,rfl⟩

/-- Without zombies there is nothing to reap. -/
theorem reapZombies_free {s : Procs} (h : ∀ k,k≠0→(s.procs k).state=.unused) : reapZombies s=s := by
  unfold reapZombies
  congr 1
  funext k
  refine if_neg fun hz => ?_
  rw [h k hz.1] at hz
  cases hz.2

/-- The programs behind the kept names. -/
theorem kept_entries : ∀ r∈shellRegisterPrograms.take 32,r.name.take 15=r.name ∧
    (r.entry=.service ↔ r.name=.lit "service") ∧ r.entry≠.reboot ∧ r.entry≠.halt := by
  decide +kernel

/-- The names that execute_command treats on its own are not that of the
service manager. -/
theorem service_name_distinct : CStr.lit "clear"≠.lit "service" ∧ CStr.lit "shutdown"≠.lit "service" ∧
    CStr.lit "poweroff"≠.lit "service" := by
  decide +kernel

/-- The words that stop the machine. -/
def StopWord (argv : List CStr) : Prop :=
  argv.head?=some (.lit "shutdown") ∨ argv.head?=some (.lit "poweroff")

instance (argv : List CStr) : Decidable (StopWord argv) := inferInstanceAs (Decidable (_ ∨ _))

/-- A line that calls a program: the service manager under its name only, and
prog_halt for the words that stop the machine only; prog_reboot is never
called. -/
theorem executeCommand_calls {t : Programs ShellProgram} {cmd : CStr} {prog : ShellProgram} {argv : List CStr}
    (h : TaskModel.executeCommand (shellPrograms t) cmd=.call (some prog) argv) :
    parseArgs cmd.bytes 16=argv ∧ (prog=.service ↔ argv.head?=some (.lit "service")) ∧ prog≠.reboot ∧
      (prog=.halt→StopWord argv) := by
  obtain ⟨hclear,hshutdown,hpoweroff⟩ := service_name_distinct
  unfold TaskModel.executeCommand at h
  split at h
  · cases h
  next name args hparse =>
  rw [hparse]
  by_cases hname : name=.lit "clear"
  · rw [if_pos hname] at h
    cases h
    refine ⟨rfl,⟨nofun,fun hs => ?_⟩,nofun,nofun⟩
    exact absurd (hname.symm.trans (Option.some.inj hs)) hclear
  rw [if_neg hname] at h
  cases hfind : programFind (shellPrograms t) name with
  | some i =>
    rw [hfind] at h
    injection h with hentry hargv
    obtain ⟨r,hr,he⟩ := (programFind_entry (shellPrograms_holds t) name prog).mp ⟨i,hfind,hentry⟩
    have hlong : r.name.take 15=name := by simpa using List.find?_some hr
    obtain ⟨htake,hservice,hreboot,hhalt⟩ := kept_entries r (List.mem_of_find?_eq_some hr)
    rw [←hargv,←he]
    rw [htake] at hlong
    rw [←hlong]
    refine ⟨rfl,hservice.trans ⟨congrArg some,Option.some.inj⟩,hreboot,fun hc => absurd hc hhalt⟩
  | none =>
    rw [hfind] at h
    dsimp only at h
    split_ifs at h with _ hstop
    cases h
    refine ⟨rfl,⟨nofun,fun hs => ?_⟩,nofun,fun _ => hstop.imp (congrArg some) (congrArg some)⟩
    have hservice := Option.some.inj hs
    rcases hstop with hn|hn
    · exact absurd (hn.symm.trans hservice) hshutdown
    · exact absurd (hn.symm.trans hservice) hpoweroff

/-- The argument vector of a line for the service manager. -/
def serviceLine (cmd : CStr) : Option (List CStr) :=
  if (parseArgs cmd.bytes 16).head?=some (.lit "service") then some (parseArgs cmd.bytes 16) else none

/-- A line under the manager's name calls it. -/
theorem executeCommand_service (t : Programs ShellProgram) {cmd : CStr} {argv : List CStr}
    (h : serviceLine cmd=some argv) :
    TaskModel.executeCommand (shellPrograms t) cmd=.call (some .service) argv := by
  unfold serviceLine at h
  split_ifs at h with hhead
  obtain ⟨args,hargs⟩ := List.head?_eq_some_iff.mp hhead
  cases h
  rw [hargs]
  have hmem : (⟨.lit "service",.lit "service manager",.service⟩ : Registration ShellProgram)∈
      shellRegisterPrograms := by simp [shellRegisterPrograms]
  have hkept : ¬(ShellProgram.service=.reboot ∨ ShellProgram.service=.halt) := by decide
  exact executeCommand_kept hmem hkept hargs

/-- The services after a line. -/
theorem servicesAfterLine_eq {s : Shell} {t : Programs ShellProgram} (h : s.programs=shellPrograms t)
    (cmd : CStr) :
    servicesAfterLine s cmd=match serviceLine cmd with
      | none => s.services
      | some argv => (progService s.services argv).1 := by
  unfold servicesAfterLine
  rw [h]
  cases hline : serviceLine cmd with
  | some argv =>
    rw [executeCommand_service t hline]
    rfl
  | none =>
    dsimp only
    split
    · next prog argv hcall =>
      obtain ⟨hparse,hservice,_⟩ := executeCommand_calls hcall
      unfold servicesAfter
      rw [if_neg]
      intro hp
      unfold serviceLine at hline
      rw [hparse,if_pos (hservice.mp hp)] at hline
      cases hline
    · rfl

/-- The words that stop the machine are not registered. -/
theorem kept_not_stop : ∀ r∈shellRegisterPrograms.take 32,
    r.name≠.lit "shutdown" ∧ r.name≠.lit "poweroff" ∧ r.name≠.lit "exit" := by
  decide +kernel

/-- Nor is one of them clear or exit. -/
theorem stop_distinct {name : CStr} (h : name=.lit "shutdown" ∨ name=.lit "poweroff") :
    name≠.lit "clear" ∧ name≠.lit "exit" := by
  have hall : ∀ word∈[CStr.lit "shutdown",.lit "poweroff"],word≠.lit "clear" ∧ word≠.lit "exit" := by
    decide +kernel
  exact hall name (by simpa using h)

/-- A line with such a word calls prog_halt. -/
theorem executeCommand_stop (t : Programs ShellProgram) {cmd : CStr} (h : StopWord (parseArgs cmd.bytes 16)) :
    TaskModel.executeCommand (shellPrograms t) cmd=.call (some .halt) (parseArgs cmd.bytes 16) := by
  cases hparse : parseArgs cmd.bytes 16 with
  | nil =>
    rw [hparse] at h
    exact absurd h (by decide)
  | cons name args =>
    rw [hparse] at h
    have hword : name=.lit "shutdown" ∨ name=.lit "poweroff" := h.imp Option.some.inj Option.some.inj
    obtain ⟨hclear,hexit⟩ := stop_distinct hword
    have hnone : TaskModel.programFind (shellPrograms t) name=none := by
      cases hfind : TaskModel.programFind (shellPrograms t) name with
      | none => rfl
      | some i =>
        obtain ⟨⟨r,hr,hname⟩,_⟩ := (programFind_eq_some_iff (shellPrograms_holds t) name i).mp hfind
        have hmem := List.mem_of_getElem? hr
        obtain ⟨hshutdown,hpoweroff,_⟩ := kept_not_stop r hmem
        rw [(kept_entries r hmem).1] at hname
        rw [hname] at hshutdown hpoweroff
        exact absurd hword (not_or.mpr ⟨hshutdown,hpoweroff⟩)
    unfold TaskModel.executeCommand
    rw [hparse]
    dsimp only
    rw [if_neg hclear,hnone]
    dsimp only
    rw [if_neg hexit,if_pos hword]

/-- What the shell is doing after a line. -/
theorem modeAfterLine_eq {s : Shell} {t : Programs ShellProgram} (h : s.programs=shellPrograms t)
    (cmd : CStr) :
    modeAfterLine s cmd=if StopWord (parseArgs cmd.bytes 16) then .stopped else .idle := by
  unfold modeAfterLine
  rw [h]
  split_ifs with hstop
  · rw [executeCommand_stop t hstop]
    rfl
  · split
    · next prog argv hcall =>
      obtain ⟨hparse,_,hreboot,hhalt⟩ := executeCommand_calls hcall
      unfold modeOf
      rw [if_neg]
      rintro (hr|hh)
      · exact hreboot hr
      · exact hstop (hparse▸hhalt hh)
    · rfl

/-- Every function that the table holds is one. -/
theorem executeCommand_entry (t : Programs ShellProgram) (cmd : CStr) (argv : List CStr) :
    TaskModel.executeCommand (shellPrograms t) cmd≠.call none argv := by
  intro h
  unfold TaskModel.executeCommand at h
  split at h
  · cases h
  next name args _ =>
  by_cases hname : name=.lit "clear"
  · rw [if_pos hname] at h
    cases h
  rw [if_neg hname] at h
  cases hfind : TaskModel.programFind (shellPrograms t) name with
  | some i =>
    rw [hfind] at h
    obtain ⟨⟨r,hr,_⟩,_⟩ := (programFind_eq_some_iff (shellPrograms_holds t) name i).mp hfind
    injection h with hentry
    rw [((shellPrograms_holds t).entries i r hr).2.2] at hentry
    cases hentry
  | none =>
    rw [hfind] at h
    dsimp only at h
    split_ifs at h
    cases h

/-- What every session keeps. -/
structure ShellInv (L : Layout) (s : Shell) : Prop where
  /-- The kernel's invariant. -/
  kernel : SystemInv L s.machine
  /-- Every slot behind the shell is free. -/
  free : ∀ k,k≠0→(s.procs.procs k).state=.unused
  /-- The programs are the registered ones. -/
  programs : ∃ t,s.programs=shellPrograms t
  /-- Nobody is waited for. -/
  mode : ∀ child,s.mode≠.waiting child

/-- The shell has the processor. -/
theorem ShellInv.current {s : Shell} (h : ShellInv L s) : s.procs.currentProc=some 0 := by
  obtain ⟨cur,hc⟩ := h.kernel.procs.sched.current
  by_cases h0 : cur=0
  · rw [←h0]
    exact hc
  · have hrunning := (h.kernel.procs.sched.running cur).mpr hc
    rw [show (s.machine.system.kernel.procs.procs cur).state=_ from h.free cur h0] at hrunning
    cases hrunning

/-- So a line may be executed. -/
theorem ShellInv.hasProcessor {s : Shell} (h : ShellInv L s) : s.hasProcessor := by
  unfold Shell.hasProcessor
  rw [h.current]
  rfl

/-- Boot establishes the invariant. -/
theorem shellBoot_inv {s : Shell} (h : ShellBoot L s) : ShellInv L s := by
  obtain ⟨ps,hps⟩ := h.machine.procs
  obtain ⟨_,_,hslots⟩ := procInit_slot ps
  refine ⟨boot_inv h.machine,fun k h0 => ?_,h.programs,fun _ => by rw [h.mode]; nofun⟩
  by_contra hne
  rw [show s.procs=procInit ps from hps] at hne
  exact h0 (hslots k hne)

/-- The invariant after an event that only concerns the kernel. -/
theorem ShellInv.kernelStep {s t : Shell} (h : ShellInv L s) {e : Event ProcFile}
    (hstep : s.kernelStep L fuel e=some t) (hslots : SameSlots s.procs t.procs) : ShellInv L t := by
  obtain ⟨hrun,hmode,hprograms,_⟩ := kernelStep_cases hstep
  exact ⟨h.kernel.step hrun,fun k hk => (hslots k).mpr (h.free k hk),hprograms▸h.programs,hmode▸h.mode⟩

/-- A step of the process table. -/
theorem step_proc {m n : SystemModel.Machine ProcFile} {op : ProcOp}
    (h : SystemModel.step L fuel m (.proc op)=some n) :
    procStep m.system.kernel.procs op=some n.system.kernel.procs := by
  unfold SystemModel.step at h
  split_ifs at h
  obtain ⟨procs,hprocs,rfl⟩ := Option.map_eq_some_iff.mp h
  exact hprocs

/-- Reaping frees nothing, since nothing is there to reap. -/
theorem ShellInv.reaped {s t : Shell} (h : ShellInv L s) (hstep : s.kernelStep L fuel (.proc .reap)=some t) :
    t.procs=s.procs := by
  have hprocs := step_proc (kernelStep_cases hstep).1
  simp only [procStep] at hprocs
  split_ifs at hprocs
  exact (Option.some.inj hprocs).symm.trans (reapZombies_free h.free)

/-- What a line does in a session: the invariant is kept, the kernel makes a
run, the services change as the line says, and only the words for it stop the
machine. -/
theorem ShellInv.line {X : ExecLayout L} {s t : Shell} (h : ShellInv L s) {inp : Input} {cmd : CStr}
    (hstep : s.step fuel X (.line inp cmd)=some t) :
    ShellInv L t ∧ Reaches L fuel s.machine t.machine ∧ t.services=servicesAfterLine s cmd ∧
      t.mode=if StopWord (parseArgs cmd.bytes 16) then .stopped else .idle := by
  simp only [Shell.step] at hstep
  split_ifs at hstep with hguard
  obtain ⟨hidle,_,hrun⟩ := hguard
  have heffect := executeCommand_effect hidle hstep
  have hreaches := heffect.reaches hrun
  obtain ⟨table,htable⟩ := h.programs
  have hmode := heffect.mode.trans (modeAfterLine_eq htable cmd)
  refine ⟨⟨h.kernel.reaches hreaches,fun k hk => ?_,heffect.programs▸h.programs,
    fun child hc => ?_⟩,hreaches,heffect.services,hmode⟩
  · rw [heffect.procs]
    exact h.free k hk
  · rw [hmode] at hc
    split_ifs at hc

/-- The argument vector of an event for the service manager. -/
def serviceCall : ShellEvent→Option (List CStr)
  | .line _ cmd => serviceLine cmd
  | _ => none

/-- The service commands of a session. -/
def serviceCalls (es : List ShellEvent) : List (List CStr) := es.filterMap serviceCall

/-- The services after an event. -/
def servicesAt (t : Services) (e : ShellEvent) : Services :=
  match serviceCall e with
  | none => t
  | some argv => (progService t argv).1

/-- One event. -/
theorem ShellInv.step {X : ExecLayout L} {s t : Shell} (h : ShellInv L s) {e : ShellEvent}
    (hstep : s.step fuel X e=some t) :
    ShellInv L t ∧ Reaches L fuel s.machine t.machine ∧ t.services=servicesAt s.services e := by
  cases e with
  | line inp cmd =>
    obtain ⟨hinv,hreaches,hservices,_⟩ := h.line hstep
    obtain ⟨table,htable⟩ := h.programs
    exact ⟨hinv,hreaches,hservices.trans (servicesAfterLine_eq htable cmd)⟩
  | script batch =>
    simp only [Shell.step] at hstep
    split_ifs at hstep
    cases hstep
    exact ⟨⟨h.kernel,h.free,h.programs,h.mode⟩,.refl,rfl⟩
  | reap =>
    simp only [Shell.step] at hstep
    split_ifs at hstep
    have hsame : SameSlots s.procs t.procs := by
      rw [h.reaped hstep]
      exact .refl _
    obtain ⟨hrun,_,_,hservices⟩ := kernelStep_cases hstep
    exact ⟨h.kernelStep hstep hsame,.step _ .refl hrun,hservices⟩
  | turn esp =>
    simp only [Shell.step] at hstep
    split at hstep
    · next child hmode =>
      exact absurd hmode (h.mode child)
    · cases hstep
  | outside e =>
    simp only [Shell.step] at hstep
    split_ifs at hstep with hguard
    obtain ⟨hrun,_,_,hservices⟩ := kernelStep_cases hstep
    exact ⟨h.kernelStep hstep (outside_sameSlots h.kernel hguard.2 hrun),.step _ .refl hrun,hservices⟩

/-- The services after the commands of a list and one event more. -/
theorem runServices_serviceCalls (t : Services) (es : List ShellEvent) (e : ShellEvent) :
    runServices t (serviceCalls (es++[e]))=servicesAt (runServices t (serviceCalls es)) e := by
  unfold serviceCalls servicesAt runServices
  rw [List.filterMap_append,List.foldl_append]
  cases hcall : serviceCall e with
  | none => rw [List.filterMap_cons_none hcall]; rfl
  | some argv => rw [List.filterMap_cons_some hcall]; rfl

/-- A session keeps the invariant, is a run of the kernel, and runs its service
commands. -/
theorem session_inv {X : ExecLayout L} {es : List ShellEvent} {s t : Shell} (h : Session fuel X s es t)
    (hboot : ShellInv L s) :
    ShellInv L t ∧ Reaches L fuel s.machine t.machine ∧ t.services=runServices s.services (serviceCalls es) := by
  induction h with
  | refl => exact ⟨hboot,.refl,rfl⟩
  | step e _ hstep ih =>
    obtain ⟨hinv,hreaches,hservices⟩ := ih
    obtain ⟨hnext,hone,hchange⟩ := hinv.step hstep
    refine ⟨hnext,reaches_trans hreaches hone,?_⟩
    rw [hchange,hservices,runServices_serviceCalls]

/-- execute_command comes to its end. -/
theorem live_executeCommand {s : Shell} (h : Live L s) (hf : 2^32≤fuel) {t : Programs ShellProgram}
    (ht : s.programs=shellPrograms t) (X : ExecLayout L) (inp : Input) (cmd : CStr) :
    ∃ u,s.executeCommand fuel X inp cmd=some u := by
  have hwritten := h.write [color vgaColorLightGrey]
  unfold Shell.executeCommand
  dsimp only
  rw [show (s.write [color vgaColorLightGrey]).programs=shellPrograms t from ht]
  cases hselect : TaskModel.executeCommand (shellPrograms t) cmd with
  | nothing | message => exact ⟨_,rfl⟩
  | call entry argv =>
    cases entry with
    | none => exact absurd hselect (executeCommand_entry t cmd argv)
    | some prog =>
      obtain ⟨u,hu⟩ := hwritten.callProgram hf X inp prog argv
      exact ⟨_,Option.map_eq_some_iff.mpr ⟨u,hu,rfl⟩⟩

/-- While the main loop waits and nothing has panicked, every line comes to its
end. -/
theorem ShellInv.line_returns {s : Shell} (h : ShellInv L s) (hf : 2^32≤fuel) (X : ExecLayout L)
    (hidle : s.mode=.idle) (hrun : s.machine.system.halted=false) (inp : Input) (cmd : CStr) :
    ∃ t,s.step fuel X (.line inp cmd)=some t := by
  obtain ⟨table,htable⟩ := h.programs
  obtain ⟨t,ht⟩ := live_executeCommand ⟨h.kernel,hrun⟩ hf htable X inp cmd
  refine ⟨t,?_⟩
  simp only [Shell.step]
  rw [if_pos ⟨hidle,h.hasProcessor,hrun⟩,ht]

/-- The shell is the only process. -/
structure Alone (s : Shell) : Prop where
  /-- Every other slot is free. -/
  free : ∀ k,k≠0→(s.procs.procs k).state=.unused
  /-- It has the processor. -/
  current : s.procs.currentProc=some 0
  /-- There is nothing to reap. -/
  reaped : reapZombies s.procs=s.procs
  /-- Nothing is waited for. -/
  mode : ∀ child,s.mode≠.waiting child

/-- From boot on, whatever lines are entered and whatever interrupts, faults and
system calls come in between, in whatever order: a session is a run of the
kernel, so the invariants of all its parts hold together, and the shell stays
the only process. -/
theorem shell_stays_alone {X : ExecLayout L} {es : List ShellEvent} {boot s : Shell}
    (hboot : ShellBoot L boot) (h : Session fuel X boot es s) :
    Reaches L fuel boot.machine s.machine ∧ SystemInv L s.machine ∧ Alone s := by
  obtain ⟨hinv,hreaches,_⟩ := session_inv h (shellBoot_inv hboot)
  exact ⟨hreaches,hinv.kernel,hinv.free,hinv.current,reapZombies_free hinv.free,hinv.mode⟩

/-- A page below the process array of the sample. -/
theorem sampleLayout_free : ∀ k<4096,¬Owned sampleLayout (0x90000+BitVec.ofNat 32 k) := by
  intro k hk
  have haddress : ((0x90000 : Word)+BitVec.ofNat 32 k).toNat=0x90000+k := by
    rw [BitVec.toNat_add,BitVec.toNat_ofNat,show (0x90000 : Word).toNat=0x90000 from rfl]
    omega
  unfold Owned
  rw [haddress,show sampleLayout.base.toNat=0x200000 from rfl,
    show sampleLayout.heapStart.toNat=0x400000 from rfl]
  omega

/-- It lies below user space. -/
theorem sampleLayout_below : (0x90000 : Word).toNat+4096≤0x08000000 := by decide

/-- The array of exec on that page. -/
def sampleExec : ExecLayout sampleLayout where
  image := ShellExec.sampleImage
  execBuf := 0x90000
  free := sampleLayout_free
  below := sampleLayout_below

/-- The shell with some programs at boot, over a memory of zeros. -/
def shellWith (programs : Programs ShellProgram) : Shell where
  machine := {
    system := {
      kernel := {
        heap := mmInit (fun _ => 0) HeapIntegrity.emptyTracker 0x400000 0x100000
        vfs := VfsModel.vfsInit VfsModel.zeroed
        procs := procInit (sampleStatics fun _ => 0)
        ticks := 0
        frequency := 100
        output := []
        shared := rfl}
      keyboard := ⟨false,false,false,false,0,fun _ => 0,0,0,clearedTerminal,[]⟩
      pic := ⟨0x20,0xFC,0,0⟩
      halted := false}
    live := []}
  programs := programs
  services := services
  batch := false
  mode := .idle

/-- With the registered programs it is the shell at boot. -/
theorem shellWith_boot {programs : Programs ShellProgram}
    (h : ∃ t,programs=registerAll (programsInit t) shellRegisterPrograms) :
    ShellBoot sampleLayout (shellWith programs) where
  machine := {
    heap := ⟨_,_,_,_,by decide,by decide,by decide,by decide,rfl⟩
    procs := ⟨_,rfl⟩
    base := rfl
    vfs := ⟨[],rfl⟩
    terminal := ⟨_,[],rfl⟩
    pic := rfl
    live := rfl}
  programs := h
  services := rfl
  batch := rfl
  mode := rfl

/-- The shell at boot, with the programs registered over an empty table. -/
def sampleShell : Shell := shellWith (shellPrograms noPrograms)

/-- It is the shell at boot. -/
theorem sampleShell_boot : ShellBoot sampleLayout sampleShell := shellWith_boot ⟨noPrograms,rfl⟩

/-- No processor data, no clock, and zeros on the stack. -/
def sampleInput : Input := ⟨fun _ => ⟨0,0,0,0⟩,fun _ => 0,fun _ => 0⟩

/-- A line for the service manager. -/
def sampleLine : ShellEvent := .line sampleInput (.lit "service start sshd")

/-- It comes to its end. -/
theorem sampleLine_returns : ∃ s,Session (2^32) sampleExec sampleShell [sampleLine] s := by
  obtain ⟨s,hs⟩ := (shellBoot_inv sampleShell_boot).line_returns (Nat.le_refl _) sampleExec rfl rfl
    sampleInput (.lit "service start sshd")
  exact ⟨s,Session.step sampleLine .refl hs⟩

/-- Afterwards the shell is alone. -/
theorem sampleLine_alone : ∃ s,Session (2^32) sampleExec sampleShell [sampleLine] s ∧ Alone s := by
  obtain ⟨s,hs⟩ := sampleLine_returns
  exact ⟨s,hs,(shell_stays_alone sampleShell_boot hs).2.2⟩

/-- In every state of a session in which the main loop waits and nothing has
panicked, every line comes to its end, and then the main loop waits again unless
the line was one of the words that stop the machine. -/
theorem every_line_returns {X : ExecLayout L} {es : List ShellEvent} {boot s : Shell} (hf : 2^32≤fuel)
    (hboot : ShellBoot L boot) (h : Session fuel X boot es s) (hidle : s.mode=.idle)
    (hrun : s.machine.system.halted=false) (inp : Input) (cmd : CStr) :
    ∃ t,s.step fuel X (.line inp cmd)=some t ∧
      t.mode=if StopWord (parseArgs cmd.bytes 16) then .stopped else .idle := by
  obtain ⟨hinv,_⟩ := session_inv h (shellBoot_inv hboot)
  obtain ⟨t,hstep⟩ := hinv.line_returns hf X hidle hrun inp cmd
  exact ⟨t,hstep,(hinv.line hstep).2.2.2⟩

/-- At boot the memory test comes to its end. -/
theorem memtest_returns_at_boot :
    ∃ t,sampleShell.step (2^32) sampleExec (.line sampleInput (.lit "memtest"))=some t ∧
      t.mode=if StopWord (parseArgs (CStr.lit "memtest").bytes 16) then .stopped else .idle :=
  every_line_returns (Nat.le_refl _) sampleShell_boot .refl rfl rfl sampleInput (.lit "memtest")

/-- An argument vector that asks the service manager for the status. -/
def AsksStatus (argv : List CStr) : Prop := (argv.drop 1).head?.getD (.lit "status")=.lit "status"

/-- prog_service then writes the table and leaves it. -/
theorem progService_status (t : Services) {argv : List CStr} (h : AsksStatus argv) :
    progService t argv=(t,0,statusTable t) := by
  match argv with
  | [] | [_] => rfl
  | _::action::_ =>
    have haction : action=.lit "status" := h
    exact if_pos haction

/-- What the terminal is given for a line whose program only writes; a script
has no prompt. -/
def lineText (batch : Bool) (ops : List TtyOp) : List TtyOp :=
  color vgaColorLightGrey::ops++[color vgaColorLightGrey,str "\n"]++if batch then [] else printPrompt

/-- What the terminal is given for a line that asks for the status. -/
def statusText (batch : Bool) (t : Services) : List TtyOp := lineText batch (statusTable t)

/-- What follows a program that has returned. -/
theorem returned_write {s : Shell} {argv : List CStr} (hidle : s.mode=.idle)
    (hname : argv.head?≠some (.lit "clear")) :
    s.returned argv=s.write ([color vgaColorLightGrey,str "\n"]++if s.batch then [] else printPrompt) := by
  unfold Shell.returned
  rw [if_neg (not_not_intro hidle),if_neg hname]
  unfold Shell.finish Shell.prompt
  rw [show (s.write [color vgaColorLightGrey,str "\n"]).batch=s.batch from rfl]
  split_ifs
  · rw [List.append_nil]
  · rw [write_write]

/-- A line whose program only writes. -/
theorem returned_lineText {s u : Shell} {argv : List CStr} {ops : List TtyOp} (hidle : s.mode=.idle)
    (hname : argv.head?≠some (.lit "clear")) (hu : u=(s.write [color vgaColorLightGrey]).write ops) :
    u.returned argv=s.write (lineText s.batch ops) := by
  have hmode : u.mode=.idle := by
    rw [hu]
    exact hidle
  have hbatch : u.batch=s.batch := by
    rw [hu]
    rfl
  rw [returned_write hmode hname,hbatch,hu,write_write,write_write]
  unfold lineText
  rw [List.append_assoc]
  rfl

/-- A line that calls a program. -/
theorem executeCommand_call {X : ExecLayout L} {s t : Shell} {table : Programs ShellProgram}
    (htable : s.programs=shellPrograms table) {inp : Input} {cmd : CStr} {prog : ShellProgram}
    {argv : List CStr} (hselect : TaskModel.executeCommand (shellPrograms table) cmd=.call (some prog) argv)
    (h : s.executeCommand fuel X inp cmd=some t) :
    ∃ u,(s.write [color vgaColorLightGrey]).callProgram fuel X inp prog argv=some u ∧ t=u.returned argv := by
  unfold Shell.executeCommand at h
  dsimp only at h
  rw [show (s.write [color vgaColorLightGrey]).programs=shellPrograms table from htable,hselect] at h
  obtain ⟨u,hcall,rfl⟩ := Option.map_eq_some_iff.mp h
  exact ⟨u,hcall,rfl⟩

/-- A line whose first word is the name of a listed program. -/
theorem executeCommand_listed {X : ExecLayout L} {s t : Shell} {table : Programs ShellProgram}
    (htable : s.programs=shellPrograms table) {r : Registration ShellProgram} (hr : r∈shellRegisterPrograms)
    (hkept : ¬(r.entry=.reboot ∨ r.entry=.halt)) {inp : Input} {cmd : CStr} {args : List CStr}
    (hparse : parseArgs cmd.bytes 16=r.name::args) (h : s.executeCommand fuel X inp cmd=some t) :
    ∃ u,(s.write [color vgaColorLightGrey]).callProgram fuel X inp r.entry (r.name::args)=some u ∧
      t=u.returned (r.name::args) :=
  executeCommand_call htable (executeCommand_kept hr hkept hparse) h

/-- A line that asks for the status writes it, and nothing else. -/
theorem executeCommand_status {X : ExecLayout L} {s t : Shell} {table : Programs ShellProgram}
    (htable : s.programs=shellPrograms table) (hidle : s.mode=.idle) {inp : Input} {cmd : CStr}
    {argv : List CStr} (hline : serviceLine cmd=some argv) (hstatus : AsksStatus argv)
    (h : s.executeCommand fuel X inp cmd=some t) : t=s.write (statusText s.batch s.services) := by
  have hhead : argv.head?=some (.lit "service") := by
    unfold serviceLine at hline
    split_ifs at hline with hh
    cases hline
    exact hh
  have hname : argv.head?≠some (.lit "clear") := by
    rw [hhead]
    exact fun hc => service_name_distinct.1 (Option.some.inj hc).symm
  obtain ⟨u,hcall,rfl⟩ := executeCommand_call htable (executeCommand_service table hline) h
  obtain ⟨v,_,hcall⟩ := Option.bind_eq_some_iff.mp hcall
  refine returned_lineText hidle hname ?_
  rw [←Option.some.inj hcall]
  unfold Shell.runService
  rw [progService_status _ hstatus]
  rfl

/-- In every session, every flag of every service is as the last service
command for it set it, or as the source has it when no command did; and a line
that asks for the status writes exactly these, then the prompt except in a
script, and changes nothing but the terminal. -/
theorem services_as_last_commanded {X : ExecLayout L} {es : List ShellEvent} {boot s : Shell}
    (hboot : ShellBoot L boot) (h : Session fuel X boot es s) :
    s.services=settled (serviceCalls es) ∧
      ∀ (inp : Input) (cmd : CStr) (argv : List CStr) (t : Shell),serviceLine cmd=some argv→AsksStatus argv→
        s.step fuel X (.line inp cmd)=some t→ t=s.write (statusText s.batch (settled (serviceCalls es))) := by
  obtain ⟨hinv,_,hservices⟩ := session_inv h (shellBoot_inv hboot)
  rw [hboot.services,runServices_settled] at hservices
  refine ⟨hservices,fun inp cmd argv t hline hstatus hstep => ?_⟩
  obtain ⟨table,htable⟩ := hinv.programs
  simp only [Shell.step] at hstep
  split_ifs at hstep with hguard
  rw [←hservices]
  exact executeCommand_status htable hguard.1 hline hstatus hstep

/-- After sshd was started it runs. -/
theorem sampleLine_services :
    ∃ s,Session (2^32) sampleExec sampleShell [sampleLine] s ∧ (s.services 1).running=1 := by
  obtain ⟨s,hs⟩ := sampleLine_returns
  refine ⟨s,hs,?_⟩
  rw [(services_as_last_commanded sampleShell_boot hs).1]
  decide +kernel

end EronKernel.ShellSessions

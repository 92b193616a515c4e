import EronKernel.CString

/-!
# The process table of process.c

Slots of the table are states, pids and saved contexts; kernel and user
stacks are ranges of memory inside the table, so their addresses follow from
the layout of struct process. The scheduler's switch is returned as a request
that names whose context is saved and which context is loaded. Reaping and
the release of an exec'd child are the loops of kernel.c and shell.c.
-/

namespace EronKernel.ProcModel

open ByteMemory CString

/-- Index of a process slot. -/
abbrev ProcSlot := Fin 16

/-- enum proc_state. -/
inductive ProcState where
  /-- The slot is free. -/
  | unused
  /-- The process waits for the processor. -/
  | ready
  /-- The process has the processor. -/
  | running
  /-- The process exited and was not yet reaped. -/
  | zombie
  deriving DecidableEq,Repr

/-- struct process without the stacks, which lie in memory; the field pdir is
never accessed by the modelled code. -/
structure Process where
  /-- Process id. -/
  pid : Word
  /-- Name, terminated within its array. -/
  name : Row 16
  /-- Scheduling state. -/
  state : ProcState
  /-- Pointer to the saved context. -/
  ctx : Word
  /-- Pointer to the trap frame. -/
  tf : Word
  /-- Code given to proc_exit. -/
  exitCode : Word

/-- The statics of process.c with the kernel stack pointer of the TSS, the
memory and the addresses the linker chose. -/
structure Procs where
  /-- The process slots. -/
  procs : ProcSlot→Process
  /-- The current process, or NULL. -/
  currentProc : Option ProcSlot
  /-- The pid of the next process. -/
  nextPid : Word
  /-- Parent pids by slot. -/
  childParent : ProcSlot→Word
  /-- The field esp0 of the TSS. -/
  esp0 : Word
  /-- Memory. -/
  mem : Mem
  /-- Address of the process array. -/
  base : Word
  /-- Address of trapret. -/
  trapret : Word

/-- Size of struct process. -/
abbrev processSize : ℕ := 8240

/-- Size of a kernel stack. -/
abbrev procKstackSz : Word := 4096

/-- Size of a user stack. -/
abbrev procUstackSz : Word := 4096

/-- Bytes of a process name, terminator included. -/
abbrev procNameLen : ℕ := 16

/-- Selector of the user code segment. -/
abbrev segUcode : Word := 0x18

/-- Selector of the user data segment. -/
abbrev segUdata : Word := 0x20

/-- Size of struct trapframe, nineteen words. -/
abbrev trapframeSize : Word := 76

/-- Size of struct context, five words. -/
abbrev contextSize : Word := 20

/-- Address of a slot's kernel stack; pid, name and state take 24 bytes and
the stack is aligned to sixteen. -/
def kernelStack (s : Procs) (k : ProcSlot) : Word := s.base+BitVec.ofNat 32 (processSize*k.val+32)

/-- Address of a slot's user stack, directly behind the kernel stack. -/
def userStack (s : Procs) (k : ProcSlot) : Word := kernelStack s k+procKstackSz

/-- Replace one slot. -/
def Procs.setProc (s : Procs) (k : ProcSlot) (p : Process) : Procs :=
  {s with procs := Function.update s.procs k p}

/-- Write the state of one slot. -/
def Procs.setState (s : Procs) (k : ProcSlot) (state : ProcState) : Procs :=
  s.setProc k {s.procs k with state := state}

/-- p_strcpy: at most max-1 bytes and a terminator. -/
def pStrcpy {n : ℕ} (d : Row n) (s : CStr) (max : ℕ) : Row n := copyRow d (s.bytes.take (max-1))

/-- The name of the first process. -/
def kernelName : CStr := ⟨[0x6B,0x65,0x72,0x6E,0x65,0x6C],by decide⟩

/-- proc_init. -/
def procInit (s : Procs) : Procs :=
  let s := {s with
    procs := fun k => {s.procs k with state := .unused, pid := 0}
    childParent := fun _ => 0}
  let p := s.procs 0
  {s.setProc 0 {p with pid := 0, name := pStrcpy p.name kernelName procNameLen, state := .running, ctx := 0} with
    currentProc := some 0}

/-- The slot that proc_create takes: the first free one behind slot zero. -/
def firstUnused (s : Procs) : Option ProcSlot :=
  (List.finRange 16).find? fun k => decide (k≠0) && decide ((s.procs k).state=.unused)

/-- The words of a new process's trap frame, in the order of its fields. -/
def trapframeWords (entry userEsp : Word) : List Word :=
  [segUdata|||3,segUdata|||3,segUdata|||3,segUdata|||3,0,0,0,0,0,0,0,0,0,0,
    entry,segUcode|||3,0x202,userEsp,segUdata|||3]

/-- The words of a new process's context; it resumes in trapret. -/
def contextWords (trapret : Word) : List Word := [0,0,0,0,trapret]

/-- The body of proc_create once a slot is found. -/
def launch (s : Procs) (k : ProcSlot) (name : CStr) (entry : Word) : Procs :=
  let p := s.procs k
  let tf := kernelStack s k+procKstackSz-trapframeSize
  let ctx := tf-contextSize
  let mem := storeWords s.mem tf (trapframeWords entry (userStack s k+procUstackSz))
  let childParent := match s.currentProc with
    | some cur => if 0<(s.procs cur).pid then Function.update s.childParent k (s.procs cur).pid
        else s.childParent
    | none => s.childParent
  {s.setProc k ⟨s.nextPid,pStrcpy p.name name procNameLen,.ready,ctx,tf,0⟩ with
    nextPid := s.nextPid+1
    childParent := childParent
    mem := storeWords mem ctx (contextWords s.trapret)}

/-- proc_create. -/
def procCreate (s : Procs) (name : CStr) (entry : Word) : Procs×ℤ :=
  if entry=0 then (s,-1)
  else if entry<0x08000000 ∨ 0xC0000000≤entry then (s,-1)
  else match firstUnused s with
    | none => (s,-1)
    | some k => (launch s k name entry,s.nextPid.toInt)

/-- The slots in the order in which schedule inspects them. -/
def roundRobin (cur : ProcSlot) : List ProcSlot :=
  (List.range 16).map fun i => Fin.ofNat 16 (cur.val+(i+1))

/-- The next ready slot behind the current one. -/
def nextReady (s : Procs) (cur : ProcSlot) : Option ProcSlot :=
  (roundRobin cur).find? fun k => decide ((s.procs k).state=.ready)

/-- schedule found nothing ready for a process that stopped running. -/
def InFallback (s : Procs) (cur : ProcSlot) : Prop :=
  nextReady s cur=none ∧ (s.procs cur).state≠.running ∧ cur≠0

instance (s : Procs) (cur : ProcSlot) : Decidable (InFallback s cur) :=
  inferInstanceAs (Decidable (_ ∧ _ ∧ _))

/-- The slot that schedule switches to: the next ready one, else slot zero
when the current process stopped running. -/
def nextSlot (s : Procs) (cur : ProcSlot) : Option ProcSlot :=
  match nextReady s cur with
  | some k => some k
  | none =>
    if InFallback s cur then
      if (s.procs 0).state≠.ready ∧ (s.procs 0).state≠.running then none else some 0
    else none

/-- The arguments of a call to swtch. -/
structure Switch where
  /-- Slot whose context pointer is saved. -/
  prev : ProcSlot
  /-- Context that is loaded. -/
  next : Word

/-- schedule, with the switch it ends in. -/
def schedule (s : Procs) : Procs×Option Switch :=
  match s.currentProc with
  | none => (s,none)
  | some cur =>
    match nextSlot s cur with
    | none => (s,none)
    | some next =>
      if next=cur then (s,none)
      else
        let t := if (s.procs cur).state=.running then s.setState cur .ready else s
        let t := t.setState next .running
        let t := if next≠0 then {t with esp0 := kernelStack t next+procKstackSz} else t
        ({t with currentProc := some next},some ⟨cur,(t.procs next).ctx⟩)

/-- proc_exit. -/
def procExit (s : Procs) (code : Word) : Procs×Option Switch :=
  match s.currentProc with
  | none => (s,none)
  | some cur =>
    if (s.procs cur).pid=0 then (s,none)
    else schedule (s.setProc cur {s.procs cur with state := .zombie, exitCode := code})

/-- proc_yield. -/
def procYield (s : Procs) : Procs×Option Switch := schedule s

/-- The part of swtch that the table sees: the stack pointer of the process
that is left is stored in its context pointer. -/
def saveContext (esp : Word) (r : Procs×Option Switch) : Procs :=
  match r.2 with
  | none => r.1
  | some w => r.1.setProc w.prev {r.1.procs w.prev with ctx := esp}

/-- The reaping loop of kernel_main. -/
def reapZombies (s : Procs) : Procs :=
  {s with procs := fun k =>
    if k≠0 ∧ (s.procs k).state=.zombie then {s.procs k with state := .unused} else s.procs k}

/-- The child that prog_exec waits for and later releases: the first slot with
the pid that proc_create returned. -/
def execChild (s : Procs) (pid : Word) : Option ProcSlot :=
  (List.finRange 16).find? fun k => decide ((s.procs k).pid=pid)

/-- What can happen next to the process table. -/
inductive ProcOp where
  /-- Slot zero calls proc_create. -/
  | create (name : CStr) (entry : Word)
  /-- The current process calls schedule or proc_yield; its stack pointer is
  saved if it is left. -/
  | yield (esp : Word)
  /-- The current process calls proc_exit. -/
  | exit (code esp : Word)
  /-- kernel_main reaps while slot zero is current. -/
  | reap
  /-- prog_exec, run by slot zero, releases the slot of its child. -/
  | release (child : ProcSlot)

/-- One step; no value when the step cannot happen in the state. -/
def procStep (s : Procs) : ProcOp→Option Procs
  | .create name entry => if s.currentProc=some 0 then some (procCreate s name entry).1 else none
  | .yield esp => some (saveContext esp (procYield s))
  | .exit code esp => some (saveContext esp (procExit s code))
  | .reap => if s.currentProc=some 0 then some (reapZombies s) else none
  | .release child =>
    if s.currentProc=some 0 ∧ child≠0 ∧
        ¬((s.procs child).state=.ready ∨ (s.procs child).state=.running) then
      some (s.setState child .unused)
    else none

/-- The slot that a step creates a process in. -/
def createdSlot (s : Procs) : ProcOp→Option ProcSlot
  | .create _ entry =>
    if entry=0 ∨ entry<0x08000000 ∨ 0xC0000000≤entry then none else firstUnused s
  | _ => none

/-- Successful creations, counted on by one step. -/
def creations (s : Procs) (op : ProcOp) (n : ℕ) : ℕ := if (createdSlot s op).isSome then n+1 else n

/-- States of a run from proc_init, with the number of processes created. The
pid counter starts at one; everything else is arbitrary before proc_init. -/
inductive Reachable : ℕ→Procs→Prop where
  /-- The state after proc_init. -/
  | init (s : Procs) : s.nextPid=1→Reachable 0 (procInit s)
  /-- One more step. -/
  | step {n : ℕ} {s t : Procs} (op : ProcOp) : Reachable n s→procStep s op=some t→
    Reachable (creations s op n) t

/-- A part of a run, from a state and its count to a later one, in which no
process is created in a slot. -/
inductive Segment (k : ProcSlot) (n : ℕ) (s : Procs) : ℕ→Procs→Prop where
  /-- Nothing happened. -/
  | refl : Segment k n s n s
  /-- One more step that creates nothing in the slot. -/
  | step {m : ℕ} {t u : Procs} (op : ProcOp) : Segment k n s m t→procStep t op=some u→
    createdSlot t op≠some k→Segment k n s (creations t op m) u

/-- The slot holds no process that could run. -/
def Idle (s : Procs) (k : ProcSlot) : Prop :=
  (s.procs k).state=.zombie ∨ (s.procs k).state=.unused

end EronKernel.ProcModel

import EronKernel.HeapModel
import EronKernel.ProcModel
import EronKernel.StringScan
import EronKernel.VfsModel

/-!
# The system calls of syscall.c

The kernel's parts are put together over one memory. A string argument is the
address the caller left in a register; what the kernel reads there is the
string that memory holds from that address on, wherever it ends. The screen is
reached through terminal_putchar alone and is recorded as the characters given
to it. A call that hands over the processor reports the switch; sleeping goes
through many switches, and what happens to the kernel until the caller runs
again is a parameter. Exhausted fuel and a scan without end give no value.
-/

namespace EronKernel.SyscallModel

open ByteMemory CString FuelLoop StringScan HeapModel VfsModel ProcModel

variable {F : Type}

/-- The first address of user space. -/
abbrev userSpaceStart : Word := 0x08000000

/-- The first address behind user space. -/
abbrev userSpaceEnd : Word := 0xC0000000

/-- Bytes of the heap. -/
abbrev heapSize : Word := 0x100000

/-- The system calls that syscall_handle has a case for. -/
inductive Syscall where
  | sysWrite | sysRead | sysExit | sysGetpid | sysMalloc | sysFree | sysOpen | sysClose | sysTime
  | sysYield | sysExec | sysStat | sysFork | sysKill | sysAlarm | sysSleep | sysGettid | sysGetuid
  | sysGetgid | sysGetppid | sysDup | sysDup2 | sysPipe | sysUnlink | sysMkdir | sysRmdir | sysChmod
  | sysUmask | sysBrk | sysSetsid | sysGetsid | sysGetpgrp | sysSetpgrp | sysGeteuid | sysGetegid
  | sysRename | sysGetcwd | sysLseek
  deriving DecidableEq,Repr

/-- The numbers of syscall.h. -/
def Syscall.number : Syscall→Word
  | .sysWrite => 1
  | .sysRead => 2
  | .sysExit => 3
  | .sysGetpid => 4
  | .sysMalloc => 5
  | .sysFree => 6
  | .sysOpen => 7
  | .sysClose => 8
  | .sysTime => 9
  | .sysYield => 10
  | .sysExec => 11
  | .sysStat => 13
  | .sysFork => 14
  | .sysKill => 15
  | .sysAlarm => 16
  | .sysSleep => 17
  | .sysGettid => 18
  | .sysGetuid => 21
  | .sysGetgid => 22
  | .sysGetppid => 23
  | .sysDup => 24
  | .sysDup2 => 25
  | .sysPipe => 26
  | .sysUnlink => 29
  | .sysMkdir => 30
  | .sysRmdir => 31
  | .sysChmod => 32
  | .sysUmask => 34
  | .sysBrk => 36
  | .sysSetsid => 37
  | .sysGetsid => 38
  | .sysGetpgrp => 41
  | .sysSetpgrp => 42
  | .sysGeteuid => 45
  | .sysGetegid => 46
  | .sysRename => 49
  | .sysGetcwd => 54
  | .sysLseek => 57

/-- The cases of syscall_handle in the order of their numbers. -/
def Syscall.all : List Syscall :=
  [.sysWrite,.sysRead,.sysExit,.sysGetpid,.sysMalloc,.sysFree,.sysOpen,.sysClose,.sysTime,.sysYield,
    .sysExec,.sysStat,.sysFork,.sysKill,.sysAlarm,.sysSleep,.sysGettid,.sysGetuid,.sysGetgid,
    .sysGetppid,.sysDup,.sysDup2,.sysPipe,.sysUnlink,.sysMkdir,.sysRmdir,.sysChmod,.sysUmask,.sysBrk,
    .sysSetsid,.sysGetsid,.sysGetpgrp,.sysSetpgrp,.sysGeteuid,.sysGetegid,.sysRename,.sysGetcwd,
    .sysLseek]

/-- The case that a number selects; none is the default case. -/
def Syscall.ofNumber (eax : Word) : Option Syscall := Syscall.all.find? fun c => c.number==eax

/-- The registers of a trap frame that system calls use. -/
structure Trapframe where
  /-- Number of the call, then its result. -/
  eax : Word
  /-- First argument. -/
  ebx : Word
  /-- Second argument. -/
  ecx : Word
  /-- Third argument. -/
  edx : Word
  deriving DecidableEq

/-- The kernel's parts over one memory. -/
structure Kernel (F : Type) where
  /-- The allocator and the memory. -/
  heap : Heap
  /-- The file system. -/
  vfs : Vfs F
  /-- The process table. -/
  procs : Procs
  /-- Timer interrupts so far. -/
  ticks : Word
  /-- Timer interrupts per second. -/
  frequency : Word
  /-- Characters given to terminal_putchar so far. -/
  output : List Byte
  /-- Allocator and process table see the same memory. -/
  shared : procs.mem=heap.mem

/-- The memory of a kernel. -/
def Kernel.mem (k : Kernel F) : Mem := k.heap.mem

/-- Replace the allocator's state; its memory is everybody's memory. -/
def Kernel.setHeap (k : Kernel F) (heap : Heap) : Kernel F :=
  {k with heap := heap, procs := {k.procs with mem := heap.mem}, shared := rfl}

/-- Replace the process table; its memory is everybody's memory. -/
def Kernel.setProcs (k : Kernel F) (procs : Procs) : Kernel F :=
  {k with heap := {k.heap with mem := procs.mem}, procs := procs, shared := rfl}

/-- The same kernel over another memory. -/
def Kernel.withMem (k : Kernel F) (mem : Mem) : Kernel F := k.setHeap {k.heap with mem := mem}

/-- What a returning system call leaves. -/
structure Outcome (F : Type) where
  /-- The kernel afterwards. -/
  kernel : Kernel F
  /-- The trap frame afterwards. -/
  tf : Trapframe
  /-- The switch that the call ends in, when it gives up the processor. -/
  switch : Option Switch

/-- validate_user_ptr. -/
def validateUserPtr (ptr size : Word) : Bool :=
  let finish := ptr+size
  if ptr=0 ∨ ptr<userSpaceStart then false
  else if userSpaceEnd<finish ∨ finish<ptr then false
  else true

/-- terminal_writestring: every character in front of the terminator. -/
def terminalWritestring (k : Kernel F) (data : Word) : Option (Kernel F) :=
  (stringAt k.mem data).map fun s => {k with output := k.output++s.bytes}

/-- do_write: the count is returned whether or not the pointer was accepted. -/
def doWrite (k : Kernel F) (fd buf count : Word) : Option (Kernel F×Word) :=
  if fd=1 ∨ fd=2 then
    if validateUserPtr buf count then (terminalWritestring k buf).map fun k => (k,count)
    else some (k,count)
  else some (k,-1)

/-- do_read. -/
def doRead (_fd _buf _count : Word) : Word := -1

/-- timer_seconds. -/
def timerSeconds (k : Kernel F) : Word := k.ticks/k.frequency

/-- Pid of the current process, zero without one. -/
def currentPid (k : Kernel F) : Word :=
  match k.procs.currentProc with
  | none => 0
  | some p => (k.procs.procs p).pid

/-- One turn of the loop of SYS_SLEEP: ask the clock, else give up the
processor until the caller runs again. -/
def sleepTurn (resume : ℕ→Kernel F→Kernel F) (target : Word) (state : ℕ×Kernel F) :
    Turn (ℕ×Kernel F) (Kernel F) :=
  let (turn,k) := state
  if timerSeconds k<target then .again (turn+1,resume turn (k.setProcs (procYield k.procs).1))
  else .done k

/-- Leave a result in eax and return to the caller. -/
def reply (tf : Trapframe) (k : Kernel F) (eax : Word) : Option (Outcome F) :=
  some ⟨k,{tf with eax := eax},none⟩

/-- Whether the first argument is a pointer that a call follows. -/
def ptrAccepted (tf : Trapframe) : Bool := tf.ebx≠0 && validateUserPtr tf.ebx 1

/-- syscall_handle, with what happens to the kernel between the turns of
SYS_SLEEP. -/
def syscallHandle (resume : ℕ→Kernel F→Kernel F) (fuel : ℕ) (k : Kernel F) (tf : Trapframe) :
    Option (Outcome F) :=
  match Syscall.ofNumber tf.eax with
  | some .sysWrite => (doWrite k tf.ebx tf.ecx tf.edx).bind fun (k,r) => reply tf k r
  | some .sysRead => reply tf k (doRead tf.ebx tf.ecx tf.edx)
  | some .sysExit =>
    let r := procExit k.procs tf.ebx
    some ⟨k.setProcs r.1,tf,r.2⟩
  | some .sysGetpid => reply tf k (currentPid k)
  | some .sysGettid => reply tf k (currentPid k)
  | some .sysGetppid => reply tf k 0
  | some .sysGetuid => reply tf k 0
  | some .sysGeteuid => reply tf k 0
  | some .sysGetgid => reply tf k 0
  | some .sysGetegid => reply tf k 0
  | some .sysMalloc =>
    if tf.ebx<0x100000 then
      (kmalloc fuel k.heap tf.ebx).bind fun (heap,p) => reply tf (k.setHeap heap) p
    else reply tf k 0
  | some .sysFree =>
    if ptrAccepted tf then
      (kfree fuel k.heap tf.ebx).bind fun (heap,_) => reply tf (k.setHeap heap) 0
    else reply tf k 0
  | some .sysTime => reply tf k (timerSeconds k)
  | some .sysYield =>
    let r := procYield k.procs
    some ⟨k.setProcs r.1,{tf with eax := 0},r.2⟩
  | some .sysSleep =>
    let target := timerSeconds k+tf.ebx
    (runLoop (sleepTurn resume target) fuel (1,resume 0 k)).bind fun k => reply tf k 0
  | some .sysOpen =>
    if ptrAccepted tf then
      (stringAt k.mem tf.ebx).bind fun path =>
        match vfsLookup k.vfs (some path) with
        | some _ => reply tf k 0
        | none => reply tf k (-1)
    else reply tf k (-1)
  | some .sysClose => reply tf k 0
  | some .sysLseek => reply tf k (-1)
  | some .sysStat => reply tf k (-1)
  | some .sysExec => reply tf k (-1)
  | some .sysFork => reply tf k 0
  | some .sysKill => reply tf k (-1)
  | some .sysAlarm => reply tf k 0
  | some .sysBrk => reply tf k 0
  | some .sysDup => reply tf k tf.ebx
  | some .sysDup2 => reply tf k tf.ebx
  | some .sysPipe => reply tf k (-1)
  | some .sysChmod => reply tf k 0
  | some .sysMkdir =>
    if ptrAccepted tf then
      (stringAt k.mem tf.ebx).bind fun path =>
        let r := vfsMkdir k.vfs (some path)
        reply tf {k with vfs := r.1} (BitVec.ofInt 32 r.2)
    else reply tf k (-1)
  | some .sysRmdir => reply tf k 0
  | some .sysUnlink => reply tf k 0
  | some .sysRename => reply tf k 0
  | some .sysUmask => reply tf k 0
  | some .sysGetcwd => reply tf k 0
  | some .sysGetpgrp => reply tf k 0
  | some .sysGetsid => reply tf k 0
  | some .sysSetsid => reply tf k 0
  | some .sysSetpgrp => reply tf k 0
  | none => reply tf k (-1)

/-- Every case is selected by its number. -/
theorem Syscall.ofNumber_number (c : Syscall) : Syscall.ofNumber c.number=some c := by
  cases c <;> rfl

section Cases

variable {resume : ℕ→Kernel F→Kernel F} {fuel : ℕ} {k : Kernel F} {tf : Trapframe}

/-- The case of SYS_WRITE. -/
theorem syscallHandle_write (he : tf.eax=Syscall.sysWrite.number) :
    syscallHandle resume fuel k tf=
      (doWrite k tf.ebx tf.ecx tf.edx).bind fun r => reply tf r.1 r.2 := by
  rw [syscallHandle,he,Syscall.ofNumber_number]

/-- The case of SYS_MALLOC. -/
theorem syscallHandle_malloc (he : tf.eax=Syscall.sysMalloc.number) :
    syscallHandle resume fuel k tf=if tf.ebx<0x100000 then
      (kmalloc fuel k.heap tf.ebx).bind fun r => reply tf (k.setHeap r.1) r.2
    else reply tf k 0 := by
  rw [syscallHandle,he,Syscall.ofNumber_number]

/-- The case of SYS_FREE. -/
theorem syscallHandle_free (he : tf.eax=Syscall.sysFree.number) :
    syscallHandle resume fuel k tf=if ptrAccepted tf then
      (kfree fuel k.heap tf.ebx).bind fun r => reply tf (k.setHeap r.1) 0
    else reply tf k 0 := by
  rw [syscallHandle,he,Syscall.ofNumber_number]

/-- The case of SYS_OPEN. -/
theorem syscallHandle_open (he : tf.eax=Syscall.sysOpen.number) :
    syscallHandle resume fuel k tf=if ptrAccepted tf then
      (stringAt k.mem tf.ebx).bind fun path =>
        match vfsLookup k.vfs (some path) with
        | some _ => reply tf k 0
        | none => reply tf k (-1)
    else reply tf k (-1) := by
  rw [syscallHandle,he,Syscall.ofNumber_number]

/-- The case of SYS_MKDIR. -/
theorem syscallHandle_mkdir (he : tf.eax=Syscall.sysMkdir.number) :
    syscallHandle resume fuel k tf=if ptrAccepted tf then
      (stringAt k.mem tf.ebx).bind fun path =>
        reply tf {k with vfs := (vfsMkdir k.vfs (some path)).1}
          (BitVec.ofInt 32 (vfsMkdir k.vfs (some path)).2)
    else reply tf k (-1) := by
  rw [syscallHandle,he,Syscall.ofNumber_number]

end Cases

/-- A pointer is accepted exactly when its range lies in user space; the
empty range may start right behind it. -/
theorem validateUserPtr_iff (ptr size : Word) :
    validateUserPtr ptr size=true ↔ 0x08000000≤ptr.toNat ∧ ptr.toNat+size.toNat≤0xC0000000 := by
  unfold validateUserPtr userSpaceStart userSpaceEnd
  dsimp only
  split_ifs with h1 h2
  · simp only [false_iff]
    bv_omega
  · simp only [false_iff]
    bv_omega
  · simp only [true_iff]
    bv_omega

/-- A pointer argument is followed exactly when it points into user space. -/
theorem ptrAccepted_iff (tf : Trapframe) :
    ptrAccepted tf=true ↔ 0x08000000≤tf.ebx.toNat ∧ tf.ebx.toNat<0xC0000000 := by
  have h1 : (1 : Word).toNat=1 := rfl
  unfold ptrAccepted
  rw [Bool.and_eq_true,decide_eq_true_iff,validateUserPtr_iff,h1]
  constructor
  · rintro ⟨_,hlo,hhi⟩
    exact ⟨hlo,by omega⟩
  · rintro ⟨hlo,hhi⟩
    refine ⟨fun he => ?_,hlo,by omega⟩
    rw [he] at hlo
    exact absurd hlo (by decide)

end EronKernel.SyscallModel

import EronKernel.HeapRuns
import EronKernel.InterruptModel

/-!
# The kernel as one machine

Everything that can happen to the kernel's state, in any order: interrupts of
every kind with any frame, the turns of SYS_SLEEP, calls of the process table,
of the allocator, of the file system and of the terminal that kernel code
makes, and stores by whatever runs. A store goes to the stacks of the slot that
runs, or to memory outside the process table and the heap. The other statics of
the modelled modules (the file system, the terminal, the tracker of the
allocator, the fields of the slots, current_proc, the TSS) are parts of the state
beside memory, which no store reaches. Addresses are memory's own: the paging
that kernel_main turns on, with a directory that the source never loads, is left
out.
-/

namespace EronKernel.SystemModel

open ByteMemory DescriptorFormat HeapModel HeapRuns TtyModel KeyboardModel VfsModel ProcModel SyscallModel
  InterruptModel

variable {F : Type}

/-- Where the linker and mm_init put the process table and the heap. -/
structure Layout where
  /-- Address of the process array. -/
  base : Word
  /-- First address of the heap. -/
  heapStart : Word
  /-- First address behind the heap. -/
  heapEnd : Word
  /-- The process array is part of the image, which the heap lies behind. -/
  below : base.toNat+16*processSize≤heapStart.toNat
  /-- The heap is not empty. -/
  ordered : heapStart.toNat≤heapEnd.toNat
  /-- The heap ends below user space. -/
  belowUser : heapEnd.toNat≤0x08000000

/-- The kernel, and the pointers that its clients hold. -/
structure Machine (F : Type) where
  /-- The kernel. -/
  system : System F
  /-- Pointers that kmalloc returned and that were not released. -/
  live : List Word

/-- An address in the process array or in the heap. -/
def Owned (L : Layout) (x : Word) : Prop :=
  (L.base.toNat≤x.toNat ∧ x.toNat<L.base.toNat+16*processSize) ∨
    (L.heapStart.toNat≤x.toNat ∧ x.toNat<L.heapEnd.toNat)

instance (L : Layout) (x : Word) : Decidable (Owned L x) := inferInstanceAs (Decidable (_ ∨ _))

/-- Bytes of a slot's two stacks. -/
abbrev stacksSize : ℕ := 8192

/-- An address in the stacks of a slot, by its distance from the lowest one. -/
def stackByte (s : Procs) (k : ProcSlot) (off : ℕ) : Word := kernelStack s k+BitVec.ofNat 32 off

/-- What can happen next. -/
inductive Event (F : Type) where
  /-- An interrupt reaches interrupt_dispatch; the stack pointer is saved if it
  ends in a switch. -/
  | interrupt (sc : Scratch) (scancode : Byte) (f : InterruptFrame) (esp : Word)
  /-- A process in SYS_SLEEP asks the clock once more. -/
  | sleepTurn (target esp : Word)
  /-- Kernel code calls the process table. -/
  | proc (op : ProcOp)
  /-- Kernel code calls the allocator, or writes to a block that it holds. -/
  | heap (c : HeapCall)
  /-- Kernel code calls the file system. -/
  | file (o : VfsOp F)
  /-- Kernel code writes to the terminal. -/
  | tty (op : TtyOp)
  /-- The process that runs stores to its kernel or user stack. -/
  | stackStore (off : ℕ) (b : Byte)
  /-- Any other memory is stored to, such as the boot stack, user space or a static
  that no modelled function reads. -/
  | store (x : Word) (b : Byte)

/-- The line that the processor acknowledges for an interrupt. -/
def raise (s : System F) (intNo : Word) : System F :=
  if intNo=32 then {s with pic := s.pic.acknowledge 0}
  else if intNo=33 then {s with pic := s.pic.acknowledge 1}
  else s

/-- The frame is a call of SYS_SLEEP, which takes many events. -/
def Sleeps (f : InterruptFrame) : Prop :=
  f.intNo=0x80 ∧ Syscall.ofNumber f.regs.eax=some .sysSleep

instance (f : InterruptFrame) : Decidable (Sleeps f) := inferInstanceAs (Decidable (_ ∧ _))

/-- Pointers that clients hold after an interrupt: SYS_MALLOC hands one out,
SYS_FREE takes one back. -/
def liveAfter (m : Machine F) (f : InterruptFrame) (eax : Word) : List Word :=
  if f.intNo=0x80 then
    if f.regs.eax=Syscall.sysMalloc.number ∧ eax≠0 then eax::m.live
    else if f.regs.eax=Syscall.sysFree.number ∧ ptrAccepted f.regs=true ∧
        trackValidate m.system.kernel.heap.tracked f.regs.ebx=true then m.live.erase f.regs.ebx
    else m.live
  else m.live

/-- Give up the processor as a switch demands. -/
def switchTo (s : System F) (esp : Word) (r : Procs×Option Switch) : System F :=
  s.setProcs (saveContext esp r)

/-- Store a byte. -/
def poke (s : System F) (x : Word) (b : Byte) : System F :=
  {s with kernel := s.kernel.withMem (store8 s.kernel.mem x b)}

/-- One event; no value when it cannot happen, or does not come to its end. -/
def step (L : Layout) (fuel : ℕ) (m : Machine F) (e : Event F) : Option (Machine F) :=
  if m.system.halted then none
  else match e with
    | .interrupt sc scancode f esp =>
      if Sleeps f then none
      else (interruptDispatch (fun _ k => k) fuel sc (raise m.system f.intNo) scancode f).map fun d =>
        ⟨switchTo d.system esp (d.system.kernel.procs,d.switch),liveAfter m f d.regs.eax⟩
    | .sleepTurn target esp =>
      if timerSeconds m.system.kernel<target then
        some {m with system := switchTo m.system esp (procYield m.system.kernel.procs)}
      else some m
    | .proc op => (procStep m.system.kernel.procs op).map fun procs =>
        {m with system := m.system.setProcs procs}
    | .heap c => (perform fuel ⟨m.system.kernel.heap,m.live⟩ c).map fun st =>
        ⟨{m.system with kernel := m.system.kernel.setHeap st.heap},st.live⟩
    | .file o => some {m with system := {m.system with
        kernel := {m.system.kernel with vfs := performOp m.system.kernel.vfs o}}}
    | .tty op => some {m with system := m.system.setTerminal (performTty m.system.keyboard.terminal op)}
    | .stackStore off b =>
      match m.system.kernel.procs.currentProc with
      | none => none
      | some k => if k.val≠0 ∧ off<stacksSize then
          some {m with system := poke m.system (stackByte m.system.kernel.procs k off) b} else none
    | .store x b => if Owned L x then none else some {m with system := poke m.system x b}

/-- The machine when the process table was initialized: the heap is one free
block, the terminal was initialized and the interrupt controllers were set up.
Everything else is arbitrary. -/
structure Boot (L : Layout) (m : Machine F) : Prop where
  /-- The heap of mm_init, over whatever memory. -/
  heap : ∃ mem tracked start size,12 ≤ size.toNat ∧ (align8 start).toNat+size.toNat<2^32 ∧
    align8 start=L.heapStart ∧ align8 start+size=L.heapEnd ∧
    m.system.kernel.heap=mmInit mem tracked start size
  /-- The process table of proc_init. -/
  procs : ∃ s : Procs,m.system.kernel.procs=procInit s
  /-- It lies where the linker put it. -/
  base : m.system.kernel.procs.base=L.base
  /-- The file system after vfs_init and any calls. -/
  vfs : ∃ os : List (VfsOp F),m.system.kernel.vfs=performOps (vfsInit zeroed) os
  /-- The terminal after terminal_initialize and any calls. -/
  terminal : ∃ t,∃ ops : List TtyOp,m.system.keyboard.terminal=ops.foldl performTty (terminalInitialize t)
  /-- The controller after its initialization. -/
  pic : m.system.pic=⟨0x20,0xFC,0,0⟩
  /-- No pointer was handed out. -/
  live : m.live=[]

/-- Machines that a run from boot reaches. -/
inductive Reaches (L : Layout) (fuel : ℕ) (m : Machine F) : Machine F→Prop where
  /-- Nothing happened. -/
  | refl : Reaches L fuel m m
  /-- One more event. -/
  | step {t u : Machine F} (e : Event F) : Reaches L fuel m t→step L fuel t e=some u→Reaches L fuel m u

end EronKernel.SystemModel

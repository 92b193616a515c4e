import EronKernel.ShellServices
import EronKernel.SystemModel

/-!
# The shell on the machine

The main loop of kernel_main runs the shell in slot zero. A line selects a
program of the table, and the program reports, changes files, sets the flags
of a service, calls the allocator or resolves a program to execute. Where
proc_create gives a child, the loop of prog_exec gives the processor away until
it has exited. Between two lines the main loop reaps. Everything acts on the
kernel of SystemModel, so that a session of the shell can be compared with the
runs of that kernel, and addresses are memory's own as there. A line is one
step: interrupts come between two lines or between two turns of that loop, and
not inside a program of the shell.
-/

namespace EronKernel.ShellMachine

open ByteMemory CString HeapModel TtyModel ProcModel VfsModel ProcFiles ShellModel ShellListing ShellExec
  TaskModel SystemModel ShellReports ShellServices

/-- Where the linker put what prog_exec uses. -/
structure ExecLayout (L : Layout) where
  /-- The routines inside the kernel. -/
  image : KernelImage
  /-- Address of buf in prog_exec, on the boot stack. -/
  execBuf : Word
  /-- The boot stack is neither in the process table nor in the heap. -/
  free : ∀ k<4096,¬Owned L (execBuf+BitVec.ofNat 32 k)
  /-- It is part of the image, below user space. -/
  below : execBuf.toNat+4096≤0x08000000

/-- What the hardware reads while a line is executed, and what the arrays on
the stack happen to hold. -/
structure Input where
  /-- cpuid for a leaf. -/
  cpuid : Word→Cpuid
  /-- The registers of the real-time clock. -/
  readCmos : Byte→Byte
  /-- The arrays. -/
  stack : Buf

/-- What the shell is doing. -/
inductive Mode where
  /-- No line is executed. -/
  | idle
  /-- prog_exec waits for its child. -/
  | waiting (child : ProcSlot)
  /-- The processor was stopped. -/
  | stopped
  deriving DecidableEq

/-- The kernel with the statics of the shell. -/
structure Shell where
  /-- The kernel and the pointers that its clients hold. -/
  machine : SystemModel.Machine ProcFile
  /-- The program table. -/
  programs : Programs ShellProgram
  /-- The services. -/
  services : Services
  /-- shell_batch_mode is set. -/
  batch : Bool
  /-- What the shell is doing. -/
  mode : Mode

/-- The file system. -/
def Shell.files (s : Shell) : Vfs ProcFile := s.machine.system.kernel.vfs

/-- The process table. -/
def Shell.procs (s : Shell) : Procs := s.machine.system.kernel.procs

/-- Slot zero, in which the shell runs, has the processor. -/
def Shell.hasProcessor (s : Shell) : Bool := s.procs.currentProc.any fun k => k.val==0

/-- The allocator. -/
def Shell.heap (s : Shell) : Heap := s.machine.system.kernel.heap

/-- Calls of the terminal. -/
def Shell.write (s : Shell) (ops : List TtyOp) : Shell :=
  {s with machine := {s.machine with
    system := s.machine.system.setTerminal (ops.foldl performTty s.machine.system.keyboard.terminal)}}

/-- Replace the file system. -/
def Shell.setFiles (s : Shell) (files : Vfs ProcFile) : Shell :=
  {s with machine := {s.machine with system := {s.machine.system with
    kernel := {s.machine.system.kernel with vfs := files}}}}

/-- Replace the allocator and the pointers that clients hold. -/
def Shell.setHeap (s : Shell) (heap : Heap) (live : List Word) : Shell :=
  {s with machine :=
    ⟨{s.machine.system with kernel := s.machine.system.kernel.setHeap heap},live⟩}

/-- Replace the process table. -/
def Shell.setProcs (s : Shell) (procs : Procs) : Shell :=
  {s with machine := {s.machine with system := s.machine.system.setProcs procs}}

/-- What the programs find. -/
def Shell.view (fuel : ℕ) (inp : Input) (s : Shell) : Option View :=
  (mmUsed fuel s.heap).bind fun used => (mmFree fuel s.heap).map fun free =>
    { cpuid := inp.cpuid
      readCmos := inp.readCmos
      mmTotal := mmTotal s.heap
      mmUsed := used
      mmFree := free
      clock := ⟨s.machine.system.kernel.ticks,s.machine.system.kernel.frequency⟩
      programs := s.programs
      procs := s.procs
      files := s.files
      stack := inp.stack }

/-- A program that changes files. -/
def Shell.runFile (s : Shell) (v : View) (prog : FileProgram) (argv : List CStr) : Shell :=
  let o := runProgram (procCall v.machine) v.stack prog s.files argv
  (s.setFiles o.vfs).write [.writestring (.ofBytes o.out)]

/-- prog_service. -/
def Shell.runService (s : Shell) (argv : List CStr) : Shell :=
  let r := progService s.services argv
  {s with services := r.1}.write r.2.2

/-- kmalloc, with the pointers that are held. -/
def Shell.kmalloc (fuel : ℕ) (s : Shell) (size : Word) : Option (Shell×Word) :=
  (HeapModel.kmalloc fuel s.heap size).map fun r =>
    (s.setHeap r.1 (if r.2=0 then s.machine.live else r.2::s.machine.live),r.2)

/-- kfree, with the pointers that are held. -/
def Shell.kfree (fuel : ℕ) (s : Shell) (ptr : Word) : Option Shell :=
  (HeapModel.kfree fuel s.heap ptr).map fun r =>
    s.setHeap r.1 (if r.2=1 then s.machine.live.erase ptr else s.machine.live)

/-- The lines of prog_malloc_test that name the used and the free bytes. -/
def Shell.writeUsage (fuel : ℕ) (s : Shell) (label : String) : Option Shell :=
  (mmUsed fuel s.heap).bind fun used => (mmFree fuel s.heap).map fun free =>
    s.write [str label,num used,str " free=",num free,str "\n"]

/-- prog_malloc_test. -/
def Shell.mallocTest (fuel : ℕ) (s : Shell) : Option Shell := do
  let s ← (s.write [color vgaColorWhite,str "\nHeap test:\n",color vgaColorLightGrey]).writeUsage fuel
    " Before: used="
  let (s,p₁) ← s.kmalloc fuel 64
  let (s,p₂) ← s.kmalloc fuel 128
  let (s,p₃) ← s.kmalloc fuel 256
  let s ← (s.write [str " Allocated 64+128+256 bytes\n"]).writeUsage fuel " After:  used="
  let s ← s.kfree fuel p₁
  let s ← s.kfree fuel p₂
  let s ← s.kfree fuel p₃
  some (s.write [str " Freed all blocks"])

/-- The calls of the terminal that prog_exec makes once the entry is
resolved. -/
def execText (ps : Procs) (path : CStr) (m : Mem) (entry : Word) (name : CStr) : List TtyOp :=
  if execBuiltin path=none ∧ entry=0 then
    [color vgaColorLightRed,str "\nexec: ",.writestring path,str ": not executable"]
  else if (procCreate {ps with mem := m} name entry).2<0 then
    [str "\n",color vgaColorLightRed,str "exec: process table full"]
  else [str "\n"]

/-- What the shell does after prog_exec has done its part up to the wait. -/
def modeAfter : ExecReply→Mode
  | .waits child => .waiting child
  | _ => .idle

variable {L : Layout}

/-- prog_exec, up to its wait. -/
def Shell.runExec (X : ExecLayout L) (s : Shell) (v : View) : List CStr→Option Shell
  | _::path::_ =>
    (execEntry X.image (procCall v.machine) s.files s.procs.mem X.execBuf path).map fun (m,entry,name) =>
      let r := execResolved s.procs path m entry name
      {(s.setProcs r.1).write (execText s.procs path m entry name) with mode := modeAfter r.2}
  | _ => some (s.write [color vgaColorLightRed,str "\nexec: usage: exec <program>"])

/-- A program of the table. prog_halt stops the processor, and so does
prog_reboot, which is never called. -/
def Shell.callProgram (fuel : ℕ) (X : ExecLayout L) (inp : Input) (s : Shell) (prog : ShellProgram)
    (argv : List CStr) : Option Shell :=
  (s.view fuel inp).bind fun v => match prog with
    | .touch => some (s.runFile v .touch argv)
    | .write => some (s.runFile v .write argv)
    | .rm => some (s.runFile v .rm argv)
    | .mv => some (s.runFile v .mv argv)
    | .mkdir => some (s.runFile v .mkdir argv)
    | .chmod => some (s.runFile v .chmod argv)
    | .cp => some (s.runFile v .cp argv)
    | .append => some (s.runFile v .append argv)
    | .service => some (s.runService argv)
    | .mallocTest => s.mallocTest fuel
    | .exec => s.runExec X v argv
    | .reboot => some {s.write [str "\nRestarting...\n"] with mode := .stopped}
    | .halt => some {s.write [str "\nSystem halted.\n"] with mode := .stopped}
    | prog => (report v argv prog).map fun r => s.write r.2

/-- The prompt, except in a script. -/
def Shell.prompt (s : Shell) : Shell := if s.batch then s else s.write printPrompt

/-- The end of execute_command. -/
def Shell.finish (s : Shell) : Shell := (s.write [color vgaColorLightGrey,str "\n"]).prompt

/-- What execute_command does once the program has returned; clear is treated
on its own there, and a program that waits or stops has not returned. -/
def Shell.returned (s : Shell) (argv : List CStr) : Shell :=
  if s.mode≠.idle then s
  else if argv.head?=some (.lit "clear") then s.prompt
  else s.finish

/-- execute_command. -/
def Shell.executeCommand (fuel : ℕ) (X : ExecLayout L) (inp : Input) (s : Shell) (cmd : CStr) :
    Option Shell :=
  let s := s.write [color vgaColorLightGrey]
  match TaskModel.executeCommand s.programs cmd with
  | .nothing => some s.prompt
  | .message text => some (s.write [color vgaColorLightRed,.writestring (.ofBytes text)]).finish
  | .call none _ => none
  | .call (some prog) argv => (s.callProgram fuel X inp prog argv).map fun s => s.returned argv

/-- Something that the kernel's own code does not do by itself: interrupts,
the turns of a process that sleeps, and stores. -/
def FromOutside : Event ProcFile→Prop
  | .interrupt _ _ _ _ => True
  | .sleepTurn _ _ => True
  | .stackStore _ _ => True
  | .store _ _ => True
  | _ => False

instance (e : Event ProcFile) : Decidable (FromOutside e) := by
  cases e <;> unfold FromOutside <;> infer_instance

/-- What can happen next. -/
inductive ShellEvent where
  /-- The main loop or a script hands a line to execute_command. -/
  | line (inp : Input) (cmd : CStr)
  /-- shell_run_script sets shell_batch_mode before its first line, or clears it
  behind its last; the lines in between are lines like any other. -/
  | script (batch : Bool)
  /-- The main loop reaps. -/
  | reap
  /-- prog_exec looks at its child and calls schedule, which saves the stack
  pointer, or returns. -/
  | turn (esp : Word)
  /-- Anything from outside. -/
  | outside (e : Event ProcFile)

/-- An event of the kernel. -/
def Shell.kernelStep (L : Layout) (fuel : ℕ) (s : Shell) (e : Event ProcFile) : Option Shell :=
  (SystemModel.step L fuel s.machine e).map fun m => {s with machine := m}

/-- The loop of prog_exec, once around. -/
def Shell.execTurn (L : Layout) (fuel : ℕ) (s : Shell) (child : ProcSlot) (esp : Word) : Option Shell :=
  if ¬s.hasProcessor then none
  else if (s.procs.procs child).state=.ready ∨ (s.procs.procs child).state=.running then
    s.kernelStep L fuel (.proc (.yield esp))
  else (s.kernelStep L fuel (.proc (.release child))).map fun s => {s with mode := .idle}.finish

/-- One event; no value when it cannot happen, or does not come to its end. -/
def Shell.step (fuel : ℕ) (X : ExecLayout L) (s : Shell) : ShellEvent→Option Shell
  | .line inp cmd =>
    if s.mode=.idle ∧ s.hasProcessor ∧ s.machine.system.halted=false then
      s.executeCommand fuel X inp cmd
    else none
  | .script batch => if s.mode=.idle then some {s with batch := batch} else none
  | .reap => if s.mode=.idle then s.kernelStep L fuel (.proc .reap) else none
  | .turn esp => match s.mode with
    | .waiting child => s.execTurn L fuel child esp
    | _ => none
  | .outside e => if s.mode≠.stopped ∧ FromOutside e then s.kernelStep L fuel e else none

/-- The runs of the shell, by their events. -/
inductive Session (fuel : ℕ) (X : ExecLayout L) (s : Shell) : List ShellEvent→Shell→Prop where
  /-- Nothing happened. -/
  | refl : Session fuel X s [] s
  /-- One more event. -/
  | step {es : List ShellEvent} {t u : Shell} (e : ShellEvent) : Session fuel X s es t→
    t.step fuel X e=some u→Session fuel X s (es++[e]) u

/-- The shell when kernel_main is about to run /etc/init.rc, on a kernel with
everything initialized: the programs are registered, the services are as the
source has them and no script runs yet. -/
structure ShellBoot (L : Layout) (s : Shell) : Prop where
  /-- The kernel. -/
  machine : Boot L s.machine
  /-- The program table, over whatever was there. -/
  programs : ∃ t,s.programs=registerAll (programsInit t) shellRegisterPrograms
  /-- The services. -/
  services : s.services=services
  /-- Batch mode is off. -/
  batch : s.batch=false
  /-- No line is executed. -/
  mode : s.mode=.idle

end EronKernel.ShellMachine

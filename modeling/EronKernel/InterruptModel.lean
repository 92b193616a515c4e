import EronKernel.DecimalPrinters
import EronKernel.DescriptorFormat
import EronKernel.KeyboardModel
import EronKernel.SyscallModel

/-!
# interrupt_dispatch of interrupt.c

The kernel's parts behind one entry point: the system call interface, the
terminal and the keyboard, and the interrupt controller that wants an end of
interrupt for every line it raised. A fault of a user program is reported and
ends the program; a fault of the kernel halts the machine.
-/

namespace EronKernel.InterruptModel

open ByteMemory CString BoundedCells DescriptorFormat TtyModel KeyboardModel DecimalPrinters ProcModel
  SyscallModel

variable {F : Type}

/-- VGA_COLOR_LIGHT_RED. -/
abbrev vgaColorLightRed : Byte := 12

/-- VGA_COLOR_LIGHT_GREY. -/
abbrev vgaColorLightGrey : Byte := 7

/-- VGA_COLOR_BLACK. -/
abbrev vgaColorBlack : Byte := 0

/-- The whole kernel. -/
structure System (F : Type) where
  /-- Allocator, file system, process table and clock over one memory. -/
  kernel : SyscallModel.Kernel F
  /-- The keyboard and the terminal that everything is written to. -/
  keyboard : Keyboard
  /-- The first interrupt controller. -/
  pic : Controller
  /-- The machine stopped in a panic. -/
  halted : Bool

/-- The fields of struct trapframe that interrupt_dispatch and the handlers
use. -/
structure InterruptFrame where
  /-- int_no. -/
  intNo : Word
  /-- err_code. -/
  errCode : Word
  /-- eip. -/
  eip : Word
  /-- cs. -/
  cs : Word
  /-- The registers that system calls use. -/
  regs : SyscallModel.Trapframe

/-- What the automatic arrays of the printers happen to hold. -/
structure Scratch where
  /-- tmp of print_dec. -/
  tmp : Row 12
  /-- buf of print_dec. -/
  buf : Row 12
  /-- h of print_hex. -/
  hex : Row 9

/-- What interrupt_dispatch leaves when it comes to its end or to a switch. -/
structure Dispatched (F : Type) where
  /-- The kernel afterwards. -/
  system : System F
  /-- The registers of the frame afterwards. -/
  regs : SyscallModel.Trapframe
  /-- The switch that it ends in, when it gives up the processor. -/
  switch : Option Switch

/-- The characters that print_hex chooses from. -/
def hexDigits : List Byte := ascii "0123456789ABCDEF"

/-- for (int i = 7; i >= 0; i--) { h[i] = hex[v & 0xF]; v >>= 4; }, from below
index i on. -/
def hexLoop : ℕ→Word→Row 9→Option (Row 9)
  | 0,_,h => some h
  | i+1,v,h => (put h i (hexDigits.getD (v&&&0xF).toNat 0)).bind fun h => hexLoop i (v>>>4) h

/-- print_hex. -/
def printHex (h : Row 9) (v : Word) (t : Terminal) : Option Terminal :=
  (hexLoop 8 v h).bind fun h => (put h 8 0).map fun h => terminalWritestring t (rowStr h)

/-- fault_name. -/
def faultName (n : Word) : CStr :=
  if n=0 then .lit "division error"
  else if n=6 then .lit "invalid opcode"
  else if n=13 then .lit "general protection"
  else if n=14 then .lit "page fault"
  else .lit "exception"

/-- The text of a fault in a user program, up to its colour. -/
def reportFault (sc : Scratch) (current : Option Word) (f : InterruptFrame) (t : Terminal) :
    Option Terminal :=
  let t := terminalSetcolor t (vgaEntryColor vgaColorLightRed vgaColorBlack)
  let t := terminalWritestring t (.lit "\n[fault] ")
  let t := terminalWritestring t (faultName f.intNo)
  let t := terminalWritestring t (.lit " in pid ")
  (match current with
    | some pid => printDec sc.tmp sc.buf pid t
    | none => some t).bind fun t =>
  let t := terminalWritestring t (.lit " at 0x")
  (printHex sc.hex f.eip t).bind fun t =>
  (if f.intNo=13 ∨ f.intNo=14 then
    let t := terminalWritestring t (.lit " err=0x")
    printHex sc.hex f.errCode t
  else some t).map fun t =>
  let t := terminalSetcolor t (vgaEntryColor vgaColorLightGrey vgaColorBlack)
  terminalWritestring t (.lit "\n")

/-- The text of a fault in the kernel. -/
def reportPanic (sc : Scratch) (f : InterruptFrame) (t : Terminal) : Option Terminal :=
  let t := terminalSetcolor t (vgaEntryColor vgaColorLightRed vgaColorBlack)
  let t := terminalWritestring t (.lit "\n\nKERNEL PANIC: ")
  let t := terminalWritestring t (faultName f.intNo)
  let t := terminalWritestring t (.lit " at 0x")
  (printHex sc.hex f.eip t).map fun t => terminalWritestring t (.lit "\nSystem halted.")

/-- Write to the terminal. -/
def System.setTerminal (s : System F) (t : Terminal) : System F :=
  {s with keyboard := {s.keyboard with terminal := t}}

/-- Replace the process table. -/
def System.setProcs (s : System F) (procs : Procs) : System F :=
  {s with kernel := s.kernel.setProcs procs}

/-- The characters that a system call gave to the terminal appear there. -/
def System.absorb (s : System F) (kernel : SyscallModel.Kernel F) : System F :=
  let shown := (kernel.output.drop s.kernel.output.length).foldl terminalPutchar s.keyboard.terminal
  {s.setTerminal shown with kernel := kernel}

/-- The frame was made in user mode. -/
def InterruptFrame.fromUser (f : InterruptFrame) : Prop := f.cs&&&3=3

instance (f : InterruptFrame) : Decidable f.fromUser := inferInstanceAs (Decidable (_=_))

/-- The end of interrupt that the handlers of the two lines send. -/
def System.endOfInterrupt (s : System F) : System F := {s with pic := s.pic.command 0x20}

/-- timer_tick: the end of interrupt comes before the switch. -/
def timerTick (s : System F) (f : InterruptFrame) : System F×Option Switch :=
  let s := {s with kernel := {s.kernel with ticks := s.kernel.ticks+1}}
  let s := s.endOfInterrupt
  if f.fromUser ∧ s.kernel.ticks%10=0 then
    let r := schedule s.kernel.procs
    (s.setProcs r.1,r.2)
  else (s,none)

/-- Pid of the current process, when there is one. -/
def System.currentPid (s : System F) : Option Word :=
  s.kernel.procs.currentProc.map fun p => (s.kernel.procs.procs p).pid

/-- The case of a system call. -/
def dispatchSyscall (resume : ℕ→SyscallModel.Kernel F→SyscallModel.Kernel F) (fuel : ℕ) (s : System F)
    (f : InterruptFrame) : Option (Dispatched F) :=
  (syscallHandle resume fuel s.kernel f.regs).map fun o =>
    ⟨s.absorb o.kernel,o.tf,o.switch⟩

/-- The cases of faults. -/
def dispatchFault (sc : Scratch) (s : System F) (f : InterruptFrame) : Option (Dispatched F) :=
  if f.fromUser then
    (reportFault sc s.currentPid f s.keyboard.terminal).map fun t =>
      let r := procExit s.kernel.procs (-1)
      ⟨(s.setTerminal t).setProcs r.1,f.regs,r.2⟩
  else
    (reportPanic sc f s.keyboard.terminal).map fun t => ⟨{s.setTerminal t with halted := true},f.regs,none⟩

/-- interrupt_dispatch, with the scancode that the keyboard port would give. -/
def interruptDispatch (resume : ℕ→SyscallModel.Kernel F→SyscallModel.Kernel F) (fuel : ℕ) (sc : Scratch)
    (s : System F) (scancode : Byte) (f : InterruptFrame) : Option (Dispatched F) :=
  if f.intNo=0 ∨ f.intNo=6 ∨ f.intNo=13 ∨ f.intNo=14 then dispatchFault sc s f
  else if f.intNo=32 then
    let r := timerTick s f
    some ⟨r.1,f.regs,r.2⟩
  else if f.intNo=33 then
    let s := {s with keyboard := keyboardIrq s.keyboard scancode}
    some ⟨s.endOfInterrupt,f.regs,none⟩
  else if f.intNo=0x80 then dispatchSyscall resume fuel s f
  else some ⟨s,f.regs,none⟩

end EronKernel.InterruptModel

import EronKernel.SwitchModel
import EronKernel.TrapMachine

/-!
# The interrupt stubs of boot.S

Every stub brings the stack to the layout of struct trapframe and goes on in
int_common, which saves the registers, calls interrupt_dispatch with the
frame's address and restores what the frame holds then. The compiled dispatcher
is known by its calling convention alone.
-/

namespace EronKernel.TrapModel

open ByteMemory X86Machine TrapMachine ProcModel SwitchModel

/-- The interrupts that have a stub. -/
inductive Vector where
  /-- Division error. -/
  | divide
  /-- Invalid opcode. -/
  | opcode
  /-- General protection fault. -/
  | protection
  /-- Page fault. -/
  | page
  /-- Timer. -/
  | timer
  /-- Keyboard. -/
  | keyboard
  /-- System call. -/
  | syscall
  deriving DecidableEq,Repr

/-- The number that the stub pushes. -/
def Vector.number : Vector→Word
  | .divide => 0
  | .opcode => 6
  | .protection => 13
  | .page => 14
  | .timer => 32
  | .keyboard => 33
  | .syscall => 0x80

/-- The processor pushes an error code of its own. -/
def Vector.hasError : Vector→Bool
  | .protection | .page => true
  | _ => false

/-- isr0. -/
def isr0 (intCommon : Word) : List StubInstr := [.pushImm 0,.pushImm 0,.jmp intCommon]

/-- isr6. -/
def isr6 (intCommon : Word) : List StubInstr := [.pushImm 0,.pushImm 6,.jmp intCommon]

/-- isr13. -/
def isr13 (intCommon : Word) : List StubInstr := [.pushImm 13,.jmp intCommon]

/-- isr14. -/
def isr14 (intCommon : Word) : List StubInstr := [.pushImm 14,.jmp intCommon]

/-- timer_handler_asm. -/
def timerHandlerAsm (intCommon : Word) : List StubInstr := [.pushImm 0,.pushImm 32,.jmp intCommon]

/-- keyboard_handler_asm. -/
def keyboardHandlerAsm (intCommon : Word) : List StubInstr := [.pushImm 0,.pushImm 33,.jmp intCommon]

/-- syscall_handler_asm. -/
def syscallHandlerAsm (intCommon : Word) : List StubInstr := [.pushImm 0,.pushImm 0x80,.jmp intCommon]

/-- The stub of a vector. -/
def Vector.stub : Vector→Word→List StubInstr
  | .divide => isr0
  | .opcode => isr6
  | .protection => isr13
  | .page => isr14
  | .timer => timerHandlerAsm
  | .keyboard => keyboardHandlerAsm
  | .syscall => syscallHandlerAsm

/-- int_common up to its call. -/
def intCommonHead (dispatch : Word) : List StubInstr :=
  [.pusha,.pushSeg .ds,.pushSeg .es,.pushSeg .fs,.pushSeg .gs,.movAx 0x10,.movSeg .ds,.movSeg .es,
    .movSeg .fs,.movSeg .gs,.base (.push .esp),.base (.call dispatch)]

/-- int_common behind its call. -/
def intCommonTail : List StubInstr :=
  [.base (.addImm 4 .esp),.base (.popSeg .gs),.base (.popSeg .fs),.base (.popSeg .es),
    .base (.popSeg .ds),.base .popa,.base (.addImm 8 .esp),.base .iret]

/-- The kernel image with its stubs. -/
structure TrapKernel where
  /-- The part that switches. -/
  image : Kernel
  /-- Decoded instructions. -/
  code : StubCode
  /-- How the processor pushes selectors. -/
  sel : SelectorPush
  /-- Addresses of the stubs. -/
  stubs : Vector→Word
  /-- Address of int_common. -/
  intCommon : Word
  /-- Address of interrupt_dispatch. -/
  dispatch : Word
  /-- The code of the switch is part of it. -/
  embeds : ∀ a i,image.code a=some i→ code a=some (.base i)
  /-- Stubs lie where their labels say. -/
  codeStub : ∀ v,StubAt code (stubs v) (v.stub intCommon)
  /-- int_common lies where its label says. -/
  codeCommon : StubAt code intCommon (intCommonHead dispatch++intCommonTail)

/-- Where int_common goes on behind its call. -/
def TrapKernel.behindCall (T : TrapKernel) : Word :=
  (intCommonHead T.dispatch).foldl (fun a i => a+i.size) T.intCommon

/-- What the processor pushes for an interrupt of its own accord, without the
error code. -/
def entryWords (h : Handler) (c : Cpu) : List Word :=
  c.eip::c.cs.setWidth 32::c.eflags::
    if level h.cs<level c.cs then [c.reg .esp,c.ss.setWidth 32] else []

/-- Instructions from the stub to the first of interrupt_dispatch. -/
def entrySteps (v : Vector) : ℕ := (if v.hasError then 2 else 3)+12

/-- Instructions from the one behind the call to iret. -/
abbrev exitSteps : ℕ := 8

/-- The fields of struct trapframe above the selectors and below the error
code, for an interrupted state; the stack pointer in it is not used. -/
structure Frame (v : Vector) (err : Option Word) (h : Handler) (c : Cpu) (d : Cpu) : Prop where
  /-- Selector of gs. -/
  gs : (d.above 2).setWidth 16=c.seg .gs
  /-- Selector of fs. -/
  fs : (d.above 3).setWidth 16=c.seg .fs
  /-- Selector of es. -/
  es : (d.above 4).setWidth 16=c.seg .es
  /-- Selector of ds. -/
  ds : (d.above 5).setWidth 16=c.seg .ds
  /-- Register edi. -/
  edi : d.above 6=c.reg .edi
  /-- Register esi. -/
  esi : d.above 7=c.reg .esi
  /-- Register ebp. -/
  ebp : d.above 8=c.reg .ebp
  /-- Register ebx. -/
  ebx : d.above 10=c.reg .ebx
  /-- Register edx. -/
  edx : d.above 11=c.reg .edx
  /-- Register ecx. -/
  ecx : d.above 12=c.reg .ecx
  /-- Register eax. -/
  eax : d.above 13=c.reg .eax
  /-- Number of the interrupt. -/
  intNo : d.above 14=v.number
  /-- Error code, zero without one. -/
  errCode : d.above 15=err.getD 0
  /-- Interrupted place. -/
  eip : d.above 16=c.eip
  /-- Its code segment. -/
  cs : d.above 17=c.cs.setWidth 32
  /-- Its flags. -/
  eflags : d.above 18=c.eflags
  /-- Its stack pointer, when the level changed. -/
  userEsp : level h.cs<level c.cs→ d.above 19=c.reg .esp
  /-- Its stack segment, when the level changed. -/
  userSs : level h.cs<level c.cs→ d.above 20=c.ss.setWidth 32

end EronKernel.TrapModel

import EronKernel.X86Machine
import EronKernel.ProcModel

/-!
# swtch and trapret of boot.S

The two routines as instruction sequences, and what one pass through each
does: swtch saves four registers on the caller's stack, stores the stack
pointer through its first argument and continues from the stack its second
argument points to; trapret pops a trap frame field by field.
-/

namespace EronKernel.SwitchModel

open ByteMemory X86Machine ProcModel

/-- swtch. -/
def swtchCode : List Instr :=
  [.loadStack 4 .eax,.loadStack 8 .edx,.push .ebp,.push .ebx,.push .esi,.push .edi,.store .esp .eax,
    .mov .edx .esp,.pop .edi,.pop .esi,.pop .ebx,.pop .ebp,.ret]

/-- trapret. -/
def trapretCode : List Instr :=
  [.popSeg .gs,.popSeg .fs,.popSeg .es,.popSeg .ds,.popa,.addImm 8 .esp,.iret]

/-- The kernel image as far as the switch needs it: the two routines, the
process table and the stack of slot zero. -/
structure Kernel where
  /-- Decoded instructions. -/
  code : Code
  /-- Address of swtch. -/
  swtch : Word
  /-- Address of trapret. -/
  trapret : Word
  /-- Address of the process array. -/
  base : Word
  /-- Lowest address of the boot stack, on which slot zero runs. -/
  bootStack : Word
  /-- swtch lies where its label says. -/
  codeSwtch : CodeAt code swtch swtchCode
  /-- trapret lies where its label says. -/
  codeTrapret : CodeAt code trapret trapretCode
  /-- The linker places the boot stack outside the process array. -/
  apart : ∀ off<16384,¬InRange base (16*processSize) (bootStack+BitVec.ofNat 32 off)

/-- Distance of the context pointer from the start of struct process. -/
abbrev ctxOffset : ℕ := 8224

/-- Address of a slot's context pointer. -/
def ctxField (K : Kernel) (p : ProcSlot) : Word := K.base+BitVec.ofNat 32 (processSize*p.val+ctxOffset)

/-- Bytes of a slot's stack; slot zero has the boot stack. -/
def stackSize (p : ProcSlot) : ℕ := if p.val=0 then 16384 else 4096

/-- An address in a slot's stack, by its distance from the lowest one. -/
def stackAddr (K : Kernel) (p : ProcSlot) (off : ℕ) : Word :=
  if p.val=0 then K.bootStack+BitVec.ofNat 32 off
  else K.base+BitVec.ofNat 32 (processSize*p.val+32+off)

/-- The state after the call went through swtch. -/
def afterSwtch (K : Kernel) (c : Cpu) : Cpu := execBlock (advance c (.call K.swtch)) swtchCode

/-- Instructions from the call to the end of swtch. -/
abbrev swtchSteps : ℕ := 14

/-- The memory after the call pushed its return address. -/
def calledMem (c : Cpu) : Mem := store32 c.mem (c.reg .esp-4) (c.eip+5)

/-- The memory after swtch saved the registers. -/
def savedMem (c : Cpu) : Mem :=
  store32 (store32 (store32 (store32 (calledMem c) (c.reg .esp-8) (c.reg .ebp)) (c.reg .esp-12)
    (c.reg .ebx)) (c.reg .esp-16) (c.reg .esi)) (c.reg .esp-20) (c.reg .edi)

/-- The memory after swtch stored the stack pointer. -/
def switchedMem (c : Cpu) : Mem :=
  store32 (savedMem c) (load32 (calledMem c) (c.reg .esp)) (c.reg .esp-20)

/-- The call goes through swtch. -/
theorem run_swtch {K : Kernel} {c : Cpu} (h : K.code c.eip=some (.call K.swtch)) :
    run K.code swtchSteps c=some (afterSwtch K c) := by
  have hcall : run K.code 1 c=some (advance c (.call K.swtch)) := by
    simp only [run,step,h,Option.map_some,Option.bind_some]
  have hcode : CodeAt K.code (advance c (.call K.swtch)).eip (swtchCode.dropLast++[.ret]) := K.codeSwtch
  obtain ⟨hrun,_,hret⟩ := run_block hcode (by decide)
  have hlast : run K.code 1 (execBlock (advance c (.call K.swtch)) swtchCode.dropLast)=
      some (afterSwtch K c) := by
    rw [run,hret]
    rfl
  exact (run_add hcall 13).trans ((run_add hrun 1).trans hlast)

/-- What swtch leaves in registers and memory, with the context at the second
argument. -/
structure Switched (c d : Cpu) (new : Word) : Prop where
  /-- The memory. -/
  mem : d.mem=switchedMem c
  /-- The registers are popped in the order of struct context. -/
  edi : d.reg .edi=load32 (switchedMem c) new
  /-- Second word. -/
  esi : d.reg .esi=load32 (switchedMem c) (new+4)
  /-- Third word. -/
  ebx : d.reg .ebx=load32 (switchedMem c) (new+8)
  /-- Fourth word. -/
  ebp : d.reg .ebp=load32 (switchedMem c) (new+12)
  /-- The fifth word is where execution continues. -/
  eip : d.eip=load32 (switchedMem c) (new+16)
  /-- The stack pointer is behind the context. -/
  esp : d.reg .esp=new+20
  /-- The code segment is kept. -/
  cs : d.cs=c.cs

/-- One pass through swtch. -/
theorem afterSwtch_switched (K : Kernel) (c : Cpu) :
    Switched c (afterSwtch K c) (load32 (calledMem c) (c.reg .esp+4)) := by
  constructor
  all_goals simp [afterSwtch,execBlock,swtchCode,advance,execInstr,Cpu.setReg,Cpu.drop,Cpu.top,
    Cpu.pushWord,Instr.size,switchedMem,savedMem,calledMem,BitVec.add_assoc,BitVec.sub_eq_add_neg]

/-- What trapret leaves in the registers, by the words of the trap frame. -/
structure Restored (c d : Cpu) : Prop where
  /-- Selector of gs. -/
  gs : d.seg .gs=(c.above 0).setWidth 16
  /-- Selector of fs. -/
  fs : d.seg .fs=(c.above 1).setWidth 16
  /-- Selector of es. -/
  es : d.seg .es=(c.above 2).setWidth 16
  /-- Selector of ds. -/
  ds : d.seg .ds=(c.above 3).setWidth 16
  /-- Register edi. -/
  edi : d.reg .edi=c.above 4
  /-- Register esi. -/
  esi : d.reg .esi=c.above 5
  /-- Register ebp. -/
  ebp : d.reg .ebp=c.above 6
  /-- Register ebx. -/
  ebx : d.reg .ebx=c.above 8
  /-- Register edx. -/
  edx : d.reg .edx=c.above 9
  /-- Register ecx. -/
  ecx : d.reg .ecx=c.above 10
  /-- Register eax. -/
  eax : d.reg .eax=c.above 11
  /-- Where user code continues. -/
  eip : d.eip=c.above 14
  /-- Its code segment. -/
  cs : d.cs=(c.above 15).setWidth 16
  /-- Its flags. -/
  eflags : d.eflags=c.above 16
  /-- Its stack pointer. -/
  esp : d.reg .esp=c.above 17
  /-- Its stack segment. -/
  ss : d.ss=(c.above 18).setWidth 16

/-- One pass through trapret to a lower privilege. -/
theorem trapret_restored (c : Cpu) (h : level c.cs<level ((c.above 15).setWidth 16)) :
    Restored c (execBlock c trapretCode) := by
  have h' : level c.cs<level ((load32 c.mem (c.reg .esp+60#32)).setWidth 16) := h
  constructor
  all_goals simp [execBlock,trapretCode,advance,execInstr,Cpu.setReg,Cpu.drop,Cpu.top,Cpu.above,popAll,
    interruptReturn,BitVec.add_assoc,h']

end EronKernel.SwitchModel

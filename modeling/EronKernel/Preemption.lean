import EronKernel.BootVectors
import EronKernel.ContextSwitch
import EronKernel.TrapReturn

/-!
# Interrupted and preempted programs

The way of an interrupt and the way of a switch put together. The gates that
kernel_main sets up lead to the stubs; what the stubs save, the way back
restores, and a switch to other slots in between does not disturb it, because
the frame lies in the part of the kernel stack that a chain of switches leaves
alone.
-/

namespace EronKernel.Preemption

open ByteMemory X86Machine TrapMachine DescriptorFormat BootTables BootVectors ProcModel SwitchModel
  ContextSwitch TrapModel TrapReturn

variable {T : TrapKernel}

/-- The linker's addresses for a kernel image. -/
def symbols (T : TrapKernel) (tss stackTop : Word) : Symbols where
  tss := tss
  isr0 := T.stubs .divide
  isr6 := T.stubs .opcode
  isr13 := T.stubs .protection
  isr14 := T.stubs .page
  timerHandlerAsm := T.stubs .timer
  keyboardHandlerAsm := T.stubs .keyboard
  syscallHandlerAsm := T.stubs .syscall
  stackTop := stackTop

/-- The error code that the processor pushes, if it pushes one. -/
def pushedError (v : TrapModel.Vector) (code : Word) : Option Word := if v.hasError then some code else none

/-- The gate of a vector leads to its stub. -/
theorem stubOf_number (T : TrapKernel) (tss stackTop : Word) (v : TrapModel.Vector) :
    ∃ flags,stubOf (symbols T tss stackTop) (v.number.setWidth 8)=some (T.stubs v,flags) := by
  cases v <;> exact ⟨_,rfl⟩

/-- Every interrupt with a stub, from whatever level it comes and on whatever
stack, reaches interrupt_dispatch through the gates of kernel_main with a
struct trapframe of the interrupted state; when the dispatcher comes back with
the frame as it was but for a result in eax, the interrupted program goes on
where it was with that result. -/
theorem interrupted_program_continues (T : TrapKernel) (t : Tables) (tss stackTop : Word)
    (v : TrapModel.Vector) (code : Word) (ring : RingStack) (c : Cpu) :
    ∃ b h d,bootTables (symbols T tss stackTop) t=some b ∧ handlerOf b (v.number.setWidth 8)=some h ∧
      level h.cs=0 ∧
      runStub T.sel T.code (entrySteps v) (enter ring h (pushedError v code) c)=some d ∧
      AtDispatch T ring h (pushedError v code) v c d ∧
      ∀ e eax,Returned T h c d e eax→
        ∃ g,runStub T.sel T.code exitSteps e=some g ∧ Continued c g eax ∧ g.mem=e.mem := by
  obtain ⟨_,b,_,hb,_,_,_,_,_,_,hhandler,_⟩ := boot_accepts (symbols T tss stackTop) t
  obtain ⟨flags,hstub⟩ := stubOf_number T tss stackTop v
  have hh : handlerOf b (v.number.setWidth 8)=some ⟨0x08,T.stubs v⟩ := by
    rw [hhandler,hstub]
    rfl
  have herr : v.hasError=(pushedError v code).isSome := by
    unfold pushedError
    cases v.hasError <;> rfl
  obtain ⟨d,hrun,hd⟩ := reaches_dispatch (T := T) (h := ⟨0x08,T.stubs v⟩) ring rfl herr c
  have hkernel : level 0x08=0 := by decide
  exact ⟨b,_,d,hb,hh,hkernel,hrun,hd,fun _ _ hr => hd.continues hr⟩

variable {K : Kernel} {p : ProcSlot} {off : ℕ}

/-- swtch writes below its caller's stack pointer only. -/
theorem switchedMem_above {b : Cpu} (hat : AtSwtch K p off b) {o : ℕ} (ho : off≤o) (hsize : o<stackSize p) :
    switchedMem b (stackAddr K p o)=b.mem (stackAddr K p o) := by
  have hfits := hat.fits
  have hmax : stackSize p≤16384 := by
    unfold stackSize
    split_ifs <;> decide
  refine hat.switchedMem_of_ne (fun o' _ ho' he => ?_) fun k hk => stackAddr_ne_ctxField p p hsize hk
  have := stackAddr_injective (by omega) (by omega) he
  omega

/-- What a slot has on its stack at and above its stack pointer is still there
when it is switched back to. -/
theorem stack_kept {b d e : Cpu} (hat : AtSwtch K p off b) (hchain : Chain K p off (afterSwtch K b) d)
    {q : ProcSlot} (hq : q≠p) {o : ℕ} (hback : AtSwtch K q o d) (hrun : run K.code swtchSteps d=some e)
    {i : ℕ} (hi : off ≤ i) (hsize : i<stackSize p) : e.mem (stackAddr K p i)=b.mem (stackAddr K p i) := by
  have hroom := hat.room
  rw [hback.afterSwtch_mem hrun,hback.other_stack (Ne.symm hq) hsize,
    hchain.mem_eq ⟨i,by omega,hsize,rfl⟩,hat.afterSwtch_mem (run_swtch hat.call),
    switchedMem_above hat hi hsize]

/-- Distance of the dispatcher's return address from the lowest address of the
kernel stack, when a user program was interrupted. -/
abbrev dispatchOffset : ℕ := 4012

/-- The compiled dispatcher on its way to swtch: it wrote its own part of the
stack only. -/
structure Enters (T : TrapKernel) (p : ProcSlot) (off : ℕ) (d b : Cpu) : Prop where
  /-- It calls swtch from schedule. -/
  call : AtSwtch T.image p off b
  /-- Below its own frame. -/
  below : off+8≤dispatchOffset
  /-- The stack above is as it was. -/
  kept : ∀ o,dispatchOffset≤o→ o<4096→ b.mem (stackAddr T.image p o)=d.mem (stackAddr T.image p o)

/-- The compiled dispatcher on its way back from swtch, by its calling
convention. -/
structure Leaves (T : TrapKernel) (p : ProcSlot) (d r e : Cpu) : Prop where
  /-- It returns into int_common. -/
  eip : e.eip=T.behindCall
  /-- With its return address popped. -/
  esp : e.reg .esp=d.reg .esp+4
  /-- In the kernel's code segment. -/
  cs : e.cs=d.cs
  /-- In the kernel's stack segment. -/
  ss : e.ss=d.ss
  /-- It does not write its caller's part of the stack. -/
  kept : ∀ o,dispatchOffset+8 ≤ o→ o<4096→ e.mem (stackAddr T.image p o)=r.mem (stackAddr T.image p o)

/-- The frame of an interrupted user program lies at the top of its kernel
stack. -/
theorem frame_on_stack {ring : RingStack} {h : Handler} {err : Option Word} {v : TrapModel.Vector}
    {c d : Cpu} (hd : AtDispatch T ring h err v c d) (hlevel : level h.cs<level c.cs)
    (hring : ring.esp0=stackAddr T.image p 4096) :
    d.reg .esp=stackAddr T.image p dispatchOffset ∧ (entryWords h c).length=5 := by
  have hfive : (entryWords h c).length=5 := by
    unfold entryWords
    simp [hlevel]
  have hbase : (entryBase ring h c).reg .esp=ring.esp0 := by
    unfold entryBase
    simp [hlevel,Cpu.setReg]
  refine ⟨?_,hfive⟩
  rw [hd.esp,hfive,hbase,hring]
  exact stackAddr_sub p (n := 84) (by decide)

/-- A user program that is preempted goes on exactly where it was, however many
switches other slots make before its own turn comes again: the dispatcher that
was entered for it is resumed behind its call of swtch, and its way back
through int_common restores every register. -/
theorem preempted_program_continues {ring : RingStack} {h : Handler} {err : Option Word}
    {v : TrapModel.Vector} {c d : Cpu} (hp : p≠0) (hd : AtDispatch T ring h err v c d)
    (hlevel : level h.cs<level c.cs) (hring : ring.esp0=stackAddr T.image p 4096) {b : Cpu}
    (henter : Enters T p off d b) {q : ProcSlot} {o : ℕ} {s : Cpu}
    (hchain : Chain T.image p off (afterSwtch T.image b) s) (hq : q≠p) (hback : AtSwtch T.image q o s)
    (hctx : s.above 1=b.reg .esp-20) :
    ∃ r,runStub T.sel T.code swtchSteps s=some r ∧ Resumed b r ∧ ∀ e,Leaves T p d r e→
      ∃ g,runStub T.sel T.code exitSteps e=some g ∧ Continued c g (c.reg .eax) ∧ g.mem=e.mem := by
  obtain ⟨hesp,hfive⟩ := frame_on_stack hd hlevel hring
  have hsize : stackSize p=4096 := if_neg (Fin.val_ne_zero_iff.mpr hp)
  have hbelow := henter.below
  have hoff : dispatchOffset=4012 := rfl
  obtain ⟨r,hrun,hres⟩ := resumed_after_chain henter.call hchain hq hback hctx
  refine ⟨r,runStub_of_run T.embeds hrun,hres,fun e hleave => hd.continues ?_⟩
  refine ⟨hleave.eip,hleave.esp,hleave.cs,hleave.ss,fun i hi hlt => ?_⟩
  have hword : load32 e.mem (d.reg .esp+4*BitVec.ofNat 32 i)=d.above (BitVec.ofNat 32 i) := by
    refine load32_congr fun x hx => ?_
    have hplace : d.reg .esp+4*BitVec.ofNat 32 i=stackAddr T.image p (dispatchOffset+4*i) := by
      rw [hesp,←stackAddr_add]
      bv_omega
    rw [hplace] at hx
    obtain ⟨k,hk,rfl⟩ := inRange_stackAddr hx
    rw [hleave.kept _ (by omega) (by omega),
      stack_kept henter.call hchain hq hback hrun (by omega) (by omega),
      henter.kept _ (by omega) (by omega)]
  rw [hword]
  split_ifs with he
  · rw [he]
    exact hd.frame.eax
  · rfl

/-- Instructions of stubs with their addresses. -/
def placedStub (a : Word) : List StubInstr→List (Word×StubInstr)
  | [] => []
  | i::is => (a,i)::placedStub (a+i.size) is

/-- Addresses of the stubs of a sample. -/
def sampleStubs : TrapModel.Vector→Word
  | .divide => 0x110000
  | .opcode => 0x110010
  | .protection => 0x110020
  | .page => 0x110030
  | .timer => 0x110040
  | .keyboard => 0x110050
  | .syscall => 0x110060

/-- The code of a sample with stubs. -/
def sampleCode (a : Word) : Option StubInstr :=
  match sampleKernel.code a with
  | some i => some (.base i)
  | none => (placedStub 0x110000 (isr0 0x110100)++placedStub 0x110010 (isr6 0x110100)++
      placedStub 0x110020 (isr13 0x110100)++placedStub 0x110030 (isr14 0x110100)++
      placedStub 0x110040 (timerHandlerAsm 0x110100)++placedStub 0x110050 (keyboardHandlerAsm 0x110100)++
      placedStub 0x110060 (syscallHandlerAsm 0x110100)++
      placedStub 0x110100 (intCommonHead 0x120000++intCommonTail)).lookup a

/-- A kernel image with the switch and the stubs, on a processor that clears
the upper half of a pushed selector. -/
def sampleTrapKernel : TrapKernel where
  image := sampleKernel
  code := sampleCode
  sel := ⟨fun s _ => s.setWidth 32,fun _ _ => BitVec.setWidth_setWidth_of_le _ (by decide)⟩
  stubs := sampleStubs
  intCommon := 0x110100
  dispatch := 0x120000
  embeds := by
    intro a i hi
    rw [sampleCode,hi]
  codeStub := by
    intro v
    cases v <;> decide
  codeCommon := by decide

/-- A user program before it is interrupted. -/
def sampleProgram : Cpu where
  reg _ := 7
  seg _ := 0x23
  cs := 0x1B
  ss := 0x23
  eip := 0x08000000
  eflags := 0x202
  mem _ := 0

/-- The dispatcher back in int_common, with nothing written but a result in the
frame's eax. -/
def returnWith (T : TrapKernel) (d : Cpu) (eax : Word) : Cpu :=
  {d.setReg .esp (d.reg .esp+4) with
    eip := T.behindCall
    mem := store32 d.mem (d.reg .esp+4*BitVec.ofNat 32 13) eax}

/-- That is a return by its calling convention. -/
theorem returnWith_returned (T : TrapKernel) (h : Handler) (c d : Cpu) (eax : Word) :
    Returned T h c d (returnWith T d eax) eax where
  eip := rfl
  esp := by simp [returnWith,Cpu.setReg]
  cs := rfl
  ss := rfl
  frame i hi hlt := by
    have hfive : (entryWords h c).length≤5 := by
      unfold entryWords
      split_ifs <;> simp
    change load32 (store32 d.mem _ eax) _=_
    split_ifs with he
    · rw [he,load32_store32]
    · exact load32_store32_of_apart _ (by bv_omega) (by bv_omega)

/-- Tables of which nothing was set up. -/
def zeroTables : Tables :=
  ⟨fun _ => ⟨0,0,0,0,0,0⟩,fun _ => ⟨0,0,0,0,0⟩,⟨0,0,0,fun _ => 0⟩,0,0,⟨0,0,0,0⟩,⟨0,0,0,0⟩,⟨false,0,0⟩⟩

/-- A program in user mode raises a system call that returns 42. -/
theorem sample_continues : ∃ (b : Tables) (h : Handler) (d g : Cpu),
    bootTables (symbols sampleTrapKernel 0x200000 0x304000) zeroTables=some b ∧ handlerOf b 0x80=some h ∧
      AtDispatch sampleTrapKernel ⟨0x10,0x304000⟩ h none .syscall sampleProgram d ∧
      runStub sampleTrapKernel.sel sampleTrapKernel.code exitSteps (returnWith sampleTrapKernel d 42)=some g ∧
      Continued sampleProgram g 42 := by
  obtain ⟨b,h,d,hb,hh,_,_,hd,hgo⟩ := interrupted_program_continues sampleTrapKernel zeroTables 0x200000
    0x304000 .syscall 0 ⟨0x10,0x304000⟩ sampleProgram
  obtain ⟨g,hrun,hcontinued,_⟩ := hgo _ 42 (returnWith_returned sampleTrapKernel h sampleProgram d 42)
  exact ⟨b,h,d,g,hb,hh,hd,hrun,hcontinued⟩

/-- The dispatcher back in int_common after a switch back, with nothing written. -/
def leaveTo (T : TrapKernel) (d r : Cpu) : Cpu :=
  {r.setReg .esp (d.reg .esp+4) with eip := T.behindCall, cs := d.cs, ss := d.ss}

/-- That is a return by its calling convention as well. -/
theorem leaveTo_leaves (T : TrapKernel) (p : ProcSlot) (d r : Cpu) : Leaves T p d r (leaveTo T d r) :=
  ⟨rfl,by simp [leaveTo,Cpu.setReg],rfl,rfl,fun _ _ _ => rfl⟩

/-- Slot one is interrupted by the timer and preempted; slot two switches back
to it, and it goes on. -/
theorem sample_preempted : ∃ (ring : RingStack) (d b r g : Cpu),
    AtDispatch sampleTrapKernel ring ⟨0x08,0x110040⟩ none .timer sampleProgram d ∧
      Enters sampleTrapKernel 1 4000 d b ∧ Resumed b r ∧
      runStub sampleTrapKernel.sel sampleTrapKernel.code exitSteps (leaveTo sampleTrapKernel d r)=some g ∧
      Continued sampleProgram g 7 := by
  have hstub : (⟨0x08,0x110040⟩ : Handler).offset=sampleTrapKernel.stubs .timer := rfl
  have herror : TrapModel.Vector.timer.hasError=(none : Option Word).isSome := rfl
  obtain ⟨d,_,hd⟩ := reaches_dispatch ⟨0x10,stackAddr sampleKernel 1 4096⟩ hstub herror sampleProgram
  have henter : Enters sampleTrapKernel 1 4000 d (atCall 1 d.mem 0) := by
    refine ⟨(atCall_atSwtch 1 d.mem 0).1,by decide,fun o ho ho' => ?_⟩
    refine atCall_mem_of_ne d.mem 0 fun o' _ hlt he => ?_
    have hsame := stackAddr_injective (by omega) (by omega) he
    have hoff : dispatchOffset=4012 := rfl
    omega
  let b := atCall 1 d.mem 0
  let s := atCall 2 (afterSwtch sampleKernel b).mem (b.reg .esp-20)
  have hchain : Chain sampleKernel 1 4000 (afterSwtch sampleKernel b) s := by
    refine .other .refl fun x hx => ?_
    obtain ⟨o,_,ho,rfl⟩ := hx
    exact atCall_mem _ _ ho
  have hback := atCall_atSwtch 2 (afterSwtch sampleKernel b).mem (b.reg .esp-20)
  obtain ⟨r,_,hres,hgo⟩ := preempted_program_continues (T := sampleTrapKernel) (p := 1) (by decide) hd
    (by decide) rfl henter hchain (by decide) hback.1 hback.2
  obtain ⟨g,hrun,hcontinued,_⟩ := hgo _ (leaveTo_leaves sampleTrapKernel 1 d r)
  exact ⟨_,d,b,r,g,hd,henter,hres,hrun,hcontinued⟩

end EronKernel.Preemption

import EronKernel.TrapModel

/-!
# The way of an interrupt through boot.S

What an accepted interrupt leaves on the stack is struct trapframe of the
interrupted state, whichever stub it went through and whatever level was
interrupted. Popping a frame is its inverse: when interrupt_dispatch comes back
with the frame as it was but for a result in eax, the interrupted program goes
on as if nothing had happened.
-/

namespace EronKernel.TrapReturn

open ByteMemory X86Machine TrapMachine SwitchModel TrapModel

/-- Place of a register in a trap frame; the stack pointer's is not popped. -/
def regPlace : Reg→Word
  | .edi => 4
  | .esi => 5
  | .ebp => 6
  | .esp => 7
  | .ebx => 8
  | .edx => 9
  | .ecx => 10
  | .eax => 11

/-- Place of a selector in a trap frame. -/
def segPlace : Seg→Word
  | .gs => 0
  | .fs => 1
  | .es => 2
  | .ds => 3

/-- What is popped from a trap frame, at whatever level it was made. -/
structure Popped (c d : Cpu) : Prop where
  /-- General registers. -/
  reg : ∀ r,r≠.esp→ d.reg r=c.above (regPlace r)
  /-- Selectors. -/
  seg : ∀ r,d.seg r=(c.above (segPlace r)).setWidth 16
  /-- Interrupted place. -/
  eip : d.eip=c.above 14
  /-- Its code segment. -/
  cs : d.cs=(c.above 15).setWidth 16
  /-- Its flags. -/
  eflags : d.eflags=c.above 16
  /-- Nothing is written. -/
  mem : d.mem=c.mem

/-- trapret pops the registers and returns. -/
theorem popped_trapret (c : Cpu) : Popped c (execBlock c trapretCode) := by
  constructor
  · intro r hr
    cases r
    case esp => exact absurd rfl hr
    all_goals
      simp [execBlock,trapretCode,advance,execInstr,Cpu.setReg,Cpu.drop,Cpu.top,Cpu.above,popAll,
        interruptReturn,BitVec.add_assoc,regPlace]
      split_ifs <;> simp
  · intro r
    cases r
    all_goals
      simp [execBlock,trapretCode,advance,execInstr,Cpu.setReg,Cpu.drop,Cpu.top,Cpu.above,popAll,
        interruptReturn,BitVec.add_assoc,segPlace]
      split_ifs <;> simp
  all_goals
    simp [execBlock,trapretCode,advance,execInstr,Cpu.setReg,Cpu.drop,Cpu.top,Cpu.above,popAll,
      interruptReturn,BitVec.add_assoc]
    split_ifs <;> simp

/-- The stack behind the frame of an outer level. -/
theorem trapret_outer {c : Cpu} (h : level c.cs<level ((c.above 15).setWidth 16)) :
    (execBlock c trapretCode).reg .esp=c.above 17 ∧
      (execBlock c trapretCode).ss=(c.above 18).setWidth 16 := by
  have hr := trapret_restored c h
  exact ⟨hr.esp,hr.ss⟩

/-- The stack behind a frame of the same level. -/
theorem trapret_inner {c : Cpu} (h : ¬level c.cs<level ((c.above 15).setWidth 16)) :
    (execBlock c trapretCode).reg .esp=c.reg .esp+68 ∧ (execBlock c trapretCode).ss=c.ss := by
  have h' : ¬level c.cs<level ((load32 c.mem (c.reg Reg.esp+60#32)).setWidth 16) := h
  constructor
  all_goals simp [execBlock,trapretCode,advance,execInstr,Cpu.setReg,Cpu.drop,Cpu.top,Cpu.above,popAll,
    interruptReturn,BitVec.add_assoc,h']

/-- The state whose stack an interrupt pushes to. -/
def entryBase (ring : RingStack) (h : Handler) (c : Cpu) : Cpu :=
  if level h.cs<level c.cs then c.setReg .esp ring.esp0 else c

/-- What the processor pushes. -/
theorem pushed_enter (ring : RingStack) (h : Handler) (err : Option Word) (c : Cpu) :
    Pushed (entryBase ring h c) (enter ring h err c) (err.toList++entryWords h c) := by
  have hbase : Pushed (entryBase ring h c) (enterStack ring h c)
      (if level h.cs<level c.cs then [c.reg .esp,c.ss.setWidth 32] else []) := by
    unfold entryBase enterStack
    split_ifs
    · refine Pushed.pushWord (Pushed.pushWord ?_ (by simp) _) (by simp) _
      exact Pushed.refl rfl rfl
    · exact Pushed.refl rfl rfl
  have hshort : (if level h.cs<level c.cs then [c.reg .esp,c.ss.setWidth 32] else []).length≤2 := by
    split_ifs <;> simp
  have hplace := ((hbase.pushWord (by omega) c.eflags).pushWord (by simp only [List.length_cons]; omega)
    (c.cs.setWidth 32)).pushWord (by simp only [List.length_cons]; omega) c.eip
  unfold enter
  cases err with
  | none => exact hplace.keep rfl rfl
  | some code => exact (hplace.pushWord (by simp only [List.length_cons]; omega) code).keep rfl rfl

/-- At most five words. -/
theorem length_entryWords (h : Handler) (c : Cpu) : (entryWords h c).length≤5 := by
  unfold entryWords
  split_ifs <;> simp

/-- A stub brings number and error code on top, whoever pushed the latter. -/
theorem pushed_stub (sel : SelectorPush) {c d : Cpu} {ws : List Word} {err : Option Word} (v : Vector)
    (hv : v.hasError=err.isSome) (hshort : ws.length≤5) (h : Pushed c d (err.toList++ws)) (common : Word) :
    Pushed c (execStub sel d (v.stub common)) (v.number::err.getD 0::ws) := by
  cases err with
  | none =>
    have hnone : Pushed c d ws := h
    have hfit : ∀ w : Word,4*((w::ws).length+1)≤2^32 := by
      intro w
      rw [List.length_cons]
      omega
    cases v with
    | protection | page => cases hv
    | _ => exact @Pushed.jmp sel _ _ _ ((hnone.pushImm (by omega) _).pushImm (hfit _) _) common
  | some code =>
    have hsome : Pushed c d (code::ws) := h
    have hfit : 4*((code::ws).length+1)≤2^32 := by
      rw [List.length_cons]
      omega
    cases v with
    | protection | page => exact @Pushed.jmp sel _ _ _ (hsome.pushImm hfit _) common
    | _ => cases hv


/-- int_common pushes the registers, the frame's address and the place behind
its call. -/
theorem pushed_head (sel : SelectorPush) {b c : Cpu} {ws : List Word} (hshort : ws.length≤7)
    (h : Pushed b c ws) (dispatch : Word) :
    ∃ gs fs es ds : Word,gs.setWidth 16=c.seg .gs ∧ fs.setWidth 16=c.seg .fs ∧ es.setWidth 16=c.seg .es ∧
      ds.setWidth 16=c.seg .ds ∧
      Pushed b (execStub sel c (intCommonHead dispatch))
        ([(intCommonHead dispatch).foldl (fun a i => a+i.size) c.eip,c.reg .esp-48,gs,fs,es,ds,c.reg .edi,
          c.reg .esi,c.reg .ebp,c.reg .esp,c.reg .ebx,c.reg .edx,c.reg .ecx,c.reg .eax]++ws) := by
  have hfit : ∀ vs : List Word,vs.length≤14→4*((vs++ws).length+1)≤2^32 := by
    intro vs hvs
    rw [List.length_append]
    omega
  have hregs := @Pushed.pusha sel _ _ _ h
  obtain ⟨ds,hds,hpush⟩ := @Pushed.pushSeg sel _ _ _ hregs (hfit _ (by simp)) .ds
  obtain ⟨es,hes,hpush⟩ := @Pushed.pushSeg sel _ _ _ hpush (hfit (_::_) (by simp)) .es
  obtain ⟨fs,hfs,hpush⟩ := @Pushed.pushSeg sel _ _ _ hpush (hfit (_::_::_) (by simp)) .fs
  obtain ⟨gs,hgs,hpush⟩ := @Pushed.pushSeg sel _ _ _ hpush (hfit (_::_::_::_) (by simp)) .gs
  have hmoved := @Pushed.movSeg sel _ _ _ (@Pushed.movSeg sel _ _ _ (@Pushed.movSeg sel _ _ _
    (@Pushed.movSeg sel _ _ _ (@Pushed.movAx sel _ _ _ hpush 0x10) .ds) .es) .fs) .gs
  have hptr := hmoved.esp
  have hpushed := @Pushed.pushReg sel _ _ _ hmoved (hfit (_::_::_::_::_) (by simp)) .esp
  rw [hptr] at hpushed
  have hcalled := @Pushed.call sel _ _ _ hpushed (hfit (_::_::_::_::_::_) (by simp)) dispatch
  have hframe : c.reg .esp-48=b.reg .esp-BitVec.ofNat 32 (4*(gs::fs::es::ds::([c.reg .edi,c.reg .esi,
      c.reg .ebp,c.reg .esp,c.reg .ebx,c.reg .edx,c.reg .ecx,c.reg .eax]++ws)).length) := by
    rw [h.esp]
    simp only [List.length_cons,List.length_append,List.length_nil]
    bv_omega
  rw [hframe]
  exact ⟨gs,fs,es,ds,hgs,hfs,hes,hds,hcalled⟩


/-- What a stub pushes. -/
def pushes (v : Vector) : List StubInstr :=
  if v.hasError then [.pushImm v.number] else [.pushImm 0,.pushImm v.number]

/-- Every stub pushes and jumps to int_common. -/
theorem stub_eq (v : Vector) (common : Word) : v.stub common=pushes v++[.jmp common] := by
  cases v <;> rfl

/-- The pushes of a stub lie behind one another. -/
theorem pushes_linear (v : Vector) : ∀ i∈pushes v,i.linear=true := by
  cases v <;> decide

/-- int_common up to the argument of its call. -/
def saves : List StubInstr :=
  [.pusha,.pushSeg .ds,.pushSeg .es,.pushSeg .fs,.pushSeg .gs,.movAx 0x10,.movSeg .ds,.movSeg .es,
    .movSeg .fs,.movSeg .gs,.base (.push .esp)]

/-- Registers that an interrupt leaves alone until its frame is built. -/
structure Untouched (c d : Cpu) : Prop where
  /-- General registers but the stack pointer. -/
  reg : ∀ r,r≠.esp→ d.reg r=c.reg r
  /-- Data segment registers. -/
  seg : d.seg=c.seg

/-- The processor and the stub push only. -/
theorem untouched_stub (sel : SelectorPush) (ring : RingStack) (h : Handler) (err : Option Word) (c : Cpu)
    (v : Vector) (common : Word) : Untouched c (execStub sel (enter ring h err c) (v.stub common)) := by
  have henter : Untouched c (enter ring h err c) := by
    unfold enter enterStack
    constructor
    · intro r hr
      cases err <;> dsimp only <;> split_ifs <;> simp [pushWord_reg _ _ hr,Cpu.setReg,hr]
    · cases err <;> dsimp only <;> split_ifs <;> rfl
  constructor
  · intro r hr
    rw [←henter.reg r hr]
    cases v <;> simp [Vector.stub,isr0,isr6,isr13,isr14,timerHandlerAsm,keyboardHandlerAsm,
      syscallHandlerAsm,execStub,StubInstr.advance,StubInstr.exec,pushWord_reg _ _ hr]
  · rw [←henter.seg]
    cases v <;> rfl

/-- Where the stub goes. -/
theorem stub_eip (sel : SelectorPush) (d : Cpu) (v : Vector) (common : Word) :
    (execStub sel d (v.stub common)).eip=common ∧ (execStub sel d (v.stub common)).cs=d.cs := by
  cases v <;> exact ⟨rfl,rfl⟩

/-- Without a change of level the stack segment stays. -/
theorem stack_segment (sel : SelectorPush) (ring : RingStack) {h : Handler} {c : Cpu}
    (hlevel : ¬level h.cs<level c.cs) (err : Option Word) (v : Vector) (common dispatch : Word) :
    (execStub sel (execStub sel (enter ring h err c) (v.stub common)) (intCommonHead dispatch)).ss=c.ss := by
  have henter : (enter ring h err c).ss=c.ss := by
    unfold enter enterStack
    rw [if_neg hlevel]
    cases err <;> rfl
  rw [←henter]
  cases v <;> rfl

/-- The segments in which interrupt_dispatch runs. -/
theorem head_segments (sel : SelectorPush) (d : Cpu) (dispatch : Word) :
    (∀ r,(execStub sel d (intCommonHead dispatch)).seg r=0x10) ∧
      (execStub sel d (intCommonHead dispatch)).cs=d.cs ∧
      (execStub sel d (intCommonHead dispatch)).eip=dispatch := by
  refine ⟨fun r => ?_,rfl,rfl⟩
  cases r <;> simp [execStub,intCommonHead,StubInstr.advance,StubInstr.exec,execInstr,Cpu.setReg]


variable {T : TrapKernel}

/-- The call of interrupt_dispatch for an interrupted state. -/
structure AtDispatch (T : TrapKernel) (ring : RingStack) (h : Handler) (err : Option Word) (v : Vector)
    (c d : Cpu) : Prop where
  /-- At its first instruction. -/
  eip : d.eip=T.dispatch
  /-- In the handler's code segment. -/
  cs : d.cs=h.cs
  /-- With kernel data segments. -/
  seg : ∀ r,d.seg r=0x10
  /-- It returns into int_common. -/
  back : d.above 0=T.behindCall
  /-- Its argument is the address of the frame. -/
  argument : d.above 1=d.reg .esp+8
  /-- The frame is a struct trapframe of the interrupted state. -/
  frame : Frame v err h c d
  /-- The frame ends where the interrupt found the stack. -/
  esp : d.reg .esp=(entryBase ring h c).reg .esp-
    BitVec.ofNat 32 (4*(16+(entryWords h c).length))
  /-- The stack segment of the same level stays. -/
  ss : ¬level h.cs<level c.cs→ d.ss=c.ss
  /-- Nothing else was written. -/
  mem : ∀ x,¬InRange (d.reg .esp) (4*(16+(entryWords h c).length)) x→ d.mem x=c.mem x

/-- An accepted interrupt with a stub reaches interrupt_dispatch. -/
theorem reaches_dispatch (ring : RingStack) {h : Handler} {err : Option Word} {v : Vector}
    (hstub : h.offset=T.stubs v) (hv : v.hasError=err.isSome) (c : Cpu) :
    ∃ d,runStub T.sel T.code (entrySteps v) (enter ring h err c)=some d ∧
      AtDispatch T ring h err v c d := by
  have hentry : (enter ring h err c).eip=T.stubs v := hstub
  have hstubrun : runStub T.sel T.code (if v.hasError then 2 else 3) (enter ring h err c)=
      some (execStub T.sel (enter ring h err c) (v.stub T.intCommon)) := by
    have hcode := T.codeStub v
    rw [←hentry,stub_eq] at hcode
    have hrun := runStub_block T.sel (pushes v) hcode (pushes_linear v)
    rw [←stub_eq] at hrun
    rw [←hrun]
    cases v <;> rfl
  obtain ⟨heip,hcs⟩ := stub_eip T.sel (enter ring h err c) v T.intCommon
  have hkeep := untouched_stub T.sel ring h err c v T.intCommon
  have hpushed := pushed_stub T.sel v hv (length_entryWords h c) (pushed_enter ring h err c)
    T.intCommon
  have hheadrun : runStub T.sel T.code 12 (execStub T.sel (enter ring h err c) (v.stub T.intCommon))=
      some (execStub T.sel (execStub T.sel (enter ring h err c) (v.stub T.intCommon))
        (intCommonHead T.dispatch)) := by
    have hcode := (stubAt_append (intCommonHead T.dispatch)).mp T.codeCommon
    have hrun := runStub_block T.sel (j := .base (.call T.dispatch)) saves (heip.symm▸hcode.1)
      (by decide)
    exact hrun
  refine ⟨_,(runStub_add hstubrun 12).trans hheadrun,?_⟩
  have hfit : (entryWords h c).length≤5 := length_entryWords h c
  obtain ⟨gs,fs,es,ds,hgs,hfs,hes,hds,hframe⟩ := pushed_head T.sel
    (c := execStub T.sel (enter ring h err c) (v.stub T.intCommon)) (by simp; omega) hpushed T.dispatch
  obtain ⟨hseg,hcs',heip'⟩ := head_segments T.sel
    (execStub T.sel (enter ring h err c) (v.stub T.intCommon)) T.dispatch
  rw [heip] at hframe
  have hword := fun (i : ℕ) hi => hframe.above (by simp; omega) (i := i) hi
  constructor
  · exact heip'
  · exact hcs'.trans hcs
  · exact hseg
  · exact hword 0 (by simp)
  · refine (hword 1 (by simp)).trans ?_
    rw [hframe.esp]
    change (execStub T.sel (enter ring h err c) (v.stub T.intCommon)).reg .esp-48=_
    rw [hpushed.esp]
    simp only [List.length_cons,List.length_append,List.length_nil]
    bv_omega
  · constructor
    · exact (congrArg _ (hword 2 (by simp))).trans (hgs.trans (congrFun hkeep.seg _))
    · exact (congrArg _ (hword 3 (by simp))).trans (hfs.trans (congrFun hkeep.seg _))
    · exact (congrArg _ (hword 4 (by simp))).trans (hes.trans (congrFun hkeep.seg _))
    · exact (congrArg _ (hword 5 (by simp))).trans (hds.trans (congrFun hkeep.seg _))
    · exact (hword 6 (by simp)).trans (hkeep.reg .edi (by decide))
    · exact (hword 7 (by simp)).trans (hkeep.reg .esi (by decide))
    · exact (hword 8 (by simp)).trans (hkeep.reg .ebp (by decide))
    · exact (hword 10 (by simp)).trans (hkeep.reg .ebx (by decide))
    · exact (hword 11 (by simp)).trans (hkeep.reg .edx (by decide))
    · exact (hword 12 (by simp)).trans (hkeep.reg .ecx (by decide))
    · exact (hword 13 (by simp)).trans (hkeep.reg .eax (by decide))
    · exact hword 14 (by simp)
    · exact hword 15 (by simp)
    · exact hword 16 (by simp [entryWords])
    · exact hword 17 (by simp [entryWords])
    · exact hword 18 (by simp [entryWords])
    · intro hlevel
      have hlist := hword 19 (by simp [entryWords,hlevel])
      simpa [entryWords,hlevel] using hlist
    · intro hlevel
      have hlist := hword 20 (by simp [entryWords,hlevel])
      simpa [entryWords,hlevel] using hlist
  · rw [hframe.esp]
    simp only [List.length_cons,List.length_append,List.length_nil]
    bv_omega
  · intro hlevel
    exact stack_segment T.sel ring hlevel err v T.intCommon T.dispatch
  · intro x hx
    have hbase : (entryBase ring h c).mem=c.mem := by
      unfold entryBase
      split_ifs <;> rfl
    rw [hframe.mem x,hbase]
    intro hr
    refine hx ?_
    unfold InRange at *
    simp only [List.length_cons,List.length_append,List.length_nil] at hr
    omega

/-- interrupt_dispatch came back by its calling convention; it may have left a
result in the frame's eax. -/
structure Returned (T : TrapKernel) (h : Handler) (c d e : Cpu) (eax : Word) : Prop where
  /-- Behind the call. -/
  eip : e.eip=T.behindCall
  /-- With the return address popped. -/
  esp : e.reg .esp=d.reg .esp+4
  /-- In the same code segment. -/
  cs : e.cs=d.cs
  /-- In the same stack segment. -/
  ss : e.ss=d.ss
  /-- The frame is as it was, but for eax. -/
  frame : ∀ i,2 ≤ i → i < 16+(entryWords h c).length→
    load32 e.mem (d.reg .esp+4*BitVec.ofNat 32 i)=if i=13 then eax else d.above (BitVec.ofNat 32 i)

/-- A program goes on where it was, with a result in eax. -/
structure Continued (c g : Cpu) (eax : Word) : Prop where
  /-- Other registers. -/
  reg : ∀ r,r≠.eax→ g.reg r=c.reg r
  /-- The result. -/
  result : g.reg .eax=eax
  /-- Data segments. -/
  seg : g.seg=c.seg
  /-- Place. -/
  eip : g.eip=c.eip
  /-- Code segment. -/
  cs : g.cs=c.cs
  /-- Stack segment. -/
  ss : g.ss=c.ss
  /-- Flags. -/
  eflags : g.eflags=c.eflags

/-- The frame behind the argument of interrupt_dispatch. -/
theorem Returned.above {h : Handler} {c d e : Cpu} {eax : Word} (hr : Returned T h c d e eax) {f : Cpu}
    (hesp : f.reg .esp=e.reg .esp+4) (hmem : f.mem=e.mem) {i : ℕ}
    (hi : i<14+(entryWords h c).length) :
    f.above (BitVec.ofNat 32 i)=if i=11 then eax else d.above (BitVec.ofNat 32 (i+2)) := by
  have haddr : f.reg .esp+4*BitVec.ofNat 32 i=d.reg .esp+4*BitVec.ofNat 32 (i+2) := by
    rw [hesp,hr.esp]
    bv_omega
  rw [Cpu.above,hmem,haddr,hr.frame (i+2) (by omega) (by omega)]
  exact if_congr (by omega) rfl rfl

/-- int_common behind its call brings the interrupted program back. -/
theorem AtDispatch.continues {ring : RingStack} {h : Handler} {err : Option Word} {v : Vector} {c d e : Cpu}
    (hd : AtDispatch T ring h err v c d) {eax : Word} (hr : Returned T h c d e eax) :
    ∃ g,runStub T.sel T.code exitSteps e=some g ∧ Continued c g eax ∧ g.mem=e.mem := by
  have hcode := (stubAt_append (intCommonHead T.dispatch)).mp T.codeCommon
  have htail : StubAt T.code e.eip (intCommonTail.dropLast++[.base .iret]) := by
    rw [hr.eip]
    exact hcode.2
  have hrun := runStub_block T.sel intCommonTail.dropLast htail (by decide)
  have hpop : ∃ f : Cpu,execStub T.sel e (intCommonTail.dropLast++[.base .iret])=execBlock f trapretCode ∧
      f.reg .esp=e.reg .esp+4 ∧ f.mem=e.mem ∧ f.cs=e.cs ∧ f.ss=e.ss :=
    ⟨advance e (.addImm 4 .esp),rfl,by simp [advance,execInstr,Cpu.setReg],rfl,rfl,rfl⟩
  obtain ⟨f,hf,hesp,hmem,hcs,hss⟩ := hpop
  rw [hf] at hrun
  have hword := fun (i : ℕ) hi => hr.above hesp hmem (i := i) hi
  have hlen : 3≤(entryWords h c).length := by
    unfold entryWords
    simp
  have hfcs : (f.above 15).setWidth 16=c.cs := by
    rw [show f.above 15=d.above 17 from hword 15 (by omega),hd.frame.cs]
    exact BitVec.setWidth_setWidth_of_le _ (by decide)
  have hpopped := popped_trapret f
  have hfr := hd.frame
  have hstack : (execBlock f trapretCode).reg .esp=c.reg .esp ∧ (execBlock f trapretCode).ss=c.ss := by
    by_cases hlevel : level h.cs<level c.cs
    · have hfive : (entryWords h c).length=5 := by
        unfold entryWords
        simp [hlevel]
      obtain ⟨hesp',hss'⟩ := trapret_outer (c := f) (by rw [hfcs,hcs,hr.cs,hd.cs]; exact hlevel)
      rw [hesp',hss',show f.above 17=d.above 19 from hword 17 (by omega),hfr.userEsp hlevel,
        show f.above 18=d.above 20 from hword 18 (by omega),hfr.userSs hlevel]
      exact ⟨rfl,BitVec.setWidth_setWidth_of_le _ (by decide)⟩
    · have hthree : (entryWords h c).length=3 := by
        unfold entryWords
        simp [hlevel]
      obtain ⟨hesp',hss'⟩ := trapret_inner (c := f) (by rw [hfcs,hcs,hr.cs,hd.cs]; exact hlevel)
      have hbase : (entryBase ring h c).reg .esp=c.reg .esp := by
        unfold entryBase
        rw [if_neg hlevel]
      rw [hesp',hss',hesp,hr.esp,hd.esp,hbase,hthree,hss,hr.ss,hd.ss hlevel]
      exact ⟨by bv_omega,rfl⟩
  refine ⟨_,hrun,?_,hpopped.mem.trans hmem⟩
  constructor
  · intro r hr'
    cases r with
    | eax => exact absurd rfl hr'
    | edi => exact (hpopped.reg .edi (by decide)).trans ((hword 4 (by omega)).trans hfr.edi)
    | esi => exact (hpopped.reg .esi (by decide)).trans ((hword 5 (by omega)).trans hfr.esi)
    | ebp => exact (hpopped.reg .ebp (by decide)).trans ((hword 6 (by omega)).trans hfr.ebp)
    | ebx => exact (hpopped.reg .ebx (by decide)).trans ((hword 8 (by omega)).trans hfr.ebx)
    | edx => exact (hpopped.reg .edx (by decide)).trans ((hword 9 (by omega)).trans hfr.edx)
    | ecx => exact (hpopped.reg .ecx (by decide)).trans ((hword 10 (by omega)).trans hfr.ecx)
    | esp => exact hstack.1
  · exact (hpopped.reg .eax (by decide)).trans (hword 11 (by omega))
  · funext r
    cases r with
    | gs => exact (hpopped.seg .gs).trans ((congrArg _ (hword 0 (by omega))).trans hfr.gs)
    | fs => exact (hpopped.seg .fs).trans ((congrArg _ (hword 1 (by omega))).trans hfr.fs)
    | es => exact (hpopped.seg .es).trans ((congrArg _ (hword 2 (by omega))).trans hfr.es)
    | ds => exact (hpopped.seg .ds).trans ((congrArg _ (hword 3 (by omega))).trans hfr.ds)
  · exact hpopped.eip.trans ((hword 14 (by omega)).trans hfr.eip)
  · exact hpopped.cs.trans hfcs
  · exact hstack.2
  · exact hpopped.eflags.trans ((hword 16 (by omega)).trans hfr.eflags)

end EronKernel.TrapReturn

import EronKernel.SlotIsolation

/-!
# From proc_create to the first user instruction

A new process waits in its slot while the kernel does whatever it does. When
the scheduler comes to it, the processor goes from the call of swtch to the
entry point, with the registers that proc_create laid out; a process that gave
up the processor continues behind its own call. The only assumption about what
lies between is that the process did not run.
-/

namespace EronKernel.ProcessStart

open ByteMemory CString X86Machine ProcModel ProcInvariant SwitchModel ContextSwitch SyscallModel
  InterruptModel SystemModel SystemSteps SystemInvariant SlotIsolation

variable {F : Type} {L : Layout} {fuel : ℕ}

/-- Any run in which a slot does not get the processor. -/
inductive Parks (L : Layout) (fuel : ℕ) (k : ProcSlot) (m : Machine F) : Machine F→Prop where
  /-- Nothing happened. -/
  | refl : Parks L fuel k m m
  /-- One more event, after which another slot is current. -/
  | step {t u : Machine F} (e : Event F) : Parks L fuel k m t→SystemModel.step L fuel t e=some u→
    u.system.kernel.procs.currentProc≠some k→Parks L fuel k m u

/-- A slot waits with the context pointer and the stacks it had. -/
structure Parked (L : Layout) (m n : Machine F) (k : ProcSlot) : Prop where
  /-- The kernel's invariant. -/
  inv : SystemInv L n
  /-- The slot waits. -/
  ready : (n.system.kernel.procs.procs k).state=.ready
  /-- Its context pointer. -/
  ctx : (n.system.kernel.procs.procs k).ctx=(m.system.kernel.procs.procs k).ctx
  /-- Every byte of its stacks. -/
  bytes : ∀ off,off<stacksSize→
    n.system.kernel.mem (stackByte m.system.kernel.procs k off)=
      m.system.kernel.mem (stackByte m.system.kernel.procs k off)

/-- The process array does not move. -/
theorem stackByte_eq {m n : Machine F} (hm : SystemInv L m) (hn : SystemInv L n) (k : ProcSlot) (off : ℕ) :
    stackByte n.system.kernel.procs k off=stackByte m.system.kernel.procs k off := by
  unfold stackByte kernelStack
  rw [hn.base,hm.base]

/-- One more event for a slot that waits. -/
theorem Parked.step {m n u : Machine F} {k : ProcSlot} (h : Parked L m n k) (hm : SystemInv L m)
    {e : Event F} (hstep : SystemModel.step L fuel n e=some u) :
    (u.system.kernel.procs.procs k).ctx=(m.system.kernel.procs.procs k).ctx ∧
      (∀ off,off<stacksSize→u.system.kernel.mem (stackByte m.system.kernel.procs k off)=
        m.system.kernel.mem (stackByte m.system.kernel.procs k off)) ∧
      (u.system.kernel.procs.currentProc≠some k→Parked L m u k) := by
  have hwaited := step_waited h.inv hstep h.ready
  have hctx := hwaited.slot.ctx.trans h.ctx
  have hbytes : ∀ off,off<stacksSize→u.system.kernel.mem (stackByte m.system.kernel.procs k off)=
      m.system.kernel.mem (stackByte m.system.kernel.procs k off) := by
    intro off hoff
    have hone := hwaited.bytes off hoff
    rw [stackByte_eq hm h.inv] at hone
    exact hone.trans (h.bytes off hoff)
  exact ⟨hctx,hbytes,fun hcur => ⟨h.inv.step hstep,hwaited.slot.ready hcur,hctx,hbytes⟩⟩

/-- A slot that waits, through a run in which it does not get the processor. -/
theorem Parks.parked {m n : Machine F} {k : ProcSlot} (h : Parks L fuel k m n) (hm : SystemInv L m)
    (hready : (m.system.kernel.procs.procs k).state=.ready) : Parked L m n k := by
  induction h with
  | refl => exact ⟨hm,hready,rfl,fun _ _ => rfl⟩
  | step e _ hstep hcur ih => exact (ih.step hm hstep).2.2 hcur

/-- The processor stands at the call of swtch by which schedule gives a slot
the processor, in a machine whose table already names that slot. -/
structure AtSwitchTo (K : SwitchModel.Kernel) (m : Machine F) (k j : ProcSlot) (off : ℕ) (c : Cpu) :
    Prop where
  /-- Another slot calls swtch. -/
  swtch : AtSwtch K j off c
  /-- It is another one. -/
  other : j≠k
  /-- In the kernel. -/
  level : level c.cs=0
  /-- The slot is the current one now. -/
  current : m.system.kernel.procs.currentProc=some k
  /-- Its context pointer is the second argument. -/
  ctx : c.above 1=(m.system.kernel.procs.procs k).ctx
  /-- The memory of the machine, as far as the slot's kernel stack goes. -/
  stack : ∀ off,off<4096→c.mem (stackByte m.system.kernel.procs k off)=
    m.system.kernel.mem (stackByte m.system.kernel.procs k off)

variable {K : SwitchModel.Kernel}

/-- Kernel stacks in the machine and in memory. -/
theorem stackByte_stackAddr {s : Procs} (hbase : s.base=K.base) {k : ProcSlot} (hk : k≠0) (off : ℕ) :
    stackByte s k off=stackAddr K k off := by
  unfold stackByte
  rw [kernelStack_eq hbase hk,stackAddr_add,Nat.zero_add]

/-- Where the TSS points to is the top of a kernel stack. -/
theorem esp0_eq {m : Machine F} (h : SystemInv L m) {k : ProcSlot} (hk : k≠0)
    (hcur : m.system.kernel.procs.currentProc=some k) :
    m.system.kernel.procs.esp0=stackByte m.system.kernel.procs k 4096 := by
  rw [h.procs.stack k hk hcur]
  unfold stackByte procKstackSz
  bv_omega

/-- The context pointer of a new process. -/
theorem launch_ctx (s : Procs) (k : ProcSlot) (name : CStr) (entry : Word) :
    ((launch s k name entry).procs k).ctx=kernelStack s k+procKstackSz-trapframeSize-contextSize := by
  simp [launch,Procs.setProc]

/-- When proc_create succeeds, the machine is the one with the new process. -/
theorem step_create {m n : Machine F} {name : CStr} {entry : Word} {k : ProcSlot}
    (hstep : SystemModel.step L fuel m (.proc (.create name entry))=some n)
    (hslot : createdSlot m.system.kernel.procs (.create name entry)=some k) :
    k≠0 ∧ n.system.kernel.procs=launch m.system.kernel.procs k name entry := by
  unfold SystemModel.step at hstep
  split_ifs at hstep
  obtain ⟨procs,hprocs,rfl⟩ := Option.map_eq_some_iff.mp hstep
  simp only [procStep] at hprocs
  split_ifs at hprocs
  cases hprocs
  rcases procCreate_cases m.system.kernel.procs name entry with ⟨hnone,_⟩|⟨j,hj,hfree,hrun⟩
  · rw [hnone] at hslot
    cases hslot
  · rw [hj] at hslot
    cases hslot
    refine ⟨(firstUnused_unused hfree).1,?_⟩
    exact congrArg Prod.fst hrun

/-- A process that kernel code created in some reachable state, and that did
not get the processor since, whatever happened: when it gets the processor for
the first time, its kernel stack is where the TSS points to, and the processor
goes through swtch and trapret to the entry point, with the registers and the
stack of a fresh program. -/
theorem created_process_starts {boot m₀ m₁ m₂ m₃ : Machine F} (hboot : Boot L boot)
    (hreaches : Reaches L fuel boot m₀) {name : CStr} {entry : Word} {k : ProcSlot}
    (hcreate : SystemModel.step L fuel m₀ (.proc (.create name entry))=some m₁)
    (hslot : createdSlot m₀.system.kernel.procs (.create name entry)=some k)
    (hparks : Parks L fuel k m₁ m₂) {e : Event F} (hstep : SystemModel.step L fuel m₂ e=some m₃)
    (hbase : K.base=L.base) (htrap : m₀.system.kernel.procs.trapret=K.trapret) {j : ProcSlot} {off : ℕ}
    {c : Cpu} (hat : AtSwitchTo K m₃ k j off c) :
    m₃.system.kernel.procs.esp0=stackByte m₃.system.kernel.procs k 4096 ∧
      ∃ d u,run K.code 20 c=some d ∧ K.code d.eip=some .iret ∧ X86Machine.step K.code d=some u ∧
        UserStart entry (stackByte m₃.system.kernel.procs k stacksSize) u := by
  have h₀ := (boot_inv hboot).reaches hreaches
  have h₁ := h₀.step hcreate
  obtain ⟨hk,hlaunch⟩ := step_create hcreate hslot
  have hready : (m₁.system.kernel.procs.procs k).state=.ready := by
    rw [hlaunch,(launch_slot _ k name entry k).1,if_pos rfl]
  have hparked := hparks.parked h₁ hready
  obtain ⟨hctx,hbytes,_⟩ := hparked.step h₁ hstep
  have h₃ := hparked.inv.step hstep
  have hbase₀ : m₀.system.kernel.procs.base=K.base := h₀.base.trans hbase.symm
  have hnew : (m₁.system.kernel.procs.procs k).ctx=stackAddr K k 4000 := by
    rw [hlaunch,launch_ctx,(launch_frame hbase₀ hk).2]
  have hargument : c.above 1=stackAddr K k 4000 := hat.ctx.trans (hctx.trans hnew)
  have hframe : ∀ o,4000≤o→ o<4096→
      c.mem (stackAddr K k o)=(launch m₀.system.kernel.procs k name entry).mem (stackAddr K k o) := by
    intro o _ ho
    have hstack := hat.stack o ho
    have hbyte := hbytes o (lt_trans ho (by decide))
    rw [stackByte_eq h₁ h₃,stackByte_stackAddr (h₁.base.trans hbase.symm) hk] at hstack
    rw [stackByte_stackAddr (h₁.base.trans hbase.symm) hk] at hbyte
    rw [hstack,hbyte,←hlaunch,m₁.system.kernel.shared]
    rfl
  refine ⟨esp0_eq h₃ hk hat.current,?_⟩
  have hstart := hat.swtch.launches hbase₀ htrap hk hat.other hat.level hargument hframe
  have htop : userStack m₀.system.kernel.procs k+procUstackSz=
      stackByte m₃.system.kernel.procs k stacksSize := by
    rw [stackByte_eq h₀ h₃]
    unfold stackByte userStack kernelStack stacksSize
    bv_omega
  rw [htop] at hstart
  exact hstart

/-- The processor stands at the switch to slot one. -/
theorem atCall_atSwitchTo {m : Machine Unit} (hbase : m.system.kernel.procs.base=sampleKernel.base)
    (hcur : m.system.kernel.procs.currentProc=some 1) : AtSwitchTo sampleKernel m 1 0 4000
    (atCall 0 m.system.kernel.mem (m.system.kernel.procs.procs 1).ctx) := by
  obtain ⟨hat,hnew⟩ := atCall_atSwtch 0 m.system.kernel.mem (m.system.kernel.procs.procs 1).ctx
  have hlevel : level 0x08=0 := by decide
  refine ⟨hat,by decide,hlevel,hcur,hnew,fun off hoff => ?_⟩
  have hne : ∀ o n,o+4≤16384→ n<4→stackAddr sampleKernel 1 off≠stackAddr sampleKernel 0 (o+n) :=
    fun o n ho hn => stackAddr_ne (by decide) hoff (show o+n<16384 by omega)
  rw [stackByte_stackAddr hbase (by decide)]
  exact (store32_stackAddr _ fun n hn => hne 4004 n (by decide) hn).trans
    (store32_stackAddr _ fun n hn => hne 4000 n (by decide) hn)

/-- The first switch to the process of the sample reaches its entry point. -/
theorem sample_starts : ∃ c d u,run sampleKernel.code 20 c=some d ∧ sampleKernel.code d.eip=some .iret ∧
    X86Machine.step sampleKernel.code d=some u ∧
    UserStart 0x08000000 (stackByte (sampleSwitched fun _ => 0).system.kernel.procs 1 stacksSize) u := by
  have hparks : Parks sampleLayout 1 1 (sampleCreated fun _ => 0) (sampleCreated fun _ => 0) := .refl
  exact ⟨_,(created_process_starts (sampleBoot_boot _) .refl (sampleBoot_creates _) (by decide) hparks
    (sampleCreated_yields _) rfl rfl (atCall_atSwitchTo rfl rfl)).2⟩

/-- A process that stands at its call of swtch, and that did not get the
processor since, whatever happened: when it gets the processor again, it
continues behind its call with the registers that a call keeps. -/
theorem waiting_process_resumes {boot m₁ m₂ m₃ : Machine F} (hboot : Boot L boot)
    (hreaches : Reaches L fuel boot m₁) (hbase : K.base=L.base) {k : ProcSlot} (hk : k≠0) {o : ℕ} {b : Cpu}
    (hleft : AtSwtch K k o b) (hready : (m₁.system.kernel.procs.procs k).state=.ready)
    (hsaved : (m₁.system.kernel.procs.procs k).ctx=b.reg .esp-20)
    (hstack : ∀ off,off<4096→m₁.system.kernel.mem (stackByte m₁.system.kernel.procs k off)=
      switchedMem b (stackByte m₁.system.kernel.procs k off))
    (hparks : Parks L fuel k m₁ m₂) {e : Event F} (hstep : SystemModel.step L fuel m₂ e=some m₃)
    {j : ProcSlot} {off : ℕ} {d : Cpu} (hat : AtSwitchTo K m₃ k j off d) :
    m₃.system.kernel.procs.esp0=stackByte m₃.system.kernel.procs k 4096 ∧
      ∃ r,run K.code swtchSteps d=some r ∧ Resumed b r := by
  have h₁ := (boot_inv hboot).reaches hreaches
  have hparked := hparks.parked h₁ hready
  obtain ⟨hctx,hbytes,_⟩ := hparked.step h₁ hstep
  have h₃ := hparked.inv.step hstep
  have hsize : stackSize k=4096 := if_neg (Fin.val_ne_zero_iff.2 hk)
  have hfits := hleft.fits
  have hroom := hleft.room
  refine ⟨esp0_eq h₃ hk hat.current,hat.swtch.resumes (hat.ctx.trans (hctx.trans hsaved)) ?_⟩
  rw [hleft.below.2.2.2.2]
  refine hleft.context.congr fun i hi hi' => ?_
  have hin : i<4096 := by omega
  have hkept := hat.stack i hin
  have hbyte := hbytes i (lt_trans hin (by decide))
  have hleave := hstack i hin
  rw [stackByte_eq h₁ h₃,stackByte_stackAddr (h₁.base.trans hbase.symm) hk] at hkept
  rw [stackByte_stackAddr (h₁.base.trans hbase.symm) hk] at hbyte hleave
  rw [hat.swtch.other_stack (Ne.symm hat.other) (by omega),hkept,hbyte,hleave]

/-- Storing what is there changes nothing. -/
theorem store32_self {m : Mem} {a v : Word} (h : ∀ n<4,m (a+BitVec.ofNat 32 n)=byteOf v n) :
    store32 m a v=m := by
  funext x
  rcases store32_cases m a v x with ⟨n,hn,rfl,hstore⟩|hstore
  · rw [hstore,h n hn]
  · exact hstore

/-- A kernel stack of slot one that already holds what a call of swtch pushes
there. -/
def sampleMem : Mem :=
  store32 (store32 (fun _ => 0) 0x202C04 0x100205) 0x202C08 0x204050

/-- The process of the sample gives up the processor. -/
def sampleLeft : Machine Unit :=
  ⟨(sampleSwitched sampleMem).system.setProcs (saveContext 0x202BF4
    (procYield (sampleSwitched sampleMem).system.kernel.procs)),[]⟩

/-- The processor where it does that. -/
def sampleLeaves : Cpu where
  reg r := if r=.esp then 0x202C08 else 0
  seg _ := 0x10
  cs := 0x08
  ss := 0x10
  eip := 0x100200
  eflags := 0x202
  mem := sampleLeft.system.kernel.mem

/-- The process stands at its call. -/
theorem sampleLeaves_at : AtSwtch sampleKernel 1 3000 sampleLeaves :=
  ⟨rfl,by decide,by decide,rfl,by decide +kernel⟩

/-- The call pushes what is there already. -/
theorem sampleLeaves_saved : savedMem sampleLeaves=sampleLeft.system.kernel.mem := by
  have hcall : calledMem sampleLeaves=sampleLeft.system.kernel.mem := store32_self (by decide +kernel)
  have hzero : ∀ {a : Word},(∀ n<4,sampleLeft.system.kernel.mem (a+BitVec.ofNat 32 n)=0)→
      store32 sampleLeft.system.kernel.mem a 0=sampleLeft.system.kernel.mem := by
    intro a ha
    refine store32_self fun n hn => (ha n hn).trans ?_
    have hbytes : ∀ n<4,(0 : Byte)=byteOf 0 n := by decide
    exact hbytes n hn
  have hebp : store32 sampleLeft.system.kernel.mem (sampleLeaves.reg .esp-8) (sampleLeaves.reg .ebp)=
      sampleLeft.system.kernel.mem := hzero (by decide +kernel)
  have hebx : store32 sampleLeft.system.kernel.mem (sampleLeaves.reg .esp-12) (sampleLeaves.reg .ebx)=
      sampleLeft.system.kernel.mem := hzero (by decide +kernel)
  have hesi : store32 sampleLeft.system.kernel.mem (sampleLeaves.reg .esp-16) (sampleLeaves.reg .esi)=
      sampleLeft.system.kernel.mem := hzero (by decide +kernel)
  have hedi : store32 sampleLeft.system.kernel.mem (sampleLeaves.reg .esp-20) (sampleLeaves.reg .edi)=
      sampleLeft.system.kernel.mem := hzero (by decide +kernel)
  unfold savedMem
  rw [hcall,hebp,hebx,hesi,hedi]

/-- The process of the sample gets the processor once more. -/
def sampleAgain : Machine Unit :=
  ⟨sampleLeft.system.setProcs (saveContext 0x90000 (procYield sampleLeft.system.kernel.procs)),[]⟩

/-- It continues behind its call. -/
theorem sample_resumes : ∃ d r,run sampleKernel.code swtchSteps d=some r ∧ Resumed sampleLeaves r := by
  have hreaches : Reaches sampleLayout 1 (sampleBoot sampleMem) sampleLeft :=
    .step (.proc (.yield 0x202BF4))
      (.step sampleYield (.step sampleCreate .refl (sampleBoot_creates _)) (sampleCreated_yields _)) rfl
  have hparks : Parks sampleLayout 1 1 sampleLeft sampleLeft := .refl
  have hyield : SystemModel.step sampleLayout 1 sampleLeft sampleYield=some sampleAgain := rfl
  have hstack : ∀ off,off<4096→
      sampleLeft.system.kernel.mem (stackByte sampleLeft.system.kernel.procs 1 off)=
        switchedMem sampleLeaves (stackByte sampleLeft.system.kernel.procs 1 off) := by
    intro off hoff
    rw [sampleLeaves_at.switchedMem_eq,sampleLeaves_saved,
      stackByte_stackAddr (K := sampleKernel) rfl (by decide)]
    refine (store32_of_not_inRange _ fun hr => ?_).symm
    obtain ⟨n,hn,he⟩ := (inRange_iff (by decide)).mp hr
    exact stackAddr_ne_ctxField 1 1 (show off<stackSize 1 from hoff) hn he
  exact ⟨_,(waiting_process_resumes (sampleBoot_boot _) hreaches rfl (by decide) sampleLeaves_at rfl
    (by decide +kernel) hstack hparks hyield (atCall_atSwitchTo rfl rfl)).2⟩

end EronKernel.ProcessStart

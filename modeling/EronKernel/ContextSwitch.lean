import EronKernel.SwitchModel

/-!
# Switching between processes and starting one

Every slot runs on a stack of its own, and the context pointers lie outside
all stacks. A pass through swtch therefore writes nothing of another slot's
stack, and the five words that it saved are still there when somebody switches
back, however many switches later. The frames that proc_create lays out are
what swtch and trapret pop.
-/

namespace EronKernel.ContextSwitch

open ByteMemory X86Machine ProcModel SwitchModel

variable {K : Kernel}

/-- The processor stands at a call of swtch by a slot, on the slot's own stack
with the address of its context pointer as first argument. -/
structure AtSwtch (K : Kernel) (p : ProcSlot) (off : ℕ) (c : Cpu) : Prop where
  /-- The next instruction is the call. -/
  call : K.code c.eip=some (.call K.swtch)
  /-- The return address and four registers fit below the arguments. -/
  room : 20≤off
  /-- The arguments are inside the stack. -/
  fits : off+8 ≤ stackSize p
  /-- The stack pointer. -/
  esp : c.reg .esp=stackAddr K p off
  /-- The first argument. -/
  old : c.above 0=ctxField K p

/-- Addresses in a slot's stack add up. -/
theorem stackAddr_add (p : ProcSlot) (o n : ℕ) :
    stackAddr K p o+BitVec.ofNat 32 n=stackAddr K p (o+n) := by
  unfold stackAddr
  split_ifs
  · rw [BitVec.ofNat_add]
    bv_omega
  · rw [←Nat.add_assoc,BitVec.ofNat_add _ n]
    bv_omega

/-- The stack below an address. -/
theorem stackAddr_sub (p : ProcSlot) {o n : ℕ} (h : n≤o) :
    stackAddr K p o-BitVec.ofNat 32 n=stackAddr K p (o-n) := by
  have hadd := stackAddr_add (K := K) p (o-n) n
  rw [Nat.sub_add_cancel h] at hadd
  rw [←hadd]
  bv_omega

/-- The boot stack is outside the process array. -/
theorem bootStack_ne {o n : ℕ} (ho : o<16384) (hn : n<16*8240) :
    K.bootStack+BitVec.ofNat 32 o≠K.base+BitVec.ofNat 32 n := by
  intro he
  refine K.apart o ho ((inRange_iff (by decide)).mpr ⟨n,hn,he⟩)

/-- Addresses in one stack are different. -/
theorem stackAddr_injective {p : ProcSlot} {o₁ o₂ : ℕ} (h₁ : o₁<16384) (h₂ : o₂<16384)
    (h : stackAddr K p o₁=stackAddr K p o₂) : o₁=o₂ := by
  have hp := p.isLt
  unfold stackAddr processSize at h
  split_ifs at h
  · exact offset_injective (by omega) (by omega) h
  · have hoff := offset_injective (by omega) (by omega) h
    omega

/-- Stacks of different slots are apart. -/
theorem stackAddr_ne {p q : ProcSlot} (hpq : p≠q) {o₁ o₂ : ℕ} (h₁ : o₁<stackSize p)
    (h₂ : o₂<stackSize q) : stackAddr K p o₁≠stackAddr K q o₂ := by
  have hp := p.isLt
  have hq := q.isLt
  unfold stackSize at h₁ h₂
  unfold stackAddr processSize
  split_ifs at h₁ h₂⊢ with hp0 hq0 hq0
  · exact absurd (Fin.ext (hp0.trans hq0.symm)) hpq
  · exact bootStack_ne h₁ (by omega)
  · exact (bootStack_ne h₂ (by omega)).symm
  · intro he
    have hoff := offset_injective (by omega) (by omega) he
    exact hpq (Fin.ext (by omega))

/-- Context pointers are outside the stacks. -/
theorem stackAddr_ne_ctxField (p q : ProcSlot) {o k : ℕ} (ho : o<stackSize p) (hk : k<4) :
    stackAddr K p o≠ctxField K q+BitVec.ofNat 32 k := by
  have hp := p.isLt
  have hq := q.isLt
  have hfield : ctxField K q+BitVec.ofNat 32 k=
      K.base+BitVec.ofNat 32 (processSize*q.val+ctxOffset+k) := by
    unfold ctxField
    rw [BitVec.ofNat_add _ k]
    bv_omega
  rw [hfield]
  unfold stackSize at ho
  unfold stackAddr processSize ctxOffset
  split_ifs at ho⊢ with hp0
  · exact bootStack_ne ho (by omega)
  · intro he
    have hoff := offset_injective (by omega) (by omega) he
    omega

/-- The arguments of swtch are above the return address. -/
theorem calledMem_above (c : Cpu) :
    load32 (calledMem c) (c.reg .esp)=c.above 0 ∧ load32 (calledMem c) (c.reg .esp+4)=c.above 1 := by
  have h0 : c.reg .esp+4*0=c.reg .esp := by bv_omega
  have h1 : c.reg .esp+4*1=c.reg .esp+4 := by bv_omega
  unfold calledMem Cpu.above
  rw [h0,h1]
  exact ⟨load32_store32_of_apart _ (by bv_omega) (by bv_omega),
    load32_store32_of_apart _ (by bv_omega) (by bv_omega)⟩

/-- The four bytes of a word in a stack. -/
theorem inRange_stackAddr {p : ProcSlot} {o : ℕ} {x : Word} (h : InRange (stackAddr K p o) 4 x) :
    ∃ k<4,x=stackAddr K p (o+k) := by
  obtain ⟨k,hk,rfl⟩ := (inRange_iff (by decide)).mp h
  exact ⟨k,hk,stackAddr_add p o k⟩

/-- A word store in a stack. -/
theorem store32_stackAddr {p : ProcSlot} {o : ℕ} {m : Mem} {x : Word} (v : Word)
    (hx : ∀ k<4,x≠stackAddr K p (o+k)) : store32 m (stackAddr K p o) v x=m x := by
  refine store32_of_not_inRange v fun hr => ?_
  obtain ⟨k,hk,rfl⟩ := inRange_stackAddr hr
  exact hx k hk rfl

variable {p : ProcSlot} {off : ℕ} {c : Cpu}

/-- The stack pointer of the caller and the words that swtch pushes. -/
theorem AtSwtch.below (h : AtSwtch K p off c) :
    c.reg .esp-4=stackAddr K p (off-4) ∧ c.reg .esp-8=stackAddr K p (off-8) ∧
      c.reg .esp-12=stackAddr K p (off-12) ∧ c.reg .esp-16=stackAddr K p (off-16) ∧
      c.reg .esp-20=stackAddr K p (off-20) := by
  have hroom := h.room
  rw [h.esp]
  exact ⟨stackAddr_sub p (n := 4) (by omega),stackAddr_sub p (n := 8) (by omega),
    stackAddr_sub p (n := 12) (by omega),stackAddr_sub p (n := 16) (by omega),
    stackAddr_sub p (n := 20) (by omega)⟩

/-- swtch stores the stack pointer in the slot's context pointer. -/
theorem AtSwtch.switchedMem_eq (h : AtSwtch K p off c) :
    switchedMem c=store32 (savedMem c) (ctxField K p) (c.reg .esp-20) := by
  unfold switchedMem
  rw [(calledMem_above c).1,h.old]

/-- swtch writes twenty bytes of the caller's stack and its context pointer. -/
theorem AtSwtch.switchedMem_of_ne (h : AtSwtch K p off c) {x : Word}
    (hstack : ∀ o,off-20≤o→ o<off→ x≠stackAddr K p o) (hfield : ∀ k<4,x≠ctxField K p+BitVec.ofNat 32 k) :
    switchedMem c x=c.mem x := by
  have hroom := h.room
  obtain ⟨h4,h8,h12,h16,h20⟩ := h.below
  have hold : ¬InRange (ctxField K p) 4 x := by
    intro hr
    obtain ⟨k,hk,hx⟩ := (inRange_iff (by decide)).mp hr
    exact hfield k hk hx
  rw [h.switchedMem_eq,store32_of_not_inRange _ hold]
  unfold savedMem calledMem
  rw [h4,h8,h12,h16,h20]
  rw [store32_stackAddr _ fun k hk => hstack _ (by omega) (by omega),
    store32_stackAddr _ fun k hk => hstack _ (by omega) (by omega),
    store32_stackAddr _ fun k hk => hstack _ (by omega) (by omega),
    store32_stackAddr _ fun k hk => hstack _ (by omega) (by omega),
    store32_stackAddr _ fun k hk => hstack _ (by omega) (by omega)]

/-- A pass through swtch writes nothing of another slot's stack. -/
theorem AtSwtch.other_stack (h : AtSwtch K p off c) {q : ProcSlot} (hq : q≠p) {o : ℕ}
    (ho : o<stackSize q) : switchedMem c (stackAddr K q o)=c.mem (stackAddr K q o) := by
  have hfits := h.fits
  refine h.switchedMem_of_ne (fun o' _ ho' => stackAddr_ne hq ho (by omega)) fun k hk => ?_
  exact stackAddr_ne_ctxField q p ho hk

/-- The words that a pass through swtch saves, in the order of struct
context. -/
structure SavedContext (m : Mem) (ctx : Word) (b : Cpu) : Prop where
  /-- Register edi. -/
  edi : load32 m ctx=b.reg .edi
  /-- Register esi. -/
  esi : load32 m (ctx+4)=b.reg .esi
  /-- Register ebx. -/
  ebx : load32 m (ctx+8)=b.reg .ebx
  /-- Register ebp. -/
  ebp : load32 m (ctx+12)=b.reg .ebp
  /-- The address behind the call. -/
  eip : load32 m (ctx+16)=b.eip+5

/-- The stack after the pushes of a call and swtch. -/
theorem savedMem_context (c : Cpu) : SavedContext (savedMem c) (c.reg .esp-20) c := by
  have h4 : c.reg .esp-20+4=c.reg .esp-16 := by bv_omega
  have h8 : c.reg .esp-20+8=c.reg .esp-12 := by bv_omega
  have h12 : c.reg .esp-20+12=c.reg .esp-8 := by bv_omega
  have h16 : c.reg .esp-20+16=c.reg .esp-4 := by bv_omega
  unfold savedMem calledMem
  constructor
  · rw [load32_store32]
  · rw [h4,load32_store32_of_apart _ (by bv_omega) (by bv_omega),load32_store32]
  · rw [h8,load32_store32_of_apart _ (by bv_omega) (by bv_omega),
      load32_store32_of_apart _ (by bv_omega) (by bv_omega),load32_store32]
  · rw [h12,load32_store32_of_apart _ (by bv_omega) (by bv_omega),
      load32_store32_of_apart _ (by bv_omega) (by bv_omega),
      load32_store32_of_apart _ (by bv_omega) (by bv_omega),load32_store32]
  · rw [h16,load32_store32_of_apart _ (by bv_omega) (by bv_omega),
      load32_store32_of_apart _ (by bv_omega) (by bv_omega),
      load32_store32_of_apart _ (by bv_omega) (by bv_omega),
      load32_store32_of_apart _ (by bv_omega) (by bv_omega),load32_store32]

/-- A saved context in a stack, moved to a memory with the same words there. -/
theorem SavedContext.congr {m n : Mem} {o : ℕ} {b : Cpu} (h : SavedContext m (stackAddr K p o) b)
    (hmn : ∀ i,o ≤ i→ i < o+20→ n (stackAddr K p i)=m (stackAddr K p i)) :
    SavedContext n (stackAddr K p o) b := by
  have hword : ∀ j,o≤j→ j+4≤o+20→ load32 n (stackAddr K p j)=load32 m (stackAddr K p j) := by
    intro j hj hj'
    refine load32_congr fun x hx => ?_
    obtain ⟨k,hk,rfl⟩ := inRange_stackAddr hx
    exact hmn _ (by omega) (by omega)
  have h4 := stackAddr_add (K := K) p o 4
  have h8 := stackAddr_add (K := K) p o 8
  have h12 := stackAddr_add (K := K) p o 12
  have h16 := stackAddr_add (K := K) p o 16
  constructor
  · exact (hword o (by omega) (by omega)).trans h.edi
  · refine Eq.trans ?_ h.esi
    rw [show (4 : Word)=BitVec.ofNat 32 4 from rfl,h4]
    exact hword _ (by omega) (by omega)
  · refine Eq.trans ?_ h.ebx
    rw [show (8 : Word)=BitVec.ofNat 32 8 from rfl,h8]
    exact hword _ (by omega) (by omega)
  · refine Eq.trans ?_ h.ebp
    rw [show (12 : Word)=BitVec.ofNat 32 12 from rfl,h12]
    exact hword _ (by omega) (by omega)
  · refine Eq.trans ?_ h.eip
    rw [show (16 : Word)=BitVec.ofNat 32 16 from rfl,h16]
    exact hword _ (by omega) (by omega)

/-- swtch saves the caller's context below its stack pointer. -/
theorem AtSwtch.context (h : AtSwtch K p off c) :
    SavedContext (switchedMem c) (stackAddr K p (off-20)) c := by
  have hfits := h.fits
  have hroom := h.room
  have hsaved := savedMem_context c
  rw [h.below.2.2.2.2] at hsaved
  refine hsaved.congr fun i _ hi => ?_
  rw [h.switchedMem_eq]
  refine store32_of_not_inRange _ fun hr => ?_
  obtain ⟨l,hl,he⟩ := (inRange_iff (by decide)).mp hr
  exact stackAddr_ne_ctxField p p (by omega) hl he

/-- The memory of a slot's stack at or above the context that a call of swtch
leaves there. -/
def Protected (K : Kernel) (p : ProcSlot) (off : ℕ) (x : Word) : Prop :=
  ∃ o,off-20≤o ∧ o<stackSize p ∧ x=stackAddr K p o

/-- What may happen between two switches of a slot: anything that does not
write its protected memory, and switches by other slots. -/
inductive Chain (K : Kernel) (p : ProcSlot) (off : ℕ) (c : Cpu) : Cpu→Prop where
  /-- Nothing. -/
  | refl : Chain K p off c c
  /-- Any execution that leaves the protected memory alone. -/
  | other {d e : Cpu} : Chain K p off c d→(∀ x,Protected K p off x→ e.mem x=d.mem x)→Chain K p off c e
  /-- A switch by another slot, to whatever context. -/
  | switch {d e : Cpu} {q : ProcSlot} {o : ℕ} : Chain K p off c d→ q≠p→AtSwtch K q o d→
    run K.code swtchSteps d=some e→Chain K p off c e

/-- The memory after a switch. -/
theorem AtSwtch.afterSwtch_mem {q : ProcSlot} {o : ℕ} {d e : Cpu} (h : AtSwtch K q o d)
    (hrun : run K.code swtchSteps d=some e) : e.mem=switchedMem d := by
  rw [run_swtch h.call] at hrun
  cases hrun
  exact (afterSwtch_switched K d).mem

/-- A chain leaves the protected memory alone. -/
theorem Chain.mem_eq {d : Cpu} (h : Chain K p off c d) {x : Word} (hx : Protected K p off x) :
    d.mem x=c.mem x := by
  induction h with
  | refl => rfl
  | other _ hsame ih => rw [hsame x hx,ih]
  | switch _ hq hat hrun ih =>
    obtain ⟨o,_,ho,rfl⟩ := hx
    rw [hat.afterSwtch_mem hrun,hat.other_stack (Ne.symm hq) ho,ih]

/-- The state in which a slot continues after its call. -/
structure Resumed (b d : Cpu) : Prop where
  /-- Directly behind the call. -/
  eip : d.eip=b.eip+5
  /-- With the stack pointer it had. -/
  esp : d.reg .esp=b.reg .esp
  /-- Register ebx. -/
  ebx : d.reg .ebx=b.reg .ebx
  /-- Register ebp. -/
  ebp : d.reg .ebp=b.reg .ebp
  /-- Register esi. -/
  esi : d.reg .esi=b.reg .esi
  /-- Register edi. -/
  edi : d.reg .edi=b.reg .edi

/-- A switch to a saved context resumes its slot. -/
theorem AtSwtch.resumes {q : ProcSlot} {o : ℕ} {d b : Cpu} (h : AtSwtch K q o d)
    (hctx : d.above 1=b.reg .esp-20) (hsaved : SavedContext (switchedMem d) (b.reg .esp-20) b) :
    ∃ e,run K.code swtchSteps d=some e ∧ Resumed b e := by
  have hsw := afterSwtch_switched K d
  rw [(calledMem_above d).2,hctx] at hsw
  refine ⟨afterSwtch K d,run_swtch h.call,?_⟩
  constructor
  · exact hsw.eip.trans hsaved.eip
  · rw [hsw.esp]
    bv_omega
  · exact hsw.ebx.trans hsaved.ebx
  · exact hsw.ebp.trans hsaved.ebp
  · exact hsw.esi.trans hsaved.esi
  · exact hsw.edi.trans hsaved.edi

/-- A slot that calls swtch is resumed behind its call by the next switch to
the context it saved, whatever chain of switches lies between. -/
theorem resumed_after_chain {b d : Cpu} (h : AtSwtch K p off b) (hchain : Chain K p off (afterSwtch K b) d)
    {q : ProcSlot} (hq : q≠p) {o : ℕ} (hat : AtSwtch K q o d) (hctx : d.above 1=b.reg .esp-20) :
    ∃ e,run K.code swtchSteps d=some e ∧ Resumed b e := by
  have hfits := h.fits
  have hroom := h.room
  have hmem := h.afterSwtch_mem (run_swtch h.call)
  refine hat.resumes hctx ?_
  rw [h.below.2.2.2.2]
  refine h.context.congr fun i hi hi' => ?_
  have hprot : Protected K p off (stackAddr K p i) := ⟨i,hi,by omega,rfl⟩
  rw [hat.other_stack (Ne.symm hq) (by omega),hchain.mem_eq hprot,hmem]

/-- The words that proc_create lays out below the top of a kernel stack: the
context and, behind it, the trap frame. -/
def frameWords (trapret entry userEsp : Word) : List Word :=
  contextWords trapret++trapframeWords entry userEsp

variable {s : Procs} {k : ProcSlot} {name : CString.CStr} {entry : Word}

/-- Kernel stacks of slots behind slot zero lie in the process array. -/
theorem kernelStack_eq (hbase : s.base=K.base) (hk : k≠0) : kernelStack s k=stackAddr K k 0 := by
  unfold kernelStack stackAddr
  rw [if_neg (Fin.val_ne_zero_iff.2 hk),hbase,Nat.add_zero]

/-- Where proc_create puts the trap frame and the context. -/
theorem launch_frame (hbase : s.base=K.base) (hk : k≠0) :
    kernelStack s k+procKstackSz-trapframeSize=stackAddr K k 4020 ∧
      kernelStack s k+procKstackSz-trapframeSize-contextSize=stackAddr K k 4000 := by
  have htop : kernelStack s k+procKstackSz=stackAddr K k 4096 := by
    rw [kernelStack_eq hbase hk]
    exact stackAddr_add k 0 4096
  rw [htop]
  have htf : stackAddr K k 4096-trapframeSize=stackAddr K k 4020 := stackAddr_sub k (n := 76) (by decide)
  rw [htf]
  exact ⟨rfl,stackAddr_sub k (n := 20) (by decide)⟩

/-- The frames that proc_create lays out, word by word. -/
theorem launch_words (hbase : s.base=K.base) (hk : k≠0) {i : ℕ} (hi : i<24) :
    load32 (launch s k name entry).mem (stackAddr K k (4000+4*i))=
      (frameWords s.trapret entry (userStack s k+procUstackSz)).getD i 0 := by
  obtain ⟨htf,hctx⟩ := launch_frame hbase hk
  have hmem : (launch s k name entry).mem=storeWords (storeWords s.mem (stackAddr K k 4020)
      (trapframeWords entry (userStack s k+procUstackSz))) (stackAddr K k 4000) (contextWords s.trapret) := by
    rw [←htf,←hctx]
    rfl
  rw [hmem]
  by_cases hlow : i<5
  · have hword := load32_storeWords (contextWords s.trapret)
      (m := storeWords s.mem (stackAddr K k 4020) (trapframeWords entry (userStack s k+procUstackSz)))
      (a := stackAddr K k 4000) (i := i) hlow (by decide : 4*5≤2^32)
    rw [stackAddr_add] at hword
    rw [hword,frameWords,List.getD_eq_getElem?_getD,List.getElem?_append_left hlow,
      List.getElem?_eq_getElem hlow,Option.getD_some]
  · have hword := load32_storeWords (trapframeWords entry (userStack s k+procUstackSz)) (m := s.mem)
      (a := stackAddr K k 4020) (i := i-5) (show i-5<19 by omega) (by decide : 4*19≤2^32)
    rw [stackAddr_add,show 4020+4*(i-5)=4000+4*i by omega] at hword
    have hkeep : load32 (storeWords (storeWords s.mem (stackAddr K k 4020)
        (trapframeWords entry (userStack s k+procUstackSz))) (stackAddr K k 4000)
        (contextWords s.trapret)) (stackAddr K k (4000+4*i))=
        load32 (storeWords s.mem (stackAddr K k 4020)
          (trapframeWords entry (userStack s k+procUstackSz))) (stackAddr K k (4000+4*i)) := by
      refine load32_congr fun x hx => storeWords_of_not_inRange _ (by decide : 4*5≤2^32) fun hr => ?_
      obtain ⟨b,hb,rfl⟩ := inRange_stackAddr hx
      obtain ⟨d,hd,he⟩ := (inRange_iff (show 4*5≤2^32 by decide)).mp hr
      rw [stackAddr_add] at he
      have hoff := stackAddr_injective (by omega) (by omega) he
      omega
    have hlen : i-(contextWords s.trapret).length<
        (trapframeWords entry (userStack s k+procUstackSz)).length := show i-5<19 by omega
    rw [hkeep,hword,frameWords,List.getD_eq_getElem?_getD,List.getElem?_append_right (Nat.not_lt.mp hlow),
      List.getElem?_eq_getElem hlen,Option.getD_some]
    rfl

/-- The first instruction of user code. -/
structure UserStart (entry userEsp : Word) (u : Cpu) : Prop where
  /-- At the entry point. -/
  eip : u.eip=entry
  /-- In the user code segment. -/
  cs : u.cs=(segUcode|||3).setWidth 16
  /-- With interrupts enabled. -/
  eflags : u.eflags=0x202
  /-- On the user stack. -/
  esp : u.reg .esp=userEsp
  /-- In the user data segment. -/
  ss : u.ss=(segUdata|||3).setWidth 16
  /-- With user data segments. -/
  seg : ∀ r,u.seg r=(segUdata|||3).setWidth 16
  /-- With cleared registers. -/
  reg : ∀ r,r≠.esp→ u.reg r=0

/-- A trap frame on the stack. -/
theorem userStart_of_frame {v : Cpu} (hlevel : level v.cs=0) {userEsp : Word}
    (hframe : ∀ i<19,v.above (BitVec.ofNat 32 i)=(trapframeWords entry userEsp).getD i 0) :
    UserStart entry userEsp (execBlock v trapretCode) := by
  have hr := trapret_restored v (by
    rw [show v.above 15=segUcode|||3 from hframe 15 (by decide),hlevel]
    decide)
  constructor
  · exact hr.eip.trans (hframe 14 (by decide))
  · rw [hr.cs,show v.above 15=segUcode|||3 from hframe 15 (by decide)]
  · exact hr.eflags.trans (hframe 16 (by decide))
  · exact hr.esp.trans (hframe 17 (by decide))
  · rw [hr.ss,show v.above 18=segUdata|||3 from hframe 18 (by decide)]
  · intro r
    cases r with
    | gs => rw [hr.gs,show v.above 0=segUdata|||3 from hframe 0 (by decide)]
    | fs => rw [hr.fs,show v.above 1=segUdata|||3 from hframe 1 (by decide)]
    | es => rw [hr.es,show v.above 2=segUdata|||3 from hframe 2 (by decide)]
    | ds => rw [hr.ds,show v.above 3=segUdata|||3 from hframe 3 (by decide)]
  · intro r hne
    cases r with
    | esp => exact absurd rfl hne
    | edi => exact hr.edi.trans (hframe 4 (by decide))
    | esi => exact hr.esi.trans (hframe 5 (by decide))
    | ebp => exact hr.ebp.trans (hframe 6 (by decide))
    | ebx => exact hr.ebx.trans (hframe 8 (by decide))
    | edx => exact hr.edx.trans (hframe 9 (by decide))
    | ecx => exact hr.ecx.trans (hframe 10 (by decide))
    | eax => exact hr.eax.trans (hframe 11 (by decide))

/-- The frames of a new process are still there after another slot went
through swtch. -/
theorem AtSwtch.launch_words (hbase : s.base=K.base) (hk : k≠0) {j : ProcSlot} (hj : j≠k)
    (hat : AtSwtch K j off c)
    (hmem : ∀ o,4000≤o→ o<4096→ c.mem (stackAddr K k o)=(launch s k name entry).mem (stackAddr K k o))
    {i : ℕ} (hi : i<24) :
    load32 (switchedMem c) (stackAddr K k (4000+4*i))=
      (frameWords s.trapret entry (userStack s k+procUstackSz)).getD i 0 := by
  have hsize : stackSize k=4096 := if_neg (Fin.val_ne_zero_iff.2 hk)
  have hlaunched : load32 (launch s k name entry).mem (stackAddr K k (4000+4*i))=_ :=
    ContextSwitch.launch_words hbase hk hi
  rw [←hlaunched]
  refine load32_congr fun x hx => ?_
  obtain ⟨b,hb,rfl⟩ := inRange_stackAddr hx
  rw [hat.other_stack (Ne.symm hj) (by omega),hmem _ (by omega) (by omega)]

/-- The first switch to a new process goes through trapret to user code. -/
theorem AtSwtch.launches (hbase : s.base=K.base) (htrap : s.trapret=K.trapret) (hk : k≠0) {j : ProcSlot}
    (hj : j≠k) (hat : AtSwtch K j off c) (hlevel : level c.cs=0) (hctx : c.above 1=stackAddr K k 4000)
    (hmem : ∀ o,4000≤o→ o<4096→ c.mem (stackAddr K k o)=(launch s k name entry).mem (stackAddr K k o)) :
    ∃ d u,run K.code 20 c=some d ∧ K.code d.eip=some .iret ∧ step K.code d=some u ∧
      UserStart entry (userStack s k+procUstackSz) u := by
  have hwords := fun {i : ℕ} (hi : i<24) => hat.launch_words (i := i) hbase hk hj hmem hi
  have hsw := afterSwtch_switched K c
  rw [(calledMem_above c).2,hctx] at hsw
  have heip : (afterSwtch K c).eip=K.trapret := by
    have hword := hwords (i := 4) (by decide)
    rw [hsw.eip,show (16 : Word)=BitVec.ofNat 32 16 from rfl,stackAddr_add,hword,←htrap]
    rfl
  have hcode : CodeAt K.code (afterSwtch K c).eip (trapretCode.dropLast++[.iret]) := by
    rw [heip]
    exact K.codeTrapret
  obtain ⟨hrun,hiret,hlast⟩ := run_block hcode (by decide)
  refine ⟨_,_,(run_add (run_swtch hat.call) 6).trans hrun,hiret,hlast,?_⟩
  refine userStart_of_frame (by rw [hsw.cs]; exact hlevel) fun i hi => ?_
  have hfour : 4*BitVec.ofNat 32 i=BitVec.ofNat 32 (4*i) := by bv_omega
  have hword := hwords (i := i+5) (by omega)
  unfold Cpu.above
  rw [hsw.esp,hsw.mem,hfour,show (20 : Word)=BitVec.ofNat 32 20 from rfl,stackAddr_add,stackAddr_add,
    show 4000+20+4*i=4000+4*(i+5) by omega,hword]
  rfl

/-- The first switch to a process that proc_create accepted, by another slot
and with the new frames as proc_create left them, executes trapret up to its
iret and from there the first instruction of user code. -/
def Launches (K : Kernel) : Prop :=
  ∀ (s : Procs) (name : CString.CStr) (entry : Word) (k j : ProcSlot) (off : ℕ) (c : Cpu),
    s.base=K.base→ s.trapret=K.trapret→firstUnused s=some k→0x08000000≤entry→entry<0xC0000000→
    j≠k→AtSwtch K j off c→level c.cs=0→ c.above 1=((procCreate s name entry).1.procs k).ctx→
    (∀ x,InRange ((procCreate s name entry).1.procs k).ctx 96 x→ c.mem x=(procCreate s name entry).1.mem x)→
    ∃ d u,run K.code 20 c=some d ∧ K.code d.eip=some .iret ∧ step K.code d=some u ∧
      UserStart entry (userStack s k+procUstackSz) u

/-- A slot that calls swtch leaves its context in its context pointer, and the
next switch to that context, after any chain of switches by other slots that
does not write the slot's stack at or above it, resumes the slot behind its
call. -/
def Resumes (K : Kernel) : Prop :=
  ∀ (p : ProcSlot) (off : ℕ) (b : Cpu),AtSwtch K p off b→
    ∃ a,run K.code swtchSteps b=some a ∧ load32 a.mem (ctxField K p)=b.reg .esp-20 ∧
      ∀ (d : Cpu) (q : ProcSlot) (o : ℕ),Chain K p off a d→ q≠p→AtSwtch K q o d→
        d.above 1=load32 a.mem (ctxField K p)→∃ e,run K.code swtchSteps d=some e ∧ Resumed b e

/-- swtch, trapret and the frames of proc_create agree. -/
theorem swtch_agrees_with_layouts (K : Kernel) : Launches K ∧ Resumes K := by
  constructor
  · intro s name entry k j off c hbase htrap hfree hlow hhigh hj hat hlevel hctx hmem
    have hk : k≠0 := by
      have hp := List.find?_some hfree
      simp only [Bool.and_eq_true,decide_eq_true_eq] at hp
      exact hp.1
    have hcreate : (procCreate s name entry).1=launch s k name entry := by
      have hzero : entry≠0 := by
        rintro rfl
        exact absurd hlow (by decide)
      have hrange : ¬(entry<0x08000000 ∨ 0xC0000000≤entry) :=
        not_or.mpr ⟨BitVec.not_lt.mpr hlow,BitVec.not_le.mpr hhigh⟩
      unfold procCreate
      rw [if_neg hzero,if_neg hrange,hfree]
    have hnew : ((procCreate s name entry).1.procs k).ctx=stackAddr K k 4000 := by
      rw [hcreate,←(launch_frame hbase hk).2]
      simp [launch,Procs.setProc]
    rw [hnew] at hctx hmem
    rw [hcreate] at hmem
    refine hat.launches hbase htrap hk hj hlevel hctx fun o ho ho' => hmem _ ?_
    rw [inRange_iff (by decide)]
    refine ⟨o-4000,by omega,?_⟩
    rw [stackAddr_add,Nat.add_sub_cancel' ho]
  · intro p off b hat
    have hmem := hat.afterSwtch_mem (run_swtch hat.call)
    have hctx : load32 (afterSwtch K b).mem (ctxField K p)=b.reg .esp-20 := by
      rw [hmem,hat.switchedMem_eq,load32_store32]
    refine ⟨afterSwtch K b,run_swtch hat.call,hctx,fun d q o hchain hq hat' hnew => ?_⟩
    exact resumed_after_chain hat hchain hq hat' (hnew.trans hctx)

/-- Instructions with their addresses. -/
def placed (a : Word) : List Instr→List (Word×Instr)
  | [] => []
  | i::is => (a,i)::placed (a+i.size) is

/-- A kernel image with the two routines and a call of swtch. -/
def sampleKernel : Kernel where
  code a := (placed 0x100000 swtchCode++placed 0x100100 trapretCode++[(0x100200,Instr.call 0x100000)]).lookup a
  swtch := 0x100000
  trapret := 0x100100
  base := 0x200000
  bootStack := 0x300000
  codeSwtch := by decide
  codeTrapret := by decide
  apart := by
    intro off ho hr
    obtain ⟨n,hn,he⟩ := (inRange_iff (by decide)).mp hr
    unfold processSize at hn
    bv_omega

/-- A slot stands at the call with two arguments on its stack. -/
def atCall (p : ProcSlot) (m : Mem) (new : Word) : Cpu where
  reg r := if r=.esp then stackAddr sampleKernel p 4000 else 7
  seg _ := 0x10
  cs := 0x08
  ss := 0x10
  eip := 0x100200
  eflags := 0x202
  mem := store32 (store32 m (stackAddr sampleKernel p 4000) (ctxField sampleKernel p))
    (stackAddr sampleKernel p 4004) new

/-- The state is a call of swtch with that argument. -/
theorem atCall_atSwtch (p : ProcSlot) (m : Mem) (new : Word) :
    AtSwtch sampleKernel p 4000 (atCall p m new) ∧ (atCall p m new).above 1=new := by
  have hnext : stackAddr sampleKernel p 4004=stackAddr sampleKernel p 4000+4 :=
    (stackAddr_add p 4000 4).symm
  have hesp : (atCall p m new).reg .esp=stackAddr sampleKernel p 4000 := rfl
  have hzero : stackAddr sampleKernel p 4000+4*0=stackAddr sampleKernel p 4000 := by bv_omega
  have hone : stackAddr sampleKernel p 4000+4*1=stackAddr sampleKernel p 4000+4 := by bv_omega
  refine ⟨⟨rfl,by decide,?_,hesp,?_⟩,?_⟩
  · unfold stackSize
    split_ifs <;> decide
  · rw [Cpu.above,hesp,hzero,atCall,hnext,load32_store32_of_apart _ (by bv_omega) (by bv_omega),
      load32_store32]
  · rw [Cpu.above,hesp,hone,atCall,hnext,load32_store32]

/-- The process table behind proc_init, over an array of that image. -/
def sampleTable : Procs :=
  procInit ⟨fun _ => ⟨0,fun _ => 0,.unused,0,0,0⟩,none,1,fun _ => 0,0,fun _ => 0,0x200000,0x100100⟩

/-- The call writes its two arguments only. -/
theorem atCall_mem_of_ne {p : ProcSlot} (m : Mem) (new : Word) {x : Word}
    (hx : ∀ o,4000≤o→ o<4008→ x≠stackAddr sampleKernel p o) : (atCall p m new).mem x=m x :=
  (store32_stackAddr _ fun k hk => hx (4004+k) (by omega) (by omega)).trans
    (store32_stackAddr _ fun k hk => hx (4000+k) (by omega) (by omega))

/-- A call on the stack of slot two writes nothing of slot one's stack. -/
theorem atCall_mem (m : Mem) (new : Word) {o : ℕ} (ho : o<4096) :
    (atCall 2 m new).mem (stackAddr sampleKernel 1 o)=m (stackAddr sampleKernel 1 o) :=
  atCall_mem_of_ne m new fun o' _ ho' => stackAddr_ne (by decide) ho (show o'<4096 by omega)

/-- Slot two switches to the process that proc_create put into slot one, which
starts; and slot one switches away and slot two switches back to it. -/
theorem sampleKernel_switches : (∃ c d u,AtSwtch sampleKernel 2 4000 c ∧ run sampleKernel.code 20 c=some d ∧
      step sampleKernel.code d=some u ∧ UserStart 0x08048000 (userStack sampleTable 1+procUstackSz) u) ∧
    ∃ b d e,AtSwtch sampleKernel 1 4000 b ∧ run sampleKernel.code swtchSteps d=some e ∧ Resumed b e := by
  obtain ⟨hlaunches,hresumes⟩ := swtch_agrees_with_layouts sampleKernel
  constructor
  · let created := (procCreate sampleTable (.lit "init") 0x08048000).1
    have hctx : (created.procs 1).ctx=stackAddr sampleKernel 1 4000 := by decide +kernel
    obtain ⟨hat,hnew⟩ := atCall_atSwtch 2 created.mem (created.procs 1).ctx
    obtain ⟨d,u,hrun,_,hstep,hstart⟩ := hlaunches sampleTable (.lit "init") 0x08048000 1 2 4000 _ rfl rfl
      (by decide) (by decide) (by decide) (by decide) hat (show level 0x08=0 by decide) hnew fun x hx => by
        rw [hctx] at hx
        obtain ⟨n,hn,rfl⟩ := (inRange_iff (by decide)).mp hx
        rw [stackAddr_add]
        exact atCall_mem _ _ (by omega)
    exact ⟨_,d,u,hat,hrun,hstep,hstart⟩
  · have hb := (atCall_atSwtch 1 (fun _ => 0) 0).1
    obtain ⟨a,_,_,hresume⟩ := hresumes 1 4000 _ hb
    let new := load32 a.mem (ctxField sampleKernel 1)
    have hchain : Chain sampleKernel 1 4000 a (atCall 2 a.mem new) := by
      refine .other .refl fun x hx => ?_
      obtain ⟨o,_,ho,rfl⟩ := hx
      exact atCall_mem _ _ ho
    obtain ⟨e,hrun,hres⟩ := hresume _ 2 4000 hchain (by decide) (atCall_atSwtch 2 a.mem new).1
      (atCall_atSwtch 2 a.mem new).2
    exact ⟨_,_,e,hb,hrun,hres⟩

end EronKernel.ContextSwitch

import EronKernel.HeapFirstFit
import EronKernel.ProcInvariant
import EronKernel.SystemSteps
import EronKernel.TtyRefinement
import EronKernel.VfsShape

/-!
# The invariant of the whole kernel

Each part has an invariant of its own; here they hold together, over one
memory. What keeps them apart is the layout: allocator calls write inside the
heap, creating a process writes its slot's stack, and everything else that is
stored lies outside both. Every event keeps the invariant, so it holds in every
state of every run, and no part of the kernel can be broken through another.
-/

namespace EronKernel.SystemInvariant

open ByteMemory CString BlockList DescriptorFormat HeapModel HeapLayout HeapRuns HeapFirstFit TtyModel
  TtyRefinement KeyboardModel VfsModel VfsShape ProcModel ProcInvariant SyscallModel
  InterruptModel SystemModel SystemSteps

variable {F : Type}

/-- The scheduler works, and the TSS points to the kernel stack of a user
process that runs. -/
structure Scheduled (s : Procs) : Prop where
  /-- The scheduler's invariant. -/
  sched : SchedInv s
  /-- The stack for interrupts. -/
  stack : ∀ k,k≠0→s.currentProc=some k→s.esp0=kernelStack s k+procKstackSz

/-- proc_init makes it so. -/
theorem procInit_scheduled (s : Procs) : Scheduled (procInit s) where
  sched := procInit_sched s
  stack := by
    intro k hk hc
    have hcur : (procInit s).currentProc=some 0 := rfl
    rw [hcur] at hc
    cases hc
    exact absurd rfl hk

/-- A step that at most frees slots keeps it so. -/
theorem Scheduled.free {s t : Procs} (h : Scheduled s)
    (hfreed : ∀ k,((t.procs k).state=(s.procs k).state) ∨
      (k≠0 ∧ (s.procs k).state≠.running ∧ (t.procs k).state=.unused))
    (hpid : ∀ k,(t.procs k).pid=(s.procs k).pid) (hcur : t.currentProc=s.currentProc)
    (hesp : t.esp0=s.esp0) (hbase : t.base=s.base) : Scheduled t where
  sched := h.sched.free hfreed hpid hcur
  stack := by
    intro k hk hc
    rw [hcur] at hc
    rw [hesp,h.stack k hk hc]
    unfold kernelStack
    rw [hbase]

/-- schedule keeps everything but the slots, the current one and the TSS. -/
theorem schedule_keeps (s : Procs) :
    (schedule s).1.mem=s.mem ∧ (schedule s).1.base=s.base ∧ (schedule s).1.trapret=s.trapret := by
  unfold schedule
  split
  · exact ⟨rfl,rfl,rfl⟩
  · split
    · exact ⟨rfl,rfl,rfl⟩
    · dsimp only
      split_ifs <;> exact ⟨rfl,rfl,rfl⟩

/-- schedule points the TSS to the stack of the slot it switches to. -/
theorem schedule_scheduled {s : Procs} {cur : ProcSlot} (h : SchedPre s cur)
    (hstack : cur≠0→s.esp0=kernelStack s cur+procKstackSz) : Scheduled (schedule s).1 where
  sched := schedule_sched h
  stack := by
    intro k hk hc
    cases hn : nextReady s cur with
    | none =>
      rw [schedule_none h hn] at hc⊢
      rw [h.current] at hc
      cases hc
      exact hstack hk
    | some next =>
      obtain ⟨_,_,hcur,_,hbase,hesp,_⟩ := schedule_to h.current hn (h.next_ne hn)
      rw [hcur] at hc
      cases hc
      rw [hesp hk]
      unfold kernelStack
      rw [hbase]

/-- Saving a stack pointer keeps it so. -/
theorem Scheduled.save {r : Procs×Option Switch} (h : Scheduled r.1) (esp : Word) :
    Scheduled (saveContext esp r) := by
  refine h.free (fun k => Or.inl (saveContext_slot esp r k).1) (fun k => (saveContext_slot esp r k).2)
    (saveContext_currentProc esp r) ?_ ?_
  all_goals
    unfold saveContext
    cases r.2 <;> rfl

/-- Saving a stack pointer keeps memory and addresses. -/
theorem saveContext_keeps (esp : Word) (r : Procs×Option Switch) :
    (saveContext esp r).mem=r.1.mem ∧ (saveContext esp r).base=r.1.base ∧
      (saveContext esp r).trapret=r.1.trapret := by
  unfold saveContext
  cases r.2 <;> exact ⟨rfl,rfl,rfl⟩

/-- proc_yield keeps it so. -/
theorem Scheduled.yield {s : Procs} (h : Scheduled s) : Scheduled (procYield s).1 := by
  obtain ⟨cur,hc⟩ := h.sched.current
  exact schedule_scheduled (h.sched.pre hc) fun hk => h.stack cur hk hc

/-- proc_exit keeps it so. -/
theorem Scheduled.exit {s : Procs} (h : Scheduled s) (code : Word) : Scheduled (procExit s code).1 := by
  rcases procExit_cases h.sched code with hrun|⟨cur,hc,hp,hrun⟩
  · rw [hrun]
    exact h
  · rw [hrun]
    exact schedule_scheduled (h.sched.pre_exited hc hp code) fun hk => h.stack cur hk hc

/-- proc_exit keeps memory and addresses. -/
theorem procExit_keeps (s : Procs) (code : Word) :
    (procExit s code).1.mem=s.mem ∧ (procExit s code).1.base=s.base ∧
      (procExit s code).1.trapret=s.trapret := by
  unfold procExit
  split
  · exact ⟨rfl,rfl,rfl⟩
  · split_ifs
    · exact ⟨rfl,rfl,rfl⟩
    · exact schedule_keeps _

/-- Every step of the process table keeps it so. -/
theorem Scheduled.step {s t : Procs} (h : Scheduled s) {op : ProcOp} (hs : procStep s op=some t) :
    Scheduled t := by
  cases op with
  | create name entry =>
    simp only [procStep] at hs
    split_ifs at hs
    cases hs
    rcases procCreate_cases s name entry with ⟨_,hrun⟩|⟨k,_,hk,hrun⟩
    · rw [hrun]
      exact h
    · rw [hrun]
      exact ⟨h.sched.launch hk name entry,h.stack⟩
  | yield esp =>
    cases hs
    exact h.yield.save esp
  | exit code esp =>
    cases hs
    exact (h.exit code).save esp
  | reap =>
    simp only [procStep] at hs
    split_ifs at hs
    cases hs
    exact h.free (reapZombies_freed s) (reapZombies_pid s) rfl rfl rfl
  | release child =>
    simp only [procStep] at hs
    split_ifs at hs with hc
    cases hs
    obtain ⟨_,h0,hstate⟩ := hc
    exact h.free (release_freed h0 fun hr => hstate (Or.inr hr)) (release_pid s child) rfl rfl rfl

/-- Creating a process writes the top of its kernel stack only. -/
theorem launch_mem (s : Procs) (k : ProcSlot) (name : CStr) (entry : Word) {x : Word}
    (hx : ∀ off,4000≤off→ off<4096→ x≠stackByte s k off) : (launch s k name entry).mem x=s.mem x := by
  have htf : ∀ n,n<96→kernelStack s k+procKstackSz-trapframeSize-contextSize+BitVec.ofNat 32 n=
      stackByte s k (4000+n) := by
    intro n hn
    unfold stackByte
    bv_omega
  have hctx : ¬InRange (kernelStack s k+procKstackSz-trapframeSize-contextSize)
      (4*(contextWords s.trapret).length) x := by
    intro hr
    obtain ⟨n,hn,rfl⟩ := (inRange_iff (by decide : 4*5≤2^32)).mp hr
    exact hx _ (by omega) (by omega) (htf n (by omega))
  have hframe : ¬InRange (kernelStack s k+procKstackSz-trapframeSize)
      (4*(trapframeWords entry (userStack s k+procUstackSz)).length) x := by
    intro hr
    obtain ⟨n,hn,rfl⟩ := (inRange_iff (by decide : 4*19≤2^32)).mp hr
    refine hx (4000+(20+n)) (by omega) (by omega) ?_
    rw [←htf (20+n) (by omega)]
    unfold contextSize
    bv_omega
  unfold launch
  exact (storeWords_of_not_inRange (contextWords s.trapret) (by decide : 4*5≤2^32) hctx).trans
    (storeWords_of_not_inRange _ (by decide : 4*19≤2^32) hframe)

variable {L : Layout}

/-- Stacks lie in the process array. -/
theorem stackByte_toNat {s : Procs} (hbase : s.base=L.base) (k : ProcSlot) {off : ℕ} (hoff : off<stacksSize) :
    (stackByte s k off).toNat=L.base.toNat+processSize*k.val+32+off := by
  have hk := k.isLt
  have hbelow := L.below
  have hstart := L.heapStart.isLt
  unfold stackByte kernelStack
  rw [hbase]
  unfold processSize stacksSize at *
  bv_omega

/-- The stacks of different slots are apart. -/
theorem stackByte_ne {s : Procs} (hbase : s.base=L.base) {j k : ProcSlot} (hjk : j≠k) {o p : ℕ}
    (ho : o<stacksSize) (hp : p<stacksSize) : stackByte s j o≠stackByte s k p := by
  intro he
  have hnat := congrArg BitVec.toNat he
  rw [stackByte_toNat hbase j ho,stackByte_toNat hbase k hp] at hnat
  refine hjk (Fin.ext ?_)
  unfold processSize stacksSize at *
  omega

/-- The stacks belong to the process array. -/
theorem stackByte_owned {s : Procs} (hbase : s.base=L.base) (k : ProcSlot) {off : ℕ}
    (hoff : off<stacksSize) : Owned L (stackByte s k off) := by
  have hk := k.isLt
  have hnat := stackByte_toNat hbase k hoff
  refine Or.inl ⟨by omega,?_⟩
  rw [hnat]
  unfold processSize stacksSize at *
  omega

/-- The stacks are outside the heap. -/
theorem stackByte_lt {s : Procs} (hbase : s.base=L.base) (k : ProcSlot) {off : ℕ}
    (hoff : off<stacksSize) : (stackByte s k off).toNat<L.heapStart.toNat := by
  have hk := k.isLt
  have hbelow := L.below
  rw [stackByte_toNat hbase k hoff]
  unfold processSize stacksSize at *
  omega

/-- An address in a heap. -/
def InHeap (s : Heap) (x : Word) : Prop := s.heapStart.toNat≤x.toNat ∧ x.toNat<s.heapEnd.toNat

/-- A header lies in the heap. -/
theorem headerByte_inHeap {s : Heap} {bs : List Block} (h : Represents s bs) {x : Word}
    (hx : HeaderByte s.heapStart.toNat bs x) : InHeap s x := by
  obtain ⟨p,hp,hlo,hhi⟩ := hx
  have hb := placed_bounds hp
  have ht := h.tiles
  constructor <;> omega

/-- The allocator and its clients write inside the heap. -/
theorem perform_frame {fuel : ℕ} {st next : Session} {bs : List Block} (h : HeapInv st bs) {c : HeapCall}
    (hp : perform fuel st c=some next) {x : Word} (hx : ¬InHeap st.heap x) :
    next.heap.mem x=st.heap.mem x := by
  have hlarge := perform_mono (Nat.le_max_left fuel (2^32)) hp
  have hf : 2^32 ≤ max fuel (2^32) := Nat.le_max_right _ _
  cases c with
  | kmalloc size =>
    obtain ⟨r,hrun,rfl⟩ := Option.map_eq_some_iff.mp hlarge
    by_cases hz : size=0
    · rw [kmalloc,if_pos hz] at hrun
      cases hrun
      rfl
    · rcases kmalloc_on_chain h.represents hz hf with ⟨hnone,_⟩|⟨t,p,l,sz,r',hsome,_,hbs,_,_,htakes⟩
      · rw [hnone] at hrun
        cases hrun
        rfl
      · rw [hsome] at hrun
        cases hrun
        refine htakes.frame x fun hin => hx ?_
        have ht := h.represents.tiles
        rw [hbs] at ht
        simp only [extent_append,extent] at ht
        constructor <;> omega
  | kfree p =>
    obtain ⟨r,hrun,rfl⟩ := Option.map_eq_some_iff.mp hlarge
    by_cases htracked : p∈trackedPtrs st.heap.tracked
    · obtain ⟨t,cs,hk,hstep,_⟩ := kfree_tracked h htracked hf
      rw [hk] at hrun
      cases hrun
      exact hstep.onlyHeaders x fun hb => hx (headerByte_inHeap h.represents hb)
    · rw [kfree_untracked htracked] at hrun
      cases hrun
      rfl
  | kfreeAll =>
    obtain ⟨t,n,live',cs,hrun,hstep,_⟩ := releaseAll_step (List.range maxTrackedBlocks) hf 0 h
    simp only [perform] at hlarge
    rw [hrun] at hlarge
    cases hlarge
    exact hstep.onlyHeaders x fun hb => hx (headerByte_inHeap h.represents hb)
  | write y b =>
    simp only [perform] at hlarge
    split_ifs at hlarge with hlive
    cases hlarge
    refine store8_of_ne _ ?_
    rintro rfl
    obtain ⟨p,hpl,hlt⟩ := hlive
    obtain ⟨l,sz,r,_,hpn,_,hsize,hbound⟩ := h.block_of_live hpl
    have hend := st.heap.heapEnd.isLt
    rw [hsize,BitVec.toNat_ofNat] at hlt
    refine hx ⟨?_,?_⟩ <;> bv_omega

/-- The invariant of the heap depends on the memory inside it only. -/
theorem heapInv_congr {st : Session} {bs : List Block} (h : HeapInv st bs) {mem : Mem}
    (hmem : ∀ x,InHeap st.heap x→mem x=st.heap.mem x) : HeapInv ⟨{st.heap with mem := mem},st.live⟩ bs := by
  refine ⟨⟨h.represents.nonempty,h.represents.tiles,fun p hp => ?_⟩,h.separated,h.live,h.trackedNodup,
    h.trackedLive⟩
  have hplaced : p∈placed 12 st.heap.heapStart.toNat bs := hp
  have hb := placed_bounds hplaced
  have ht := h.represents.tiles
  have hext := h.represents.extent_lt
  refine headerAt_congr (by omega) (fun x hlo hhi => hmem x ?_) (h.represents.headers p hp)
  constructor <;> omega

/-- Whatever is written, the terminal shows a page. -/
theorem writes_shows {t u : Terminal} (h : Writes t u) {p : Page} (hp : Shows t p) : ∃ q,Shows u q := by
  obtain ⟨ops,rfl⟩ := h
  exact ⟨_,performTty_foldl_shows ops hp⟩

/-- A step of the process table writes only to the stack of a process that it
creates. -/
theorem procStep_mem {s t : Procs} {op : ProcOp} (hs : procStep s op=some t) {x : Word}
    (hx : ∀ k off,createdSlot s op=some k→4000≤off→ off<4096→x≠stackByte s k off) : t.mem x=s.mem x := by
  cases op with
  | create name entry =>
    simp only [procStep] at hs
    split_ifs at hs
    cases hs
    rcases procCreate_cases s name entry with ⟨_,hrun⟩|⟨k,hslot,_,hrun⟩
    · rw [hrun]
    · rw [hrun]
      exact launch_mem s k name entry fun off => hx k off hslot
  | yield esp =>
    cases hs
    rw [(saveContext_keeps esp _).1,procYield,(schedule_keeps s).1]
  | exit code esp =>
    cases hs
    rw [(saveContext_keeps esp _).1,(procExit_keeps s code).1]
  | reap =>
    simp only [procStep] at hs
    split_ifs at hs
    cases hs
    rfl
  | release child =>
    simp only [procStep] at hs
    split_ifs at hs
    cases hs
    rfl

/-- The process array stays where it is. -/
theorem procStep_base {s t : Procs} {op : ProcOp} (hs : procStep s op=some t) :
    t.base=s.base ∧ t.trapret=s.trapret := by
  cases op with
  | create name entry =>
    simp only [procStep] at hs
    split_ifs at hs
    cases hs
    rcases procCreate_cases s name entry with ⟨_,hrun⟩|⟨k,_,_,hrun⟩
    · rw [hrun]
      exact ⟨rfl,rfl⟩
    · rw [hrun]
      exact ⟨rfl,rfl⟩
  | yield esp =>
    cases hs
    rw [(saveContext_keeps esp _).2.1,(saveContext_keeps esp _).2.2]
    exact (schedule_keeps s).2
  | exit code esp =>
    cases hs
    rw [(saveContext_keeps esp _).2.1,(saveContext_keeps esp _).2.2]
    exact (procExit_keeps s code).2
  | reap =>
    simp only [procStep] at hs
    split_ifs at hs
    cases hs
    exact ⟨rfl,rfl⟩
  | release child =>
    simp only [procStep] at hs
    split_ifs at hs
    cases hs
    exact ⟨rfl,rfl⟩

/-- The invariants of all parts, over one memory. -/
structure SystemInv (L : Layout) (m : Machine F) : Prop where
  /-- Memory holds the heap's blocks, and used ones are the live pointers. -/
  heap : ∃ bs,HeapInv ⟨m.system.kernel.heap,m.live⟩ bs
  /-- The heap begins where mm_init put it. -/
  heapStart : m.system.kernel.heap.heapStart=L.heapStart
  /-- The heap ends where mm_init put it. -/
  heapEnd : m.system.kernel.heap.heapEnd=L.heapEnd
  /-- The process array is where the linker put it. -/
  base : m.system.kernel.procs.base=L.base
  /-- One slot runs, the rest is scheduled, and the TSS points to its stack. -/
  procs : Scheduled m.system.kernel.procs
  /-- The file system's statics are well formed. -/
  vfs : TableOk m.system.kernel.vfs
  /-- The terminal shows a page. -/
  terminal : ∃ p,Shows m.system.keyboard.terminal p
  /-- Timer and keyboard are not masked, and no line waits for an end of
  interrupt. -/
  pic : m.system.pic=⟨0x20,0xFC,0,0⟩

/-- Boot establishes the invariant. -/
theorem boot_inv {m : Machine F} (h : Boot L m) : SystemInv L m := by
  obtain ⟨mem,tracked,start,size,hsize,hfit,hstart,hend,hheap⟩ := h.heap
  obtain ⟨s,hprocs⟩ := h.procs
  obtain ⟨os,hvfs⟩ := h.vfs
  obtain ⟨t,ops,hterminal⟩ := h.terminal
  refine ⟨⟨[⟨size.toNat-12,false⟩],?_⟩,?_,?_,h.base,?_,?_,⟨ops.foldl Page.perform blankPage,?_⟩,h.pic⟩
  · rw [hheap,h.live]
    exact mmInit_inv mem tracked hsize hfit
  · rw [hheap]
    exact hstart
  · rw [hheap]
    exact hend
  · rw [hprocs]
    exact procInit_scheduled s
  · rw [hvfs]
    exact performOps_tableOk os tableOk_init
  · rw [hterminal]
    exact performTty_foldl_shows ops (terminalInitialize_shows t)

/-- Another memory under a process table is no concern of the scheduler. -/
theorem Scheduled.withMem {s : Procs} (h : Scheduled s) (mem : Mem) : Scheduled {s with mem := mem} :=
  h.free (fun _ => Or.inl rfl) (fun _ => rfl) rfl rfl rfl

/-- A store that events make is outside the heap. -/
theorem stores_not_inHeap {m : Machine F} (h : SystemInv L m) {x : Word}
    (hx : Stores L m.system.kernel.procs x) : ¬InHeap m.system.kernel.heap x := by
  rintro ⟨hlo,hhi⟩
  rw [h.heapStart] at hlo
  rw [h.heapEnd] at hhi
  rcases hx with howned|⟨k,off,_,_,hoff,rfl⟩
  · exact howned (Or.inr ⟨hlo,hhi⟩)
  · exact absurd (stackByte_lt h.base k hoff) (by omega)

/-- A change of allocator, process table, file system or memory keeps the
invariants of the parts. -/
theorem SystemInv.change {fuel : ℕ} {e : Event F} {m n : Machine F} (h : SystemInv L m)
    (hc : Change L fuel e m n)
    (hterminal : ∃ p,Shows n.system.keyboard.terminal p) (hpic : n.system.pic=⟨0x20,0xFC,0,0⟩) :
    SystemInv L n := by
  obtain ⟨bs,hheap⟩ := h.heap
  have hshared := m.system.kernel.shared
  cases hc with
  | still hh hp hv hl =>
    exact ⟨⟨bs,by rw [hh,hl]; exact hheap⟩,by rw [hh]; exact h.heapStart,by rw [hh]; exact h.heapEnd,
      by rw [hp]; exact h.base,by rw [hp]; exact h.procs,by rw [hv]; exact h.vfs,hterminal,hpic⟩
  | heap c _ hrun hp hv =>
    obtain ⟨cs,hstep⟩ := callStep_of_perform hheap hrun
    exact ⟨⟨cs,hstep.inv⟩,hstep.heapStart.trans h.heapStart,hstep.heapEnd.trans h.heapEnd,
      by rw [hp]; exact h.base,by rw [hp]; exact h.procs.withMem _,by rw [hv]; exact h.vfs,hterminal,hpic⟩
  | proc op _ hrun hh hv hl =>
    have hsame : ∀ x,InHeap m.system.kernel.heap x→
        n.system.kernel.procs.mem x=m.system.kernel.heap.mem x := by
      intro x hx
      rw [←hshared]
      refine procStep_mem hrun fun k off _ _ hoff he => ?_
      have hlt := stackByte_lt h.base k (show off<stacksSize from lt_trans hoff (by decide))
      have hlo := hx.1
      rw [h.heapStart,he] at hlo
      omega
    exact ⟨⟨bs,by rw [hh,hl]; exact heapInv_congr hheap hsame⟩,by rw [hh]; exact h.heapStart,
      by rw [hh]; exact h.heapEnd,(procStep_base hrun).1.trans h.base,h.procs.step hrun,
      by rw [hv]; exact h.vfs,hterminal,hpic⟩
  | file o hv hh hp hl =>
    exact ⟨⟨bs,by rw [hh,hl]; exact hheap⟩,by rw [hh]; exact h.heapStart,by rw [hh]; exact h.heapEnd,
      by rw [hp]; exact h.base,by rw [hp]; exact h.procs,by rw [hv]; exact performOp_tableOk h.vfs o,
      hterminal,hpic⟩
  | store x b hx hh hp hv hl =>
    have hsame : ∀ y,InHeap m.system.kernel.heap y→
        store8 m.system.kernel.heap.mem x b y=m.system.kernel.heap.mem y := by
      intro y hy
      refine store8_of_ne _ ?_
      rintro rfl
      exact stores_not_inHeap h hx hy
    exact ⟨⟨bs,by rw [hh,hl]; exact heapInv_congr hheap hsame⟩,by rw [hh]; exact h.heapStart,
      by rw [hh]; exact h.heapEnd,by rw [hp]; exact h.base,by rw [hp]; exact h.procs.withMem _,
      by rw [hv]; exact h.vfs,hterminal,hpic⟩

/-- Every event keeps the invariant. -/
theorem SystemInv.step {fuel : ℕ} {m n : Machine F} (h : SystemInv L m) {e : Event F}
    (hstep : step L fuel m e=some n) : SystemInv L n := by
  obtain ⟨bs,hheap⟩ := h.heap
  obtain ⟨page,hpage⟩ := h.terminal
  have heffect := step_effect hheap hstep
  refine h.change heffect.change (writes_shows heffect.terminal hpage) ?_
  rw [heffect.pic (by rw [h.pic])]
  exact h.pic

/-- It holds in every machine that a run reaches from one where it holds. -/
theorem SystemInv.reaches {fuel : ℕ} {m n : Machine F} (h : SystemInv L m) (hr : Reaches L fuel m n) :
    SystemInv L n := by
  induction hr with
  | refl => exact h
  | step e _ hstep ih => exact ih.step hstep

/-- From boot on, whatever happens in whatever order, the invariants of all
parts hold together. -/
theorem kernel_invariant_always {fuel : ℕ} {boot m : Machine F} (hboot : Boot L boot)
    (hr : Reaches L fuel boot m) : SystemInv L m := (boot_inv hboot).reaches hr

/-- The process array at two megabytes, one megabyte of heap at four. -/
def sampleLayout : Layout where
  base := 0x200000
  heapStart := 0x400000
  heapEnd := 0x500000
  below := by decide
  ordered := by decide
  belowUser := by decide

/-- Statics before proc_init. -/
def sampleStatics (mem : Mem) : Procs where
  procs := fun _ => ⟨0,fun _ => 0,.unused,0,0,0⟩
  currentProc := none
  nextPid := 1
  childParent := fun _ => 0
  esp0 := 0
  mem := (mmInit mem HeapIntegrity.emptyTracker 0x400000 0x100000).mem
  base := 0x200000
  trapret := 0x100100

/-- A machine after the initialization of its parts, over any memory. -/
def sampleBoot (mem : Mem) : Machine Unit where
  system := {
    kernel := {
      heap := mmInit mem HeapIntegrity.emptyTracker 0x400000 0x100000
      vfs := vfsInit zeroed
      procs := procInit (sampleStatics mem)
      ticks := 0
      frequency := 100
      output := []
      shared := rfl}
    keyboard := ⟨false,false,false,false,0,fun _ => 0,0,0,clearedTerminal,[]⟩
    pic := ⟨0x20,0xFC,0,0⟩
    halted := false}
  live := []

/-- It is a machine at boot. -/
theorem sampleBoot_boot (mem : Mem) : Boot sampleLayout (sampleBoot mem) where
  heap := ⟨_,_,_,_,by decide,by decide,by decide,by decide,rfl⟩
  procs := ⟨sampleStatics mem,rfl⟩
  base := rfl
  vfs := ⟨[],rfl⟩
  terminal := ⟨_,[],rfl⟩
  pic := rfl
  live := rfl

/-- A tick that interrupts the kernel. -/
def sampleTick : Event Unit :=
  .interrupt ⟨fun _ => 0,fun _ => 0,fun _ => 0⟩ 0 ⟨32,0,0x101000,0x08,⟨0,0,0,0⟩⟩ 0

/-- The kernel creates a process. -/
def sampleCreate : Event Unit := .proc (.create kernelName 0x08000000)

/-- The machine after proc_create. -/
def sampleCreated (mem : Mem) : Machine Unit :=
  ⟨(sampleBoot mem).system.setProcs (procCreate (procInit (sampleStatics mem)) kernelName 0x08000000).1,[]⟩

/-- It comes from the machine at boot. -/
theorem sampleBoot_creates (mem : Mem) :
    step sampleLayout 1 (sampleBoot mem) sampleCreate=some (sampleCreated mem) := rfl

/-- The kernel gives up the processor. -/
def sampleYield : Event Unit := .proc (.yield 0x90000)

/-- The created process of the sample has its first turn. -/
def sampleSwitched (mem : Mem) : Machine Unit :=
  ⟨(sampleCreated mem).system.setProcs
    (saveContext 0x90000 (procYield (sampleCreated mem).system.kernel.procs)),[]⟩

/-- It comes from the machine with the new process. -/
theorem sampleCreated_yields (mem : Mem) :
    step sampleLayout 1 (sampleCreated mem) sampleYield=some (sampleSwitched mem) := rfl

/-- The invariant after a process was created and a tick came. -/
theorem sampleTick_invariant : ∃ m,step sampleLayout 1 (sampleCreated fun _ => 0) sampleTick=some m ∧
    SystemInv sampleLayout m := by
  have htick : ∃ m,step sampleLayout 1 (sampleCreated fun _ => 0) sampleTick=some m := ⟨_,rfl⟩
  obtain ⟨m,hm⟩ := htick
  exact ⟨m,hm,kernel_invariant_always (sampleBoot_boot _) (.step _ (.step _ .refl (sampleBoot_creates _)) hm)⟩

end EronKernel.SystemInvariant

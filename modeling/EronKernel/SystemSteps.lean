import EronKernel.ProcInvariant
import EronKernel.SyscallEffects
import EronKernel.SystemModel

/-!
# What one event can do to the kernel

One inversion of the machine's step. Whatever happens, the allocator's and the
process table's states change through one call of their own, the file system
through one operation, memory elsewhere through one store, or nothing of all
this changes; the terminal is written to through its calls, and the interrupt
controller ends every service that it begins.
-/

namespace EronKernel.SystemSteps

open ByteMemory CString DescriptorFormat HeapModel HeapRuns TtyModel KeyboardModel VfsModel
  DecimalPrinters ProcModel SyscallModel SyscallEffects InterruptModel SystemModel

variable {F : Type}

/-- The terminal was written to through its own calls. -/
def Writes (t u : Terminal) : Prop := ∃ ops : List TtyOp,u=ops.foldl performTty t

/-- Nothing was written. -/
theorem Writes.refl (t : Terminal) : Writes t t := ⟨[],rfl⟩

/-- One call. -/
theorem writes_op (t : Terminal) (op : TtyOp) : Writes t (performTty t op) := ⟨[op],rfl⟩

/-- Calls after calls. -/
theorem Writes.trans {t u v : Terminal} (h : Writes t u) (h' : Writes u v) : Writes t v := by
  obtain ⟨ops,rfl⟩ := h
  obtain ⟨more,rfl⟩ := h'
  exact ⟨ops++more,by rw [List.foldl_append]⟩

/-- Characters one after the other. -/
theorem writes_putchars (t : Terminal) (bytes : List Byte) : Writes t (bytes.foldl terminalPutchar t) :=
  ⟨bytes.map .putchar,by rw [List.foldl_map]; rfl⟩

/-- print_dec writes. -/
theorem writes_printDec {tmp buf : Row 12} {v : Word} {t u : Terminal} (h : printDec tmp buf v t=some u) :
    Writes t u := by
  unfold printDec at h
  split_ifs at h
  · cases h
    exact writes_op t (.writestring _)
  · obtain ⟨r,_,hmap⟩ := Option.bind_eq_some_iff.mp h
    obtain ⟨b,_,rfl⟩ := Option.map_eq_some_iff.mp hmap
    exact writes_op t (.writestring _)

/-- print_hex writes. -/
theorem writes_printHex {h : Row 9} {v : Word} {t u : Terminal} (hrun : printHex h v t=some u) :
    Writes t u := by
  obtain ⟨r,_,hmap⟩ := Option.bind_eq_some_iff.mp hrun
  obtain ⟨b,_,rfl⟩ := Option.map_eq_some_iff.mp hmap
  exact writes_op t (.writestring _)

/-- A string, after what was written. -/
theorem Writes.string {t u : Terminal} (h : Writes t u) (s : CStr) : Writes t (terminalWritestring u s) :=
  h.trans (writes_op u (.writestring s))

/-- Another colour, after what was written. -/
theorem Writes.color {t u : Terminal} (h : Writes t u) (c : Byte) : Writes t (terminalSetcolor u c) :=
  h.trans (writes_op u (.setcolor c))

/-- A report begins with a colour and three strings. -/
theorem writes_heading (t : Terminal) (c : Byte) (a b d : CStr) :
    Writes t (terminalWritestring (terminalWritestring (terminalWritestring (terminalSetcolor t c) a) b) d) :=
  ((((Writes.refl t).color c).string a).string b).string d

/-- The pid of a report, when there is one. -/
theorem writes_pid {sc : Scratch} {current : Option Word} {t u : Terminal}
    (h : (match current with
      | some pid => printDec sc.tmp sc.buf pid t
      | none => some t)=some u) : Writes t u := by
  cases current with
  | none =>
    cases h
    exact Writes.refl t
  | some pid => exact writes_printDec h

/-- The error code of a report, when there is one. -/
theorem writes_errCode {p : Prop} [Decidable p] {sc : Scratch} {s : CStr} {v : Word} {t u : Terminal}
    (h : (if p then printHex sc.hex v (terminalWritestring t s) else some t)=some u) : Writes t u := by
  split_ifs at h
  · exact ((Writes.refl t).string s).trans (writes_printHex h)
  · cases h
    exact Writes.refl t

/-- A fault report writes. -/
theorem writes_reportFault {sc : Scratch} {current : Option Word} {f : InterruptFrame} {t u : Terminal}
    (h : reportFault sc current f t=some u) : Writes t u := by
  unfold reportFault at h
  obtain ⟨t₁,hpid,h⟩ := Option.bind_eq_some_iff.mp h
  obtain ⟨t₂,heip,h⟩ := Option.bind_eq_some_iff.mp h
  obtain ⟨t₃,herr,rfl⟩ := Option.map_eq_some_iff.mp h
  have hnumber := (writes_heading t _ _ _ _).trans (writes_pid hpid)
  have hplace := (hnumber.string _).trans (writes_printHex heip)
  exact ((hplace.trans (writes_errCode herr)).color _).string _

/-- A panic writes. -/
theorem writes_reportPanic {sc : Scratch} {f : InterruptFrame} {t u : Terminal}
    (h : reportPanic sc f t=some u) : Writes t u := by
  unfold reportPanic at h
  obtain ⟨t₁,heip,rfl⟩ := Option.map_eq_some_iff.mp h
  exact ((writes_heading t _ _ _ _).trans (writes_printHex heip)).string _

/-- The keyboard echoes at most one character. -/
theorem writes_keyboardIrq (k : Keyboard) (scancode : Byte) :
    Writes k.terminal (keyboardIrq k scancode).terminal := by
  have hqueue : ∀ (k : Keyboard) (c : Byte),(enqueue k c).terminal=k.terminal := by
    intro k c
    unfold enqueue
    dsimp only
    split_ifs <;> rfl
  have hecho : ∀ (k : Keyboard) (c : Byte),Writes k.terminal (echo k c).terminal := by
    intro k c
    unfold echo
    split_ifs
    · exact writes_op k.terminal (.putchar c)
    · exact Writes.refl _
  unfold keyboardIrq
  dsimp only
  split_ifs
  all_goals first
    | exact Writes.refl _
    | (rw [hqueue]; exact hecho k _)

/-- A store that does not go to the process table or the heap, or goes to the
stacks of the slot that runs. -/
def Stores (L : Layout) (s : Procs) (x : Word) : Prop :=
  ¬Owned L x ∨ ∃ k off,s.currentProc=some k ∧ k.val≠0 ∧ off<stacksSize ∧ x=stackByte s k off

/-- The current process gives up the processor or exits. -/
def Leaves : ProcOp→Prop
  | .yield _ => True
  | .exit _ _ => True
  | _ => False

/-- Leaving creates nothing. -/
theorem Leaves.createdSlot {op : ProcOp} (h : Leaves op) (s : Procs) : createdSlot s op=none := by
  cases op with
  | yield | exit => rfl
  | create | reap | release => exact h.elim

/-- What an event changes of allocator, process table and file system. -/
inductive Change (L : Layout) (fuel : ℕ) (e : Event F) (m n : Machine F) : Prop where
  /-- Nothing. -/
  | still : n.system.kernel.heap=m.system.kernel.heap→n.system.kernel.procs=m.system.kernel.procs→
    n.system.kernel.vfs=m.system.kernel.vfs→n.live=m.live→Change L fuel e m n
  /-- One call of the allocator, or a client's write when that is the event. -/
  | heap (c : HeapCall) : (c.IsAllocator ∨ e=.heap c)→
    perform fuel ⟨m.system.kernel.heap,m.live⟩ c=some ⟨n.system.kernel.heap,n.live⟩→
    n.system.kernel.procs={m.system.kernel.procs with mem := n.system.kernel.heap.mem}→
    n.system.kernel.vfs=m.system.kernel.vfs→Change L fuel e m n
  /-- One step of the process table; only kernel code creates processes and
  frees slots. -/
  | proc (op : ProcOp) : (Leaves op ∨ e=.proc op)→
    procStep m.system.kernel.procs op=some n.system.kernel.procs→
    n.system.kernel.heap={m.system.kernel.heap with mem := n.system.kernel.procs.mem}→
    n.system.kernel.vfs=m.system.kernel.vfs→n.live=m.live→Change L fuel e m n
  /-- One operation of the file system. -/
  | file (o : VfsOp F) : n.system.kernel.vfs=performOp m.system.kernel.vfs o→
    n.system.kernel.heap=m.system.kernel.heap→n.system.kernel.procs=m.system.kernel.procs→
    n.live=m.live→Change L fuel e m n
  /-- One store. -/
  | store (x : Word) (b : Byte) : Stores L m.system.kernel.procs x→
    n.system.kernel.heap={m.system.kernel.heap with mem := store8 m.system.kernel.heap.mem x b}→
    n.system.kernel.procs=
      {m.system.kernel.procs with mem := store8 m.system.kernel.heap.mem x b}→
    n.system.kernel.vfs=m.system.kernel.vfs→n.live=m.live→Change L fuel e m n

/-- Saving nothing changes nothing. -/
theorem setProcs_self (k : SyscallModel.Kernel F) : k.setProcs k.procs=k := by
  obtain ⟨heap,vfs,procs,ticks,frequency,output,shared⟩ := k
  unfold SyscallModel.Kernel.setProcs
  dsimp only at shared⊢
  congr 1
  rw [shared]

/-- Without a switch there is nothing to save. -/
theorem switchTo_none (s : System F) (esp : Word) : switchTo s esp (s.kernel.procs,none)=s := by
  have hself : ∀ s : System F,s.setProcs s.kernel.procs=s := by
    intro s
    unfold System.setProcs
    rw [setProcs_self]
  exact hself s

/-- Releasing takes a pointer back exactly when it is tracked. -/
theorem perform_kfree {fuel : ℕ} {s heap : Heap} {live : List Word} {bs : List BlockList.Block}
    (h : HeapInv ⟨s,live⟩ bs) {p : Word} {code : ℤ} (hk : kfree fuel s p=some (heap,code)) :
    perform fuel ⟨s,live⟩ (.kfree p)=
      some ⟨heap,if trackValidate s.tracked p=true then live.erase p else live⟩ := by
  have hcode : (code=1)=(trackValidate s.tracked p=true) := by
    have hlarge := kfree_mono (Nat.le_max_left fuel (2^32)) hk
    by_cases htracked : p∈trackedPtrs s.tracked
    · obtain ⟨t,_,hrun,_⟩ := kfree_tracked h htracked (Nat.le_max_right fuel (2^32))
      rw [hrun] at hlarge
      cases hlarge
      exact propext ⟨fun _ => (trackValidate_iff _ _).mpr htracked,fun _ => rfl⟩
    · rw [kfree_untracked htracked] at hlarge
      cases hlarge
      exact propext ⟨fun hc => absurd hc (by decide),
        fun hv => absurd ((trackValidate_iff _ _).mp hv) htracked⟩
  simp only [perform,hk,Option.map_some,hcode]

/-- What an event does to the kernel. -/
structure StepEffect (L : Layout) (fuel : ℕ) (e : Event F) (m n : Machine F) : Prop where
  /-- Allocator, process table and file system. -/
  change : Change L fuel e m n
  /-- The terminal. -/
  terminal : Writes m.system.keyboard.terminal n.system.keyboard.terminal
  /-- The interrupt controller. -/
  pic : m.system.pic.service=0→n.system.pic=m.system.pic

variable {L : Layout} {fuel : ℕ} {e : Event F} {m n : Machine F}

/-- A fault. -/
theorem fault_effect {sc : Scratch} {f : InterruptFrame} {esp : Word} {live : List Word}
    {d : Dispatched F} (hd : dispatchFault sc m.system f=some d) (hlive : live=m.live) :
    StepEffect L fuel e m ⟨switchTo d.system esp (d.system.kernel.procs,d.switch),live⟩ := by
  subst hlive
  unfold dispatchFault at hd
  split_ifs at hd
  · obtain ⟨t,ht,rfl⟩ := Option.map_eq_some_iff.mp hd
    exact ⟨.proc (.exit (-1) esp) (Or.inl trivial) rfl rfl rfl rfl,writes_reportFault ht,fun _ => rfl⟩
  · obtain ⟨t,ht,rfl⟩ := Option.map_eq_some_iff.mp hd
    rw [switchTo_none]
    exact ⟨.still rfl rfl rfl rfl,writes_reportPanic ht,fun _ => rfl⟩

/-- A tick. -/
theorem tick_effect {f : InterruptFrame} {esp : Word} {live : List Word} {r : System F×Option Switch}
    (hr : timerTick {m.system with pic := m.system.pic.acknowledge 0} f=r) (hlive : live=m.live) :
    StepEffect L fuel e m ⟨switchTo r.1 esp (r.1.kernel.procs,r.2),live⟩ := by
  subst hlive hr
  unfold timerTick
  dsimp only
  split_ifs
  · exact ⟨.proc (.yield esp) (Or.inl trivial) rfl rfl rfl rfl,Writes.refl _,
      fun hs => Controller.acknowledge_endOfInterrupt hs 0⟩
  · rw [switchTo_none]
    exact ⟨.still rfl rfl rfl rfl,Writes.refl _,fun hs => Controller.acknowledge_endOfInterrupt hs 0⟩

/-- SYS_MALLOC hands out what it answers with. -/
theorem liveAfter_malloc {f : InterruptFrame} (hn : f.intNo=0x80)
    (hnumber : f.regs.eax=Syscall.sysMalloc.number) (eax : Word) :
    liveAfter m f eax=if eax=0 then m.live else eax::m.live := by
  have hfree : f.regs.eax≠Syscall.sysFree.number := by
    rw [hnumber]
    decide
  unfold liveAfter
  rw [if_pos hn,if_neg (c := f.regs.eax=Syscall.sysFree.number ∧ _) fun hc => hfree hc.1]
  by_cases hz : eax=0
  · rw [if_neg fun hc => hc.2 hz,if_pos hz]
  · rw [if_pos ⟨hnumber,hz⟩,if_neg hz]

/-- SYS_FREE takes back what is tracked. -/
theorem liveAfter_free {f : InterruptFrame} (hn : f.intNo=0x80)
    (hnumber : f.regs.eax=Syscall.sysFree.number) (hptr : ptrAccepted f.regs=true) (eax : Word) :
    liveAfter m f eax=if trackValidate m.system.kernel.heap.tracked f.regs.ebx=true then
      m.live.erase f.regs.ebx else m.live := by
  have hmalloc : f.regs.eax≠Syscall.sysMalloc.number := by
    rw [hnumber]
    decide
  unfold liveAfter
  rw [if_pos hn,if_neg (c := f.regs.eax=Syscall.sysMalloc.number ∧ _) fun hc => hmalloc hc.1]
  by_cases hv : trackValidate m.system.kernel.heap.tracked f.regs.ebx=true
  · rw [if_pos ⟨hnumber,hptr,hv⟩,if_pos hv]
  · rw [if_neg fun hc => hv hc.2.2,if_neg hv]

/-- A system call. -/
theorem syscall_effect {bs : List BlockList.Block} (h : HeapInv ⟨m.system.kernel.heap,m.live⟩ bs)
    {resume : ℕ→SyscallModel.Kernel F→SyscallModel.Kernel F} {f : InterruptFrame} {esp : Word}
    {d : Dispatched F} (hn : f.intNo=0x80) (hs : ¬Sleeps f)
    (hd : dispatchSyscall resume fuel m.system f=some d) :
    StepEffect L fuel e m
      ⟨switchTo d.system esp (d.system.kernel.procs,d.switch),liveAfter m f d.regs.eax⟩ := by
  obtain ⟨o,ho,rfl⟩ := Option.map_eq_some_iff.mp hd
  have heffect := syscallHandle_effect ho fun hsleep => hs ⟨hn,hsleep⟩
  have hquiet : ∀ eax,Quiet f.regs eax→liveAfter m f eax=m.live := by
    intro eax hq
    unfold liveAfter
    rw [if_pos hn,if_neg hq.1,if_neg fun hc => hq.2 ⟨hc.1,hc.2.1⟩]
  have habsorb : ∀ k : SyscallModel.Kernel F,
      Writes m.system.keyboard.terminal (m.system.absorb k).keyboard.terminal :=
    fun k => writes_putchars _ _
  cases heffect with
  | answer eax shown hq =>
    rw [switchTo_none]
    exact ⟨.still rfl rfl rfl (hquiet _ hq),habsorb _,fun _ => rfl⟩
  | exit hq => exact ⟨.proc (.exit f.regs.ebx esp) (Or.inl trivial) rfl rfl rfl (hquiet _ hq),habsorb _,fun _ => rfl⟩
  | yield hq => exact ⟨.proc (.yield esp) (Or.inl trivial) rfl rfl rfl (hquiet _ hq),habsorb _,fun _ => rfl⟩
  | malloc hk hnumber =>
    rw [switchTo_none]
    refine ⟨.heap (.kmalloc f.regs.ebx) (Or.inl trivial) ?_ rfl rfl,habsorb _,fun _ => rfl⟩
    rw [liveAfter_malloc hn hnumber]
    exact Option.map_eq_some_iff.mpr ⟨_,hk,rfl⟩
  | free hk hnumber hptr =>
    rw [switchTo_none]
    rw [liveAfter_free hn hnumber hptr]
    exact ⟨.heap (.kfree f.regs.ebx) (Or.inl trivial) (perform_kfree h hk) rfl rfl,habsorb _,fun _ => rfl⟩
  | mkdir path hq =>
    rw [switchTo_none]
    exact ⟨.file (.call (.mkdir (some path))) rfl rfl rfl (hquiet _ hq),habsorb _,fun _ => rfl⟩

/-- An interrupt. -/
theorem interrupt_effect {bs : List BlockList.Block} (h : HeapInv ⟨m.system.kernel.heap,m.live⟩ bs)
    {resume : ℕ→SyscallModel.Kernel F→SyscallModel.Kernel F} {sc : Scratch} {scancode : Byte}
    {f : InterruptFrame} {esp : Word} {d : Dispatched F} (hs : ¬Sleeps f)
    (hd : interruptDispatch resume fuel sc (raise m.system f.intNo) scancode f=some d) :
    StepEffect L fuel e m
      ⟨switchTo d.system esp (d.system.kernel.procs,d.switch),liveAfter m f d.regs.eax⟩ := by
  have hother : ∀ n : Word,n≠32→ n≠33→ raise m.system n=m.system := by
    intro n ht hk
    unfold raise
    rw [if_neg ht,if_neg hk]
  have hlive : f.intNo≠0x80→liveAfter m f d.regs.eax=m.live := fun hn => if_neg hn
  unfold interruptDispatch at hd
  by_cases hfault : f.intNo=0 ∨ f.intNo=6 ∨ f.intNo=13 ∨ f.intNo=14
  · have hne : f.intNo≠32 ∧ f.intNo≠33 ∧ f.intNo≠0x80 := by
      rcases hfault with he|he|he|he <;> rw [he] <;> decide
    rw [if_pos hfault,hother _ hne.1 hne.2.1] at hd
    exact fault_effect hd (hlive hne.2.2)
  rw [if_neg hfault] at hd
  by_cases htimer : f.intNo=32
  · rw [if_pos htimer,htimer] at hd
    cases hd
    exact tick_effect rfl (hlive (by rw [htimer]; decide))
  rw [if_neg htimer] at hd
  by_cases hkey : f.intNo=33
  · rw [if_pos hkey,hkey] at hd
    cases hd
    rw [switchTo_none]
    exact ⟨.still rfl rfl rfl (hlive (by rw [hkey]; decide)),writes_keyboardIrq _ _,
      fun hservice => Controller.acknowledge_endOfInterrupt hservice 1⟩
  rw [if_neg hkey,hother _ htimer hkey] at hd
  by_cases hcall : f.intNo=0x80
  · rw [if_pos hcall] at hd
    exact syscall_effect h hcall hs hd
  · rw [if_neg hcall] at hd
    cases hd
    rw [switchTo_none]
    exact ⟨.still rfl rfl rfl (hlive hcall),Writes.refl _,fun _ => rfl⟩

/-- Any event. -/
theorem step_effect {bs : List BlockList.Block} (h : HeapInv ⟨m.system.kernel.heap,m.live⟩ bs)
    (hstep : step L fuel m e=some n) : StepEffect L fuel e m n := by
  unfold step at hstep
  split_ifs at hstep
  cases e with
  | interrupt sc scancode f esp =>
    dsimp only at hstep
    split_ifs at hstep with hs
    obtain ⟨d,hd,rfl⟩ := Option.map_eq_some_iff.mp hstep
    exact interrupt_effect h hs hd
  | sleepTurn target esp =>
    dsimp only at hstep
    split_ifs at hstep
    · cases hstep
      exact ⟨.proc (.yield esp) (Or.inl trivial) rfl rfl rfl rfl,Writes.refl _,fun _ => rfl⟩
    · cases hstep
      exact ⟨.still rfl rfl rfl rfl,Writes.refl _,fun _ => rfl⟩
  | proc op =>
    obtain ⟨procs,hp,rfl⟩ := Option.map_eq_some_iff.mp hstep
    exact ⟨.proc op (Or.inr rfl) hp rfl rfl rfl,Writes.refl _,fun _ => rfl⟩
  | heap c =>
    obtain ⟨st,hst,rfl⟩ := Option.map_eq_some_iff.mp hstep
    exact ⟨.heap c (Or.inr rfl) hst rfl rfl,Writes.refl _,fun _ => rfl⟩
  | file o =>
    cases hstep
    exact ⟨.file o rfl rfl rfl rfl,Writes.refl _,fun _ => rfl⟩
  | tty op =>
    cases hstep
    exact ⟨.still rfl rfl rfl rfl,writes_op _ op,fun _ => rfl⟩
  | stackStore off b =>
    dsimp only at hstep
    split at hstep
    · cases hstep
    · rename_i k hk
      split_ifs at hstep with hoff
      cases hstep
      exact ⟨.store _ b (Or.inr ⟨k,off,hk,hoff.1,hoff.2,rfl⟩) rfl rfl rfl rfl,Writes.refl _,fun _ => rfl⟩
  | store x b =>
    dsimp only at hstep
    split_ifs at hstep with howned
    cases hstep
    exact ⟨.store x b (Or.inl howned) rfl rfl rfl rfl,Writes.refl _,fun _ => rfl⟩

end EronKernel.SystemSteps

import EronKernel.SyscallModel

/-!
# What a system call can do

One inversion of syscall_handle for all its cases but SYS_SLEEP: most calls
answer and change nothing, and each of the others is one operation of one part
of the kernel. What holds of those operations holds of every call.
-/

namespace EronKernel.SyscallEffects

open ByteMemory CString HeapModel VfsModel ProcModel SyscallModel

variable {F : Type}

/-- A call that answers with this value neither hands out a pointer nor takes
one back. -/
def Quiet (tf : Trapframe) (eax : Word) : Prop :=
  ¬(tf.eax=Syscall.sysMalloc.number ∧ eax≠0) ∧ ¬(tf.eax=Syscall.sysFree.number ∧ ptrAccepted tf=true)

/-- Only the allocator's two calls are not quiet. -/
theorem quiet_of_number {tf : Trapframe} {c : Syscall} (hn : tf.eax=c.number) (hm : c≠.sysMalloc)
    (hf : c≠.sysFree) (eax : Word) : Quiet tf eax := by
  have hdistinct : ∀ d : Syscall,(d≠.sysMalloc→d.number≠Syscall.sysMalloc.number) ∧
      (d≠.sysFree→d.number≠Syscall.sysFree.number) := by
    intro d
    cases d <;> decide
  constructor
  · intro ha
    exact (hdistinct c).1 hm (hn.symm.trans ha.1)
  · intro ha
    exact (hdistinct c).2 hf (hn.symm.trans ha.1)

/-- A number without a case is quiet. -/
theorem quiet_of_none {tf : Trapframe} (hn : Syscall.ofNumber tf.eax=none) (eax : Word) : Quiet tf eax := by
  constructor
  · intro ha
    rw [ha.1] at hn
    exact absurd hn (by decide)
  · intro ha
    rw [ha.1] at hn
    exact absurd hn (by decide)

/-- What a system call other than SYS_SLEEP does to the kernel. -/
inductive SyscallEffect (fuel : ℕ) (k : Kernel F) (tf : Trapframe) :
    Outcome F→Prop where
  /-- It answers, perhaps after writing to the terminal. -/
  | answer (eax : Word) (shown : List Byte) : Quiet tf eax→
    SyscallEffect fuel k tf ⟨{k with output := k.output++shown},{tf with eax := eax},none⟩
  /-- SYS_EXIT. -/
  | exit : Quiet tf tf.eax→SyscallEffect fuel k tf
      ⟨k.setProcs (procExit k.procs tf.ebx).1,tf,(procExit k.procs tf.ebx).2⟩
  /-- SYS_YIELD. -/
  | yield : Quiet tf 0→SyscallEffect fuel k tf
      ⟨k.setProcs (procYield k.procs).1,{tf with eax := 0},(procYield k.procs).2⟩
  /-- SYS_MALLOC of a small size. -/
  | malloc {heap : Heap} {ptr : Word} : kmalloc fuel k.heap tf.ebx=some (heap,ptr)→
    tf.eax=Syscall.sysMalloc.number→SyscallEffect fuel k tf ⟨k.setHeap heap,{tf with eax := ptr},none⟩
  /-- SYS_FREE of a pointer into user space. -/
  | free {heap : Heap} {code : ℤ} : kfree fuel k.heap tf.ebx=some (heap,code)→
    tf.eax=Syscall.sysFree.number→ptrAccepted tf=true→
      SyscallEffect fuel k tf ⟨k.setHeap heap,{tf with eax := 0},none⟩
  /-- SYS_MKDIR of a path in user space. -/
  | mkdir (path : CStr) : Quiet tf (BitVec.ofInt 32 (vfsMkdir k.vfs (some path)).2)→
    SyscallEffect fuel k tf ⟨{k with vfs := (vfsMkdir k.vfs (some path)).1},
      {tf with eax := BitVec.ofInt 32 (vfsMkdir k.vfs (some path)).2},none⟩

/-- A reply is an answer without text. -/
theorem effect_reply {fuel : ℕ} {k : Kernel F} {tf : Trapframe} {eax : Word}
    {o : Outcome F} (h : reply tf k eax=some o) (hq : Quiet tf eax) : SyscallEffect fuel k tf o := by
  cases h
  have hanswer : SyscallEffect fuel k tf _ := .answer eax [] hq
  rw [List.append_nil] at hanswer
  exact hanswer

/-- SYS_WRITE shows the string or nothing. -/
theorem effect_write {fuel : ℕ} {k : Kernel F} {tf : Trapframe}
    {r : Kernel F×Word} {o : Outcome F} (hr : doWrite k tf.ebx tf.ecx tf.edx=some r)
    (h : reply tf r.1 r.2=some o) (hq : ∀ eax,Quiet tf eax) : SyscallEffect fuel k tf o := by
  unfold doWrite terminalWritestring at hr
  split_ifs at hr
  · obtain ⟨l,hl,rfl⟩ := Option.map_eq_some_iff.mp hr
    obtain ⟨s,_,rfl⟩ := Option.map_eq_some_iff.mp hl
    cases h
    exact .answer tf.edx s.bytes (hq _)
  · cases hr
    exact effect_reply h (hq _)
  · cases hr
    exact effect_reply h (hq _)

/-- SYS_MALLOC asks the allocator or answers with nothing. -/
theorem effect_malloc {fuel : ℕ} {k : Kernel F} {tf : Trapframe} {o : Outcome F}
    (hn : tf.eax=Syscall.sysMalloc.number)
    (h : (if tf.ebx<0x100000 then
        (kmalloc fuel k.heap tf.ebx).bind fun r => reply tf (k.setHeap r.1) r.2
      else reply tf k 0)=some o) : SyscallEffect fuel k tf o := by
  split_ifs at h
  · obtain ⟨r,hr,hreply⟩ := Option.bind_eq_some_iff.mp h
    cases hreply
    exact .malloc hr hn
  · refine effect_reply h ⟨fun ha => ha.2 rfl,fun ha => ?_⟩
    rw [hn] at ha
    exact absurd ha.1 (by decide)

/-- SYS_FREE gives the pointer to the allocator or answers with nothing. -/
theorem effect_free {fuel : ℕ} {k : Kernel F} {tf : Trapframe} {o : Outcome F} {refused : Word}
    (hn : tf.eax=Syscall.sysFree.number)
    (h : (if ptrAccepted tf=true then
        (kfree fuel k.heap tf.ebx).bind fun r => reply tf (k.setHeap r.1) 0
      else reply tf k refused)=some o) : SyscallEffect fuel k tf o := by
  split_ifs at h with hptr
  · obtain ⟨r,hr,hreply⟩ := Option.bind_eq_some_iff.mp h
    cases hreply
    exact .free hr hn hptr
  · refine effect_reply h ⟨fun ha => ?_,fun ha => hptr ha.2⟩
    rw [hn] at ha
    exact absurd ha.1 (by decide)

/-- Every system call but SYS_SLEEP has one of the effects. -/
theorem syscallHandle_effect {resume : ℕ→Kernel F→Kernel F} {fuel : ℕ}
    {k : Kernel F} {tf : Trapframe} {o : Outcome F}
    (h : syscallHandle resume fuel k tf=some o) (hs : Syscall.ofNumber tf.eax≠some .sysSleep) :
    SyscallEffect fuel k tf o := by
  unfold syscallHandle at h
  cases hc : Syscall.ofNumber tf.eax with
  | none =>
    rw [hc] at h
    exact effect_reply h (quiet_of_none hc _)
  | some c =>
    have hfound := List.find?_some (p := fun d : Syscall => d.number==tf.eax) (l := Syscall.all) hc
    have hnumber : tf.eax=c.number := (beq_iff_eq.mp hfound).symm
    have hquiet := fun hm hf eax => quiet_of_number hnumber hm hf eax
    rw [hc] at h
    cases c
    case sysSleep => exact absurd hc hs
    case sysWrite =>
      obtain ⟨r,hr,hreply⟩ := Option.bind_eq_some_iff.mp h
      exact effect_write hr hreply (hquiet nofun nofun)
    case sysExit =>
      cases h
      exact .exit (hquiet nofun nofun _)
    case sysYield =>
      cases h
      exact .yield (hquiet nofun nofun _)
    case sysMalloc => exact effect_malloc hnumber h
    case sysFree => exact effect_free hnumber h
    case sysOpen =>
      dsimp only at h
      split_ifs at h
      · obtain ⟨path,_,hreply⟩ := Option.bind_eq_some_iff.mp h
        split at hreply
        · exact effect_reply hreply (hquiet nofun nofun _)
        · exact effect_reply hreply (hquiet nofun nofun _)
      · exact effect_reply h (hquiet nofun nofun _)
    case sysMkdir =>
      dsimp only at h
      split_ifs at h
      · obtain ⟨path,_,hreply⟩ := Option.bind_eq_some_iff.mp h
        cases hreply
        exact .mkdir path (hquiet nofun nofun _)
      · exact effect_reply h (hquiet nofun nofun _)
    all_goals exact effect_reply h (hquiet nofun nofun _)

end EronKernel.SyscallEffects

import EronKernel.HeapBorrowing
import EronKernel.ShellSessions

/-!
# The memory test of the shell

prog_malloc_test asks for three blocks and releases them. While the tracker has
room for them the chain of blocks is afterwards the one from before, whether the
requests were granted or not.
-/

namespace EronKernel.ShellMemtest

open ByteMemory CString HeapModel HeapLayout HeapOps HeapRuns HeapBorrowing TtyModel ShellModel ShellListing
  TaskModel TaskRegistry SystemModel SystemInvariant ShellReports ShellMachine ShellEffects ShellSessions

variable {L : Layout} {fuel : ℕ} {bs : List BlockList.Block} {ps : List Word} {s t : Shell}

/-- The allocator with the pointers that its clients hold. -/
def heapOf (s : Shell) : Session := ⟨s.heap,s.machine.live⟩

/-- The shell holds pointers that it did not hold before. -/
def Lent (s t : Shell) (bs : List BlockList.Block) (ps : List Word) : Prop := Borrowed (heapOf s) (heapOf t) bs ps

/-- Writing to the terminal changes nothing about that. -/
theorem Lent.write (h : Lent s t bs ps) (ops : List TtyOp) : Lent s (t.write ops) bs ps := h

/-- A request. -/
theorem Lent.kmalloc (h : Lent s t bs ps) (hroom : ps.length+(trackedPtrs s.heap.tracked).length<256)
    (size : Word) (hf : 2^32≤fuel) :
    ∃ u p,t.kmalloc fuel size=some (u,p) ∧ Lent s u bs (borrow ps p) := by
  obtain ⟨heap,p,hrun,hlent⟩ := Borrowed.kmalloc h hroom size hf
  refine ⟨t.setHeap heap (if p=0 then t.machine.live else p::t.machine.live),p,?_,hlent⟩
  exact Option.map_eq_some_iff.mpr ⟨(heap,p),hrun,rfl⟩

/-- A release. -/
theorem Lent.kfree (h : Lent s t bs ps) (hs : HeapInv (heapOf s) bs) {p : Word} (hp : p=0 ∨ p∈ps)
    (hf : 2^32≤fuel) : ∃ u,t.kfree fuel p=some u ∧ Lent s u bs (ps.erase p) := by
  obtain ⟨heap,code,hrun,hlent⟩ := Borrowed.kfree h hs hp hf
  refine ⟨t.setHeap heap (if code=1 then t.machine.live.erase p else t.machine.live),?_,hlent⟩
  exact Option.map_eq_some_iff.mpr ⟨(heap,code),hrun,rfl⟩

/-- The usage lines. -/
theorem Lent.writeUsage (h : Lent s t bs ps) (label : String) (hf : 2^32≤fuel) :
    ∃ u,t.writeUsage fuel label=some u ∧ Lent s u bs ps := by
  obtain ⟨cs,hinv,_⟩ := h.inv
  have hlength := hinv.represents.length_le.trans hf
  have hused : mmUsed fuel t.heap=_ := mmUsed_eq hinv.represents hlength
  have hfree : mmFree fuel t.heap=_ := mmFree_eq hinv.represents hlength
  have hcall : t.writeUsage fuel label=some (t.write [str label,
      num (BitVec.ofNat 32 (BlockList.payload true cs)),str " free=",
      num (BitVec.ofNat 32 (BlockList.payload false cs)),str "\n"]) := by
    unfold Shell.writeUsage
    rw [hused,hfree]
    rfl
  exact ⟨_,hcall,h.write _⟩

/-- A request borrows at most one pointer. -/
theorem length_borrow (ps : List Word) (p : Word) : (borrow ps p).length≤ps.length+1 := by
  unfold borrow
  split_ifs
  · exact Nat.le_succ _
  · exact le_refl _

/-- prog_malloc_test holds nothing when it is done. -/
theorem mallocTest_lent (hs : HeapInv (heapOf s) bs) (hroom : (trackedPtrs s.heap.tracked).length+3≤256)
    (hf : 2^32≤fuel) : ∃ t,s.mallocTest fuel=some t ∧ Lent s t bs [] := by
  have h : Lent s s bs [] := .refl hs
  obtain ⟨s₀,hbefore,h₀⟩ := (h.write _).writeUsage " Before: used=" hf
  obtain ⟨s₁,p₁,hs₁,h₁⟩ := h₀.kmalloc (by rw [List.length_nil]; omega) 64 hf
  have hone := length_borrow [] p₁
  rw [List.length_nil] at hone
  obtain ⟨s₂,p₂,hs₂,h₂⟩ := h₁.kmalloc (by omega) 128 hf
  have htwo := length_borrow (borrow [] p₁) p₂
  obtain ⟨s₃,p₃,hs₃,h₃⟩ := h₂.kmalloc (by omega) 256 hf
  obtain ⟨hnone,hp₁,hp₂,hp₃⟩ := erase_borrowed p₁ p₂ p₃
  obtain ⟨s₄,hafter,h₄⟩ := (h₃.write [str " Allocated 64+128+256 bytes\n"]).writeUsage " After:  used=" hf
  obtain ⟨s₅,hs₅,h₅⟩ := h₄.kfree hs hp₁ hf
  obtain ⟨s₆,hs₆,h₆⟩ := h₅.kfree hs hp₂ hf
  obtain ⟨s₇,hs₇,h₇⟩ := h₆.kfree hs hp₃ hf
  rw [hnone] at h₇
  refine ⟨s₇.write [str " Freed all blocks"],Option.bind_eq_some_iff.mpr ⟨s₀,hbefore,?_⟩,h₇.write _⟩
  refine Option.bind_eq_some_iff.mpr ⟨(s₁,p₁),hs₁,Option.bind_eq_some_iff.mpr ⟨(s₂,p₂),hs₂,?_⟩⟩
  refine Option.bind_eq_some_iff.mpr ⟨(s₃,p₃),hs₃,Option.bind_eq_some_iff.mpr ⟨s₄,hafter,?_⟩⟩
  refine Option.bind_eq_some_iff.mpr ⟨s₅,hs₅,Option.bind_eq_some_iff.mpr ⟨s₆,hs₆,?_⟩⟩
  exact Option.bind_eq_some_iff.mpr ⟨s₇,hs₇,rfl⟩

/-- A line that runs the memory test. -/
theorem executeCommand_memtest {X : ExecLayout L} {table : Programs ShellProgram}
    (htable : s.programs=shellPrograms table) {inp : Input} {cmd : CStr} {args : List CStr}
    (hcmd : parseArgs cmd.bytes 16=.lit "memtest"::args) {u : Shell}
    (h : s.executeCommand fuel X inp cmd=some u) :
    ∃ t,(s.write [color vgaColorLightGrey]).mallocTest fuel=some t ∧ heapOf u=heapOf t := by
  have hmem : (⟨.lit "memtest",.lit "test heap allocator",.mallocTest⟩ : Registration ShellProgram)∈
      shellRegisterPrograms := by simp [shellRegisterPrograms]
  have hkept : ¬(ShellProgram.mallocTest=.reboot ∨ ShellProgram.mallocTest=.halt) := by decide
  obtain ⟨t,hcall,rfl⟩ := executeCommand_listed htable hmem hkept hcmd h
  obtain ⟨v,_,htest⟩ := Option.bind_eq_some_iff.mp hcall
  obtain ⟨ops,hops⟩ := returned_eq t (.lit "memtest"::args)
  refine ⟨t,htest,?_⟩
  rw [hops]
  rfl

/-- In every state that a session from boot reaches in which no line is executed
and nothing has panicked, and in which the tracker has room for three pointers,
the memory test comes to its end and leaves the heap as it was: the same chain
of blocks, the same live pointers with the same contents, and the same pointers
tracked. -/
theorem memtest_restores_heap {X : ExecLayout L} {es : List ShellEvent} {boot s : Shell} (hf : 2^32≤fuel)
    (hboot : ShellBoot L boot) (h : Session fuel X boot es s) (hidle : s.mode=.idle)
    (hrun : s.machine.system.halted=false) (hroom : (trackedPtrs s.heap.tracked).length+3≤256) (inp : Input)
    {cmd : CStr} {args : List CStr} (hcmd : parseArgs cmd.bytes 16=.lit "memtest"::args) :
    ∃ t bs,s.step fuel X (.line inp cmd)=some t ∧ HeapInv (heapOf s) bs ∧ HeapInv (heapOf t) bs ∧
      t.machine.live.Perm s.machine.live ∧
      (trackedPtrs t.heap.tracked).Perm (trackedPtrs s.heap.tracked) ∧ KeepsPayloads bs s.heap t.heap := by
  obtain ⟨hinv,_⟩ := session_inv h (shellBoot_inv hboot)
  obtain ⟨t,hstep⟩ := hinv.line_returns hf X hidle hrun inp cmd
  obtain ⟨table,htable⟩ := hinv.programs
  obtain ⟨bs,hs⟩ := hinv.kernel.heap
  have hline := hstep
  simp only [Shell.step] at hline
  split_ifs at hline
  obtain ⟨u,htest,hsame⟩ := executeCommand_memtest htable hcmd hline
  obtain ⟨u',htest',hlent⟩ := mallocTest_lent (s := s.write [color vgaColorLightGrey]) hs hroom hf
  rw [htest] at htest'
  cases htest'
  have hreturned : Borrowed (heapOf s) (heapOf t) bs [] := by
    rw [hsame]
    exact hlent
  exact ⟨t,bs,hstep,hs,hreturned.returned hs,hreturned.live,hreturned.tracked,hreturned.keeps⟩

/-- A program asks for 64 bytes. -/
def sampleRequest : ShellEvent :=
  .outside (.interrupt ⟨fun _ => 0,fun _ => 0,fun _ => 0⟩ 0 ⟨0x80,0,0x08000000,0x1B,⟨5,64,0,0⟩⟩ 0x7FF0)

/-- What the request leaves of interest to the test. -/
def sampleView (s : Shell) : Mode×Bool×List Word×List Word :=
  (s.mode,s.machine.system.halted,s.machine.live,trackedPtrs s.heap.tracked)

/-- It is granted. -/
theorem sampleRequest_granted : (sampleShell.step (2^32) sampleExec sampleRequest).map sampleView=
    some (.idle,false,[0x40000C],[0x40000C]) := by
  decide +kernel

/-- The test leaves the block that the program holds, and everything around it. -/
theorem memtest_restores_sample :
    ∃ s t bs,sampleShell.step (2^32) sampleExec sampleRequest=some s ∧ s.machine.live=[0x40000C] ∧
      s.step (2^32) sampleExec (.line sampleInput (.lit "memtest"))=some t ∧
      HeapInv (heapOf s) bs ∧ HeapInv (heapOf t) bs ∧ t.machine.live.Perm [0x40000C] ∧
      (trackedPtrs t.heap.tracked).Perm [0x40000C] ∧ KeepsPayloads bs s.heap t.heap := by
  obtain ⟨s,hs,hview⟩ := Option.map_eq_some_iff.mp sampleRequest_granted
  simp only [sampleView,Prod.mk.injEq] at hview
  obtain ⟨hidle,hrun,hlive,htracked⟩ := hview
  obtain ⟨t,bs,hstep,hbefore,hafter,hlive',htracked',hkeeps⟩ := memtest_restores_heap (Nat.le_refl _)
    sampleShell_boot (.step sampleRequest .refl hs) hidle hrun (by rw [htracked]; decide) sampleInput
    (by decide +kernel : parseArgs (CStr.lit "memtest").bytes 16=.lit "memtest"::[])
  rw [hlive] at hlive'
  rw [htracked] at htracked'
  exact ⟨s,t,bs,hs,hlive,hstep,hbefore,hafter,hlive',htracked',hkeeps⟩

end EronKernel.ShellMemtest

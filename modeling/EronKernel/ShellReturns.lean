import EronKernel.HeapRelease
import EronKernel.ShellEffects

/-!
# Programs of the shell come to their end

While the kernel's invariant holds, no walk over the blocks of the heap goes on
for ever, and everything else that a program of the shell does is bounded by
what it reads. So with fuel for a walk over any heap every program returns.
-/

namespace EronKernel.ShellReturns

open ByteMemory CString HeapModel HeapOps HeapRuns TtyModel VfsModel ProcFiles ShellListing ExecRefusal TaskModel
  SystemModel SystemInvariant ShellReports ShellMachine ShellEffects

variable {L : Layout} {fuel : ℕ}

/-- The kernel while it has not panicked. -/
structure Live (L : Layout) (s : Shell) : Prop where
  /-- The kernel's invariant. -/
  kernel : SystemInv L s.machine
  /-- The machine runs. -/
  running : s.machine.system.halted=false

/-- What every command does leaves the kernel running. -/
theorem Live.keeps {s t : Shell} (h : Live L s) (k : Keeps L fuel s t) : Live L t :=
  ⟨h.kernel.reaches (k.reaches h.running),k.halted.trans h.running⟩

/-- So do calls of the terminal. -/
theorem Live.write {s : Shell} (h : Live L s) (ops : List TtyOp) : Live L (s.write ops) := by
  have hacts : Acts L 0 s (s.write ops) := acts_write s ops
  exact h.keeps hacts.toKeeps

/-- mm_used and mm_free come to their end. -/
theorem Live.usage {s : Shell} (h : Live L s) (hf : 2^32≤fuel) :
    ∃ used free,mmUsed fuel s.heap=some used ∧ mmFree fuel s.heap=some free := by
  obtain ⟨bs,hbs⟩ := h.kernel.heap
  have hlength := hbs.represents.length_le.trans hf
  exact ⟨_,_,mmUsed_eq hbs.represents hlength,mmFree_eq hbs.represents hlength⟩

/-- kmalloc comes to its end. -/
theorem Live.kmalloc {s : Shell} (h : Live L s) (hf : 2^32≤fuel) (size : Word) :
    ∃ t p,s.kmalloc fuel size=some (t,p) ∧ Live L t := by
  obtain ⟨bs,hbs⟩ := h.kernel.heap
  obtain ⟨next,_,hperform,_⟩ := perform_step hbs (.kmalloc size) trivial hf
  obtain ⟨r,hrun,_⟩ := Option.map_eq_some_iff.mp hperform
  have hcall : s.kmalloc fuel size=some (s.setHeap r.1 (if r.2=0 then s.machine.live else
      r.2::s.machine.live),r.2) := Option.map_eq_some_iff.mpr ⟨r,hrun,rfl⟩
  exact ⟨_,_,hcall,h.keeps (acts_kmalloc hcall).toKeeps⟩

/-- kfree comes to its end. -/
theorem Live.kfree {s : Shell} (h : Live L s) (hf : 2^32≤fuel) (p : Word) :
    ∃ t,s.kfree fuel p=some t ∧ Live L t := by
  obtain ⟨bs,hbs⟩ := h.kernel.heap
  have hreturns : ∃ r,HeapModel.kfree fuel s.heap p=some r := by
    by_cases hp : p∈trackedPtrs s.heap.tracked
    · obtain ⟨t,_,_,_,hrun,_⟩ := HeapRelease.kfree_releasesBlock hbs hp hf
      exact ⟨_,hrun⟩
    · exact ⟨_,kfree_untracked hp fuel⟩
  obtain ⟨r,hrun⟩ := hreturns
  have hcall : s.kfree fuel p=some (s.setHeap r.1 (if r.2=1 then s.machine.live.erase p else
      s.machine.live)) := Option.map_eq_some_iff.mpr ⟨r,hrun,rfl⟩
  exact ⟨_,hcall,h.keeps (acts_kfree hcall).toKeeps⟩

/-- The usage lines come to their end. -/
theorem Live.writeUsage {s : Shell} (h : Live L s) (hf : 2^32≤fuel) (label : String) :
    ∃ t,s.writeUsage fuel label=some t ∧ Live L t := by
  obtain ⟨used,free,hused,hfree⟩ := h.usage hf
  have hcall : s.writeUsage fuel label=some (s.write [str label,num used,str " free=",num free,str "\n"]) := by
    unfold Shell.writeUsage
    rw [hused,hfree]
    rfl
  exact ⟨_,hcall,h.keeps (acts_writeUsage hcall).toKeeps⟩

/-- prog_malloc_test comes to its end. -/
theorem Live.mallocTest {s : Shell} (h : Live L s) (hf : 2^32≤fuel) : ∃ t,s.mallocTest fuel=some t := by
  obtain ⟨s₀,hbefore,h₀⟩ := (h.write _).writeUsage hf " Before: used="
  obtain ⟨s₁,p₁,hs₁,h₁⟩ := h₀.kmalloc hf 64
  obtain ⟨s₂,p₂,hs₂,h₂⟩ := h₁.kmalloc hf 128
  obtain ⟨s₃,p₃,hs₃,h₃⟩ := h₂.kmalloc hf 256
  obtain ⟨s₄,hafter,h₄⟩ := (h₃.write [str " Allocated 64+128+256 bytes\n"]).writeUsage hf " After:  used="
  obtain ⟨s₅,hs₅,h₅⟩ := h₄.kfree hf p₁
  obtain ⟨s₆,hs₆,h₆⟩ := h₅.kfree hf p₂
  obtain ⟨s₇,hs₇,_⟩ := h₆.kfree hf p₃
  refine ⟨s₇.write [str " Freed all blocks"],Option.bind_eq_some_iff.mpr ⟨s₀,hbefore,?_⟩⟩
  refine Option.bind_eq_some_iff.mpr ⟨(s₁,p₁),hs₁,Option.bind_eq_some_iff.mpr ⟨(s₂,p₂),hs₂,?_⟩⟩
  refine Option.bind_eq_some_iff.mpr ⟨(s₃,p₃),hs₃,Option.bind_eq_some_iff.mpr ⟨s₄,hafter,?_⟩⟩
  refine Option.bind_eq_some_iff.mpr ⟨s₅,hs₅,Option.bind_eq_some_iff.mpr ⟨s₆,hs₆,?_⟩⟩
  exact Option.bind_eq_some_iff.mpr ⟨s₇,hs₇,rfl⟩

/-- prog_exec comes to its end. -/
theorem runExec_returns (X : ExecLayout L) (s : Shell) (v : View) (argv : List CStr) :
    ∃ t,s.runExec X v argv=some t := by
  match argv with
  | [] | [_] => exact ⟨_,rfl⟩
  | _::path::_ =>
    obtain ⟨m,entry,name,hentry,_⟩ :=
      execEntry_refuses (procCall_ok v.machine) X.image s.files s.procs.mem X.execBuf path
    unfold Shell.runExec
    dsimp only
    rw [hentry]
    exact ⟨_,rfl⟩

/-- Every program comes to its end. -/
theorem Live.callProgram {s : Shell} (h : Live L s) (hf : 2^32≤fuel) (X : ExecLayout L) (inp : Input)
    (prog : ShellProgram) (argv : List CStr) : ∃ t,s.callProgram fuel X inp prog argv=some t := by
  obtain ⟨used,free,hused,hfree⟩ := h.usage hf
  have hview : ∃ v,s.view fuel inp=some v := by
    unfold Shell.view
    rw [hused,hfree]
    exact ⟨_,rfl⟩
  obtain ⟨v,hv⟩ := hview
  unfold Shell.callProgram
  rw [hv,Option.bind_some]
  cases prog with
  | mallocTest => exact h.mallocTest hf
  | exec => exact runExec_returns X s v argv
  | help | about | fastfetch | roadmap | service | touch | write | rm | mv | mkdir | chmod | stat | cp | append
  | clear | uname | uptime | date | free | cpuid | whoami | hostname | pwd | ls | cat | echo | ps | id | arch
  | display | reboot | halt => exact ⟨_,rfl⟩

end EronKernel.ShellReturns

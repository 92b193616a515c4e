import EronKernel.ExecRefusal
import EronKernel.ShellMachine
import EronKernel.SystemInvariant

/-!
# Lines of the shell as events of the kernel

Whatever a program of the shell does to the kernel is one or more events that
the kernel may see anyway: calls of the terminal, the file system and the
allocator, and stores to the array that exec reads a file into. So a line leads
from a reachable state to a reachable one, and it leaves the slots of the
process table alone.
-/

namespace EronKernel.ShellEffects

open ByteMemory CString FuelLoop HeapModel HeapRuns TtyModel ProcModel VfsModel ProcFiles ShellModel
  ShellListing ShellExec ExecRefusal TaskModel SystemModel SystemInvariant ShellReports ShellServices
  ShellMachine

variable {F : Type} {L : Layout} {fuel : ℕ}

/-- Runs compose. -/
theorem reaches_trans {m n o : SystemModel.Machine F} (h : Reaches L fuel m n) (k : Reaches L fuel n o) :
    Reaches L fuel m o := by
  induction k with
  | refl => exact h
  | step e _ hstep ih => exact .step e ih hstep

/-- The kernel over another memory. -/
def withMem (m : SystemModel.Machine F) (mem : Mem) : SystemModel.Machine F :=
  {m with system := {m.system with kernel := m.system.kernel.withMem mem}}

/-- The kernel over its own memory. -/
theorem withMem_self (m : SystemModel.Machine F) : withMem m m.system.kernel.heap.mem=m := by
  obtain ⟨⟨⟨heap,vfs,procs,ticks,frequency,output,shared⟩,keyboard,pic,halted⟩,live⟩ := m
  unfold withMem SyscallModel.Kernel.withMem SyscallModel.Kernel.setHeap
  dsimp only at shared⊢
  congr 3
  rw [←shared]

/-- Stores outside the process table and the heap lead to any memory that
differs nowhere else. -/
theorem reaches_stores {m : SystemModel.Machine F} (hrun : m.system.halted=false) {mem : Mem} (xs : List Word)
    (hxs : ∀ x∈xs,¬Owned L x) (hsame : ∀ x,x∉xs→mem x=m.system.kernel.heap.mem x) :
    Reaches L fuel m (withMem m mem) := by
  induction xs generalizing mem with
  | nil =>
    have hmem : mem=m.system.kernel.heap.mem := funext fun x => hsame x List.not_mem_nil
    rw [hmem,withMem_self]
    exact .refl
  | cons x xs ih =>
    have hother : ∀ y∈xs,¬Owned L y := fun y hy => hxs y (List.mem_cons_of_mem x hy)
    have hbefore : Reaches L fuel m (withMem m (Function.update mem x (m.system.kernel.heap.mem x))) := by
      refine ih hother fun y hy => ?_
      by_cases hyx : y=x
      · rw [hyx,Function.update_self]
      · rw [Function.update_of_ne hyx]
        exact hsame y fun hc => hy ((List.mem_cons.mp hc).resolve_left hyx)
    refine .step (.store x (mem x)) hbefore ?_
    have hstored : store8 (Function.update mem x (m.system.kernel.heap.mem x)) x (mem x)=mem := by
      funext y
      by_cases hyx : y=x
      · subst hyx
        exact Function.update_self ..
      · exact (Function.update_of_ne hyx _ _).trans (Function.update_of_ne hyx _ _)
    have hpoke : SystemModel.step L fuel (withMem m (Function.update mem x (m.system.kernel.heap.mem x)))
        (.store x (mem x))=some (withMem m (store8 (Function.update mem x (m.system.kernel.heap.mem x)) x
          (mem x))) := by
      unfold SystemModel.step
      rw [if_neg (by rw [show (withMem m _).system.halted=m.system.halted from rfl,hrun]; decide)]
      dsimp only
      rw [if_neg (hxs x List.mem_cons_self)]
      rfl
    rw [hpoke,hstored]

/-- The file system after operations. -/
def Operated (s t : Vfs F) : Prop := ∃ os : List (VfsOp F),t=performOps s os

/-- No operation. -/
theorem Operated.refl (s : Vfs F) : Operated s s := ⟨[],rfl⟩

/-- One call more. -/
theorem Operated.call {s t : Vfs F} (h : Operated s t) (c : VfsCall F) : Operated s (performCall t c).1 := by
  obtain ⟨os,rfl⟩ := h
  exact ⟨os++[.call c],by rw [performOps,performOps,List.foldl_append]; rfl⟩

/-- A program whose last call may fail. -/
theorem Operated.orComplain {s : Vfs F} {r : Vfs F×ℤ} (h : Operated s r.1) (message : String) :
    Operated s (orComplain r message).vfs := by
  unfold ShellModel.orComplain
  split_ifs
  · exact h
  · exact h

/-- Creating a file unless there is one. -/
theorem operated_ensureFile (s : Vfs F) (path : CStr) : Operated s (ensureFile s path).1 := by
  unfold ensureFile
  split_ifs
  · exact .refl s
  · exact (Operated.refl s).call (.mkfile (some path) (some .empty))

/-- A program that changes files does so by calls of the file system. -/
theorem operated_runProgram (call : F→Buf→Word→ℤ×Buf) (stack : Buf) (prog : FileProgram) (s : Vfs F)
    (argv : List CStr) : Operated s (runProgram call stack prog s argv).vfs := by
  have hcomplain : ∀ message,Operated s (complain s message).vfs := fun _ => .refl s
  have hwrite : ∀ {t : Vfs F} (path : CStr) (data : Option Buf) (size : Word),Operated s t→
      Operated s (vfsWrite t (some path) data size).1 :=
    fun path data size ht => ht.call (.write (some path) data size)
  cases prog with
  | touch =>
    unfold runProgram progTouch
    dsimp only
    split
    · split_ifs
      · exact .refl s
      · exact ((Operated.refl s).call (.mkfile _ _)).orComplain _
    · exact hcomplain _
  | write =>
    unfold runProgram progWrite
    dsimp only
    split
    · split_ifs
      · exact operated_ensureFile s _
      · exact (hwrite _ _ _ (operated_ensureFile s _)).orComplain _
    · exact hcomplain _
  | rm =>
    unfold runProgram progRm
    dsimp only
    split
    · exact ((Operated.refl s).call (.remove _)).orComplain _
    · exact hcomplain _
  | mv =>
    unfold runProgram progMv
    dsimp only
    split
    · exact ((Operated.refl s).call (.rename _ _)).orComplain _
    · exact hcomplain _
  | mkdir =>
    unfold runProgram progMkdir
    dsimp only
    split
    · exact ((Operated.refl s).call (.mkdir _)).orComplain _
    · exact hcomplain _
  | chmod =>
    unfold runProgram progChmod
    dsimp only
    split
    · split
      · split_ifs
        · exact hcomplain _
        · exact ((Operated.refl s).call (.chmod _ _)).orComplain _
      · exact hcomplain _
    · exact hcomplain _
  | cp =>
    unfold runProgram progCp
    dsimp only
    split
    · split_ifs
      · exact hcomplain _
      · exact operated_ensureFile s _
      · exact (hwrite _ _ _ (operated_ensureFile s _)).orComplain _
    · exact hcomplain _
  | append =>
    unfold runProgram progAppend
    dsimp only
    split
    · split_ifs
      · exact (Operated.refl s).call (.mkfile _ _)
      · exact (hwrite _ _ _ ((Operated.refl s).call (.mkfile _ _))).orComplain _
      · exact (hwrite _ _ _ (Operated.refl s)).orComplain _
    · exact hcomplain _

/-- What every command does: a run of the kernel that leaves the program table
and the batch mode alone. -/
structure Keeps (L : Layout) (fuel : ℕ) (s t : Shell) : Prop where
  /-- The kernel's run. -/
  reaches : s.machine.system.halted=false→Reaches L fuel s.machine t.machine
  /-- The machine does not panic. -/
  halted : t.machine.system.halted=s.machine.system.halted
  /-- The program table. -/
  programs : t.programs=s.programs
  /-- The batch mode. -/
  batch : t.batch=s.batch

/-- One thing after the other. -/
theorem Keeps.trans {s t u : Shell} (h : Keeps L fuel s t) (k : Keeps L fuel t u) : Keeps L fuel s u where
  reaches := fun hrun => reaches_trans (h.reaches hrun) (k.reaches (h.halted.trans hrun))
  halted := k.halted.trans h.halted
  programs := k.programs.trans h.programs
  batch := k.batch.trans h.batch

/-- What the commands do that neither start a process nor set a service: the
slots of the process table and the services stay. -/
structure Acts (L : Layout) (fuel : ℕ) (s t : Shell) : Prop extends Keeps L fuel s t where
  /-- The process table over its memory. -/
  procs : t.procs={s.procs with mem := t.procs.mem}
  /-- The services. -/
  services : t.services=s.services
  /-- What the shell is doing. -/
  mode : t.mode=s.mode

/-- Doing nothing. -/
theorem Acts.refl (s : Shell) : Acts L fuel s s := ⟨⟨fun _ => .refl,rfl,rfl,rfl⟩,rfl,rfl,rfl⟩

/-- One thing after the other. -/
theorem Acts.trans {s t u : Shell} (h : Acts L fuel s t) (k : Acts L fuel t u) : Acts L fuel s u where
  toKeeps := h.toKeeps.trans k.toKeeps
  procs := by rw [k.procs,h.procs]
  services := k.services.trans h.services
  mode := k.mode.trans h.mode

/-- Calls of the terminal. -/
theorem acts_write (s : Shell) (ops : List TtyOp) : Acts L fuel s (s.write ops) := by
  induction ops generalizing s with
  | nil => exact .refl s
  | cons op ops ih =>
    have hone : Acts L fuel s (s.write [op]) := by
      refine ⟨⟨fun hrun => .step (.tty op) .refl ?_,rfl,rfl,rfl⟩,rfl,rfl,rfl⟩
      unfold SystemModel.step
      rw [if_neg (by rw [hrun]; decide)]
      rfl
    exact hone.trans (ih (s.write [op]))

/-- Operations of the file system. -/
theorem acts_files (s : Shell) {files : Vfs ProcFile} (h : Operated s.files files) :
    Acts L fuel s (s.setFiles files) := by
  obtain ⟨os,rfl⟩ := h
  induction os using List.reverseRecOn with
  | nil => exact .refl s
  | append_singleton os o ih =>
    have hone : Acts L fuel (s.setFiles (performOps s.files os)) (s.setFiles (performOps s.files (os++[o]))) := by
      refine ⟨⟨fun hrun => .step (.file o) .refl ?_,rfl,rfl,rfl⟩,rfl,rfl,rfl⟩
      unfold SystemModel.step
      rw [if_neg (by rw [hrun]; decide),performOps,performOps,List.foldl_append]
      rfl
    exact ih.trans hone

/-- A program that changes files. -/
theorem acts_runFile (s : Shell) (v : View) (prog : FileProgram) (argv : List CStr) :
    Acts L fuel s (s.runFile v prog argv) :=
  (acts_files s (operated_runProgram _ _ prog s.files argv)).trans (acts_write _ _)

/-- kmalloc. -/
theorem acts_kmalloc {s t : Shell} {size p : Word} (h : s.kmalloc fuel size=some (t,p)) :
    Acts L fuel s t := by
  obtain ⟨r,hrun,hr⟩ := Option.map_eq_some_iff.mp h
  cases hr
  refine ⟨⟨fun hhalted => .step (.heap (.kmalloc size)) .refl ?_,rfl,rfl,rfl⟩,rfl,rfl,rfl⟩
  unfold SystemModel.step
  rw [if_neg (by rw [hhalted]; decide)]
  exact Option.map_eq_some_iff.mpr ⟨_,Option.map_eq_some_iff.mpr ⟨r,hrun,rfl⟩,rfl⟩

/-- kfree. -/
theorem acts_kfree {s t : Shell} {p : Word} (h : s.kfree fuel p=some t) : Acts L fuel s t := by
  obtain ⟨r,hrun,rfl⟩ := Option.map_eq_some_iff.mp h
  refine ⟨⟨fun hhalted => .step (.heap (.kfree p)) .refl ?_,rfl,rfl,rfl⟩,rfl,rfl,rfl⟩
  unfold SystemModel.step
  rw [if_neg (by rw [hhalted]; decide)]
  exact Option.map_eq_some_iff.mpr ⟨_,Option.map_eq_some_iff.mpr ⟨r,hrun,rfl⟩,rfl⟩

/-- The usage lines. -/
theorem acts_writeUsage {s t : Shell} {label : String} (h : s.writeUsage fuel label=some t) :
    Acts L fuel s t := by
  obtain ⟨used,_,h⟩ := Option.bind_eq_some_iff.mp h
  obtain ⟨free,_,rfl⟩ := Option.map_eq_some_iff.mp h
  exact acts_write s _

/-- prog_malloc_test. -/
theorem acts_mallocTest {s t : Shell} (h : s.mallocTest fuel=some t) : Acts L fuel s t := by
  obtain ⟨s₀,hbefore,h⟩ := Option.bind_eq_some_iff.mp h
  obtain ⟨⟨s₁,p₁⟩,h₁,h⟩ := Option.bind_eq_some_iff.mp h
  obtain ⟨⟨s₂,p₂⟩,h₂,h⟩ := Option.bind_eq_some_iff.mp h
  obtain ⟨⟨s₃,p₃⟩,h₃,h⟩ := Option.bind_eq_some_iff.mp h
  obtain ⟨s₄,hafter,h⟩ := Option.bind_eq_some_iff.mp h
  obtain ⟨s₅,h₅,h⟩ := Option.bind_eq_some_iff.mp h
  obtain ⟨s₆,h₆,h⟩ := Option.bind_eq_some_iff.mp h
  obtain ⟨s₇,h₇,h⟩ := Option.bind_eq_some_iff.mp h
  cases h
  have hallocated := ((acts_kmalloc h₁).trans (acts_kmalloc h₂)).trans (acts_kmalloc (L := L) h₃)
  have hshown := (acts_write s₃ _).trans (acts_writeUsage (L := L) hafter)
  have hreleased := ((acts_kfree h₅).trans (acts_kfree h₆)).trans (acts_kfree (L := L) h₇)
  exact ((((acts_write s _).trans (acts_writeUsage hbefore)).trans hallocated).trans hshown).trans
    (hreleased.trans (acts_write s₇ _))

/-- An address in the array of prog_exec. -/
theorem mem_execBuf {a x : Word} {n : ℕ} (h : (x-a).toNat<n) :
    x∈(List.range n).map fun k => a+BitVec.ofNat 32 k := by
  refine List.mem_map.mpr ⟨(x-a).toNat,List.mem_range.mpr h,?_⟩
  rw [BitVec.ofNat_toNat,BitVec.setWidth_eq]
  bv_omega

/-- Another memory, which differs in the array of prog_exec only. -/
theorem acts_execBuf (X : ExecLayout L) (s : Shell) {m : Mem}
    (h : ∀ x,4096≤(x-X.execBuf).toNat→ m x=s.procs.mem x) :
    Acts L fuel s (s.setProcs {s.procs with mem := m}) := by
  refine ⟨⟨fun hrun => ?_,rfl,rfl,rfl⟩,rfl,rfl,rfl⟩
  refine reaches_stores hrun ((List.range 4096).map fun k => X.execBuf+BitVec.ofNat 32 k) ?_ ?_
  · intro x hx
    obtain ⟨k,hk,rfl⟩ := List.mem_map.mp hx
    exact X.free k (List.mem_range.mp hk)
  · intro x hx
    exact (h x (Nat.not_lt.mp fun hlt => hx (mem_execBuf hlt))).trans
      (congrFun s.machine.system.kernel.shared x)

/-- prog_exec, which starts nothing. -/
theorem acts_exec {X : ExecLayout L} {s t : Shell} {v : View} {argv : List CStr} (hidle : s.mode=.idle)
    (h : s.runExec X v argv=some t) : Acts L fuel s t := by
  match argv with
  | [] | [_] =>
    cases h
    exact acts_write s _
  | _::path::_ =>
    obtain ⟨m,entry,name,hentry,hnone,hbuiltin,hsame⟩ :=
      execEntry_refuses (procCall_ok v.machine) X.image s.files s.procs.mem X.execBuf path
    obtain ⟨message,hrefused⟩ := execResolved_refuses hnone hbuiltin s.procs m name
    unfold Shell.runExec at h
    dsimp only at h
    rw [hentry,Option.map_some,Option.some.injEq] at h
    dsimp only at h
    rw [hrefused] at h
    have hacts : Acts L fuel s ((s.setProcs {s.procs with mem := m}).write
        (execText s.procs path m entry name)) := (acts_execBuf X s hsame).trans (acts_write _ _)
    subst h
    exact ⟨⟨hacts.reaches,hacts.halted,hacts.programs,hacts.batch⟩,hacts.procs,hacts.services,hidle.symm⟩

/-- Calls of the terminal one after the other. -/
theorem write_write (s : Shell) (ops more : List TtyOp) : (s.write ops).write more=s.write (ops++more) := by
  unfold Shell.write
  rw [List.foldl_append]
  rfl

/-- The prompt is a call of the terminal, or nothing. -/
theorem prompt_eq (s : Shell) : ∃ ops,s.prompt=s.write ops := by
  unfold Shell.prompt
  split_ifs
  · exact ⟨[],rfl⟩
  · exact ⟨_,rfl⟩

/-- So is the end of execute_command. -/
theorem finish_eq (s : Shell) : ∃ ops,s.finish=s.write ops := by
  obtain ⟨ops,hops⟩ := prompt_eq (s.write [color vgaColorLightGrey,str "\n"])
  refine ⟨[color vgaColorLightGrey,str "\n"]++ops,?_⟩
  unfold Shell.finish
  rw [hops,write_write]

/-- And what follows a program. -/
theorem returned_eq (s : Shell) (argv : List CStr) : ∃ ops,s.returned argv=s.write ops := by
  unfold Shell.returned
  split_ifs
  · exact ⟨[],rfl⟩
  · exact prompt_eq s
  · exact finish_eq s

/-- The services after a program. -/
def servicesAfter (services : Services) (prog : ShellProgram) (argv : List CStr) : Services :=
  if prog=.service then (progService services argv).1 else services

/-- What the shell is doing after a program. -/
def modeOf (prog : ShellProgram) : Mode := if prog=.reboot ∨ prog=.halt then .stopped else .idle

/-- What a line does: a run of the kernel that leaves the slots of the process
table alone. -/
structure LineEffect (L : Layout) (fuel : ℕ) (s t : Shell) (services : Services) (mode : Mode) : Prop
    extends Keeps L fuel s t where
  /-- The process table over its memory. -/
  procs : t.procs={s.procs with mem := t.procs.mem}
  /-- The services. -/
  services : t.services=services
  /-- What the shell is doing. -/
  mode : t.mode=mode

/-- What stops nothing and sets no service. -/
theorem Acts.lineEffect {s t : Shell} (h : Acts L fuel s t) (hidle : s.mode=.idle) :
    LineEffect L fuel s t s.services .idle :=
  ⟨h.toKeeps,h.procs,h.services,h.mode.trans hidle⟩

/-- Calls of the terminal in front. -/
theorem LineEffect.after_write {s t : Shell} {ops : List TtyOp} {services : Services} {mode : Mode}
    (h : LineEffect L fuel (s.write ops) t services mode) : LineEffect L fuel s t services mode :=
  ⟨(acts_write s ops).toKeeps.trans h.toKeeps,h.procs,h.services,h.mode⟩

/-- Calls of the terminal behind. -/
theorem LineEffect.write {s t : Shell} {services : Services} {mode : Mode}
    (h : LineEffect L fuel s t services mode) (ops : List TtyOp) :
    LineEffect L fuel s (t.write ops) services mode :=
  ⟨h.toKeeps.trans (acts_write t ops).toKeeps,h.procs,h.services,h.mode⟩

/-- A program of the table. -/
theorem callProgram_effect {X : ExecLayout L} {inp : Input} {s t : Shell} {prog : ShellProgram}
    {argv : List CStr} (hidle : s.mode=.idle) (h : s.callProgram fuel X inp prog argv=some t) :
    LineEffect L fuel s t (servicesAfter s.services prog argv) (modeOf prog) := by
  obtain ⟨v,hv,h⟩ := Option.bind_eq_some_iff.mp h
  have hwrite : ∀ ops,LineEffect L fuel s (s.write ops) s.services .idle :=
    fun ops => (acts_write s ops).lineEffect hidle
  have hfile : ∀ p,LineEffect L fuel s (s.runFile v p argv) s.services .idle :=
    fun p => (acts_runFile s v p argv).lineEffect hidle
  have hstop : ∀ ops,LineEffect L fuel s {s.write ops with mode := .stopped} s.services .stopped :=
    fun ops => ⟨⟨(acts_write s ops).reaches,rfl,rfl,rfl⟩,rfl,rfl,rfl⟩
  cases prog with
  | touch | write | rm | mv | mkdir | chmod | cp | append =>
    cases h
    exact hfile _
  | service =>
    cases h
    exact ⟨⟨(acts_write s _).reaches,rfl,rfl,rfl⟩,rfl,rfl,hidle⟩
  | mallocTest => exact (acts_mallocTest h).lineEffect hidle
  | exec => exact (acts_exec hidle h).lineEffect hidle
  | reboot | halt =>
    cases h
    exact hstop _
  | help | about | fastfetch | roadmap | stat | clear | uname | uptime | date | free | cpuid | whoami
  | hostname | pwd | ls | cat | echo | ps | id | arch | display =>
    obtain ⟨r,_,rfl⟩ := Option.map_eq_some_iff.mp h
    exact hwrite _

/-- The services after a line. -/
def servicesAfterLine (s : Shell) (cmd : CStr) : Services :=
  match TaskModel.executeCommand s.programs cmd with
  | .call (some prog) argv => servicesAfter s.services prog argv
  | _ => s.services

/-- What the shell is doing after a line. -/
def modeAfterLine (s : Shell) (cmd : CStr) : Mode :=
  match TaskModel.executeCommand s.programs cmd with
  | .call (some prog) _ => modeOf prog
  | _ => .idle

/-- execute_command. -/
theorem executeCommand_effect {X : ExecLayout L} {inp : Input} {s t : Shell} {cmd : CStr}
    (hidle : s.mode=.idle) (h : s.executeCommand fuel X inp cmd=some t) :
    LineEffect L fuel s t (servicesAfterLine s cmd) (modeAfterLine s cmd) := by
  unfold Shell.executeCommand at h
  dsimp only at h
  unfold servicesAfterLine modeAfterLine
  have hsame : (s.write [color vgaColorLightGrey]).programs=s.programs := rfl
  rw [hsame] at h
  have hfirst : Acts L fuel s (s.write [color vgaColorLightGrey]) := acts_write s _
  have hplain : ∀ {u : Shell},(∃ ops,u=(s.write [color vgaColorLightGrey]).write ops)→
      LineEffect L fuel s u s.services .idle := by
    rintro _ ⟨ops,rfl⟩
    exact (hfirst.trans (acts_write _ ops)).lineEffect hidle
  cases hselect : TaskModel.executeCommand s.programs cmd with
  | nothing =>
    rw [hselect] at h
    cases h
    exact hplain (prompt_eq _)
  | message text =>
    rw [hselect] at h
    cases h
    obtain ⟨ops,hops⟩ := finish_eq ((s.write [color vgaColorLightGrey]).write
      [color vgaColorLightRed,.writestring (.ofBytes text)])
    rw [hops]
    exact (hplain ⟨_,rfl⟩).write ops
  | call entry argv =>
    rw [hselect] at h
    cases entry with
    | none => cases h
    | some prog =>
      obtain ⟨u,hcall,rfl⟩ := Option.map_eq_some_iff.mp h
      obtain ⟨ops,hops⟩ := returned_eq u argv
      rw [hops]
      have heffect := callProgram_effect (s := s.write [color vgaColorLightGrey]) hidle hcall
      exact heffect.after_write.write ops

end EronKernel.ShellEffects

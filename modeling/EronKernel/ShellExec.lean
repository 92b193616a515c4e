import EronKernel.ElfModel
import EronKernel.ProcInvariant
import EronKernel.ShellModel
import EronKernel.SlotMap

/-!
# The exec command of shell.c

prog_exec resolves its argument to an entry address, either of a routine inside
the kernel image or of a file that elf_load accepted, and hands it to
proc_create. The routines lie where the linker put the kernel, below user
space, and proc_create refuses every entry outside user space; its refusal is
reported as a full process table. The wait for the child is the scheduler's.
-/

namespace EronKernel.ShellExec

open ByteMemory CString SlotMap VfsModel ShellModel ElfModel ProcModel ProcInvariant

variable {F : Type}

/-- Where the linker put the routines inside the kernel: the image starts at
0x100000 and ends below user space. -/
structure KernelImage where
  /-- Address of a routine. -/
  address : Builtin→Word
  /-- The routine lies in the image. -/
  linked : ∀ b,0x100000≤(address b).toNat ∧ (address b).toNat<0x08000000

/-- basename: the part behind the last slash that is not at the end. -/
def basenameFrom (last : List Byte) : List Byte→List Byte
  | [] => last
  | b::bs => basenameFrom (if b=0x2F ∧ bs≠[] then bs else last) bs

/-- vfs_basename. -/
def vfsBasename (path : CStr) : CStr := .ofBytes (basenameFrom path.bytes path.bytes)

/-- Bytes of memory from an address on. -/
def loadBytes (m : Mem) (a : Word) : Buf := fun k => m (a+BitVec.ofNat 32 k)

/-- Write the bytes of a buffer into memory. -/
def storeBytes (m : Mem) (a : Word) (n : ℕ) (b : Buf) : Mem :=
  fun x => if (x-a).toNat < n then b (x-a).toNat else m x

/-- The name under which prog_exec starts a routine inside the kernel. -/
def builtinName : Builtin→CStr
  | .hello => .lit "hello"
  | .loop => .lit "loop"
  | .crash => .lit "crash"

/-- The entry address and the name that prog_exec computes, with the memory
afterwards; no value when elf_load does not return. The array buf is on the
kernel's stack, at the given address. -/
def execEntry (img : KernelImage) (call : F→Buf→Word→ℤ×Buf) (s : Vfs F) (m : Mem) (buf : Word)
    (path : CStr) : Option (Mem×Word×CStr) :=
  match progExecSource call (loadBytes m buf) s path with
  | .builtin b => some (m,img.address b,builtinName b)
  | .image data len => (elfLoad (storeBytes m buf 4096 data) buf len).map fun r =>
      (r.1.mem,r.2,vfsBasename path)
  | .missing => some (m,0,vfsBasename path)

/-- What prog_exec does before it waits. -/
inductive ExecReply where
  /-- Write a message and return 1. -/
  | fail (message : List Byte)
  /-- Return 1 without a message. -/
  | lost
  /-- Wait for the child in a slot. -/
  | waits (child : ProcSlot)

/-- prog_exec from the resolved entry on, up to its wait. -/
def execResolved (ps : Procs) (path : CStr) (m : Mem) (entry : Word) (name : CStr) :
    Procs×ExecReply :=
  if execBuiltin path=none ∧ entry=0 then
    ({ps with mem := m},.fail (ascii "\nexec: "++path.bytes++ascii ": not executable"))
  else
    let r := procCreate {ps with mem := m} name entry
    if r.2<0 then (r.1,.fail (ascii "\nexec: process table full"))
    else match execChild r.1 (BitVec.ofInt 32 r.2) with
      | none => (r.1,.lost)
      | some child => (r.1,.waits child)

/-- prog_exec up to its wait. -/
def progExec (img : KernelImage) (call : F→Buf→Word→ℤ×Buf) (s : Vfs F) (ps : Procs) (buf : Word) :
    List CStr→Option (Procs×ExecReply)
  | _::path::_ =>
    (execEntry img call s ps.mem buf path).map fun (m,entry,name) => execResolved ps path m entry name
  | _ => some (ps,.fail (ascii "\nexec: usage: exec <program>"))

/-- So many pids were issued: the counter is the next one and no slot holds a
pid that was not issued. -/
structure Issued (n : ℕ) (ps : Procs) : Prop where
  /-- The pid counter counts the creations from one. -/
  counter : ps.nextPid.toNat=n+1
  /-- Every pid in the table was issued. -/
  bound : ∀ k,(ps.procs k).pid.toNat≤n

/-- In every reachable state the pids are those of the creations so far. -/
theorem issued_of_reachable {n : ℕ} {ps : Procs} (h : Reachable n ps) (hn : n<2^31-1) : Issued n ps :=
  ⟨(reachable_procInv h hn).pids.counter,(reachable_procInv h hn).pids.bound⟩

/-- proc_create returned a pid that was never issued, in a slot that was free
and is ready now, and left every other slot alone. -/
def Starts (n : ℕ) (ps : Procs) (r : Procs×ℤ) : Prop :=
  ∃ k : ProcSlot,k.val≠0 ∧ (ps.procs k).state=.unused ∧ r.2=n+1 ∧
    ((r.1.procs k).pid.toNat : ℤ)=r.2 ∧ (r.1.procs k).state=.ready ∧
    ∀ j,j≠k→ r.1.procs j=ps.procs j

/-- proc_create starts a process for every entry in user space while a slot is
free. -/
theorem procCreate_starts {n : ℕ} {ps : Procs} (h : Issued n ps) (hn : n<2^31-1) {k : ProcSlot}
    (hk : k≠0) (hfree : (ps.procs k).state=.unused) (name : CStr) {entry : Word}
    (hlo : 0x08000000≤entry.toNat) (hhi : entry.toNat<0xC0000000) :
    Starts n ps (procCreate ps name entry) := by
  have hcounter := h.counter
  obtain ⟨j,hj⟩ : ∃ j,firstUnused ps=some j := by
    cases hf : firstUnused ps with
    | some j => exact ⟨j,rfl⟩
    | none =>
      have hno := List.find?_eq_none.mp hf k (List.mem_finRange k)
      simp [hk,hfree] at hno
  obtain ⟨hj0,hjfree⟩ := firstUnused_unused hj
  have hrun : procCreate ps name entry=(launch ps j name entry,ps.nextPid.toInt) := by
    unfold procCreate
    rw [if_neg (by bv_omega),if_neg (by bv_omega),hj]
  have hpid : ps.nextPid.toInt=n+1 := by
    rw [BitVec.toInt_eq_toNat_of_lt (by omega),hcounter]
    rfl
  obtain ⟨hstate,hnew⟩ := launch_slot ps j name entry j
  rw [if_pos rfl] at hstate hnew
  rw [hrun]
  refine ⟨j,fun he => hj0 (Fin.ext he),hjfree,hpid,?_,hstate,?_⟩
  · rw [hnew,hpid,hcounter]
    rfl
  · intro i hi
    exact Function.update_of_ne hi _ _

/-- proc_create refuses every routine inside the kernel image. -/
theorem procCreate_builtin (img : KernelImage) (ps : Procs) (name : CStr) (b : Builtin) :
    procCreate ps name (img.address b)=(ps,-1) := by
  obtain ⟨hlo,hhi⟩ := img.linked b
  unfold procCreate
  rw [if_neg (by bv_omega),if_pos (Or.inl (by bv_omega))]

/-- prog_exec finds the child that proc_create started. -/
theorem Starts.execChild {n : ℕ} {ps : Procs} {r : Procs×ℤ} (h : Starts n ps r) (hi : Issued n ps)
    (hn : n<2^31-1) : ∃ k,execChild r.1 (BitVec.ofInt 32 r.2)=some k ∧ (r.1.procs k).state=.ready := by
  obtain ⟨k,_,_,hr,hpid,hready,hother⟩ := h
  have hword : BitVec.ofInt 32 r.2=BitVec.ofNat 32 (n+1) := by
    rw [hr]
    exact BitVec.ofInt_natCast 32 (n+1)
  have hat : (r.1.procs k).pid=BitVec.ofNat 32 (n+1) := by
    apply BitVec.eq_of_toNat_eq
    rw [BitVec.toNat_ofNat]
    omega
  refine ⟨k,?_,hready⟩
  unfold ProcModel.execChild
  rw [find?_finRange_eq_some_iff,hword]
  refine ⟨decide_eq_true hat,fun j hj => decide_eq_false ?_⟩
  have hbound := hi.bound j
  rw [hother j (Fin.ne_of_lt hj)]
  intro he
  rw [he,BitVec.toNat_ofNat] at hbound
  omega

/-- The entry and the name of a routine inside the kernel. -/
theorem execEntry_builtin (img : KernelImage) (call : F→Buf→Word→ℤ×Buf) (s : Vfs F) (m : Mem)
    (buf : Word) {path : CStr} {b : Builtin} (hb : execBuiltin path=some b) :
    execEntry img call s m buf path=some (m,img.address b,builtinName b) := by
  unfold execEntry progExecSource
  rw [hb]

/-- exec starts what it resolves exactly when the argument is not a routine
inside the kernel: for such an argument proc_create returns a fresh pid, makes
a free slot ready and prog_exec waits for it, and for the others proc_create
returns -1 although a slot is free. -/
theorem exec_starts_iff (img : KernelImage) (call : F→Buf→Word→ℤ×Buf) (s : Vfs F) (ps : Procs)
    (buf : Word) (cmd path : CStr) {n : ℕ} (hi : Issued n ps) (hn : n<2^31-1) {k : ProcSlot}
    (hk : k≠0) (hfree : (ps.procs k).state=.unused) {m : Mem} {entry : Word} {name : CStr}
    (hentry : execEntry img call s ps.mem buf path=some (m,entry,name)) (hnz : entry≠0)
    (huser : execBuiltin path=none→0x08000000≤entry.toNat ∧ entry.toNat<0xC0000000) :
    let r := procCreate {ps with mem := m} name entry
    (Starts n ps r ∧ ∃ child,progExec img call s ps buf [cmd,path]=some (r.1,.waits child) ∧
      (r.1.procs child).state=.ready) ↔ execBuiltin path=none := by
  intro r
  constructor
  · rintro ⟨⟨_,_,_,hpid,_⟩,_⟩
    cases hb : execBuiltin path with
    | none => rfl
    | some b =>
      rw [execEntry_builtin img call s ps.mem buf hb] at hentry
      cases hentry
      have hrefused : r=({ps with mem := ps.mem},-1) := procCreate_builtin img _ _ b
      rw [hrefused] at hpid
      dsimp only at hpid
      omega
  · intro hb
    obtain ⟨hlo,hhi⟩ := huser hb
    have hissued : Issued n {ps with mem := m} := ⟨hi.counter,hi.bound⟩
    have hstarts : Starts n {ps with mem := m} r :=
      procCreate_starts hissued hn hk hfree name hlo hhi
    obtain ⟨child,hchild,hready⟩ := hstarts.execChild hissued hn
    refine ⟨hstarts,child,?_,hready⟩
    obtain ⟨_,_,_,hpid,_⟩ := hstarts
    have hzero : ¬(execBuiltin path=none ∧ entry=0) := fun hc => hnz hc.2
    have hresolved : execResolved ps path m entry name=(r.1,.waits child) := by
      unfold execResolved
      dsimp only
      rw [if_neg hzero,if_neg (by omega : ¬r.2<0),hchild]
    unfold progExec
    dsimp only
    rw [hentry,Option.map_some]
    exact congrArg some hresolved

/-- An image with its routines at the start of the text section. -/
def sampleImage : KernelImage := ⟨fun _ => 0x101000,fun _ => by decide⟩

/-- The process table at boot. -/
def bootProcs : Procs := procInit
  ⟨fun _ => ⟨0,fun _ => 0,.unused,0,0,0⟩,none,1,fun _ => 0,0,fun _ => 0,0x110000,0x102000⟩

/-- No pid was issued at boot. -/
theorem bootProcs_issued : Issued 0 bootProcs := by
  refine ⟨rfl,fun k => ?_⟩
  revert k
  decide +kernel

/-- An ELF file with entry 0x08048000 and one program header that is not
loaded. -/
def elfFile : Buf := fun k => [0x7F,0x45,0x4C,0x46,1,1,1,0,0,0,0,0,0,0,0,0,2,0,3,0,1,0,0,0,
  0,0x80,4,8,52,0,0,0,0,0,0,0,0,0,0,0,52,0,32,0,1].getD k 0

/-- Memory with the file in the buffer of prog_exec. -/
def elfFileMem : Mem := storeBytes (fun _ => 0) 0x200000 4096 elfFile

/-- elf_load accepts the file. -/
theorem elfLoad_elfFile : ∃ tr,elfLoad elfFileMem 0x200000 84=some (tr,0x08048000) := by
  have hvalid : elfValidate elfFileMem 0x200000 84=0 := by decide +kernel
  have hheaders : ¬(ePhoff elfFileMem 0x200000=0 ∨ ePhnum elfFileMem 0x200000=0) := by decide +kernel
  have hcount : ePhnum elfFileMem 0x200000=1 := by decide +kernel
  have htype : pType elfFileMem (phAddr elfFileMem 0x200000 0)≠ptLoad := by decide +kernel
  have hentry : eEntry elfFileMem 0x200000=0x08048000 := by decide +kernel
  unfold elfLoad
  dsimp only
  rw [if_neg (not_not.mpr hvalid),if_neg hheaders,if_neg (by rw [hcount]; decide)]
  rw [show (2^16 : ℕ)=(2^16-2)+1+1 from rfl,loadHeaders,if_pos (by rw [hcount]; decide)]
  dsimp only [Trace.note]
  rw [if_pos htype,loadHeaders,if_neg (by rw [hcount]; decide),hentry]
  exact ⟨_,rfl⟩

/-- A file system with one proc file. -/
def procVfs : Vfs Unit := (vfsMkproc (vfsInit zeroed) (some (.lit "/proc/elf")) (some ())).1

/-- A proc file that reads as an ELF file is started on the table at boot. -/
theorem exec_starts_elfFile :
    ∃ t child,progExec sampleImage (fun _ _ _ => (84,elfFile)) procVfs bootProcs 0x200000
      [.lit "exec",.lit "/proc/elf"]=some (t,.waits child) ∧ (t.procs child).state=.ready := by
  have hnone : execBuiltin (.lit "/proc/elf")=none := by decide +kernel
  have hlookup : vfsLookup procVfs (some (.lit "/proc/elf"))=some 0 := by decide +kernel
  have hread : vfsRead (fun _ _ _ => (84,elfFile)) procVfs (some (.lit "/proc/elf"))
      (some (loadBytes bootProcs.mem 0x200000)) 4096=(84,some elfFile) := by
    unfold vfsRead
    dsimp only
    rw [if_neg (by decide),hlookup]
    rfl
  have hsource : progExecSource (fun _ _ _ => (84,elfFile)) (loadBytes bootProcs.mem 0x200000) procVfs
      (.lit "/proc/elf")=.image elfFile 84 := by
    unfold progExecSource
    rw [hnone]
    dsimp only
    rw [hread,if_pos (by decide)]
    rfl
  obtain ⟨tr,hload⟩ := elfLoad_elfFile
  have hentry : execEntry sampleImage (fun _ _ _ => (84,elfFile)) procVfs bootProcs.mem 0x200000
      (.lit "/proc/elf")=some (tr.mem,0x08048000,vfsBasename (.lit "/proc/elf")) := by
    unfold execEntry
    rw [hsource]
    change (elfLoad elfFileMem 0x200000 84).map _=_
    rw [hload]
    rfl
  obtain ⟨_,child,hrun,hready⟩ := (exec_starts_iff sampleImage (fun _ _ _ => (84,elfFile)) procVfs
    bootProcs 0x200000 (.lit "exec") (.lit "/proc/elf") bootProcs_issued (by decide)
    (by decide : (1 : ProcSlot)≠0) (by decide +kernel) hentry (by decide)
    (fun _ => ⟨by decide,by decide⟩)).mpr hnone
  exact ⟨_,child,hrun,hready⟩

/-- The routine hello is refused on the table at boot, where fifteen slots are
free, and prog_exec reports a full table. -/
theorem exec_refuses_hello :
    (bootProcs.procs 1).state=.unused ∧
      procCreate bootProcs (.lit "hello") (sampleImage.address .hello)=(bootProcs,-1) ∧
      progExec sampleImage (fun _ _ _ => (0,fun _ => 0)) procVfs bootProcs 0x200000
        [.lit "exec",.lit "hello"]=
          some (bootProcs,.fail (ascii "\nexec: process table full")) := by
  have hrefused := procCreate_builtin sampleImage bootProcs (.lit "hello") .hello
  have hbuiltin : execBuiltin (.lit "hello")=some .hello := by decide +kernel
  refine ⟨by decide +kernel,hrefused,?_⟩
  unfold progExec
  dsimp only
  rw [execEntry_builtin _ _ _ _ _ hbuiltin,Option.map_some]
  have hresolved : execResolved bootProcs (.lit "hello") bootProcs.mem (sampleImage.address .hello)
      (.lit "hello")=(bootProcs,.fail (ascii "\nexec: process table full")) := by
    unfold execResolved
    rw [hbuiltin,if_neg (by simp)]
    dsimp only
    rw [hrefused]
    rfl
  exact congrArg some hresolved

end EronKernel.ShellExec

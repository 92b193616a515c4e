import EronKernel.ShellExec
import EronKernel.ShellFiles

/-!
# exec starts nothing

vfs_read delivers a file up to its first NUL, and the read functions of the
proc files write texts. An ELF header has a NUL in the second byte of its type,
in front of the end of the header. So whatever a file holds, elf_load refuses
what prog_exec reads of it, without a store, and proc_create refuses the
routines inside the kernel. No argument makes prog_exec start a process.
-/

namespace EronKernel.ExecRefusal

open ByteMemory CString VfsModel VfsContents ProcFiles ShellModel ShellFiles ElfModel ProcModel ShellExec

variable {F : Type}

/-- What is read successfully is a text in front of the end of the buffer. -/
theorem vfsRead_text {call : F→Buf→Word→ℤ×Buf} (hcall : ReadersOk call) (s : Vfs F) (p : CStr) (stack : Buf)
    {size : Word} (hzero : size≠0) (hmax : size≤4096)
    (hok : ¬(vfsRead call s (some p) (some stack) size).1<0) :
    ∃ n : ℕ,(vfsRead call s (some p) (some stack) size).1=n ∧ n<size.toNat ∧
      ∀ k<n,readBuf stack (vfsRead call s (some p) (some stack) size) k≠0 := by
  rcases vfsRead_cases call s p stack hzero hmax with ⟨hrun,_⟩|⟨i,_,_,⟨f,_,hrun⟩|⟨_,hrun⟩⟩
  · rw [hrun] at hok
    exact absurd (Int.negSucc_lt_zero 0) hok
  · rw [hrun]
    exact hcall f stack size hzero
  · rw [hrun]
    refine ⟨_,rfl,?_,fun k hk => ?_⟩
    · have hpos : size.toNat≠0 := fun he => hzero (BitVec.eq_of_toNat_eq he)
      have hle : ((nodeContent s (s.nodes i)).take (size.toNat-1)).bytes.length≤ size.toNat-1 :=
        List.length_take_le _ _
      omega
    · have hbyte : fillBuf stack ((nodeContent s (s.nodes i)).take (size.toNat-1)).bytes k=
          ((nodeContent s (s.nodes i)).take (size.toNat-1)).bytes[k] := dif_pos hk
      intro h0
      have hmem := List.getElem_mem hk
      rw [←hbyte,show fillBuf stack _ k=_ from h0] at hmem
      exact ((nodeContent s (s.nodes i)).take (size.toNat-1)).nonzero hmem

/-- A header without NUL is not that of an ELF file. -/
theorem elfValidate_text {m : Mem} {data size : Word} (h : ∀ k<size.toNat,m (data+BitVec.ofNat 32 k)≠0) :
    elfValidate m data size≠0 := by
  unfold elfValidate
  split_ifs with hsize _ _ _ htype _
  all_goals try decide
  have hlong : 17<size.toNat := by
    simp only [ehdrSize,BitVec.lt_def] at hsize
    have h52 : (52 : Word).toNat=52 := rfl
    omega
  refine absurd ?_ (h 17 hlong)
  have htwo := congrArg BitVec.toNat (not_not.mp htype)
  have haddr : data+16+1=data+BitVec.ofNat 32 17 := by bv_omega
  unfold eType load16 at htwo
  rw [haddr,BitVec.toNat_ofNat] at htwo
  have hlow := (m (data+16)).isLt
  have hhigh := (m (data+BitVec.ofNat 32 17)).isLt
  have h2 : (2 : Half).toNat=2 := rfl
  have h0 : (0 : Byte).toNat=0 := rfl
  apply BitVec.eq_of_toNat_eq
  omega

/-- elf_load refuses a text, without a store. -/
theorem elfLoad_text {m : Mem} {data size : Word} (h : ∀ k<size.toNat,m (data+BitVec.ofNat 32 k)≠0) :
    ∃ tr,elfLoad m data size=some (tr,0) ∧ tr.mem=m ∧ tr.writes=[] := by
  refine ⟨⟨m,if size<ehdrSize then [] else [(data,52)],[]⟩,?_,rfl,rfl⟩
  unfold elfLoad
  dsimp only
  rw [if_pos (elfValidate_text h)]

/-- A byte of an array that was stored to memory. -/
theorem storeBytes_apply (m : Mem) (a : Word) {n : ℕ} (hn : n≤2^32) (b : Buf) {k : ℕ} (hk : k<n) :
    storeBytes m a n b (a+BitVec.ofNat 32 k)=b k := by
  have hoff : (a+BitVec.ofNat 32 k-a).toNat=k := by bv_omega
  unfold storeBytes
  rw [hoff,if_pos hk]

/-- What prog_exec resolves, whatever file its argument leads to: a routine
inside the kernel, or nothing. Memory changes in the array of prog_exec only. -/
theorem execEntry_refuses {call : F→Buf→Word→ℤ×Buf} (hcall : ReadersOk call) (img : KernelImage) (s : Vfs F)
    (mem : Mem) (buf : Word) (path : CStr) :
    ∃ m entry name,execEntry img call s mem buf path=some (m,entry,name) ∧
      (execBuiltin path=none→entry=0) ∧ (∀ b,execBuiltin path=some b→entry=img.address b) ∧
      ∀ x,4096≤(x-buf).toNat→ m x=mem x := by
  unfold execEntry progExecSource
  cases hb : execBuiltin path with
  | some b => exact ⟨mem,img.address b,builtinName b,rfl,nofun,fun _ h => by cases h; rfl,fun _ _ => rfl⟩
  | none =>
    dsimp only
    split_ifs with hpos
    · dsimp only
      obtain ⟨n,hn,hlt,htext⟩ := vfsRead_text hcall s path (loadBytes mem buf)
        (by decide : (4096 : Word)≠0) (by decide) (by omega)
      have h4096 : (4096 : Word).toNat=4096 := rfl
      rw [hn]
      have hsize : (BitVec.ofInt 32 (n : ℤ)).toNat=n := by
        rw [BitVec.ofInt_natCast,BitVec.toNat_ofNat]
        omega
      have hstored : ∀ k<(BitVec.ofInt 32 (n : ℤ)).toNat,
          storeBytes mem buf 4096 (readBuf (loadBytes mem buf)
            (vfsRead call s (some path) (some (loadBytes mem buf)) 4096)) (buf+BitVec.ofNat 32 k)≠0 := by
        intro k hk
        rw [hsize] at hk
        rw [storeBytes_apply mem buf (by decide) _ (by omega)]
        exact htext k hk
      obtain ⟨tr,hload,hmem,_⟩ := elfLoad_text hstored
      rw [hload]
      refine ⟨tr.mem,0,vfsBasename path,rfl,fun _ => rfl,nofun,fun x hx => ?_⟩
      rw [hmem]
      exact if_neg (not_lt.mpr hx)
    · exact ⟨mem,0,vfsBasename path,rfl,fun _ => rfl,nofun,fun _ _ => rfl⟩

/-- prog_exec refuses what it resolves so. -/
theorem execResolved_refuses {img : KernelImage} {path : CStr} {entry : Word}
    (hnone : execBuiltin path=none→entry=0) (hbuiltin : ∀ b,execBuiltin path=some b→entry=img.address b)
    (ps : Procs) (m : Mem) (name : CStr) :
    ∃ message,execResolved ps path m entry name=({ps with mem := m},.fail message) := by
  unfold execResolved
  cases hb : execBuiltin path with
  | none =>
    rw [if_pos ⟨rfl,hnone hb⟩]
    exact ⟨_,rfl⟩
  | some b =>
    rw [if_neg fun hc => absurd hc.1 (Option.some_ne_none b),hbuiltin b hb,procCreate_builtin]
    dsimp only
    rw [if_pos (by decide : (-1 : ℤ)<0)]
    exact ⟨_,rfl⟩

/-- prog_exec never starts a process: whatever the files hold, whatever the
table and the memory are, and whatever the arguments, it writes a message and
returns 1, and the table is as before; memory changes in its own array only. -/
theorem exec_starts_nothing (mach : Machine) (img : KernelImage) (s : Vfs ProcFile) (ps : Procs) (buf : Word)
    (argv : List CStr) :
    ∃ m message,progExec img (procCall mach) s ps buf argv=some ({ps with mem := m},.fail message) ∧
      ∀ x,4096≤(x-buf).toNat→ m x=ps.mem x := by
  match argv with
  | [] | [_] => exact ⟨ps.mem,_,rfl,fun _ _ => rfl⟩
  | _::path::_ =>
    obtain ⟨m,entry,name,hentry,hnone,hbuiltin,hsame⟩ :=
      execEntry_refuses (procCall_ok mach) img s ps.mem buf path
    obtain ⟨message,hrefused⟩ := execResolved_refuses hnone hbuiltin ps m name
    unfold progExec
    dsimp only
    rw [hentry,Option.map_some]
    exact ⟨m,message,congrArg some hrefused,hsame⟩

end EronKernel.ExecRefusal

import EronKernel.ShellModel
import EronKernel.VfsContents
import EronKernel.VfsRefinement

/-!
# Reading back what was written

vfs_write stores as many bytes as it is told and keeps their number; vfs_read
looks for the first NUL instead and returns what stands in front of it. What
was written is therefore read back, also by prog_exec on the way to elf_load,
exactly when no stored byte is NUL.
-/

namespace EronKernel.FileRoundTrip

open ByteMemory CString VfsModel VfsTable VfsContents VfsRefinement ShellModel

variable {F : Type}

/-- What is written under a path is found there: the length field, what
vfs_read returns, and the image that prog_exec passes to elf_load. -/
structure RoundTrip (s : Vfs F) (p : CStr) (d : Buf) (n : Word) : Prop where
  /-- The node's length field is what vfs_write returned. -/
  size : ∃ i,vfsLookup (vfsWrite s (some p) (some d) n).1 (some p)=some i ∧
    ((((vfsWrite s (some p) (some d) n).1.nodes i).size.toNat : ℕ) : ℤ)=(vfsWrite s (some p) (some d) n).2
  /-- Reading returns as many bytes, and the same ones. -/
  read : ∀ call buf,∃ b,vfsRead call (vfsWrite s (some p) (some d) n).1 (some p) (some buf) 4096=
    ((vfsWrite s (some p) (some d) n).2,some b) ∧
      ∀ k : ℕ,(k : ℤ)<(vfsWrite s (some p) (some d) n).2→ b k=d k
  /-- prog_exec passes as many bytes on, and the same ones. -/
  exec : ∀ call stack,execBuiltin p=none→0<(vfsWrite s (some p) (some d) n).2→
    ∃ b,progExecSource call stack (vfsWrite s (some p) (some d) n).1 p=
      .image b (BitVec.ofInt 32 (vfsWrite s (some p) (some d) n).2) ∧
      ∀ k : ℕ,(k : ℤ)<(vfsWrite s (some p) (some d) n).2→ b k=d k

/-- The node of a regular file that may be read and written. -/
structure ReadWriteFile (n : VfsNode F) : Prop extends WritableNode n where
  /-- It may be read. -/
  readable : n.perm&&&vfsPermRead≠0

/-- After a write, reading returns the stored bytes in front of the first
NUL. -/
theorem vfsRead_afterWrite {s : Vfs F} {p : CStr} {i : Slot} (hl : vfsLookup s (some p)=some i)
    (hf : ReadWriteFile (s.nodes i)) {bytes : List Byte} (hlen : bytes.length<4096)
    (call : F→Buf→Word→ℤ×Buf) (buf : Buf) :
    vfsRead call (afterWrite s i bytes) (some p) (some buf) 4096=
      (((CStr.ofBytes bytes).bytes.length : ℤ),some (fillBuf buf (CStr.ofBytes bytes).bytes)) := by
  have hl' := (vfsLookup_afterWrite s i bytes (some p)).trans hl
  have hnode := nodes_afterWrite s i bytes
  have hshort : (CStr.ofBytes bytes).bytes.length≤4096-1 := by
    have hle : (CStr.ofBytes bytes).bytes.length≤bytes.length := (List.takeWhile_prefix _).length_le
    omega
  rcases vfsRead_cases call (afterWrite s i bytes) p buf (by decide : (4096 : Word)≠0)
      (by decide) with
    ⟨_,hno⟩|⟨j,hj,_,⟨f,hread,_⟩|⟨_,hrun⟩⟩
  · have hun := hno i hl'
    rw [hnode] at hun
    rcases hun with hdir|⟨hperm,_⟩
    · rw [hf.type] at hdir
      cases hdir
    · exact absurd hperm hf.readable
  · cases hl'.symm.trans hj
    rw [hnode,hf.read] at hread
    cases hread
  · cases hl'.symm.trans hj
    rw [hrun,nodeContent_afterWrite s i hlen,show (4096 : Word).toNat-1=4096-1 from rfl,
      CStr.take_of_length_le hshort]

/-- A buffer that was filled with the stored bytes. -/
theorem fillBuf_stored (buf d : Buf) (n : Word) {k : ℕ} (hk : k<writtenSize n) :
    fillBuf buf (stored d n) k=d k := by
  unfold fillBuf
  rw [dif_pos (by rw [length_stored]; exact hk)]
  simp [stored]

/-- Bytes of which as many are in front of the first NUL as there are. -/
theorem zero_notMem_of_length {bytes : List Byte}
    (h : (CStr.ofBytes bytes).bytes.length=bytes.length) : (0 : Byte)∉bytes := by
  have he : (CStr.ofBytes bytes).bytes=bytes := (List.takeWhile_prefix _).eq_of_length h
  rw [←he]
  exact (CStr.ofBytes bytes).nonzero

/-- Of bytes with a NUL fewer are read back than were written. -/
theorem not_roundTrip_of_nul {s : Vfs F} {p : CStr} {i : Slot} (hl : vfsLookup s (some p)=some i)
    (hf : ReadWriteFile (s.nodes i)) {d : Buf} {n : Word} (h0 : (0 : Byte)∈stored d n) :
    ¬RoundTrip s p d n := by
  intro h
  obtain ⟨b,hread,_⟩ := h.read (fun _ b _ => (0,b)) (fun _ => 0)
  rw [vfsWrite_run hl hf.toWritableNode,vfsRead_afterWrite hl hf (length_stored_lt d n)] at hread
  have hlen : ((CStr.ofBytes (stored d n)).bytes.length : ℤ)=writtenSize n := congrArg Prod.fst hread
  refine zero_notMem_of_length ?_ h0
  rw [length_stored]
  exact_mod_cast hlen

/-- Bytes without NUL are read back. -/
theorem roundTrip_of_nonzero {s : Vfs F} {p : CStr} {i : Slot} (hl : vfsLookup s (some p)=some i)
    (hf : ReadWriteFile (s.nodes i)) {d : Buf} {n : Word} (h0 : (0 : Byte)∉stored d n) :
    RoundTrip s p d n := by
  have hlt := writtenSize_lt n
  have hread : ∀ call buf,vfsRead call (afterWrite s i (stored d n)) (some p) (some buf) 4096=
      ((writtenSize n : ℤ),some (fillBuf buf (stored d n))) := by
    intro call buf
    rw [vfsRead_afterWrite hl hf (length_stored_lt d n),CStr.ofBytes_bytes h0,length_stored]
  have hbytes : ∀ (buf : Buf) (k : ℕ),(k : ℤ)<(writtenSize n : ℤ)→fillBuf buf (stored d n) k=d k :=
    fun buf k hk => fillBuf_stored buf d n (by exact_mod_cast hk)
  constructor
  · rw [vfsWrite_run hl hf.toWritableNode]
    refine ⟨i,(vfsLookup_afterWrite s i _ _).trans hl,?_⟩
    rw [nodes_afterWrite]
    dsimp only
    rw [length_stored,BitVec.toNat_ofNat,Nat.mod_eq_of_lt (by omega)]
  · intro call buf
    rw [vfsWrite_run hl hf.toWritableNode]
    exact ⟨_,hread call buf,hbytes buf⟩
  · intro call stack hb hpos
    rw [vfsWrite_run hl hf.toWritableNode] at hpos⊢
    refine ⟨fillBuf stack (stored d n),?_,hbytes stack⟩
    unfold progExecSource
    rw [hb]
    dsimp only
    rw [hread,if_pos hpos]
    rfl

/-- What is written under the path of a regular file that may be read and
written is read back, also by prog_exec, exactly when none of the bytes that
are stored is NUL. -/
theorem write_read_round_trip_iff (s : Vfs F) (p : CStr) (i : Slot) (d : Buf) (n : Word)
    (hl : vfsLookup s (some p)=some i) (hf : ReadWriteFile (s.nodes i)) :
    RoundTrip s p d n ↔ ∀ k < min n.toNat 4095,d k≠0 := by
  have hsize : writtenSize n=min n.toNat 4095 := by
    change (if 4096≤n.toNat then 4095 else n.toNat)=_
    split_ifs with hge
    · omega
    · omega
  have hmem : (∀ k < min n.toNat 4095,d k≠0) ↔ (0 : Byte)∉stored d n := by
    rw [←hsize]
    simp [stored]
  rw [hmem]
  exact ⟨fun h h0 => not_roundTrip_of_nul hl hf h0 h,roundTrip_of_nonzero hl hf⟩

/-- A file system with one empty file. -/
def oneFile : Vfs Unit := performOps (vfsInit zeroed) [.call (.mkfile (some pathA) (some .empty))]

/-- The file may be read and written. -/
theorem readWriteFile_oneFile : ReadWriteFile (oneFile.nodes 0) :=
  ⟨⟨by decide,by decide,by decide⟩,by decide⟩

/-- Three letters are read back. -/
theorem round_trip_letters : RoundTrip oneFile pathA (fun _ => 0x41) 3 :=
  (write_read_round_trip_iff oneFile pathA 0 _ 3 (by decide) readWriteFile_oneFile).mpr
    fun _ _ => by decide

/-- The start of an ELF file: class, byte order and version, then padding. -/
def elfIdent : Buf := fun k => [0x7F,0x45,0x4C,0x46,1,1,1].getD k 0

/-- The start of an ELF file is cut off at its first NUL. -/
theorem not_round_trip_elfIdent : ¬RoundTrip oneFile pathA elfIdent 16 :=
  not_roundTrip_of_nul (i := 0) (by decide) readWriteFile_oneFile (by decide)

end EronKernel.FileRoundTrip

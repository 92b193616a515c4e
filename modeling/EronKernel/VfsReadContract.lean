import EronKernel.ProcFiles
import EronKernel.VfsContents

/-!
# What vfs_read leaves in the buffer

A read delivers the start of a text that does not depend on the size that was
asked for: the content of a file, or the report of a proc file. The text is
cut in front of the last byte of the buffer, a terminator follows it, and
nothing is written behind the buffer. The content of a file ends inside its
row, so that vfs_read finds its terminator there.
-/

namespace EronKernel.VfsReadContract

open ByteMemory CString VfsModel VfsTable VfsContents ProcFiles

variable {F : Type}

/-- Every row of the pool has a terminator. -/
def RowsTerminated (s : Vfs F) : Prop := ∀ i,∃ k,s.fileDataPool i k=0

/-- Writing a string that fits its row. -/
theorem RowsTerminated.setRow {s : Vfs F} (h : RowsTerminated s) (i : Slot) {bytes : List Byte}
    (hlen : bytes.length<4096) (used : Byte) : RowsTerminated (s.setRow i bytes used) := by
  intro j
  by_cases hj : j=i
  · subst hj
    refine ⟨⟨bytes.length,hlen⟩,?_⟩
    simp [Vfs.setRow,copyRow]
  · simpa [Vfs.setRow,hj] using h j

/-- A creating call whose rest keeps the rows terminated. -/
theorem RowsTerminated.makeNode {s : Vfs F} (h : RowsTerminated s) (path : Option CStr) (type : VfsType)
    {rest : Slot→Vfs F→Vfs F×ℤ} (hrest : ∀ i t,RowsTerminated t→RowsTerminated (rest i t).1) :
    RowsTerminated (makeNode s path type rest).1 := by
  rcases makeNode_cases s path type rest with ⟨_,hrun⟩|⟨p,_,_,i,_,hrun⟩
  · rw [hrun]
    exact h
  · rw [hrun]
    exact hrest i _ h

/-- Storing the content of a new file. -/
theorem RowsTerminated.fillFile {s : Vfs F} (h : RowsTerminated s) (i : Slot) {bytes : List Byte}
    (hlen : bytes.length<4096) : RowsTerminated (fillFile i s bytes) :=
  h.setRow i hlen 1

/-- vfs_write keeps the rows terminated. -/
theorem RowsTerminated.write {s : Vfs F} (h : RowsTerminated s) (path : Option CStr) (data : Option Buf)
    (size : Word) : RowsTerminated (vfsWrite s path data size).1 := by
  cases path with
  | none => exact h
  | some p =>
    cases data with
    | none => exact h
    | some d =>
      rcases vfsWrite_cases s p d size with ⟨hrun,_⟩|⟨i,_,_,hrun⟩
      · rw [hrun]
        exact h
      · rw [hrun]
        exact h.setRow i (length_stored_lt d size) 1

/-- vfs_remove keeps the rows terminated. -/
theorem RowsTerminated.remove {s : Vfs F} (h : RowsTerminated s) (path : Option CStr) :
    RowsTerminated (vfsRemove s path).1 := by
  unfold vfsRemove
  split_ifs with hv
  · exact h
  · split
    · exact h
    · rename_i i _
      dsimp only
      split_ifs with hp
      · exact h
      · exact h.setRow i (by decide : ([] : List Byte).length<4096) 0

/-- Every call keeps the rows terminated. -/
theorem RowsTerminated.call {s : Vfs F} (h : RowsTerminated s) (c : VfsCall F) :
    RowsTerminated (performCall s c).1 := by
  cases c with
  | mkdir path => exact h.makeNode path .dir fun _ _ ht => ht
  | mkfile path content =>
    refine h.makeNode path .file fun i t ht => ?_
    cases content with
    | none => exact ht.fillFile i (by decide)
    | some c =>
      dsimp only
      split_ifs with hlong
      · exact ht
      · exact ht.fillFile i (Nat.lt_of_not_le hlong)
  | mkdev path => exact h.makeNode path .dev fun _ _ ht => ht
  | mkproc path readFn => exact h.makeNode path .file fun _ _ ht => ht
  | lookup path => exact h
  | read call path buf size => exact h
  | write path data size => exact h.write path data size
  | remove path => exact h.remove path
  | rename oldPath newPath =>
    unfold performCall withCode vfsRename
    dsimp only
    split_ifs
    · exact h
    · split
      · exact h
      · split_ifs
        · exact h
        · split
          · exact h
          · exact h
  | chmod path perm =>
    unfold performCall withCode vfsChmod
    dsimp only
    split
    · exact h
    · exact h

/-- In every run the rows stay terminated. -/
theorem performOps_rowsTerminated (os : List (VfsOp F)) :
    RowsTerminated (performOps (vfsInit zeroed) os) := by
  have hrun : ∀ {s : Vfs F},RowsTerminated s→RowsTerminated (performOps s os) := by
    induction os with
    | nil => exact fun h => h
    | cons o os ih =>
      intro s h
      cases o with
      | call c => exact ih (h.call c)
      | list dir max => exact ih h
  exact hrun fun _ => ⟨0,rfl⟩

/-- Number of bytes that vfs_read may use of a buffer. -/
def readLimit (size : Word) : ℕ := min size.toNat 4096

/-- The size that vfs_read works with. -/
def clampSize (size : Word) : Word := if maxReadSize<size then maxReadSize else size

/-- A read works with the cut size. -/
theorem vfsRead_clampSize (call : F→Buf→Word→ℤ×Buf) (s : Vfs F) (path : Option CStr) (b : Buf)
    {size : Word} (hsize : size≠0) :
    vfsRead call s path (some b) size=vfsRead call s path (some b) (clampSize size) := by
  unfold clampSize
  split_ifs with hcut
  · unfold vfsRead
    dsimp only
    rw [if_neg hsize,if_pos hcut,if_neg (by decide),if_neg (by decide)]
  · rfl

/-- The cut size is the number of bytes that may be used. -/
theorem toNat_clampSize (size : Word) : (clampSize size).toNat=readLimit size := by
  unfold clampSize readLimit
  split_ifs with hcut
  · have hlt : 4096<size.toNat := hcut
    change 4096=_
    omega
  · have hle : ¬4096<size.toNat := hcut
    omega

/-- A cut size is neither zero nor above the limit. -/
theorem clampSize_bounds {size : Word} (hsize : size≠0) : clampSize size≠0 ∧ clampSize size≤4096 := by
  unfold clampSize
  split_ifs with hcut
  · exact ⟨by decide,by decide⟩
  · exact ⟨hsize,BitVec.not_lt.mp hcut⟩

/-- A buffer that was filled with a short text. -/
theorem delivered_fillBuf (b : Buf) {max : ℕ} {text : List Byte} (hfits : text.length< max) :
    Delivered b max text (fillBuf b text) where
  fits := hfits
  bytes k hk := dif_pos hk
  outside k hk := by
    unfold fillBuf
    rw [dif_neg (by omega),if_neg (by omega)]
  terminated := by
    unfold fillBuf
    rw [dif_neg (lt_irrefl _),if_pos rfl]

/-- A read delivers the start of a text: as many bytes as there is room for in
front of a terminator. -/
def Delivers (mach : Machine) (s : Vfs ProcFile) (path : Option CStr) (full : List Byte) (b : Buf)
    (size : Word) : Prop :=
  ∃ out,vfsRead (procCall mach) s path (some b) size=
      (((full.take (readLimit size-1)).length : ℤ),some out) ∧
    Delivered b (readLimit size) (full.take (readLimit size-1)) out

/-- A read of a proc file delivers its report. -/
theorem vfsRead_report {mach : Machine} {s : Vfs ProcFile} {p : CStr} {i : Slot} {f : ProcFile}
    (hi : vfsLookup s (some p)=some i) (hok : ¬Unreadable (s.nodes i)) (hr : (s.nodes i).read=some f)
    (b : Buf) {size : Word} (hsize : size≠0) : Delivers mach s (some p) (report mach f) b size := by
  obtain ⟨hzero,hmax⟩ := clampSize_bounds hsize
  obtain ⟨out,hcall,hout⟩ := procCall_delivers mach f b hzero
  rw [toNat_clampSize] at hcall hout
  refine ⟨out,?_,hout⟩
  rw [vfsRead_clampSize _ _ _ _ hsize]
  rcases vfsRead_cases (procCall mach) s p b hzero hmax with ⟨_,hun⟩|⟨j,hj,_,⟨g,hg,hrun⟩|⟨hno,_⟩⟩
  · exact absurd (hun i hi) hok
  · cases hi.symm.trans hj
    cases hr.symm.trans hg
    rw [hrun,hcall]
  · cases hi.symm.trans hj
    rw [hr] at hno
    cases hno

/-- A read of any other node delivers its content. -/
theorem vfsRead_content {mach : Machine} {s : Vfs ProcFile} {p : CStr} {i : Slot}
    (hi : vfsLookup s (some p)=some i) (hok : ¬Unreadable (s.nodes i)) (hr : (s.nodes i).read=none)
    (b : Buf) {size : Word} (hsize : size≠0) :
    Delivers mach s (some p) (nodeContent s (s.nodes i)).bytes b size := by
  obtain ⟨hzero,hmax⟩ := clampSize_bounds hsize
  have hpos : 0 < readLimit size := by
    rw [←toNat_clampSize]
    exact Nat.pos_of_ne_zero fun he => hzero (BitVec.eq_of_toNat_eq he)
  refine ⟨_,?_,delivered_fillBuf b ?_⟩
  · rw [vfsRead_clampSize _ _ _ _ hsize]
    rcases vfsRead_cases (procCall mach) s p b hzero hmax with ⟨_,hun⟩|⟨j,hj,_,⟨g,hg,_⟩|⟨_,hrun⟩⟩
    · exact absurd (hun i hi) hok
    · cases hi.symm.trans hj
      rw [hr] at hg
      cases hg
    · cases hi.symm.trans hj
      rw [hrun,toNat_clampSize]
      rfl
  · rw [List.length_take]
    omega

/-- A read under a path that leads to no node that may be read fails. -/
theorem vfsRead_fails {mach : Machine} {s : Vfs ProcFile} {path : Option CStr}
    (hno : ¬∃ p i,path=some p ∧ vfsLookup s (some p)=some i ∧ ¬Unreadable (s.nodes i)) (b : Buf)
    {size : Word} (hsize : size≠0) : vfsRead (procCall mach) s path (some b) size=(-1,some b) := by
  cases path with
  | none =>
    unfold vfsRead
    dsimp only
    rw [if_neg hsize]
    rfl
  | some p =>
    obtain ⟨hzero,hmax⟩ := clampSize_bounds hsize
    rw [vfsRead_clampSize _ _ _ _ hsize]
    rcases vfsRead_cases (procCall mach) s p b hzero hmax with ⟨hrun,_⟩|⟨i,hi,hok,_⟩
    · exact hrun
    · exact absurd ⟨p,i,rfl,hi,hok⟩ hno

/-- In every state, a read fails whatever its size, or delivers the start of
one text whatever its size. -/
theorem vfsRead_delivers (mach : Machine) (s : Vfs ProcFile) (path : Option CStr) :
    (∀ (b : Buf) (size : Word),size≠0→vfsRead (procCall mach) s path (some b) size=(-1,some b)) ∨
    ∃ full : List Byte,(0 : Byte)∉full ∧
      ∀ (b : Buf) (size : Word),size≠0→Delivers mach s path full b size := by
  by_cases hfound : ∃ p i,path=some p ∧ vfsLookup s (some p)=some i ∧ ¬Unreadable (s.nodes i)
  · obtain ⟨p,i,rfl,hi,hok⟩ := hfound
    right
    cases hr : (s.nodes i).read with
    | some f =>
      exact ⟨report mach f,zero_notMem_report mach f,fun b _ hsize => vfsRead_report hi hok hr b hsize⟩
    | none => exact ⟨_,CStr.nonzero _,fun b _ hsize => vfsRead_content hi hok hr b hsize⟩
  · exact Or.inl fun b _ hsize => vfsRead_fails hfound b hsize

/-- The buffer behind the pointer that was passed to vfs_read. -/
def bufferAfter (b : Buf) (r : ℤ×Option Buf) : Buf := r.2.getD b

/-- The bytes that vfs_read says it has read. -/
def bytesRead (b : Buf) (r : ℤ×Option Buf) : List Byte := (List.range r.1.toNat).map (bufferAfter b r)

/-- What vfs_read promises about a buffer of some size. -/
structure ReadContract (call : F→Buf→Word→ℤ×Buf) (s : Vfs F) (path : Option CStr) (size : Word)
    (b : Buf) : Prop where
  /-- Nothing is written behind the bytes that may be used. -/
  outside : ∀ k,readLimit size ≤ k→ bufferAfter b (vfsRead call s path (some b) size) k=b k
  /-- There is room for the terminator. -/
  fits : 0≤(vfsRead call s path (some b) size).1→(vfsRead call s path (some b) size).1< readLimit size
  /-- The terminator. -/
  terminated : 0≤(vfsRead call s path (some b) size).1→
    bufferAfter b (vfsRead call s path (some b) size) (vfsRead call s path (some b) size).1.toNat=0
  /-- The bytes in front of it. -/
  nonzero : 0≤(vfsRead call s path (some b) size).1→(0 : Byte)∉bytesRead b (vfsRead call s path (some b) size)
  /-- They are the start of what a read of 4096 bytes returns. -/
  start : 0≤(vfsRead call s path (some b) size).1→∀ b' : Buf,
    0≤(vfsRead call s path (some b') 4096).1 ∧ bytesRead b (vfsRead call s path (some b) size)=
      (bytesRead b' (vfsRead call s path (some b') 4096)).take (readLimit size-1)

/-- The bytes of a text that was delivered. -/
theorem bytesRead_of_delivered {b : Buf} {max : ℕ} {text : List Byte} {out : Buf}
    (h : Delivered b max text out) : bytesRead b ((text.length : ℤ),some out)=text := by
  unfold bytesRead bufferAfter
  rw [Int.toNat_natCast,Option.getD_some]
  apply List.ext_getElem
  · rw [List.length_map,List.length_range]
  · intro k hk hk'
    rw [List.getElem_map,List.getElem_range]
    exact h.bytes k hk'

/-- In every state of the file system, for every path, size and buffer, a read
keeps to its part of the buffer and delivers the start of what a read of 4096
bytes delivers. -/
theorem vfs_read_contract (os : List (VfsOp ProcFile)) (mach : Machine) (path : Option CStr) (size : Word)
    (hsize : size≠0) (b : Buf) :
    ReadContract (procCall mach) (performOps (vfsInit zeroed) os) path size b := by
  rcases vfsRead_delivers mach (performOps (vfsInit zeroed) os) path with hfail|⟨full,h0,hread⟩
  · have hneg : ¬(0 : ℤ)≤-1 := by decide
    constructor
    · rw [hfail b size hsize]
      exact fun _ _ => rfl
    all_goals
      rw [hfail b size hsize]
      exact fun hle => absurd hle hneg
  · obtain ⟨out,hrun,hout⟩ := hread b size hsize
    have hbytes := bytesRead_of_delivered hout
    have hfits := hout.fits
    constructor
    · rw [hrun]
      exact hout.outside
    all_goals
      rw [hrun]
      intro _
    · dsimp only
      omega
    · rw [Int.toNat_natCast]
      exact hout.terminated
    · rw [hbytes]
      exact fun hmem => h0 (List.mem_of_mem_take hmem)
    · intro b'
      obtain ⟨out',hrun',hout'⟩ := hread b' 4096 (by decide)
      rw [hrun',hbytes,bytesRead_of_delivered hout',List.take_take]
      refine ⟨Int.natCast_nonneg _,congrArg (fun n => full.take n) ?_⟩
      have hle : readLimit size≤4096 := Nat.min_le_right _ _
      have hmax : readLimit 4096=4096 := by decide
      omega

/-- A read of the uptime into three bytes. -/
theorem vfs_read_uptime :
    ReadContract (procCall ⟨fun _ => ⟨0,0,0,0⟩,0,0,0,1234⟩)
      (performOps (vfsInit zeroed) [.call (.mkproc (some (.lit "/proc/uptime")) (some .uptime))])
      (some (.lit "/proc/uptime")) 3 (fun _ => 0x2A) :=
  vfs_read_contract _ _ _ 3 (by decide) _

end EronKernel.VfsReadContract

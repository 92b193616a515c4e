import EronKernel.ShellFiles

/-!
# What a shell command does to the files

prog_cp copies a regular file exactly and leaves its source alone. A command
that returns 1 has usually changed nothing; the commands that create a file
before they write it leave a node behind when the write then fails.
-/

namespace EronKernel.ShellCommands

open ByteMemory CString VfsModel VfsTable VfsShape VfsContents VfsEffects ProcFiles ShellModel ShellFiles

variable {F : Type}

/-- The node that vfs_mkfile makes visible for an empty content. -/
def emptyFile (p : CStr) : NodeView F :=
  ⟨p.take 127,.file,.empty,none,BitVec.ofNat 32 0,vfsPermRead|||vfsPermWrite⟩

/-- vfs_mkfile with an empty content. -/
theorem vfsMkfile_empty {s : Vfs F} (h : Shape s) (p : CStr) :
    Creates s (some p) (vfsMkfile s (some p) (some .empty)) 0 emptyFile :=
  vfsMkfile_creates h (some p) (by decide)

/-- A path led to a node, no node could be created, or an empty file was. -/
theorem ensureFile_cases {s : Vfs F} (h : Shape s) (p : CStr) :
    ((∃ i,vfsLookup s (some p)=some i) ∧ ensureFile s p=(s,0)) ∨
    (vfsLookup s (some p)=none ∧ ¬Creatable s (some p) ∧ ensureFile s p=(s,-1)) ∨
    (vfsLookup s (some p)=none ∧ Creatable s (some p) ∧ (ensureFile s p).2=0 ∧
      Adds s (ensureFile s p).1 (emptyFile p)) := by
  unfold ensureFile
  cases hl : vfsLookup s (some p) with
  | some i => exact Or.inl ⟨⟨i,rfl⟩,rfl⟩
  | none =>
    refine Or.inr ?_
    rw [if_neg (by decide)]
    rcases vfsMkfile_empty h p with ⟨hno,hrun⟩|⟨q,hq,hyes,hcode,hadd⟩
    · exact Or.inl ⟨rfl,hno,hrun⟩
    · cases hq
      exact Or.inr ⟨rfl,hyes,hcode,hadd⟩

/-- A program succeeds exactly when its last call did not fail. -/
theorem orComplain_code_eq_zero {r : Vfs F×ℤ} {message : String} :
    (orComplain r message).code=0 ↔ ¬r.2<0 := by
  unfold orComplain
  split_ifs with hr
  · exact iff_of_false (by decide : (1 : ℤ)≠0) (not_not.mpr hr)
  · exact iff_of_true rfl hr

/-- A copy that succeeds writes what was read into the destination. -/
theorem progCp_writes {call : F→Buf→Word→ℤ×Buf} {stack : Buf} {s : Vfs F} {name src dst : CStr}
    {rest : List CStr} (hok : (progCp call stack s (name::src::dst::rest)).code=0) :
    ¬(vfsRead call s (some src) (some stack) 1024).1<0 ∧
      ∃ j,vfsLookup (ensureFile s dst).1 (some dst)=some j ∧
        (progCp call stack s (name::src::dst::rest)).vfs=afterWrite (ensureFile s dst).1 j
          (stored (readBuf stack (vfsRead call s (some src) (some stack) 1024))
            (BitVec.ofInt 32 (vfsRead call s (some src) (some stack) 1024).1)) := by
  unfold progCp at hok⊢
  dsimp only at hok⊢
  by_cases hread : (vfsRead call s (some src) (some stack) 1024).1<0
  · rw [if_pos hread] at hok
    exact absurd hok (by decide : (1 : ℤ)≠0)
  · rw [if_neg hread] at hok⊢
    by_cases hr : (ensureFile s dst).2<0
    · rw [if_pos hr] at hok
      exact absurd hok (by decide : (1 : ℤ)≠0)
    · rw [if_neg hr] at hok⊢
      have hwrite := orComplain_code_eq_zero.mp hok
      refine ⟨hread,?_⟩
      rw [orComplain_vfs]
      rcases vfsWrite_cases (ensureFile s dst).1 dst
        (readBuf stack (vfsRead call s (some src) (some stack) 1024))
        (BitVec.ofInt 32 (vfsRead call s (some src) (some stack) 1024).1) with ⟨hfail,_⟩|⟨j,hj,_,hrun⟩
      · rw [hfail] at hwrite
        exact absurd (show (-1 : ℤ)<0 by decide) hwrite
      · exact ⟨j,hj,congrArg Prod.fst hrun⟩

/-- The bytes of a small file are its content. -/
theorem fileBytes_eq_content {s : Vfs F} (h : FilesOk s) {i : Slot} {v : NodeView F}
    (hv : table s i=some v) (ht : v.type=.file) (hr : v.read=none) :
    fileBytes s i=v.content.bytes ∧ v.content.bytes.length≤1023 := by
  obtain ⟨hlen,hle⟩ := h.small i v hv ht hr
  refine ⟨?_,by omega⟩
  obtain ⟨_,rfl⟩ := table_eq_some_iff.mp hv
  have hsize : (s.nodes i).size.toNat=(nodeContent s (s.nodes i)).bytes.length := hlen.symm
  unfold fileBytes
  rw [hsize]
  change _=(nodeContent s (s.nodes i)).bytes
  have hshort : (nodeContent s (s.nodes i)).bytes.length≤1023 := hsize▸hle
  revert hshort
  unfold nodeContent
  cases hd : (s.nodes i).data with
  | none => exact fun _ => rfl
  | some r =>
    rw [h.shape.ownRow i r hd]
    dsimp only
    intro hshort
    apply List.ext_getElem
    · simp
    · intro k hk hk'
      have hk4 : k<4096 := by omega
      rw [getElem_rowStr _ hk' hk4]
      simp [hk4]

/-- So are those of a regular file, which is visible by its type. -/
theorem fileBytes_of_type {s : Vfs F} (h : FilesOk s) {i : Slot} (ht : (s.nodes i).type=.file)
    (hr : (s.nodes i).read=none) :
    fileBytes s i=(nodeContent s (s.nodes i)).bytes ∧ (nodeContent s (s.nodes i)).bytes.length≤1023 := by
  have hlive : (s.nodes i).type≠.unused := by
    rw [ht]
    decide
  exact fileBytes_eq_content h (table_of_live h.shape hlive) ht hr

/-- Every regular file holds at most 1023 bytes, none of them NUL. -/
def FilesCopyable (s : Vfs F) : Prop :=
  ∀ i,(s.nodes i).type=.file→(s.nodes i).read=none→
    (fileBytes s i).length≤1023 ∧ (0 : Byte)∉fileBytes s i

/-- Small files are copyable. -/
theorem copyable_of_filesOk {s : Vfs F} (h : FilesOk s) : FilesCopyable s := by
  intro i ht hr
  obtain ⟨hbytes,hlen⟩ := fileBytes_of_type h ht hr
  rw [hbytes]
  exact ⟨hlen,CStr.nonzero _⟩

/-- The destination holds exactly what the source held, and a source with
another path is still found and unchanged. -/
structure CopyExact (s t : Vfs F) (src dst : CStr) (i : Slot) : Prop where
  /-- The destination's content. -/
  content : ∃ j,vfsLookup t (some dst)=some j ∧ fileBytes t j=fileBytes s i
  /-- The source. -/
  source : dst≠src→ vfsLookup t (some src)=some i ∧ SlotSame s t i

/-- What is read at once from a small file is its whole content. -/
theorem vfsRead_whole {s : Vfs F} (h : FilesOk s) {call : F→Buf→Word→ℤ×Buf} {stack : Buf} {src : CStr}
    {i : Slot} (hl : vfsLookup s (some src)=some i) (ht : (s.nodes i).type=.file)
    (hr : (s.nodes i).read=none) (hok : ¬(vfsRead call s (some src) (some stack) 1024).1<0) :
    (fileBytes s i).length≤1023 ∧ vfsRead call s (some src) (some stack) 1024=
      (((fileBytes s i).length : ℤ),some (fillBuf stack (fileBytes s i))) := by
  obtain ⟨hbytes,hlen⟩ := fileBytes_of_type h ht hr
  rw [hbytes]
  refine ⟨hlen,?_⟩
  rcases vfsRead_cases call s src stack (by decide : (1024 : Word)≠0) (by decide) with
    ⟨hfail,_⟩|⟨j,hj,_,⟨f,hf,_⟩|⟨_,hrun⟩⟩
  · rw [hfail] at hok
    exact absurd (show (-1 : ℤ)<0 by decide) hok
  · cases hl.symm.trans hj
    rw [hr] at hf
    cases hf
  · cases hl.symm.trans hj
    have hwhole : (nodeContent s (s.nodes i)).take ((1024 : Word).toNat-1)=nodeContent s (s.nodes i) :=
      CStr.take_of_length_le hlen
    rw [hrun,hwhole]

/-- What vfs_write stores of a buffer that was filled with few bytes. -/
theorem stored_fillBuf (stack : Buf) {bytes : List Byte} (hlen : bytes.length≤1023) :
    stored (fillBuf stack bytes) (BitVec.ofInt 32 bytes.length)=bytes := by
  have hsize : writtenSize (BitVec.ofInt 32 bytes.length)=bytes.length := by
    rw [BitVec.ofInt_natCast,writtenSize_small hlen]
  rw [stored,hsize,map_fillBuf]

/-- Creating the destination keeps where the source's path leads and its
slot. -/
theorem ensureFile_keeps {s : Vfs F} (h : Shape s) (dst : CStr) {src : CStr} {i : Slot}
    (hl : vfsLookup s (some src)=some i) :
    vfsLookup (ensureFile s dst).1 (some src)=some i ∧ SlotSame s (ensureFile s dst).1 i := by
  rcases ensureFile_cases h dst with ⟨_,hrun⟩|⟨_,_,hrun⟩|⟨_,_,_,hadd⟩
  · rw [hrun]
    exact ⟨hl,.refl s i⟩
  · rw [hrun]
    exact ⟨hl,.refl s i⟩
  · refine ⟨vfsLookup_adds hadd hl,?_⟩
    obtain ⟨_,⟨v,hv,_⟩,_⟩ := vfsLookup_eq_some_iff.mp hl
    have hlt := (table_eq_some_iff.mp hv).1.1
    unfold ensureFile
    split_ifs with hdst
    · exact .refl s i
    · exact performCall_slotSame s (.mkfile (some dst) (some .empty)) (Nat.ne_of_lt hlt)

/-- Different paths lead to different nodes. -/
theorem vfsLookup_ne {s : Vfs F} {p q : CStr} {i j : Slot} (hp : vfsLookup s (some p)=some i)
    (hq : vfsLookup s (some q)=some j) (hne : p≠q) : i≠j := by
  rintro rfl
  obtain ⟨_,⟨v,hv,hvp⟩,_⟩ := vfsLookup_eq_some_iff.mp hp
  obtain ⟨_,⟨w,hw,hwq⟩,_⟩ := vfsLookup_eq_some_iff.mp hq
  rw [hv] at hw
  cases hw
  exact hne (hvp.symm.trans hwq)

/-- Writing another file. -/
theorem slotSame_afterWrite (s : Vfs F) {i j : Slot} (hj : i≠j) (bytes : List Byte) :
    SlotSame s (afterWrite s j bytes) i :=
  (slotSame_setRow s hj bytes 1).trans (slotSame_setNode _ hj _)

/-- A copy that succeeds is exact. -/
theorem progCp_exact {s : Vfs F} (h : FilesOk s) {call : F→Buf→Word→ℤ×Buf} {stack : Buf}
    {name src dst : CStr} {rest : List CStr}
    (hok : (progCp call stack s (name::src::dst::rest)).code=0) {i : Slot}
    (hl : vfsLookup s (some src)=some i) (ht : (s.nodes i).type=.file) (hr : (s.nodes i).read=none) :
    CopyExact s (progCp call stack s (name::src::dst::rest)).vfs src dst i := by
  obtain ⟨hread,j,hj,hrun⟩ := progCp_writes hok
  obtain ⟨hlen,hwhole⟩ := vfsRead_whole h hl ht hr hread
  have hstored : stored (readBuf stack (vfsRead call s (some src) (some stack) 1024))
      (BitVec.ofInt 32 (vfsRead call s (some src) (some stack) 1024).1)=fileBytes s i := by
    rw [hwhole]
    exact stored_fillBuf stack hlen
  obtain ⟨hsrc,hsame⟩ := ensureFile_keeps h.shape dst hl
  rw [hrun,hstored]
  constructor
  · refine ⟨j,?_,fileBytes_afterWrite _ j (by omega)⟩
    rw [vfsLookup_afterWrite]
    exact hj
  · intro hne
    have hij : i≠j := vfsLookup_ne hsrc hj (Ne.symm hne)
    rw [vfsLookup_afterWrite]
    exact ⟨hsrc,hsame.trans (slotSame_afterWrite _ hij _)⟩

/-- Whatever lines were entered, every regular file holds at most 1023 bytes
without NUL, and a copy of a regular file that succeeds is exact. -/
theorem shell_files_copyable (lines : List CommandLine) :
    FilesCopyable (shellRun lines) ∧
      ∀ (mach : Machine) (stack : Buf) (name src dst : CStr) (rest : List CStr) (i : Slot),
        (progCp (procCall mach) stack (shellRun lines) (name::src::dst::rest)).code=0→
        vfsLookup (shellRun lines) (some src)=some i→
        ((shellRun lines).nodes i).type=.file→((shellRun lines).nodes i).read=none→
        CopyExact (shellRun lines)
          (progCp (procCall mach) stack (shellRun lines) (name::src::dst::rest)).vfs src dst i := by
  have h := shellRun_filesOk lines
  exact ⟨copyable_of_filesOk h,fun mach stack name src dst rest i hok hl ht hr => progCp_exact h hok hl ht hr⟩

/-- A machine that reports nothing. -/
def silentMachine : Machine := ⟨fun _ => ⟨0,0,0,0⟩,0,0,0,0⟩

/-- The files that the shell starts with: the host name can be copied, and
/tmp is a directory. -/
theorem shellRun_start :
    (progCp (procCall silentMachine) (fun _ => 0) (shellRun [])
      [.lit "cp",.lit "/etc/hostname",.lit "/tmp/name"]).code=0 ∧
    vfsLookup (shellRun []) (some (.lit "/etc/hostname"))=some 8 ∧
    ((shellRun []).nodes 8).type=.file ∧ ((shellRun []).nodes 8).read=none ∧
    Creatable (shellRun []) (some (.lit "/tmp")) ∧
    vfsLookup (shellRun []) (some (.lit "/tmp"))=some 6 ∧ ((shellRun []).nodes 6).type=.dir := by
  decide +kernel

/-- Copying the host name right after the start. -/
theorem shell_copies_hostname : CopyExact (shellRun [])
    (progCp (procCall silentMachine) (fun _ => 0) (shellRun [])
      [.lit "cp",.lit "/etc/hostname",.lit "/tmp/name"]).vfs (.lit "/etc/hostname") (.lit "/tmp/name") 8 := by
  obtain ⟨hok,hl,ht,hr,_⟩ := shellRun_start
  exact (shell_files_copyable []).2 silentMachine (fun _ => 0) _ _ _ [] 8 hok hl ht hr

/-- A program that returns 1 has changed nothing. -/
def Clean (s : Vfs F) (o : Outcome F) : Prop := o.code=1→ o.vfs=s

/-- A path leads nowhere, a file can be created under it, and its stored path
is cut. -/
def CreatesCut (s : Vfs F) (p : CStr) : Prop :=
  vfsLookup s (some p)=none ∧ Creatable s (some p) ∧ 128≤p.bytes.length

/-- A node can be created under a path that leads to one which can neither be
read nor written. -/
def CreatesSecond (s : Vfs F) (p : CStr) : Prop :=
  Creatable s (some p) ∧
    ∃ i,vfsLookup s (some p)=some i ∧ Unreadable (s.nodes i) ∧ ¬WritableNode (s.nodes i)

/-- A program creates a node and then fails to write it. -/
def LeavesNode (s : Vfs F) : FileProgram→List CStr→Prop
  | .write,_::file::_::_ => CreatesCut s file
  | .cp,_::src::dst::_ => (∃ i,vfsLookup s (some src)=some i ∧ ¬Unreadable (s.nodes i)) ∧ CreatesCut s dst
  | .append,_::file::_::_ => CreatesCut s file ∨ CreatesSecond s file
  | _,_ => False

/-- A complaint without a change. -/
theorem clean_complain (s : Vfs F) (message : String) : Clean s (complain s message) := fun _ => rfl

/-- A program whose last call fails without effect. -/
theorem clean_orComplain {s : Vfs F} {r : Vfs F×ℤ} (message : String) (h : r.2<0→ r.1=s) :
    Clean s (orComplain r message) := by
  unfold orComplain
  split_ifs with hr
  · exact fun _ => h hr
  · exact fun he => absurd he (by decide : (0 : ℤ)≠1)

/-- A creating call as the last call of a program. -/
theorem negative_of_creates {s : Vfs F} {path : Option CStr} {r : Vfs F×ℤ} {v : CStr→NodeView F}
    (h : Creates s path r 0 v) : r.2<0→ r.1=s := by
  rcases h with ⟨_,hrun⟩|⟨_,_,_,hcode,_⟩
  · rw [hrun]
    exact fun _ => rfl
  · rw [hcode]
    exact fun he => absurd he (lt_irrefl 0)

/-- A node more is a change. -/
theorem ne_of_adds {s t : Vfs F} {v : NodeView F} (h : Adds s t v) : t≠s := by
  rintro rfl
  obtain ⟨_,_,hcount,_⟩ := h
  omega

/-- A complaint after a node was created. -/
theorem not_clean_of_adds {s t : Vfs F} {v : NodeView F} (h : Adds s t v) (message : String) :
    ¬Clean s (orComplain (t,-1) message) :=
  fun hc => ne_of_adds h (hc rfl)

/-- A fresh file can be written. -/
theorem writableNode_of_emptyFile {t : Vfs F} {i : Slot} {p : CStr} (hv : table t i=some (emptyFile p)) :
    WritableNode (t.nodes i) := by
  have hview := (table_eq_some_iff.mp hv).2
  have hperm : (t.nodes i).perm=vfsPermRead|||vfsPermWrite := congrArg NodeView.perm hview
  refine ⟨congrArg NodeView.type hview,congrArg NodeView.read hview,?_⟩
  rw [hperm]
  decide

/-- A file created under a path that led nowhere can be written when its path
is stored whole. -/
theorem created_writable {s t : Vfs F} {p : CStr} (hl : vfsLookup s (some p)=none)
    (hc : Creatable s (some p)) (hadd : Adds s t (emptyFile p)) (hlen : p.bytes.length<128) :
    ∃ j,vfsLookup t (some p)=some j ∧ WritableNode (t.nodes j) := by
  have hpath : (emptyFile p : NodeView F).path=p := CStr.take_of_length_le (by omega)
  obtain ⟨j,hj,hv⟩ := vfsLookup_adds_new hadd (by rw [hpath]; exact hc.1) (by rw [hpath]; exact hl)
  rw [hpath] at hj
  exact ⟨j,hj,writableNode_of_emptyFile hv⟩

/-- A file created under a path that led nowhere is not found when its path
was cut. -/
theorem created_cut {s t : Vfs F} {p : CStr} (hl : vfsLookup s (some p)=none)
    (hadd : Adds s t (emptyFile p)) (hlen : ¬p.bytes.length<128) : vfsLookup t (some p)=none := by
  refine vfsLookup_adds_other hadd ?_ hl
  intro he
  have hle : (p.take 127).bytes.length≤127 := List.length_take_le _ _
  rw [show p.take 127=p from he] at hle
  omega

/-- The path leads to a file that may be written. -/
def WritableAt (s : Vfs F) (p : CStr) : Prop := ∃ i,vfsLookup s (some p)=some i ∧ WritableNode (s.nodes i)

/-- After an empty file was created under a path, the path leads to a file
that may be written if it led to one before, or if it led nowhere and is
stored whole. -/
theorem writableAt_created {s t : Vfs F} {p : CStr} (hc : Creatable s (some p))
    (hadd : Adds s t (emptyFile p)) (hnode : ∀ i,vfsLookup s (some p)=some i→t.nodes i=s.nodes i) :
    WritableAt t p ↔ WritableAt s p ∨ vfsLookup s (some p)=none ∧ p.bytes.length<128 := by
  cases hl : vfsLookup s (some p) with
  | none =>
    have hs : ¬WritableAt s p := by
      rintro ⟨i,hi,_⟩
      rw [hl] at hi
      cases hi
    by_cases hlen : p.bytes.length<128
    · exact iff_of_true (created_writable hl hc hadd hlen) (Or.inr ⟨rfl,hlen⟩)
    · have hcut := created_cut hl hadd hlen
      refine iff_of_false ?_ fun hor => hor.elim hs fun hshort => hlen hshort.2
      rintro ⟨i,hi,_⟩
      rw [hcut] at hi
      cases hi
  | some i =>
    have hi := vfsLookup_adds hadd hl
    constructor
    · rintro ⟨j,hj,hw⟩
      cases hi.symm.trans hj
      exact Or.inl ⟨i,hl,hnode i hl▸hw⟩
    · rintro (⟨j,hj,hw⟩|⟨hnone,_⟩)
      · cases hl.symm.trans hj
        exact ⟨i,hi,(hnode i hl).symm▸hw⟩
      · cases hnone

/-- A write after a node was created. -/
theorem clean_write_added {s t : Vfs F} {v : NodeView F} (hadd : Adds s t v) (p : CStr) (d : Buf) (n : Word)
    (message : String) :
    Clean s (orComplain (vfsWrite t (some p) (some d) n) message) ↔ WritableAt t p := by
  rcases vfsWrite_cases t p d n with ⟨hfail,hno⟩|⟨i,hi,hw,hrun⟩
  · rw [hfail]
    refine iff_of_false (not_clean_of_adds hadd message) ?_
    rintro ⟨i,hi,hw⟩
    exact hno i hi hw
  · rw [hrun]
    refine iff_of_true (clean_orComplain message fun hneg => ?_) ⟨i,hi,hw⟩
    dsimp only at hneg
    omega

/-- Creating a file keeps the node that its path led to. -/
theorem vfsMkfile_node {s : Vfs F} {p : CStr} (content : Option CStr) {i : Slot}
    (hi : vfsLookup s (some p)=some i) : (vfsMkfile s (some p) content).1.nodes i=s.nodes i := by
  obtain ⟨_,⟨v,hv,_⟩,_⟩ := vfsLookup_eq_some_iff.mp hi
  have hlt := Nat.ne_of_lt (table_eq_some_iff.mp hv).1.1
  exact (performCall_slotSame s (.mkfile (some p) content) hlt).node

/-- A write of a file that is created if its path leads nowhere. -/
theorem clean_ensure_write {s : Vfs F} (h : Shape s) (p : CStr) (d : Buf) (n : Word) (m₁ m₂ : String) :
    Clean s (if (ensureFile s p).2<0 then complain (ensureFile s p).1 m₁
      else orComplain (vfsWrite (ensureFile s p).1 (some p) (some d) n) m₂) ↔ ¬CreatesCut s p := by
  rcases ensureFile_cases h p with ⟨⟨i,hi⟩,hrun⟩|⟨_,hno,hrun⟩|⟨hl,hyes,hcode,hadd⟩
  · rw [hrun,if_neg (lt_irrefl 0)]
    refine iff_of_true (clean_orComplain m₂ (vfsWrite_atomic s _ _ _)) fun hcut => ?_
    rw [hcut.1] at hi
    cases hi
  · rw [hrun,if_pos (show (-1 : ℤ)<0 by decide)]
    exact iff_of_true (clean_complain s m₁) fun hcut => hno hcut.2.1
  · have hnowhere : ∀ (i : Slot) (q : Prop),vfsLookup s (some p)=some i→ q := by
      intro i q hi
      rw [hl] at hi
      cases hi
    rw [hcode,if_neg (lt_irrefl 0),clean_write_added hadd,
      writableAt_created hyes hadd fun i hi => hnowhere i _ hi]
    constructor
    · rintro (⟨i,hi,_⟩|⟨_,hlt⟩) hcut
      · exact hnowhere i _ hi
      · exact absurd hcut.2.2 (Nat.not_le.mpr hlt)
    · intro hcut
      exact Or.inr ⟨hl,Nat.not_le.mp fun hle => hcut ⟨hl,hyes,hle⟩⟩

/-- A read that fails found no node that may be read. -/
theorem vfsRead_negative_iff {call : F→Buf→Word→ℤ×Buf} (hcall : ReadersOk call) (s : Vfs F) (p : CStr)
    (stack : Buf) : (vfsRead call s (some p) (some stack) 1024).1<0 ↔
      ∀ i,vfsLookup s (some p)=some i→Unreadable (s.nodes i) := by
  rcases vfsRead_cases call s p stack (by decide : (1024 : Word)≠0) (by decide) with
    ⟨hfail,hun⟩|⟨i,hi,hok,⟨f,_,hrun⟩|⟨_,hrun⟩⟩
  · rw [hfail]
    exact iff_of_true (show (-1 : ℤ)<0 by decide) hun
  · obtain ⟨k,hk,_⟩ := hcall f stack 1024 (by decide)
    rw [hrun,hk]
    exact iff_of_false (by omega) fun hun => hok (hun i hi)
  · rw [hrun]
    exact iff_of_false (by dsimp only; omega) fun hun => hok (hun i hi)

/-- prog_write. -/
theorem progWrite_clean_iff {s : Vfs F} (h : Shape s) (stack : Buf) (argv : List CStr) :
    Clean s (progWrite stack s argv) ↔ ¬LeavesNode s .write argv := by
  match argv with
  | _::file::_::_ => exact clean_ensure_write h file _ _ _ _
  | [] | [_] | [_,_] => exact iff_of_true (clean_complain s _) id

/-- prog_cp. -/
theorem progCp_clean_iff {s : Vfs F} (h : Shape s) {call : F→Buf→Word→ℤ×Buf} (hcall : ReadersOk call)
    (stack : Buf) (argv : List CStr) :
    Clean s (progCp call stack s argv) ↔ ¬LeavesNode s .cp argv := by
  match argv with
  | _::src::dst::_ =>
    unfold progCp
    dsimp only
    by_cases hread : (vfsRead call s (some src) (some stack) 1024).1<0
    · rw [if_pos hread]
      refine iff_of_true (clean_complain s _) ?_
      rintro ⟨⟨i,hi,hok⟩,_⟩
      exact hok ((vfsRead_negative_iff hcall s src stack).mp hread i hi)
    · rw [if_neg hread,clean_ensure_write h]
      have hreadable : ∃ i,vfsLookup s (some src)=some i ∧ ¬Unreadable (s.nodes i) := by
        by_contra hno
        refine hread ((vfsRead_negative_iff hcall s src stack).mpr fun i hi => ?_)
        by_contra hok
        exact hno ⟨i,hi,hok⟩
      exact not_congr ⟨fun hcut => ⟨hreadable,hcut⟩,fun hleaves => hleaves.2⟩
  | [] | [_] | [_,_] => exact iff_of_true (clean_complain s _) id

/-- What prog_append does when it cannot read the file. -/
theorem clean_append_unread {s : Vfs F} (h : Shape s) {p : CStr}
    (hun : ∀ i,vfsLookup s (some p)=some i→Unreadable (s.nodes i)) (d : Buf) (n : Word) (m₁ m₂ : String) :
    Clean s (if (vfsMkfile s (some p) (some .empty)).2<0 then complain (vfsMkfile s (some p) (some .empty)).1 m₁
      else orComplain (vfsWrite (vfsMkfile s (some p) (some .empty)).1 (some p) (some d) n) m₂) ↔
      ¬(CreatesCut s p ∨ CreatesSecond s p) := by
  rcases vfsMkfile_empty h p with ⟨hno,hrun⟩|⟨q,hq,hyes,hcode,hadd⟩
  · rw [hrun,if_pos (show (-1 : ℤ)<0 by decide)]
    refine iff_of_true (clean_complain s m₁) ?_
    rintro (hcut|hsecond)
    · exact hno hcut.2.1
    · exact hno hsecond.1
  · cases hq
    rw [hcode,if_neg (lt_irrefl 0),clean_write_added hadd,
      writableAt_created hyes hadd fun i hi => vfsMkfile_node (some .empty) hi]
    constructor
    · rintro (⟨i,hi,hw⟩|⟨hl,hlt⟩) (hcut|⟨_,j,hj,_,hno⟩)
      · rw [hcut.1] at hi
        cases hi
      · cases hi.symm.trans hj
        exact hno hw
      · exact absurd hcut.2.2 (Nat.not_le.mpr hlt)
      · rw [hl] at hj
        cases hj
    · intro hleaves
      cases hl : vfsLookup s (some p) with
      | none => exact Or.inr ⟨rfl,Nat.not_le.mp fun hle => hleaves (Or.inl ⟨hl,hyes,hle⟩)⟩
      | some i =>
        left
        by_contra hw
        exact hleaves (Or.inr ⟨hyes,i,hl,hun i hl,fun hwi => hw ⟨i,hl,hwi⟩⟩)

/-- prog_append. -/
theorem progAppend_clean_iff {s : Vfs F} (h : Shape s) {call : F→Buf→Word→ℤ×Buf} (hcall : ReadersOk call)
    (stack : Buf) (argv : List CStr) :
    Clean s (progAppend call stack s argv) ↔ ¬LeavesNode s .append argv := by
  match argv with
  | _::file::_::_ =>
    unfold progAppend
    dsimp only
    by_cases hread : (vfsRead call s (some file) (some stack) 1024).1<0
    · rw [if_pos hread]
      exact clean_append_unread h ((vfsRead_negative_iff hcall s file stack).mp hread) _ _ _ _
    · rw [if_neg hread]
      refine iff_of_true (clean_orComplain _ (vfsWrite_atomic s _ _ _)) ?_
      rw [vfsRead_negative_iff hcall] at hread
      rintro (hcut|⟨_,i,hi,hun,_⟩)
      · refine hread fun i hi => ?_
        rw [hcut.1] at hi
        cases hi
      · refine hread fun j hj => ?_
        cases hi.symm.trans hj
        exact hun
  | [] | [_] | [_,_] => exact iff_of_true (clean_complain s _) id

/-- prog_touch. -/
theorem progTouch_clean {s : Vfs F} (h : Shape s) (argv : List CStr) : Clean s (progTouch s argv) := by
  unfold progTouch
  split
  · split_ifs with hl
    · exact fun _ => rfl
    · exact clean_orComplain _ (negative_of_creates (vfsMkfile_empty h _))
  · exact clean_complain s _

/-- prog_rm. -/
theorem progRm_clean (s : Vfs F) (argv : List CStr) : Clean s (progRm s argv) := by
  unfold progRm
  split
  · exact clean_orComplain _ (vfsRemove_atomic s _)
  · exact clean_complain s _

/-- prog_mv. -/
theorem progMv_clean (s : Vfs F) (argv : List CStr) : Clean s (progMv s argv) := by
  unfold progMv
  split
  · exact clean_orComplain _ (vfsRename_atomic s _ _)
  · exact clean_complain s _

/-- prog_mkdir. -/
theorem progMkdir_clean {s : Vfs F} (h : Shape s) (argv : List CStr) : Clean s (progMkdir s argv) := by
  unfold progMkdir
  split
  · exact clean_orComplain _ (negative_of_creates (vfsMkdir_creates h _))
  · exact clean_complain s _

/-- prog_chmod. -/
theorem progChmod_clean (s : Vfs F) (argv : List CStr) : Clean s (progChmod s argv) := by
  unfold progChmod
  split
  · split
    · split_ifs with hd
      · exact clean_complain s _
      · exact clean_orComplain _ (vfsChmod_atomic s _ _)
    · exact clean_complain s _
  · exact clean_complain s _

/-- Whatever lines were entered, a program with any arguments that returns 1
has changed nothing, except where it creates a node that it then fails to
write. -/
theorem shell_fails_clean_iff (lines : List CommandLine) (mach : Machine) (stack : Buf)
    (prog : FileProgram) (argv : List CStr) :
    Clean (shellRun lines) (runProgram (procCall mach) stack prog (shellRun lines) argv) ↔
      ¬LeavesNode (shellRun lines) prog argv := by
  have h := (shellRun_filesOk lines).shape
  cases prog with
  | touch => exact iff_of_true (progTouch_clean h argv) id
  | write => exact progWrite_clean_iff h stack argv
  | rm => exact iff_of_true (progRm_clean _ argv) id
  | mv => exact iff_of_true (progMv_clean _ argv) id
  | mkdir => exact iff_of_true (progMkdir_clean h argv) id
  | chmod => exact iff_of_true (progChmod_clean _ argv) id
  | cp => exact progCp_clean_iff h (procCall_ok mach) stack argv
  | append => exact progAppend_clean_iff h (procCall_ok mach) stack argv

/-- A second node under a path that can neither be read nor written. -/
theorem not_clean_append_second {s : Vfs F} (h : Shape s) {call : F→Buf→Word→ℤ×Buf}
    (hcall : ReadersOk call) (stack : Buf) {name file w : CStr} {ws : List CStr}
    (hsecond : CreatesSecond s file) :
    ¬Clean s (runProgram call stack .append s (name::file::w::ws)) := by
  intro hclean
  exact (progAppend_clean_iff h hcall stack (name::file::w::ws)).mp hclean (Or.inr hsecond)

/-- append /tmp x creates a second node under the path of a directory. -/
theorem append_to_directory_not_clean :
    ¬Clean (shellRun []) (runProgram (procCall silentMachine) (fun _ => 0) .append (shellRun [])
      [.lit "append",.lit "/tmp",.lit "x"]) := by
  refine not_clean_append_second (shellRun_filesOk []).shape (procCall_ok silentMachine) _ ?_
  obtain ⟨_,_,_,_,hc,hl,ht⟩ := shellRun_start
  refine ⟨hc,6,hl,Or.inl ht,fun hw => ?_⟩
  rw [hw.type] at ht
  cases ht

end EronKernel.ShellCommands

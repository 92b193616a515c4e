import EronKernel.VfsTable

/-!
# Contents of files, written, read and found again

What vfs_write and vfs_read do to the bytes of a file, without regard to the
rest of the node array, and where a path leads after a node was created or a
content was written.
-/

namespace EronKernel.VfsContents

open ByteMemory CString VfsModel VfsTable

variable {F : Type}

/-- What vfs_write stores of its data. -/
def stored (d : Buf) (n : Word) : List Byte := (List.range (writtenSize n)).map d

/-- The number of bytes that are stored. -/
theorem length_stored (d : Buf) (n : Word) : (stored d n).length=writtenSize n := by
  rw [stored,List.length_map,List.length_range]

/-- What is stored fits a row. -/
theorem length_stored_lt (d : Buf) (n : Word) : (stored d n).length<4096 := by
  rw [length_stored]
  exact writtenSize_lt n

/-- A node that vfs_write accepts. -/
structure WritableNode (n : VfsNode F) : Prop where
  /-- It is a file. -/
  type : n.type=.file
  /-- It is not a proc file. -/
  read : n.read=none
  /-- It may be written. -/
  perm : n.perm&&&vfsPermWrite≠0

/-- The state after a write that is not refused. -/
def afterWrite (s : Vfs F) (i : Slot) (bytes : List Byte) : Vfs F :=
  (s.setRow i bytes 1).setNode i {s.nodes i with data := some i, size := BitVec.ofNat 32 bytes.length}

/-- vfs_write stores its data in the file that the path leads to, or fails
because there is none that it accepts. -/
theorem vfsWrite_cases (s : Vfs F) (p : CStr) (d : Buf) (n : Word) :
    (vfsWrite s (some p) (some d) n=(s,-1) ∧
      ∀ i,vfsLookup s (some p)=some i→¬WritableNode (s.nodes i)) ∨
    ∃ i,vfsLookup s (some p)=some i ∧ WritableNode (s.nodes i) ∧
      vfsWrite s (some p) (some d) n=(afterWrite s i (stored d n),(writtenSize n : ℤ)) := by
  unfold vfsWrite
  dsimp only
  cases hl : vfsLookup s (some p) with
  | none => exact Or.inl ⟨rfl,fun i hi => by cases hi⟩
  | some i =>
    dsimp only
    by_cases hf : (s.nodes i).type≠.file ∨ (s.nodes i).read.isSome=true
    · rw [if_pos hf]
      refine Or.inl ⟨rfl,fun j hj hw => ?_⟩
      cases hj
      rw [hw.type,hw.read] at hf
      simp at hf
    · obtain ⟨ht,hr⟩ := not_or.mp hf
      rw [if_neg hf]
      by_cases hp : (s.nodes i).perm&&&vfsPermWrite=0
      · rw [if_pos hp]
        refine Or.inl ⟨rfl,fun j hj hw => ?_⟩
        cases hj
        exact hw.perm hp
      · rw [if_neg hp]
        refine Or.inr ⟨i,rfl,⟨not_not.mp ht,Option.not_isSome_iff_eq_none.mp hr,hp⟩,?_⟩
        rw [afterWrite,length_stored]
        rfl

/-- vfs_write on a file that it accepts. -/
theorem vfsWrite_run {s : Vfs F} {p : CStr} {i : Slot} (hl : vfsLookup s (some p)=some i)
    (hw : WritableNode (s.nodes i)) (d : Buf) (n : Word) :
    vfsWrite s (some p) (some d) n=(afterWrite s i (stored d n),(writtenSize n : ℤ)) := by
  rcases vfsWrite_cases s p d n with ⟨_,hno⟩|⟨j,hj,_,hrun⟩
  · exact absurd hw (hno i hl)
  · cases hl.symm.trans hj
    exact hrun

/-- Replacing a node by one with the same path and type keeps every search. -/
theorem vfsLookup_setNode (s : Vfs F) (i : Slot) (n : VfsNode F) (hp : n.path=(s.nodes i).path)
    (ht : n.type=(s.nodes i).type) (path : Option CStr) :
    vfsLookup (s.setNode i n) path=vfsLookup s path := by
  have hnode : ∀ j,((s.setNode i n).nodes j).path=(s.nodes j).path ∧
      ((s.setNode i n).nodes j).type=(s.nodes j).type := by
    intro j
    by_cases hj : j=i
    · subst hj
      simp [Vfs.setNode,hp,ht]
    · simp [Vfs.setNode,hj]
  have hcount : (s.setNode i n).nodeCount=s.nodeCount := rfl
  unfold vfsLookup findPath
  simp only [hnode,hcount]

/-- A path is found where it was before a write. -/
theorem vfsLookup_afterWrite (s : Vfs F) (i : Slot) (bytes : List Byte) (path : Option CStr) :
    vfsLookup (afterWrite s i bytes) path=vfsLookup s path :=
  vfsLookup_setNode (s.setRow i bytes 1) i
    {s.nodes i with data := some i, size := BitVec.ofNat 32 bytes.length} rfl rfl path

/-- The node that was written. -/
theorem nodes_afterWrite (s : Vfs F) (i : Slot) (bytes : List Byte) :
    (afterWrite s i bytes).nodes i=
      {s.nodes i with data := some i, size := BitVec.ofNat 32 bytes.length} :=
  Function.update_self _ _ _

/-- The row that was written. -/
theorem fileDataPool_afterWrite (s : Vfs F) (i : Slot) (bytes : List Byte) :
    (afterWrite s i bytes).fileDataPool i=copyRow (s.fileDataPool i) bytes :=
  Function.update_self _ _ _

/-- What stands in the file after a write, up to the first NUL. -/
theorem nodeContent_afterWrite (s : Vfs F) (i : Slot) {bytes : List Byte} (hlen : bytes.length<4096) :
    nodeContent (afterWrite s i bytes) ((afterWrite s i bytes).nodes i)=.ofBytes bytes := by
  rw [nodes_afterWrite]
  unfold nodeContent
  dsimp only
  rw [fileDataPool_afterWrite,rowStr_copyRow _ hlen]

/-- A node that vfs_read refuses. -/
def Unreadable (n : VfsNode F) : Prop :=
  n.type=.dir ∨ n.perm&&&vfsPermRead=0 ∧ n.read=none

/-- vfs_read with a size that is not cut: it fails because there is no node
that it accepts, asks the read function, or copies the content. -/
theorem vfsRead_cases (call : F→Buf→Word→ℤ×Buf) (s : Vfs F) (p : CStr) (b : Buf) {size : Word}
    (hzero : size≠0) (hmax : size≤4096) :
    (vfsRead call s (some p) (some b) size=(-1,some b) ∧
      ∀ i,vfsLookup s (some p)=some i→Unreadable (s.nodes i)) ∨
    ∃ i,vfsLookup s (some p)=some i ∧ ¬Unreadable (s.nodes i) ∧
      ((∃ f,(s.nodes i).read=some f ∧
        vfsRead call s (some p) (some b) size=((call f b size).1,some (call f b size).2)) ∨
      (s.nodes i).read=none ∧ vfsRead call s (some p) (some b) size=
        ((((nodeContent s (s.nodes i)).take (size.toNat-1)).bytes.length : ℤ),
          some (fillBuf b ((nodeContent s (s.nodes i)).take (size.toNat-1)).bytes))) := by
  have hcut : ¬maxReadSize<size := BitVec.not_lt.mpr hmax
  unfold vfsRead
  dsimp only
  rw [if_neg hzero,if_neg hcut]
  cases hl : vfsLookup s (some p) with
  | none => exact Or.inl ⟨rfl,fun i hi => by cases hi⟩
  | some i =>
    dsimp only
    by_cases hd : (s.nodes i).type=.dir
    · rw [if_pos hd]
      refine Or.inl ⟨rfl,fun j hj => ?_⟩
      cases hj
      exact Or.inl hd
    · rw [if_neg hd]
      by_cases hp : (s.nodes i).perm&&&vfsPermRead=0 ∧ (s.nodes i).read.isNone=true
      · rw [if_pos hp]
        refine Or.inl ⟨rfl,fun j hj => ?_⟩
        cases hj
        exact Or.inr ⟨hp.1,Option.isNone_iff_eq_none.mp hp.2⟩
      · rw [if_neg hp]
        refine Or.inr ⟨i,rfl,?_,?_⟩
        · rintro (h|h)
          · exact hd h
          · exact hp ⟨h.1,by rw [h.2]; rfl⟩
        · cases hr : (s.nodes i).read with
          | some f => exact Or.inl ⟨f,rfl,rfl⟩
          | none => exact Or.inr ⟨rfl,rfl⟩

/-- A buffer starts with the bytes it was filled with. -/
theorem map_fillBuf (buf : Buf) (bytes : List Byte) :
    (List.range bytes.length).map (fillBuf buf bytes)=bytes := by
  apply List.ext_getElem
  · simp
  · intro k hk hk'
    simp [fillBuf,hk']

/-- The bytes of a file, as many as its length field says. -/
def fileBytes (s : Vfs F) (i : Slot) : List Byte :=
  (List.range (s.nodes i).size.toNat).map fun k =>
    if h : k<4096 then s.fileDataPool i ⟨k,h⟩ else 0

/-- The file holds what was written. -/
theorem fileBytes_afterWrite (s : Vfs F) (i : Slot) {bytes : List Byte} (hlen : bytes.length<4096) :
    fileBytes (afterWrite s i bytes) i=bytes := by
  have hsize : (BitVec.ofNat 32 bytes.length).toNat=bytes.length := by
    rw [BitVec.toNat_ofNat,Nat.mod_eq_of_lt (by omega)]
  unfold fileBytes
  rw [nodes_afterWrite,fileDataPool_afterWrite]
  dsimp only
  rw [hsize]
  apply List.ext_getElem
  · simp
  · intro k hk hk'
    have hk4 : k<4096 := by omega
    simp [copyRow,hk',hk4]

/-- A path leads to the first visible node that has it. -/
theorem vfsLookup_eq_some_iff {s : Vfs F} {p : CStr} {i : Slot} :
    vfsLookup s (some p)=some i ↔ isValidPath (some p)=true ∧ (∃ v,table s i=some v ∧ v.path=p) ∧
      ∀ j : Slot,j < i→∀ v,table s j=some v→ v.path≠p := by
  rw [←findPath_eq_some_iff]
  unfold vfsLookup
  split_ifs with hv
  · simp [hv,argBytes]
  · simp [hv]

/-- A node in the next slot hides no path. -/
theorem vfsLookup_adds {s t : Vfs F} {v : NodeView F} (h : Adds s t v) {p : CStr} {i : Slot}
    (hl : vfsLookup s (some p)=some i) : vfsLookup t (some p)=some i := by
  obtain ⟨k,hk,_,hput⟩ := h
  obtain ⟨hvalid,⟨w,hw,hp⟩,hfirst⟩ := vfsLookup_eq_some_iff.mp hl
  have hik : i.val < k.val := by
    rw [hk]
    exact (table_eq_some_iff.mp hw).1.1
  have hsame : ∀ j : Slot,j.val < k.val→table t j=table s j := by
    intro j hj
    rw [hput.table_eq,Function.update_of_ne (fun he => absurd hj (by rw [he]; omega))]
  refine vfsLookup_eq_some_iff.mpr ⟨hvalid,⟨w,(hsame i hik).trans hw,hp⟩,fun j hj u hu => ?_⟩
  have hji : j.val < i.val := hj
  exact hfirst j hj u ((hsame j (by omega)).symm.trans hu)

/-- A path that led nowhere leads to the node that was created under it. -/
theorem vfsLookup_adds_new {s t : Vfs F} {v : NodeView F} (h : Adds s t v)
    (hvalid : isValidPath (some v.path)=true) (hl : vfsLookup s (some v.path)=none) :
    ∃ i,vfsLookup t (some v.path)=some i ∧ table t i=some v := by
  obtain ⟨k,_,_,hput⟩ := h
  have hv : table t k=some v := by rw [hput.table_eq,Function.update_self]
  have hnone : ∀ i u,table s i=some u→ u.path≠v.path := by
    rcases vfsLookup_cases s (some v.path) with ⟨_,i,_,_,_,_,hsome,_⟩|⟨_,hno⟩
    · rw [hl] at hsome
      cases hsome
    · exact (hno _ rfl hvalid).2
  refine ⟨k,vfsLookup_eq_some_iff.mpr ⟨hvalid,⟨v,hv,rfl⟩,fun j hj u hu => ?_⟩,hv⟩
  rw [hput.table_eq,Function.update_of_ne (ne_of_lt hj)] at hu
  exact hnone j u hu

/-- A path that led nowhere still does when a node with another path was
created. -/
theorem vfsLookup_adds_other {s t : Vfs F} {v : NodeView F} (h : Adds s t v) {p : CStr}
    (hp : v.path≠p) (hl : vfsLookup s (some p)=none) : vfsLookup t (some p)=none := by
  obtain ⟨k,_,_,hput⟩ := h
  cases ht : vfsLookup t (some p) with
  | none => rfl
  | some i =>
    obtain ⟨hvalid,⟨w,hw,hwp⟩,_⟩ := vfsLookup_eq_some_iff.mp ht
    rw [hput.table_eq] at hw
    by_cases hi : i=k
    · subst hi
      rw [Function.update_self] at hw
      cases hw
      exact absurd hwp hp
    · rw [Function.update_of_ne hi] at hw
      rcases vfsLookup_cases s (some p) with ⟨_,j,_,_,_,_,hsome,_⟩|⟨_,hno⟩
      · rw [hl] at hsome
        cases hsome
      · exact absurd hwp ((hno _ rfl hvalid).2 i w hw)

end EronKernel.VfsContents

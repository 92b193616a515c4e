import EronKernel.VfsRefinement
import EronKernel.VfsShape

/-!
# Which slot an operation can touch

Every operation changes at most one slot: the next one when it creates a node,
or the one its path resolves to, and then only when the permission check of
that operation passes. Two facts follow: a regular file without the write
permission stays as it is until somebody changes its permissions, and a call
that fails changes nothing, with one exception.
-/

namespace EronKernel.VfsEffects

open ByteMemory CString VfsModel VfsTable VfsShape VfsRefinement

variable {F : Type}

/-- One slot with its row is the same in two states. -/
structure SlotSame (s t : Vfs F) (j : Slot) : Prop where
  /-- Every field of the node. -/
  node : t.nodes j=s.nodes j
  /-- Every byte of the row. -/
  row : t.fileDataPool j=s.fileDataPool j
  /-- The mark of the row. -/
  used : t.fileDataUsed j=s.fileDataUsed j

/-- The slot that a call may change. -/
def Touches (s : Vfs F) (j : Slot) : VfsCall F→Prop
  | .mkdir _ | .mkfile _ _ | .mkdev _ | .mkproc _ _ => j.val=s.nodeCount
  | .lookup _ | .read _ _ _ _ => False
  | .write path _ _ => vfsLookup s path=some j ∧ (s.nodes j).perm&&&vfsPermWrite≠0
  | .remove path => vfsLookup s path=some j ∧ (s.nodes j).perm&&&vfsPermWrite≠0
  | .rename oldPath _ => vfsLookup s oldPath=some j ∧
      ¬((s.nodes j).perm&&&vfsPermWrite=0 ∧ (s.nodes j).type=.file)
  | .chmod path _ => vfsLookup s path=some j

/-- Nothing changed. -/
theorem SlotSame.refl (s : Vfs F) (j : Slot) : SlotSame s s j := ⟨rfl,rfl,rfl⟩

/-- Two changes that spare the slot. -/
theorem SlotSame.trans {s t u : Vfs F} {j : Slot} (h : SlotSame s t j) (k : SlotSame t u j) :
    SlotSame s u j :=
  ⟨k.node.trans h.node,k.row.trans h.row,k.used.trans h.used⟩

/-- Replacing another node. -/
theorem slotSame_setNode (s : Vfs F) {i j : Slot} (hj : j≠i) (n : VfsNode F) :
    SlotSame s (s.setNode i n) j :=
  ⟨Function.update_of_ne hj _ _,rfl,rfl⟩

/-- Rewriting another row. -/
theorem slotSame_setRow (s : Vfs F) {i j : Slot} (hj : j≠i) (bytes : List Byte) (used : Byte) :
    SlotSame s (s.setRow i bytes used) j :=
  ⟨rfl,Function.update_of_ne hj _ _,Function.update_of_ne hj _ _⟩

/-- Naming another node. -/
theorem slotSame_nameNode (s : Vfs F) {i j : Slot} (hj : j≠i) (p : CStr) (type : VfsType) :
    SlotSame s (nameNode s i p type) j :=
  ⟨Function.update_of_ne hj _ _,rfl,rfl⟩

/-- Filling another file. -/
theorem slotSame_fillFile (s : Vfs F) {i j : Slot} (hj : j≠i) (bytes : List Byte) :
    SlotSame s (fillFile i s bytes) j :=
  (slotSame_setRow s hj bytes 1).trans (slotSame_setNode _ hj _)

/-- A creating call whose rest spares the other slots. -/
theorem makeNode_slotSame (s : Vfs F) (path : Option CStr) (type : VfsType)
    {rest : Slot→Vfs F→Vfs F×ℤ} {j : Slot} (hj : j.val≠s.nodeCount)
    (hrest : ∀ i t,j≠i→SlotSame t (rest i t).1 j) : SlotSame s (makeNode s path type rest).1 j := by
  rcases makeNode_cases s path type rest with ⟨_,hrun⟩|⟨p,_,_,i,hi,hrun⟩
  · rw [hrun]
    exact .refl s j
  · have hne : j≠i := by
      rintro rfl
      exact hj hi
    rw [hrun]
    exact (slotSame_nameNode s hne p type).trans (hrest i _ hne)

/-- vfs_write touches the node it found when that may be written. -/
theorem vfsWrite_slotSame (s : Vfs F) (path : Option CStr) (data : Option Buf) (size : Word) {j : Slot}
    (h : ¬(vfsLookup s path=some j ∧ (s.nodes j).perm&&&vfsPermWrite≠0)) :
    SlotSame s (vfsWrite s path data size).1 j := by
  unfold vfsWrite
  split
  · exact .refl s j
  · exact .refl s j
  · cases hl : vfsLookup s path with
    | none => exact .refl s j
    | some i =>
      dsimp only
      by_cases ht : (s.nodes i).type≠.file ∨ (s.nodes i).read.isSome
      · rw [if_pos ht]
        exact .refl s j
      · rw [if_neg ht]
        by_cases hp : (s.nodes i).perm&&&vfsPermWrite=0
        · rw [if_pos hp]
          exact .refl s j
        · rw [if_neg hp]
          have hne : j≠i := by
            rintro rfl
            exact h ⟨hl,hp⟩
          exact (slotSame_setRow s hne _ 1).trans (slotSame_setNode _ hne _)

/-- vfs_remove touches the node it found when that may be written. -/
theorem vfsRemove_slotSame (s : Vfs F) (path : Option CStr) {j : Slot}
    (h : ¬(vfsLookup s path=some j ∧ (s.nodes j).perm&&&vfsPermWrite≠0)) :
    SlotSame s (vfsRemove s path).1 j := by
  unfold vfsRemove
  cases hv : isValidPath path with
  | false => exact .refl s j
  | true =>
    rw [vfsLookup,if_pos hv] at h
    simp only [Bool.not_true,Bool.false_eq_true,if_false]
    cases hf : findPath s (argBytes path) with
    | none => exact .refl s j
    | some i =>
      dsimp only
      split_ifs with hp
      · exact .refl s j
      · have hne : j≠i := by
          rintro rfl
          exact h ⟨hf,hp⟩
        exact (slotSame_setRow s hne [] 0).trans (slotSame_setNode _ hne _)

/-- vfs_rename touches the node it found unless that is a file which may not
be written. -/
theorem vfsRename_slotSame (s : Vfs F) (oldPath newPath : Option CStr) {j : Slot}
    (h : ¬(vfsLookup s oldPath=some j ∧
      ¬((s.nodes j).perm&&&vfsPermWrite=0 ∧ (s.nodes j).type=.file))) :
    SlotSame s (vfsRename s oldPath newPath).1 j := by
  unfold vfsRename
  split_ifs with hv
  · exact .refl s j
  · cases hl : vfsLookup s oldPath with
    | none => exact .refl s j
    | some i =>
      dsimp only
      split_ifs with hp
      · exact .refl s j
      · have hne : j≠i := by
          rintro rfl
          exact h ⟨hl,hp⟩
        cases hn : vfsLookup s newPath with
        | some k => exact .refl s j
        | none => exact slotSame_setNode s hne _

/-- vfs_chmod touches the node it found. -/
theorem vfsChmod_slotSame (s : Vfs F) (path : Option CStr) (perm : Half) {j : Slot}
    (h : vfsLookup s path≠some j) : SlotSame s (vfsChmod s path perm).1 j := by
  unfold vfsChmod
  cases hl : vfsLookup s path with
  | none => exact .refl s j
  | some i =>
    have hne : j≠i := by
      rintro rfl
      exact h hl
    exact slotSame_setNode s hne _

/-- A call leaves every slot alone that it does not touch. -/
theorem performCall_slotSame (s : Vfs F) (c : VfsCall F) {j : Slot} (h : ¬Touches s j c) :
    SlotSame s (performCall s c).1 j := by
  cases c with
  | mkdir path => exact makeNode_slotSame s path .dir h fun _ t _ => .refl t j
  | mkfile path content =>
    refine makeNode_slotSame s path .file h fun i t hne => ?_
    cases content with
    | none => exact slotSame_fillFile t hne []
    | some c =>
      dsimp only
      split_ifs with hlen
      · exact .refl t j
      · exact slotSame_fillFile t hne c.bytes
  | mkdev path => exact makeNode_slotSame s path .dev h fun _ t _ => .refl t j
  | mkproc path readFn =>
    exact makeNode_slotSame s path .file h fun i t hne => slotSame_setNode t hne _
  | lookup path => exact .refl s j
  | read call path buf size => exact .refl s j
  | write path data size => exact vfsWrite_slotSame s path data size h
  | remove path => exact vfsRemove_slotSame s path h
  | rename oldPath newPath => exact vfsRename_slotSame s oldPath newPath h
  | chmod path perm => exact vfsChmod_slotSame s path perm h

/-- A regular file that may not be written. -/
def ReadOnlyFile (s : Vfs F) (i : Slot) : Prop :=
  (s.nodes i).type=.file ∧ (s.nodes i).perm&&&vfsPermWrite=0

/-- The slot whose permissions an operation changes. -/
def chmodTarget (s : Vfs F) : VfsOp F→Option Slot
  | .call (.chmod path _) => vfsLookup s path
  | _ => none

/-- No operation of a run changes the permissions of the slot. -/
def ChmodsElsewhere (i : Slot) : Vfs F→List (VfsOp F)→Prop
  | _,[] => True
  | s,o::os => chmodTarget s o≠some i ∧ ChmodsElsewhere i (performOp s o) os

/-- Only a change of permissions touches a file that may not be written. -/
theorem ReadOnlyFile.performOp_slotSame {s : Vfs F} (h : Shape s) {i : Slot} (hro : ReadOnlyFile s i)
    (o : VfsOp F) (ho : chmodTarget s o≠some i) : SlotSame s (performOp s o) i := by
  have hlive : i.val≠s.nodeCount := by
    intro he
    have hun := (h.fresh i (Nat.le_of_eq he.symm)).1
    rw [hro.1] at hun
    cases hun
  cases o with
  | list dir max => exact .refl s i
  | call c =>
    refine performCall_slotSame s c ?_
    cases c with
    | mkdir _ | mkfile _ _ | mkdev _ | mkproc _ _ => exact hlive
    | lookup _ | read _ _ _ _ => exact id
    | write _ _ _ | remove _ => exact fun ht => ht.2 hro.2
    | rename _ _ => exact fun ht => ht.2 ⟨hro.2,hro.1⟩
    | chmod _ _ => exact ho

/-- A run that changes no permissions of it leaves a file alone that may not
be written. -/
theorem ReadOnlyFile.performOps_slotSame (i : Slot) (os : List (VfsOp F)) :
    ∀ {s : Vfs F},TableOk s→ReadOnlyFile s i→ChmodsElsewhere i s os→SlotSame s (performOps s os) i := by
  induction os with
  | nil => exact fun {s} _ _ _ => .refl s i
  | cons o os ih =>
    intro s h hro hcs
    have hstep := hro.performOp_slotSame h.shape o hcs.1
    have hro' : ReadOnlyFile (performOp s o) i := by
      unfold ReadOnlyFile
      rw [hstep.node]
      exact hro
    exact hstep.trans (ih (performOp_tableOk h o) hro' hcs.2)

/-- From any state that a run reaches, a regular file without the write
permission keeps its node and its whole row through any further operations,
as long as none of them is a change of permissions that resolves to it. -/
theorem read_only_file_immutable (before os : List (VfsOp F)) (i : Slot)
    (hfile : ((performOps (vfsInit (zeroed : Vfs F)) before).nodes i).type=.file)
    (hperm : ((performOps (vfsInit (zeroed : Vfs F)) before).nodes i).perm&&&vfsPermWrite=0)
    (hchmods : ChmodsElsewhere i (performOps (vfsInit (zeroed : Vfs F)) before) os) :
    SlotSame (performOps (vfsInit (zeroed : Vfs F)) before)
      (performOps (performOps (vfsInit (zeroed : Vfs F)) before) os) i :=
  ReadOnlyFile.performOps_slotSame i os (performOps_tableOk before tableOk_init) ⟨hfile,hperm⟩ hchmods

/-- Create two files and take the write permission from the first. -/
def protectFirst : List (VfsOp Unit) :=
  [.call (.mkfile (some pathA) (some .empty)),.call (.mkfile (some pathB) (some .empty)),
    .call (.chmod (some pathA) 1)]

/-- Try to write, remove and rename the first file, and change the permissions
of the second. -/
def attackFirst : List (VfsOp Unit) :=
  [.call (.write (some pathA) (some fun _ => 65) 3),.call (.remove (some pathA)),
    .call (.rename (some pathA) (some ⟨[0x2F,0x63],by decide⟩)),.call (.chmod (some pathB) 0)]

/-- The attempts on a protected file change nothing of it. -/
theorem read_only_file_immutable_protected :
    SlotSame (performOps (vfsInit zeroed) protectFirst)
      (performOps (performOps (vfsInit zeroed) protectFirst) attackFirst) 0 :=
  read_only_file_immutable protectFirst attackFirst 0 (by decide) (by decide)
    ⟨by decide,by decide,by decide,by decide,trivial⟩

/-- A failed call leaves the statics as they were. -/
def Atomic (s : Vfs F) (c : VfsCall F) : Prop :=
  (performCall s c).2=.code (-1)→(performCall s c).1=s

/-- The call is a vfs_mkfile that takes a slot for a content it then refuses. -/
def LeaksSlot (s : Vfs F) : VfsCall F→Prop
  | .mkfile path content => Creatable s path ∧ TooLong content
  | _ => False

/-- Success and failure have different codes. -/
theorem ok_ne_failed : (0 : ℤ)≠-1 := by decide

/-- A creating call whose rest never fails is atomic. -/
theorem makeNode_atomic (s : Vfs F) (path : Option CStr) (type : VfsType)
    {rest : Slot→Vfs F→Vfs F×ℤ} (hrest : ∀ i t,(rest i t).2=0) :
    (makeNode s path type rest).2=-1→(makeNode s path type rest).1=s := by
  rcases makeNode_cases s path type rest with ⟨_,hrun⟩|⟨p,_,_,i,_,hrun⟩
  · rw [hrun]
    exact fun _ => rfl
  · rw [hrun,hrest]
    exact fun he => absurd he ok_ne_failed

/-- vfs_mkfile fails without effect unless it refuses the content. -/
theorem vfsMkfile_atomic_iff (s : Vfs F) (path content : Option CStr) :
    ((vfsMkfile s path content).2=-1→(vfsMkfile s path content).1=s) ↔
      ¬(Creatable s path ∧ TooLong content) := by
  by_cases hc : TooLong content
  · cases content with
    | none => exact absurd hc (by decide)
    | some c =>
      have hlen : vfsMaxFileSize ≤ c.bytes.length := hc
      unfold vfsMkfile
      simp only [if_pos hlen]
      rcases makeNode_cases s path .file fun _ t => (t,-1) with ⟨hno,hrun⟩|⟨p,_,hyes,i,_,hrun⟩
      · rw [hrun]
        exact iff_of_true (fun _ => rfl) fun h => hno h.1
      · rw [hrun]
        refine iff_of_false (fun h => ?_) (fun h => h ⟨hyes,hc⟩)
        have hcount : s.nodeCount+1=s.nodeCount := congrArg Vfs.nodeCount (h rfl)
        omega
  · refine iff_of_true (makeNode_atomic s path .file fun i t => ?_) fun h => hc h.2
    cases content with
    | none => rfl
    | some c =>
      have hlen : ¬vfsMaxFileSize ≤ c.bytes.length := hc
      dsimp only
      rw [if_neg hlen]

/-- vfs_write fails without effect. -/
theorem vfsWrite_atomic (s : Vfs F) (path : Option CStr) (data : Option Buf) (size : Word) :
    (vfsWrite s path data size).2<0→(vfsWrite s path data size).1=s := by
  unfold vfsWrite
  split
  · exact fun _ => rfl
  · exact fun _ => rfl
  · cases hl : vfsLookup s path with
    | none => exact fun _ => rfl
    | some i =>
      dsimp only
      by_cases ht : (s.nodes i).type≠.file ∨ (s.nodes i).read.isSome
      · rw [if_pos ht]
        exact fun _ => rfl
      · rw [if_neg ht]
        by_cases hp : (s.nodes i).perm&&&vfsPermWrite=0
        · rw [if_pos hp]
          exact fun _ => rfl
        · rw [if_neg hp]
          intro he
          dsimp only at he
          omega

/-- vfs_remove fails without effect. -/
theorem vfsRemove_atomic (s : Vfs F) (path : Option CStr) :
    (vfsRemove s path).2<0→(vfsRemove s path).1=s := by
  unfold vfsRemove
  split_ifs with hv
  · exact fun _ => rfl
  · cases hf : findPath s (argBytes path) with
    | none => exact fun _ => rfl
    | some i =>
      dsimp only
      by_cases hp : (s.nodes i).perm&&&vfsPermWrite=0
      · rw [if_pos hp]
        exact fun _ => rfl
      · rw [if_neg hp]
        exact fun he => absurd he (lt_irrefl 0)

/-- vfs_rename fails without effect. -/
theorem vfsRename_atomic (s : Vfs F) (oldPath newPath : Option CStr) :
    (vfsRename s oldPath newPath).2<0→(vfsRename s oldPath newPath).1=s := by
  unfold vfsRename
  split_ifs with hv
  · exact fun _ => rfl
  · cases hl : vfsLookup s oldPath with
    | none => exact fun _ => rfl
    | some i =>
      dsimp only
      split_ifs with hp
      · exact fun _ => rfl
      · cases hn : vfsLookup s newPath with
        | some k => exact fun _ => rfl
        | none => exact fun he => absurd he (lt_irrefl 0)

/-- vfs_chmod fails without effect. -/
theorem vfsChmod_atomic (s : Vfs F) (path : Option CStr) (perm : Half) :
    (vfsChmod s path perm).2<0→(vfsChmod s path perm).1=s := by
  unfold vfsChmod
  cases hl : vfsLookup s path with
  | none => exact fun _ => rfl
  | some i => exact fun he => absurd he (lt_irrefl 0)

/-- A return code fails the same way as the reply that carries it. -/
theorem atomic_withCode (s : Vfs F) (r : Vfs F×ℤ) :
    ((withCode r).2=.code (-1)→(withCode r).1=s) ↔ (r.2=-1→ r.1=s) := by
  simp [withCode]

/-- A call that fails without effect whatever negative code it returns. -/
theorem atomic_of_negative {s : Vfs F} {r : Vfs F×ℤ} (h : r.2<0→ r.1=s) :
    (withCode r).2=.code (-1)→(withCode r).1=s :=
  (atomic_withCode s r).mpr fun he => h (by omega)

/-- In every state, a call fails without effect exactly when it is not a
vfs_mkfile that takes a slot and then refuses its content. -/
theorem atomic_iff (s : Vfs F) (c : VfsCall F) : Atomic s c ↔ ¬LeaksSlot s c := by
  cases c with
  | mkdir path =>
    exact iff_of_true ((atomic_withCode s _).mpr (makeNode_atomic s path .dir fun _ _ => rfl)) id
  | mkfile path content => exact (atomic_withCode s _).trans (vfsMkfile_atomic_iff s path content)
  | mkdev path =>
    exact iff_of_true ((atomic_withCode s _).mpr (makeNode_atomic s path .dev fun _ _ => rfl)) id
  | mkproc path readFn =>
    exact iff_of_true ((atomic_withCode s _).mpr (makeNode_atomic s path .file fun _ _ => rfl)) id
  | lookup path => exact iff_of_true (fun _ => rfl) id
  | read call path buf size => exact iff_of_true (fun _ => rfl) id
  | write path data size =>
    exact iff_of_true (atomic_of_negative (vfsWrite_atomic s path data size)) id
  | remove path => exact iff_of_true (atomic_of_negative (vfsRemove_atomic s path)) id
  | rename oldPath newPath =>
    exact iff_of_true (atomic_of_negative (vfsRename_atomic s oldPath newPath)) id
  | chmod path perm => exact iff_of_true (atomic_of_negative (vfsChmod_atomic s path perm)) id

/-- A content of 4096 bytes. -/
def tooLongContent : CStr where
  bytes := List.replicate 4096 0x78
  nonzero h := absurd (List.eq_of_mem_replicate h) (by decide)

/-- vfs_mkfile refuses a content of 4096 bytes and keeps the slot. -/
theorem not_atomic_mkfile_tooLong :
    ¬Atomic (vfsInit (zeroed : Vfs Unit)) (.mkfile (some pathA) (some tooLongContent)) := by
  have hcreate : Creatable (vfsInit (zeroed : Vfs Unit)) (some pathA) := by decide
  have hlong : TooLong (some tooLongContent) := Nat.le_of_eq List.length_replicate.symm
  intro h
  exact (vfsMkfile_atomic_iff _ _ _).mp ((atomic_withCode _ _).mp h) ⟨hcreate,hlong⟩

end EronKernel.VfsEffects

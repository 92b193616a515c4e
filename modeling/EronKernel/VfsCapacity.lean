import EronKernel.VfsRefinement
import EronKernel.VfsShape

/-!
# How many files fit

Slots are handed out in order and never again: removing a node marks its slot
unused, but the counter that vfs_alloc looks at only grows. A run therefore
loses one slot per removed node, and can create as long as fewer than 128
creations took a slot.
-/

namespace EronKernel.VfsCapacity

open ByteMemory CString VfsModel VfsTable VfsShape VfsRefinement

variable {F : Type}

/-- The slots whose node is in use. -/
def liveSlots (s : Vfs F) : Finset Slot := Finset.univ.filter fun i => (s.nodes i).type≠.unused

/-- While a node is unused, an empty file can be created under every valid
path. -/
def CapacityOk (s : Vfs F) : Prop :=
  (liveSlots s).card<128→∀ p,isValidPath (some p)=true→isValidPathLen (some p)=true→
    (vfsMkfile s (some p) (some .empty)).2=0

instance (s : Vfs F) (c : VfsCall F) : Decidable (TakesSlot s c) :=
  decidable_of_iff ((creating c).any fun path => decide (Creatable s path)) (by
    simp [TakesSlot,Option.any_eq_true])

instance (s : Vfs F) (c : VfsCall F) : Decidable (Removes s c) :=
  match c with
  | .remove path => inferInstanceAs (Decidable (∃ i,vfsLookup s path=some i ∧ _))
  | .mkdir _ | .mkfile _ _ | .mkdev _ | .mkproc _ _ | .lookup _ | .read _ _ _ _ | .write _ _ _
  | .rename _ _ | .chmod _ _ => inferInstanceAs (Decidable False)

/-- Creations of a run that took a slot. -/
def slotsTaken : Vfs F→List (VfsOp F)→ℕ
  | _,[] => 0
  | s,.call c::os => (if TakesSlot s c then 1 else 0)+slotsTaken (performCall s c).1 os
  | s,.list _ _::os => slotsTaken s os

/-- Removals of a run that succeeded. -/
def nodesRemoved : Vfs F→List (VfsOp F)→ℕ
  | _,[] => 0
  | s,.call c::os => (if Removes s c then 1 else 0)+nodesRemoved (performCall s c).1 os
  | s,.list _ _::os => nodesRemoved s os

/-- The nodes in use are the visible ones. -/
theorem mem_liveSlots {s : Vfs F} (h : Shape s) (i : Slot) : i∈liveSlots s ↔ (table s i).isSome := by
  rw [liveSlots,Finset.mem_filter,Option.isSome_iff_exists]
  constructor
  · rintro ⟨_,ht⟩
    exact ⟨_,table_of_live h ht⟩
  · rintro ⟨v,hv⟩
    exact ⟨Finset.mem_univ i,(table_eq_some_iff.mp hv).1.2⟩

/-- A node that becomes or stays visible is in use. -/
theorem liveSlots_insert {s t : Vfs F} (h : Shape s) {i : Slot} {v : NodeView F}
    (hput : Puts s t i (some v)) : liveSlots t=insert i (liveSlots s) := by
  ext j
  rw [Finset.mem_insert,mem_liveSlots hput.shape,mem_liveSlots h,hput.table_eq]
  by_cases hj : j=i
  · subst hj
    simp
  · simp [hj]

/-- A node that disappears is no longer in use. -/
theorem liveSlots_erase {s t : Vfs F} (h : Shape s) {i : Slot} (hput : Puts s t i none) :
    liveSlots t=(liveSlots s).erase i := by
  ext j
  rw [Finset.mem_erase,mem_liveSlots hput.shape,mem_liveSlots h,hput.table_eq]
  by_cases hj : j=i
  · subst hj
    simp
  · simp [hj]

/-- One call takes and releases slots as read off before. -/
theorem TableStep.counts {s t : Vfs F} {c : VfsCall F} (h : Shape s) (hs : TableStep s c t) :
    t.nodeCount=s.nodeCount+(if TakesSlot s c then 1 else 0) ∧
      (liveSlots t).card+(if Removes s c then 1 else 0)=
        (liveSlots s).card+(if TakesSlot s c then 1 else 0) := by
  cases hs with
  | same htake hrem => simp [htake,hrem]
  | add htake hrem _ hadd =>
    obtain ⟨i,hi,hcount,hput⟩ := hadd
    have hfresh : i∉liveSlots s := by
      rw [mem_liveSlots h,table_fresh (Nat.le_of_eq hi.symm)]
      simp
    rw [if_pos htake,if_neg hrem,liveSlots_insert h hput,Finset.card_insert_of_notMem hfresh]
    exact ⟨hcount,rfl⟩
  | @edit _ i _ _ htake hrem hv _ hch =>
    have hin : i∈liveSlots s := by
      rw [mem_liveSlots h,hv]
      rfl
    rw [if_neg htake,if_neg hrem,liveSlots_insert h hch.2,Finset.insert_eq_of_mem hin]
    exact ⟨hch.1,rfl⟩
  | @clear _ i _ htake hrem hv hch =>
    have hin : i∈liveSlots s := by
      rw [mem_liveSlots h,hv]
      rfl
    rw [if_neg htake,if_pos hrem,liveSlots_erase h hch.2,Finset.card_erase_add_one hin]
    exact ⟨hch.1,rfl⟩

/-- Over a run the counter grows with the creations, and the nodes in use are
the creations without the removals. -/
theorem performOps_counts (os : List (VfsOp F)) :
    ∀ {s : Vfs F},Shape s→
      (performOps s os).nodeCount=s.nodeCount+slotsTaken s os ∧
        (liveSlots (performOps s os)).card+nodesRemoved s os=(liveSlots s).card+slotsTaken s os := by
  induction os with
  | nil => exact fun _ => ⟨rfl,rfl⟩
  | cons o os ih =>
    intro s h
    cases o with
    | list dir max => exact ih h
    | call c =>
      obtain ⟨hcount,hlive⟩ := TableStep.counts h (performCall_tableStep h c)
      obtain ⟨hcount',hlive'⟩ := ih ((performCall_tableStep h c).shape h)
      have hrun : performOps s (.call c::os)=performOps (performCall s c).1 os := rfl
      rw [hrun]
      unfold slotsTaken nodesRemoved
      omega

/-- An empty file can be created under a valid path exactly while a slot was
never handed out. -/
theorem vfsMkfile_empty_iff (s : Vfs F) {p : CStr} (hv : isValidPath (some p)=true)
    (hl : isValidPathLen (some p)=true) : (vfsMkfile s (some p) (some .empty)).2=0 ↔ s.nodeCount<128 := by
  unfold vfsMkfile
  rcases makeNode_cases s (some p) .file _ with ⟨hno,hrun⟩|⟨q,_,hyes,i,_,hrun⟩
  · rw [hrun]
    exact iff_of_false (by norm_num) fun hlt => hno ⟨hv,hl,hlt⟩
  · rw [hrun]
    exact iff_of_true rfl hyes.2.2

/-- In the state after any run, free capacity can be used exactly when fewer
than 128 creations took a slot or no node was removed. -/
theorem capacity_ok_iff (os : List (VfsOp F)) :
    CapacityOk (performOps (vfsInit (zeroed : Vfs F)) os) ↔
      slotsTaken (vfsInit (zeroed : Vfs F)) os<128 ∨ nodesRemoved (vfsInit (zeroed : Vfs F)) os=0 := by
  obtain ⟨hcount,hlive⟩ := performOps_counts os (shape_init (F := F))
  have hle := (performOps_tableOk os (tableOk_init (F := F))).shape.count
  have hzero : (liveSlots (vfsInit (zeroed : Vfs F))).card=0 := by
    rw [Finset.card_eq_zero,liveSlots,Finset.filter_eq_empty_iff]
    intro i _ ht
    exact ht rfl
  have hstart : (vfsInit (zeroed : Vfs F)).nodeCount=0 := rfl
  constructor
  · intro hok
    by_contra hno
    obtain ⟨htaken,hremoved⟩ := not_or.mp hno
    have hcreate := (vfsMkfile_empty_iff _ (p := pathA) (by decide) (by decide)).mp
      (hok (by omega) pathA (by decide) (by decide))
    omega
  · intro h hlt p hv hl
    refine (vfsMkfile_empty_iff _ hv hl).mpr ?_
    omega

/-- Create 128 files and remove one of them. -/
def fullThenRemove : List (VfsOp Unit) :=
  List.replicate 128 (.call (.mkfile (some pathA) (some .empty)))++[.call (.remove (some pathA))]

/-- With 127 nodes in use a file cannot be created any more. -/
theorem capacity_lost_after_remove : ¬CapacityOk (performOps (vfsInit zeroed) fullThenRemove) := by
  have hlive : (liveSlots (performOps (vfsInit zeroed) fullThenRemove)).card<128 := by decide +kernel
  have hcount : (performOps (vfsInit zeroed) fullThenRemove).nodeCount=128 := by decide +kernel
  intro hok
  have hcreate := (vfsMkfile_empty_iff _ (p := pathA) (by decide) (by decide)).mp
    (hok hlive pathA (by decide) (by decide))
  omega

end EronKernel.VfsCapacity

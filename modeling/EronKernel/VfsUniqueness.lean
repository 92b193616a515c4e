import EronKernel.VfsRefinement

/-!
# Uniqueness of stored paths

Lookup and removal act on the first node with a path. Renaming checks for a
collision, the creating calls do not, and a stored path is its argument cut
to 127 bytes. Which path a call stores, and where, is read off the state
before the call; the stored paths of a run stay pairwise different exactly
when no call stores a path that another node already has.
-/

namespace EronKernel.VfsUniqueness

open ByteMemory CString SlotMap VfsModel VfsTable VfsRefinement

variable {F : Type}

/-- No two nodes in use have equal stored paths. -/
def PathsUnique (s : Vfs F) : Prop :=
  ∀ i j,(s.nodes i).type≠.unused→(s.nodes j).type≠.unused→
    rowString (s.nodes i).path=rowString (s.nodes j).path→i=j

/-- The stored path of each visible node. -/
def names (s : Vfs F) (i : Slot) : Option CStr := (table s i).map fun v => v.path

/-- The slot that a creating call takes and the path it stores there. -/
def createdPath (s : Vfs F) (path : Option CStr) : Option (Slot×CStr) :=
  if h : Creatable s path then some (⟨s.nodeCount,h.2.2⟩,(argStr path).take 127) else none

/-- The slot and the path that a call stores, if it stores one. -/
def storedPath (s : Vfs F) : VfsCall F→Option (Slot×CStr)
  | .mkdir path => createdPath s path
  | .mkfile path _ => createdPath s path
  | .mkdev path => createdPath s path
  | .mkproc path _ => createdPath s path
  | .rename oldPath newPath => (vfsLookup s oldPath).bind fun i =>
    if Renames s (viewNode s (s.nodes i)) newPath then some (i,(argStr newPath).take 127) else none
  | _ => none

/-- The call stores no path that another node in use already has. -/
def StoresFresh (s : Vfs F) (c : VfsCall F) : Prop :=
  ∀ i a,storedPath s c=some (i,a)→∀ j,j≠i→(s.nodes j).type≠.unused→
    rowString (s.nodes j).path≠a.bytes

/-- Every call of a run stores no path that another node already has. -/
def FreshRun : Vfs F→List (VfsCall F)→Prop
  | _,[] => True
  | s,c::cs => StoresFresh s c ∧ FreshRun (performCall s c).1 cs

/-- The states of a run, the first one included. -/
def visited : Vfs F→List (VfsCall F)→List (Vfs F)
  | s,[] => [s]
  | s,c::cs => s::visited (performCall s c).1 cs

/-- Nodes in use are the visible ones. -/
theorem names_eq_some_iff {s : Vfs F} (h : Shape s) {i : Slot} {a : CStr} :
    names s i=some a ↔ (s.nodes i).type≠.unused ∧ rowString (s.nodes i).path=a.bytes := by
  unfold names
  rw [Option.map_eq_some_iff]
  constructor
  · rintro ⟨v,hv,rfl⟩
    obtain ⟨hlive,rfl⟩ := table_eq_some_iff.mp hv
    exact ⟨hlive.2,rfl⟩
  · rintro ⟨ht,hp⟩
    have hi : i.val<s.nodeCount := by
      by_contra hge
      exact ht (h.fresh i (Nat.not_lt.mp hge)).1
    exact ⟨_,table_eq_some_iff.mpr ⟨⟨hi,ht⟩,rfl⟩,CStr.ext hp⟩

/-- Stored paths are unique exactly when the visible names are. -/
theorem pathsUnique_iff {s : Vfs F} (h : Shape s) : PathsUnique s ↔ Distinct (names s) := by
  constructor
  · intro hu i j a hi hj
    obtain ⟨hti,hpi⟩ := (names_eq_some_iff h).mp hi
    obtain ⟨htj,hpj⟩ := (names_eq_some_iff h).mp hj
    exact hu i j hti htj (hpi.trans hpj.symm)
  · intro hd i j hti htj hp
    exact hd i j (rowStr (s.nodes i).path) ((names_eq_some_iff h).mpr ⟨hti,rfl⟩)
      ((names_eq_some_iff h).mpr ⟨htj,hp.symm⟩)

/-- Freshness in terms of the visible names. -/
theorem storesFresh_iff {s : Vfs F} (h : Shape s) (c : VfsCall F) :
    StoresFresh s c ↔ ∀ i a,storedPath s c=some (i,a)→∀ j,j≠i→ names s j≠some a := by
  unfold StoresFresh
  simp only [ne_eq,names_eq_some_iff h,not_and]

/-- Updating the table in one slot updates the names there. -/
theorem names_update {s t : Vfs F} {i : Slot} {v : Option (NodeView F)} (hp : Puts s t i v) :
    names t=Function.update (names s) i (v.map fun v => v.path) := by
  funext j
  unfold names
  rw [hp.table_eq,Function.update_apply,Function.update_apply]
  split_ifs <;> rfl

/-- How a call acts on the names: it stores the path that was read off before,
or it stores none and empties at most one slot. -/
def NamesStep (s t : Vfs F) : Option (Slot×CStr)→Prop
  | some (i,a) => names t=Function.update (names s) i (some a)
  | none => names t=names s ∨ ∃ i,names t=Function.update (names s) i none

/-- Storing a path again in its own slot changes no name. -/
theorem names_of_changes {s t : Vfs F} {i : Slot} {v w : NodeView F} (hv : table s i=some v)
    (hc : Changes s t i (some w)) (hw : w.path=v.path) : names t=names s := by
  rw [names_update hc.2]
  apply Function.update_eq_self_iff.mpr
  unfold names
  rw [hv,Option.map_some,Option.map_some,hw]

/-- A creating call stores the path read off before. -/
theorem namesStep_create {s : Vfs F} (h : Shape s) {path : Option CStr} {r : Vfs F×ℤ} {code : ℤ}
    {v : CStr→NodeView F} (hv : ∀ p,(v p).path=p.take 127) (hc : Creates s path r code v) :
    Shape r.1 ∧ NamesStep s r.1 (createdPath s path) := by
  unfold createdPath
  rcases hc with ⟨hno,rfl⟩|⟨p,rfl,hyes,_,i,hi,_,hput⟩
  · rw [dif_neg hno]
    exact ⟨h,Or.inl rfl⟩
  · have hslot : (⟨s.nodeCount,hyes.2.2⟩ : Slot)=i := Fin.ext hi.symm
    rw [dif_pos hyes,hslot]
    refine ⟨hput.shape,?_⟩
    have hn := names_update hput
    rw [Option.map_some,hv] at hn
    exact hn

/-- vfs_write stores no path. -/
theorem names_write {s : Vfs F} (h : Shape s) (path : Option CStr) (data : Option Buf) (size : Word) :
    Shape (vfsWrite s path data size).1 ∧ NamesStep s (vfsWrite s path data size).1 none := by
  obtain ⟨p,i,v,rfl,_,_,hl,hv,_⟩|⟨hl,_⟩ := vfsLookup_cases s path
  · cases data with
    | none => exact ⟨h,Or.inl rfl⟩
    | some d =>
      obtain ⟨_,hrun⟩|⟨_,_,hch⟩ := vfsWrite_found h hl hv d size
      · rw [hrun]
        exact ⟨h,Or.inl rfl⟩
      · exact ⟨hch.2.shape,Or.inl (names_of_changes hv hch rfl)⟩
  · rw [(calls_not_found hl).1]
    exact ⟨h,Or.inl rfl⟩

/-- vfs_remove empties at most one slot. -/
theorem names_remove {s : Vfs F} (h : Shape s) (path : Option CStr) :
    Shape (vfsRemove s path).1 ∧ NamesStep s (vfsRemove s path).1 none := by
  obtain ⟨p,i,v,rfl,hvalid,hf,_,hv,_⟩|⟨hl,_⟩ := vfsLookup_cases s path
  · obtain ⟨_,hrun⟩|⟨_,_,hch⟩ := vfsRemove_found h hvalid hf hv
    · rw [hrun]
      exact ⟨h,Or.inl rfl⟩
    · exact ⟨hch.2.shape,Or.inr ⟨i,names_update hch.2⟩⟩
  · rw [(calls_not_found hl).2.1]
    exact ⟨h,Or.inl rfl⟩

/-- vfs_rename stores the new path in the slot of the old one. -/
theorem names_rename {s : Vfs F} (h : Shape s) (oldPath newPath : Option CStr) :
    Shape (vfsRename s oldPath newPath).1 ∧
      NamesStep s (vfsRename s oldPath newPath).1 (storedPath s (.rename oldPath newPath)) := by
  dsimp only [storedPath]
  obtain ⟨p,i,v,rfl,hvalid,_,hl,hv,_⟩|⟨hl,_⟩ := vfsLookup_cases s oldPath
  · have hview := (table_eq_some_iff.mp hv).2
    rw [hl,Option.bind_some,hview]
    obtain ⟨hno,hrun⟩|⟨q,rfl,hyes,_,hch⟩ := vfsRename_found h hvalid hl hv newPath
    · rw [hrun,if_neg hno]
      exact ⟨h,Or.inl rfl⟩
    · rw [if_pos hyes]
      exact ⟨hch.2.shape,names_update hch.2⟩
  · rw [(calls_not_found hl).2.2.1,hl]
    exact ⟨h,Or.inl rfl⟩

/-- vfs_chmod stores no path. -/
theorem names_chmod {s : Vfs F} (h : Shape s) (path : Option CStr) (perm : Half) :
    Shape (vfsChmod s path perm).1 ∧ NamesStep s (vfsChmod s path perm).1 none := by
  obtain ⟨p,i,v,_,_,_,hl,hv,_⟩|⟨hl,_⟩ := vfsLookup_cases s path
  · obtain ⟨_,hch⟩ := vfsChmod_found h hl hv perm
    exact ⟨hch.2.shape,Or.inl (names_of_changes hv hch rfl)⟩
  · rw [(calls_not_found hl).2.2.2]
    exact ⟨h,Or.inl rfl⟩

/-- Every call keeps the shape and acts on the names as read off before. -/
theorem performCall_names {s : Vfs F} (h : Shape s) (c : VfsCall F) :
    Shape (performCall s c).1 ∧ NamesStep s (performCall s c).1 (storedPath s c) := by
  cases c with
  | mkdir path => exact namesStep_create h (fun _ => rfl) (vfsMkdir_creates h path)
  | mkfile path content =>
    by_cases hc : TooLong content
    · exact namesStep_create h (fun _ => rfl) (vfsMkfile_creates_tooLong h path hc)
    · exact namesStep_create h (fun _ => rfl) (vfsMkfile_creates h path hc)
  | mkdev path => exact namesStep_create h (fun _ => rfl) (vfsMkdev_creates h path)
  | mkproc path readFn => exact namesStep_create h (fun _ => rfl) (vfsMkproc_creates h path readFn)
  | lookup path => exact ⟨h,Or.inl rfl⟩
  | read call path buf size => exact ⟨h,Or.inl rfl⟩
  | write path data size => exact names_write h path data size
  | remove path => exact names_remove h path
  | rename oldPath newPath => exact names_rename h oldPath newPath
  | chmod path perm => exact names_chmod h path perm

/-- From unique paths, one call keeps them unique exactly when it stores no
path that another node has. -/
theorem pathsUnique_step {s : Vfs F} (h : Shape s) (hu : PathsUnique s) (c : VfsCall F) :
    PathsUnique (performCall s c).1 ↔ StoresFresh s c := by
  obtain ⟨hshape,hstep⟩ := performCall_names h c
  have hd := (pathsUnique_iff h).mp hu
  rw [pathsUnique_iff hshape,storesFresh_iff h]
  cases hs : storedPath s c with
  | none =>
    rw [hs] at hstep
    have hdistinct : Distinct (names (performCall s c).1) := by
      rcases hstep with he|⟨i,he⟩
      · rw [he]
        exact hd
      · rw [he]
        exact hd.clear i
    simp [hdistinct]
  | some x =>
    obtain ⟨i,a⟩ := x
    rw [hs] at hstep
    have he : names (performCall s c).1=Function.update (names s) i (some a) := hstep
    rw [he,hd.update_iff i a]
    constructor
    · intro hfree k b hk
      cases hk
      exact hfree
    · exact fun hfree => hfree i a rfl

/-- From unique paths, a run keeps them unique in all its states exactly when
every call stores no path that another node has. -/
theorem visited_unique_iff (cs : List (VfsCall F)) :
    ∀ {s : Vfs F},Shape s→PathsUnique s→
      ((∀ t∈visited s cs,PathsUnique t) ↔ FreshRun s cs) := by
  induction cs with
  | nil =>
    intro s _ hu
    simp [visited,FreshRun,hu]
  | cons c cs ih =>
    intro s h hu
    have hstep := pathsUnique_step h hu c
    have hshape := (performCall_names h c).1
    constructor
    · intro hall
      have hnext : PathsUnique (performCall s c).1 := by
        apply hall
        cases cs <;> simp [visited]
      refine ⟨hstep.mp hnext,(ih hshape hnext).mp ?_⟩
      exact fun t ht => hall t (List.mem_cons_of_mem _ ht)
    · rintro ⟨hfresh,hrest⟩ t ht
      rcases List.mem_cons.mp ht with rfl|ht
      · exact hu
      · exact (ih hshape (hstep.mpr hfresh)).mpr hrest t ht

/-- In a run of any calls from vfs_init on zeroed statics the stored paths are
unique in every state exactly when no call stores a path that another node
already has. -/
theorem paths_unique_iff_storesFresh (cs : List (VfsCall F)) :
    (∀ t∈visited (vfsInit zeroed) cs,PathsUnique t) ↔ FreshRun (vfsInit zeroed) cs := by
  refine visited_unique_iff cs shape_init ?_
  intro i j hi
  exact absurd rfl hi

/-- Making the directory "/a" twice leaves two nodes in use with that path,
although both calls return zero. -/
theorem mkdir_twice_not_unique :
    let out := runCalls performCall (vfsInit (zeroed : Vfs Unit)) [.mkdir (some pathA),.mkdir (some pathA)]
    out.2=[.code 0,.code 0] ∧ ¬PathsUnique out.1 := by
  refine ⟨rfl,fun h => ?_⟩
  have he := h 0 1 (by decide) (by decide) (by decide)
  cases he

end EronKernel.VfsUniqueness

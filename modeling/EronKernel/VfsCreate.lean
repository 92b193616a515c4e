import EronKernel.VfsCapacity
import EronKernel.VfsUniqueness

/-!
# A path that was given to a node is found again

Four calls create a node under a path and one renames a node to it. A path is
accepted below 256 bytes, stored in an array of 128 bytes and compared in full.
When the call succeeds on a path that no node had, looking the path up finds
the node under that path exactly when the path fits the array.
-/

namespace EronKernel.VfsCreate

open ByteMemory CString VfsModel VfsTable VfsShape VfsUniqueness

variable {F : Type}

/-- The path that a call gives to a node. -/
def givenPath : VfsCall F→Option (Option CStr)
  | .mkdir path => some path
  | .mkfile path _ => some path
  | .mkdev path => some path
  | .mkproc path _ => some path
  | .rename _ newPath => some newPath
  | _ => none

/-- The index of the node that a call gives a path to: the next slot, or the
slot found under the old path. -/
def givenSlot (s : Vfs F) : VfsCall F→Option ℕ
  | .rename oldPath _ => (vfsLookup s oldPath).map fun i => i.val
  | _ => some s.nodeCount

/-- After the call, looking the path up returns the node it was given to, and
the node's stored path is the path. -/
def FoundAsGiven (s : Vfs F) (c : VfsCall F) (p : CStr) : Prop :=
  ∃ i : Slot,givenSlot s c=some i.val ∧ vfsLookup (performCall s c).1 (some p)=some i ∧
    rowStr ((performCall s c).1.nodes i).path=p

/-- A creating call that returned zero stored the path in the next slot. -/
theorem createdPath_of_zero {s : Vfs F} {p : CStr} {r : Vfs F×ℤ} {code : ℤ} {v : CStr→NodeView F}
    (hc : Creates s (some p) r code v) (hr : r.2=0) :
    isValidPath (some p)=true ∧ ∃ i : Slot,createdPath s (some p)=some (i,p.take 127) ∧
      some s.nodeCount=some i.val := by
  rcases hc with ⟨_,rfl⟩|⟨_,_,hyes,_,_⟩
  · cases hr
  · exact ⟨hyes.1,⟨s.nodeCount,hyes.2.2⟩,dif_pos hyes,rfl⟩

/-- A call that gave a path to a node and returned zero stored the path, cut to
127 bytes, in that node. -/
theorem storedPath_of_zero {s : Vfs F} (h : Shape s) {c : VfsCall F} {p : CStr}
    (hc : givenPath c=some (some p)) (hr : (performCall s c).2=.code 0) :
    isValidPath (some p)=true ∧ ∃ i : Slot,storedPath s c=some (i,p.take 127) ∧
      givenSlot s c=some i.val := by
  cases c with
  | mkdir path =>
    cases hc
    exact createdPath_of_zero (vfsMkdir_creates h _) (Reply.code.inj hr)
  | mkfile path content =>
    cases hc
    by_cases hlong : TooLong content
    · exact createdPath_of_zero (vfsMkfile_creates_tooLong h _ hlong) (Reply.code.inj hr)
    · exact createdPath_of_zero (vfsMkfile_creates h _ hlong) (Reply.code.inj hr)
  | mkdev path =>
    cases hc
    exact createdPath_of_zero (vfsMkdev_creates h _) (Reply.code.inj hr)
  | mkproc path readFn =>
    cases hc
    exact createdPath_of_zero (vfsMkproc_creates h _ readFn) (Reply.code.inj hr)
  | rename oldPath newPath =>
    cases hc
    have hcode : (vfsRename s oldPath (some p)).2=0 := Reply.code.inj hr
    rcases vfsLookup_cases s oldPath with ⟨q,i,v,rfl,hvalid,_,hl,hv,_⟩|⟨hl,_⟩
    · rcases vfsRename_found h hvalid hl hv (some p) with ⟨_,hrun⟩|⟨_,_,hyes,_,_⟩
      · rw [hrun] at hcode
        cases hcode
      · have hview := (table_eq_some_iff.mp hv).2
        refine ⟨hyes.1,i,?_,?_⟩
        · simp only [storedPath,hl,Option.bind_some,hview]
          exact if_pos hyes
        · simp only [givenSlot,hl,Option.map_some]
    · rw [(calls_not_found hl).2.2.1] at hcode
      cases hcode
  | lookup | read | write | remove | chmod => cases hc

/-- Looking up a valid path finds the first slot with that name. -/
theorem vfsLookup_eq_some_iff {s : Vfs F} {p : CStr} (hvalid : isValidPath (some p)=true) {i : Slot} :
    vfsLookup s (some p)=some i ↔ names s i=some p ∧ ∀ j : Slot,j < i→ names s j≠some p := by
  have hname : ∀ j,(∃ v,table s j=some v ∧ v.path=p) ↔ names s j=some p := by
    intro j
    unfold names
    rw [Option.map_eq_some_iff]
  unfold vfsLookup
  rw [if_pos hvalid]
  change findPath s p.bytes=some i ↔ _
  rw [findPath_eq_some_iff,hname]
  refine and_congr_right fun _ => forall₂_congr fun j _ => ?_
  rw [ne_eq,←hname]
  push Not
  rfl

/-- A valid path that is not found is no node's name. -/
theorem names_ne_of_not_found {s : Vfs F} {p : CStr} (hvalid : isValidPath (some p)=true)
    (hl : vfsLookup s (some p)=none) (i : Slot) : names s i≠some p := by
  rcases vfsLookup_cases s (some p) with ⟨_,_,_,_,_,_,hfound,_,_⟩|⟨_,hnone⟩
  · rw [hl] at hfound
    cases hfound
  · intro hname
    obtain ⟨v,hv,hp⟩ := Option.map_eq_some_iff.mp hname
    exact (hnone p rfl hvalid).2 i v hv hp

/-- In every reachable state, a call that succeeds in giving a node a path that
no node had is followed by a lookup that finds that node under that path
exactly when the path has at most 127 bytes. -/
theorem foundAsGiven_iff (os : List (VfsOp F)) (c : VfsCall F) (p : CStr)
    (hc : givenPath c=some (some p))
    (hl : vfsLookup (performOps (vfsInit zeroed) os) (some p)=none)
    (hr : (performCall (performOps (vfsInit zeroed) os) c).2=.code 0) :
    FoundAsGiven (performOps (vfsInit zeroed) os) c p ↔ p.bytes.length≤127 := by
  have hshape := (performOps_tableOk os (tableOk_init (F := F))).shape
  generalize performOps (vfsInit zeroed) os=s at *
  obtain ⟨hvalid,i,hstored,hslot⟩ := storedPath_of_zero hshape hc hr
  obtain ⟨hshape',hstep⟩ := performCall_names hshape c
  rw [hstored] at hstep
  have hnames : names (performCall s c).1=Function.update (names s) i (some (p.take 127)) := hstep
  constructor
  · rintro ⟨j,hj,_,hpath⟩
    have hij : j=i := by
      rw [hslot] at hj
      exact Fin.ext (Option.some.inj hj).symm
    have hname : names (performCall s c).1 i=some (p.take 127) := by rw [hnames,Function.update_self]
    have hbytes := ((names_eq_some_iff hshape').mp hname).2
    rw [hij] at hpath
    have hcut : p.bytes.length=(p.bytes.take 127).length :=
      congrArg List.length ((congrArg CStr.bytes hpath).symm.trans hbytes)
    rw [List.length_take] at hcut
    omega
  · intro hlen
    rw [CStr.take_of_length_le hlen] at hnames
    have hname : names (performCall s c).1 i=some p := by rw [hnames,Function.update_self]
    refine ⟨i,hslot,(vfsLookup_eq_some_iff hvalid).mpr ⟨hname,?_⟩,?_⟩
    · intro j hj
      rw [hnames,Function.update_of_ne (Fin.ne_of_lt hj)]
      exact names_ne_of_not_found hvalid hl j
    · exact CStr.ext ((names_eq_some_iff hshape').mp hname).2

/-- The path "/tmp". -/
def tmpPath : CStr := .lit "/tmp"

/-- A directory made on the empty file system is found. -/
theorem foundAsGiven_tmp :
    FoundAsGiven (performOps (vfsInit (zeroed : Vfs Unit)) []) (.mkdir (some tmpPath)) tmpPath :=
  (foundAsGiven_iff [] (.mkdir (some tmpPath)) tmpPath rfl (by decide +kernel)
    (congrArg Reply.code (by decide +kernel : (vfsMkdir _ (some tmpPath)).2=0))).mpr (by decide +kernel)

/-- A path of 128 bytes. -/
def longPath : CStr := ⟨List.replicate 128 0x61,by simp⟩

/-- A path of 128 bytes is accepted, vfs_mkdir returns zero on it, and it is
not found. -/
theorem longPath_not_found :
    isValidPath (some longPath)=true ∧ isValidPathLen (some longPath)=true ∧
      vfsLookup (vfsInit (zeroed : Vfs Unit)) (some longPath)=none ∧
      (vfsMkdir (vfsInit (zeroed : Vfs Unit)) (some longPath)).2=0 ∧
      ¬FoundAsGiven (vfsInit (zeroed : Vfs Unit)) (.mkdir (some longPath)) longPath := by
  refine ⟨by decide +kernel,by decide +kernel,by decide +kernel,by decide +kernel,?_⟩
  rintro ⟨i,_,hfound,_⟩
  have hnone : vfsLookup (performCall (vfsInit (zeroed : Vfs Unit)) (.mkdir (some longPath))).1
      (some longPath)=none := by decide +kernel
  rw [hnone] at hfound
  cases hfound

end EronKernel.VfsCreate

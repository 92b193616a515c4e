import EronKernel.VfsTable

/-!
# What every sequence of operations leaves in the node array

Whatever its arguments, an operation does nothing, makes one node visible in
the next slot, changes one visible node, or makes one node disappear. This is
said once, with what the new node looks like; the shape of the node array and
the use of its slots over whole runs follow from it.
-/

namespace EronKernel.VfsShape

open ByteMemory CString VfsModel VfsTable

variable {F : Type}

/-- The path argument of a creating call. -/
def creating : VfsCall F→Option (Option CStr)
  | .mkdir path => some path
  | .mkfile path _ => some path
  | .mkdev path => some path
  | .mkproc path _ => some path
  | _ => none

/-- The call takes the next slot. -/
def TakesSlot (s : Vfs F) (c : VfsCall F) : Prop := ∃ path,creating c=some path ∧ Creatable s path

/-- The call is a removal of a node that grants it. -/
def Removes (s : Vfs F) : VfsCall F→Prop
  | .remove path => ∃ i,vfsLookup s path=some i ∧ (s.nodes i).perm&&&vfsPermWrite≠0
  | _ => False

/-- The node that a creating call makes visible. -/
inductive NewView : VfsCall F→NodeView F→Prop where
  /-- vfs_mkdir. -/
  | mkdir {p : CStr} : isValidPath (some p)=true→
    NewView (.mkdir (some p)) ⟨p.take 127,.dir,.empty,none,0,0⟩
  /-- vfs_mkfile with a content that it refuses. -/
  | refused {p : CStr} {content : Option CStr} : isValidPath (some p)=true→TooLong content→
    NewView (.mkfile (some p) content) ⟨p.take 127,.file,.empty,none,0,0⟩
  /-- vfs_mkfile. -/
  | mkfile {p : CStr} {content : Option CStr} : isValidPath (some p)=true→¬TooLong content→
    NewView (.mkfile (some p) content) ⟨p.take 127,.file,argStr content,none,
      BitVec.ofNat 32 (argStr content).bytes.length,vfsPermRead|||vfsPermWrite⟩
  /-- vfs_mkdev. -/
  | mkdev {p : CStr} : isValidPath (some p)=true→
    NewView (.mkdev (some p)) ⟨p.take 127,.dev,.empty,none,0,0⟩
  /-- vfs_mkproc. -/
  | mkproc {p : CStr} {readFn : Option F} : isValidPath (some p)=true→
    NewView (.mkproc (some p) readFn) ⟨p.take 127,.file,.empty,readFn,0,0⟩

/-- How a call changes a visible node that stays visible. -/
inductive EditedView : VfsCall F→NodeView F→NodeView F→Prop where
  /-- vfs_write. -/
  | write {path : Option CStr} {d : Buf} {size : Word} {v : NodeView F} : Writable v→
    EditedView (.write path (some d) size) v {v with
      content := .ofBytes ((List.range (writtenSize size)).map d)
      size := BitVec.ofNat 32 (writtenSize size)}
  /-- vfs_rename. -/
  | rename {path : Option CStr} {q : CStr} {v : NodeView F} : isValidPath (some q)=true→
    EditedView (.rename path (some q)) v {v with path := q.take 127}
  /-- vfs_chmod. -/
  | chmod {path : Option CStr} {perm : Half} {v : NodeView F} :
    EditedView (.chmod path perm) v {v with perm := perm}

/-- What one call does to the table of visible nodes. -/
inductive TableStep (s : Vfs F) (c : VfsCall F) : Vfs F→Prop where
  /-- Nothing. -/
  | same : ¬TakesSlot s c→¬Removes s c→TableStep s c s
  /-- A node becomes visible in the next slot. -/
  | add {t : Vfs F} {v : NodeView F} : TakesSlot s c→¬Removes s c→NewView c v→Adds s t v→TableStep s c t
  /-- A visible node changes and stays visible. -/
  | edit {t : Vfs F} {i : Slot} {v w : NodeView F} : ¬TakesSlot s c→¬Removes s c→
    table s i=some v→EditedView c v w→Changes s t i (some w)→TableStep s c t
  /-- A visible node disappears. -/
  | clear {t : Vfs F} {i : Slot} {v : NodeView F} : ¬TakesSlot s c→Removes s c→
    table s i=some v→Changes s t i none→TableStep s c t

/-- What every visible node looks like. -/
structure ViewOk (v : NodeView F) : Prop where
  /-- The path is not empty. -/
  pathNonempty : v.path.bytes≠[]
  /-- The path ends within its array. -/
  pathLength : v.path.bytes.length<128
  /-- The path has no two dots. -/
  pathDots : hasDotDot v.path.bytes=false
  /-- The content ends within its row. -/
  contentLength : v.content.bytes.length<4096
  /-- The length field is at most the longest content. -/
  sizeLe : v.size.toNat≤4095

/-- Dots stay next to each other when a string goes on. -/
theorem hasDotDot_append {b : List Byte} (t : List Byte) (h : hasDotDot b=true) :
    hasDotDot (b++t)=true := by
  induction b with
  | nil => cases h
  | cons x b ih =>
    rw [List.cons_append,hasDotDot,Bool.or_eq_true] at *
    refine h.imp ?_ ih
    cases b with
    | nil => simp
    | cons y b => exact id

/-- A path that passes the checks is not empty and has no two dots. -/
theorem isValidPath_iff (p : CStr) :
    isValidPath (some p)=true ↔ p.bytes≠[] ∧ hasDotDot p.bytes=false := by
  simp [isValidPath]

/-- A stored path is not empty, ends within its array and has no two dots. -/
theorem take_ok {p : CStr} (h : isValidPath (some p)=true) :
    (p.take 127).bytes≠[] ∧ (p.take 127).bytes.length<128 ∧ hasDotDot (p.take 127).bytes=false := by
  obtain ⟨hne,hd⟩ := (isValidPath_iff p).mp h
  refine ⟨?_,?_,?_⟩
  · intro he
    rcases List.take_eq_nil_iff.mp he with hz|hz
    · cases hz
    · exact hne hz
  · simp only [CStr.take,List.length_take]
    omega
  · cases hdot : hasDotDot (p.take 127).bytes with
    | false => rfl
    | true =>
      have hall := hasDotDot_append (p.bytes.drop 127) hdot
      rw [show (p.take 127).bytes=p.bytes.take 127 from rfl,List.take_append_drop,hd] at hall
      cases hall

/-- How a creating call steps. -/
theorem tableStep_creates {s : Vfs F} {c : VfsCall F} {path : Option CStr} {r : Vfs F×ℤ} {code : ℤ}
    {v : CStr→NodeView F} (hc : creating c=some path) (hrem : ¬Removes s c)
    (hv : ∀ p,path=some p→isValidPath (some p)=true→NewView c (v p))
    (h : Creates s path r code v) : TableStep s c r.1 := by
  rcases h with ⟨hno,rfl⟩|⟨p,rfl,hyes,_,hadd⟩
  · refine .same ?_ hrem
    rintro ⟨q,hq,hcr⟩
    rw [hc] at hq
    cases hq
    exact hno hcr
  · exact .add ⟨_,hc,hyes⟩ hrem (hv p rfl hyes.1) hadd

/-- A call that creates nothing takes no slot. -/
theorem not_takesSlot {s : Vfs F} {c : VfsCall F} (hc : creating c=none) : ¬TakesSlot s c := by
  rintro ⟨p,hp,_⟩
  rw [hc] at hp
  cases hp

/-- The content of vfs_mkfile that is not refused fits its row. -/
theorem argStr_length {content : Option CStr} (hc : ¬TooLong content) :
    (argStr content).bytes.length<4096 := by
  cases content with
  | none => decide
  | some c => exact Nat.not_le.mp hc

/-- The bytes that vfs_write stores fit the row. -/
theorem written_length (d : Buf) (size : Word) :
    (CStr.ofBytes ((List.range (writtenSize size)).map d)).bytes.length<4096 := by
  refine lt_of_le_of_lt (List.takeWhile_prefix _).length_le ?_
  rw [List.length_map,List.length_range]
  exact writtenSize_lt size

/-- A length that fits a row is stored unchanged. -/
theorem toNat_size_le {n : ℕ} (hn : n<4096) : (BitVec.ofNat 32 n).toNat≤4095 := by
  rw [BitVec.toNat_ofNat,Nat.mod_eq_of_lt (by omega)]
  omega

/-- An empty content fits every row. -/
theorem empty_fits : CStr.empty.bytes.length<4096 ∧ (0 : Word).toNat≤4095 := by decide

/-- vfs_write refuses or edits the node it finds. -/
theorem vfsWrite_tableStep {s : Vfs F} (h : Shape s) (path : Option CStr) (data : Option Buf)
    (size : Word) : TableStep s (.write path data size) (vfsWrite s path data size).1 := by
  rcases vfsLookup_cases s path with ⟨p,i,v,rfl,_,_,hl,hv,_⟩|⟨hl,_⟩
  · cases data with
    | none => exact .same (not_takesSlot rfl) id
    | some d =>
      rcases vfsWrite_found h hl hv d size with ⟨_,hrun⟩|⟨hw,_,hch⟩
      · rw [hrun]
        exact .same (not_takesSlot rfl) id
      · exact .edit (not_takesSlot rfl) id hv (.write hw) hch
  · rw [(calls_not_found hl).1]
    exact .same (not_takesSlot rfl) id

/-- vfs_remove refuses or clears the slot it finds. -/
theorem vfsRemove_tableStep {s : Vfs F} (h : Shape s) (path : Option CStr) :
    TableStep s (.remove path) (vfsRemove s path).1 := by
  rcases vfsLookup_cases s path with ⟨p,i,v,rfl,hvalid,hf,hl,hv,_⟩|⟨hl,_⟩
  · have hview := (table_eq_some_iff.mp hv).2
    have hperm : (s.nodes i).perm=v.perm := congrArg NodeView.perm hview
    rcases vfsRemove_found h hvalid hf hv with ⟨hno,hrun⟩|⟨hyes,_,hch⟩
    · rw [hrun]
      refine .same (not_takesSlot rfl) ?_
      rintro ⟨j,hj,hw⟩
      rw [hl] at hj
      cases hj
      exact hw (hperm▸hno)
    · exact .clear (not_takesSlot rfl) ⟨i,hl,hperm▸hyes⟩ hv hch
  · rw [(calls_not_found hl).2.1]
    refine .same (not_takesSlot rfl) ?_
    rintro ⟨j,hj,_⟩
    rw [hl] at hj
    cases hj

/-- vfs_rename refuses or edits the node it finds. -/
theorem vfsRename_tableStep {s : Vfs F} (h : Shape s) (oldPath newPath : Option CStr) :
    TableStep s (.rename oldPath newPath) (vfsRename s oldPath newPath).1 := by
  rcases vfsLookup_cases s oldPath with ⟨p,i,v,rfl,hvalid,_,hl,hv,_⟩|⟨hl,_⟩
  · rcases vfsRename_found h hvalid hl hv newPath with ⟨_,hrun⟩|⟨q,rfl,hyes,_,hch⟩
    · rw [hrun]
      exact .same (not_takesSlot rfl) id
    · exact .edit (not_takesSlot rfl) id hv (.rename hyes.1) hch
  · rw [(calls_not_found hl).2.2.1]
    exact .same (not_takesSlot rfl) id

/-- vfs_chmod edits the node it finds. -/
theorem vfsChmod_tableStep {s : Vfs F} (h : Shape s) (path : Option CStr) (perm : Half) :
    TableStep s (.chmod path perm) (vfsChmod s path perm).1 := by
  rcases vfsLookup_cases s path with ⟨p,i,v,_,_,_,hl,hv,_⟩|⟨hl,_⟩
  · obtain ⟨_,hch⟩ := vfsChmod_found h hl hv perm
    exact .edit (not_takesSlot rfl) id hv .chmod hch
  · rw [(calls_not_found hl).2.2.2]
    exact .same (not_takesSlot rfl) id

/-- vfs_mkfile refuses or takes a slot, also for a content that is too long. -/
theorem vfsMkfile_tableStep {s : Vfs F} (h : Shape s) (path content : Option CStr) :
    TableStep s (.mkfile path content) (vfsMkfile s path content).1 := by
  by_cases hc : TooLong content
  · refine tableStep_creates rfl id ?_ (vfsMkfile_creates_tooLong h path hc)
    rintro p rfl hp
    exact .refused hp hc
  · refine tableStep_creates rfl id ?_ (vfsMkfile_creates h path hc)
    rintro p rfl hp
    exact .mkfile hp hc

/-- Every call is one of the four steps. -/
theorem performCall_tableStep {s : Vfs F} (h : Shape s) (c : VfsCall F) :
    TableStep s c (performCall s c).1 := by
  cases c with
  | mkdir path =>
    refine tableStep_creates rfl id ?_ (vfsMkdir_creates h path)
    rintro p rfl hp
    exact .mkdir hp
  | mkfile path content => exact vfsMkfile_tableStep h path content
  | mkdev path =>
    refine tableStep_creates rfl id ?_ (vfsMkdev_creates h path)
    rintro p rfl hp
    exact .mkdev hp
  | mkproc path readFn =>
    refine tableStep_creates rfl id ?_ (vfsMkproc_creates h path readFn)
    rintro p rfl hp
    exact .mkproc hp
  | lookup path => exact .same (not_takesSlot rfl) id
  | read call path buf size => exact .same (not_takesSlot rfl) id
  | write path data size => exact vfsWrite_tableStep h path data size
  | remove path => exact vfsRemove_tableStep h path
  | rename oldPath newPath => exact vfsRename_tableStep h oldPath newPath
  | chmod path perm => exact vfsChmod_tableStep h path perm

/-- Every call keeps the shape. -/
theorem TableStep.shape {s t : Vfs F} {c : VfsCall F} (h : Shape s) (hs : TableStep s c t) : Shape t := by
  cases hs with
  | same => exact h
  | add _ _ _ hadd =>
    obtain ⟨_,_,_,hput⟩ := hadd
    exact hput.shape
  | edit _ _ _ _ hch => exact hch.2.shape
  | clear _ _ _ hch => exact hch.2.shape

/-- A stored path with a content that fits. -/
theorem viewOk_of_take {v : NodeView F} {p : CStr} (hp : isValidPath (some p)=true)
    (hpath : v.path=p.take 127) (hlen : v.content.bytes.length<4096) (hsize : v.size.toNat≤4095) :
    ViewOk v := by
  obtain ⟨hne,hpl,hdot⟩ := take_ok hp
  rw [←hpath] at hne hpl hdot
  exact ⟨hne,hpl,hdot,hlen,hsize⟩

/-- What a creating call makes visible is well formed. -/
theorem NewView.viewOk {c : VfsCall F} {v : NodeView F} (h : NewView c v) : ViewOk v := by
  cases h with
  | mkdir hp | refused hp _ | mkdev hp | mkproc hp =>
    exact viewOk_of_take hp rfl empty_fits.1 empty_fits.2
  | mkfile hp hc =>
    have hlen := argStr_length hc
    exact viewOk_of_take hp rfl hlen (toNat_size_le hlen)

/-- A well-formed node stays well formed. -/
theorem EditedView.viewOk {c : VfsCall F} {v w : NodeView F} (h : EditedView c v w) (hv : ViewOk v) :
    ViewOk w := by
  cases h with
  | @write _ d size _ _ =>
    exact ⟨hv.pathNonempty,hv.pathLength,hv.pathDots,written_length d size,
      toNat_size_le (writtenSize_lt size)⟩
  | rename hq => exact viewOk_of_take hq rfl hv.contentLength hv.sizeLe
  | chmod => exact ⟨hv.pathNonempty,hv.pathLength,hv.pathDots,hv.contentLength,hv.sizeLe⟩

/-- The shape together with well-formed visible nodes. -/
structure TableOk (s : Vfs F) : Prop where
  /-- The shape of the statics. -/
  shape : Shape s
  /-- Every visible node is well formed. -/
  views : ∀ i v,table s i=some v→ViewOk v

/-- Updating one slot with a well-formed node keeps the others well formed. -/
theorem TableOk.puts {s t : Vfs F} (h : TableOk s) {i : Slot} {w : Option (NodeView F)}
    (hput : Puts s t i w) (hw : ∀ v,w=some v→ViewOk v) : TableOk t where
  shape := hput.shape
  views := by
    intro j v hv
    rw [hput.table_eq] at hv
    by_cases hj : j=i
    · subst hj
      rw [Function.update_self] at hv
      exact hw v hv
    · rw [Function.update_of_ne hj] at hv
      exact h.views j v hv

/-- Every call keeps visible nodes well formed. -/
theorem TableStep.tableOk {s t : Vfs F} {c : VfsCall F} (h : TableOk s) (hs : TableStep s c t) :
    TableOk t := by
  cases hs with
  | same => exact h
  | add _ _ hnew hadd =>
    obtain ⟨_,_,_,hput⟩ := hadd
    exact h.puts hput fun v hv => Option.some.inj hv▸hnew.viewOk
  | edit _ _ hv hedit hch =>
    exact h.puts hch.2 fun v hw => Option.some.inj hw▸hedit.viewOk (h.views _ _ hv)
  | clear _ _ _ hch => exact h.puts hch.2 fun v hv => by cases hv

/-- Nothing is visible after vfs_init. -/
theorem tableOk_init : TableOk (vfsInit (zeroed : Vfs F)) where
  shape := shape_init
  views := by
    intro i v hv
    rw [table_init] at hv
    cases hv

/-- Every operation keeps visible nodes well formed. -/
theorem performOp_tableOk {s : Vfs F} (h : TableOk s) (o : VfsOp F) : TableOk (performOp s o) := by
  cases o with
  | call c => exact (performCall_tableStep h.shape c).tableOk h
  | list dir max => exact h

/-- Any run of operations keeps visible nodes well formed. -/
theorem performOps_tableOk (os : List (VfsOp F)) :
    ∀ {s : Vfs F},TableOk s→TableOk (performOps s os) := by
  induction os with
  | nil => exact fun h => h
  | cons o os ih => exact fun h => ih (performOp_tableOk h o)

/-- The memory shape of the statics: what every operation relies on. -/
structure MemoryShape (s : Vfs F) : Prop where
  /-- No more slots are handed out than there are. -/
  count : s.nodeCount≤128
  /-- Slots not yet handed out are unused. -/
  unusedBehind : ∀ i : Slot,s.nodeCount ≤ i.val→(s.nodes i).type=.unused
  /-- The path of a live node is not empty, ends within its array and has no
  two dots. -/
  path : ∀ i,(s.nodes i).type≠.unused→ rowString (s.nodes i).path≠[] ∧
    (∃ j,(s.nodes i).path j=0) ∧ hasDotDot (rowString (s.nodes i).path)=false
  /-- The data of a live node is NULL or the row of its own slot. -/
  ownRow : ∀ i,(s.nodes i).type≠.unused→(s.nodes i).data=none ∨ (s.nodes i).data=some i
  /-- A row that a live node points to has a NUL. -/
  rowTerminated : ∀ i,(s.nodes i).type≠.unused→(s.nodes i).data=some i→∃ j,s.fileDataPool i j=0
  /-- The length field of a live node is at most 4095. -/
  size : ∀ i,(s.nodes i).type≠.unused→(s.nodes i).size.toNat≤4095

/-- An array whose string is shorter than the array has a NUL. -/
theorem exists_zero_of_length_lt {n : ℕ} {r : Row n} (h : (rowStr r).bytes.length<n) :
    ∃ j,r j=0 := by
  by_contra hno
  push Not at hno
  have hall : (rowStr r).bytes=List.ofFn r := by
    change (List.ofFn r).takeWhile (fun b => b≠0)=List.ofFn r
    rw [List.takeWhile_eq_self_iff]
    intro b hb
    obtain ⟨j,rfl⟩ := List.mem_ofFn.mp hb
    simpa using hno j
  rw [hall,List.length_ofFn] at h
  omega

/-- A live node is visible. -/
theorem table_of_live {s : Vfs F} (h : Shape s) {i : Slot} (ht : (s.nodes i).type≠.unused) :
    table s i=some (viewNode s (s.nodes i)) := by
  refine table_eq_some_iff.mpr ⟨⟨?_,ht⟩,rfl⟩
  by_contra hge
  exact ht (h.fresh i (Nat.not_lt.mp hge)).1

/-- Well-formed visible nodes give the memory shape. -/
theorem TableOk.memoryShape {s : Vfs F} (h : TableOk s) : MemoryShape s where
  count := h.shape.count
  unusedBehind i hi := (h.shape.fresh i hi).1
  path := by
    intro i ht
    have hok := h.views i _ (table_of_live h.shape ht)
    exact ⟨hok.pathNonempty,exists_zero_of_length_lt hok.pathLength,hok.pathDots⟩
  ownRow := by
    intro i _
    cases hd : (s.nodes i).data with
    | none => exact Or.inl rfl
    | some r =>
      rw [h.shape.ownRow i r hd]
      exact Or.inr rfl
  rowTerminated := by
    intro i ht hd
    have hok := h.views i _ (table_of_live h.shape ht)
    have hlen := hok.contentLength
    simp only [viewNode,nodeContent,hd] at hlen
    exact exists_zero_of_length_lt hlen
  size := fun i ht => (h.views i _ (table_of_live h.shape ht)).sizeLe

/-- After any sequence of operations with any arguments, from vfs_init on
zeroed statics, the statics have the memory shape. -/
theorem memory_shape_of_run (os : List (VfsOp F)) :
    MemoryShape (performOps (vfsInit (zeroed : Vfs F)) os) :=
  (performOps_tableOk os tableOk_init).memoryShape

end EronKernel.VfsShape

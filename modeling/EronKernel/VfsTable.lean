import EronKernel.VfsModel
import EronKernel.SlotMap

/-!
# The node array as a table of visible nodes

Callers see a slot only while it is handed out and its type is not unused.
The table assigns to every such slot what a caller sees through a pointer to
its node. Each operation either leaves the statics alone or updates the table
in one slot; which of the two, and with which node, is said once per
operation here.
-/

namespace EronKernel.VfsTable

open ByteMemory CString SlotMap VfsModel

variable {F : Type}

/-- The visible node of each slot. -/
def table (s : Vfs F) (i : Slot) : Option (NodeView F) :=
  if i.val<s.nodeCount ∧ (s.nodes i).type≠.unused then some (viewNode s (s.nodes i)) else none

/-- Facts about the statics that every call keeps, whatever its arguments. -/
structure Shape (s : Vfs F) : Prop where
  /-- No more slots are handed out than there are. -/
  count : s.nodeCount≤128
  /-- Slots not yet handed out hold no node and have no permissions. -/
  fresh : ∀ i : Slot,s.nodeCount ≤ i.val→(s.nodes i).type=.unused ∧ (s.nodes i).perm=0
  /-- A node's content lies in the row of its own slot. -/
  ownRow : ∀ i r,(s.nodes i).data=some r→ r=i

/-- The state after a call that updated the table in one slot. -/
structure Puts (s t : Vfs F) (i : Slot) (v : Option (NodeView F)) : Prop where
  /-- The table changed in that slot only. -/
  table_eq : table t=Function.update (table s) i v
  /-- The shape is kept. -/
  shape : Shape t

/-- Two updates of one slot. -/
theorem Puts.trans {s t u : Vfs F} {i : Slot} {v w : Option (NodeView F)} (h : Puts s t i v)
    (k : Puts t u i w) : Puts s u i w where
  table_eq := by rw [k.table_eq,h.table_eq,Function.update_idem]
  shape := k.shape

/-- A slot with a visible node. -/
theorem table_eq_some_iff {s : Vfs F} {i : Slot} {v : NodeView F} :
    table s i=some v ↔ (i.val<s.nodeCount ∧ (s.nodes i).type≠.unused) ∧ viewNode s (s.nodes i)=v := by
  unfold table
  split_ifs with h
  · simp [h]
  · simp [h]

/-- Slots not yet handed out have no visible node. -/
theorem table_fresh {s : Vfs F} {i : Slot} (hi : s.nodeCount ≤ i.val) : table s i=none :=
  if_neg fun h => absurd h.1 (by omega)

/-- The zeroed statics after vfs_init have the shape. -/
theorem shape_init : Shape (vfsInit (zeroed : Vfs F)) where
  count := Nat.zero_le _
  fresh := fun _ _ => ⟨rfl,rfl⟩
  ownRow := by
    intro i r hr
    cases hr

/-- Nothing is visible after vfs_init. -/
theorem table_init (s : Vfs F) : table (vfsInit s)=fun _ => none := by
  funext i
  exact table_fresh (Nat.zero_le _)

/-- Replacing the node of a slot that is handed out. -/
theorem puts_setNode {s : Vfs F} (h : Shape s) {i : Slot} (hi : i.val<s.nodeCount) (n : VfsNode F)
    (hd : ∀ r,n.data=some r→ r=i) :
    Puts s (s.setNode i n) i (if n.type≠.unused then some (viewNode s n) else none) where
  table_eq := by
    funext j
    by_cases hj : j=i
    · subst hj
      simp [table,Vfs.setNode,viewNode,nodeContent,hi]
    · simp [table,Vfs.setNode,viewNode,nodeContent,hj]
  shape := by
    refine ⟨h.count,?_,?_⟩
    · intro j hj
      have hne : j≠i := by
        rintro rfl
        exact absurd hi (Nat.not_lt.mpr hj)
      simpa [Vfs.setNode,hne] using h.fresh j hj
    · intro j r hr
      by_cases hj : j=i
      · subst hj
        exact hd r (by simpa [Vfs.setNode] using hr)
      · exact h.ownRow j r (by simpa [Vfs.setNode,hj] using hr)

/-- Rewriting a slot's row together with its node. -/
theorem puts_setRow {s : Vfs F} (h : Shape s) {i : Slot} (hi : i.val<s.nodeCount) (bytes : List Byte)
    (used : Byte) (n : VfsNode F) (hd : ∀ r,n.data=some r→ r=i) :
    Puts s ((s.setRow i bytes used).setNode i n) i
      (if n.type≠.unused then some (viewNode (s.setRow i bytes used) n) else none) := by
  have hshape : Shape (s.setRow i bytes used) := ⟨h.count,h.fresh,h.ownRow⟩
  have hput := puts_setNode hshape hi n hd
  refine ⟨?_,hput.shape⟩
  rw [hput.table_eq]
  funext j
  by_cases hj : j=i
  · subst hj
    rw [Function.update_self,Function.update_self]
  · rw [Function.update_of_ne hj,Function.update_of_ne hj]
    have hcontent : nodeContent (s.setRow i bytes used) (s.nodes j)=nodeContent s (s.nodes j) := by
      unfold nodeContent
      cases hdata : (s.nodes j).data with
      | none => rfl
      | some r =>
        rw [h.ownRow j r hdata]
        simp [Vfs.setRow,hj]
    unfold table viewNode
    rw [show (s.setRow i bytes used).nodes=s.nodes from rfl,hcontent]
    rfl

/-- The slot that find_path stops at holds a visible node with the path. -/
theorem findPath_some {s : Vfs F} {p : CStr} {i : Slot} (h : findPath s p.bytes=some i) :
    ∃ v,table s i=some v ∧ v.path=p := by
  have hp := List.find?_some h
  simp only [Bool.and_eq_true,decide_eq_true_eq,beq_iff_eq] at hp
  refine ⟨_,table_eq_some_iff.mpr ⟨hp.1,rfl⟩,CStr.ext ?_⟩
  exact (vfsStrcmp_eq_zero_iff (zero_notMem_rowString _) p.nonzero).mp hp.2

/-- When the search finds nothing no visible node has the path. -/
theorem findPath_none {s : Vfs F} {p : CStr} (h : findPath s p.bytes=none) (i : Slot)
    {v : NodeView F} (hv : table s i=some v) : v.path≠p := by
  rintro rfl
  obtain ⟨hlive,rfl⟩ := table_eq_some_iff.mp hv
  have hn := List.find?_eq_none.mp h i (List.mem_finRange i)
  have hz := (vfsStrcmp_eq_zero_iff (zero_notMem_rowString (s.nodes i).path)
    (zero_notMem_rowString (s.nodes i).path)).mpr rfl
  apply hn
  simp only [Bool.and_eq_true,decide_eq_true_eq,beq_iff_eq]
  exact ⟨hlive,hz⟩

/-- The search stops at the first visible node with the path. -/
theorem findPath_eq_some_iff {s : Vfs F} {p : CStr} {i : Slot} :
    findPath s p.bytes=some i ↔ (∃ v,table s i=some v ∧ v.path=p) ∧
      ∀ j : Slot,j < i→∀ v,table s j=some v→ v.path≠p := by
  have hmatch : ∀ j : Slot,(decide (j.val<s.nodeCount) && decide ((s.nodes j).type≠.unused) &&
      vfsStrcmp (rowString (s.nodes j).path) p.bytes==0)=true ↔ ∃ v,table s j=some v ∧ v.path=p := by
    intro j
    simp only [Bool.and_eq_true,decide_eq_true_eq,beq_iff_eq]
    rw [vfsStrcmp_eq_zero_iff (zero_notMem_rowString _) p.nonzero]
    constructor
    · exact fun h => ⟨_,table_eq_some_iff.mpr ⟨h.1,rfl⟩,CStr.ext h.2⟩
    · rintro ⟨v,hv,rfl⟩
      obtain ⟨hlive,rfl⟩ := table_eq_some_iff.mp hv
      exact ⟨hlive,rfl⟩
  unfold findPath
  rw [find?_finRange_iff hmatch]
  refine and_congr_right fun _ => forall₂_congr fun j _ => ?_
  push Not
  rfl

/-- vfs_lookup finds a visible node with a valid path, or there is none. -/
theorem vfsLookup_cases (s : Vfs F) (path : Option CStr) :
    (∃ p i v,path=some p ∧ isValidPath path=true ∧ findPath s p.bytes=some i ∧
      vfsLookup s path=some i ∧ table s i=some v ∧ v.path=p) ∨
    (vfsLookup s path=none ∧ ∀ p,path=some p→isValidPath path=true→
      findPath s p.bytes=none ∧ ∀ i v,table s i=some v→ v.path≠p) := by
  cases path with
  | none => exact Or.inr ⟨rfl,fun p hp => by cases hp⟩
  | some p =>
    cases hv : isValidPath (some p) with
    | false =>
      refine Or.inr ⟨by simp [vfsLookup,hv],fun q _ hq => ?_⟩
      cases hq
    | true =>
      have hl : vfsLookup s (some p)=findPath s p.bytes := by
        rw [vfsLookup,if_pos hv]
        rfl
      cases hf : findPath s p.bytes with
      | none =>
        refine Or.inr ⟨hl.trans hf,?_⟩
        rintro q hq -
        cases hq
        exact ⟨hf,fun i v => findPath_none hf i⟩
      | some i =>
        obtain ⟨v,hv',hp⟩ := findPath_some hf
        exact Or.inl ⟨p,i,v,rfl,rfl,hf,hl.trans hf,hv',hp⟩

/-- A creating call takes a slot. -/
def Creatable (s : Vfs F) (path : Option CStr) : Prop :=
  isValidPath path=true ∧ isValidPathLen path=true ∧ s.nodeCount<128

instance (s : Vfs F) (path : Option CStr) : Decidable (Creatable s path) :=
  inferInstanceAs (Decidable (_ ∧ _ ∧ _))

/-- A call took the next slot and made a node visible there. -/
def Adds (s t : Vfs F) (v : NodeView F) : Prop :=
  ∃ i : Slot,i.val=s.nodeCount ∧ t.nodeCount=s.nodeCount+1 ∧ Puts s t i (some v)

/-- The state in which a creating call continues after it stored the path. -/
def nameNode (s : Vfs F) (i : Slot) (p : CStr) (type : VfsType) : Vfs F :=
  {s.setNode i ⟨vfsStrcpy (s.nodes i).path p.bytes vfsPathLen,type,none,none,0,(s.nodes i).perm⟩ with
    nodeCount := s.nodeCount+1}

/-- A creating call fails before it changes anything, or continues with the
named node. -/
theorem makeNode_cases (s : Vfs F) (path : Option CStr) (type : VfsType)
    (rest : Slot→Vfs F→Vfs F×ℤ) :
    (¬Creatable s path ∧ makeNode s path type rest=(s,-1)) ∨
    ∃ p,path=some p ∧ Creatable s path ∧ ∃ i : Slot,i.val=s.nodeCount ∧
      makeNode s path type rest=rest i (nameNode s i p type) := by
  unfold makeNode Creatable
  by_cases hv : isValidPath path=true ∧ isValidPathLen path=true
  · rw [if_neg (by simp [hv])]
    by_cases hc : s.nodeCount<128
    · cases path with
      | none => cases hv.1
      | some p =>
        refine Or.inr ⟨p,rfl,⟨hv.1,hv.2,hc⟩,⟨s.nodeCount,hc⟩,rfl,?_⟩
        simp only [vfsAlloc,dif_pos hc,argBytes,Vfs.setNode,nameNode,Function.update_self,
          Function.update_idem]
    · refine Or.inl ⟨fun h => hc h.2.2,?_⟩
      simp only [vfsAlloc,dif_neg hc]
  · rw [if_pos (by simpa [imp_iff_not_or] using hv)]
    exact Or.inl ⟨fun h => hv ⟨h.1,h.2.1⟩,rfl⟩

/-- The stored path is the argument cut to 127 bytes. -/
theorem rowStr_vfsStrcpy (dst : Row 128) (p : CStr) :
    rowStr (vfsStrcpy dst p.bytes vfsPathLen)=p.take 127 := by
  have hl : (p.take 127).bytes.length<128 := by
    simp only [CStr.take,List.length_take]
    omega
  exact (rowStr_copyRow dst hl).trans (CStr.ofBytes_self _)

/-- Naming the next slot makes an empty node visible there. -/
theorem adds_nameNode {s : Vfs F} (h : Shape s) {i : Slot} (hi : i.val=s.nodeCount) (p : CStr)
    {type : VfsType} (ht : type≠.unused) :
    Puts s (nameNode s i p type) i (some ⟨p.take 127,type,.empty,none,0,0⟩) where
  table_eq := by
    funext j
    by_cases hj : j=i
    · subst hj
      have hperm := (h.fresh j (Nat.le_of_eq hi.symm)).2
      have hpath := rowStr_vfsStrcpy (s.nodes j).path p
      rw [Function.update_self,table_eq_some_iff]
      simp only [nameNode,Vfs.setNode,Function.update_self,viewNode,nodeContent,hpath,hperm]
      exact ⟨⟨by omega,ht⟩,trivial⟩
    · have hlt : j.val<s.nodeCount+1 ↔ j.val<s.nodeCount := by
        have hne : j.val≠i.val := fun he => hj (Fin.ext he)
        omega
      simp [table,nameNode,Vfs.setNode,viewNode,nodeContent,hj,hlt]
  shape := by
    have hlt := i.isLt
    refine ⟨by simp only [nameNode]; omega,?_,?_⟩
    · intro j hj
      simp only [nameNode] at hj
      have hne : j≠i := by
        rintro rfl
        omega
      simpa [nameNode,Vfs.setNode,hne] using h.fresh j (by omega)
    · intro j r hr
      by_cases hj : j=i
      · subst hj
        simp [nameNode,Vfs.setNode] at hr
      · exact h.ownRow j r (by simpa [nameNode,Vfs.setNode,hj] using hr)

/-- How a creating call ends: it took no slot and failed, or made the node of
its path visible and returned the code. -/
def Creates (s : Vfs F) (path : Option CStr) (r : Vfs F×ℤ) (code : ℤ) (v : CStr→NodeView F) : Prop :=
  (¬Creatable s path ∧ r=(s,-1)) ∨
    ∃ p,path=some p ∧ Creatable s path ∧ r.2=code ∧ Adds s r.1 (v p)

/-- A creating call whose rest fills in the named node. -/
theorem makeNode_creates {s : Vfs F} (h : Shape s) (path : Option CStr) {type : VfsType}
    (ht : type≠.unused) (rest : Slot→Vfs F→Vfs F×ℤ) (code : ℤ) (v : CStr→NodeView F)
    (hrest : ∀ (t : Vfs F) (i : Slot) (p : CStr),Shape t→ i.val<t.nodeCount→
      table t i=some ⟨p.take 127,type,.empty,none,0,0⟩→
      (rest i t).2=code ∧ (rest i t).1.nodeCount=t.nodeCount ∧ Puts t (rest i t).1 i (some (v p))) :
    Creates s path (makeNode s path type rest) code v := by
  rcases makeNode_cases s path type rest with hfail|⟨p,rfl,hc,i,hi,hrun⟩
  · exact Or.inl hfail
  · have hname := adds_nameNode h hi p ht
    have htab : table (nameNode s i p type) i=some ⟨p.take 127,type,.empty,none,0,0⟩ := by
      rw [hname.table_eq,Function.update_self]
    have hcount : (nameNode s i p type).nodeCount=s.nodeCount+1 := rfl
    obtain ⟨hcode,hsame,hput⟩ := hrest _ i p hname.shape (by omega) htab
    rw [hrun]
    exact Or.inr ⟨p,rfl,hc,hcode,i,hi,by omega,hname.trans hput⟩

/-- Leaving a visible node as it is. -/
theorem Puts.refl {s : Vfs F} (h : Shape s) {i : Slot} {v : NodeView F} (hv : table s i=some v) :
    Puts s s i (some v) where
  table_eq := by rw [←hv,Function.update_eq_self]
  shape := h

/-- vfs_mkdir. -/
theorem vfsMkdir_creates {s : Vfs F} (h : Shape s) (path : Option CStr) :
    Creates s path (vfsMkdir s path) 0 fun p => ⟨p.take 127,.dir,.empty,none,0,0⟩ :=
  makeNode_creates h path (by decide) _ _ _ fun _ _ _ ht _ hv => ⟨rfl,rfl,Puts.refl ht hv⟩

/-- vfs_mkdev. -/
theorem vfsMkdev_creates {s : Vfs F} (h : Shape s) (path : Option CStr) :
    Creates s path (vfsMkdev s path) 0 fun p => ⟨p.take 127,.dev,.empty,none,0,0⟩ :=
  makeNode_creates h path (by decide) _ _ _ fun _ _ _ ht _ hv => ⟨rfl,rfl,Puts.refl ht hv⟩

/-- vfs_mkproc. -/
theorem vfsMkproc_creates {s : Vfs F} (h : Shape s) (path : Option CStr) (readFn : Option F) :
    Creates s path (vfsMkproc s path readFn) 0 fun p => ⟨p.take 127,.file,.empty,readFn,0,0⟩ := by
  refine makeNode_creates h path (by decide) _ _ _ fun t i p ht hi hv => ⟨rfl,rfl,?_⟩
  obtain ⟨hlive,hview⟩ := table_eq_some_iff.mp hv
  have hput := puts_setNode ht hi {t.nodes i with read := readFn} (ht.ownRow i)
  have hnew : viewNode t {t.nodes i with read := readFn}=
      {viewNode t (t.nodes i) with read := readFn} := rfl
  rw [if_pos hlive.2,hnew,hview] at hput
  exact hput

/-- The length of the content argument of vfs_mkfile is refused. -/
def TooLong (content : Option CStr) : Prop := vfsMaxFileSize≤(argBytes content).length

instance (content : Option CStr) : Decidable (TooLong content) := inferInstanceAs (Decidable (_≤_))

/-- The string of an argument; NULL counts as empty. -/
def argStr (arg : Option CStr) : CStr := arg.getD .empty

/-- vfs_mkfile with a content that is refused still makes a node visible. -/
theorem vfsMkfile_creates_tooLong {s : Vfs F} (h : Shape s) (path : Option CStr) {content : Option CStr}
    (hc : TooLong content) :
    Creates s path (vfsMkfile s path content) (-1) fun p => ⟨p.take 127,.file,.empty,none,0,0⟩ := by
  refine makeNode_creates h path (by decide) _ _ _ fun t i p ht hi hv => ?_
  cases content with
  | none => exact absurd hc (by simp [TooLong,argBytes])
  | some c =>
    have hlen : vfsMaxFileSize ≤ c.bytes.length := hc
    dsimp only
    rw [if_pos hlen]
    exact ⟨rfl,rfl,Puts.refl ht hv⟩

/-- Filling a fresh file. -/
theorem puts_fillFile {t : Vfs F} (ht : Shape t) {i : Slot} (hi : i.val<t.nodeCount) {q : CStr}
    (hv : table t i=some ⟨q,.file,.empty,none,0,0⟩) (c : CStr) (hc : c.bytes.length<4096) :
    Puts t (fillFile i t c.bytes) i
      (some ⟨q,.file,c,none,BitVec.ofNat 32 c.bytes.length,vfsPermRead|||vfsPermWrite⟩) := by
  obtain ⟨hlive,hview⟩ := table_eq_some_iff.mp hv
  let n : VfsNode F := {t.nodes i with
    data := some i, size := BitVec.ofNat 32 c.bytes.length, perm := vfsPermRead|||vfsPermWrite}
  have hput := puts_setRow ht hi c.bytes 1 n (fun r hr => (Option.some.inj hr).symm)
  have hstr : rowStr (copyRow (t.fileDataPool i) c.bytes)=c :=
    (rowStr_copyRow _ hc).trans (CStr.ofBytes_self c)
  have hnew : viewNode (t.setRow i c.bytes 1) n={viewNode t (t.nodes i) with
      content := rowStr (copyRow (t.fileDataPool i) c.bytes)
      size := BitVec.ofNat 32 c.bytes.length
      perm := vfsPermRead|||vfsPermWrite} := by
    simp [n,viewNode,nodeContent,Vfs.setRow]
  rw [if_pos hlive.2,hnew,hview,hstr] at hput
  exact hput

/-- vfs_mkfile with an accepted content. -/
theorem vfsMkfile_creates {s : Vfs F} (h : Shape s) (path : Option CStr) {content : Option CStr}
    (hc : ¬TooLong content) :
    Creates s path (vfsMkfile s path content) 0 fun p => ⟨p.take 127,.file,argStr content,none,
      BitVec.ofNat 32 (argStr content).bytes.length,vfsPermRead|||vfsPermWrite⟩ := by
  refine makeNode_creates h path (by decide) _ _ _ fun t i p ht hi hv => ?_
  cases content with
  | none => exact ⟨rfl,rfl,puts_fillFile ht hi hv .empty (by decide)⟩
  | some c =>
    have hlen : ¬vfsMaxFileSize ≤ c.bytes.length := hc
    dsimp only
    rw [if_neg hlen]
    exact ⟨rfl,rfl,puts_fillFile ht hi hv c (Nat.not_le.mp hlen)⟩

/-- A call updated the table in a slot already handed out. -/
def Changes (s t : Vfs F) (i : Slot) (v : Option (NodeView F)) : Prop :=
  t.nodeCount=s.nodeCount ∧ Puts s t i v

/-- Bytes that vfs_write stores of a request. -/
def writtenSize (size : Word) : ℕ := if vfsDataMax ≤ size.toNat then vfsDataMax-1 else size.toNat

/-- vfs_write never stores more than fits in front of the terminator. -/
theorem writtenSize_lt (size : Word) : writtenSize size<4096 := by
  unfold writtenSize
  split_ifs with h
  · decide
  · exact Nat.not_le.mp h

/-- A node that vfs_write accepts. -/
def Writable (v : NodeView F) : Prop := v.type=.file ∧ v.read=none ∧ v.perm&&&vfsPermWrite≠0

/-- vfs_write on a path that was found. -/
theorem vfsWrite_found {s : Vfs F} (h : Shape s) {p : CStr} {i : Slot} {v : NodeView F}
    (hl : vfsLookup s (some p)=some i) (hv : table s i=some v) (d : Buf) (size : Word) :
    (¬Writable v ∧ vfsWrite s (some p) (some d) size=(s,-1)) ∨
    (Writable v ∧ (vfsWrite s (some p) (some d) size).2=writtenSize size ∧
      Changes s (vfsWrite s (some p) (some d) size).1 i (some {v with
        content := .ofBytes ((List.range (writtenSize size)).map d)
        size := BitVec.ofNat 32 (writtenSize size)})) := by
  obtain ⟨hlive,rfl⟩ := table_eq_some_iff.mp hv
  have hlen : ((List.range (writtenSize size)).map d).length<4096 := by
    simpa using writtenSize_lt size
  unfold vfsWrite Writable
  simp only [hl]
  by_cases hf : (s.nodes i).type≠.file ∨ (s.nodes i).read.isSome=true
  · rw [if_pos hf]
    refine Or.inl ⟨?_,rfl⟩
    rintro ⟨ht,hr,_⟩
    rcases hf with hf|hf
    · exact hf ht
    · rw [show (s.nodes i).read=none from hr] at hf
      cases hf
  · rw [if_neg hf]
    obtain ⟨ht,hr⟩ := not_or.mp hf
    by_cases hp : (s.nodes i).perm&&&vfsPermWrite=0
    · rw [if_pos hp]
      exact Or.inl ⟨fun hw => hw.2.2 hp,rfl⟩
    · rw [if_neg hp]
      refine Or.inr ⟨⟨not_not.mp ht,Option.not_isSome_iff_eq_none.mp hr,hp⟩,rfl,rfl,?_⟩
      have hput := puts_setRow h hlive.1 ((List.range (writtenSize size)).map d) 1
        {s.nodes i with data := some i, size := BitVec.ofNat 32 (writtenSize size)}
        (fun r hr => (Option.some.inj hr).symm)
      rw [if_pos hlive.2] at hput
      simp only [viewNode,nodeContent,Vfs.setRow,Function.update_self,rowStr_copyRow _ hlen] at hput
      exact hput

/-- vfs_remove on a path that was found. -/
theorem vfsRemove_found {s : Vfs F} (h : Shape s) {p : CStr} {i : Slot} {v : NodeView F}
    (hvalid : isValidPath (some p)=true) (hl : findPath s p.bytes=some i) (hv : table s i=some v) :
    (v.perm&&&vfsPermWrite=0 ∧ vfsRemove s (some p)=(s,-1)) ∨
    (v.perm&&&vfsPermWrite≠0 ∧ (vfsRemove s (some p)).2=0 ∧ Changes s (vfsRemove s (some p)).1 i none) := by
  obtain ⟨hlive,rfl⟩ := table_eq_some_iff.mp hv
  unfold vfsRemove
  simp only [hvalid,Bool.not_true,Bool.false_eq_true,if_false,argBytes,hl]
  by_cases hp : (s.nodes i).perm&&&vfsPermWrite=0
  · rw [if_pos hp]
    exact Or.inl ⟨hp,rfl⟩
  · rw [if_neg hp]
    refine Or.inr ⟨hp,rfl,rfl,?_⟩
    exact puts_setRow h hlive.1 [] 0 {s.nodes i with
      type := .unused, path := copyRow (s.nodes i).path [], data := none, size := 0} (by simp)

/-- vfs_rename goes on to store the new path. -/
def Renames (s : Vfs F) (v : NodeView F) (newPath : Option CStr) : Prop :=
  isValidPath newPath=true ∧ isValidPathLen newPath=true ∧
    ¬(v.perm&&&vfsPermWrite=0 ∧ v.type=.file) ∧ vfsLookup s newPath=none

instance (s : Vfs F) (v : NodeView F) (newPath : Option CStr) : Decidable (Renames s v newPath) :=
  inferInstanceAs (Decidable (_ ∧ _ ∧ ¬(_ ∧ _) ∧ _))

/-- vfs_rename on an old path that was found. -/
theorem vfsRename_found {s : Vfs F} (h : Shape s) {p : CStr} {i : Slot} {v : NodeView F}
    (hvalid : isValidPath (some p)=true) (hl : vfsLookup s (some p)=some i) (hv : table s i=some v)
    (newPath : Option CStr) :
    (¬Renames s v newPath ∧ vfsRename s (some p) newPath=(s,-1)) ∨
    ∃ q,newPath=some q ∧ Renames s v newPath ∧ (vfsRename s (some p) newPath).2=0 ∧
      Changes s (vfsRename s (some p) newPath).1 i (some {v with path := q.take 127}) := by
  obtain ⟨hlive,rfl⟩ := table_eq_some_iff.mp hv
  unfold vfsRename Renames
  by_cases hn : isValidPath newPath=true ∧ isValidPathLen newPath=true
  · rw [if_neg (by simp [hvalid,hn])]
    simp only [hl]
    by_cases hp : (s.nodes i).perm&&&vfsPermWrite=0 ∧ (s.nodes i).type=.file
    · rw [if_pos hp]
      exact Or.inl ⟨fun hr => hr.2.2.1 hp,rfl⟩
    · rw [if_neg hp]
      cases hf : vfsLookup s newPath with
      | some j =>
        refine Or.inl ⟨?_,rfl⟩
        rintro ⟨_,_,_,hr⟩
        cases hr
      | none =>
        cases newPath with
        | none => cases hn.1
        | some q =>
          refine Or.inr ⟨q,rfl,⟨hn.1,hn.2,hp,rfl⟩,rfl,rfl,?_⟩
          have hput := puts_setNode h hlive.1
            {s.nodes i with path := vfsStrcpy (s.nodes i).path q.bytes vfsPathLen} (h.ownRow i)
          rw [if_pos hlive.2] at hput
          simp only [viewNode,rowStr_vfsStrcpy] at hput
          exact hput
  · rw [if_pos (by rcases not_and_or.mp hn with hn|hn <;> simp [hn])]
    exact Or.inl ⟨fun hr => hn ⟨hr.1,hr.2.1⟩,rfl⟩

/-- vfs_chmod on a path that was found. -/
theorem vfsChmod_found {s : Vfs F} (h : Shape s) {path : Option CStr} {i : Slot} {v : NodeView F}
    (hl : vfsLookup s path=some i) (hv : table s i=some v) (perm : Half) :
    (vfsChmod s path perm).2=0 ∧ Changes s (vfsChmod s path perm).1 i (some {v with perm := perm}) := by
  obtain ⟨hlive,rfl⟩ := table_eq_some_iff.mp hv
  have hput := puts_setNode h hlive.1 {s.nodes i with perm := perm} (h.ownRow i)
  rw [if_pos hlive.2] at hput
  unfold vfsChmod
  rw [hl]
  exact ⟨rfl,rfl,hput⟩

/-- Calls by path fail when no visible node has it. -/
theorem calls_not_found {s : Vfs F} {path : Option CStr} (hl : vfsLookup s path=none) :
    (∀ data size,vfsWrite s path data size=(s,-1)) ∧ vfsRemove s path=(s,-1) ∧
      (∀ newPath,vfsRename s path newPath=(s,-1)) ∧ ∀ perm,vfsChmod s path perm=(s,-1) := by
  refine ⟨?_,?_,?_,?_⟩
  · intro data size
    unfold vfsWrite
    cases path <;> cases data <;> simp [hl]
  · unfold vfsRemove
    cases hv : isValidPath path with
    | false => rfl
    | true =>
      rw [vfsLookup,if_pos hv] at hl
      simp [hl]
  · intro newPath
    unfold vfsRename
    simp [hl]
  · intro perm
    unfold vfsChmod
    simp [hl]

end EronKernel.VfsTable

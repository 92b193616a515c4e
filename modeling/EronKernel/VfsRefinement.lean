import EronKernel.VfsTable

/-!
# The node array refines a finite map

The abstract file system is a map from paths to entries and a counter of
creations. A run is restricted as the shell's commands restrict it: paths fit
their slot, a node is created only where lookup finds none, and contents have
no NUL. Under these restrictions every reply of vfs.c is the map's reply.
-/

namespace EronKernel.VfsRefinement

open ByteMemory CString SlotMap VfsModel VfsTable

variable {F : Type}

/-- What a path names. -/
inductive Kind (F : Type) where
  /-- A regular file with its content. -/
  | file (content : CStr)
  /-- A directory. -/
  | dir
  /-- A device. -/
  | dev
  /-- A proc file with its read function. -/
  | proc (fn : F)

/-- An entry of the abstract file system. -/
structure Entry (F : Type) where
  /-- What the path names. -/
  kind : Kind F
  /-- Permission bits. -/
  perm : Half

/-- The abstract file system. -/
structure FsMap (F : Type) where
  /-- Entries by path. -/
  entries : CStr→Option (Entry F)
  /-- Creations so far. -/
  created : ℕ

/-- The type that vfs.c stores for a kind; proc files count as files. -/
def Kind.type : Kind F→VfsType
  | .file _ => .file
  | .dir => .dir
  | .dev => .dev
  | .proc _ => .file

/-- The stored content of a kind. -/
def Kind.content : Kind F→CStr
  | .file c => c
  | _ => .empty

/-- The read function of a kind. -/
def Kind.read : Kind F→Option F
  | .proc f => some f
  | _ => none

/-- The kind that vfs_mkproc creates; without a function it is an empty file. -/
def procKind : Option F→Kind F
  | none => .file .empty
  | some f => .proc f

/-- What a caller of vfs_lookup sees of an entry. -/
def entryView (x : CStr×Entry F) : NodeView F :=
  ⟨x.1,x.2.kind.type,x.2.kind.content,x.2.kind.read,
    BitVec.ofNat 32 x.2.kind.content.bytes.length,x.2.perm⟩

/-- No entries and no creations. -/
def FsMap.empty : FsMap F := ⟨fun _ => none,0⟩

/-- The entry of a path argument. -/
def FsMap.find (m : FsMap F) : Option CStr→Option (Entry F)
  | none => none
  | some p => m.entries p

/-- Create: add the key when the path is valid and fewer than 128 creations
have happened. -/
def FsMap.create (m : FsMap F) (path : Option CStr) (kind : Kind F) (perm : Half) : FsMap F×ℤ :=
  match path with
  | none => (m,-1)
  | some p =>
    if isValidPath (some p)=true ∧ isValidPathLen (some p)=true ∧ m.created<128 then
      (⟨Function.update m.entries p (some ⟨kind,perm⟩),m.created+1⟩,0)
    else (m,-1)

/-- Read a file's content, or what a proc file's function returns. -/
def FsMap.read (m : FsMap F) (call : F→Buf→Word→ℤ×Buf) (path : Option CStr) (buf : Option Buf)
    (size : Word) : ℤ×Option Buf :=
  match buf with
  | none => (-1,none)
  | some b =>
    if size=0 then (-1,some b)
    else
      let size := if maxReadSize<size then maxReadSize else size
      match m.find path with
      | none => (-1,some b)
      | some ⟨.dir,_⟩ => (-1,some b)
      | some ⟨.proc f,_⟩ =>
        let r := call f b size
        (r.1,some r.2)
      | some ⟨kind,perm⟩ =>
        if perm&&&vfsPermRead=0 then (-1,some b)
        else
          let bytes := kind.content.bytes.take (size.toNat-1)
          (bytes.length,some (fillBuf b bytes))

/-- Write: replace the content of a writable regular file by the first 4095
bytes of the data. -/
def FsMap.write (m : FsMap F) (path : Option CStr) (data : Option Buf) (size : Word) : FsMap F×ℤ :=
  match path,data with
  | some p,some d =>
    match m.entries p with
    | some ⟨.file _,perm⟩ =>
      if perm&&&vfsPermWrite=0 then (m,-1)
      else
        let k := min size.toNat 4095
        (⟨Function.update m.entries p (some ⟨.file (.ofBytes ((List.range k).map d)),perm⟩),
          m.created⟩,k)
    | _ => (m,-1)
  | _,_ => (m,-1)

/-- Remove: delete a writable key. -/
def FsMap.remove (m : FsMap F) (path : Option CStr) : FsMap F×ℤ :=
  match path with
  | none => (m,-1)
  | some p =>
    match m.entries p with
    | none => (m,-1)
    | some e =>
      if e.perm&&&vfsPermWrite=0 then (m,-1)
      else (⟨Function.update m.entries p none,m.created⟩,0)

/-- Rename: move the entry unchanged when the new path is valid and absent
and the entry is not a file without write permission. -/
def FsMap.rename (m : FsMap F) (oldPath newPath : Option CStr) : FsMap F×ℤ :=
  match oldPath,newPath with
  | some p,some q =>
    match m.entries p with
    | none => (m,-1)
    | some e =>
      if isValidPath (some q)=true ∧ isValidPathLen (some q)=true ∧
          ¬(e.perm&&&vfsPermWrite=0 ∧ e.kind.type=.file) ∧ (m.entries q).isNone then
        (⟨Function.update (Function.update m.entries p none) q (some e),m.created⟩,0)
      else (m,-1)
  | _,_ => (m,-1)

/-- Change the permission bits of an entry. -/
def FsMap.chmod (m : FsMap F) (path : Option CStr) (perm : Half) : FsMap F×ℤ :=
  match path with
  | none => (m,-1)
  | some p =>
    match m.entries p with
    | none => (m,-1)
    | some e => (⟨Function.update m.entries p (some ⟨e.kind,perm⟩),m.created⟩,0)

/-- Pair a return code with the map. -/
def mapCode (r : FsMap F×ℤ) : FsMap F×Reply F := (r.1,.code r.2)

/-- One call on the abstract file system. -/
def FsMap.perform (m : FsMap F) : VfsCall F→FsMap F×Reply F
  | .mkdir path => mapCode (m.create path .dir 0)
  | .mkfile path content =>
    mapCode (m.create path (.file (argStr content)) (vfsPermRead|||vfsPermWrite))
  | .mkdev path => mapCode (m.create path .dev 0)
  | .mkproc path readFn => mapCode (m.create path (procKind readFn) 0)
  | .lookup path => (m,.node (path.bind fun p => (m.entries p).map fun e => entryView (p,e)))
  | .read call path buf size =>
    let r := m.read call path buf size
    (m,.data r.1 r.2)
  | .write path data size => mapCode (m.write path data size)
  | .remove path => mapCode (m.remove path)
  | .rename oldPath newPath => mapCode (m.rename oldPath newPath)
  | .chmod path perm => mapCode (m.chmod path perm)

/-- Perform calls one after the other and collect the replies. -/
def runCalls {σ c r : Type} (step : σ→c→σ×r) : σ→List c→σ×List r
  | s,[] => (s,[])
  | s,x::xs =>
    let out := step s x
    let rest := runCalls step out.1 xs
    (rest.1,out.2::rest.2)

/-- A path argument is shorter than the slot's path array. -/
def Short (path : Option CStr) : Prop := (argBytes path).length<vfsPathLen

instance (path : Option CStr) : Decidable (Short path) := inferInstanceAs (Decidable (_<_))

/-- The restrictions on a call in a state. -/
def Allowed (s : Vfs F) : VfsCall F→Prop
  | .mkdir path => Short path ∧ vfsLookup s path=none
  | .mkfile path content =>
    Short path ∧ vfsLookup s path=none ∧ (argBytes content).length<vfsMaxFileSize
  | .mkdev path => Short path ∧ vfsLookup s path=none
  | .mkproc path _ => Short path ∧ vfsLookup s path=none
  | .lookup path => Short path
  | .read _ path _ _ => Short path
  | .write path data size => Short path ∧ ∀ d,data=some d→∀ k<size.toNat,d k≠0
  | .remove path => Short path
  | .rename oldPath newPath => Short oldPath ∧ Short newPath
  | .chmod path _ => Short path

/-- Every call of a run is allowed in the state it is made in. -/
def AllowedRun : Vfs F→List (VfsCall F)→Prop
  | _,[] => True
  | s,c::cs => Allowed s c ∧ AllowedRun (performCall s c).1 cs

/-- The node array stands for the map through a table of entries. -/
structure Simulates (s : Vfs F) (m : FsMap F) (t : Slot→Option (CStr×Entry F)) : Prop where
  /-- The statics have their shape. -/
  shape : Shape s
  /-- Slots handed out are creations. -/
  created : m.created=s.nodeCount
  /-- The table of entries represents the map. -/
  represents : Represents t m.entries
  /-- Callers see exactly the entries. -/
  views : table s=fun i => (t i).map entryView
  /-- Only valid paths are keys. -/
  valid : ∀ p e,m.entries p=some e→isValidPath (some p)=true

/-- The zeroed statics after vfs_init stand for the empty map. -/
theorem simulates_init :
    Simulates (vfsInit (zeroed : Vfs F)) FsMap.empty (fun _ => none) where
  shape := shape_init
  created := rfl
  represents := represents_empty
  views := table_init _
  valid := by
    intro p e he
    cases he

/-- A visible slot shows the entry the table of entries has there. -/
theorem Simulates.table_some {s : Vfs F} {m : FsMap F} {t : Slot→Option (CStr×Entry F)}
    (h : Simulates s m t) {i : Slot} {v : NodeView F} (hv : table s i=some v) :
    ∃ e,t i=some (v.path,e) ∧ v=entryView (v.path,e) := by
  rw [h.views] at hv
  obtain ⟨⟨p,e⟩,ht,rfl⟩ := Option.map_eq_some_iff.mp hv
  exact ⟨e,ht,rfl⟩

/-- Lookup finds the slot of the path's entry, or there is none. -/
theorem Simulates.lookup {s : Vfs F} {m : FsMap F} {t : Slot→Option (CStr×Entry F)}
    (h : Simulates s m t) (path : Option CStr) :
    (∃ p i e,path=some p ∧ isValidPath path=true ∧ findPath s p.bytes=some i ∧
      vfsLookup s path=some i ∧ t i=some (p,e) ∧ m.entries p=some e ∧
      table s i=some (entryView (p,e))) ∨
    (vfsLookup s path=none ∧ m.find path=none) := by
  rcases vfsLookup_cases s path with ⟨p,i,v,rfl,hvalid,hf,hl,hv,rfl⟩|⟨hl,hnone⟩
  · obtain ⟨e,ht,he⟩ := h.table_some hv
    exact Or.inl ⟨v.path,i,e,rfl,hvalid,hf,hl,ht,h.represents.apply ht,by rw [hv,←he]⟩
  · refine Or.inr ⟨hl,?_⟩
    cases path with
    | none => rfl
    | some p =>
      apply h.represents.apply_none
      intro i e ht
      have hm := h.represents.apply ht
      refine (hnone p rfl (h.valid p e hm)).2 i (entryView (p,e)) ?_ rfl
      rw [h.views]
      dsimp only
      rw [ht]
      rfl

/-- Updating the table in one slot updates the table of entries there. -/
theorem views_update {s u : Vfs F} {m : FsMap F} {t : Slot→Option (CStr×Entry F)}
    (h : Simulates s m t) {i : Slot} (x : Option (CStr×Entry F)) (hp : Puts s u i (x.map entryView)) :
    table u=fun j => (Function.update t i x j).map entryView := by
  rw [hp.table_eq,h.views]
  funext j
  rw [Function.update_apply,Function.update_apply]
  split_ifs <;> rfl

/-- A changed slot moves its key. -/
theorem Simulates.change {s u : Vfs F} {m : FsMap F} {t : Slot→Option (CStr×Entry F)}
    (h : Simulates s m t) {i : Slot} {p q : CStr} {e f : Entry F} (hi : t i=some (p,e))
    (hq : q=p ∨ m.entries q=none) (hvalid : isValidPath (some q)=true)
    (hc : Changes s u i (some (entryView (q,f)))) :
    Simulates u ⟨Function.update (Function.update m.entries p none) q (some f),m.created⟩
      (Function.update t i (some (q,f))) where
  shape := hc.2.shape
  created := h.created.trans hc.1.symm
  represents := h.represents.replace f hi hq
  views := views_update h (some (q,f)) hc.2
  valid := by
    intro k g hk
    dsimp only at hk
    rw [Function.update_apply,Function.update_apply] at hk
    split_ifs at hk with hkq hkp
    · rw [hkq]
      exact hvalid
    · exact h.valid k g hk

/-- A change that keeps the path. -/
theorem Simulates.edit {s u : Vfs F} {m : FsMap F} {t : Slot→Option (CStr×Entry F)}
    (h : Simulates s m t) {i : Slot} {p : CStr} {e f : Entry F} (hi : t i=some (p,e))
    (hc : Changes s u i (some (entryView (p,f)))) :
    Simulates u ⟨Function.update m.entries p (some f),m.created⟩ (Function.update t i (some (p,f))) := by
  have hs := h.change hi (Or.inl rfl) (h.valid p e (h.represents.apply hi)) hc
  rwa [Function.update_idem] at hs

/-- A cleared slot deletes its key. -/
theorem Simulates.clear {s u : Vfs F} {m : FsMap F} {t : Slot→Option (CStr×Entry F)}
    (h : Simulates s m t) {i : Slot} {p : CStr} {e : Entry F} (hi : t i=some (p,e))
    (hc : Changes s u i none) :
    Simulates u ⟨Function.update m.entries p none,m.created⟩ (Function.update t i none) where
  shape := hc.2.shape
  created := h.created.trans hc.1.symm
  represents := h.represents.clear hi
  views := views_update h none hc.2
  valid := by
    intro k g hk
    dsimp only at hk
    rw [Function.update_apply] at hk
    split_ifs at hk
    exact h.valid k g hk

/-- A creating call simulates the map's creation. -/
theorem simulates_create {s : Vfs F} {m : FsMap F} {t : Slot→Option (CStr×Entry F)}
    (h : Simulates s m t) {path : Option CStr} (hshort : Short path) (hfree : vfsLookup s path=none)
    {r : Vfs F×ℤ} {v : CStr→NodeView F} (hc : Creates s path r 0 v) (kind : Kind F) (perm : Half)
    (hv : ∀ p,v p=entryView (p.take 127,⟨kind,perm⟩)) :
    (∃ t',Simulates r.1 (m.create path kind perm).1 t') ∧ r.2=(m.create path kind perm).2 := by
  rcases hc with ⟨hno,rfl⟩|⟨p,rfl,hyes,hcode,i,hi,hcount,hput⟩
  · have hfail : m.create path kind perm=(m,-1) := by
      cases path with
      | none => rfl
      | some p =>
        have hno' : ¬(isValidPath (some p)=true ∧ isValidPathLen (some p)=true ∧ m.created<128) := by
          rw [h.created]
          exact hno
        exact if_neg hno'
    rw [hfail]
    exact ⟨⟨t,h⟩,rfl⟩
  · have htake : p.take 127=p := CStr.take_of_length_le (Nat.le_of_lt_succ hshort)
    have hfind : m.entries p=none := by
      rcases h.lookup (some p) with ⟨_,_,_,_,_,_,hl,_⟩|⟨_,hnone⟩
      · rw [hfree] at hl
        cases hl
      · exact hnone
    have hslot : t i=none := by
      have htab := table_fresh (Nat.le_of_eq hi.symm)
      rw [h.views] at htab
      exact Option.map_eq_none_iff.mp htab
    have hyes' : isValidPath (some p)=true ∧ isValidPathLen (some p)=true ∧ m.created<128 := by
      rw [h.created]
      exact hyes
    have hsome : m.create (some p) kind perm=
        (⟨Function.update m.entries p (some ⟨kind,perm⟩),m.created+1⟩,0) := if_pos hyes'
    rw [hv,htake] at hput
    rw [hsome]
    refine ⟨⟨Function.update t i (some (p,⟨kind,perm⟩)),hput.shape,?_,h.represents.insert _ hslot hfind,
      views_update h (some (p,⟨kind,perm⟩)) hput,?_⟩,hcode⟩
    · dsimp only
      rw [hcount,h.created]
    · intro k g hk
      dsimp only at hk
      rw [Function.update_apply] at hk
      split_ifs at hk with hkp
      · rw [hkp]
        exact hyes.1
      · exact h.valid k g hk

/-- vfs_read gives what the map gives. -/
theorem simulates_read {s : Vfs F} {m : FsMap F} {t : Slot→Option (CStr×Entry F)}
    (h : Simulates s m t) (call : F→Buf→Word→ℤ×Buf) (path : Option CStr) (buf : Option Buf)
    (size : Word) : vfsRead call s path buf size=m.read call path buf size := by
  cases buf with
  | none => rfl
  | some b =>
    unfold vfsRead FsMap.read
    rcases h.lookup path with ⟨p,i,⟨kind,perm⟩,rfl,_,_,hl,_,hm,hv⟩|⟨hl,hm⟩
    · obtain ⟨_,hview⟩ := table_eq_some_iff.mp hv
      simp only [viewNode,entryView,NodeView.mk.injEq] at hview
      obtain ⟨_,htype,hcontent,hread,_,hperm⟩ := hview
      simp only [hl,FsMap.find,hm,htype,hread,hperm,hcontent]
      cases kind <;> simp [Kind.type,Kind.read,Kind.content]
    · simp only [hl,hm]

/-- vfs_write stores as many bytes as the map does. -/
theorem writtenSize_eq (size : Word) : writtenSize size=min size.toNat 4095 := by
  have hmax : vfsDataMax=4096 := rfl
  unfold writtenSize
  split_ifs with h <;> omega

/-- The bytes that vfs_write stores of data without NUL. -/
theorem written_nonzero {d : Buf} {size : Word} (hd : ∀ k<size.toNat,d k≠0) :
    (0 : Byte)∉(List.range (writtenSize size)).map d := by
  intro hz
  obtain ⟨k,hk,hzero⟩ := List.mem_map.mp hz
  have hlt := List.mem_range.mp hk
  rw [writtenSize_eq] at hlt
  exact hd k (by omega) hzero

/-- The view of a file after such data was written. -/
theorem entryView_written {d : Buf} {size : Word} (hd : ∀ k<size.toNat,d k≠0) (p c : CStr) (perm : Half) :
    entryView (p,(⟨.file (.ofBytes ((List.range (writtenSize size)).map d)),perm⟩ : Entry F))=
      {entryView (p,(⟨.file c,perm⟩ : Entry F)) with
        content := .ofBytes ((List.range (writtenSize size)).map d)
        size := BitVec.ofNat 32 (writtenSize size)} := by
  have hlen : (CStr.ofBytes ((List.range (writtenSize size)).map d)).bytes.length=writtenSize size := by
    rw [CStr.ofBytes_bytes (written_nonzero hd)]
    simp
  simp only [entryView,Kind.type,Kind.content,Kind.read,hlen]

/-- vfs_write simulates the map's write. -/
theorem simulates_write {s : Vfs F} {m : FsMap F} {t : Slot→Option (CStr×Entry F)}
    (h : Simulates s m t) (path : Option CStr) (data : Option Buf) (size : Word)
    (hdata : ∀ d,data=some d→∀ k<size.toNat,d k≠0) :
    (∃ t',Simulates (vfsWrite s path data size).1 (m.write path data size).1 t') ∧
      (vfsWrite s path data size).2=(m.write path data size).2 := by
  cases data with
  | none =>
    have hc : vfsWrite s path none size=(s,-1) := by cases path <;> rfl
    have hm : m.write path none size=(m,-1) := by cases path <;> rfl
    rw [hc,hm]
    exact ⟨⟨t,h⟩,rfl⟩
  | some d =>
    rcases h.lookup path with ⟨p,i,⟨kind,perm⟩,rfl,_,_,hl,hi,hm,hv⟩|⟨hl,hm⟩
    · unfold FsMap.write
      simp only [hm]
      rcases vfsWrite_found h.shape hl hv d size with ⟨hno,hrun⟩|⟨⟨htype,hread,hperm⟩,hcode,hch⟩
      · rw [hrun]
        cases kind with
        | file c =>
          have hp : perm&&&vfsPermWrite=0 := by
            by_contra hp
            exact hno ⟨rfl,rfl,hp⟩
          dsimp only
          rw [if_pos hp]
          exact ⟨⟨t,h⟩,rfl⟩
        | _ => exact ⟨⟨t,h⟩,rfl⟩
      · cases kind with
        | file c =>
          have hp : ¬perm&&&vfsPermWrite=0 := hperm
          simp only [if_neg hp,←writtenSize_eq]
          refine ⟨⟨_,h.edit hi ?_⟩,hcode⟩
          rw [entryView_written (hdata d rfl) p c perm]
          exact hch
        | dir => cases htype
        | dev => cases htype
        | proc f => cases hread
    · have hmw : m.write path (some d) size=(m,-1) := by
        cases path with
        | none => rfl
        | some p =>
          simp only [FsMap.find] at hm
          simp only [FsMap.write,hm]
      rw [(calls_not_found hl).1,hmw]
      exact ⟨⟨t,h⟩,rfl⟩

/-- vfs_remove simulates the map's removal. -/
theorem simulates_remove {s : Vfs F} {m : FsMap F} {t : Slot→Option (CStr×Entry F)}
    (h : Simulates s m t) (path : Option CStr) :
    (∃ t',Simulates (vfsRemove s path).1 (m.remove path).1 t') ∧
      (vfsRemove s path).2=(m.remove path).2 := by
  rcases h.lookup path with ⟨p,i,e,rfl,hvalid,hf,_,hi,hm,hv⟩|⟨hl,hm⟩
  · unfold FsMap.remove
    simp only [hm]
    rcases vfsRemove_found h.shape hvalid hf hv with ⟨hno,hrun⟩|⟨hyes,hcode,hch⟩
    · have hp : e.perm&&&vfsPermWrite=0 := hno
      rw [hrun,if_pos hp]
      exact ⟨⟨t,h⟩,rfl⟩
    · have hp : ¬e.perm&&&vfsPermWrite=0 := hyes
      rw [if_neg hp]
      exact ⟨⟨_,h.clear hi hch⟩,hcode⟩
  · have hmr : m.remove path=(m,-1) := by
      cases path with
      | none => rfl
      | some p =>
        simp only [FsMap.find] at hm
        simp only [FsMap.remove,hm]
    rw [(calls_not_found hl).2.1,hmr]
    exact ⟨⟨t,h⟩,rfl⟩

/-- vfs_rename simulates the map's renaming. -/
theorem simulates_rename {s : Vfs F} {m : FsMap F} {t : Slot→Option (CStr×Entry F)}
    (h : Simulates s m t) (oldPath newPath : Option CStr) (hshort : Short newPath) :
    (∃ t',Simulates (vfsRename s oldPath newPath).1 (m.rename oldPath newPath).1 t') ∧
      (vfsRename s oldPath newPath).2=(m.rename oldPath newPath).2 := by
  rcases h.lookup oldPath with ⟨p,i,e,rfl,hvalid,_,hl,hi,hm,hv⟩|⟨hl,hm⟩
  · have hfree : ∀ q,newPath=some q→isValidPath newPath=true→
        (vfsLookup s newPath=none ↔ (m.entries q).isNone=true) := by
      rintro q rfl _
      rcases h.lookup (some q) with ⟨r,_,_,hr,_,_,hlq,_,hmq,_⟩|⟨hlq,hmq⟩
      · cases hr
        rw [hlq,hmq]
        simp
      · rw [hlq,show m.entries q=none from hmq]
        simp
    rcases vfsRename_found h.shape hvalid hl hv newPath with ⟨hno,hrun⟩|⟨q,rfl,hyes,hcode,hch⟩
    · have hmr : m.rename (some p) newPath=(m,-1) := by
        cases newPath with
        | none => rfl
        | some q =>
          simp only [FsMap.rename,hm]
          refine if_neg fun hc => hno ⟨hc.1,hc.2.1,hc.2.2.1,?_⟩
          exact (hfree q rfl hc.1).mpr hc.2.2.2
      rw [hrun,hmr]
      exact ⟨⟨t,h⟩,rfl⟩
    · obtain ⟨hq,hqlen,hperm,hlq⟩ := hyes
      have hnone := (hfree q rfl hq).mp hlq
      have htake : q.take 127=q := CStr.take_of_length_le (Nat.le_of_lt_succ hshort)
      rw [htake] at hch
      have hmr : m.rename (some p) (some q)=
          (⟨Function.update (Function.update m.entries p none) q (some e),m.created⟩,0) := by
        simp only [FsMap.rename,hm]
        exact if_pos ⟨hq,hqlen,hperm,hnone⟩
      rw [hmr]
      exact ⟨⟨_,h.change hi (Or.inr (Option.isNone_iff_eq_none.mp hnone)) hq hch⟩,hcode⟩
  · have hmr : m.rename oldPath newPath=(m,-1) := by
      cases oldPath with
      | none => rfl
      | some p =>
        simp only [FsMap.find] at hm
        cases newPath with
        | none => rfl
        | some q => simp only [FsMap.rename,hm]
    rw [(calls_not_found hl).2.2.1,hmr]
    exact ⟨⟨t,h⟩,rfl⟩

/-- vfs_chmod simulates the map's change of permissions. -/
theorem simulates_chmod {s : Vfs F} {m : FsMap F} {t : Slot→Option (CStr×Entry F)}
    (h : Simulates s m t) (path : Option CStr) (perm : Half) :
    (∃ t',Simulates (vfsChmod s path perm).1 (m.chmod path perm).1 t') ∧
      (vfsChmod s path perm).2=(m.chmod path perm).2 := by
  rcases h.lookup path with ⟨p,i,e,rfl,_,_,hl,hi,hm,hv⟩|⟨hl,hm⟩
  · obtain ⟨hcode,hch⟩ := vfsChmod_found h.shape hl hv perm
    unfold FsMap.chmod
    simp only [hm]
    exact ⟨⟨_,h.edit hi hch⟩,hcode⟩
  · have hmc : m.chmod path perm=(m,-1) := by
      cases path with
      | none => rfl
      | some p =>
        simp only [FsMap.find] at hm
        simp only [FsMap.chmod,hm]
    rw [(calls_not_found hl).2.2.2,hmc]
    exact ⟨⟨t,h⟩,rfl⟩

/-- Every allowed call gives the map's reply and keeps the simulation. -/
theorem performCall_simulates {s : Vfs F} {m : FsMap F} {t : Slot→Option (CStr×Entry F)}
    (h : Simulates s m t) (c : VfsCall F) (ha : Allowed s c) :
    (∃ t',Simulates (performCall s c).1 (m.perform c).1 t') ∧ (performCall s c).2=(m.perform c).2 := by
  cases c with
  | mkdir path =>
    obtain ⟨hs,hc⟩ := simulates_create h ha.1 ha.2 (vfsMkdir_creates h.shape path) .dir 0 fun _ => rfl
    exact ⟨hs,congrArg Reply.code hc⟩
  | mkfile path content =>
    obtain ⟨hs,hc⟩ := simulates_create h ha.1 ha.2.1
      (vfsMkfile_creates h.shape path (Nat.not_le.mpr ha.2.2)) (.file (argStr content))
      (vfsPermRead|||vfsPermWrite) fun _ => rfl
    exact ⟨hs,congrArg Reply.code hc⟩
  | mkdev path =>
    obtain ⟨hs,hc⟩ := simulates_create h ha.1 ha.2 (vfsMkdev_creates h.shape path) .dev 0 fun _ => rfl
    exact ⟨hs,congrArg Reply.code hc⟩
  | mkproc path readFn =>
    have hv : ∀ p : CStr,(⟨p.take 127,.file,.empty,readFn,0,0⟩ : NodeView F)=
        entryView (p.take 127,⟨procKind readFn,0⟩) := by
      intro p
      cases readFn <;> rfl
    obtain ⟨hs,hc⟩ := simulates_create h ha.1 ha.2 (vfsMkproc_creates h.shape path readFn) _ _ hv
    exact ⟨hs,congrArg Reply.code hc⟩
  | lookup path =>
    refine ⟨⟨t,h⟩,congrArg Reply.node ?_⟩
    rcases h.lookup path with ⟨p,i,e,rfl,_,_,hl,_,hm,hv⟩|⟨hl,hm⟩
    · rw [hl]
      simp only [Option.map_some,Option.bind_some,hm]
      rw [(table_eq_some_iff.mp hv).2]
    · rw [hl]
      cases path with
      | none => rfl
      | some p =>
        simp only [FsMap.find] at hm
        simp only [Option.map_none,Option.bind_some,hm]
  | read call path buf size =>
    refine ⟨⟨t,h⟩,?_⟩
    simp only [performCall,FsMap.perform,simulates_read h]
  | write path data size =>
    obtain ⟨hs,hc⟩ := simulates_write h path data size ha.2
    exact ⟨hs,congrArg Reply.code hc⟩
  | remove path =>
    obtain ⟨hs,hc⟩ := simulates_remove h path
    exact ⟨hs,congrArg Reply.code hc⟩
  | rename oldPath newPath =>
    obtain ⟨hs,hc⟩ := simulates_rename h oldPath newPath ha.2
    exact ⟨hs,congrArg Reply.code hc⟩
  | chmod path perm =>
    obtain ⟨hs,hc⟩ := simulates_chmod h path perm
    exact ⟨hs,congrArg Reply.code hc⟩

/-- Runs that keep the restrictions keep the simulation and agree in every
reply. -/
theorem runCalls_simulates (cs : List (VfsCall F)) :
    ∀ {s : Vfs F} {m : FsMap F} {t : Slot→Option (CStr×Entry F)},Simulates s m t→AllowedRun s cs→
      (∃ t',Simulates (runCalls performCall s cs).1 (runCalls FsMap.perform m cs).1 t') ∧
        (runCalls performCall s cs).2=(runCalls FsMap.perform m cs).2 := by
  induction cs with
  | nil => exact fun h _ => ⟨⟨_,h⟩,rfl⟩
  | cons c cs ih =>
    intro s m t h ha
    obtain ⟨⟨t',hstep⟩,hreply⟩ := performCall_simulates h c ha.1
    obtain ⟨hrest,hreplies⟩ := ih hstep ha.2
    simp only [runCalls]
    exact ⟨hrest,by rw [hreply,hreplies]⟩

/-- In every restricted run from vfs_init on zeroed statics the node array
gives the map's replies and still stands for the map. -/
theorem vfs_refines_map {cs : List (VfsCall F)} (ha : AllowedRun (vfsInit zeroed) cs) :
    (runCalls performCall (vfsInit zeroed) cs).2=(runCalls FsMap.perform FsMap.empty cs).2 ∧
      ∃ t,Simulates (runCalls performCall (vfsInit zeroed) cs).1
        (runCalls FsMap.perform FsMap.empty cs).1 t := by
  obtain ⟨hs,hr⟩ := runCalls_simulates cs simulates_init ha
  exact ⟨hr,hs⟩

/-- The path "/a". -/
def pathA : CStr := ⟨[0x2F,0x61],by decide⟩

/-- The path "/b". -/
def pathB : CStr := ⟨[0x2F,0x62],by decide⟩

/-- Create a file, overwrite it, move it, make it readable and remove it. -/
def fileLife : List (VfsCall Unit) :=
  [.mkfile (some pathA) none,.write (some pathA) (some fun _ => 0x78) 3,
    .rename (some pathA) (some pathB),.chmod (some pathB) 7,.remove (some pathB)]

/-- The refinement along the life of one file. -/
theorem fileLife_refines_map :
    AllowedRun (vfsInit zeroed) fileLife ∧
      (runCalls performCall (vfsInit zeroed) fileLife).2=
        (runCalls FsMap.perform FsMap.empty fileLife).2 := by
  have hwrite : ∀ d : Buf,some (fun _ => 0x78)=some d→∀ k<(3 : Word).toNat,d k≠0 := by
    intro d hd k _
    cases hd
    exact (by decide : (0x78 : Byte)≠0)
  have hA : Short (some pathA) := by decide
  have hB : Short (some pathB) := by decide
  have hrun : AllowedRun (vfsInit (zeroed : Vfs Unit)) fileLife :=
    ⟨⟨hA,rfl,by decide⟩,⟨hA,hwrite⟩,⟨hA,hB⟩,hB,hB,trivial⟩
  exact ⟨hrun,(vfs_refines_map hrun).1⟩

end EronKernel.VfsRefinement

import EronKernel.CString

/-!
# The flat file system of vfs.c

Nodes live in a static array and are handed out in order; a removed node
keeps its slot. Paths and file contents are stored in fixed byte arrays, one
pool row per slot. Path and content arguments are C strings or NULL, data
arguments are bytes behind a pointer or NULL. Read functions of proc nodes
are values of an arbitrary type; a read is given their meaning. The fields
write, uid and gid of a node are never accessed by vfs.c and are left out.
-/

namespace EronKernel.VfsModel

open ByteMemory CString

/-- Number of node slots. -/
abbrev vfsMaxNodes : ℕ := 128

/-- Bytes of a stored path, terminator included. -/
abbrev vfsPathLen : ℕ := 128

/-- Bytes of a pool row. -/
abbrev vfsDataMax : ℕ := 4096

/-- Length from which is_valid_path_len refuses a path. -/
abbrev vfsMaxPathLen : ℕ := 256

/-- Length from which vfs_mkfile refuses a content. -/
abbrev vfsMaxFileSize : ℕ := 4096

/-- Largest request that vfs_read serves. -/
abbrev maxReadSize : Word := 4096

/-- Permission bit for reading. -/
abbrev vfsPermRead : Half := 1

/-- Permission bit for writing, removing and renaming. -/
abbrev vfsPermWrite : Half := 2

/-- Index of a node slot. -/
abbrev Slot := Fin 128

/-- Bytes behind a buffer pointer, by offset. -/
abbrev Buf := ℕ→Byte

/-- enum vfs_type. -/
inductive VfsType where
  /-- The slot holds no node. -/
  | unused
  /-- A regular file or a proc file. -/
  | file
  /-- A directory. -/
  | dir
  /-- A device. -/
  | dev
  /-- A link; no operation creates one. -/
  | link
  deriving DecidableEq,Repr

/-- struct vfs_node, over an arbitrary type of read functions. -/
structure VfsNode (F : Type) where
  /-- The stored path. -/
  path : Row 128
  /-- What the slot holds. -/
  type : VfsType
  /-- NULL, or the pool row with the content. -/
  data : Option Slot
  /-- NULL, or the read function of a proc node. -/
  read : Option F
  /-- Length of the content. -/
  size : Word
  /-- Permission bits. -/
  perm : Half

/-- The statics of vfs.c. -/
structure Vfs (F : Type) where
  /-- The node array. -/
  nodes : Slot→VfsNode F
  /-- Slots handed out so far. -/
  nodeCount : ℕ
  /-- Rows of file contents. -/
  fileDataPool : Slot→Row 4096
  /-- Marks of the rows in use. -/
  fileDataUsed : Slot→Byte

variable {F : Type}

/-- Statics before the first call. -/
def zeroed : Vfs F where
  nodes := fun _ => ⟨fun _ => 0,.unused,none,none,0,0⟩
  nodeCount := 0
  fileDataPool := fun _ _ => 0
  fileDataUsed := fun _ => 0

/-- Replace one node. -/
def Vfs.setNode (s : Vfs F) (i : Slot) (n : VfsNode F) : Vfs F :=
  {s with nodes := Function.update s.nodes i n}

/-- Write a string and its terminator over one pool row and mark the row. -/
def Vfs.setRow (s : Vfs F) (i : Slot) (bytes : List Byte) (used : Byte) : Vfs F :=
  {s with
    fileDataPool := Function.update s.fileDataPool i (copyRow (s.fileDataPool i) bytes)
    fileDataUsed := Function.update s.fileDataUsed i used}

/-- Bytes in front of the terminator of an argument; NULL has none. -/
def argBytes : Option CStr→List Byte
  | none => []
  | some p => p.bytes

/-- vfs_strcmp on the bytes in front of both terminators. -/
def vfsStrcmp : List Byte→List Byte→ℤ
  | a::as,b::bs => if a=b then vfsStrcmp as bs else (a.toNat : ℤ)-b.toNat
  | [],b::_ => -(b.toNat : ℤ)
  | a::_,[] => a.toNat
  | [],[] => 0

/-- vfs_strcpy: at most max-1 bytes and a terminator. -/
def vfsStrcpy {n : ℕ} (dst : Row n) (src : List Byte) (max : ℕ) : Row n :=
  copyRow dst (src.take (max-1))

/-- Whether two dots follow each other. -/
def hasDotDot : List Byte→Bool
  | [] => false
  | a::as => (a==0x2E && as.headD 0==0x2E) || hasDotDot as

/-- is_valid_path; its search for an embedded NUL ends at the terminator and
never finds one. -/
def isValidPath : Option CStr→Bool
  | none => false
  | some p => !p.bytes.isEmpty && !hasDotDot p.bytes

/-- is_valid_path_len. -/
def isValidPathLen : Option CStr→Bool
  | none => false
  | some p => !(p.bytes.length==0 || decide (vfsMaxPathLen≤p.bytes.length))

/-- vfs_init. -/
def vfsInit (s : Vfs F) : Vfs F :=
  {s with
    nodes := fun i => {s.nodes i with type := .unused}
    fileDataUsed := fun _ => 0
    nodeCount := 0}

/-- vfs_alloc: the next slot, never one that was handed out before. -/
def vfsAlloc (s : Vfs F) : Option (Slot×Vfs F) :=
  if h : s.nodeCount<128 then
    let i : Slot := ⟨s.nodeCount,h⟩
    some (i,{s.setNode i {s.nodes i with data := none, read := none, size := 0} with
      nodeCount := s.nodeCount+1})
  else none

/-- The common start of the creating calls: check the path, take a slot, store
the path and the type. The rest of the call continues from there. -/
def makeNode (s : Vfs F) (path : Option CStr) (type : VfsType)
    (rest : Slot→Vfs F→Vfs F×ℤ) : Vfs F×ℤ :=
  if !isValidPath path || !isValidPathLen path then (s,-1)
  else match vfsAlloc s with
    | none => (s,-1)
    | some (i,s) =>
      let n := s.nodes i
      rest i (s.setNode i {n with path := vfsStrcpy n.path (argBytes path) vfsPathLen, type := type})

/-- vfs_mkdir. -/
def vfsMkdir (s : Vfs F) (path : Option CStr) : Vfs F×ℤ :=
  makeNode s path .dir fun _ s => (s,0)

/-- Store a content in the slot's own row and grant reading and writing. -/
def fillFile (i : Slot) (s : Vfs F) (bytes : List Byte) : Vfs F :=
  let s := s.setRow i bytes 1
  let n := s.nodes i
  s.setNode i {n with
    data := some i
    size := BitVec.ofNat 32 bytes.length
    perm := vfsPermRead|||vfsPermWrite}

/-- vfs_mkfile: a content that is too long fails after the slot is taken. -/
def vfsMkfile (s : Vfs F) (path content : Option CStr) : Vfs F×ℤ :=
  makeNode s path .file fun i s =>
    match content with
    | some c => if vfsMaxFileSize ≤ c.bytes.length then (s,-1) else (fillFile i s c.bytes,0)
    | none => (fillFile i s [],0)

/-- vfs_mkdev. -/
def vfsMkdev (s : Vfs F) (path : Option CStr) : Vfs F×ℤ :=
  makeNode s path .dev fun _ s => (s,0)

/-- vfs_mkproc. -/
def vfsMkproc (s : Vfs F) (path : Option CStr) (readFn : Option F) : Vfs F×ℤ :=
  makeNode s path .file fun i s => (s.setNode i {s.nodes i with read := readFn},0)

/-- The first node in use with this path. -/
def findPath (s : Vfs F) (path : List Byte) : Option Slot :=
  (List.finRange 128).find? fun i =>
    decide (i.val<s.nodeCount) && decide ((s.nodes i).type≠.unused) &&
      vfsStrcmp (rowString (s.nodes i).path) path==0

/-- vfs_lookup. -/
def vfsLookup (s : Vfs F) (path : Option CStr) : Option Slot :=
  if isValidPath path then findPath s (argBytes path) else none

/-- The string that a node's data pointer leads to. -/
def nodeContent (s : Vfs F) (n : VfsNode F) : CStr :=
  match n.data with
  | none => .empty
  | some row => rowStr (s.fileDataPool row)

/-- Write bytes and a terminator at the start of a buffer. -/
def fillBuf (buf : Buf) (bytes : List Byte) : Buf :=
  fun i => if h : i<bytes.length then bytes[i] else if i=bytes.length then 0 else buf i

/-- vfs_read, with the meaning of the read functions at the time of the call. -/
def vfsRead (call : F→Buf→Word→ℤ×Buf) (s : Vfs F) (path : Option CStr) (buf : Option Buf)
    (size : Word) : ℤ×Option Buf :=
  match buf with
  | none => (-1,none)
  | some b =>
    if size=0 then (-1,some b)
    else
      let size := if maxReadSize<size then maxReadSize else size
      match vfsLookup s path with
      | none => (-1,some b)
      | some i =>
        let n := s.nodes i
        if n.type=.dir then (-1,some b)
        else if n.perm&&&vfsPermRead=0 ∧ n.read.isNone then (-1,some b)
        else match n.read with
          | some f =>
            let r := call f b size
            (r.1,some r.2)
          | none =>
            let bytes := (nodeContent s n).bytes.take (size.toNat-1)
            (bytes.length,some (fillBuf b bytes))

/-- vfs_write. -/
def vfsWrite (s : Vfs F) (path : Option CStr) (data : Option Buf) (size : Word) : Vfs F×ℤ :=
  match path,data with
  | none,_ => (s,-1)
  | _,none => (s,-1)
  | path,some d =>
    match vfsLookup s path with
    | none => (s,-1)
    | some i =>
      let n := s.nodes i
      if n.type≠.file ∨ n.read.isSome then (s,-1)
      else if n.perm&&&vfsPermWrite=0 then (s,-1)
      else
        let size := if vfsDataMax ≤ size.toNat then vfsDataMax-1 else size.toNat
        let s := s.setRow i ((List.range size).map d) 1
        (s.setNode i {n with data := some i, size := BitVec.ofNat 32 size},size)

/-- vfs_remove. -/
def vfsRemove (s : Vfs F) (path : Option CStr) : Vfs F×ℤ :=
  if !isValidPath path then (s,-1)
  else match findPath s (argBytes path) with
    | none => (s,-1)
    | some i =>
      let n := s.nodes i
      if n.perm&&&vfsPermWrite=0 then (s,-1)
      else ((s.setRow i [] 0).setNode i
        {n with type := .unused, path := copyRow n.path [], data := none, size := 0},0)

/-- vfs_rename. -/
def vfsRename (s : Vfs F) (oldPath newPath : Option CStr) : Vfs F×ℤ :=
  if !isValidPath oldPath || !isValidPath newPath || !isValidPathLen newPath then (s,-1)
  else match vfsLookup s oldPath with
    | none => (s,-1)
    | some i =>
      let n := s.nodes i
      if n.perm&&&vfsPermWrite=0 ∧ n.type=.file then (s,-1)
      else match vfsLookup s newPath with
        | some _ => (s,-1)
        | none => (s.setNode i {n with path := vfsStrcpy n.path (argBytes newPath) vfsPathLen},0)

/-- vfs_chmod. -/
def vfsChmod (s : Vfs F) (path : Option CStr) (perm : Half) : Vfs F×ℤ :=
  match vfsLookup s path with
  | none => (s,-1)
  | some i => (s.setNode i {s.nodes i with perm := perm},0)

/-- One call of the file system's interface. -/
inductive VfsCall (F : Type) where
  /-- vfs_mkdir. -/
  | mkdir (path : Option CStr)
  /-- vfs_mkfile. -/
  | mkfile (path content : Option CStr)
  /-- vfs_mkdev. -/
  | mkdev (path : Option CStr)
  /-- vfs_mkproc. -/
  | mkproc (path : Option CStr) (readFn : Option F)
  /-- vfs_lookup. -/
  | lookup (path : Option CStr)
  /-- vfs_read, with what the read functions return at that time. -/
  | read (call : F→Buf→Word→ℤ×Buf) (path : Option CStr) (buf : Option Buf) (size : Word)
  /-- vfs_write. -/
  | write (path : Option CStr) (data : Option Buf) (size : Word)
  /-- vfs_remove. -/
  | remove (path : Option CStr)
  /-- vfs_rename. -/
  | rename (oldPath newPath : Option CStr)
  /-- vfs_chmod. -/
  | chmod (path : Option CStr) (perm : Half)

/-- What a caller sees through a pointer to a node. -/
structure NodeView (F : Type) where
  /-- The stored path as a string. -/
  path : CStr
  /-- The type. -/
  type : VfsType
  /-- The content as a string, empty behind NULL. -/
  content : CStr
  /-- The read function. -/
  read : Option F
  /-- The length field. -/
  size : Word
  /-- The permission bits. -/
  perm : Half
  deriving DecidableEq

/-- What a call gives back. -/
inductive Reply (F : Type) where
  /-- A return code. -/
  | code (r : ℤ)
  /-- The node a lookup found, or NULL. -/
  | node (n : Option (NodeView F))
  /-- A read's return value and the buffer afterwards. -/
  | data (r : ℤ) (buf : Option Buf)

/-- The caller's view of a node. -/
def viewNode (s : Vfs F) (n : VfsNode F) : NodeView F :=
  ⟨rowStr n.path,n.type,nodeContent s n,n.read,n.size,n.perm⟩

/-- Pair a return code with the state. -/
def withCode (r : Vfs F×ℤ) : Vfs F×Reply F := (r.1,.code r.2)

/-- Perform one call. -/
def performCall (s : Vfs F) : VfsCall F→Vfs F×Reply F
  | .mkdir path => withCode (vfsMkdir s path)
  | .mkfile path content => withCode (vfsMkfile s path content)
  | .mkdev path => withCode (vfsMkdev s path)
  | .mkproc path readFn => withCode (vfsMkproc s path readFn)
  | .lookup path => (s,.node ((vfsLookup s path).map fun i => viewNode s (s.nodes i)))
  | .read call path buf size =>
    let r := vfsRead call s path buf size
    (s,.data r.1 r.2)
  | .write path data size => withCode (vfsWrite s path data size)
  | .remove path => withCode (vfsRemove s path)
  | .rename oldPath newPath => withCode (vfsRename s oldPath newPath)
  | .chmod path perm => withCode (vfsChmod s path perm)

/-- vfs_strncmp on the bytes in front of both terminators. -/
def vfsStrncmp : List Byte→List Byte→ℕ→ℤ
  | _,_,0 => 0
  | a,b,n+1 =>
    if a.headD 0≠b.headD 0 ∨ a.headD 0=0 then ((a.headD 0).toNat : ℤ)-(b.headD 0).toNat
    else vfsStrncmp a.tail b.tail n

/-- is_direct_child. -/
def isDirectChild (parent childPath : List Byte) : Bool :=
  let plen := parent.length
  if vfsStrcmp parent [0x2F]=0 then
    if childPath.headD 0≠0x2F ∨ childPath.length<2 then false
    else !(childPath.drop 1).contains 0x2F
  else if vfsStrncmp childPath parent plen≠0 then false
  else if (childPath.drop plen).headD 0≠0x2F then false
  else if (childPath.drop (plen+1)).contains 0x2F then false
  else !(childPath.drop (plen+1)).isEmpty

/-- One operation of the file system: a call of its interface or a listing. -/
inductive VfsOp (F : Type) where
  /-- Any other call. -/
  | call (c : VfsCall F)
  /-- vfs_list. -/
  | list (dir : CStr) (max : ℤ)

/-- The statics after an operation; a listing changes nothing. -/
def performOp (s : Vfs F) : VfsOp F→Vfs F
  | .call c => (performCall s c).1
  | .list _ _ => s

/-- The statics after operations one after the other. -/
def performOps (s : Vfs F) (os : List (VfsOp F)) : Vfs F := os.foldl performOp s

/-- Comparison gives zero exactly on equal strings. -/
theorem vfsStrcmp_eq_zero_iff {a b : List Byte} (ha : (0 : Byte)∉a) (hb : (0 : Byte)∉b) :
    vfsStrcmp a b=0 ↔ a=b := by
  have hpos : ∀ x : Byte,x≠0→ x.toNat≠0 := by
    intro x hx he
    exact hx (BitVec.eq_of_toNat_eq he)
  fun_induction vfsStrcmp a b with
  | case1 as b bs ih =>
    simp only [List.mem_cons,not_or] at ha hb
    simpa using ih ha.2 hb.2
  | case2 a as b bs hne =>
    have hn : a.toNat≠b.toNat := fun he => hne (BitVec.eq_of_toNat_eq he)
    simp only [List.cons.injEq,hne,false_and,iff_false]
    omega
  | case3 b bs =>
    have hn := hpos b (fun he => hb (by simp [he]))
    simp only [List.nil_eq,reduceCtorEq,iff_false]
    omega
  | case4 a as =>
    have hn := hpos a (fun he => ha (by simp [he]))
    simp only [reduceCtorEq,iff_false]
    omega
  | case5 => simp

end EronKernel.VfsModel

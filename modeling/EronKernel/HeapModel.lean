import EronKernel.ByteMemory
import EronKernel.FuelLoop

/-!
# The kernel heap of mm.c

Block headers live in the memory that is handed out, so every header access
is a load or store of the flat memory. The tracker is a separate table of
pointers that kfree accepts. Addresses and sizes are machine words and every
sum wraps; a NULL pointer is the zero word. Loops run on explicit fuel and
return no value when it is exhausted.
-/

namespace EronKernel.HeapModel

open ByteMemory FuelLoop

/-- Size of struct block_header: size, magic, used and three padding bytes. -/
abbrev headerSize : Word := 12

/-- The magic word of every header. -/
abbrev blockMagic : Word := 0xEA0BEEF

/-- Header mark of a free block. -/
abbrev blockFree : Byte := 0

/-- Header mark of a block that is handed out. -/
abbrev blockUsed : Byte := 1

/-- Smallest payload worth a header of its own. -/
abbrev minSplitPayload : Word := 16

/-- Capacity of the tracker. -/
abbrev maxTrackedBlocks : ℕ := 256

/-- Round up to a multiple of eight, wrapping. -/
def align8 (x : Word) : Word := (x+7)&&&~~~7

/-- One entry of the tracker. -/
structure TrackedBlock where
  /-- Payload pointer recorded at allocation. -/
  ptr : Word
  /-- Payload size recorded at allocation. -/
  size : Word
  /-- Whether the entry is taken. -/
  inUse : Bool
  deriving DecidableEq

/-- The static array of tracker entries, of its fixed length. -/
structure Tracker where
  /-- The entries in array order. -/
  entries : List TrackedBlock
  /-- The array never changes its length. -/
  length_entries : entries.length=maxTrackedBlocks

/-- Memory together with the statics of the allocator. -/
structure Heap where
  /-- The whole address space, block headers included. -/
  mem : Mem
  /-- First byte of the heap. -/
  heapStart : Word
  /-- First byte behind the heap. -/
  heapEnd : Word
  /-- Pointers that kfree accepts. -/
  tracked : Tracker

/-- The size field of the header at an address. -/
def hdrSize (m : Mem) (hdr : Word) : Word := load32 m hdr

/-- The magic field of the header at an address. -/
def hdrMagic (m : Mem) (hdr : Word) : Word := load32 m (hdr+4)

/-- The used field of the header at an address. -/
def hdrUsed (m : Mem) (hdr : Word) : Byte := m (hdr+8)

/-- Write the size field of a header. -/
def setSize (m : Mem) (hdr size : Word) : Mem := store32 m hdr size

/-- Write the magic field of a header. -/
def setMagic (m : Mem) (hdr magic : Word) : Mem := store32 m (hdr+4) magic

/-- Write the used field of a header. -/
def setUsed (m : Mem) (hdr : Word) (used : Byte) : Mem := store8 m (hdr+8) used

/-- Header and payload of the block at an address. -/
def blockTotalSize (s : Heap) (hdr : Word) : Word := headerSize+hdrSize s.mem hdr

/-- The first header. -/
def firstBlock (s : Heap) : Word := s.heapStart

/-- The following header, or NULL behind the heap. -/
def nextBlock (s : Heap) (hdr : Word) : Word :=
  let addr := hdr+blockTotalSize s hdr
  if s.heapEnd≤addr then 0 else addr

/-- The checks made before a header is trusted. -/
def isBlockValid (s : Heap) (hdr : Word) : Bool :=
  if hdr<s.heapStart ∨ s.heapEnd<hdr+headerSize then false
  else if hdrMagic s.mem hdr≠blockMagic then false
  else if s.heapEnd<hdr+blockTotalSize s hdr then false
  else true

/-- Record a pointer in the first entry that is not taken; a full tracker
drops it. -/
def trackAddEntries (ptr size : Word) : List TrackedBlock→List TrackedBlock
  | [] => []
  | t::ts => if t.inUse then t::trackAddEntries ptr size ts else ⟨ptr,size,true⟩::ts

/-- Clear the first taken entry with the pointer. -/
def trackRemoveEntries (ptr : Word) : List TrackedBlock→List TrackedBlock
  | [] => []
  | t::ts =>
    if t.inUse=true ∧ t.ptr=ptr then {t with inUse := false}::ts
    else t::trackRemoveEntries ptr ts

/-- Recording keeps the array length. -/
theorem length_trackAddEntries (ptr size : Word) (ts : List TrackedBlock) :
    (trackAddEntries ptr size ts).length=ts.length := by
  induction ts with
  | nil => rfl
  | cons t ts ih => unfold trackAddEntries; split <;> simp [ih]

/-- Clearing keeps the array length. -/
theorem length_trackRemoveEntries (ptr : Word) (ts : List TrackedBlock) :
    (trackRemoveEntries ptr ts).length=ts.length := by
  induction ts with
  | nil => rfl
  | cons t ts ih => unfold trackRemoveEntries; split <;> simp [ih]

/-- Whether some taken entry has the pointer. -/
def trackValidate (t : Tracker) (ptr : Word) : Bool :=
  t.entries.any fun e => e.inUse && e.ptr==ptr

/-- track_add on the tracker. -/
def trackAdd (t : Tracker) (ptr size : Word) : Tracker :=
  ⟨trackAddEntries ptr size t.entries,(length_trackAddEntries _ _ _).trans t.length_entries⟩

/-- track_remove on the tracker, with its success flag. -/
def trackRemove (t : Tracker) (ptr : Word) : Bool×Tracker :=
  (trackValidate t ptr,
    ⟨trackRemoveEntries ptr t.entries,(length_trackRemoveEntries _ _).trans t.length_entries⟩)

/-- Turn the tail of a chosen block into a free block of its own when it is
large enough. -/
def splitBlock (s : Heap) (hdr wantedPayload : Word) : Heap :=
  let remainingPayload := hdrSize s.mem hdr-wantedPayload
  let minimumNeeded := headerSize+minSplitPayload
  if remainingPayload ≤ minimumNeeded then s
  else
    let newHdr := hdr+headerSize+wantedPayload
    let m := setSize s.mem newHdr (remainingPayload-headerSize)
    let m := setMagic m newHdr blockMagic
    let m := setUsed m newHdr blockFree
    {s with mem := setSize m hdr wantedPayload}

/-- One turn of the merging loop. -/
def coalesceTurn (state : Heap×Word) : Turn (Heap×Word) Heap :=
  let (s,hdr) := state
  if s.heapEnd≤hdr then .done s
  else if isBlockValid s hdr=false then .done s
  else
    let nxt := nextBlock s hdr
    if nxt=0 then .done s
    else if isBlockValid s nxt=false then .done s
    else if hdrUsed s.mem hdr=blockFree ∧ hdrUsed s.mem nxt=blockFree then
      let size := hdrSize s.mem hdr+(headerSize+hdrSize s.mem nxt)
      .again ({s with mem := setSize s.mem hdr size},hdr)
    else .again (s,nxt)

/-- Merge neighbouring free blocks from the first header on. -/
def coalesceFreeBlocks (fuel : ℕ) (s : Heap) : Option Heap :=
  runLoop coalesceTurn fuel (s,firstBlock s)

/-- Place the heap, clear the tracker and write the one free header. -/
def mmInit (m : Mem) (t : Tracker) (start size : Word) : Heap :=
  let heapStart := align8 start
  let heapEnd := heapStart+size
  let hdr := heapStart
  let m := setSize m hdr (heapEnd-heapStart-headerSize)
  let m := setMagic m hdr blockMagic
  let m := setUsed m hdr blockFree
  ⟨m,heapStart,heapEnd,⟨t.entries.map fun e => {e with inUse := false},by
    rw [List.length_map,t.length_entries]⟩⟩

/-- One turn of the first-fit search. -/
def kmallocTurn (s : Heap) (wanted hdr : Word) : Turn Word (Heap×Word) :=
  if s.heapEnd≤hdr then .done (s,0)
  else if isBlockValid s hdr=false then .done (s,0)
  else if hdrUsed s.mem hdr=blockFree ∧ wanted≤hdrSize s.mem hdr then
    let s := splitBlock s hdr wanted
    let s := {s with mem := setUsed s.mem hdr blockUsed}
    let ptr := hdr+headerSize
    .done ({s with tracked := trackAdd s.tracked ptr (hdrSize s.mem hdr)},ptr)
  else
    let nxt := nextBlock s hdr
    if nxt=0 then .done (s,0) else .again nxt

/-- First-fit allocation; NULL for an empty request or when nothing fits. -/
def kmalloc (fuel : ℕ) (s : Heap) (size : Word) : Option (Heap×Word) :=
  if size=0 then some (s,0)
  else runLoop (kmallocTurn s (align8 size)) fuel (firstBlock s)

/-- Release a tracked pointer; zero for any pointer that is not accepted. -/
def kfree (fuel : ℕ) (s : Heap) (ptr : Word) : Option (Heap×ℤ) :=
  if ptr=0 then some (s,0)
  else if trackValidate s.tracked ptr=false then some (s,0)
  else
    let hdr := ptr-headerSize
    if isBlockValid s hdr=false then some (s,0)
    else
      let (removed,tracked) := trackRemove s.tracked ptr
      if removed=false then some (s,0)
      else
        let s := {s with tracked := tracked,mem := setUsed s.mem hdr blockFree}
        (coalesceFreeBlocks fuel s).map fun s => (s,1)

/-- The body of kfree_all for one tracker index. -/
def kfreeEntry (fuel : ℕ) (state : Heap×ℤ) (i : ℕ) : Option (Heap×ℤ) :=
  let (s,freed) := state
  match s.tracked.entries[i]? with
  | none => some (s,freed)
  | some e =>
    if e.inUse then
      (kfree fuel s e.ptr).map fun (s,r) => (s,if r≠0 then freed+1 else freed)
    else some (s,freed)

/-- Release every tracked pointer in table order and count the successes. -/
def kfreeAll (fuel : ℕ) (s : Heap) : Option (Heap×ℤ) :=
  (List.range maxTrackedBlocks).foldlM (kfreeEntry fuel) (s,0)

/-- One turn of the accounting walks: add the payloads with the given mark. -/
def sumTurn (s : Heap) (mark : Byte) (state : Word×Word) : Turn (Word×Word) Word :=
  let (hdr,sum) := state
  if s.heapEnd≤hdr then .done sum
  else if isBlockValid s hdr=false then .done sum
  else
    let sum := if hdrUsed s.mem hdr=mark then sum+hdrSize s.mem hdr else sum
    let nxt := nextBlock s hdr
    if nxt=0 then .done sum else .again (nxt,sum)

/-- Total payload of the used blocks. -/
def mmUsed (fuel : ℕ) (s : Heap) : Option Word :=
  runLoop (sumTurn s blockUsed) fuel (firstBlock s,0)

/-- Total payload of the free blocks. -/
def mmFree (fuel : ℕ) (s : Heap) : Option Word :=
  runLoop (sumTurn s blockFree) fuel (firstBlock s,0)

/-- Payload capacity of an unsplit heap. -/
def mmTotal (s : Heap) : Word := s.heapEnd-s.heapStart-headerSize

end EronKernel.HeapModel

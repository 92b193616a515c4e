import EronKernel.HeapModel
import EronKernel.WordTable

/-!
# Virtual memory of virtual_mm.c

The page directory and the page tables are tables of words in the memory that
kmalloc hands out; a directory entry is the address of a table with its tag,
a table entry the address of a frame with its tag, and zero means absent.
Frames come from a counter that only goes up and wraps. A NULL pointer is the
zero word. The user heap lies on top of these calls; the switch of the
directory is left out.
-/

namespace EronKernel.VmmModel

open ByteMemory HeapModel WordTable

/-- Bytes of a page, and of struct page_table and struct page_directory. -/
abbrev pageSize : Word := 4096

/-- Mask of the address of a page. -/
abbrev pageMask : Word := 0xFFFFF000

/-- Tag of an entry that is present. -/
abbrev pgPresent : Word := 1

/-- Tag of an entry that grants writing. -/
abbrev pgWritable : Word := 2

/-- Tag of an entry that user mode may use. -/
abbrev pgUser : Word := 4

/-- First address of the kernel's half. -/
abbrev kernelVirtStart : Word := 0xC0000000

/-- The statics of virtual_mm.c with the heap and the memory. -/
structure Vmm where
  /-- The allocator and the whole memory. -/
  heap : Heap
  /-- The current page directory. -/
  currentPdir : Word
  /-- First frame of the pool. -/
  physBase : Word
  /-- Frames of the pool. -/
  totalPages : Word
  /-- The frame that is handed out next. -/
  nextFreePage : Word

/-- The memory of the state. -/
def Vmm.mem (s : Vmm) : Mem := s.heap.mem

/-- Replace the memory. -/
def Vmm.setMem (s : Vmm) (m : Mem) : Vmm := {s with heap := {s.heap with mem := m}}

/-- align_up. -/
def alignUp (addr align : Word) : Word := (addr+align-1)&&&~~~(align-1)

/-- The loop that clears a directory or a table. -/
def clearEntries (m : Mem) (a : Word) : Mem := setWords m a (fun _ => 0) (List.range 1024)

/-- The loop over the kernel's directory entries at one index: the address of
a table is stored first and then overwritten by every page it would map. -/
def kernelEntry (pdir kernelEnd : Word) (m : Mem) (i : ℕ) : Mem :=
  let pt := alignUp (kernelEnd+BitVec.ofNat 32 ((i-768)*4096)) 4096
  let m := setWord m pdir i (pt|||pgPresent|||pgWritable)
  (List.range 1024).foldl (fun m j =>
    let virt := (BitVec.ofNat 32 i<<<22)|||(BitVec.ofNat 32 j<<<12)
    let phys := virt-kernelVirtStart+0xC0000000
    setWord m pdir i (phys|||pgPresent|||pgWritable)) m

/-- vmm_init; the directory lies behind the kernel when kmalloc has no room. -/
def vmmInit (fuel : ℕ) (h : Heap) (kernelEnd : Word) : Option Vmm :=
  let kernelEnd := alignUp kernelEnd 4096
  let physBase := kernelEnd+0x1000000
  (kmalloc fuel h pageSize).map fun (h,p) =>
    let pdir := if p=0 then kernelEnd else p
    let kernelEnd := if p=0 then kernelEnd+pageSize else kernelEnd
    let m := clearEntries h.mem pdir
    let m := (List.range' 768 256).foldl (kernelEntry pdir kernelEnd) m
    ⟨{h with mem := m},pdir,physBase,4096,physBase⟩

/-- Index of an address's directory entry. -/
def pdeIdx (virt : Word) : ℕ := ((virt>>>22)&&&0x3FF).toNat

/-- Index of an address's table entry. -/
def pteIdx (virt : Word) : ℕ := ((virt>>>12)&&&0x3FF).toNat

/-- The current directory's entry. -/
def pde (s : Vmm) (i : ℕ) : Word := wordAt s.mem s.currentPdir i

/-- The table that a directory entry leads to. -/
def tableOf (s : Vmm) (i : ℕ) : Word := pde s i&&&pageMask

/-- The first part of vmm_alloc_page: make a table for an empty directory
entry. The flag tells whether there is a table. -/
def ensureTable (fuel : ℕ) (s : Vmm) (i : ℕ) : Option (Vmm×Bool) :=
  if pde s i≠0 then some (s,true)
  else (kmalloc fuel s.heap pageSize).map fun (h,p) =>
    if p=0 then ({s with heap := h},false)
    else
      let m := clearEntries h.mem p
      let m := setWord m s.currentPdir i (p|||pgPresent|||pgWritable|||pgUser)
      ({s with heap := {h with mem := m}},true)

/-- The second part of vmm_alloc_page: give the page the next frame unless it
has one. The counter is advanced before the frame is checked. -/
def mapPage (s : Vmm) (i j : ℕ) : Vmm×ℤ :=
  let pt := tableOf s i
  if wordAt s.mem pt j&&&pgPresent≠0 then (s,0)
  else
    let physPage := s.nextFreePage
    let s := {s with nextFreePage := s.nextFreePage+pageSize}
    if physPage=0 ∨ s.physBase+s.totalPages*pageSize < s.nextFreePage then (s,-1)
    else (s.setMem (setWord s.mem pt j (physPage|||pgPresent|||pgWritable|||pgUser)),0)

/-- vmm_alloc_page. -/
def vmmAllocPage (fuel : ℕ) (s : Vmm) (virt : Word) : Option (Vmm×ℤ) :=
  if s.currentPdir=0 then some (s,-1)
  else (ensureTable fuel s (pdeIdx virt)).map fun (s,there) =>
    if there then mapPage s (pdeIdx virt) (pteIdx virt) else (s,-1)

/-- vmm_free_page. -/
def vmmFreePage (s : Vmm) (virt : Word) : Vmm :=
  if s.currentPdir=0 then s
  else if pde s (pdeIdx virt)=0 then s
  else s.setMem (setWord s.mem (tableOf s (pdeIdx virt)) (pteIdx virt) 0)

/-- The loop of vmm_map_user_pages over the addresses of the pages. -/
def allocPages (fuel : ℕ) : Vmm→List Word→Option (Vmm×ℤ)
  | s,[] => some (s,0)
  | s,addr::addrs => (vmmAllocPage fuel s addr).bind fun (t,r) =>
    if r≠0 then some (t,-1) else allocPages fuel t addrs

/-- The addresses of consecutive pages. -/
def pageAddrs (virt count : Word) : List Word :=
  (List.range count.toNat).map fun i => virt+BitVec.ofNat 32 i*pageSize

/-- vmm_map_user_pages. -/
def vmmMapUserPages (fuel : ℕ) (s : Vmm) (virt count : Word) : Option (Vmm×ℤ) :=
  allocPages fuel s (pageAddrs virt count)

/-- vmm_get_phys_from_virt. -/
def vmmGetPhysFromVirt (s : Vmm) (virt : Word) : Word :=
  if pde s (pdeIdx virt)=0 then 0
  else
    let pte := wordAt s.mem (tableOf s (pdeIdx virt)) (pteIdx virt)
    if pte&&&pgPresent=0 then 0 else (pte&&&pageMask)|||(virt&&&~~~pageMask)

/-- vmm_is_mapped. -/
def vmmIsMapped (s : Vmm) (virt : Word) : ℤ :=
  if pde s (pdeIdx virt)=0 then 0
  else if wordAt s.mem (tableOf s (pdeIdx virt)) (pteIdx virt)&&&pgPresent≠0 then 1 else 0

/-- A directory index is the upper ten bits. -/
theorem pdeIdx_eq (virt : Word) : pdeIdx virt=virt.toNat/4194304 := by
  unfold pdeIdx
  have hlt := virt.isLt
  have hand : ((virt>>>22)&&&0x3FF).toNat=(virt>>>22).toNat%1024 := by
    rw [BitVec.toNat_and]
    exact Nat.and_two_pow_sub_one_eq_mod _ 10
  rw [hand,BitVec.toNat_ushiftRight,Nat.shiftRight_eq_div_pow]
  omega

/-- A table index is the middle ten bits. -/
theorem pteIdx_eq (virt : Word) : pteIdx virt=virt.toNat/4096%1024 := by
  unfold pteIdx
  have hand : ((virt>>>12)&&&0x3FF).toNat=(virt>>>12).toNat%1024 := by
    rw [BitVec.toNat_and]
    exact Nat.and_two_pow_sub_one_eq_mod _ 10
  rw [hand,BitVec.toNat_ushiftRight,Nat.shiftRight_eq_div_pow]

/-- A table index is below the length of a table. -/
theorem pteIdx_lt (virt : Word) : pteIdx virt<1024 := by
  rw [pteIdx_eq]
  omega

/-- A user address has its directory entry in the user's part. -/
theorem pdeIdx_lt {virt : Word} (hv : virt.toNat<0xC0000000) : pdeIdx virt<768 := by
  rw [pdeIdx_eq]
  omega

end EronKernel.VmmModel

import EronKernel.VmmModel

/-!
# The user heap of virtual_mm.c

vmm_alloc_user_heap moves a cursor through a part of the user's addresses and
asks for the pages of each block; whether it gets them is not looked at.
vmm_free_user_heap does nothing.
-/

namespace EronKernel.UserHeapModel

open ByteMemory HeapModel VmmModel

/-- VIRT_ADDR_START. -/
abbrev virtAddrStart : Word := 0x08000000

/-- VIRT_ADDR_END. -/
abbrev virtAddrEnd : Word := 0xC0000000

/-- The statics of virtual_mm.c with those of the user heap. -/
structure UserVmm where
  /-- The page tables, the frames and the heap. -/
  vmm : Vmm
  /-- user_heap_pos. -/
  userHeapPos : Word
  /-- user_heap_end. -/
  userHeapEnd : Word

/-- vmm_init with the statics of the user heap. -/
def vmmInitUserHeap (fuel : ℕ) (h : Heap) (kernelEnd : Word) : Option UserVmm :=
  (vmmInit fuel h kernelEnd).map fun s => ⟨s,virtAddrStart+8*1024*1024,virtAddrEnd-4*1024*1024⟩

/-- vmm_alloc_user_heap. -/
def vmmAllocUserHeap (fuel : ℕ) (s : UserVmm) (size : Word) : Option (UserVmm×Word) :=
  let size := (size+7)&&&~~~7
  if s.userHeapEnd < s.userHeapPos+size then some (s,0)
  else
    let result := s.userHeapPos
    let s := {s with userHeapPos := s.userHeapPos+size}
    (vmmMapUserPages fuel s.vmm result ((size+pageSize-1)/pageSize)).map fun (vmm,_) =>
      ({s with vmm := vmm},result)

/-- One call with its result and the states around it. -/
structure UserCall where
  /-- The state before. -/
  before : UserVmm
  /-- The size that is asked for. -/
  size : Word
  /-- The pointer that is returned. -/
  result : Word
  /-- The state after. -/
  after : UserVmm

/-- Calls with some sizes, one after another. -/
def userRun (fuel : ℕ) : UserVmm→List Word→Option (List UserCall×UserVmm)
  | s,[] => some ([],s)
  | s,size::sizes => (vmmAllocUserHeap fuel s size).bind fun (t,p) =>
    (userRun fuel t sizes).map fun (calls,u) => (⟨s,size,p,t⟩::calls,u)

end EronKernel.UserHeapModel

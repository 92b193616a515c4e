import EronKernel.HeapIntegrity
import EronKernel.ProcInvariant
import EronKernel.SyscallModel

/-!
# SYS_MALLOC and SYS_FREE

SYS_MALLOC hands out blocks of the kernel heap, which lies directly behind the
kernel image and far below user space. SYS_FREE follows a pointer only when it
lies in user space, so it never reaches kfree with a pointer that SYS_MALLOC
returned: the block stays used and mm_used stays up by its payload.
-/

namespace EronKernel.SyscallHeap

open ByteMemory BlockList HeapModel HeapLayout HeapOps HeapRuns HeapIntegrity SyscallModel

variable {F : Type}

/-- A kernel image linked from 0x100000 and smaller than 100 MB ends here. -/
def ImageEnd (kernelEnd : Word) : Prop :=
  0x100000≤kernelEnd.toNat ∧ kernelEnd.toNat<0x100000+100*2^20

/-- No free block of the heap can hold the request. -/
def NothingFits (s : Heap) (n : Word) : Prop :=
  ∃ bs,Represents s bs ∧ ∀ b∈bs,¬Fits (align8 n).toNat b

/-- When SYS_MALLOC returns a pointer, SYS_FREE of that pointer returns and
mm_used is back to its value before the pair. -/
def RoundTrip (resume : ℕ→Kernel F→Kernel F) (fuel : ℕ) (k : Kernel F) (n : Word) : Prop :=
  ∀ ecx edx a,syscallHandle resume fuel k ⟨Syscall.sysMalloc.number,n,ecx,edx⟩=some a→
    a.tf.eax≠0→∀ ecx' edx',
      ∃ b,syscallHandle resume fuel a.kernel ⟨Syscall.sysFree.number,a.tf.eax,ecx',edx'⟩=some b ∧
        mmUsed fuel b.kernel.heap=mmUsed fuel k.heap

/-- A request that nothing fits is answered with NULL. -/
theorem kmalloc_of_nothingFits {s : Heap} {n : Word} (h : NothingFits s n) {fuel : ℕ}
    (hf : 2^32≤fuel) : kmalloc fuel s n=some (s,0) := by
  obtain ⟨bs,hrep,hno⟩ := h
  unfold kmalloc
  split
  · rfl
  · have hs := kmalloc_search (align8 n) bs [] fuel hrep hrep.nonempty (hrep.length_le.trans hf)
    simp only [extent,Nat.add_zero,BitVec.ofNat_toNat,BitVec.setWidth_eq,List.nil_append] at hs
    rcases hs with ⟨x,sz,y,rfl,hw,_⟩|⟨_,hrun⟩
    · exact absurd ⟨rfl,hw⟩ (hno ⟨sz,false⟩ (by simp))
    · exact hrun

/-- Handing out a block raises the used payload by at least the request. -/
theorem payload_carve {wanted sz : ℕ} (l r : List Block) (hw : wanted ≤ sz) :
    payload true (l++⟨sz,false⟩::r)+wanted≤payload true (l++carve 12 16 wanted sz++r) := by
  unfold carve
  split <;> simp [payload] <;> omega

/-- A request below 1 MB is answered with what kmalloc returns. -/
theorem syscallHandle_malloc_small {resume : ℕ→Kernel F→Kernel F} {fuel : ℕ} {k : Kernel F} {n : Word}
    (hn : n.toNat<0x100000) {r : Heap×Word} (hrun : kmalloc fuel k.heap n=some r) (ecx edx : Word) :
    syscallHandle resume fuel k ⟨Syscall.sysMalloc.number,n,ecx,edx⟩=
      some ⟨k.setHeap r.1,⟨r.2,n,ecx,edx⟩,none⟩ := by
  have hlt : n<0x100000 := by bv_omega
  rw [syscallHandle_malloc rfl,if_pos hlt,hrun]
  rfl

/-- A pointer below user space is not followed by SYS_FREE. -/
theorem syscallHandle_free_below {resume : ℕ→Kernel F→Kernel F} {fuel : ℕ} {k : Kernel F} {p : Word}
    (hp : p.toNat<0x08000000) (ecx edx : Word) :
    syscallHandle resume fuel k ⟨Syscall.sysFree.number,p,ecx,edx⟩=
      some ⟨k,⟨0,p,ecx,edx⟩,none⟩ := by
  have ha : ¬ptrAccepted ⟨Syscall.sysFree.number,p,ecx,edx⟩=true := by
    rw [ptrAccepted_iff]
    dsimp only
    omega
  rw [syscallHandle_free rfl,if_neg ha]
  rfl

/-- The heap behind the image ends below user space. -/
theorem heapEnd_lt {kernelEnd : Word} (hi : ImageEnd kernelEnd) :
    (align8 kernelEnd).toNat+heapSize.toNat<0x08000000 := by
  obtain ⟨_,hhi⟩ := hi
  rw [toNat_align8]
  simp only [heapSize,BitVec.reduceToNat]
  omega

/-- Rounding up a request below 1 MB keeps it positive. -/
theorem align8_pos {n : Word} (h0 : 0<n.toNat) (hn : n.toNat<0x100000) : 0<(align8 n).toNat := by
  rw [toNat_align8]
  omega

/-- Whenever SYS_MALLOC finds a block, SYS_FREE leaves it used. -/
theorem not_roundTrip_of_fits {st : Session} {l r : List Block} {sz : ℕ} {n : Word}
    (h : HeapInv st (l++⟨sz,false⟩::r)) (hlow : st.heap.heapEnd.toNat<0x08000000)
    (h0 : 0<n.toNat) (hn : n.toNat<0x100000) (hw : (align8 n).toNat ≤ sz) {fuel : ℕ} (hf : 2^32≤fuel)
    {k : Kernel F} (hk : k.heap=st.heap)
    (hrun : kmalloc fuel k.heap n=some (handOutTracked st.heap
      (BitVec.ofNat 32 (st.heap.heapStart.toNat+extent 12 l)) (align8 n)))
    (resume : ℕ→Kernel F→Kernel F) : ¬RoundTrip resume fuel k n := by
  intro ht
  obtain ⟨hptr,hnz,_,_,hinv,_⟩ := kmalloc_found h hw
  have hsplit := h.represents.at_split.2
  dsimp only at hsplit
  have hp : (handOutTracked st.heap
      (BitVec.ofNat 32 (st.heap.heapStart.toNat+extent 12 l)) (align8 n)).2.toNat<0x08000000 := by
    rw [hptr]
    bv_omega
  obtain ⟨b,hfree,hsame⟩ := ht 0 0 _ (syscallHandle_malloc_small hn hrun 0 0) hnz 0 0
  rw [syscallHandle_free_below hp] at hfree
  cases hfree
  have hafter := mmUsed_eq hinv.represents (hinv.represents.length_le.trans hf)
  have hbefore := mmUsed_eq h.represents (h.represents.length_le.trans hf)
  have hgrow := payload_carve l r hw
  have hpos := align8_pos h0 hn
  have hfit := hinv.represents.extent_lt
  have hle := @payload_le_extent 12 true (l++carve 12 16 (align8 n).toNat sz++r)
  dsimp only [Kernel.setHeap] at hsame hafter hfit
  rw [hk,hafter,hbefore,Option.some.injEq] at hsame
  have heq := congrArg BitVec.toNat hsame
  simp only [BitVec.toNat_ofNat] at heq
  omega

/-- In every reachable heap the pair of calls restores mm_used exactly when
nothing fits the request, so that there was nothing to release. -/
theorem sys_malloc_free_round_trip_iff {kernelEnd : Word} (hi : ImageEnd kernelEnd) {st : Session}
    (hr : Reachable kernelEnd heapSize st) {n : Word} (h0 : 0<n.toNat) (hn : n.toNat<0x100000)
    {fuel : ℕ} (hf : 2^32≤fuel) {k : Kernel F} (hk : k.heap=st.heap)
    (resume : ℕ→Kernel F→Kernel F) : RoundTrip resume fuel k n ↔ NothingFits k.heap n := by
  have hend := heapEnd_lt hi
  obtain ⟨bs,hinv,hstart,hheap⟩ := reachable_inv (by decide) (by omega) hr
  have hlow : st.heap.heapEnd.toNat<0x08000000 := by
    rw [hheap]
    bv_omega
  have hnz : n≠0 := by
    rintro rfl
    exact absurd h0 (by decide)
  constructor
  · intro ht
    rcases kmalloc_cases hinv n hf with ⟨_,hno⟩|⟨l,sz,r,rfl,_,hw,_,hrun⟩
    · exact ⟨bs,hk▸hinv.represents,hno.resolve_left hnz⟩
    · exact absurd ht (not_roundTrip_of_fits hinv hlow h0 hn hw hf hk (hk▸hrun) resume)
  · intro hno ecx edx a ha hp
    rw [syscallHandle_malloc_small hn (kmalloc_of_nothingFits hno hf)] at ha
    cases ha
    exact absurd rfl hp

/-- A kernel over the one-megabyte heap, with no file and no process. -/
def megabyteKernel : Kernel Unit where
  heap := megabyteHeap.heap
  vfs := VfsModel.zeroed
  procs := {ProcInvariant.bootProcs with mem := megabyteHeap.heap.mem}
  ticks := 0
  frequency := 100
  output := []
  shared := rfl

/-- The calls on a fresh one-megabyte heap restore mm_used only if nothing
fits. -/
theorem megabyteKernel_round_trip_iff :
    RoundTrip (fun _ k => k) (2^32) megabyteKernel 64 ↔ NothingFits megabyteHeap.heap 64 :=
  sys_malloc_free_round_trip_iff ⟨by decide,by decide⟩ megabyteHeap_reachable
    (by decide) (by decide) (Nat.le_refl (2^32)) rfl _

/-- On a fresh one-megabyte heap SYS_FREE does not give back 64 bytes. -/
theorem sys_free_keeps_64_bytes : ¬RoundTrip (fun _ k => k) (2^32) megabyteKernel 64 := by
  have hinv : HeapInv megabyteHeap _ :=
    mmInit_inv (fun _ => 0) emptyTracker (by decide) (by decide)
  rcases kmalloc_cases hinv 64 (Nat.le_refl (2^32)) with ⟨_,hno⟩|⟨l,sz,r,he,_,hw,_,hrun⟩
  · exact absurd (hno.resolve_left (by decide) _ List.mem_cons_self) (by decide)
  · exact not_roundTrip_of_fits (he▸hinv) (by decide) (by decide) (by decide) hw (Nat.le_refl (2^32))
      rfl hrun _

end EronKernel.SyscallHeap

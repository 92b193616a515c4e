import EronKernel.HeapIntegrity

/-!
# The accounts of the kernel heap

mm_used and mm_free walk the chain of blocks and add payloads with wrapping
sums; mm_total is the payload of the unsplit heap. A block costs one header,
so the two sums and the headers behind the first one make up the total after
any history of splits and merges, and no sum wraps.
-/

namespace EronKernel.HeapAccounting

open ByteMemory FuelLoop BlockList HeapModel HeapLayout HeapOps HeapRuns HeapIntegrity

/-- The payload size in the header in front of a live pointer. -/
def liveSize (st : Session) (p : Word) : ℕ := (hdrSize st.heap.mem (p-headerSize)).toNat

/-- The accounts of a heap whose walk meets the given headers. -/
structure Balanced (size : Word) (st : Session) (hs : List Word) (used free : Word) : Prop where
  /-- What is used is the payload of the live pointers. -/
  used_eq : used.toNat=(st.live.map (liveSize st)).sum
  /-- Both payloads and the headers behind the first make up the total. -/
  balance : used.toNat+free.toNat+12*(hs.length-1)=(mmTotal st.heap).toNat
  /-- The total is what mm_init was given, without the first header. -/
  total : (mmTotal st.heap).toNat=size.toNat-12

/-- The payload size found in front of the pointer to a placed used block. -/
theorem liveSize_of_usedPlaced {st : Session} {bs : List Block} (h : HeapInv st bs) {q : ℕ×Block}
    (hq : q∈usedPlaced 12 st.heap.heapStart.toNat bs) :
    liveSize st (BitVec.ofNat 32 (q.1+12))=q.2.size := by
  have hhdr : BitVec.ofNat 32 (q.1+12)-headerSize=BitVec.ofNat 32 q.1 := by
    unfold headerSize
    bv_omega
  unfold liveSize
  rw [hhdr]
  exact (h.represents.headers q (List.mem_filter.mp hq).1).size

/-- The payloads of the live pointers add up to the used payload of the chain. -/
theorem sum_liveSize {st : Session} {bs : List Block} (h : HeapInv st bs) :
    (st.live.map (liveSize st)).sum=payload true bs := by
  rw [(h.live.map (liveSize st)).sum_eq,usedPtrs,List.map_map,←sum_usedPlaced st.heap.heapStart.toNat bs]
  apply congrArg List.sum
  apply List.map_congr_left
  intro q hq
  exact liveSize_of_usedPlaced h hq

/-- The total is the extent of the chain without the first header. -/
theorem toNat_mmTotal {s : Heap} {bs : List Block} (h : Represents s bs) :
    (mmTotal s).toNat+12=extent 12 bs := by
  have ht := h.tiles
  have hend := s.heapEnd.isLt
  have hone : 12≤extent 12 bs := by
    have hl := @length_mul_le_extent 12 bs
    have hpos := List.length_pos_iff.mpr h.nonempty
    omega
  unfold mmTotal headerSize
  bv_omega

/-- In every reachable state mm_used is the payload of the live pointers, and
together with mm_free and the headers behind the first it makes up mm_total. -/
theorem heap_accounts_balance {start size : Word} (hsize : 12 ≤ size.toNat)
    (hfit : (align8 start).toNat+size.toNat<2^32) {st : Session} (hr : Reachable start size st) :
    ∃ hs,WalkTiles st.heap st.heap.heapStart hs ∧ ∀ fuel,2^32≤fuel→∃ used free,
      mmUsed fuel st.heap=some used ∧ mmFree fuel st.heap=some free ∧
        Balanced size st hs used free := by
  obtain ⟨bs,hinv,hstart,hheapEnd⟩ := reachable_inv hsize hfit hr
  have hrep := hinv.represents
  have htiles := walkTiles_of_represents bs [] hrep hrep.nonempty
  simp only [extent,Nat.add_zero,BitVec.ofNat_toNat,BitVec.setWidth_eq] at htiles
  refine ⟨_,htiles,?_⟩
  intro fuel hf
  have hlen := hrep.length_le.trans hf
  refine ⟨_,_,mmUsed_eq hrep hlen,mmFree_eq hrep hlen,?_⟩
  have hext := hrep.extent_lt
  have hsplit := @extent_eq_payloads 12 bs
  have htotal := toNat_mmTotal hrep
  have hpos := List.length_pos_iff.mpr hrep.nonempty
  have hused : (BitVec.ofNat 32 (payload true bs)).toNat=payload true bs := by
    rw [BitVec.toNat_ofNat]
    omega
  have hfree : (BitVec.ofNat 32 (payload false bs)).toNat=payload false bs := by
    rw [BitVec.toNat_ofNat]
    omega
  have hheaders : (headerWords st.heap.heapStart.toNat bs).length=bs.length := by
    rw [headerWords,List.length_map,length_placed]
  refine ⟨hused.trans (sum_liveSize hinv).symm,?_,?_⟩
  · rw [hused,hfree,hheaders]
    omega
  · have hend := hrep.tiles
    rw [hstart,hheapEnd] at hend
    have hsum : (align8 start+size).toNat=(align8 start).toNat+size.toNat := by bv_omega
    omega

/-- The accounts of a one-megabyte heap after its first allocation. -/
theorem heap_accounts_after_first_kmalloc :
    ∃ next,perform 1 megabyteHeap (.kmalloc 64)=some next ∧
      ∃ hs used free,mmUsed (2^32) next.heap=some used ∧ mmFree (2^32) next.heap=some free ∧
        Balanced 0x100000 next hs used free := by
  have hreach : Reachable 0x100000 0x100000 _ :=
    Reachable.call 1 (.kmalloc 64) megabyteHeap_reachable rfl
  obtain ⟨hs,_,hall⟩ := heap_accounts_balance (by decide) (by decide) hreach
  obtain ⟨used,free,hu,hf,hb⟩ := hall (2^32) (Nat.le_refl _)
  exact ⟨_,rfl,hs,used,free,hu,hf,hb⟩

end EronKernel.HeapAccounting

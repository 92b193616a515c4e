import EronKernel.HeapIntegrity

/-!
# Release accepts the tracked pointers and nothing else

kfree consults the tracker before it looks at any header, so a forged or stale
header is never trusted. For a tracked pointer the effect is described on the
chain of blocks: one entry is cleared, one block is merged with its free
neighbours, and every other used block stays where it is. For any other
pointer the heap is returned as it was.
-/

namespace EronKernel.HeapRelease

open ByteMemory FuelLoop BlockList HeapModel HeapLayout HeapOps HeapRuns HeapIntegrity

/-- The one entry in use with the pointer was cleared, and no other entry
changed. -/
def ClearsOne (before after : List TrackedBlock) (p : Word) : Prop :=
  ∃ front e back,before=front++e::back ∧ e.inUse=true ∧ e.ptr=p ∧
    (∀ d∈front++back,¬(d.inUse=true ∧ d.ptr=p)) ∧ after=front++{e with inUse := false}::back

/-- A used block of the chain was released: it is merged with its free
neighbours and nothing else changed. -/
structure ReleasesBlock (s t : Heap) (l r : List Block) (sz : ℕ) (p : Word) : Prop where
  /-- The pointer was that of the block's payload. -/
  ptr : p.toNat=s.heapStart.toNat+extent 12 l+12
  /-- The chain afterwards. -/
  chain : Represents t (releaseIn 12 l sz r)
  /-- The heap did not move. -/
  heapStart : t.heapStart=s.heapStart
  /-- The heap did not grow. -/
  heapEnd : t.heapEnd=s.heapEnd
  /-- No byte outside the headers changed. -/
  onlyHeaders : OnlyHeaders (l++⟨sz,true⟩::r) s t
  /-- The used blocks are those before, at their addresses and with their
  sizes, without the released one. -/
  others : usedPlaced 12 t.heapStart.toNat (releaseIn 12 l sz r)=
    usedPlaced 12 s.heapStart.toNat l++usedPlaced 12 (s.heapStart.toNat+extent 12 l+12+sz) r
  /-- Exactly the entry of the pointer was cleared. -/
  tracker : ClearsOne s.tracked.entries t.tracked.entries p

/-- track_remove clears the entry of a pointer that is tracked once. -/
theorem trackRemoveEntries_clearsOne {p : Word} (ts : List TrackedBlock) (hp : p∈entryPtrs ts)
    (hn : (entryPtrs ts).Nodup) : ClearsOne ts (trackRemoveEntries p ts) p := by
  have hmem : ∀ (us : List TrackedBlock) d,d∈us→ d.inUse=true→ d.ptr∈entryPtrs us := by
    intro us d hd hu
    exact List.mem_map.mpr ⟨d,List.mem_filter.mpr ⟨hd,hu⟩,rfl⟩
  induction ts with
  | nil => cases hp
  | cons t ts ih =>
    rw [entryPtrs_cons] at hp hn
    unfold trackRemoveEntries
    by_cases ht : t.inUse=true ∧ t.ptr=p
    · rw [if_pos ht]
      rw [if_pos ht.1,List.singleton_append,List.nodup_cons] at hn
      refine ⟨[],t,ts,rfl,ht.1,ht.2,?_,rfl⟩
      rintro d hd ⟨hu,rfl⟩
      exact hn.1 (ht.2 ▸ hmem ts d hd hu)
    · rw [if_neg ht]
      have hrest : p∈entryPtrs ts := by
        rcases List.mem_append.mp hp with hp|hp
        · by_cases hu : t.inUse=true
          · rw [if_pos hu] at hp
            exact absurd ⟨hu,(List.mem_singleton.mp hp).symm⟩ ht
          · rw [if_neg hu] at hp
            cases hp
        · exact hp
      obtain ⟨front,e,back,rfl,hu,he,hother,hafter⟩ := ih hrest (List.nodup_append.mp hn).2.1
      refine ⟨t::front,e,back,rfl,hu,he,?_,by rw [hafter]; rfl⟩
      intro d hd
      rcases List.mem_cons.mp hd with rfl|hd
      · exact ht
      · exact hother d hd

/-- Releasing a block keeps the other used blocks at their addresses. -/
theorem usedPlaced_releaseIn {base sz : ℕ} {l r : List Block} (hs : Separated (l++⟨sz,true⟩::r)) :
    usedPlaced 12 base (releaseIn 12 l sz r)=
      usedPlaced 12 base l++usedPlaced 12 (base+extent 12 l+12+sz) r := by
  have hfree : usedPlaced 12 base (l++⟨sz,false⟩::r)=
      usedPlaced 12 base l++usedPlaced 12 (base+extent 12 l+12+sz) r := by
    rw [usedPlaced_append,usedPlaced_cons,if_neg Bool.false_ne_true,List.nil_append]
  rw [←coalesce_release hs,←hfree]
  cases l with
  | nil => exact usedPlaced_coalesceFrom base _ r
  | cons b l => exact usedPlaced_coalesceFrom base b (l++⟨sz,false⟩::r)

/-- kfree of a tracked pointer releases its block. -/
theorem kfree_releasesBlock {st : Session} {bs : List Block} (h : HeapInv st bs) {p : Word}
    (hp : p∈trackedPtrs st.heap.tracked) {fuel : ℕ} (hf : 2^32≤fuel) :
    ∃ t l sz r,kfree fuel st.heap p=some (t,1) ∧ bs=l++⟨sz,true⟩::r ∧
      ReleasesBlock st.heap t l r sz p := by
  obtain ⟨l,sz,r,rfl,hpn,hhdr,_,_⟩ := h.block_of_live (h.trackedLive p hp)
  obtain ⟨t,hrun,hchain,hstart,hend,htrack,honly⟩ := kfree_merges h hp hpn hhdr hf
  rw [coalesce_release h.separated] at hchain
  refine ⟨t,l,sz,r,hrun,rfl,hpn,hchain,hstart,hend,honly,?_,?_⟩
  · rw [hstart]
    exact usedPlaced_releaseIn h.separated
  · rw [htrack]
    exact trackRemoveEntries_clearsOne _ hp h.trackedNodup

/-- In every reachable state kfree accepts exactly the tracked pointers: it
then returns one and releases that block, and it returns zero and changes
nothing for every other pointer. -/
theorem kfree_accepts_tracked {start size : Word} (hsize : 12 ≤ size.toNat)
    (hfit : (align8 start).toNat+size.toNat<2^32) {st : Session} (hr : Reachable start size st) :
    ∃ bs,Represents st.heap bs ∧ ∀ p fuel,2^32≤fuel→
      (p∈trackedPtrs st.heap.tracked→∃ t l sz r,kfree fuel st.heap p=some (t,1) ∧
        bs=l++⟨sz,true⟩::r ∧ ReleasesBlock st.heap t l r sz p) ∧
      (p∉trackedPtrs st.heap.tracked→kfree fuel st.heap p=some (st.heap,0)) := by
  obtain ⟨bs,hinv,_,_⟩ := reachable_inv hsize hfit hr
  refine ⟨bs,hinv.represents,?_⟩
  intro p fuel hf
  exact ⟨fun hp => kfree_releasesBlock hinv hp hf,fun hp => kfree_untracked hp fuel⟩

/-- The first allocation of a one-megabyte heap is accepted, and a pointer
into its payload is refused. -/
theorem kfree_after_first_kmalloc :
    ∃ next,perform 1 megabyteHeap (.kmalloc 64)=some next ∧
      (∃ t,kfree (2^32) next.heap 0x10000C=some (t,1)) ∧
      kfree (2^32) next.heap 0x100010=some (next.heap,0) := by
  obtain ⟨next,hp,hin,hout⟩ : ∃ next,perform 1 megabyteHeap (.kmalloc 64)=some next ∧
      trackValidate next.heap.tracked 0x10000C=true ∧
      trackValidate next.heap.tracked 0x100010=false := ⟨_,rfl,by decide +kernel,by decide +kernel⟩
  have hreach : Reachable 0x100000 0x100000 next :=
    Reachable.call 1 (.kmalloc 64) megabyteHeap_reachable hp
  obtain ⟨bs,_,hall⟩ := kfree_accepts_tracked (by decide) (by decide) hreach
  obtain ⟨t,_,_,_,hrun,_⟩ :=
    (hall 0x10000C (2^32) (Nat.le_refl _)).1 ((trackValidate_iff _ _).mp hin)
  refine ⟨next,hp,⟨t,hrun⟩,(hall 0x100010 (2^32) (Nat.le_refl _)).2 ?_⟩
  rw [←trackValidate_iff,hout]
  exact Bool.false_ne_true

end EronKernel.HeapRelease

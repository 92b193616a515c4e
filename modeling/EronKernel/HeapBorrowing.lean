import EronKernel.HeapForgets

/-!
# Borrowing from the heap

A client that allocates and releases keeps a list of the pointers that it still
holds. While the tracker has room, everything else is as it was before the
first request: the other live pointers with their blocks and contents, and what
is tracked. Once the list is empty again, so is the chain of blocks.
-/

namespace EronKernel.HeapBorrowing

open ByteMemory BlockList HeapModel HeapLayout HeapRuns HeapRelease HeapAccounting HeapReleaseAll HeapForgets

variable {st next : Session} {bs : List Block} {ps : List Word} {fuel : ℕ}

/-- A heap from which some pointers were borrowed, and the heap before. -/
structure Borrowed (st next : Session) (bs : List Block) (ps : List Word) : Prop where
  /-- The blocks that were used before are still used. -/
  inv : ∃ cs,HeapInv next cs ∧ ∀ q∈usedPlaced 12 st.heap.heapStart.toNat bs,
    q∈usedPlaced 12 st.heap.heapStart.toNat cs
  /-- The heap did not move. -/
  heapStart : next.heap.heapStart=st.heap.heapStart
  /-- The heap did not grow. -/
  heapEnd : next.heap.heapEnd=st.heap.heapEnd
  /-- The borrowed pointers are live beside those from before. -/
  live : next.live.Perm (ps++st.live)
  /-- And they are tracked. -/
  tracked : (trackedPtrs next.heap.tracked).Perm (ps++trackedPtrs st.heap.tracked)
  /-- The contents from before are as they were. -/
  keeps : KeepsPayloads bs st.heap next.heap

/-- Nothing was borrowed yet. -/
theorem Borrowed.refl (h : HeapInv st bs) : Borrowed st st bs [] :=
  ⟨⟨bs,h,fun _ hq => hq⟩,rfl,rfl,.refl _,.refl _,fun _ _ _ _ _ => rfl⟩

/-- The borrowed pointers after a request. -/
def borrow (ps : List Word) (p : Word) : List Word := if p=0 then ps else p::ps

/-- kmalloc borrows a pointer, or none. -/
theorem Borrowed.kmalloc (h : Borrowed st next bs ps)
    (hroom : ps.length+(trackedPtrs st.heap.tracked).length<256) (size : Word) (hf : 2^32≤fuel) :
    ∃ t p,HeapModel.kmalloc fuel next.heap size=some (t,p) ∧
      Borrowed st ⟨t,if p=0 then next.live else p::next.live⟩ bs (borrow ps p) := by
  obtain ⟨cs,hinv,hused⟩ := h.inv
  unfold borrow
  rcases kmalloc_cases hinv size hf with ⟨hrun,_⟩|⟨l,sz,r,hcs,_,hw,_,hrun⟩
  · refine ⟨_,_,hrun,?_⟩
    rw [if_pos rfl,if_pos rfl]
    exact h
  · rw [hcs] at hinv hused
    obtain ⟨_,hne,hstart,hend,hinv',hkeeps,htracked⟩ := kmalloc_found hinv hw
    generalize HeapOps.handOutTracked next.heap
      (BitVec.ofNat 32 (next.heap.heapStart.toNat+extent 12 l)) (align8 size)=out at *
    obtain ⟨t,p⟩ := out
    refine ⟨t,p,hrun,?_⟩
    rw [if_neg hne,if_neg hne]
    have hlength := h.tracked.length_eq
    rw [List.length_append] at hlength
    have hmore := htracked.resolve_right fun hfull => by
      have := hfull.2
      omega
    refine ⟨⟨_,hinv',fun q hq => ?_⟩,hstart.trans h.heapStart,hend.trans h.heapEnd,h.live.cons _,
      hmore.trans (h.tracked.cons _),fun q hq x hx hx' => ?_⟩
    · have hq' := hused q hq
      rw [usedPlaced_append,usedPlaced_cons,if_neg Bool.false_ne_true,List.nil_append,List.mem_append] at hq'
      rw [usedPlaced_append,usedPlaced_append,List.mem_append,List.mem_append,extent_append,extent_carve hw]
      rcases hq' with hleft|hright
      · exact Or.inl (Or.inl hleft)
      · refine Or.inr ?_
        rw [show st.heap.heapStart.toNat+(extent 12 l+(12+sz))=st.heap.heapStart.toNat+extent 12 l+12+sz by omega]
        exact hright
    · have hq' := hused q hq
      rw [←h.heapStart] at hq'
      exact (hkeeps q hq' x hx hx').trans (h.keeps q hq x hx hx')

/-- A live pointer is not NULL. -/
theorem live_ne_zero {cs : List Block} (h : HeapInv next cs) {p : Word} (hp : p∈next.live) : p≠0 := by
  obtain ⟨q,hq,rfl⟩ := (mem_live_iff h).mp hp
  have hptr := payloadPtr_toNat h hq
  intro hzero
  have hnat : (payloadPtr q).toNat=0 := congrArg BitVec.toNat hzero
  omega

/-- kfree returns a borrowed pointer; NULL is nothing. -/
theorem Borrowed.kfree (h : Borrowed st next bs ps) (hst : HeapInv st bs) {p : Word} (hp : p=0 ∨ p∈ps)
    (hf : 2^32≤fuel) :
    ∃ t code,HeapModel.kfree fuel next.heap p=some (t,code) ∧
      Borrowed st ⟨t,if code=1 then next.live.erase p else next.live⟩ bs (ps.erase p) := by
  obtain ⟨cs,hinv,hused⟩ := h.inv
  by_cases hzero : p=0
  · have hlive : p∉next.live := fun hm => live_ne_zero hinv hm hzero
    have htracked : p∉trackedPtrs next.heap.tracked := fun hm => hlive (hinv.trackedLive p hm)
    have hmem : p∉ps := fun hm => hlive (h.live.mem_iff.mpr (List.mem_append_left _ hm))
    refine ⟨_,_,kfree_untracked htracked fuel,?_⟩
    rw [List.erase_of_not_mem hmem,if_neg (by decide)]
    exact h
  · have hmem := hp.resolve_left hzero
    have htracked : p∈trackedPtrs next.heap.tracked := h.tracked.mem_iff.mpr (List.mem_append_left _ hmem)
    obtain ⟨t,l,sz,r,hrun,hcs,hrelease,hstep⟩ := kfree_release hinv htracked hf
    obtain ⟨t',_,hrun',_,hptrs,_⟩ := kfree_tracked hinv htracked hf
    rw [hrun] at hrun'
    cases hrun'
    have hother : p∉st.live := by
      have hnodup := h.live.nodup_iff.mp hinv.live_nodup
      exact fun hm => (List.nodup_append.mp hnodup).2.2 p hmem p hm rfl
    refine ⟨t,1,hrun,⟨_,hstep.inv,fun q hq => ?_⟩,hstep.heapStart.trans h.heapStart,
      hstep.heapEnd.trans h.heapEnd,?_,?_,fun q hq x hx hx' => ?_⟩
    · have hreleased := usedPlaced_of_releasesBlock hrelease (hcs▸hinv.represents)
      rw [hrelease.heapStart,h.heapStart,←hcs] at hreleased
      rw [hreleased]
      refine List.mem_filter.mpr ⟨hused q hq,decide_eq_true fun hptr => hother ?_⟩
      exact (mem_live_iff hst).mpr ⟨q,hq,hptr⟩
    · rw [if_pos rfl]
      refine (h.live.erase p).trans ?_
      rw [List.erase_append_left _ hmem]
    · rw [hptrs]
      refine (h.tracked.erase p).trans ?_
      rw [List.erase_append_left _ hmem]
    · have hq' := hused q hq
      rw [←h.heapStart] at hq'
      exact (hstep.onlyHeaders.keepsPayloads q hq' x hx hx').trans (h.keeps q hq x hx hx')

/-- When everything was returned the chain is the one from before. -/
theorem Borrowed.returned (h : Borrowed st next bs []) (hst : HeapInv st bs) : HeapInv next bs := by
  obtain ⟨cs,hinv,hused⟩ := h.inv
  have hsizes : ∀ p∈st.live,liveSize st p=liveSize next p := by
    intro p hp
    obtain ⟨q,hq,rfl⟩ := (mem_live_iff hst).mp hp
    have hq' := hused q hq
    rw [←h.heapStart] at hq'
    exact (liveSize_of_usedPlaced hst hq).trans (liveSize_of_usedPlaced hinv hq').symm
  rw [blocks_of_live hst hinv h.heapStart.symm h.heapEnd.symm h.live.symm hsizes]
  exact hinv

/-- Pointers that are returned in the order in which they were borrowed. -/
theorem erase_borrowed (a b c : Word) :
    (((borrow (borrow (borrow [] a) b) c).erase a).erase b).erase c=[] ∧
      (a=0 ∨ a∈borrow (borrow (borrow [] a) b) c) ∧
      (b=0 ∨ b∈(borrow (borrow (borrow [] a) b) c).erase a) ∧
      (c=0 ∨ c∈((borrow (borrow (borrow [] a) b) c).erase a).erase b) := by
  unfold borrow
  split_ifs <;> simp_all [List.erase_cons] <;> grind

end EronKernel.HeapBorrowing

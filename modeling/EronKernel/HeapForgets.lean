import EronKernel.BlockLayout
import EronKernel.HeapAccounting
import EronKernel.HeapReleaseAll

/-!
# The heap forgets what was released

The chain of blocks is determined by the live pointers and their sizes: since
neighbouring free blocks are always merged, no trace of earlier allocations is
left. Two heaps with the same live pointers answer every request alike, and
whoever releases everything that it allocated leaves the chain as it was.
-/

namespace EronKernel.HeapForgets

open ByteMemory BlockList BlockLayout HeapModel HeapLayout HeapOps HeapRuns HeapIntegrity HeapRelease
  HeapAccounting HeapReleaseAll

/-- A live pointer is that of a used block. -/
theorem mem_live_iff {st : Session} {bs : List Block} (h : HeapInv st bs) {p : Word} :
    p∈st.live ↔ ∃ q∈usedPlaced 12 st.heap.heapStart.toNat bs,payloadPtr q=p :=
  h.live.mem_iff.trans List.mem_map

/-- The pointer of a used block does not wrap. -/
theorem payloadPtr_toNat {st : Session} {bs : List Block} (h : HeapInv st bs) {q : ℕ×Block}
    (hq : q∈usedPlaced 12 st.heap.heapStart.toNat bs) : (payloadPtr q).toNat=q.1+12 := by
  have hbound := (placed_bounds (List.mem_filter.mp hq).1).2
  have hext := h.represents.extent_lt
  unfold payloadPtr
  rw [BitVec.toNat_ofNat]
  omega

/-- Used blocks of one heap are used blocks of another one with the same live
pointers of the same sizes. -/
theorem usedPlaced_of_live {st st' : Session} {bs bs' : List Block} (h : HeapInv st bs) (h' : HeapInv st' bs')
    (hstart : st.heap.heapStart=st'.heap.heapStart) (hlive : ∀ p∈st.live,p∈st'.live)
    (hsize : ∀ p∈st.live,liveSize st p=liveSize st' p) {q : ℕ×Block}
    (hq : q∈usedPlaced 12 st.heap.heapStart.toNat bs) : q∈usedPlaced 12 st.heap.heapStart.toNat bs' := by
  have hmem := (mem_live_iff h).mpr ⟨q,hq,rfl⟩
  obtain ⟨q',hq',hptr⟩ := (mem_live_iff h').mp (hlive _ hmem)
  have hplace : q'.1=q.1 := by
    have he := congrArg BitVec.toNat hptr
    rw [payloadPtr_toNat h hq,payloadPtr_toNat h' hq'] at he
    omega
  have hsizes := hsize _ hmem
  rw [←hptr,show payloadPtr q'=BitVec.ofNat 32 (q'.1+12) from rfl,liveSize_of_usedPlaced h' hq',hplace,
    liveSize_of_usedPlaced h hq] at hsizes
  have hused := (List.mem_filter.mp hq).2
  have hused' := (List.mem_filter.mp hq').2
  rw [hstart]
  obtain ⟨a,size,used⟩ := q
  obtain ⟨a',size',used'⟩ := q'
  dsimp only at hplace hsizes hused hused'
  rw [hplace,←hsizes,hused'] at hq'
  rw [hused]
  exact hq'

/-- Live pointers and sizes determine the chain. -/
theorem blocks_of_live {st st' : Session} {bs bs' : List Block} (h : HeapInv st bs) (h' : HeapInv st' bs')
    (hstart : st.heap.heapStart=st'.heap.heapStart) (hend : st.heap.heapEnd=st'.heap.heapEnd)
    (hlive : st.live.Perm st'.live) (hsize : ∀ p∈st.live,liveSize st p=liveSize st' p) : bs=bs' := by
  have hext : extent 12 bs=extent 12 bs' := by
    have ht := h.represents.tiles
    have ht' := h'.represents.tiles
    rw [←hstart,←hend] at ht'
    omega
  have hsame : SameUsed 12 st.heap.heapStart.toNat bs bs' := by
    refine fun q => ⟨usedPlaced_of_live h h' hstart (fun p => hlive.mem_iff.mp) hsize,fun hq => ?_⟩
    rw [hstart] at hq ⊢
    refine usedPlaced_of_live h' h hstart.symm (fun p => hlive.mem_iff.mpr) (fun p hp => ?_) hq
    exact (hsize p (hlive.mem_iff.mpr hp)).symm
  exact eq_of_sameUsed (by omega) h.separated h'.separated hext hsame

/-- The first fitting block is one block only. -/
theorem first_fit_unique {n sz sz' : ℕ} {l l' r r' : List Block} (heq : l++⟨sz,false⟩::r=l'++⟨sz',false⟩::r')
    (hfit : n≤ sz) (hfit' : n≤ sz') (hl : ∀ b∈l,¬Fits n b) (hl' : ∀ b∈l',¬Fits n b) : l=l' := by
  obtain ⟨a,hla,hra⟩|⟨a,hla,hra⟩ := List.append_eq_append_iff.mp heq
  · cases a with
    | nil => rw [hla,List.append_nil]
    | cons c a =>
      have hc := (List.cons.inj hra).1
      refine absurd ⟨rfl,hfit⟩ (hl' ⟨sz,false⟩ ?_)
      rw [hla,hc]
      exact List.mem_append_right l List.mem_cons_self
  · cases a with
    | nil => rw [hla,List.append_nil]
    | cons c a =>
      have hc := (List.cons.inj hra).1
      refine absurd ⟨rfl,hfit'⟩ (hl ⟨sz',false⟩ ?_)
      rw [hla,hc]
      exact List.mem_append_right l' List.mem_cons_self

/-- What kmalloc returns depends on the chain only. -/
theorem kmalloc_of_blocks {st st' : Session} {bs : List Block} (h : HeapInv st bs) (h' : HeapInv st' bs)
    (hstart : st.heap.heapStart=st'.heap.heapStart) (n : Word) {fuel : ℕ} (hf : 2^32≤fuel) :
    (kmalloc fuel st.heap n).map Prod.snd=(kmalloc fuel st'.heap n).map Prod.snd := by
  rcases kmalloc_cases h n hf with ⟨hrun,hnone⟩|⟨l,sz,r,hbs,hn,hw,hl,hrun⟩
  · rcases kmalloc_cases h' n hf with ⟨hrun',_⟩|⟨l',sz',r',hbs',hn',hw',_,_⟩
    · rw [hrun,hrun']
      rfl
    · refine (hnone.resolve_left hn' ⟨sz',false⟩ ?_ ⟨rfl,hw'⟩).elim
      rw [hbs']
      exact List.mem_append_right l' List.mem_cons_self
  · rcases kmalloc_cases h' n hf with ⟨_,hnone'⟩|⟨l',sz',r',hbs',_,hw',hl',hrun'⟩
    · refine (hnone'.resolve_left hn ⟨sz,false⟩ ?_ ⟨rfl,hw⟩).elim
      rw [hbs]
      exact List.mem_append_right l List.mem_cons_self
    · have hsame := first_fit_unique (hbs.symm.trans hbs') hw hw' hl hl'
      rw [hbs] at h
      rw [hbs'] at h'
      rw [hrun,hrun',Option.map_some,Option.map_some,(kmalloc_found h hw).1,(kmalloc_found h' hw').1,hsame,hstart]

/-- In any two reachable states of a heap in which the same pointers are live
with the same sizes, however they were reached: the chain of blocks is the same
one, mm_used and mm_free agree, and kmalloc answers every request with the same
pointer. -/
theorem allocator_forgets_history {start size : Word} (hsize : 12≤ size.toNat)
    (hfit : (align8 start).toNat+size.toNat<2^32) {st st' : Session} (hr : Reachable start size st)
    (hr' : Reachable start size st') (hlive : st.live.Perm st'.live)
    (hsizes : ∀ p∈st.live,liveSize st p=liveSize st' p) :
    ∃ bs,Represents st.heap bs ∧ Represents st'.heap bs ∧ ∀ fuel,2^32≤fuel→
      mmUsed fuel st.heap=mmUsed fuel st'.heap ∧ mmFree fuel st.heap=mmFree fuel st'.heap ∧
        ∀ n,(kmalloc fuel st.heap n).map Prod.snd=(kmalloc fuel st'.heap n).map Prod.snd := by
  obtain ⟨bs,h,hstart,hend⟩ := reachable_inv hsize hfit hr
  obtain ⟨bs',h',hstart',hend'⟩ := reachable_inv hsize hfit hr'
  have hstarts := hstart.trans hstart'.symm
  obtain rfl := blocks_of_live h h' hstarts (hend.trans hend'.symm) hlive hsizes
  refine ⟨bs,h.represents,h'.represents,fun fuel hf => ⟨?_,?_,fun n => kmalloc_of_blocks h h' hstarts n hf⟩⟩
  · have hlength := h.represents.length_le.trans hf
    rw [mmUsed_eq h.represents hlength,mmUsed_eq h'.represents hlength]
  · have hlength := h.represents.length_le.trans hf
    rw [mmFree_eq h.represents hlength,mmFree_eq h'.represents hlength]

/-- Any calls one after another reach a reachable state. -/
theorem reachable_calls {start size : Word} {fuel : ℕ} (cs : List HeapCall) {st st' : Session}
    (hr : Reachable start size st) (h : cs.foldlM (perform fuel) st=some st') : Reachable start size st' := by
  induction cs generalizing st with
  | nil =>
    cases h
    exact hr
  | cons c cs ih =>
    obtain ⟨next,hnext,hrest⟩ := Option.bind_eq_some_iff.mp h
    exact ih (.call fuel c hr hnext) hrest

/-- A history of a one-megabyte heap in which a large block was released, a small
one took its place, and the block behind both was released. -/
def longHistory : List HeapCall :=
  [.kmalloc 200,.kmalloc 16,.kfree 0x10000C,.kmalloc 64,.kfree 0x1000E0]

/-- It leaves the same pointer live, with the same size, as one request. -/
theorem histories_agree :
    ([HeapCall.kmalloc 64].foldlM (perform 8) megabyteHeap).map (fun st => (st.live,liveSize st 0x10000C))=
        some ([0x10000C],64) ∧
      (longHistory.foldlM (perform 8) megabyteHeap).map (fun st => (st.live,liveSize st 0x10000C))=
        some ([0x10000C],64) := by
  decide +kernel

/-- So the heap holds the same blocks after it. -/
theorem megabyteHeap_forgets :
    ∃ st st' bs,[HeapCall.kmalloc 64].foldlM (perform 8) megabyteHeap=some st ∧
      longHistory.foldlM (perform 8) megabyteHeap=some st' ∧ st.live=[0x10000C] ∧
      Represents st.heap bs ∧ Represents st'.heap bs := by
  obtain ⟨hshort,hlong⟩ := histories_agree
  obtain ⟨st,hst,heq⟩ := Option.map_eq_some_iff.mp hshort
  obtain ⟨st',hst',heq'⟩ := Option.map_eq_some_iff.mp hlong
  obtain ⟨hlive,hsize⟩ := Prod.mk.inj heq
  obtain ⟨hlive',hsize'⟩ := Prod.mk.inj heq'
  obtain ⟨bs,hbs,hbs',_⟩ := allocator_forgets_history (by decide) (by decide)
    (reachable_calls _ megabyteHeap_reachable hst) (reachable_calls _ megabyteHeap_reachable hst')
    (by rw [hlive,hlive']) fun p hp => by
      rw [hlive] at hp
      rw [List.mem_singleton.mp hp,hsize,hsize']
  exact ⟨st,st',bs,hst,hst',hlive,hbs,hbs'⟩

end EronKernel.HeapForgets

import EronKernel.HeapOps

/-!
# Runs of the kernel heap

A session pairs the heap with the list of live pointers: those returned by
kmalloc and not yet released by a kfree that returned one. Calls arrive in
any order, interleaved with client writes inside live payloads. One invariant
ties the represented blocks, the live pointers and the tracker together; it
is kept by every call, and every call returns.
-/

namespace EronKernel.HeapRuns

open ByteMemory FuelLoop BlockList HeapModel HeapLayout HeapOps

/-- Pointers in the taken entries, in table order. -/
def entryPtrs (ts : List TrackedBlock) : List Word :=
  (ts.filter fun t => t.inUse).map fun t => t.ptr

/-- Pointers that kfree accepts. -/
def trackedPtrs (t : Tracker) : List Word := entryPtrs t.entries

/-- Pointers to the payloads of the used blocks, in address order. -/
def usedPtrs (base : ℕ) (bs : List Block) : List Word :=
  (usedPlaced 12 base bs).map fun p => BitVec.ofNat 32 (p.1+12)

/-- Entries from the first one on. -/
theorem entryPtrs_cons (t : TrackedBlock) (ts : List TrackedBlock) :
    entryPtrs (t::ts)=(if t.inUse then [t.ptr] else [])++entryPtrs ts := by
  cases ht : t.inUse <;> simp [entryPtrs,ht]

/-- track_validate is membership among the taken entries. -/
theorem trackValidate_iff (t : Tracker) (p : Word) :
    trackValidate t p=true ↔ p∈trackedPtrs t := by
  simp only [trackValidate,trackedPtrs,entryPtrs,List.any_eq_true,List.mem_map,List.mem_filter,
    Bool.and_eq_true,beq_iff_eq]
  constructor
  · rintro ⟨e,he,hu,hp⟩
    exact ⟨e,⟨he,hu⟩,hp⟩
  · rintro ⟨e,⟨he,hu⟩,hp⟩
    exact ⟨e,he,hu,hp⟩

/-- track_remove removes one occurrence of the pointer. -/
theorem entryPtrs_remove (p : Word) (ts : List TrackedBlock) :
    entryPtrs (trackRemoveEntries p ts)=(entryPtrs ts).erase p := by
  induction ts with
  | nil => rfl
  | cons t ts ih =>
    unfold trackRemoveEntries
    split
    · next h => simp [entryPtrs_cons,h.1,h.2]
    · next h =>
      rw [entryPtrs_cons,entryPtrs_cons,ih]
      cases hu : t.inUse
      · simp
      · have hp : t.ptr≠p := fun he => h ⟨hu,he⟩
        simp [hp]

/-- track_add records the pointer unless every entry is taken. -/
theorem entryPtrs_add (p size : Word) (ts : List TrackedBlock) :
    (entryPtrs (trackAddEntries p size ts)).Perm (p::entryPtrs ts) ∨
      (entryPtrs (trackAddEntries p size ts)=entryPtrs ts ∧ (entryPtrs ts).length=ts.length) := by
  induction ts with
  | nil => exact Or.inr ⟨rfl,rfl⟩
  | cons t ts ih =>
    unfold trackAddEntries
    split
    · next hu =>
      simp only [entryPtrs_cons,hu,if_true,List.singleton_append]
      rcases ih with hp|⟨he,hl⟩
      · exact Or.inl ((hp.cons t.ptr).trans (List.Perm.swap _ _ _))
      · exact Or.inr ⟨by rw [he],by simp [hl]⟩
    · next hu =>
      refine Or.inl ?_
      simp [entryPtrs_cons,hu]

/-- There are never more tracked pointers than entries. -/
theorem length_trackedPtrs_le (t : Tracker) : (trackedPtrs t).length≤256 := by
  have hl : t.entries.length=256 := t.length_entries
  unfold trackedPtrs entryPtrs
  rw [List.length_map,←hl]
  exact List.length_filter_le _ _

/-- The heap together with the pointers its clients hold. -/
structure Session where
  /-- The allocator's state and the whole memory. -/
  heap : Heap
  /-- Pointers returned by kmalloc and not yet released. -/
  live : List Word

/-- What a client can do next. -/
inductive HeapCall where
  /-- Request a payload of any size. -/
  | kmalloc (size : Word)
  /-- Release any pointer. -/
  | kfree (ptr : Word)
  /-- Release everything tracked. -/
  | kfreeAll
  /-- Store a byte inside the payload of a live pointer. -/
  | write (x : Word) (b : Byte)

/-- The body of kfree_all with the live pointers followed along: an entry
whose kfree returned one is no longer live. -/
def releaseEntry (fuel : ℕ) (state : (Heap×ℤ)×List Word) (i : ℕ) :
    Option ((Heap×ℤ)×List Word) :=
  (kfreeEntry fuel state.1 i).map fun next =>
    (next,if next.2=state.1.2 then state.2
      else state.2.erase ((state.1.1.tracked.entries[i]?.map fun e => e.ptr).getD 0))

/-- The address lies in the payload of a live pointer. -/
def LivePayload (st : Session) (x : Word) : Prop :=
  ∃ p∈st.live,(x-p).toNat<(hdrSize st.heap.mem (p-headerSize)).toNat

instance (st : Session) (x : Word) : Decidable (LivePayload st x) :=
  inferInstanceAs (Decidable (∃ p∈st.live,_))

/-- Perform one call; no value when fuel runs out or a client would write
outside the live payloads. -/
def perform (fuel : ℕ) (st : Session) : HeapCall→Option Session
  | .kmalloc size => (kmalloc fuel st.heap size).map fun (h,p) =>
      ⟨h,if p=0 then st.live else p::st.live⟩
  | .kfree ptr => (kfree fuel st.heap ptr).map fun (h,r) =>
      ⟨h,if r=1 then st.live.erase ptr else st.live⟩
  | .kfreeAll => ((List.range maxTrackedBlocks).foldlM (releaseEntry fuel) ((st.heap,0),st.live)).map
      fun r => ⟨r.1.1,r.2⟩
  | .write x b => if LivePayload st x then some ⟨{st.heap with mem := store8 st.heap.mem x b},st.live⟩
      else none

/-- States that a run from mm_init can reach, over any contents of memory
and of the static tracker. -/
inductive Reachable (start size : Word) : Session→Prop where
  /-- The state after mm_init; nothing is live. -/
  | init (m : Mem) (t : Tracker) : Reachable start size ⟨mmInit m t start size,[]⟩
  /-- One more returning call. -/
  | call {st next : Session} (fuel : ℕ) (c : HeapCall) :
    Reachable start size st→perform fuel st c=some next→Reachable start size next

/-- The allocator's representation invariant. -/
structure HeapInv (st : Session) (bs : List Block) : Prop where
  /-- Memory holds exactly these blocks. -/
  represents : Represents st.heap bs
  /-- Neighbouring free blocks have been merged. -/
  separated : Separated bs
  /-- Used blocks and live pointers correspond one to one. -/
  live : st.live.Perm (usedPtrs st.heap.heapStart.toNat bs)
  /-- No pointer is tracked twice. -/
  trackedNodup : (trackedPtrs st.heap.tracked).Nodup
  /-- Only live pointers are tracked. -/
  trackedLive : ∀ p∈trackedPtrs st.heap.tracked,p∈st.live

/-- Used payload pointers of a concatenation. -/
theorem usedPtrs_append (base : ℕ) (xs ys : List Block) :
    usedPtrs base (xs++ys)=usedPtrs base xs++usedPtrs (base+extent 12 xs) ys := by
  simp only [usedPtrs,usedPlaced_append,List.map_append]

/-- Used payload pointers from the first block on. -/
theorem usedPtrs_cons (base : ℕ) (b : Block) (bs : List Block) :
    usedPtrs base (b::bs)=
      (if b.used then [BitVec.ofNat 32 (base+12)] else [])++usedPtrs (base+12+b.size) bs := by
  unfold usedPtrs
  rw [usedPlaced_cons]
  cases b.used <;> simp

/-- Distinct used blocks have distinct payload pointers. -/
theorem usedPtrs_nodup {base : ℕ} {bs : List Block} (hb : base+extent 12 bs<2^32) :
    (usedPtrs base bs).Nodup := by
  unfold usedPtrs usedPlaced
  refine List.Nodup.map_on ?_ (List.Nodup.filter _ ?_)
  · intro p hp q hq he
    have hp' := (List.mem_filter.mp hp).1
    have hq' := (List.mem_filter.mp hq).1
    have hpb := placed_bounds hp'
    have hqb := placed_bounds hq'
    have ha : p.1=q.1 := by
      have hn := congrArg BitVec.toNat he
      simp only [BitVec.toNat_ofNat] at hn
      omega
    exact placed_eq_of_overlap hp' hq' (by omega) (by omega)
  · refine (placed_pairwise base bs).imp ?_
    rintro p q hpq rfl
    omega

/-- A used payload pointer names a used block. -/
theorem exists_used_block {base : ℕ} {bs : List Block} {p : Word} (hp : p∈usedPtrs base bs) :
    ∃ l sz r,bs=l++⟨sz,true⟩::r ∧ p=BitVec.ofNat 32 (base+extent 12 l+12) := by
  obtain ⟨q,hq,rfl⟩ := List.mem_map.mp hp
  obtain ⟨hq,hu⟩ := List.mem_filter.mp hq
  obtain ⟨l,r,hl,ha⟩ := exists_split_of_mem_placed hq
  refine ⟨l,q.2.size,r,?_,by rw [ha]⟩
  rw [hl,←hu]

/-- The used block of a live pointer, found twelve bytes before it. -/
theorem HeapInv.block_of_live {st : Session} {bs : List Block} (h : HeapInv st bs) {p : Word}
    (hp : p∈st.live) :
    ∃ l sz r,bs=l++⟨sz,true⟩::r ∧ p.toNat=st.heap.heapStart.toNat+extent 12 l+12 ∧
      p-headerSize=BitVec.ofNat 32 (st.heap.heapStart.toNat+extent 12 l) ∧
      hdrSize st.heap.mem (p-headerSize)=BitVec.ofNat 32 sz ∧
      st.heap.heapStart.toNat+extent 12 l+12+sz ≤ st.heap.heapEnd.toNat := by
  obtain ⟨l,sz,r,rfl,rfl⟩ := exists_used_block (h.live.mem_iff.mp hp)
  obtain ⟨hh,he⟩ := h.represents.at_split
  have hend := st.heap.heapEnd.isLt
  dsimp only at he
  have hhdr : BitVec.ofNat 32 (st.heap.heapStart.toNat+extent 12 l+12)-headerSize=
      BitVec.ofNat 32 (st.heap.heapStart.toNat+extent 12 l) := by
    unfold headerSize
    bv_omega
  refine ⟨l,sz,r,rfl,?_,hhdr,?_,by omega⟩
  · rw [BitVec.toNat_ofNat]
    omega
  · have hs : (hdrSize st.heap.mem (BitVec.ofNat 32 (st.heap.heapStart.toNat+extent 12 l))).toNat=sz :=
      hh.size
    rw [hhdr,←hs]
    simp

/-- Releasing a used block in the list removes its pointer. -/
theorem usedPtrs_release {base sz : ℕ} {l r : List Block}
    (hb : base+extent 12 (l++⟨sz,true⟩::r)<2^32) :
    (usedPtrs base (l++⟨sz,true⟩::r)).erase (BitVec.ofNat 32 (base+extent 12 l+12))=
      usedPtrs base (l++⟨sz,false⟩::r) := by
  have hn := usedPtrs_nodup hb
  simp only [usedPtrs_append,usedPtrs_cons,if_true,Bool.false_eq_true,if_false,
    List.singleton_append,List.nil_append] at hn ⊢
  have hnot := (List.nodup_append.mp hn).2.2
  rw [List.erase_append_right]
  · simp
  · intro hm
    exact hnot _ hm _ List.mem_cons_self rfl

/-- Releasing a used block in the list lowers the used payload by its size. -/
theorem payload_release (sz : ℕ) (l r : List Block) :
    payload true (l++⟨sz,true⟩::r)=payload true (l++⟨sz,false⟩::r)+sz := by
  simp only [payload_append,payload]
  simp
  omega

/-- Merging a whole list keeps the used pointers and the used payload, and
separates the free blocks. -/
theorem coalesce_facts (base : ℕ) {bs : List Block} (hne : bs≠[]) :
    usedPtrs base (coalesce 12 bs)=usedPtrs base bs ∧ Separated (coalesce 12 bs) ∧
      payload true (coalesce 12 bs)=payload true bs ∧
      ∀ p∈placed 12 base (coalesce 12 bs),∃ q∈placed 12 base bs,q.1=p.1 := by
  cases bs with
  | nil => exact absurd rfl hne
  | cons b bs =>
    refine ⟨?_,separated_coalesceFrom b bs,payload_coalesceFrom b bs,placed_coalesceFrom base b bs⟩
    unfold usedPtrs coalesce
    rw [usedPlaced_coalesceFrom]

/-- Releasing a block places no header at a new address. -/
theorem placed_release {base sz : ℕ} {l r : List Block} :
    ∀ p∈placed 12 base (l++⟨sz,false⟩::r),∃ q∈placed 12 base (l++⟨sz,true⟩::r),q.1=p.1 := by
  intro p hp
  simp only [placed_append,List.mem_append,placed,List.mem_cons] at hp ⊢
  rcases hp with hp|rfl|hp
  · exact ⟨p,Or.inl hp,rfl⟩
  · exact ⟨_,Or.inr (Or.inl rfl),rfl⟩
  · exact ⟨p,Or.inr (Or.inr hp),rfl⟩

/-- A call that kept the invariant by rewriting headers only. -/
structure HeaderStep (st next : Session) (bs cs : List Block) : Prop where
  /-- The invariant holds again. -/
  inv : HeapInv next cs
  /-- The heap did not move. -/
  heapStart : next.heap.heapStart=st.heap.heapStart
  /-- The heap did not grow. -/
  heapEnd : next.heap.heapEnd=st.heap.heapEnd
  /-- No payload byte changed, used or free. -/
  onlyHeaders : OnlyHeaders bs st.heap next.heap
  /-- No header appeared at a new address. -/
  placed : ∀ p∈placed 12 st.heap.heapStart.toNat cs,
    ∃ q∈placed 12 st.heap.heapStart.toNat bs,q.1=p.1

/-- kfree of a tracked pointer in front of a valid header passes every check
and merges the freed block. -/
theorem kfree_passes {s : Heap} {p : Word} (hne : p≠0) (hp : p∈trackedPtrs s.tracked)
    (hvalid : isBlockValid s (p-headerSize)=true) (fuel : ℕ) :
    kfree fuel s p=(coalesceFreeBlocks fuel {s with
      tracked := (trackRemove s.tracked p).2
      mem := setUsed s.mem (p-headerSize) blockFree}).map fun t => (t,1) := by
  have hv := (trackValidate_iff s.tracked p).mpr hp
  have hremoved : ¬(trackRemove s.tracked p).1=false := by
    unfold trackRemove
    rw [hv]
    exact Bool.noConfusion
  unfold kfree
  rw [if_neg hne,if_neg (by rw [hv]; decide)]
  dsimp only
  rw [if_neg (by rw [hvalid]; decide),if_neg hremoved]

/-- kfree on a tracked pointer clears its entry, marks its block free and
merges the blocks. -/
theorem kfree_merges {st : Session} {l r : List Block} {sz : ℕ}
    (h : HeapInv st (l++⟨sz,true⟩::r)) {p : Word} (hp : p∈trackedPtrs st.heap.tracked)
    (hpn : p.toNat=st.heap.heapStart.toNat+extent 12 l+12)
    (hhdr : p-headerSize=BitVec.ofNat 32 (st.heap.heapStart.toNat+extent 12 l))
    {fuel : ℕ} (hf : 2^32≤fuel) :
    ∃ t,kfree fuel st.heap p=some (t,1) ∧ Represents t (coalesce 12 (l++⟨sz,false⟩::r)) ∧
      t.heapStart=st.heap.heapStart ∧ t.heapEnd=st.heap.heapEnd ∧
      t.tracked=(trackRemove st.heap.tracked p).2 ∧ OnlyHeaders (l++⟨sz,true⟩::r) st.heap t := by
  let s : Heap := {st.heap with
    tracked := (trackRemove st.heap.tracked p).2
    mem := setUsed st.heap.mem (p-headerSize) blockFree}
  obtain ⟨hrel,honly⟩ := release_represents (t := s) h.represents rfl rfl (by simp only [s,hhdr])
  obtain ⟨t,hrun,ht,hst,hk⟩ := coalesceFreeBlocks_run hrel (hrel.length_le.trans hf)
  have hvalid := h.represents.walk.2.2.1
  have hne : p≠0 := by
    rintro rfl
    simp at hpn
  refine ⟨t,?_,ht,hst.heapStart,hst.heapEnd,hst.tracked,honly.trans rfl placed_release hk⟩
  rw [kfree_passes hne hp (hhdr▸hvalid)]
  change (coalesceFreeBlocks fuel s).map _=_
  rw [hrun]
  rfl

/-- kfree on a tracked pointer frees its block, merges, and forgets it. -/
theorem kfree_tracked {st : Session} {bs : List Block} (h : HeapInv st bs) {p : Word}
    (hp : p∈trackedPtrs st.heap.tracked) {fuel : ℕ} (hf : 2^32≤fuel) :
    ∃ t cs,kfree fuel st.heap p=some (t,1) ∧ HeaderStep st ⟨t,st.live.erase p⟩ bs cs ∧
      trackedPtrs t.tracked=(trackedPtrs st.heap.tracked).erase p ∧
      payload true bs=payload true cs+(hdrSize st.heap.mem (p-headerSize)).toNat := by
  obtain ⟨l,sz,r,rfl,hpn,hhdr,hsize,hbound⟩ := h.block_of_live (h.trackedLive p hp)
  have hext := h.represents.extent_lt
  have hend := st.heap.heapEnd.isLt
  obtain ⟨t,hkfree,ht,hstart,hheapEnd,htrack,honly⟩ := kfree_merges h hp hpn hhdr hf
  have hne : l++⟨sz,false⟩::r≠[] := by simp
  obtain ⟨hptrs,hsep,hpay,haddr⟩ := coalesce_facts st.heap.heapStart.toNat hne
  have htracked : trackedPtrs t.tracked=(trackedPtrs st.heap.tracked).erase p := by
    rw [htrack]
    exact entryPtrs_remove _ _
  refine ⟨t,_,hkfree,⟨⟨ht,hsep,?_,?_,?_⟩,hstart,hheapEnd,honly,?_⟩,htracked,?_⟩
  · have hpeq : p=BitVec.ofNat 32 (st.heap.heapStart.toNat+extent 12 l+12) := by
      apply BitVec.eq_of_toNat_eq
      rw [hpn,BitVec.toNat_ofNat]
      omega
    dsimp only
    rw [hstart,hptrs,←usedPtrs_release hext,←hpeq]
    exact h.live.erase p
  · dsimp only
    rw [htracked]
    exact h.trackedNodup.erase p
  · intro q hq
    dsimp only at hq ⊢
    rw [htracked,h.trackedNodup.mem_erase_iff] at hq
    exact (List.mem_erase_of_ne hq.1).mpr (h.trackedLive q hq.2)
  · intro q hq
    obtain ⟨q',hq',he'⟩ := haddr q hq
    obtain ⟨q'',hq'',he''⟩ := placed_release q' hq'
    exact ⟨q'',hq'',he''.trans he'⟩
  · rw [hpay,payload_release,hsize]
    congr 1
    rw [BitVec.toNat_ofNat]
    omega

/-- kfree on any other pointer returns zero and changes nothing. -/
theorem kfree_untracked {s : Heap} {p : Word} (hp : p∉trackedPtrs s.tracked) (fuel : ℕ) :
    kfree fuel s p=some (s,0) := by
  have hv : trackValidate s.tracked p=false := by
    rw [←Bool.not_eq_true,trackValidate_iff]
    exact hp
  unfold kfree
  rw [if_pos hv,ite_self]

/-- Handing out a block adds its pointer to the used pointers. -/
theorem usedPtrs_carve (base sz wanted : ℕ) (l r : List Block) (hw : wanted ≤ sz) :
    (BitVec.ofNat 32 (base+extent 12 l+12)::usedPtrs base (l++⟨sz,false⟩::r)).Perm
      (usedPtrs base (l++carve 12 16 wanted sz++r)) := by
  have hc : usedPtrs (base+extent 12 l) (carve 12 16 wanted sz)=
      [BitVec.ofNat 32 (base+extent 12 l+12)] := by
    unfold usedPtrs
    rw [usedPlaced_carve]
    rfl
  have he : base+extent 12 (l++carve 12 16 wanted sz)=base+extent 12 l+12+sz := by
    rw [extent_append,extent_carve hw]
    omega
  rw [usedPtrs_append,usedPtrs_append,usedPtrs_append,hc,he,usedPtrs_cons]
  simp only [Bool.false_eq_true,if_false,List.nil_append,List.append_assoc,List.singleton_append]
  exact List.perm_middle.symm

/-- A tracked allocation adds its pointer to the tracker, unless the tracker
is full. -/
theorem handOutTracked_tracked {s : Heap} {hdr wanted : Word}
    (hkeep : (handOut s hdr wanted).tracked=s.tracked) :
    (trackedPtrs (handOutTracked s hdr wanted).1.tracked).Perm
        ((handOutTracked s hdr wanted).2::trackedPtrs s.tracked) ∨
      (trackedPtrs (handOutTracked s hdr wanted).1.tracked=trackedPtrs s.tracked ∧
        (trackedPtrs s.tracked).length=256) := by
  have hadd := entryPtrs_add (handOutTracked s hdr wanted).2 (hdrSize (handOut s hdr wanted).mem hdr)
    s.tracked.entries
  have hlength : s.tracked.entries.length=256 := s.tracked.length_entries
  have htracked : (handOutTracked s hdr wanted).1.tracked=trackAdd s.tracked
      (handOutTracked s hdr wanted).2 (hdrSize (handOut s hdr wanted).mem hdr) := by
    rw [←hkeep]
    rfl
  rw [htracked]
  rw [hlength] at hadd
  exact hadd

/-- What a first-fit allocation does to a represented session. -/
theorem kmalloc_found {st : Session} {l r : List Block} {sz : ℕ} {wanted : Word}
    (h : HeapInv st (l++⟨sz,false⟩::r)) (hw : wanted.toNat ≤ sz) :
    let out := handOutTracked st.heap (BitVec.ofNat 32 (st.heap.heapStart.toNat+extent 12 l)) wanted
    out.2=BitVec.ofNat 32 (st.heap.heapStart.toNat+extent 12 l+12) ∧ out.2≠0 ∧
      out.1.heapStart=st.heap.heapStart ∧ out.1.heapEnd=st.heap.heapEnd ∧
      HeapInv ⟨out.1,out.2::st.live⟩ (l++carve 12 16 wanted.toNat sz++r) ∧
      KeepsPayloads (l++⟨sz,false⟩::r) st.heap out.1 ∧
      ((trackedPtrs out.1.tracked).Perm (out.2::trackedPtrs st.heap.tracked) ∨
        (trackedPtrs out.1.tracked=trackedPtrs st.heap.tracked ∧
          (trackedPtrs st.heap.tracked).length=256)) := by
  intro out
  obtain ⟨hrep,hstat,hkeep⟩ := handOut_represents h.represents hw
  have he := h.represents.at_split.2
  have hend := st.heap.heapEnd.isLt
  dsimp only at he
  have hptr : out.2=BitVec.ofNat 32 (st.heap.heapStart.toNat+extent 12 l+12) := by
    simp only [out,handOutTracked]
    unfold headerSize
    bv_omega
  have hfresh : out.2∉st.live := by
    intro hm
    have hn := usedPtrs_nodup hrep.extent_lt
    have hp := usedPtrs_carve st.heap.heapStart.toNat sz wanted.toNat l r hw
    rw [hstat.heapStart] at hn
    have hnc := hp.nodup_iff.mpr hn
    rw [hptr] at hm
    exact (List.nodup_cons.mp hnc).1 (h.live.mem_iff.mp hm)
  have htrack := handOutTracked_tracked hstat.tracked
  refine ⟨hptr,by rw [hptr]; bv_omega,hstat.heapStart,hstat.heapEnd,⟨?_,separated_carve h.separated,?_,?_,?_⟩,
    hkeep,htrack⟩
  · exact ⟨hrep.nonempty,hrep.tiles,hrep.headers⟩
  · have hs : out.1.heapStart=st.heap.heapStart := hstat.heapStart
    dsimp only
    rw [hs,hptr]
    exact (h.live.cons _).trans (usedPtrs_carve _ _ _ _ _ hw)
  · dsimp only
    rcases htrack with hp|⟨he,_⟩
    · rw [hp.nodup_iff,List.nodup_cons]
      exact ⟨fun hm => hfresh (h.trackedLive _ hm),h.trackedNodup⟩
    · rw [he]
      exact h.trackedNodup
  · intro p hp
    dsimp only at hp ⊢
    rcases htrack with hq|⟨he,_⟩
    · rcases List.mem_cons.mp (hq.mem_iff.mp hp) with rfl|hm
      · exact List.mem_cons_self
      · exact List.mem_cons_of_mem _ (h.trackedLive p hm)
    · rw [he] at hp
      exact List.mem_cons_of_mem _ (h.trackedLive p hp)

/-- kmalloc either changes nothing and returns NULL, or hands out the first
fitting block. -/
theorem kmalloc_cases {st : Session} {bs : List Block} (h : HeapInv st bs) (size : Word)
    {fuel : ℕ} (hf : 2^32≤fuel) :
    (kmalloc fuel st.heap size=some (st.heap,0) ∧
      (size=0 ∨ ∀ b∈bs,¬Fits (align8 size).toNat b)) ∨
    ∃ l sz r,bs=l++⟨sz,false⟩::r ∧ size≠0 ∧ (align8 size).toNat ≤ sz ∧
      (∀ b∈l,¬Fits (align8 size).toNat b) ∧
      kmalloc fuel st.heap size=some (handOutTracked st.heap
        (BitVec.ofNat 32 (st.heap.heapStart.toNat+extent 12 l)) (align8 size)) := by
  by_cases hz : size=0
  · exact Or.inl ⟨by rw [kmalloc,if_pos hz],Or.inl hz⟩
  · have hsearch := kmalloc_search (align8 size) bs [] fuel h.represents h.represents.nonempty
      (h.represents.length_le.trans hf)
    simp only [extent,Nat.add_zero,BitVec.ofNat_toNat,BitVec.setWidth_eq,List.nil_append] at hsearch
    rcases hsearch with ⟨x,sz,y,hr,hw,hx,hrun⟩|⟨hx,hrun⟩
    · exact Or.inr ⟨x,sz,y,hr,hz,hw,hx,by rw [kmalloc,if_neg hz]; exact hrun⟩
    · exact Or.inl ⟨by rw [kmalloc,if_neg hz]; exact hrun,Or.inr hx⟩

/-- Every live pointer is tracked. -/
def AllTracked (st : Session) : Prop := ∀ p∈st.live,p∈trackedPtrs st.heap.tracked

/-- Live pointers are distinct. -/
theorem HeapInv.live_nodup {st : Session} {bs : List Block} (h : HeapInv st bs) : st.live.Nodup :=
  h.live.nodup_iff.mpr (usedPtrs_nodup h.represents.extent_lt)

/-- Releasing a tracked pointer keeps every live pointer tracked. -/
theorem AllTracked.erase {st : Session} {bs : List Block} (h : HeapInv st bs) (ha : AllTracked st)
    {t : Heap} {p : Word} (ht : trackedPtrs t.tracked=(trackedPtrs st.heap.tracked).erase p) :
    AllTracked ⟨t,st.live.erase p⟩ := by
  intro q hq
  dsimp only at hq ⊢
  rw [h.live_nodup.mem_erase_iff] at hq
  rw [ht]
  exact (List.mem_erase_of_ne hq.1).mpr (ha q hq.2)

/-- A call that changes nothing. -/
theorem HeaderStep.refl {st : Session} {bs : List Block} (h : HeapInv st bs) :
    HeaderStep st st bs bs :=
  ⟨h,rfl,rfl,fun _ _ => rfl,fun p hp => ⟨p,hp,rfl⟩⟩

/-- Header-only calls compose. -/
theorem HeaderStep.trans {st mid next : Session} {bs cs ds : List Block}
    (h : HeaderStep st mid bs cs) (k : HeaderStep mid next cs ds) : HeaderStep st next bs ds := by
  refine ⟨k.inv,k.heapStart.trans h.heapStart,k.heapEnd.trans h.heapEnd,
    h.onlyHeaders.trans h.heapStart h.placed k.onlyHeaders,?_⟩
  intro p hp
  have hk := k.placed p
  rw [h.heapStart] at hk
  obtain ⟨q,hq,he⟩ := hk hp
  obtain ⟨r,hr,he'⟩ := h.placed q hq
  exact ⟨r,hr,he'.trans he⟩

/-- One index of kfree_all keeps the invariant. -/
theorem releaseEntry_step {s : Heap} {live : List Word} {bs : List Block}
    (h : HeapInv ⟨s,live⟩ bs) (freed : ℤ) (i : ℕ) {fuel : ℕ} (hf : 2^32≤fuel) :
    ∃ t n live' cs,releaseEntry fuel ((s,freed),live) i=some ((t,n),live') ∧
      HeaderStep ⟨s,live⟩ ⟨t,live'⟩ bs cs ∧ (AllTracked ⟨s,live⟩→AllTracked ⟨t,live'⟩) := by
  cases he : s.tracked.entries[i]? with
  | none =>
    refine ⟨s,freed,live,bs,?_,HeaderStep.refl h,id⟩
    simp [releaseEntry,kfreeEntry,he]
  | some e =>
    cases hu : e.inUse with
    | false =>
      refine ⟨s,freed,live,bs,?_,HeaderStep.refl h,id⟩
      simp [releaseEntry,kfreeEntry,he,hu]
    | true =>
      have hp : e.ptr∈trackedPtrs s.tracked :=
        List.mem_map.mpr ⟨e,List.mem_filter.mpr ⟨List.mem_of_getElem? he,hu⟩,rfl⟩
      obtain ⟨t,cs,hk,hstep,ht,_⟩ := kfree_tracked h hp hf
      refine ⟨t,freed+1,live.erase e.ptr,cs,?_,hstep,fun ha => AllTracked.erase h ha ht⟩
      dsimp only at hk
      simp [releaseEntry,kfreeEntry,he,hu,hk]

/-- The whole of kfree_all keeps the invariant. -/
theorem releaseAll_step (is : List ℕ) {fuel : ℕ} (hf : 2^32≤fuel) :
    ∀ {s : Heap} {live : List Word} {bs : List Block} (freed : ℤ),HeapInv ⟨s,live⟩ bs→
      ∃ t n live' cs,is.foldlM (releaseEntry fuel) ((s,freed),live)=some ((t,n),live') ∧
        HeaderStep ⟨s,live⟩ ⟨t,live'⟩ bs cs ∧ (AllTracked ⟨s,live⟩→AllTracked ⟨t,live'⟩) := by
  induction is with
  | nil => exact fun {s live bs} freed h => ⟨s,freed,live,bs,rfl,HeaderStep.refl h,id⟩
  | cons i is ih =>
    intro s live bs freed h
    obtain ⟨t,n,live',cs,hone,hstep,ha⟩ := releaseEntry_step h freed i hf
    obtain ⟨u,k,live'',ds,hrest,hstep',ha'⟩ := ih n hstep.inv
    refine ⟨u,k,live'',ds,?_,hstep.trans hstep',ha' ∘ ha⟩
    rw [List.foldlM_cons,hone]
    exact hrest

/-- Following the live pointers does not influence kfree_all. -/
theorem releaseAll_heap (is : List ℕ) (fuel : ℕ) (state : Heap×ℤ) (live : List Word) :
    (is.foldlM (releaseEntry fuel) (state,live)).map Prod.fst=is.foldlM (kfreeEntry fuel) state := by
  induction is generalizing state live with
  | nil => rfl
  | cons i is ih =>
    rw [List.foldlM_cons,List.foldlM_cons]
    cases hk : kfreeEntry fuel state i with
    | none => simp [releaseEntry,hk]
    | some next =>
      simp only [releaseEntry,hk,Option.map_some]
      exact ih next _

/-- The heap after a session's kfree_all is the heap after kfree_all. -/
theorem perform_kfreeAll_heap (fuel : ℕ) (st : Session) :
    (perform fuel st .kfreeAll).map (fun next => next.heap)=
      (kfreeAll fuel st.heap).map fun r => r.1 := by
  unfold perform kfreeAll
  rw [←releaseAll_heap (List.range maxTrackedBlocks) fuel (st.heap,0) st.live,Option.map_map,
    Option.map_map]
  rfl

/-- mm_init establishes the invariant with one free block. -/
theorem mmInit_inv (m : Mem) (t : Tracker) {start size : Word} (hs : 12 ≤ size.toNat)
    (hfit : (align8 start).toNat+size.toNat<2^32) :
    HeapInv ⟨mmInit m t start size,[]⟩ [⟨size.toNat-12,false⟩] := by
  have hend : (align8 start+size).toNat=(align8 start).toNat+size.toNat := by bv_omega
  have hpay : (align8 start+size-align8 start-headerSize).toNat=size.toNat-12 := by
    unfold headerSize
    bv_omega
  have hnone : trackedPtrs (mmInit m t start size).tracked=[] := by
    simp [trackedPtrs,entryPtrs,mmInit,List.filter_eq_nil_iff]
  refine ⟨⟨by simp,?_,?_⟩,List.isChain_singleton _,?_,?_,?_⟩
  · simp only [mmInit,extent,hend]
    omega
  · intro p hp
    simp only [mmInit,placed,List.mem_singleton] at hp
    rw [hp,←hpay]
    have hw := headerAt_write m (align8 start).toNat (align8 start+size-align8 start-headerSize) false
    simp only [BitVec.ofNat_toNat,BitVec.setWidth_eq] at hw
    exact hw
  · simp [usedPtrs,usedPlaced,placed]
  · rw [hnone]
    exact List.nodup_nil
  · rw [hnone]
    simp

/-- A client write inside a live payload hits no header. -/
theorem write_inv {st : Session} {bs : List Block} (h : HeapInv st bs) {x : Word}
    (hx : LivePayload st x) (b : Byte) :
    HeapInv ⟨{st.heap with mem := store8 st.heap.mem x b},st.live⟩ bs := by
  obtain ⟨p,hp,hlt⟩ := hx
  obtain ⟨l,sz,r,hbs,hpn,hhdr,hsize,hbound⟩ := h.block_of_live hp
  have hend := st.heap.heapEnd.isLt
  rw [hsize,BitVec.toNat_ofNat] at hlt
  have hin : (st.heap.heapStart.toNat+extent 12 l,⟨sz,true⟩)∈
      placed 12 st.heap.heapStart.toNat bs := by
    rw [hbs,placed_append]
    simp [placed]
  have hlo : p.toNat≤x.toNat ∧ x.toNat<p.toNat+sz := by bv_omega
  refine ⟨⟨h.represents.nonempty,h.represents.tiles,?_⟩,h.separated,h.live,h.trackedNodup,h.trackedLive⟩
  intro q hq
  dsimp only at hq
  have hqb := placed_bounds hq
  have hext := h.represents.extent_lt
  refine headerAt_congr (by omega) (fun y hy hy' => store8_of_ne _ ?_) (h.represents.headers q hq)
  rintro rfl
  have he := placed_eq_of_overlap hin hq (by dsimp only; omega) (by dsimp only; omega)
  rw [←he] at hy'
  dsimp only at hy'
  omega

/-- A call of the allocator, not a client's write. -/
def HeapCall.IsAllocator : HeapCall→Prop
  | .write _ _ => False
  | _ => True

/-- A client's write stays inside the live payloads. -/
def HeapCall.Permitted (st : Session) : HeapCall→Prop
  | .write x _ => LivePayload st x
  | _ => True

/-- What every permitted call does. -/
structure CallStep (st next : Session) (c : HeapCall) (bs cs : List Block) : Prop where
  /-- The invariant holds again. -/
  inv : HeapInv next cs
  /-- The heap did not move. -/
  heapStart : next.heap.heapStart=st.heap.heapStart
  /-- The heap did not grow. -/
  heapEnd : next.heap.heapEnd=st.heap.heapEnd
  /-- The allocator changed no live payload byte. -/
  keeps : c.IsAllocator→KeepsPayloads bs st.heap next.heap
  /-- A pointer goes untracked only beyond the tracker's capacity. -/
  allTracked : AllTracked st→ next.live.length≤256→AllTracked next

/-- Distinct live pointers that are all tracked are at most as many. -/
theorem length_le_of_allTracked {st : Session} {bs : List Block} (h : HeapInv st bs)
    (ha : AllTracked st) : st.live.length≤(trackedPtrs st.heap.tracked).length :=
  (h.live_nodup.subperm ha).length_le

/-- Tracked pointers are distinct live pointers. -/
theorem trackedPtrs_length_le {st : Session} {bs : List Block} (h : HeapInv st bs) :
    (trackedPtrs st.heap.tracked).length ≤ st.live.length :=
  (h.trackedNodup.subperm h.trackedLive).length_le

/-- The kmalloc case of the call lemma. -/
theorem kmalloc_step {st : Session} {bs : List Block} (h : HeapInv st bs) (size : Word) {fuel : ℕ}
    (hf : 2^32≤fuel) :
    ∃ next cs,perform fuel st (.kmalloc size)=some next ∧ CallStep st next (.kmalloc size) bs cs := by
  rcases kmalloc_cases h size hf with ⟨hrun,_⟩|⟨l,sz,r,rfl,_,hw,_,hrun⟩
  · refine ⟨st,bs,?_,⟨h,rfl,rfl,fun _ _ _ _ _ _ => rfl,fun ha _ => ha⟩⟩
    simp [perform,hrun]
  · obtain ⟨hptr,hnz,hstart,hend,hinv,hkeep,htrack⟩ := kmalloc_found h hw
    refine ⟨_,_,?_,⟨hinv,hstart,hend,fun _ => hkeep,?_⟩⟩
    · simp only [perform,hrun,Option.map_some,if_neg hnz]
    · intro ha hlen p hp
      rcases htrack with hperm|⟨_,hfull⟩
      · apply hperm.mem_iff.mpr
        rcases List.mem_cons.mp hp with rfl|hm
        · exact List.mem_cons_self
        · exact List.mem_cons_of_mem _ (ha p hm)
      · have hle := trackedPtrs_length_le h
        simp only [List.length_cons] at hlen
        omega

/-- Every permitted call returns and keeps the invariant. -/
theorem perform_step {st : Session} {bs : List Block} (h : HeapInv st bs) (c : HeapCall)
    (hc : c.Permitted st) {fuel : ℕ} (hf : 2^32≤fuel) :
    ∃ next cs,perform fuel st c=some next ∧ CallStep st next c bs cs := by
  cases c with
  | kmalloc size => exact kmalloc_step h size hf
  | kfree p =>
    by_cases hp : p∈trackedPtrs st.heap.tracked
    · obtain ⟨t,cs,hk,hstep,ht,_⟩ := kfree_tracked h hp hf
      refine ⟨_,cs,?_,⟨hstep.inv,hstep.heapStart,hstep.heapEnd,
        fun _ => hstep.onlyHeaders.keepsPayloads,fun ha _ => AllTracked.erase h ha ht⟩⟩
      simp only [perform,hk,Option.map_some,if_true]
    · refine ⟨st,bs,?_,⟨h,rfl,rfl,fun _ _ _ _ _ _ => rfl,fun ha _ => ha⟩⟩
      simp [perform,kfree_untracked hp fuel]
  | kfreeAll =>
    obtain ⟨t,n,live',cs,hrun,hstep,ha⟩ := releaseAll_step (List.range maxTrackedBlocks) hf 0 h
    refine ⟨⟨t,live'⟩,cs,?_,⟨hstep.inv,hstep.heapStart,hstep.heapEnd,
      fun _ => hstep.onlyHeaders.keepsPayloads,fun h _ => ha h⟩⟩
    simp only [perform]
    rw [hrun]
    rfl
  | write x b =>
    refine ⟨_,bs,?_,⟨write_inv h hc b,rfl,rfl,fun ha => ha.elim,fun ha _ => ha⟩⟩
    exact if_pos hc

/-- A call that returns was permitted. -/
theorem permitted_of_perform {fuel : ℕ} {st next : Session} {c : HeapCall}
    (hp : perform fuel st c=some next) : c.Permitted st := by
  cases c with
  | write x b =>
    by_contra hn
    have hnone : perform fuel st (.write x b)=none := if_neg hn
    rw [hnone] at hp
    cases hp
  | _ => trivial

/-- More fuel never changes the result of kmalloc. -/
theorem kmalloc_mono {fuel more : ℕ} (hle : fuel ≤ more) {s : Heap} {size : Word} {r : Heap×Word}
    (hr : kmalloc fuel s size=some r) : kmalloc more s size=some r := by
  unfold kmalloc at hr ⊢
  split_ifs at hr ⊢
  · exact hr
  · exact runLoop_mono hle hr

/-- More fuel never changes the result of kfree. -/
theorem kfree_mono {fuel more : ℕ} (hle : fuel ≤ more) {s : Heap} {p : Word} {r : Heap×ℤ}
    (hr : kfree fuel s p=some r) : kfree more s p=some r := by
  unfold kfree at hr ⊢
  dsimp only at hr ⊢
  split_ifs at hr ⊢ <;> try exact hr
  obtain ⟨t,ht,rfl⟩ := Option.map_eq_some_iff.mp hr
  exact Option.map_eq_some_iff.mpr ⟨t,runLoop_mono hle ht,rfl⟩

/-- More fuel never changes one index of kfree_all. -/
theorem releaseEntry_mono {fuel more : ℕ} (hle : fuel ≤ more) {state next : (Heap×ℤ)×List Word} {i : ℕ}
    (hr : releaseEntry fuel state i=some next) : releaseEntry more state i=some next := by
  obtain ⟨k,hk,rfl⟩ := Option.map_eq_some_iff.mp hr
  refine Option.map_eq_some_iff.mpr ⟨k,?_,rfl⟩
  unfold kfreeEntry at hk ⊢
  dsimp only at hk ⊢
  split at hk
  · exact hk
  · split_ifs at hk ⊢
    · obtain ⟨r,hfree,rfl⟩ := Option.map_eq_some_iff.mp hk
      exact Option.map_eq_some_iff.mpr ⟨r,kfree_mono hle hfree,rfl⟩
    · exact hk

/-- More fuel never changes the result of kfree_all. -/
theorem releaseAll_mono {fuel more : ℕ} (hle : fuel ≤ more) (is : List ℕ)
    {state next : (Heap×ℤ)×List Word} (hr : is.foldlM (releaseEntry fuel) state=some next) :
    is.foldlM (releaseEntry more) state=some next := by
  induction is generalizing state with
  | nil => exact hr
  | cons i is ih =>
    rw [List.foldlM_cons] at hr ⊢
    obtain ⟨mid,hone,hrest⟩ := Option.bind_eq_some_iff.mp hr
    exact Option.bind_eq_some_iff.mpr ⟨mid,releaseEntry_mono hle hone,ih hrest⟩

/-- More fuel never changes the result of a call. -/
theorem perform_mono {fuel more : ℕ} (hle : fuel ≤ more) {st next : Session} {c : HeapCall}
    (hp : perform fuel st c=some next) : perform more st c=some next := by
  cases c with
  | kmalloc size =>
    obtain ⟨r,hr,rfl⟩ := Option.map_eq_some_iff.mp hp
    exact Option.map_eq_some_iff.mpr ⟨r,kmalloc_mono hle hr,rfl⟩
  | kfree p =>
    obtain ⟨r,hr,rfl⟩ := Option.map_eq_some_iff.mp hp
    exact Option.map_eq_some_iff.mpr ⟨r,kfree_mono hle hr,rfl⟩
  | kfreeAll =>
    obtain ⟨r,hr,rfl⟩ := Option.map_eq_some_iff.mp hp
    exact Option.map_eq_some_iff.mpr ⟨r,releaseAll_mono hle _ hr,rfl⟩
  | write x b => exact hp

/-- Every call that returned did so as the call lemma says. -/
theorem callStep_of_perform {st next : Session} {bs : List Block} (h : HeapInv st bs)
    {c : HeapCall} {fuel : ℕ} (hp : perform fuel st c=some next) :
    ∃ cs,CallStep st next c bs cs := by
  obtain ⟨other,cs,hother,hstep⟩ := perform_step h c (permitted_of_perform hp) (Nat.le_max_right fuel (2^32))
  have hsame := perform_mono (Nat.le_max_left fuel (2^32)) hp
  rw [hsame] at hother
  cases hother
  exact ⟨cs,hstep⟩

/-- The invariant holds in every reachable state, and the heap stays where
mm_init placed it. -/
theorem reachable_inv {start size : Word} (hs : 12 ≤ size.toNat)
    (hfit : (align8 start).toNat+size.toNat<2^32) {st : Session} (hr : Reachable start size st) :
    ∃ bs,HeapInv st bs ∧ st.heap.heapStart=align8 start ∧ st.heap.heapEnd=align8 start+size := by
  induction hr with
  | init m t => exact ⟨_,mmInit_inv m t hs hfit,rfl,rfl⟩
  | call fuel c _ hp ih =>
    obtain ⟨bs,hinv,hstart,hend⟩ := ih
    obtain ⟨cs,hstep⟩ := callStep_of_perform hinv hp
    exact ⟨cs,hstep.inv,hstep.heapStart.trans hstart,hstep.heapEnd.trans hend⟩

end EronKernel.HeapRuns

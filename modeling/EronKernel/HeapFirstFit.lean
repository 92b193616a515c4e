import EronKernel.HeapIntegrity

/-!
# Allocation is first fit on the chain of blocks

In every reachable state the heap is a chain of blocks, and kmalloc is
described on that chain: which block it takes, what becomes of it, and which
tracker entry is added. The request is rounded up by a sum that wraps, so the
largest requests are rounded to zero and get whatever block is free.
-/

namespace EronKernel.HeapFirstFit

open ByteMemory FuelLoop BlockList HeapModel HeapLayout HeapOps HeapRuns HeapIntegrity

/-- A request rounded up to a multiple of eight, without wrapping. -/
def roundedUp (n : Word) : ℕ := (n.toNat+7)/8*8

/-- At most one entry of the tracker was taken, the first that was not in
use. -/
def TracksOne (before after : List TrackedBlock) (p : Word) : Prop :=
  after=before ∨ ∃ front e back size,before=front++e::back ∧ (∀ d∈front,d.inUse=true) ∧
    e.inUse=false ∧ after=front++⟨p,size,true⟩::back

/-- A block of the chain was taken: its pointer is returned, it is carved into
the wanted part and a free rest, and nothing else changed. -/
structure TakesBlock (s t : Heap) (l r : List Block) (sz w : ℕ) (p : Word) : Prop where
  /-- The pointer to the block's payload. -/
  ptr : p.toNat=s.heapStart.toNat+extent 12 l+12
  /-- The chain afterwards. -/
  chain : Represents t (l++carve 12 16 w sz++r)
  /-- The heap did not move. -/
  heapStart : t.heapStart=s.heapStart
  /-- The heap did not grow. -/
  heapEnd : t.heapEnd=s.heapEnd
  /-- No byte outside the block changed. -/
  frame : ∀ x : Word,¬(s.heapStart.toNat+extent 12 l≤x.toNat ∧
    x.toNat<s.heapStart.toNat+extent 12 l+(12+sz))→ t.mem x=s.mem x
  /-- At most one tracker entry was added. -/
  tracker : TracksOne s.tracked.entries t.tracked.entries p

/-- track_add takes the first entry that is not in use. -/
theorem trackAddEntries_tracksOne (p size : Word) (ts : List TrackedBlock) :
    TracksOne ts (trackAddEntries p size ts) p := by
  induction ts with
  | nil => exact Or.inl rfl
  | cons t ts ih =>
    unfold trackAddEntries
    by_cases hu : t.inUse=true
    · rw [if_pos hu]
      obtain hsame|⟨front,e,back,size',rfl,hfront,he,hafter⟩ := ih
      · exact Or.inl (by rw [hsame])
      · refine Or.inr ⟨t::front,e,back,size',rfl,?_,he,by rw [hafter]; rfl⟩
        intro d hd
        obtain rfl|hd := List.mem_cons.mp hd
        · exact hu
        · exact hfront d hd
    · rw [if_neg hu]
      exact Or.inr ⟨[],t,ts,size,rfl,fun d hd => absurd hd List.not_mem_nil,Bool.not_eq_true _ ▸ hu,rfl⟩

/-- The block that the search found is taken. -/
theorem handOutTracked_takesBlock {s : Heap} {l r : List Block} {sz : ℕ} {wanted : Word}
    (h : Represents s (l++⟨sz,false⟩::r)) (hw : wanted.toNat ≤ sz) :
    let out := handOutTracked s (BitVec.ofNat 32 (s.heapStart.toNat+extent 12 l)) wanted
    TakesBlock s out.1 l r sz wanted.toNat out.2 ∧ out.2≠0 := by
  intro out
  obtain ⟨hh,he⟩ := h.at_split
  have hend := s.heapEnd.isLt
  dsimp only at he
  obtain ⟨hrep,hstat,_⟩ := handOut_represents h hw
  obtain ⟨_,hframe,_⟩ := handOut_headers hh (by omega) hw
  have hptr : out.2.toNat=s.heapStart.toNat+extent 12 l+12 := by
    simp only [out,handOutTracked]
    unfold headerSize
    bv_omega
  refine ⟨⟨hptr,⟨hrep.nonempty,hrep.tiles,hrep.headers⟩,hstat.heapStart,hstat.heapEnd,hframe,?_⟩,?_⟩
  · rw [←hstat.tracked]
    exact trackAddEntries_tracksOne _ _ _
  · intro hzero
    rw [hzero] at hptr
    simp at hptr

/-- The size field in front of the returned pointer. -/
theorem TakesBlock.size_eq {s t : Heap} {l r : List Block} {sz w : ℕ} {p : Word}
    (h : TakesBlock s t l r sz w p) :
    (hdrSize t.mem (p-headerSize)).toNat=if 12+16<sz-w then w else sz := by
  have hp := h.ptr
  have hhdr : p-headerSize=BitVec.ofNat 32 (t.heapStart.toNat+extent 12 l) := by
    rw [h.heapStart]
    unfold headerSize
    bv_omega
  have hchain := h.chain
  rw [List.append_assoc] at hchain
  unfold carve at hchain
  rw [hhdr]
  by_cases hlarge : 12+16<sz-w
  · rw [if_pos hlarge] at hchain ⊢
    exact hchain.at_split.1.size
  · rw [if_neg hlarge] at hchain ⊢
    exact hchain.at_split.1.size

/-- kmalloc on a chain takes the first fitting block or changes nothing. -/
theorem kmalloc_on_chain {s : Heap} {bs : List Block} (h : Represents s bs) {n : Word} (hn : n≠0)
    {fuel : ℕ} (hf : 2^32≤fuel) :
    (kmalloc fuel s n=some (s,0) ∧ ∀ b∈bs,¬Fits (align8 n).toNat b) ∨
      ∃ t p l sz r,kmalloc fuel s n=some (t,p) ∧ p≠0 ∧ bs=l++⟨sz,false⟩::r ∧
        (align8 n).toNat ≤ sz ∧ (∀ b∈l,¬Fits (align8 n).toNat b) ∧
        TakesBlock s t l r sz (align8 n).toNat p := by
  have hsearch := kmalloc_search (align8 n) bs [] fuel h h.nonempty (h.length_le.trans hf)
  simp only [extent,Nat.add_zero,BitVec.ofNat_toNat,BitVec.setWidth_eq,List.nil_append] at hsearch
  unfold kmalloc
  rw [if_neg hn]
  obtain ⟨l,sz,r,rfl,hw,hl,hrun⟩|⟨hnone,hrun⟩ := hsearch
  · obtain ⟨htakes,hne⟩ := handOutTracked_takesBlock h hw
    exact Or.inr ⟨_,_,l,sz,r,hrun,hne,rfl,hw,hl,htakes⟩
  · exact Or.inl ⟨hrun,hnone⟩

/-- Below the last eight addresses the rounding does not wrap. -/
theorem toNat_align8_of_le {n : Word} (hn : n.toNat≤0xFFFFFFF8) : (align8 n).toNat=roundedUp n := by
  rw [toNat_align8]
  unfold roundedUp
  omega

/-- In every reachable state kmalloc is first fit: it returns NULL and changes
nothing exactly when no free block of the chain can hold the rounded request,
and otherwise it takes the first block that can. -/
theorem kmalloc_first_fit {start size : Word} (hsize : 12 ≤ size.toNat)
    (hfit : (align8 start).toNat+size.toNat<2^32) {st : Session} (hr : Reachable start size st) :
    ∃ bs,Represents st.heap bs ∧ ∀ n : Word,0<n.toNat→ n.toNat≤0xFFFFFFF8→∀ fuel,2^32≤fuel→
      ∃ t p,kmalloc fuel st.heap n=some (t,p) ∧
        (p=0 ↔ ∀ b∈bs,¬Fits (roundedUp n) b) ∧ (p=0→ t=st.heap) ∧
        (p≠0→∃ l sz r,bs=l++⟨sz,false⟩::r ∧ roundedUp n ≤ sz ∧ (∀ b∈l,¬Fits (roundedUp n) b) ∧
          TakesBlock st.heap t l r sz (roundedUp n) p) := by
  obtain ⟨bs,hinv,_,_⟩ := reachable_inv hsize hfit hr
  refine ⟨bs,hinv.represents,?_⟩
  intro n hpos hle fuel hf
  have hne : n≠0 := by
    rintro rfl
    exact absurd hpos (by decide)
  have hround := toNat_align8_of_le hle
  obtain ⟨hrun,hnone⟩|⟨t,p,l,sz,r,hrun,hp,hbs,hw,hl,htakes⟩ := kmalloc_on_chain hinv.represents hne hf
  · rw [hround] at hnone
    exact ⟨st.heap,0,hrun,iff_of_true rfl hnone,fun _ => rfl,fun h => absurd rfl h⟩
  · rw [hround] at hw hl htakes
    refine ⟨t,p,hrun,iff_of_false hp ?_,fun h => absurd h hp,fun _ => ⟨l,sz,r,hbs,hw,hl,htakes⟩⟩
    intro hnone
    rw [hbs] at hnone
    exact hnone ⟨sz,false⟩ (List.mem_append_right l List.mem_cons_self) ⟨rfl,hw⟩

/-- The first allocation of a one-megabyte heap. -/
theorem kmalloc_first_fit_megabyteHeap :
    ∃ bs,Represents megabyteHeap.heap bs ∧ ∃ t p,kmalloc (2^32) megabyteHeap.heap 61=some (t,p) ∧
      (p=0 ↔ ∀ b∈bs,¬Fits 64 b) := by
  obtain ⟨bs,hbs,hall⟩ := kmalloc_first_fit (by decide) (by decide) megabyteHeap_reachable
  obtain ⟨t,p,hrun,hiff,_,_⟩ := hall 61 (by decide) (by decide) (2^32) (Nat.le_refl _)
  exact ⟨bs,hbs,t,p,hrun,hiff⟩

/-- Whatever block kmalloc returns holds the request and lies in the heap. -/
def HoldsRequest (s : Heap) (n : Word) : Prop :=
  ∀ fuel t p,kmalloc fuel s n=some (t,p)→ p≠0→
    n.toNat≤(hdrSize t.mem (p-headerSize)).toNat ∧ s.heapStart.toNat≤p.toNat ∧
      p.toNat+(hdrSize t.mem (p-headerSize)).toNat ≤ s.heapEnd.toNat

/-- No block of the chain is free. -/
def AllUsed (s : Heap) : Prop := ∃ bs,Represents s bs ∧ ∀ b∈bs,b.used=true

/-- A block that was taken lies in the heap. -/
theorem TakesBlock.inside {s t : Heap} {l r : List Block} {sz w : ℕ} {p : Word}
    (h : TakesBlock s t l r sz w p) (hs : Represents s (l++⟨sz,false⟩::r)) (hw : w ≤ sz) :
    s.heapStart.toNat≤p.toNat ∧ p.toNat+(hdrSize t.mem (p-headerSize)).toNat ≤ s.heapEnd.toNat := by
  have hp := h.ptr
  have he := hs.at_split.2
  dsimp only at he
  rw [h.size_eq]
  split_ifs
  · exact ⟨by omega,by omega⟩
  · exact ⟨by omega,by omega⟩

/-- A request that is not rounded to zero is held by the block it gets. -/
theorem holdsRequest_of_le {s : Heap} {bs : List Block} (h : Represents s bs) {n : Word}
    (hn : n.toNat≤0xFFFFFFF8) : HoldsRequest s n := by
  intro fuel t p hrun hp
  have hne : n≠0 := by
    rintro rfl
    cases hrun
    exact hp rfl
  have hmore := kmalloc_mono (Nat.le_max_left fuel (2^32)) hrun
  have hround := toNat_align8_of_le hn
  have hup : n.toNat ≤ roundedUp n := by
    unfold roundedUp
    omega
  obtain ⟨hnull,_⟩|⟨t',p',l,sz,r,hfound,_,rfl,hw,_,htakes⟩ :=
    kmalloc_on_chain h hne (Nat.le_max_right fuel (2^32))
  · rw [hmore] at hnull
    cases hnull
    exact absurd rfl hp
  · rw [hmore] at hfound
    cases hfound
    refine ⟨?_,htakes.inside h hw⟩
    rw [htakes.size_eq]
    split_ifs
    · omega
    · omega

/-- A request that is rounded to zero gets a block that is too small, whenever
some block is free. -/
theorem not_holdsRequest_of_free {s : Heap} {bs : List Block} (h : Represents s bs) {n : Word}
    (hn : ¬n.toNat≤0xFFFFFFF8) {b : Block} (hb : b∈bs) (hfree : b.used=false) : ¬HoldsRequest s n := by
  intro hholds
  have hend := s.heapEnd.isLt
  have hne : n≠0 := by
    rintro rfl
    exact hn (by decide)
  have hzero : (align8 n).toNat=0 := by
    have hlt := n.isLt
    rw [toNat_align8]
    omega
  obtain ⟨_,hnone⟩|⟨t,p,l,sz,r,hrun,hp,rfl,hw,_,htakes⟩ := kmalloc_on_chain h hne (Nat.le_refl (2^32))
  · rw [hzero] at hnone
    exact hnone b hb ⟨hfree,Nat.zero_le _⟩
  · obtain ⟨hlarge,_,_⟩ := hholds (2^32) t p hrun hp
    have he := h.at_split.2
    dsimp only at he
    rw [htakes.size_eq,hzero] at hlarge
    split_ifs at hlarge
    · omega
    · omega

/-- kmalloc returns a block that holds the request exactly when the rounding
of the request does not wrap, or when no block is free. -/
theorem kmalloc_holds_request_iff {start size : Word} (hsize : 12 ≤ size.toNat)
    (hfit : (align8 start).toNat+size.toNat<2^32) {st : Session} (hr : Reachable start size st)
    (n : Word) : HoldsRequest st.heap n ↔ n.toNat≤0xFFFFFFF8 ∨ AllUsed st.heap := by
  obtain ⟨bs,hinv,_,_⟩ := reachable_inv hsize hfit hr
  constructor
  · intro hholds
    by_cases hn : n.toNat≤0xFFFFFFF8
    · exact Or.inl hn
    · refine Or.inr ⟨bs,hinv.represents,?_⟩
      intro b hb
      by_contra hfree
      exact not_holdsRequest_of_free hinv.represents hn hb (Bool.not_eq_true _ ▸ hfree) hholds
  · rintro (hn|⟨cs,hcs,hused⟩)
    · exact holdsRequest_of_le hinv.represents hn
    · intro fuel t p hrun hp
      by_cases hne : n=0
      · subst hne
        cases hrun
        exact absurd rfl hp
      · have hmore := kmalloc_mono (Nat.le_max_left fuel (2^32)) hrun
        obtain ⟨hnull,_⟩|⟨_,_,l,sz,r,_,_,rfl,_⟩ :=
          kmalloc_on_chain hcs hne (Nat.le_max_right fuel (2^32))
        · rw [hmore] at hnull
          cases hnull
          exact absurd rfl hp
        · have hf := hused ⟨sz,false⟩ (List.mem_append_right l List.mem_cons_self)
          cases hf

/-- A request of 64 bytes is held by the block of a one-megabyte heap. -/
theorem megabyteHeap_holds_64 : HoldsRequest megabyteHeap.heap 64 := by
  exact (kmalloc_holds_request_iff (by decide) (by decide) megabyteHeap_reachable 64).mpr (Or.inl (by decide))

/-- A request of 2^32-1 bytes gets an empty block of a one-megabyte heap. -/
theorem megabyteHeap_not_holds_max : ¬HoldsRequest megabyteHeap.heap 0xFFFFFFFF := by
  have hinv : HeapInv megabyteHeap _ := mmInit_inv (fun _ => 0) emptyTracker (by decide) (by decide)
  exact not_holdsRequest_of_free hinv.represents (by decide) List.mem_cons_self rfl

end EronKernel.HeapFirstFit

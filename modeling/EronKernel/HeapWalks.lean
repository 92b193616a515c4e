import EronKernel.HeapIntegrity

/-!
# Heap walks over arbitrary contents

is_block_valid is the only defence of the walks against overwritten headers.
It adds addresses and sizes with sums that wrap. Over any contents of memory
the walks are safe and terminate exactly when no header that carries the magic
word passes the checks by wrapping; a single such header holds a walk forever.
-/

namespace EronKernel.HeapWalks

open ByteMemory FuelLoop BlockList HeapModel HeapLayout HeapOps HeapRuns HeapIntegrity

/-- The end of the block at a header, in unbounded arithmetic. -/
def blockEnd (m : Mem) (hdr : Word) : ℕ := hdr.toNat+12+(hdrSize m hdr).toNat

/-- Trusted blocks lie inside the heap, every walk returns, and each stops at
a header that is not trusted. -/
structure WalksSafe (s : Heap) : Prop where
  /-- A trusted block lies inside the heap. -/
  inside : ∀ hdr,isBlockValid s hdr=true→ s.heapStart.toNat≤hdr.toNat ∧
    blockEnd s.mem hdr ≤ s.heapEnd.toNat
  /-- The walk goes upwards or ends. -/
  forward : ∀ hdr,isBlockValid s hdr=true→nextBlock s hdr=0 ∨ hdr<nextBlock s hdr
  /-- Allocation returns. -/
  kmalloc : ∀ n,∃ fuel out,kmalloc fuel s n=some out
  /-- Merging returns. -/
  coalesceFreeBlocks : ∃ fuel out,coalesceFreeBlocks fuel s=some out
  /-- Counting used bytes returns. -/
  mmUsed : ∃ fuel out,mmUsed fuel s=some out
  /-- Counting free bytes returns. -/
  mmFree : ∃ fuel out,mmFree fuel s=some out
  /-- A header that is not trusted ends every walk. -/
  stops : ∀ hdr,isBlockValid s hdr=false→(∀ wanted,kmallocTurn s wanted hdr=.done (s,0)) ∧
    coalesceTurn (s,hdr)=.done s ∧ ∀ mark sum,sumTurn s mark (hdr,sum)=.done sum

/-- No address from heap_start on carries the magic word together with a size
whose end passes the top of memory and comes out below heap_end again. -/
def NoWrappedHeader (s : Heap) : Prop :=
  ∀ hdr : Word,s.heapStart≤hdr→hdrMagic s.mem hdr=blockMagic→hdr+headerSize ≤ s.heapEnd→
    hdr+blockTotalSize s hdr ≤ s.heapEnd→blockEnd s.mem hdr<2^32

/-- The checks of is_block_valid. -/
theorem isBlockValid_iff (s : Heap) (hdr : Word) :
    isBlockValid s hdr=true ↔ s.heapStart≤hdr ∧ hdr+headerSize ≤ s.heapEnd ∧
      hdrMagic s.mem hdr=blockMagic ∧ hdr+blockTotalSize s hdr ≤ s.heapEnd := by
  unfold isBlockValid
  constructor
  · intro h
    split_ifs at h with hrange hmagic hend
    rw [not_or,BitVec.not_lt,BitVec.not_lt] at hrange
    exact ⟨hrange.1,hrange.2,not_not.mp hmagic,BitVec.not_lt.mp hend⟩
  · rintro ⟨hlo,hhi,hmagic,hend⟩
    rw [if_neg,if_neg (not_not.mpr hmagic),if_neg (BitVec.not_lt.mpr hend)]
    rw [not_or,BitVec.not_lt,BitVec.not_lt]
    exact ⟨hlo,hhi⟩

/-- Under the condition a trusted block does not wrap. -/
theorem NoWrappedHeader.blockEnd_lt {s : Heap} (h : NoWrappedHeader s) {hdr : Word}
    (hv : isBlockValid s hdr=true) : blockEnd s.mem hdr<2^32 := by
  obtain ⟨hlo,hhi,hmagic,hend⟩ := (isBlockValid_iff s hdr).mp hv
  exact h hdr hlo hmagic hhi hend

/-- A trusted block that does not wrap lies inside the heap, and the next
header is its end or NULL. -/
theorem inside_of_blockEnd_lt {s : Heap} {hdr : Word} (hv : isBlockValid s hdr=true)
    (hlt : blockEnd s.mem hdr<2^32) :
    s.heapStart.toNat≤hdr.toNat ∧ blockEnd s.mem hdr ≤ s.heapEnd.toNat ∧
      (nextBlock s hdr=0 ∨ (nextBlock s hdr).toNat=blockEnd s.mem hdr) := by
  obtain ⟨hlo,_,_,hend⟩ := (isBlockValid_iff s hdr).mp hv
  have htotal : (hdr+blockTotalSize s hdr).toNat=blockEnd s.mem hdr := by
    unfold blockTotalSize headerSize
    unfold blockEnd at hlt ⊢
    bv_omega
  refine ⟨hlo,by rw [←htotal]; exact hend,?_⟩
  unfold nextBlock
  dsimp only
  by_cases hlast : s.heapEnd≤hdr+blockTotalSize s hdr
  · rw [if_pos hlast]
    exact Or.inl rfl
  · rw [if_neg hlast]
    exact Or.inr htotal

/-- Under the condition every walk over trusted headers goes upwards. -/
theorem NoWrappedHeader.forward {s : Heap} (h : NoWrappedHeader s) {hdr : Word}
    (hv : isBlockValid s hdr=true) : nextBlock s hdr=0 ∨ hdr<nextBlock s hdr := by
  obtain ⟨_,_,hzero|hnext⟩ := inside_of_blockEnd_lt hv (h.blockEnd_lt hv)
  · exact Or.inl hzero
  · refine Or.inr (BitVec.lt_def.mpr ?_)
    unfold blockEnd at hnext
    omega

/-- Going upwards leaves less of memory. -/
theorem rest_lt {hdr nxt : Word} (h : hdr<nxt) : 2^32-nxt.toNat<2^32-hdr.toNat := by
  have hup := BitVec.lt_def.mp h
  have hlt := nxt.isLt
  omega

/-- A repeated turn of the search moves to the next header of a trusted block. -/
theorem kmallocTurn_again {s : Heap} {wanted hdr nxt : Word}
    (h : kmallocTurn s wanted hdr=.again nxt) :
    isBlockValid s hdr=true ∧ nxt=nextBlock s hdr ∧ nxt≠0 := by
  unfold kmallocTurn at h
  split_ifs at h with hlast hvalid hfit
  dsimp only at h
  split_ifs at h with hzero
  cases h
  exact ⟨Bool.not_eq_false _ ▸ hvalid,rfl,hzero⟩

/-- A repeated turn of the accounting moves to the next header of a trusted
block. -/
theorem sumTurn_again {s : Heap} {mark : Byte} {hdr sum nxt total : Word}
    (h : sumTurn s mark (hdr,sum)=.again (nxt,total)) :
    isBlockValid s hdr=true ∧ nxt=nextBlock s hdr ∧ nxt≠0 := by
  unfold sumTurn at h
  dsimp only at h
  split_ifs at h with hlast hvalid hzero
  · cases h
    exact ⟨Bool.not_eq_false _ ▸ hvalid,rfl,hzero⟩
  · cases h
    exact ⟨Bool.not_eq_false _ ▸ hvalid,rfl,hzero⟩

/-- Under the condition the search returns. -/
theorem NoWrappedHeader.kmalloc_returns {s : Heap} (h : NoWrappedHeader s) (n : Word) :
    ∃ fuel out,HeapModel.kmalloc fuel s n=some out := by
  by_cases hn : n=0
  · exact ⟨0,(s,0),if_pos hn⟩
  · have hloop : ∃ out,runLoop (kmallocTurn s (align8 n)) (2^32+1) (firstBlock s)=some out ∧ True := by
      refine runLoop_total (fun _ => True) (fun _ => True) (fun hdr => 2^32-hdr.toNat) ?_
        (fun _ _ _ _ => trivial) trivial (by omega)
      intro hdr nxt _ hagain
      obtain ⟨hv,rfl,hne⟩ := kmallocTurn_again hagain
      exact ⟨trivial,rest_lt ((h.forward hv).resolve_left hne)⟩
    obtain ⟨out,hrun,_⟩ := hloop
    exact ⟨2^32+1,out,(if_neg hn).trans hrun⟩

/-- Under the condition the accounting returns. -/
theorem NoWrappedHeader.sum_returns {s : Heap} (h : NoWrappedHeader s) (mark : Byte) :
    ∃ fuel out,runLoop (sumTurn s mark) fuel (firstBlock s,0)=some out := by
  have hloop : ∃ out,runLoop (sumTurn s mark) (2^32+1) (firstBlock s,0)=some out ∧ True := by
    refine runLoop_total (fun _ => True) (fun _ => True) (fun state => 2^32-state.1.toNat) ?_
      (fun _ _ _ _ => trivial) trivial (by omega)
    rintro ⟨hdr,sum⟩ ⟨nxt,total⟩ _ hagain
    obtain ⟨hv,rfl,hne⟩ := sumTurn_again hagain
    exact ⟨trivial,rest_lt ((h.forward hv).resolve_left hne)⟩
  obtain ⟨out,hrun,_⟩ := hloop
  exact ⟨2^32+1,out,hrun⟩

/-- States of the merging loop that started from a heap: memory below the heap
and from the magic field of the current header on is as it was, and the
current block, if trusted, does not wrap. -/
structure Merging (s : Heap) (state : Heap×Word) : Prop where
  /-- The heap did not move. -/
  heapStart : state.1.heapStart=s.heapStart
  /-- The heap did not grow. -/
  heapEnd : state.1.heapEnd=s.heapEnd
  /-- The current header lies at or above the first one. -/
  above : s.heapStart.toNat ≤ state.2.toNat
  /-- Headers still to be visited are as they were. -/
  ahead : ∀ x : Word,x.toNat<s.heapStart.toNat ∨ state.2.toNat+4≤x.toNat→ state.1.mem x=s.mem x
  /-- The current block does not wrap. -/
  current : isBlockValid state.1 state.2=true→blockEnd state.1.mem state.2<2^32

/-- A header behind the current one is read as it was at the start. -/
theorem Merging.header_eq {s t : Heap} {hdr nxt : Word} (h : Merging s (t,hdr))
    (hstart : 8 ≤ s.heapStart.toNat) (hn : hdr.toNat+12≤nxt.toNat) :
    hdrSize t.mem nxt=hdrSize s.mem nxt ∧ hdrMagic t.mem nxt=hdrMagic s.mem nxt := by
  have hahead : ∀ x : Word,(x-nxt).toNat<8→ t.mem x=s.mem x := by
    intro x hx
    apply h.ahead
    dsimp only
    bv_omega
  constructor
  · exact load32_congr fun x hx => hahead x (by unfold InRange at hx; omega)
  · exact load32_congr fun x hx => hahead x (by unfold InRange at hx; bv_omega)

/-- What a repeated turn of the merging loop does. -/
theorem coalesceTurn_again {t t' : Heap} {hdr hdr' : Word}
    (h : coalesceTurn (t,hdr)=.again (t',hdr')) :
    let nxt := nextBlock t hdr
    let merged := hdrSize t.mem hdr+(headerSize+hdrSize t.mem nxt)
    isBlockValid t hdr=true ∧ nxt≠0 ∧ isBlockValid t nxt=true ∧
      ((hdr'=hdr ∧ t'={t with mem := setSize t.mem hdr merged}) ∨ (hdr'=nxt ∧ t'=t)) := by
  intro nxt merged
  unfold coalesceTurn at h
  dsimp only at h
  split_ifs at h with hlast hvalid hzero hvalid' hfree
  · cases h
    exact ⟨Bool.not_eq_false _ ▸ hvalid,hzero,Bool.not_eq_false _ ▸ hvalid',Or.inl ⟨rfl,rfl⟩⟩
  · cases h
    exact ⟨Bool.not_eq_false _ ▸ hvalid,hzero,Bool.not_eq_false _ ▸ hvalid',Or.inr ⟨rfl,rfl⟩⟩

/-- The next header of a merging state, when it is trusted, does not wrap and
starts where the current block ends. -/
theorem Merging.next {s t : Heap} {hdr : Word} (h : Merging s (t,hdr)) (hs : NoWrappedHeader s)
    (hstart : 8 ≤ s.heapStart.toNat) (hv : isBlockValid t hdr=true) (hne : nextBlock t hdr≠0)
    (hv' : isBlockValid t (nextBlock t hdr)=true) :
    (nextBlock t hdr).toNat=blockEnd t.mem hdr ∧
      (nextBlock t hdr).toNat+12+(hdrSize t.mem (nextBlock t hdr)).toNat<2^32 := by
  obtain ⟨_,_,hzero|hnext⟩ := inside_of_blockEnd_lt hv (h.current hv)
  · exact absurd hzero hne
  · refine ⟨hnext,?_⟩
    generalize nextBlock t hdr=nxt at hnext hv'
    unfold blockEnd at hnext
    obtain ⟨hsize,hmagic⟩ := h.header_eq hstart (by omega : hdr.toNat+12≤nxt.toNat)
    obtain ⟨hlo,hhi,hm,hend⟩ := (isBlockValid_iff t nxt).mp hv'
    have hsame : isBlockValid s nxt=true := by
      rw [isBlockValid_iff,←h.heapStart,←h.heapEnd,←hmagic]
      unfold blockTotalSize at hend ⊢
      rw [←hsize]
      exact ⟨hlo,hhi,hm,hend⟩
    have hlt := hs.blockEnd_lt hsame
    unfold blockEnd at hlt
    rwa [hsize]

/-- A repeated turn of the merging loop keeps its invariant and moves the end
of the current block upwards. -/
theorem Merging.step {s t t' : Heap} {hdr hdr' : Word} (h : Merging s (t,hdr))
    (hs : NoWrappedHeader s) (hstart : 8 ≤ s.heapStart.toNat)
    (hagain : coalesceTurn (t,hdr)=.again (t',hdr')) :
    Merging s (t',hdr') ∧ blockEnd t.mem hdr<blockEnd t'.mem hdr' ∧ blockEnd t.mem hdr<2^32 := by
  obtain ⟨hv,hne,hv',hcases⟩ := coalesceTurn_again hagain
  obtain ⟨hnext,hlt⟩ := h.next hs hstart hv hne hv'
  have hcur := h.current hv
  have habove := h.above
  dsimp only at hcur habove
  generalize nextBlock t hdr=nxt at hne hv' hcases hnext hlt
  unfold blockEnd at hnext hcur
  obtain ⟨hhdr,rfl⟩|⟨rfl,rfl⟩ := hcases
  · subst hhdr
    have hsize : hdrSize (setSize t.mem hdr' (hdrSize t.mem hdr'+(headerSize+hdrSize t.mem nxt))) hdr'=
        hdrSize t.mem hdr'+(headerSize+hdrSize t.mem nxt) := load32_store32 _ _ _
    have hsum : (hdrSize t.mem hdr'+(headerSize+hdrSize t.mem nxt)).toNat=
        (hdrSize t.mem hdr').toNat+12+(hdrSize t.mem nxt).toNat := by
      unfold headerSize
      bv_omega
    refine ⟨⟨h.heapStart,h.heapEnd,h.above,?_,?_⟩,?_,hcur⟩
    · intro x hx
      rw [←h.ahead x hx]
      apply store32_of_not_inRange
      unfold InRange
      dsimp only at hx
      bv_omega
    · intro _
      unfold blockEnd
      dsimp only
      rw [hsize,hsum]
      omega
    · unfold blockEnd
      dsimp only
      rw [hsize,hsum]
      omega
  · refine ⟨⟨h.heapStart,h.heapEnd,?_,?_,fun _ => hlt⟩,?_,hcur⟩
    · dsimp only
      omega
    · intro x hx
      apply h.ahead
      dsimp only at hx ⊢
      omega
    · unfold blockEnd
      omega

/-- Under the condition merging returns. -/
theorem NoWrappedHeader.coalesce_returns {s : Heap} (h : NoWrappedHeader s)
    (hstart : 8 ≤ s.heapStart.toNat) : ∃ fuel out,HeapModel.coalesceFreeBlocks fuel s=some out := by
  have hloop : ∃ out,runLoop coalesceTurn (2^32+1) (s,firstBlock s)=some out ∧ True := by
    refine runLoop_total (Merging s) (fun _ => True) (fun state => 2^32-blockEnd state.1.mem state.2) ?_
      (fun _ _ _ _ => trivial) ?_ (by omega)
    · rintro ⟨t,hdr⟩ ⟨t',hdr'⟩ hinv hagain
      obtain ⟨hinv',hup,hlt⟩ := hinv.step h hstart hagain
      refine ⟨hinv',?_⟩
      dsimp only
      omega
    · exact ⟨rfl,rfl,Nat.le_refl _,fun _ _ => rfl,fun hv => h.blockEnd_lt hv⟩
  obtain ⟨out,hrun,_⟩ := hloop
  exact ⟨2^32+1,out,hrun⟩

/-- A header that is not trusted ends every walk. -/
theorem stops_at_untrusted {s : Heap} {hdr : Word} (hv : isBlockValid s hdr=false) :
    (∀ wanted,kmallocTurn s wanted hdr=.done (s,0)) ∧ coalesceTurn (s,hdr)=.done s ∧
      ∀ mark sum,sumTurn s mark (hdr,sum)=.done sum := by
  refine ⟨?_,?_,?_⟩
  · intro wanted
    unfold kmallocTurn
    rw [if_pos hv,ite_self]
  · unfold coalesceTurn
    dsimp only
    rw [if_pos hv,ite_self]
  · intro mark sum
    unfold sumTurn
    dsimp only
    rw [if_pos hv,ite_self]

/-- Over any contents of memory the walks are safe and terminate exactly when
no header passes the checks by wrapping. -/
theorem walksSafe_iff {s : Heap} (hstart : 8 ≤ s.heapStart.toNat) :
    WalksSafe s ↔ NoWrappedHeader s := by
  constructor
  · intro h hdr hlo hmagic hhi hend
    have hv := (isBlockValid_iff s hdr).mpr ⟨hlo,hhi,hmagic,hend⟩
    exact Nat.lt_of_le_of_lt (h.inside hdr hv).2 s.heapEnd.isLt
  · intro h
    refine ⟨?_,fun hdr hv => h.forward hv,h.kmalloc_returns,h.coalesce_returns hstart,
      h.sum_returns blockUsed,h.sum_returns blockFree,fun hdr hv => stops_at_untrusted hv⟩
    intro hdr hv
    obtain ⟨hlo,hend,_⟩ := inside_of_blockEnd_lt hv (h.blockEnd_lt hv)
    exact ⟨hlo,hend⟩

/-- In the one-megabyte heap the first byte of the magic word is found in the
first header only. -/
theorem megabyteHeap_magic_byte {x : Word} (hx : megabyteHeap.heap.mem x=0xEF) : x=0x100004 := by
  have hmem : megabyteHeap.heap.mem=setUsed (setMagic (setSize (fun _ => 0) 0x100000 0xFFFF4)
      0x100000 blockMagic) 0x100000 blockFree := by
    have hsize : (0x200000 : Word)-0x100000-headerSize=0xFFFF4 := by decide
    exact congrArg (fun z => setUsed (setMagic (setSize (fun _ => 0) 0x100000 z) 0x100000 blockMagic)
      0x100000 blockFree) hsize
  have hmagic : ∀ k<4,byteOf blockMagic k=0xEF→k=0 := by decide
  have hsize : ∀ k<4,byteOf 0xFFFF4 k≠0xEF := by decide
  rw [hmem] at hx
  unfold setUsed setMagic setSize at hx
  by_cases hused : x=0x100000+8
  · rw [hused,store8_same] at hx
    exact absurd hx (by decide)
  · rw [store8_of_ne _ hused] at hx
    obtain ⟨k,hk,hat,hbyte⟩|hbefore := store32_cases (store32 (fun _ => 0) 0x100000 0xFFFF4)
      (0x100000+4) blockMagic x
    · rw [hbyte] at hx
      rw [hat,hmagic k hk hx]
      rfl
    · rw [hbefore] at hx
      obtain ⟨k,hk,_,hbyte⟩|hzero := store32_cases (fun _ => 0) 0x100000 0xFFFF4 x
      · rw [hbyte] at hx
        exact absurd hx (hsize k hk)
      · rw [hzero] at hx
        exact absurd hx (by decide)

/-- No header of the one-megabyte heap wraps. -/
theorem megabyteHeap_noWrappedHeader : NoWrappedHeader megabyteHeap.heap := by
  intro hdr _ hmagic _ _
  have hbyte : megabyteHeap.heap.mem (hdr+4)=0xEF := by
    unfold hdrMagic load32 blockMagic at hmagic
    have h0 := (megabyteHeap.heap.mem (hdr+4)).isLt
    have hn : _=0xEA0BEEF := congrArg BitVec.toNat hmagic
    apply BitVec.eq_of_toNat_eq
    change _=0xEF
    rw [BitVec.toNat_ofNat] at hn
    omega
  have hat : hdr=0x100000 := by
    have h4 := megabyteHeap_magic_byte hbyte
    bv_omega
  rw [hat]
  decide +kernel

/-- The walks of the one-megabyte heap are safe. -/
theorem walksSafe_megabyteHeap : WalksSafe megabyteHeap.heap :=
  (walksSafe_iff (by decide)).mpr megabyteHeap_noWrappedHeader

/-- The one-megabyte heap after an allocation of 64 bytes whose client wrote
four bytes too many, over the size field of the following free block. -/
def overflownHeap : Heap :=
  let out := (kmalloc 1 megabyteHeap.heap 64).getD (megabyteHeap.heap,0)
  {out.1 with mem := store32 out.1.mem 0x10004C 0xFFFFFFF4}

/-- The overwritten header is trusted, its block passes the top of memory, it
is its own successor, and mm_used never returns. -/
theorem overflownHeap_walks_forever :
    ¬WalksSafe overflownHeap ∧ isBlockValid overflownHeap 0x10004C=true ∧
      nextBlock overflownHeap 0x10004C=0x10004C ∧ ∀ fuel,mmUsed fuel overflownHeap=none := by
  have hvalid : isBlockValid overflownHeap 0x10004C=true := by decide +kernel
  have hnext : nextBlock overflownHeap 0x10004C=0x10004C := by decide +kernel
  have hused : hdrUsed overflownHeap.mem 0x10004C≠blockUsed := by decide +kernel
  have hlast : ¬overflownHeap.heapEnd≤0x10004C := by decide +kernel
  have hfirst : sumTurn overflownHeap blockUsed (firstBlock overflownHeap,0)=.again (0x10004C,64) := by
    have hvalid' : isBlockValid overflownHeap (firstBlock overflownHeap)=true := by decide +kernel
    have hnext' : nextBlock overflownHeap (firstBlock overflownHeap)=0x10004C := by decide +kernel
    have hused' : hdrUsed overflownHeap.mem (firstBlock overflownHeap)=blockUsed := by decide +kernel
    have hsize' : (0 : Word)+hdrSize overflownHeap.mem (firstBlock overflownHeap)=64 := by
      decide +kernel
    have hlast' : ¬overflownHeap.heapEnd ≤ firstBlock overflownHeap := by decide +kernel
    unfold sumTurn
    dsimp only
    rw [if_neg hlast',if_neg (by rw [hvalid']; decide),if_pos hused',hsize',hnext',if_neg (by decide)]
  have hagain : sumTurn overflownHeap blockUsed (0x10004C,64)=.again (0x10004C,64) := by
    unfold sumTurn
    dsimp only
    rw [if_neg hlast,if_neg (by rw [hvalid]; decide),if_neg hused,hnext,if_neg (by decide)]
  refine ⟨?_,hvalid,hnext,?_⟩
  · intro hsafe
    rcases hsafe.forward 0x10004C hvalid with hzero|hup
    · rw [hnext] at hzero
      cases hzero
    · rw [hnext] at hup
      exact BitVec.lt_irrefl _ hup
  · intro fuel
    unfold mmUsed
    cases fuel with
    | zero => rfl
    | succ fuel => rw [runLoop_again _ hfirst,runLoop_stuck hagain]

end EronKernel.HeapWalks

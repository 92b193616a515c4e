import EronKernel.BumpAllocation
import EronKernel.UserHeapModel
import EronKernel.VmmRuns

/-!
# Blocks of the user heap

The cursor of the user heap and the limit are compared after sums that may wrap.
As long as none does, the calls give out the blocks of a cursor in front of a
limit. The first call whose sum wraps is given a block that runs past the limit.
-/

namespace EronKernel.UserHeap

open ByteMemory HeapModel HeapOps VmmModel VmmTables VmmSteps VmmRuns UserHeapModel BumpAllocation

/-- First address of the user heap. -/
def heapLow : ℕ := virtAddrStart.toNat+8*1024*1024

/-- First address behind the user heap. -/
def heapHigh : ℕ := virtAddrEnd.toNat-4*1024*1024

/-- Rounding up to a multiple of eight. -/
def roundUp (n : ℕ) : ℕ := (n+7)/8*8

/-- The call has returned a block. -/
def Granted (c : UserCall) : Prop := c.result≠0 ∧ 0<c.size.toNat

/-- The block lies in the user heap. -/
def InHeap (c : UserCall) : Prop := heapLow≤c.result.toNat ∧ c.result.toNat+c.size.toNat≤heapHigh

/-- The blocks of two calls do not meet. -/
def ApartBlocks (c d : UserCall) : Prop :=
  c.result.toNat+c.size.toNat≤d.result.toNat ∨ d.result.toNat+d.size.toNat≤c.result.toNat

/-- All blocks lie in the user heap and do not meet. -/
structure BlocksSafe (calls : List UserCall) : Prop where
  /-- The user heap. -/
  inHeap : ∀ c∈calls,Granted c→InHeap c
  /-- The blocks. -/
  apart : calls.Pairwise fun c d => Granted c→Granted d→ApartBlocks c d

/-- Rounding the size up and adding it to the cursor does not wrap. -/
def NoWrap (c : UserCall) : Prop := c.before.userHeapPos.toNat+roundUp c.size.toNat<2^32

/-- The cursor is in the user heap. -/
structure InLimits (s : UserVmm) : Prop where
  /-- It is not in front of the user heap. -/
  low : heapLow ≤ s.userHeapPos.toNat
  /-- It is not behind the limit. -/
  high : s.userHeapPos.toNat≤heapHigh
  /-- The limit is the end of the user heap. -/
  limit : s.userHeapEnd.toNat=heapHigh

/-- A call is refused, or returns the cursor and moves it. -/
theorem vmmAllocUserHeap_cases {fuel : ℕ} {s t : UserVmm} {size p : Word}
    (h : vmmAllocUserHeap fuel s size=some (t,p)) :
    (s.userHeapEnd < s.userHeapPos+align8 size ∧ p=0 ∧ t=s) ∨
      (¬s.userHeapEnd < s.userHeapPos+align8 size ∧ p=s.userHeapPos ∧
        t.userHeapPos=s.userHeapPos+align8 size ∧ t.userHeapEnd=s.userHeapEnd ∧
        ∃ r,vmmMapUserPages fuel s.vmm s.userHeapPos ((align8 size+pageSize-1)/pageSize)=some (t.vmm,r)) := by
  have hround : (size+7)&&&~~~7=align8 size := rfl
  unfold vmmAllocUserHeap at h
  dsimp only at h
  rw [hround] at h
  by_cases hfull : s.userHeapEnd < s.userHeapPos+align8 size
  · rw [if_pos hfull] at h
    cases h
    exact Or.inl ⟨hfull,rfl,rfl⟩
  · rw [if_neg hfull] at h
    obtain ⟨⟨vmm,r⟩,hmap,heq⟩ := Option.map_eq_some_iff.mp h
    cases heq
    exact Or.inr ⟨hfull,rfl,rfl,rfl,r,hmap⟩

/-- What a call compares and adds when its sums do not wrap. -/
theorem sums_of_noWrap {s : UserVmm} (hs : InLimits s) {size : Word}
    (hwrap : s.userHeapPos.toNat+roundUp size.toNat<2^32) :
    (align8 size).toNat=roundUp size.toNat ∧
      (s.userHeapPos+align8 size).toNat=s.userHeapPos.toNat+roundUp size.toNat ∧
      (s.userHeapEnd < s.userHeapPos+align8 size ↔
        ¬s.userHeapPos.toNat+roundUp size.toNat≤heapHigh) := by
  have hround := toNat_align8 size
  have hlow : heapLow=0x8800000 := rfl
  have hposlow := hs.low
  have hsize : (align8 size).toNat=roundUp size.toNat := by
    unfold roundUp at hwrap ⊢
    omega
  have hsum : (s.userHeapPos+align8 size).toNat=s.userHeapPos.toNat+roundUp size.toNat := by
    rw [BitVec.toNat_add,hsize]
    exact Nat.mod_eq_of_lt hwrap
  refine ⟨hsize,hsum,?_⟩
  rw [BitVec.lt_def,hsum,hs.limit]
  exact not_le.symm

/-- A call whose sum does not wrap moves the cursor as the limit allows, and
returns where it was. -/
theorem alloc_of_noWrap {fuel : ℕ} {s t : UserVmm} {size p : Word} (hs : InLimits s)
    (h : vmmAllocUserHeap fuel s size=some (t,p)) (hwrap : NoWrap ⟨s,size,p,t⟩) :
    InLimits t ∧ t.userHeapPos.toNat=advance heapHigh roundUp s.userHeapPos.toNat size.toNat ∧
      p=if s.userHeapPos.toNat+roundUp size.toNat≤heapHigh then s.userHeapPos else 0 := by
  obtain ⟨_,hsum,hfull⟩ := sums_of_noWrap hs hwrap
  unfold advance
  rcases vmmAllocUserHeap_cases h with ⟨hno,rfl,rfl⟩|⟨hyes,rfl,hpos,hend,_⟩
  · have hnot := hfull.mp hno
    rw [if_neg hnot,if_neg hnot]
    exact ⟨hs,rfl,rfl⟩
  · have hfits : s.userHeapPos.toNat+roundUp size.toNat≤heapHigh := not_not.mp (hfull.not.mp hyes)
    rw [if_pos hfits,if_pos hfits,hpos,hsum]
    refine ⟨⟨?_,?_,?_⟩,rfl,rfl⟩
    · rw [hpos,hsum]
      exact hs.low.trans (Nat.le_add_right _ _)
    · rw [hpos,hsum]
      exact hfits
    · rw [hend]
      exact hs.limit

/-- The blocks that calls have returned. -/
def grantedBlocks (calls : List UserCall) : List (ℕ×ℕ) :=
  calls.filterMap fun c => if c.result=0 then none else some (c.result.toNat,c.size.toNat)

/-- As long as no sum wraps, the calls give out the blocks of a cursor. -/
theorem grantedBlocks_eq {fuel : ℕ} (sizes : List Word) :
    ∀ {s t : UserVmm} {calls : List UserCall},InLimits s→userRun fuel s sizes=some (calls,t)→
      (∀ c∈calls,NoWrap c)→
        grantedBlocks calls=blocks heapHigh roundUp s.userHeapPos.toNat (sizes.map BitVec.toNat) := by
  induction sizes with
  | nil =>
    intro s t calls _ hrun _
    cases hrun
    rfl
  | cons size sizes ih =>
    intro s t calls hs hrun hwrap
    obtain ⟨⟨u,p⟩,halloc,hrest⟩ := Option.bind_eq_some_iff.mp hrun
    obtain ⟨⟨rest,v⟩,hrun',heq⟩ := Option.map_eq_some_iff.mp hrest
    cases heq
    obtain ⟨hu,hpos,hp⟩ := alloc_of_noWrap hs halloc (hwrap _ List.mem_cons_self)
    have htail := ih hu hrun' fun c hc => hwrap c (List.mem_cons_of_mem _ hc)
    have hlow := hs.low
    unfold grantedBlocks at htail ⊢
    rw [List.filterMap_cons,htail,hpos,List.map_cons,blocks_cons]
    dsimp only
    by_cases hfits : s.userHeapPos.toNat+roundUp size.toNat≤heapHigh
    · have hne : s.userHeapPos≠0 := by
        intro hzero
        rw [hzero] at hlow
        exact absurd hlow (by decide)
      rw [if_pos hfits] at hp ⊢
      rw [hp,if_neg hne]
    · rw [if_neg hfits] at hp ⊢
      rw [hp,if_pos rfl]

/-- A block in the user heap was not returned by a sum that wrapped. -/
theorem noWrap_of_inHeap {fuel : ℕ} {s t : UserVmm} {size p : Word} (hs : InLimits s)
    (h : vmmAllocUserHeap fuel s size=some (t,p))
    (hin : Granted ⟨s,size,p,t⟩→InHeap ⟨s,size,p,t⟩) : NoWrap ⟨s,size,p,t⟩ := by
  by_contra hwrap
  have hround := toNat_align8 size
  have hsize := size.isLt
  have hlow : heapLow=0x8800000 := rfl
  have hhigh : heapHigh=0xBFC00000 := rfl
  obtain ⟨hposlow,hposhigh,hlimit⟩ := hs
  unfold NoWrap roundUp at hwrap
  dsimp only at hwrap
  have hsum := BitVec.toNat_add s.userHeapPos (align8 size)
  rcases vmmAllocUserHeap_cases h with ⟨hno,_⟩|⟨_,rfl,_⟩
  · rw [BitVec.lt_def] at hno
    omega
  · have hgranted : Granted ⟨s,size,s.userHeapPos,t⟩ := by
      refine ⟨fun hzero => ?_,?_⟩
      · dsimp only at hzero
        rw [hzero] at hposlow
        exact absurd hposlow (by decide)
      · dsimp only
        omega
    obtain ⟨_,hend⟩ := hin hgranted
    dsimp only at hend
    omega

/-- When all blocks are in the user heap, no sum wraps. -/
theorem noWrap_of_all_inHeap {fuel : ℕ} (sizes : List Word) :
    ∀ {s t : UserVmm} {calls : List UserCall},InLimits s→userRun fuel s sizes=some (calls,t)→
      (∀ c∈calls,Granted c→InHeap c)→∀ c∈calls,NoWrap c := by
  induction sizes with
  | nil =>
    intro s t calls _ hrun _
    cases hrun
    exact fun c hc => absurd hc List.not_mem_nil
  | cons size sizes ih =>
    intro s t calls hs hrun hin
    obtain ⟨⟨u,p⟩,halloc,hrest⟩ := Option.bind_eq_some_iff.mp hrun
    obtain ⟨⟨rest,v⟩,hrun',heq⟩ := Option.map_eq_some_iff.mp hrest
    cases heq
    have hwrap := noWrap_of_inHeap hs halloc (hin _ List.mem_cons_self)
    obtain ⟨hu,_,_⟩ := alloc_of_noWrap hs halloc hwrap
    intro c hc
    obtain rfl|hc := List.mem_cons.mp hc
    · exact hwrap
    · exact ih hu hrun' (fun d hd => hin d (List.mem_cons_of_mem _ hd)) c hc

/-- vmm_init puts the cursor at the beginning of the user heap. -/
theorem inLimits_init {fuel : ℕ} {h : Heap} {kernelEnd : Word} {s : UserVmm}
    (hinit : vmmInitUserHeap fuel h kernelEnd=some s) : InLimits s := by
  obtain ⟨v,_,rfl⟩ := Option.map_eq_some_iff.mp hinit
  have hlow : heapLow≤(virtAddrStart+8*1024*1024).toNat := by decide
  have hhigh : (virtAddrStart+8*1024*1024).toNat≤heapHigh := by decide
  have hlimit : (virtAddrEnd-4*1024*1024).toNat=heapHigh := by decide
  exact ⟨hlow,hhigh,hlimit⟩

/-- The blocks of a cursor lie in the user heap and do not meet. -/
theorem blocksSafe_of_blocks {s : UserVmm} (hs : InLimits s) {calls : List UserCall} {ns : List ℕ}
    (h : grantedBlocks calls=blocks heapHigh roundUp s.userHeapPos.toNat ns) : BlocksSafe calls := by
  have hround : ∀ n,n≤roundUp n := by
    intro n
    unfold roundUp
    omega
  have hblock : ∀ c : UserCall,Granted c→
      (if c.result=0 then none else some (c.result.toNat,c.size.toNat))=some (c.result.toNat,c.size.toNat) :=
    fun c hc => if_neg hc.1
  constructor
  · intro c hc hgranted
    have hmem : (c.result.toNat,c.size.toNat)∈grantedBlocks calls :=
      List.mem_filterMap.mpr ⟨c,hc,hblock c hgranted⟩
    rw [h] at hmem
    obtain ⟨hlow,hhigh⟩ := blocks_within hround ns _ _ hmem
    exact ⟨hs.low.trans hlow,hhigh⟩
  · have hpairs := @blocks_pairwise heapHigh roundUp hround ns s.userHeapPos.toNat
    rw [←h] at hpairs
    refine (List.pairwise_filterMap.mp hpairs).imp ?_
    intro c d hcd hc hd
    exact Or.inl (hcd _ (hblock c hc) _ (hblock d hd))

/-- After vmm_init, the blocks that any run of calls has returned lie in the user
heap and do not meet exactly when no call rounds its size and adds it to the
cursor with a sum that wraps. -/
theorem user_heap_safe_iff {fuel : ℕ} {h : Heap} {kernelEnd : Word} {s t : UserVmm} {sizes : List Word}
    {calls : List UserCall} (hinit : vmmInitUserHeap fuel h kernelEnd=some s)
    (hrun : userRun fuel s sizes=some (calls,t)) : BlocksSafe calls ↔ ∀ c∈calls,NoWrap c := by
  have hs := inLimits_init hinit
  constructor
  · exact fun hsafe => noWrap_of_all_inHeap sizes hs hrun hsafe.inHeap
  · exact fun hwrap => blocksSafe_of_blocks hs (grantedBlocks_eq sizes hs hrun hwrap)

/-- A call returns when its pages are asked for and answered. -/
theorem vmmAllocUserHeap_returns {fuel : ℕ} {s : UserVmm} {size : Word}
    (h : ¬s.userHeapEnd < s.userHeapPos+align8 size→
      ∃ t r,vmmMapUserPages fuel s.vmm s.userHeapPos ((align8 size+pageSize-1)/pageSize)=some (t,r)) :
    ∃ t p,vmmAllocUserHeap fuel s size=some (t,p) := by
  have hround : (size+7)&&&~~~7=align8 size := rfl
  unfold vmmAllocUserHeap
  dsimp only
  rw [hround]
  by_cases hfull : s.userHeapEnd < s.userHeapPos+align8 size
  · rw [if_pos hfull]
    exact ⟨_,_,rfl⟩
  · obtain ⟨t,r,hmap⟩ := h hfull
    rw [if_neg hfull,hmap]
    exact ⟨_,_,rfl⟩

/-- A call that asks for one page. -/
theorem vmmAllocUserHeap_onePage {fuel : ℕ} {s : UserVmm} {size addr : Word} {t : Vmm} {r : ℤ}
    (hgranted : ¬s.userHeapEnd < s.userHeapPos+align8 size)
    (hpages : pageAddrs s.userHeapPos ((align8 size+pageSize-1)/pageSize)=[addr])
    (hpage : vmmAllocPage fuel s.vmm addr=some (t,r)) :
    vmmAllocUserHeap fuel s size=some (⟨t,s.userHeapPos+align8 size,s.userHeapEnd⟩,s.userHeapPos) := by
  have hmap : ∃ r',vmmMapUserPages fuel s.vmm s.userHeapPos ((align8 size+pageSize-1)/pageSize)=some (t,r') := by
    unfold vmmMapUserPages
    rw [hpages,allocPages,hpage,Option.bind_some]
    dsimp only
    by_cases hr : r≠0
    · rw [if_pos hr]
      exact ⟨_,rfl⟩
    · rw [if_neg hr]
      exact ⟨_,rfl⟩
  obtain ⟨r',hmap⟩ := hmap
  have hround : (size+7)&&&~~~7=align8 size := rfl
  unfold vmmAllocUserHeap
  dsimp only
  rw [hround,if_neg hgranted,hmap]
  rfl

/-- The statics of the user heap as vmm_init leaves them. -/
def atHeapLow (v : Vmm) : UserVmm := ⟨v,0x8800000,0xBFC00000⟩

/-- The user heap behind the one-megabyte heap. -/
theorem pagedHeap_userHeap : ∃ v : Vmm,
    vmmInitUserHeap (2^32) pagedHeap.heap 0x200FE8=some (atHeapLow v) ∧
      ∃ bs,Booted 0x200FE8 bs v ∧ TableAvailable (2^32) v 0x8800000 ∧ AlignedTable (2^32) v 0x8800000 := by
  obtain ⟨v,bs,hinit,hbooted,htable,hal⟩ := pagedHeap_boots (Nat.le_refl (2^32)) 0x8800000
  refine ⟨v,?_,bs,hbooted,htable,hal⟩
  unfold vmmInitUserHeap
  rw [hinit]
  rfl

/-- Pages of one directory entry can be had: the table is there or can be made at
a page address, and so many frames are left. -/
structure Stocked (fuel : ℕ) (s : Vmm) (i n : ℕ) : Prop where
  /-- The invariant holds. -/
  inv : ∃ bs,VmmInv bs s
  /-- The table. -/
  table : ∀ virt,pdeIdx virt=i→TableAvailable fuel s virt ∧ AlignedTable fuel s virt
  /-- The counter was not wrapped. -/
  counter : 0<s.nextFreePage.toNat
  /-- The frames. -/
  frames : s.nextFreePage.toNat+4096*n≤(s.physBase+s.totalPages*pageSize).toNat

/-- While frames are left the next one is usable, and the counter does not wrap. -/
theorem Stocked.usable {fuel : ℕ} {s : Vmm} {i n : ℕ} (h : Stocked fuel s i (n+1)) :
    FrameUsable s ∧ (s.nextFreePage+pageSize).toNat=s.nextFreePage.toNat+4096 := by
  have hcounter := h.counter
  have hframes := h.frames
  have hpage : (pageSize : Word).toNat=4096 := rfl
  have hlimit := (s.physBase+s.totalPages*pageSize).isLt
  have hnext : (s.nextFreePage+pageSize).toNat=s.nextFreePage.toNat+4096 := by
    rw [BitVec.toNat_add,hpage]
    omega
  refine ⟨?_,hnext⟩
  rintro (hzero|hbehind)
  · rw [hzero] at hcounter
    exact absurd hcounter (by decide)
  · rw [BitVec.lt_def] at hbehind
    omega

/-- A page of the entry takes at most one frame. -/
theorem Stocked.allocPage {fuel : ℕ} (hf : 2^32≤fuel) {s : Vmm} {i n : ℕ} (h : Stocked fuel s i (n+1))
    {virt : Word} (hv : virt.toNat<0xC0000000) (hi : pdeIdx virt=i) :
    ∃ t,vmmAllocPage fuel s virt=some (t,0) ∧ Stocked fuel t i n := by
  obtain ⟨bs,hinv⟩ := h.inv
  obtain ⟨htable,hal⟩ := h.table virt hi
  have hcounter := h.counter
  have hframes := h.frames
  obtain ⟨husable,hnext⟩ := h.usable
  obtain ⟨t,r,cs,hrun,hinv',hstep⟩ := vmmAllocPage_step hinv hv hf hal
  obtain rfl := hstep.result_eq_zero fun _ => ⟨htable,husable⟩
  refine ⟨t,hrun,?_⟩
  obtain ⟨_,rfl⟩|⟨_,hadv⟩ := hstep.still_or_advanced
  · exact ⟨⟨cs,hinv'⟩,h.table,hcounter,by omega⟩
  · refine ⟨⟨cs,hinv'⟩,fun virt' hi' => ?_,?_,?_⟩
    · have hthere : pde t (pdeIdx virt')≠0 := by
        rw [hi',←hi]
        exact hadv.table
      exact ⟨Or.inl hthere,fun hnone => absurd hnone hthere⟩
    · rw [hadv.nextFreePage,hnext]
      omega
    · rw [hadv.nextFreePage,hnext,hadv.physBase,hadv.totalPages]
      omega

/-- So do the pages of a list. -/
theorem Stocked.allocPages {fuel : ℕ} (hf : 2^32≤fuel) {i n : ℕ} (addrs : List Word) :
    ∀ {s : Vmm},Stocked fuel s i (n+addrs.length)→(∀ addr∈addrs,addr.toNat<0xC0000000 ∧ pdeIdx addr=i)→
      ∃ t,VmmModel.allocPages fuel s addrs=some (t,0) ∧ Stocked fuel t i n := by
  induction addrs with
  | nil => exact fun h _ => ⟨_,rfl,h⟩
  | cons addr addrs ih =>
    intro s h hu
    obtain ⟨hv,hi⟩ := hu addr List.mem_cons_self
    obtain ⟨t,hrun,ht⟩ := Stocked.allocPage hf (show Stocked fuel s i (n+addrs.length+1) from h) hv hi
    obtain ⟨u,hrest,hstocked⟩ := ih ht fun a ha => hu a (List.mem_cons_of_mem addr ha)
    refine ⟨u,?_,hstocked⟩
    rw [VmmModel.allocPages,hrun,Option.bind_some]
    dsimp only
    rw [if_neg (not_not.mpr rfl)]
    exact hrest

/-- A call that is not refused and whose pages can be had. -/
theorem Stocked.alloc {fuel : ℕ} (hf : 2^32≤fuel) {s : UserVmm} {i n : ℕ} {size pos : Word} {addrs : List Word}
    (hpos : s.userHeapPos+align8 size=pos) (hgranted : ¬s.userHeapEnd < pos)
    (hpages : pageAddrs s.userHeapPos ((align8 size+pageSize-1)/pageSize)=addrs)
    (h : Stocked fuel s.vmm i (n+addrs.length)) (hu : ∀ addr∈addrs,addr.toNat<0xC0000000 ∧ pdeIdx addr=i) :
    ∃ v,vmmAllocUserHeap fuel s size=some (⟨v,pos,s.userHeapEnd⟩,s.userHeapPos) ∧ Stocked fuel v i n := by
  subst hpos
  obtain ⟨v,hrun,hv⟩ := h.allocPages hf addrs hu
  have hmap : vmmMapUserPages fuel s.vmm s.userHeapPos ((align8 size+pageSize-1)/pageSize)=some (v,0) := by
    unfold vmmMapUserPages
    rw [hpages]
    exact hrun
  have hround : (size+7)&&&~~~7=align8 size := rfl
  refine ⟨v,?_,hv⟩
  unfold vmmAllocUserHeap
  dsimp only
  rw [hround,if_neg hgranted,hmap]
  rfl

/-- A call for which there is no room. -/
theorem vmmAllocUserHeap_refused {fuel : ℕ} {s : UserVmm} {size : Word}
    (h : s.userHeapEnd < s.userHeapPos+align8 size) : vmmAllocUserHeap fuel s size=some (s,0) := if_pos h

/-- Behind the one-megabyte heap the first table of the user heap can be made,
and there are frames. -/
theorem pagedHeap_stocked : ∃ v : Vmm,
    vmmInitUserHeap (2^32) pagedHeap.heap 0x200FE8=some (atHeapLow v) ∧ Stocked (2^32) v 34 3 := by
  obtain ⟨v,hinit,bs,hbooted,htable,hal⟩ := pagedHeap_userHeap
  refine ⟨v,hinit,⟨bs,hbooted.inv⟩,fun virt hi => ?_,?_,?_⟩
  · have hsame : pdeIdx virt=pdeIdx 0x8800000 := hi
    unfold TableAvailable at htable ⊢
    unfold AlignedTable at hal ⊢
    rw [hsame]
    exact ⟨htable,hal⟩
  · rw [hbooted.nextFreePage,hbooted.physBase]
    decide
  · rw [hbooted.nextFreePage,hbooted.totalPages,hbooted.physBase]
    decide

/-- The first pages of the user heap have one table. -/
theorem firstPages_table : ∀ addr∈[(0x8800000 : Word),0x8801000,0x8802000],
    addr.toNat<0xC0000000 ∧ pdeIdx addr=34 := by
  intro addr haddr
  simp only [List.mem_cons,List.not_mem_nil,or_false] at haddr
  obtain rfl|rfl|rfl := haddr <;> decide

/-- Requests of two pages and of 100 bytes are granted there. -/
theorem pagedHeap_calls : ∃ v t u : Vmm,
    vmmInitUserHeap (2^32) pagedHeap.heap 0x200FE8=some (atHeapLow v) ∧ Stocked (2^32) v 34 3 ∧
      vmmAllocUserHeap (2^32) (atHeapLow v) 8192=some (⟨t,0x8802000,0xBFC00000⟩,0x8800000) ∧
      Stocked (2^32) t 34 1 ∧
      vmmAllocUserHeap (2^32) ⟨t,0x8802000,0xBFC00000⟩ 100=some (⟨u,0x8802068,0xBFC00000⟩,0x8802000) := by
  obtain ⟨v,hinit,hv⟩ := pagedHeap_stocked
  obtain ⟨t,hfirst,ht⟩ := @Stocked.alloc _ (Nat.le_refl (2^32)) (atHeapLow v) 34 1 8192 0x8802000
    [0x8800000,0x8801000] (show (0x8800000 : Word)+align8 8192=0x8802000 by decide)
    (show ¬(0xBFC00000 : Word) < 0x8802000 by decide)
    (show pageAddrs 0x8800000 ((align8 8192+pageSize-1)/pageSize)=_ by decide) hv
    fun a ha => firstPages_table a (List.mem_append_left [0x8802000] ha)
  obtain ⟨u,hsecond,_⟩ := @Stocked.alloc _ (Nat.le_refl (2^32)) ⟨t,0x8802000,0xBFC00000⟩ 34 0 100 0x8802068
    [0x8802000] (show (0x8802000 : Word)+align8 100=0x8802068 by decide)
    (show ¬(0xBFC00000 : Word) < 0x8802068 by decide)
    (show pageAddrs 0x8802000 ((align8 100+pageSize-1)/pageSize)=_ by decide) ht
    fun a ha => firstPages_table a (List.mem_append_right [0x8800000,0x8801000] ha)
  exact ⟨v,t,u,hinit,hv,hfirst,ht,hsecond⟩

/-- The calls with these requests and with one for which there is no room. -/
def pagedCalls (v t u : Vmm) : List UserCall :=
  [⟨atHeapLow v,8192,0x8800000,⟨t,0x8802000,0xBFC00000⟩⟩,
    ⟨⟨t,0x8802000,0xBFC00000⟩,100,0x8802000,⟨u,0x8802068,0xBFC00000⟩⟩,
    ⟨⟨u,0x8802068,0xBFC00000⟩,0xB8000000,0,⟨u,0x8802068,0xBFC00000⟩⟩]

/-- They are the run of their sizes. -/
theorem pagedCalls_run {v t u : Vmm}
    (hfirst : vmmAllocUserHeap (2^32) (atHeapLow v) 8192=some (⟨t,0x8802000,0xBFC00000⟩,0x8800000))
    (hsecond : vmmAllocUserHeap (2^32) ⟨t,0x8802000,0xBFC00000⟩ 100=
      some (⟨u,0x8802068,0xBFC00000⟩,0x8802000)) :
    userRun (2^32) (atHeapLow v) [8192,100,0xB8000000]=some (pagedCalls v t u,⟨u,0x8802068,0xBFC00000⟩) := by
  have hthird := @vmmAllocUserHeap_refused (2^32) ⟨u,0x8802068,0xBFC00000⟩ 0xB8000000
    (show (0xBFC00000 : Word) < 0x8802068+align8 0xB8000000 by decide)
  simp only [userRun,hfirst,hsecond,hthird,Option.bind_some,Option.map_some]
  rfl

/-- Their blocks are safe. -/
theorem pagedCalls_safe :
    ∃ s calls t,vmmInitUserHeap (2^32) pagedHeap.heap 0x200FE8=some s ∧
      userRun (2^32) s [8192,100,0xB8000000]=some (calls,t) ∧
      calls.map UserCall.result=[0x8800000,0x8802000,0] ∧ BlocksSafe calls := by
  obtain ⟨v,t,u,hinit,_,hfirst,_,hsecond⟩ := pagedHeap_calls
  have hrun := pagedCalls_run hfirst hsecond
  refine ⟨_,_,_,hinit,hrun,rfl,(user_heap_safe_iff hinit hrun).mpr ?_⟩
  intro c hc
  unfold NoWrap
  simp only [pagedCalls,List.mem_cons,List.not_mem_nil,or_false] at hc
  obtain rfl|rfl|rfl := hc
  · change (0x8800000 : Word).toNat+roundUp (8192 : Word).toNat<2^32
    decide
  · change (0x8802000 : Word).toNat+roundUp (100 : Word).toNat<2^32
    decide
  · change (0x8802068 : Word).toNat+roundUp (0xB8000000 : Word).toNat<2^32
    decide

/-- Two requests of all but one byte of memory are rounded to nothing and both
given the first address of the user heap. -/
theorem pagedHeap_huge_unsafe :
    ∃ s calls t,vmmInitUserHeap (2^32) pagedHeap.heap 0x200FE8=some s ∧
      userRun (2^32) s [0xFFFFFFFF,0xFFFFFFFF]=some (calls,t) ∧
      calls.map UserCall.result=[0x8800000,0x8800000] ∧ ¬BlocksSafe calls := by
  obtain ⟨v,hinit,_⟩ := pagedHeap_userHeap
  have hrun : userRun (2^32) (atHeapLow v) [0xFFFFFFFF,0xFFFFFFFF]=some
      ([⟨atHeapLow v,0xFFFFFFFF,0x8800000,atHeapLow v⟩,⟨atHeapLow v,0xFFFFFFFF,0x8800000,atHeapLow v⟩],
        atHeapLow v) := rfl
  have hne : (0x8800000 : Word)≠0 := by decide
  have hpos : 0<(0xFFFFFFFF : Word).toNat := by decide
  have hbehind : ¬(0x8800000 : Word).toNat+(0xFFFFFFFF : Word).toNat≤heapHigh := by decide
  refine ⟨_,_,_,hinit,hrun,rfl,?_⟩
  intro hsafe
  exact hbehind (hsafe.inHeap _ List.mem_cons_self ⟨hne,hpos⟩).2

end EronKernel.UserHeap

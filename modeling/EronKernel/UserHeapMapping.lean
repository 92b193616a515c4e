import EronKernel.UserHeap
import EronKernel.VmmRefinement

/-!
# Pages of the user heap

Blocks follow each other by bytes and are mapped by pages. The number of pages
is counted from the size alone, and it is not looked at whether the pages were
given frames. A block is mapped when it does not reach into one more page than
was counted and none of its pages is refused.
-/

namespace EronKernel.UserHeapMapping

open ByteMemory BlockList HeapModel HeapLayout HeapOps HeapRuns HeapIntegrity WordTable
open VmmModel VmmTables VmmSteps VmmRuns VmmRefinement UserHeapModel UserHeap

/-- The number of pages that a call asks for. -/
def pageCount (size : Word) : Word := (align8 size+pageSize-1)/pageSize

/-- The addresses of the pages that a call asks for when it is not refused. -/
def askedPages (s : UserVmm) (size : Word) : List Word := pageAddrs s.userHeapPos (pageCount size)

/-- The call is refused. -/
def Refused (s : UserVmm) (size : Word) : Prop := s.userHeapEnd < s.userHeapPos+align8 size

/-- The block of a call is mapped when it returns. -/
def BlockMapped (c : UserCall) : Prop :=
  Granted c→∀ a : Word,c.result.toNat≤a.toNat→ a.toNat<c.result.toNat+c.size.toNat→
    vmmIsMapped c.after.vmm a=1

/-- Each of the pages that has no frame finds one, and a table, when its turn
comes. -/
def Served (fuel : ℕ) : Vmm→List Word→Prop
  | _,[] => True
  | s,addr::addrs => (frameOf s (pageOf addr)=none→ TableAvailable fuel s addr ∧ FrameUsable s) ∧
    ∀ t,vmmAllocPage fuel s addr=some (t,0)→Served fuel t addrs

/-- The sums of a call do not wrap, the counted pages cover the block, and its
pages are served. -/
structure Backed (fuel : ℕ) (s : UserVmm) (size : Word) : Prop where
  /-- Rounding the size up and adding it to the cursor does not wrap. -/
  noWrap : s.userHeapPos.toNat+roundUp size.toNat<2^32
  /-- The block ends in the last page that is asked for. -/
  covered : s.userHeapPos.toNat%4096+size.toNat≤4096*(pageCount size).toNat
  /-- Frames and tables. -/
  served : Served fuel s.vmm (askedPages s size)

/-- Every call of a run that asks for something and is not refused is backed. -/
def BackedRun (fuel : ℕ) : UserVmm→List Word→Prop
  | _,[] => True
  | s,size::sizes => (0<size.toNat→¬Refused s size→Backed fuel s size) ∧
    ∀ t p,vmmAllocUserHeap fuel s size=some (t,p)→BackedRun fuel t sizes

/-- The tables that the calls of a run make lie at page addresses. -/
def AlignedUserRun (fuel : ℕ) : UserVmm→List Word→Prop
  | _,[] => True
  | s,size::sizes => (¬Refused s size→AlignedPages fuel s.vmm (askedPages s size)) ∧
    ∀ t p,vmmAllocUserHeap fuel s size=some (t,p)→AlignedUserRun fuel t sizes

/-- Pages that have a frame keep having one. -/
def KeepsFrames (s t : Vmm) : Prop := ∀ page<0xC0000,frameOf s page≠none→ frameOf t page≠none

/-- A call of vmm_alloc_page takes no frame away. -/
theorem allocStep_keepsFrames {fuel : ℕ} {s t : Vmm} {virt : Word} {r : ℤ}
    (h : AllocStep fuel s virt t r) : KeepsFrames s t := by
  intro page hp hframe
  cases h with
  | mapped => exact hframe
  | noTable => exact hframe
  | refused _ _ _ hsame =>
    rw [hsame page hp]
    exact hframe
  | assigned _ _ _ hset =>
    rw [hset page hp]
    split_ifs
    · exact Option.some_ne_none _
    · exact hframe

/-- Pages that are served are all mapped. -/
theorem allocPages_served (addrs : List Word) {fuel : ℕ} (hf : 2^32≤fuel) :
    ∀ {s : Vmm},(∃ bs,VmmInv bs s)→(∀ addr∈addrs,addr.toNat<0xC0000000)→AlignedPages fuel s addrs→
      Served fuel s addrs→
        ∃ t,allocPages fuel s addrs=some (t,0) ∧ (∃ bs,VmmInv bs t) ∧ KeepsFrames s t ∧
          ∀ addr∈addrs,frameOf t (pageOf addr)≠none := by
  induction addrs with
  | nil => exact fun h _ _ _ => ⟨_,rfl,h,fun _ _ hframe => hframe,fun a ha => absurd ha List.not_mem_nil⟩
  | cons addr addrs ih =>
    rintro s ⟨bs,h⟩ hu ⟨hal,halrest⟩ ⟨hserved,hrest⟩
    have hv := hu addr List.mem_cons_self
    obtain ⟨t,r,cs,hrun,hinv,hstep⟩ := vmmAllocPage_step h hv hf hal
    obtain rfl := hstep.result_eq_zero hserved
    have hhere := (allocStep_mapped_iff hstep hv).1.mpr rfl
    obtain ⟨u,hpages,hinvu,hkeeps,hmapped⟩ := ih ⟨cs,hinv⟩
      (fun a ha => hu a (List.mem_cons_of_mem addr ha)) (halrest t hrun) (hrest t hrun)
    refine ⟨u,?_,hinvu,?_,?_⟩
    · rw [allocPages,hrun,Option.bind_some]
      dsimp only
      rw [if_neg (not_not.mpr rfl)]
      exact hpages
    · exact fun page hp hframe => hkeeps page hp (allocStep_keepsFrames hstep page hp hframe)
    · intro a ha
      obtain rfl|ha := List.mem_cons.mp ha
      · exact hkeeps _ (pageOf_lt hv) hhere
      · exact hmapped a ha

/-- The address of a page counted from another, in front of the top of
memory. -/
theorem toNat_pageAddr {virt : Word} {i : ℕ} (h : virt.toNat+4096*i<2^32) :
    (virt+BitVec.ofNat 32 i*pageSize).toNat=virt.toNat+4096*i := by
  have hpage : (pageSize : Word).toNat=4096 := rfl
  rw [BitVec.toNat_add,BitVec.toNat_mul,BitVec.toNat_ofNat,hpage]
  omega

/-- The pages of a block in the user heap are user pages. -/
theorem askedPages_user {s : UserVmm} (hs : InLimits s) {size : Word} (hgranted : ¬Refused s size)
    (hwrap : s.userHeapPos.toNat+roundUp size.toNat<2^32) :
    ∀ addr∈askedPages s size,addr.toNat<0xC0000000 := by
  obtain ⟨hsize,_,hfull⟩ := sums_of_noWrap hs hwrap
  have hfits : s.userHeapPos.toNat+roundUp size.toNat≤heapHigh := not_not.mp (hfull.not.mp hgranted)
  have hhigh : heapHigh=0xBFC00000 := rfl
  have hcount : (pageCount size).toNat=(roundUp size.toNat+4095)/4096 := by
    have hpage : (pageSize : Word).toNat=4096 := rfl
    unfold pageCount
    rw [BitVec.toNat_udiv,hpage]
    bv_omega
  intro addr haddr
  obtain ⟨i,hi,rfl⟩ := List.mem_map.mp haddr
  rw [List.mem_range,hcount] at hi
  rw [toNat_pageAddr (by omega)]
  omega

/-- An address of a block lies in one of the pages that the call asked for. -/
theorem pageOf_mem_askedPages {s : UserVmm} {size a : Word}
    (hcovered : s.userHeapPos.toNat%4096+size.toNat≤4096*(pageCount size).toNat)
    (hlow : s.userHeapPos.toNat≤a.toNat) (hhigh : a.toNat<s.userHeapPos.toNat+size.toNat) :
    ∃ addr∈askedPages s size,pageOf addr=pageOf a := by
  have ha := a.isLt
  have hi : a.toNat/4096-s.userHeapPos.toNat/4096<(pageCount size).toNat := by omega
  refine ⟨_,List.mem_map.mpr ⟨_,List.mem_range.mpr hi,rfl⟩,?_⟩
  unfold pageOf
  rw [toNat_pageAddr (by omega)]
  omega

/-- A call that asks for nothing asks for no page. -/
theorem askedPages_zero {s : UserVmm} {size : Word} (hzero : ¬0<size.toNat) :
    s.userHeapPos.toNat+roundUp size.toNat<2^32 ∧ askedPages s size=[] := by
  have hsize : size=0 := BitVec.eq_of_toNat_eq (Nat.eq_zero_of_not_pos hzero)
  subst hsize
  have hcount : pageCount 0=0 := by decide
  refine ⟨s.userHeapPos.isLt,?_⟩
  unfold askedPages
  rw [hcount]
  rfl

/-- The pages that a call of a backed run asks for are mapped. -/
theorem askedPages_mapped {s : UserVmm} (h : ∃ bs,VmmInv bs s.vmm) (hs : InLimits s) {size : Word} {fuel : ℕ}
    (hf : 2^32≤fuel) (hgranted : ¬Refused s size) (hal : AlignedPages fuel s.vmm (askedPages s size))
    (hbacked : 0<size.toNat→Backed fuel s size) :
    s.userHeapPos.toNat+roundUp size.toNat<2^32 ∧
      ∃ v,allocPages fuel s.vmm (askedPages s size)=some (v,0) ∧ (∃ bs,VmmInv bs v) ∧
        ∀ addr∈askedPages s size,frameOf v (pageOf addr)≠none := by
  by_cases hpos : 0<size.toNat
  · obtain ⟨hwrap,_,hserved⟩ := hbacked hpos
    obtain ⟨v,hrun,hinv,_,hframes⟩ := allocPages_served _ hf h (askedPages_user hs hgranted hwrap) hal hserved
    exact ⟨hwrap,v,hrun,hinv,hframes⟩
  · obtain ⟨hwrap,hnone⟩ := askedPages_zero (s := s) hpos
    rw [hnone]
    exact ⟨hwrap,s.vmm,rfl,h,fun a ha => absurd ha List.not_mem_nil⟩

/-- A call of a backed run returns, keeps the invariants, and its block is
mapped. -/
theorem vmmAllocUserHeap_mapped {s : UserVmm} (h : ∃ bs,VmmInv bs s.vmm) (hs : InLimits s) {size : Word}
    {fuel : ℕ} (hf : 2^32≤fuel) (hal : ¬Refused s size→AlignedPages fuel s.vmm (askedPages s size))
    (hbacked : 0<size.toNat→¬Refused s size→Backed fuel s size) :
    ∃ t p,vmmAllocUserHeap fuel s size=some (t,p) ∧ (∃ bs,VmmInv bs t.vmm) ∧ InLimits t ∧
      BlockMapped ⟨s,size,p,t⟩ := by
  by_cases hfull : Refused s size
  · obtain ⟨t,p,halloc⟩ := @vmmAllocUserHeap_returns fuel s size fun hno => absurd hfull hno
    rcases vmmAllocUserHeap_cases halloc with ⟨_,rfl,rfl⟩|⟨hno,_⟩
    · exact ⟨_,_,halloc,h,hs,fun hc => absurd rfl hc.1⟩
    · exact absurd hfull hno
  · obtain ⟨hwrap,v,hmap,hinv,hframes⟩ := askedPages_mapped h hs hf hfull (hal hfull) fun hpos =>
      hbacked hpos hfull
    obtain ⟨t,p,halloc⟩ := @vmmAllocUserHeap_returns fuel s size fun _ => ⟨v,0,hmap⟩
    have hlimits := (alloc_of_noWrap hs halloc hwrap).1
    rcases vmmAllocUserHeap_cases halloc with ⟨hyes,_⟩|⟨_,rfl,_,_,r,hmap'⟩
    · exact absurd hyes hfull
    · have hvmm : t.vmm=v := by
        rw [show vmmMapUserPages fuel s.vmm s.userHeapPos ((align8 size+pageSize-1)/pageSize)=some (v,0)
          from hmap] at hmap'
        cases hmap'
        rfl
      refine ⟨t,_,halloc,hvmm▸hinv,hlimits,?_⟩
      intro hc a hlow hhigh
      obtain ⟨addr,hmem,hpage⟩ := pageOf_mem_askedPages (hbacked hc.2 hfull).covered hlow hhigh
      have hframe := hframes addr hmem
      rw [hpage,←hvmm] at hframe
      exact (vmmIsMapped_eq_one_iff t.vmm a).mpr hframe

/-- So do the calls of a backed run. -/
theorem userRun_mapped (sizes : List Word) {fuel : ℕ} (hf : 2^32≤fuel) :
    ∀ {s : UserVmm},(∃ bs,VmmInv bs s.vmm)→InLimits s→AlignedUserRun fuel s sizes→BackedRun fuel s sizes→
      ∃ calls t,userRun fuel s sizes=some (calls,t) ∧ ∀ c∈calls,BlockMapped c := by
  induction sizes with
  | nil => exact fun _ _ _ _ => ⟨[],_,rfl,fun c hc => absurd hc List.not_mem_nil⟩
  | cons size sizes ih =>
    rintro s h hs ⟨hal,halrest⟩ ⟨hbacked,hrest⟩
    obtain ⟨t,p,halloc,hinv,hlimits,hmapped⟩ := vmmAllocUserHeap_mapped h hs hf hal hbacked
    obtain ⟨calls,u,hrun,hall⟩ := ih hinv hlimits (halrest t p halloc) (hrest t p halloc)
    refine ⟨⟨s,size,p,t⟩::calls,u,?_,?_⟩
    · unfold userRun
      rw [halloc,Option.bind_some]
      dsimp only
      rw [hrun]
      rfl
    · intro c hc
      obtain rfl|hc := List.mem_cons.mp hc
      · exact hmapped
      · exact hall c hc

/-- After mm_init, any run of the allocator and vmm_init, every run of calls
whose tables lie at page addresses and of which each is backed returns, and the
block of every call is mapped when the call returns. -/
theorem user_heap_mapped {start size : Word} (hsize : 12 ≤ size.toNat)
    (hfit : (align8 start).toNat+size.toNat<2^32) {st : Session} (hr : Reachable start size st)
    {kernelEnd : Word} (hout : st.heap.heapEnd.toNat≤(alignUp kernelEnd 4096).toNat) {fuel : ℕ}
    (hf : 2^32≤fuel) :
    ∃ s,vmmInitUserHeap fuel st.heap kernelEnd=some s ∧
      ∀ sizes,AlignedUserRun fuel s sizes→BackedRun fuel s sizes→
        ∃ calls t,userRun fuel s sizes=some (calls,t) ∧ ∀ c∈calls,BlockMapped c := by
  obtain ⟨bs,hinv,_,_⟩ := reachable_inv hsize hfit hr
  obtain ⟨v,cs,hinit,hbooted⟩ := vmmInit_booted hinv.represents hout hf
  have hinit' : vmmInitUserHeap fuel st.heap kernelEnd=some (atHeapLow v) := by
    unfold vmmInitUserHeap
    rw [hinit]
    rfl
  refine ⟨_,hinit',fun sizes hal hbacked => ?_⟩
  exact userRun_mapped sizes hf ⟨cs,hbooted.inv⟩ (inLimits_init hinit') hal hbacked

/-- Pages of a directory entry that can be had are served, by tables at page
addresses. -/
theorem served_of_stocked {fuel : ℕ} (hf : 2^32≤fuel) {i n : ℕ} (addrs : List Word) :
    ∀ {s : Vmm},Stocked fuel s i (n+addrs.length)→(∀ addr∈addrs,addr.toNat<0xC0000000 ∧ pdeIdx addr=i)→
      AlignedPages fuel s addrs ∧ Served fuel s addrs := by
  induction addrs with
  | nil => exact fun _ _ => ⟨trivial,trivial⟩
  | cons addr addrs ih =>
    intro s h hu
    obtain ⟨hv,hi⟩ := hu addr List.mem_cons_self
    have hnow : Stocked fuel s i (n+addrs.length+1) := h
    obtain ⟨htable,hal⟩ := hnow.table addr hi
    obtain ⟨t,hrun,ht⟩ := hnow.allocPage hf hv hi
    obtain ⟨halrest,hrest⟩ := ih ht fun a ha => hu a (List.mem_cons_of_mem addr ha)
    have hsame : ∀ t',vmmAllocPage fuel s addr=some (t',0)→t'=t := by
      intro t' ht'
      rw [hrun] at ht'
      cases ht'
      rfl
    refine ⟨⟨hal,fun t' ht' => ?_⟩,fun _ => ⟨htable,hnow.usable.1⟩,fun t' ht' => ?_⟩
    · rw [hsame t' ht']
      exact halrest
    · rw [hsame t' ht']
      exact hrest

/-- A call is backed when its pages can be had and cover its block. -/
theorem backed_of_stocked {fuel : ℕ} (hf : 2^32≤fuel) {s : UserVmm} {i n : ℕ} {size : Word} {addrs : List Word}
    (hpages : askedPages s size=addrs) (h : Stocked fuel s.vmm i (n+addrs.length))
    (hu : ∀ addr∈addrs,addr.toNat<0xC0000000 ∧ pdeIdx addr=i)
    (hwrap : s.userHeapPos.toNat+roundUp size.toNat<2^32)
    (hcovered : s.userHeapPos.toNat%4096+size.toNat≤4096*(pageCount size).toNat) :
    AlignedPages fuel s.vmm (askedPages s size) ∧ Backed fuel s size := by
  obtain ⟨hal,hserved⟩ := served_of_stocked hf addrs h hu
  rw [←hpages] at hal hserved
  exact ⟨hal,hwrap,hcovered,hserved⟩

/-- A run may begin with a call that is backed. -/
theorem backed_first {fuel : ℕ} {s t : UserVmm} {size p : Word} {sizes : List Word}
    (hrun : vmmAllocUserHeap fuel s size=some (t,p)) (hal : AlignedPages fuel s.vmm (askedPages s size))
    (hback : Backed fuel s size) (h : AlignedUserRun fuel t sizes ∧ BackedRun fuel t sizes) :
    AlignedUserRun fuel s (size::sizes) ∧ BackedRun fuel s (size::sizes) := by
  have hsame : ∀ t' p',vmmAllocUserHeap fuel s size=some (t',p')→t'=t := by
    intro t' p' h'
    rw [hrun] at h'
    cases h'
    rfl
  refine ⟨⟨fun _ => hal,fun t' p' h' => ?_⟩,fun _ _ => hback,fun t' p' h' => ?_⟩
  · rw [hsame t' p' h']
    exact h.1
  · rw [hsame t' p' h']
    exact h.2

/-- A run may end with a call that is refused. -/
theorem refused_last {s : UserVmm} {size : Word} (h : Refused s size) (fuel : ℕ) :
    AlignedUserRun fuel s [size] ∧ BackedRun fuel s [size] :=
  ⟨⟨fun hno => absurd h hno,fun _ _ _ => trivial⟩,fun _ hno => absurd h hno,fun _ _ _ => trivial⟩

/-- After boot the blocks of a request of two pages and of one of 100 bytes are
mapped, and a request for which there is no room is refused. -/
theorem pagedCalls_mapped :
    ∃ s calls t,vmmInitUserHeap (2^32) pagedHeap.heap 0x200FE8=some s ∧
      userRun (2^32) s [8192,100,0xB8000000]=some (calls,t) ∧
      calls.map UserCall.result=[0x8800000,0x8802000,0] ∧ ∀ c∈calls,BlockMapped c := by
  have hf := Nat.le_refl (2^32)
  obtain ⟨s,hinit,hall⟩ := user_heap_mapped (by decide) (by decide) pagedHeap_reachable pagedHeap_below hf
  obtain ⟨v,t,u,hinit',hv,hfirst,ht,hsecond⟩ := pagedHeap_calls
  rw [hinit] at hinit'
  cases hinit'
  have hrun := pagedCalls_run hfirst hsecond
  have hpages : askedPages (atHeapLow v) 8192=[0x8800000,0x8801000] := by
    show pageAddrs 0x8800000 (pageCount 8192)=_
    decide
  have hpages' : askedPages ⟨t,0x8802000,0xBFC00000⟩ 100=[0x8802000] := by
    show pageAddrs 0x8802000 (pageCount 100)=_
    decide
  obtain ⟨hal,hback⟩ := @backed_of_stocked _ hf _ 34 1 _ _ hpages hv
    (fun a ha => firstPages_table a (List.mem_append_left [0x8802000] ha))
    (show (0x8800000 : Word).toNat+roundUp (8192 : Word).toNat<2^32 by decide)
    (show (0x8800000 : Word).toNat%4096+(8192 : Word).toNat≤4096*(pageCount 8192).toNat by decide)
  obtain ⟨hal',hback'⟩ := @backed_of_stocked _ hf _ 34 0 _ _ hpages' ht
    (fun a ha => firstPages_table a (List.mem_append_right [0x8800000,0x8801000] ha))
    (show (0x8802000 : Word).toNat+roundUp (100 : Word).toNat<2^32 by decide)
    (show (0x8802000 : Word).toNat%4096+(100 : Word).toNat≤4096*(pageCount 100).toNat by decide)
  have hrefused : Refused ⟨u,0x8802068,0xBFC00000⟩ 0xB8000000 := by
    show (0xBFC00000 : Word) < 0x8802068+align8 0xB8000000
    decide
  obtain ⟨haligned,hbacked⟩ := backed_first hfirst hal hback
    (backed_first hsecond hal' hback' (refused_last hrefused (2^32)))
  obtain ⟨calls,w,hrun',hmapped⟩ := hall _ haligned hbacked
  rw [hrun] at hrun'
  cases hrun'
  exact ⟨_,_,_,hinit,hrun,rfl,hmapped⟩

/-- A page that was given a table keeps having it, also for the addresses behind
it. -/
theorem alignedTable_afterwards {bs : List Block} {s t : Vmm} (hs : Booted 0x200FE8 bs s) {virt virt' : Word}
    {fuel : ℕ} {r : ℤ} (htable : TableAvailable fuel s virt) (hv : virt.toNat<0xC0000000)
    (hstep : AllocStep fuel s virt t r) (hsame : pdeIdx virt'=pdeIdx virt) : AlignedTable fuel t virt' := by
  have htakes : TakesFrame fuel s virt := ⟨frameOf_noTables hs.noTables (pageOf_lt hv),htable⟩
  obtain ⟨hno,_⟩|⟨_,hadvanced⟩ := hstep.still_or_advanced
  · exact absurd htakes hno
  · intro hnone
    rw [hsame] at hnone
    exact absurd hnone hadvanced.table

/-- A block of 16 bytes behind one of 4088 reaches into a second page, for which
no call has asked. -/
theorem pagedHeap_sixteen_unmapped :
    ∃ s calls t,vmmInitUserHeap (2^32) pagedHeap.heap 0x200FE8=some s ∧
      userRun (2^32) s [4088,16]=some (calls,t) ∧ calls.map UserCall.result=[0x8800000,0x8800FF8] ∧
      vmmIsMapped t.vmm 0x8801000=0 ∧ ¬∀ c∈calls,BlockMapped c := by
  obtain ⟨v,hinit,bs,hbooted,htable,hal⟩ := pagedHeap_userHeap
  have hf := Nat.le_refl (2^32)
  obtain ⟨t,_,cs,hfirst,hinv,hstep⟩ := vmmAllocPage_step hbooted.inv (by decide) hf hal
  have hal' : AlignedTable (2^32) t 0x8800FF8 :=
    alignedTable_afterwards hbooted htable (by decide) hstep (by decide)
  obtain ⟨u,_,_,hsecond,_,hstep'⟩ := vmmAllocPage_step hinv (by decide) hf hal'
  have hcall := @vmmAllocUserHeap_onePage _ (atHeapLow v) 4088 _ _ _
    (show ¬(0xBFC00000 : Word) < 0x8800000+align8 4088 by decide)
    (show pageAddrs 0x8800000 (pageCount 4088)=[0x8800000] by decide) hfirst
  have hcall' := @vmmAllocUserHeap_onePage _ ⟨t,0x8800FF8,0xBFC00000⟩ 16 _ _ _
    (show ¬(0xBFC00000 : Word) < 0x8800FF8+align8 16 by decide)
    (show pageAddrs 0x8800FF8 (pageCount 16)=[0x8800FF8] by decide) hsecond
  have hframe : frameOf u 0x8801=none := by
    rw [allocStep_others hstep' (by decide) (by decide),allocStep_others hstep (by decide) (by decide)]
    exact frameOf_noTables hbooted.noTables (by decide)
  have hzero : vmmIsMapped u 0x8801000=0 := by
    have hpage : pageOf 0x8801000=0x8801 := by decide
    rw [vmmIsMapped_eq,hpage,hframe]
    rfl
  have hrun : userRun (2^32) (atHeapLow v) [4088,16]=some
      ([⟨atHeapLow v,4088,0x8800000,⟨t,0x8800FF8,0xBFC00000⟩⟩,
        ⟨⟨t,0x8800FF8,0xBFC00000⟩,16,0x8800FF8,⟨u,0x8801008,0xBFC00000⟩⟩],⟨u,0x8801008,0xBFC00000⟩) := by
    unfold userRun
    rw [hcall,Option.bind_some]
    dsimp only
    unfold userRun
    rw [show (⟨t,(atHeapLow v).userHeapPos+align8 4088,(atHeapLow v).userHeapEnd⟩ : UserVmm)=
      ⟨t,0x8800FF8,0xBFC00000⟩ from rfl,hcall']
    rfl
  refine ⟨_,_,_,hinit,hrun,rfl,hzero,?_⟩
  have hne : (0x8800FF8 : Word)≠0 := by decide
  have hpos : 0<(16 : Word).toNat := by decide
  have hlow : (0x8800FF8 : Word).toNat≤(0x8801000 : Word).toNat := by decide
  have hhigh : (0x8801000 : Word).toNat<(0x8800FF8 : Word).toNat+(16 : Word).toNat := by decide
  intro hall
  have hmapped := hall ⟨⟨t,0x8800FF8,0xBFC00000⟩,16,0x8800FF8,⟨u,0x8801008,0xBFC00000⟩⟩
    (List.mem_cons_of_mem _ List.mem_cons_self) ⟨hne,hpos⟩ 0x8801000 hlow hhigh
  rw [show vmmIsMapped u 0x8801000=1 from hmapped] at hzero
  cases hzero

end EronKernel.UserHeapMapping

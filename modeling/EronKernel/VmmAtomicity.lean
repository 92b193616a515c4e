import EronKernel.VmmFrames

/-!
# Mapping calls that fail

A call that maps pages stops at the first page that gets no table or no frame,
and keeps what it has done for the pages in front of it. So a failed call
leaves everything as it was only when it fails at the first page that it had
to do something for. The pages of the call may lie behind the user's part of
the directory, where the tables are not looked after; what the frame counter
shows holds there too.
-/

namespace EronKernel.VmmAtomicity

open ByteMemory BlockList HeapModel HeapLayout HeapRuns HeapIntegrity EventTrace WordTable
open VmmModel VmmTables VmmSteps VmmRuns VmmRefinement VmmFrames

/-- A call that maps pages. -/
inductive MapCall where
  /-- vmm_alloc_page. -/
  | allocPage (virt : Word)
  /-- vmm_map_user_pages. -/
  | mapUserPages (virt count : Word)

/-- The pages of a call. -/
def MapCall.pages : MapCall→List Word
  | .allocPage virt => [virt]
  | .mapUserPages virt count => pageAddrs virt count

/-- What a call does. -/
def MapCall.run (fuel : ℕ) (s : Vmm) : MapCall→Option (Vmm×ℤ)
  | .allocPage virt => vmmAllocPage fuel s virt
  | .mapUserPages virt count => vmmMapUserPages fuel s virt count

/-- The end of the pool. -/
def poolEnd (s : Vmm) : Word := s.physBase+s.totalPages*pageSize

/-- The number of frames between the counter and the end of the pool. -/
def framesLeft (s : Vmm) : ℕ := ((poolEnd s).toNat-s.nextFreePage.toNat)/4096

/-- No user can tell the states apart and as many frames are left. -/
structure Untouched (s t : Vmm) : Prop where
  /-- The queries answer the same. -/
  answers : ∀ virt : Word,virt.toNat<0xC0000000→SameTranslation s t virt
  /-- No frame is gone. -/
  frames : framesLeft t=framesLeft s

/-- A page without frame gets no table, or it gets no frame and the counter has
not come round to zero. -/
structure FailsHere (fuel : ℕ) (s : Vmm) (virt : Word) : Prop where
  /-- The page has no frame. -/
  unmapped : frameOf s (pageOf virt)=none
  /-- There is no table or no frame for it. -/
  lacks : ¬TableAvailable fuel s virt ∨ (¬FrameUsable s ∧ s.nextFreePage≠0)

/-- The first page without frame fails. -/
def FailsAtOnce (fuel : ℕ) (s : Vmm) (addrs : List Word) : Prop :=
  ∃ front virt back,addrs=front++virt::back ∧ (∀ a∈front,frameOf s (pageOf a)≠none) ∧
    FailsHere fuel s virt

/-- What a call of vmm_alloc_page does to the counter in any state: it stays,
or it is advanced and the frame was usable exactly when the call returns zero. -/
structure CounterStep (s t : Vmm) (r : ℤ) : Prop where
  /-- The pool begins at the same frame. -/
  physBase : t.physBase=s.physBase
  /-- The pool is as large. -/
  totalPages : t.totalPages=s.totalPages
  /-- The counter stays or is advanced. -/
  counter : t.nextFreePage=s.nextFreePage ∨
    (t.nextFreePage=s.nextFreePage+pageSize ∧ ((FrameUsable s ∧ r=0) ∨ (¬FrameUsable s ∧ r=-1)))

/-- The counter after the second part of vmm_alloc_page. -/
theorem mapPage_counter (s : Vmm) (i j : ℕ) : CounterStep s (mapPage s i j).1 (mapPage s i j).2 := by
  have hdef : FrameUsable s ↔ ¬(s.nextFreePage=0 ∨
      s.physBase+s.totalPages*pageSize < s.nextFreePage+pageSize) := Iff.rfl
  unfold mapPage
  dsimp only
  by_cases hpresent : wordAt s.mem (tableOf s i) j&&&pgPresent≠0
  · rw [if_pos hpresent]
    exact ⟨rfl,rfl,Or.inl rfl⟩
  · rw [if_neg hpresent]
    by_cases hu : FrameUsable s
    · rw [if_neg (hdef.mp hu)]
      exact ⟨rfl,rfl,Or.inr ⟨rfl,Or.inl ⟨hu,rfl⟩⟩⟩
    · rw [if_pos (not_not.mp (hdef.not.mp hu))]
      exact ⟨rfl,rfl,Or.inr ⟨rfl,Or.inr ⟨hu,rfl⟩⟩⟩

/-- Making a table does not touch the pool. -/
theorem ensureTable_pool {fuel : ℕ} {s t : Vmm} {i : ℕ} {there : Bool}
    (h : ensureTable fuel s i=some (t,there)) :
    t.physBase=s.physBase ∧ t.totalPages=s.totalPages ∧ t.nextFreePage=s.nextFreePage := by
  unfold ensureTable at h
  by_cases hp : pde s i≠0
  · rw [if_pos hp] at h
    cases h
    exact ⟨rfl,rfl,rfl⟩
  · rw [if_neg hp] at h
    obtain ⟨⟨u,p⟩,_,heq⟩ := Option.map_eq_some_iff.mp h
    dsimp only at heq
    by_cases hz : p=0
    · rw [if_pos hz] at heq
      cases heq
      exact ⟨rfl,rfl,rfl⟩
    · rw [if_neg hz] at heq
      cases heq
      exact ⟨rfl,rfl,rfl⟩

/-- The counter after a call of vmm_alloc_page that returns. -/
theorem vmmAllocPage_counter {fuel : ℕ} {s t : Vmm} {virt : Word} {r : ℤ}
    (h : vmmAllocPage fuel s virt=some (t,r)) : CounterStep s t r := by
  unfold vmmAllocPage at h
  by_cases hdir : s.currentPdir=0
  · rw [if_pos hdir] at h
    cases h
    exact ⟨rfl,rfl,Or.inl rfl⟩
  · rw [if_neg hdir] at h
    obtain ⟨⟨u,there⟩,htable,heq⟩ := Option.map_eq_some_iff.mp h
    obtain ⟨hbase,htotal,hnext⟩ := ensureTable_pool htable
    have husable : FrameUsable u ↔ FrameUsable s := by
      unfold FrameUsable
      rw [hbase,htotal,hnext]
    dsimp only at heq
    cases there with
    | false =>
      cases heq
      exact ⟨hbase,htotal,Or.inl hnext⟩
    | true =>
      rw [if_pos rfl] at heq
      have hstep := mapPage_counter u (pdeIdx virt) (pteIdx virt)
      rw [heq] at hstep
      obtain ⟨hbase',htotal',hcounter⟩ := hstep
      rw [husable,hnext] at hcounter
      exact ⟨hbase'.trans hbase,htotal'.trans htotal,hcounter⟩

/-- The end of a pool of full size. -/
theorem poolEnd_toNat {base : Word} (hpool : base.toNat+0x1001000<2^32) {s : Vmm} (hp : PoolIs base s) :
    (poolEnd s).toNat=base.toNat+0x1000000 := by
  obtain ⟨hbase,htotal⟩ := hp
  unfold poolEnd
  rw [hbase,htotal]
  bv_omega

/-- A counter step keeps the pool. -/
theorem CounterStep.pool {base : Word} {s t : Vmm} {r : ℤ} (h : CounterStep s t r) (hp : PoolIs base s) :
    PoolIs base t := ⟨h.physBase.trans hp.1,h.totalPages.trans hp.2⟩

/-- Inside the pool a counter step does not go back; it stays inside unless the
call fails, and then it is one page behind at most. -/
theorem CounterStep.inside {base : Word} (hpool : base.toNat+0x1001000<2^32) {s t : Vmm} {r : ℤ}
    (h : CounterStep s t r) (hp : PoolIs base s) (hs : s.nextFreePage.toNat≤(poolEnd s).toNat) :
    s.nextFreePage.toNat≤t.nextFreePage.toNat ∧ t.nextFreePage.toNat≤(poolEnd s).toNat+4096 ∧
      (r=0→ t.nextFreePage.toNat≤(poolEnd s).toNat) := by
  have hend := poolEnd_toNat hpool hp
  have hadd : (s.nextFreePage+pageSize).toNat=s.nextFreePage.toNat+4096 := by bv_omega
  obtain hsame|⟨hnext,hcases⟩ := h.counter
  · rw [hsame]
    exact ⟨Nat.le_refl _,by omega,fun _ => hs⟩
  · rw [hnext,hadd]
    refine ⟨by omega,by omega,?_⟩
    intro hr
    obtain ⟨hu,_⟩|⟨_,hfail⟩ := hcases
    · have hlast := ((usable_iff (by omega) hp).mp hu).2
      omega
    · rw [hr] at hfail
      cases hfail

/-- A call of the loop either ends it or goes on with the other pages. -/
theorem allocPages_cons {fuel : ℕ} {s t : Vmm} {addr : Word} {addrs : List Word} {r : ℤ}
    (h : allocPages fuel s (addr::addrs)=some (t,r)) :
    ∃ u q,vmmAllocPage fuel s addr=some (u,q) ∧
      ((q≠0 ∧ t=u ∧ r=-1) ∨ (q=0 ∧ allocPages fuel u addrs=some (t,r))) := by
  unfold allocPages at h
  obtain ⟨⟨u,q⟩,hpage,hrest⟩ := Option.bind_eq_some_iff.mp h
  refine ⟨u,q,hpage,?_⟩
  dsimp only at hrest
  by_cases hq : q≠0
  · rw [if_pos hq] at hrest
    cases hrest
    exact Or.inl ⟨hq,rfl,rfl⟩
  · rw [if_neg hq] at hrest
    exact Or.inr ⟨not_not.mp hq,hrest⟩

/-- Inside the pool the loop does not take the counter back, nor more than one
page behind the pool. -/
theorem allocPages_inside {base : Word} (hpool : base.toNat+0x1001000<2^32) {fuel : ℕ} (addrs : List Word) :
    ∀ {s t : Vmm} {r : ℤ},allocPages fuel s addrs=some (t,r)→PoolIs base s→
      s.nextFreePage.toNat≤(poolEnd s).toNat→
        PoolIs base t ∧ s.nextFreePage.toNat≤t.nextFreePage.toNat ∧
          t.nextFreePage.toNat≤(poolEnd s).toNat+4096 := by
  induction addrs with
  | nil =>
    intro s t r hrun hp hs
    cases hrun
    exact ⟨hp,Nat.le_refl _,by omega⟩
  | cons addr addrs ih =>
    intro s t r hrun hp hs
    obtain ⟨u,q,hpage,hcases⟩ := allocPages_cons hrun
    have hstep := vmmAllocPage_counter hpage
    obtain ⟨hlow,hhigh,hstays⟩ := hstep.inside hpool hp hs
    obtain ⟨_,rfl,_⟩|⟨hq,hrest⟩ := hcases
    · exact ⟨hstep.pool hp,hlow,hhigh⟩
    · have hend : (poolEnd u).toNat=(poolEnd s).toNat := by
        rw [poolEnd_toNat hpool hp,poolEnd_toNat hpool (hstep.pool hp)]
      obtain ⟨hpt,hle,hbound⟩ := ih hrest (hstep.pool hp) (by rw [hend]; exact hstays hq)
      exact ⟨hpt,hlow.trans hle,by rw [hend] at hbound; exact hbound⟩

/-- With the counter at zero no frame is given, so the loop advances it once at
most. -/
theorem allocPages_at_zero {fuel : ℕ} (addrs : List Word) :
    ∀ {s t : Vmm} {r : ℤ},allocPages fuel s addrs=some (t,r)→ s.nextFreePage=0→
      t.nextFreePage.toNat≤4096 := by
  induction addrs with
  | nil =>
    intro s t r hrun hzero
    cases hrun
    rw [hzero]
    exact Nat.zero_le _
  | cons addr addrs ih =>
    intro s t r hrun hzero
    obtain ⟨u,q,hpage,hcases⟩ := allocPages_cons hrun
    have hstep := vmmAllocPage_counter hpage
    obtain hsame|⟨hnext,hframe⟩ := hstep.counter
    · obtain ⟨_,rfl,_⟩|⟨_,hrest⟩ := hcases
      · rw [hsame,hzero]
        exact Nat.zero_le _
      · exact ih hrest (hsame.trans hzero)
    · have hunusable : ¬FrameUsable s := fun hu => hu (Or.inl hzero)
      have hfail : q=-1 := by
        obtain ⟨hu,_⟩|⟨_,hq⟩ := hframe
        · exact absurd hu hunusable
        · exact hq
      obtain ⟨_,rfl,_⟩|⟨hq,_⟩ := hcases
      · rw [hnext,hzero]
        exact Nat.le_refl _
      · rw [hq] at hfail
        cases hfail

/-- Once a frame was given, no way to go on ends with as many frames left. -/
theorem framesLeft_after_frame {base : Word} (hpool : base.toNat+0x1001000<2^32) {s u t : Vmm}
    (hp : PoolIs base s) (hal : Aligned s.nextFreePage) (hu : FrameUsable s) (hpu : PoolIs base u)
    (hnext : u.nextFreePage=s.nextFreePage+pageSize) {fuel : ℕ} {addrs : List Word} {r : ℤ}
    (hrun : allocPages fuel u addrs=some (t,r)) : framesLeft t≠framesLeft s := by
  obtain ⟨hne,hfits⟩ := (usable_iff (by omega) hp).mp hu
  have hends := poolEnd_toNat hpool hp
  have hendu := poolEnd_toNat hpool hpu
  have hinside : u.nextFreePage.toNat≤(poolEnd u).toNat := by
    rw [hnext]
    omega
  obtain ⟨hpt,hle,_⟩ := allocPages_inside hpool addrs hrun hpu hinside
  have hendt := poolEnd_toNat hpool hpt
  unfold framesLeft
  rw [hends,hendt]
  by_cases hwrap : s.nextFreePage=0xFFFFF000
  · have hzero : u.nextFreePage=0 := by
      rw [hnext,hwrap]
      rfl
    have hfirst := allocPages_at_zero addrs hrun hzero
    have hvalue : s.nextFreePage.toNat=0xFFFFF000 := by
      rw [hwrap]
      rfl
    omega
  · have hadd : (s.nextFreePage+pageSize).toNat=s.nextFreePage.toNat+4096 := by
      unfold Aligned at hal
      bv_omega
    rw [hnext,hadd] at hle
    rw [hadd] at hfits
    omega

/-- The counter does not matter to the pages. -/
theorem frameOf_setNext (s : Vmm) (w : Word) (page : ℕ) :
    frameOf {s with nextFreePage := w} page=frameOf s page := rfl

/-- For a page without frame there is no room for a table, or there is a table
with an empty entry and no user page changed. -/
theorem ensureTable_unmapped {bs : List Block} {s : Vmm} (h : VmmInv bs s) {virt : Word} {fuel : ℕ}
    (hf : 2^32≤fuel) (hal : AlignedTable fuel s virt) (hnone : frameOf s (pageOf virt)=none) :
    (¬TableAvailable fuel s virt ∧ ensureTable fuel s (pdeIdx virt)=some (s,false)) ∨
      ∃ u,TableAvailable fuel s virt ∧ ensureTable fuel s (pdeIdx virt)=some (u,true) ∧
        wordAt u.mem (tableOf u (pdeIdx virt)) (pteIdx virt)&&&pgPresent=0 ∧
        ∀ page<0xC0000,frameOf u page=frameOf s page := by
  by_cases hp : pde s (pdeIdx virt)=0
  · obtain hnull|⟨u,p,cs,hrun,hpne,_,hres,hkeep⟩ := kmalloc_page h.represents hf
    · exact Or.inl (ensureTable_null hp hnull)
    · have hi : pdeIdx virt<1024 := by
        have hlt := virt.isLt
        rw [pdeIdx_eq]
        omega
      have halp := hal hp u p hrun
      have hadded := h.tableAdded hi hres hkeep
      refine Or.inr ⟨_,Or.inr ⟨u,p,hrun,hpne⟩,ensureTable_made hp hrun hpne,?_,?_⟩
      · rw [hadded.tableOf_new halp,hadded.empty _ (pteIdx_lt virt)]
        rfl
      · exact fun page hpage => frameOf_congr (hadded.pteWord_eq halp hp _ (by omega) _ (by omega))
  · refine Or.inr ⟨s,Or.inl hp,ensureTable_there hp,?_,fun _ _ => rfl⟩
    rw [frameOf_pageOf] at hnone
    unfold pteWord at hnone
    rw [if_neg hp] at hnone
    by_contra hpresent
    rw [if_neg hpresent] at hnone
    cases hnone

/-- What a call of vmm_alloc_page does for a page without frame, wherever the
page lies. -/
inductive UnmappedStep (fuel : ℕ) (s : Vmm) (virt : Word) : Vmm→ℤ→Prop where
  /-- There is no table: nothing happens. -/
  | noTable (ht : ¬TableAvailable fuel s virt) : UnmappedStep fuel s virt s (-1)
  /-- The frame is not usable: no user page changes. -/
  | refused {t : Vmm} (ht : TableAvailable fuel s virt) (hu : ¬FrameUsable s)
      (hnext : t.nextFreePage=s.nextFreePage+pageSize)
      (hsame : ∀ page<0xC0000,frameOf t page=frameOf s page) : UnmappedStep fuel s virt t (-1)
  /-- The page is given the frame that was next. -/
  | assigned {t : Vmm} (ht : TableAvailable fuel s virt) (hu : FrameUsable s)
      (hnext : t.nextFreePage=s.nextFreePage+pageSize) : UnmappedStep fuel s virt t 0

/-- vmm_alloc_page makes one of these steps. -/
theorem vmmAllocPage_unmapped {bs : List Block} {s t : Vmm} (h : VmmInv bs s) {virt : Word} {fuel : ℕ}
    (hf : 2^32≤fuel) (hal : AlignedTable fuel s virt) (hnone : frameOf s (pageOf virt)=none) {r : ℤ}
    (hrun : vmmAllocPage fuel s virt=some (t,r)) : UnmappedStep fuel s virt t r := by
  unfold vmmAllocPage at hrun
  rw [if_neg h.pdirNe] at hrun
  obtain ⟨hno,htable⟩|⟨u,hyes,htable,hword,hframes⟩ := ensureTable_unmapped h hf hal hnone
  · rw [htable] at hrun
    cases hrun
    exact UnmappedStep.noTable hno
  · rw [htable] at hrun
    obtain ⟨hbase,htotal,hnext⟩ := ensureTable_pool htable
    have husable : FrameUsable s ↔ ¬(u.nextFreePage=0 ∨
        u.physBase+u.totalPages*pageSize < u.nextFreePage+pageSize) := by
      rw [hbase,htotal,hnext]
      rfl
    have hmap := Option.some.inj hrun
    dsimp only at hmap
    unfold mapPage at hmap
    dsimp only at hmap
    rw [if_pos rfl,hword,if_neg (not_not.mpr rfl)] at hmap
    by_cases hu : FrameUsable s
    · rw [if_neg (husable.mp hu)] at hmap
      cases hmap
      exact UnmappedStep.assigned hyes hu (congrArg (·+pageSize) hnext)
    · rw [if_pos (not_not.mp (husable.not.mp hu))] at hmap
      cases hmap
      refine UnmappedStep.refused hyes hu (congrArg (·+pageSize) hnext) fun page hpage => ?_
      rw [frameOf_setNext,hframes page hpage]

/-- A mapped page is passed by. -/
theorem vmmAllocPage_passes {bs : List Block} {s : Vmm} (h : VmmInv bs s) {virt : Word}
    (hframe : frameOf s (pageOf virt)≠none) (fuel : ℕ) : vmmAllocPage fuel s virt=some (s,0) :=
  vmmAllocPage_mapped h ((vmmIsMapped_eq_one_iff s virt).mpr hframe) fuel

/-- Mapped pages in front are passed by. -/
theorem allocPages_passes {bs : List Block} {s : Vmm} (h : VmmInv bs s) {fuel : ℕ} (front back : List Word)
    (hfront : ∀ a∈front,frameOf s (pageOf a)≠none) :
    allocPages fuel s (front++back)=allocPages fuel s back := by
  induction front with
  | nil => rfl
  | cons addr front ih =>
    rw [List.cons_append,allocPages,vmmAllocPage_passes h (hfront addr List.mem_cons_self),Option.bind_some]
    dsimp only
    rw [if_neg (not_not.mpr rfl)]
    exact ih fun a ha => hfront a (List.mem_cons_of_mem addr ha)

/-- The tables of the pages behind mapped ones are made in the same state. -/
theorem alignedPages_passes {bs : List Block} {s : Vmm} (h : VmmInv bs s) {fuel : ℕ} (front back : List Word)
    (hfront : ∀ a∈front,frameOf s (pageOf a)≠none) (hal : AlignedPages fuel s (front++back)) :
    AlignedPages fuel s back := by
  induction front with
  | nil => exact hal
  | cons addr front ih =>
    obtain ⟨_,hrest⟩ := hal
    exact ih (fun a ha => hfront a (List.mem_cons_of_mem addr ha))
      (hrest s (vmmAllocPage_passes h (hfront addr List.mem_cons_self) fuel))

/-- Pages are all mapped, or there is a first one that is not. -/
theorem first_unmapped (s : Vmm) (addrs : List Word) :
    (∀ a∈addrs,frameOf s (pageOf a)≠none) ∨ ∃ front virt back,addrs=front++virt::back ∧
      (∀ a∈front,frameOf s (pageOf a)≠none) ∧ frameOf s (pageOf virt)=none := by
  induction addrs with
  | nil => exact Or.inl fun a ha => absurd ha List.not_mem_nil
  | cons addr addrs ih =>
    by_cases hframe : frameOf s (pageOf addr)=none
    · exact Or.inr ⟨[],addr,addrs,rfl,fun a ha => absurd ha List.not_mem_nil,hframe⟩
    · obtain hall|⟨front,virt,back,rfl,hfront,hnone⟩ := ih
      · refine Or.inl fun a ha => ?_
        obtain rfl|ha := List.mem_cons.mp ha
        · exact hframe
        · exact hall a ha
      · refine Or.inr ⟨addr::front,virt,back,rfl,fun a ha => ?_,hnone⟩
        obtain rfl|ha := List.mem_cons.mp ha
        · exact hframe
        · exact hfront a ha

/-- A refused frame takes none from the pool unless the counter came round to
zero. -/
theorem framesLeft_refused_iff {base : Word} (hpool : base.toNat+0x1001000<2^32) {s t : Vmm}
    (hp : PoolIs base s) (hpt : PoolIs base t) (hu : ¬FrameUsable s)
    (hnext : t.nextFreePage=s.nextFreePage+pageSize) :
    framesLeft t=framesLeft s ↔ s.nextFreePage≠0 := by
  have husable := usable_iff (by omega) hp
  have hends := poolEnd_toNat hpool hp
  have hendt := poolEnd_toNat hpool hpt
  unfold framesLeft
  rw [hends,hendt,hnext]
  constructor
  · intro hsame hzero
    rw [hzero] at hsame
    have hpage : (0+pageSize : Word).toNat=4096 := rfl
    have hnone : (0 : Word).toNat=0 := rfl
    rw [hpage,hnone] at hsame
    omega
  · intro hne
    have hbehind : base.toNat+0x1000000<(s.nextFreePage+pageSize).toNat :=
      not_le.mp fun hle => hu (husable.mpr ⟨hne,hle⟩)
    have hlt : (s.nextFreePage+pageSize).toNat ≤ s.nextFreePage.toNat+4096 := by bv_omega
    omega

/-- A page that fails leaves everything as it was unless the counter came round
to zero, and a page that gets its frame never does. -/
theorem untouched_iff_of_unmapped {base : Word} (hpool : base.toNat+0x1001000<2^32) {bs : List Block}
    {s t : Vmm} (h : VmmInv bs s) (hp : PoolIs base s) {fuel : ℕ} (hf : 2^32≤fuel) {virt : Word}
    {addrs : List Word} (hal : AlignedTable fuel s virt) (hnone : frameOf s (pageOf virt)=none)
    (hrun : allocPages fuel s (virt::addrs)=some (t,-1)) : Untouched s t ↔ FailsHere fuel s virt := by
  obtain ⟨u,q,hpage,hcases⟩ := allocPages_cons hrun
  have hpu := (vmmAllocPage_counter hpage).pool hp
  cases vmmAllocPage_unmapped h hf hal hnone hpage with
  | noTable hno =>
    obtain ⟨_,rfl,_⟩|⟨hq,_⟩ := hcases
    · refine iff_of_true ⟨fun _ _ => ⟨rfl,rfl⟩,rfl⟩ ⟨hnone,Or.inl hno⟩
    · cases hq
  | refused ht hu hnext hsame =>
    obtain ⟨_,rfl,_⟩|⟨hq,_⟩ := hcases
    · have hleft := framesLeft_refused_iff hpool hp hpu hu hnext
      constructor
      · exact fun hun => ⟨hnone,Or.inr ⟨hu,hleft.mp hun.frames⟩⟩
      · rintro ⟨_,hno|⟨_,hne⟩⟩
        · exact absurd ht hno
        · exact ⟨fun a ha => sameTranslation_of_frame (hsame _ (pageOf_lt ha)),hleft.mpr hne⟩
    · cases hq
  | assigned ht hu hnext =>
    obtain ⟨hq,_⟩|⟨_,hrest⟩ := hcases
    · exact absurd rfl hq
    · have hleft := framesLeft_after_frame hpool hp h.next hu hpu hnext hrest
      refine iff_of_false (fun hun => hleft hun.frames) ?_
      rintro ⟨_,hno|⟨hno,_⟩⟩
      · exact hno ht
      · exact hno hu

/-- A loop that fails leaves everything as it was exactly when it fails at the
first page that is not mapped. -/
theorem untouched_iff_failsAtOnce {base : Word} (hpool : base.toNat+0x1001000<2^32) {bs : List Block}
    {s t : Vmm} (h : VmmInv bs s) (hp : PoolIs base s) {fuel : ℕ} (hf : 2^32≤fuel) {addrs : List Word}
    (hal : AlignedPages fuel s addrs) (hrun : allocPages fuel s addrs=some (t,-1)) :
    Untouched s t ↔ FailsAtOnce fuel s addrs := by
  have hat : ∀ front virt back,addrs=front++virt::back→(∀ a∈front,frameOf s (pageOf a)≠none)→
      frameOf s (pageOf virt)=none→(Untouched s t ↔ FailsHere fuel s virt) := by
    rintro front virt back rfl hfront hnone
    rw [allocPages_passes h front _ hfront] at hrun
    obtain ⟨halvirt,_⟩ := alignedPages_passes h front _ hfront hal
    exact untouched_iff_of_unmapped hpool h hp hf halvirt hnone hrun
  constructor
  · intro hun
    obtain hall|⟨front,virt,back,haddrs,hfront,hnone⟩ := first_unmapped s addrs
    · have hpass := @allocPages_passes bs s h fuel addrs [] hall
      rw [List.append_nil,hrun] at hpass
      cases hpass
    · exact ⟨front,virt,back,haddrs,hfront,(hat front virt back haddrs hfront hnone).mp hun⟩
  · rintro ⟨front,virt,back,haddrs,hfront,hfails⟩
    exact (hat front virt back haddrs hfront hfails.unmapped).mpr hfails

/-- A call that fails is a loop over its pages that fails. -/
theorem MapCall.allocPages_of_run {fuel : ℕ} {s t : Vmm} {c : MapCall} (h : c.run fuel s=some (t,-1)) :
    allocPages fuel s c.pages=some (t,-1) := by
  cases c with
  | allocPage virt =>
    have hpage : vmmAllocPage fuel s virt=some (t,-1) := h
    unfold MapCall.pages
    rw [allocPages,hpage,Option.bind_some]
    rfl
  | mapUserPages virt count => exact h

/-- After mm_init, any run of the allocator, vmm_init and any run of the virtual
memory calls on user addresses, a call that maps pages at any address, whose
tables lie at page addresses, and that fails leaves the answers for every user
address and the number of frames as they were exactly when it fails at the first
page that is not mapped and the counter has not come round to zero. The kernel
ends behind the heap and the pool ends below the last page of memory, as the
boot code has it. -/
theorem mapping_atomic_iff_fails_at_once {start size : Word} (hsize : 12 ≤ size.toNat)
    (hfit : (align8 start).toNat+size.toNat<2^32) {st : Session} (hr : Reachable start size st)
    {kernelEnd : Word} (hout : st.heap.heapEnd.toNat≤(alignUp kernelEnd 4096).toNat)
    (hpool : (alignUp kernelEnd 4096).toNat+0x2001000<2^32) {fuel : ℕ} (hf : 2^32≤fuel) :
    ∃ s,vmmInit fuel st.heap kernelEnd=some s ∧
      ∀ ops,(∀ op∈ops,op.OnUser)→AlignedRun fuel s ops→
        ∃ es t,runOps fuel s ops=some (es,t) ∧
          ∀ c : MapCall,AlignedPages fuel t c.pages→
            ∀ u,c.run fuel t=some (u,-1)→(Untouched t u ↔ FailsAtOnce fuel t c.pages) := by
  obtain ⟨s,cs,hinit,hbooted,hruns⟩ := booted_recorded hsize hfit hr hout hf
  refine ⟨s,hinit,?_⟩
  intro ops hu hal
  obtain ⟨es,t,hrun,hrec⟩ := hruns ops hu hal
  obtain ⟨hp,_⟩ := hrec.trace.invariant (PoolIs s.physBase) ⟨rfl,hbooted.totalPages⟩
    fun e he => pool_step (hrec.events e he)
  have hbase : s.physBase.toNat+0x1001000<2^32 := by
    rw [hbooted.physBase]
    bv_omega
  obtain ⟨bs,hinv⟩ := hrec.inv
  refine ⟨es,t,hrun,?_⟩
  intro c halc u hcall
  exact untouched_iff_failsAtOnce hbase hinv hp hf halc (MapCall.allocPages_of_run hcall)

/-- The events of calls on one page are calls on that page. -/
theorem runOps_onePage {fuel : ℕ} {virt : Word} (ops : List VmmOp)
    (hops : ∀ op∈ops,op=.allocPage virt ∨ op=.freePage virt) :
    ∀ {s t : Vmm} {es : List Event},runOps fuel s ops=some (es,t)→∀ e∈es,e.call.virt=virt := by
  induction ops with
  | nil =>
    intro s t es hrun e he
    cases hrun
    cases he
  | cons op ops ih =>
    intro s t es hrun e he
    unfold runOps at hrun
    obtain ⟨⟨as,u⟩,hop,hrest⟩ := Option.bind_eq_some_iff.mp hrun
    obtain ⟨⟨ds,v⟩,hds,heq⟩ := Option.map_eq_some_iff.mp hrest
    cases heq
    obtain he|he := List.mem_append.mp he
    · obtain rfl|rfl := hops op List.mem_cons_self
      · obtain ⟨⟨w,r⟩,_,heq⟩ := Option.map_eq_some_iff.mp hop
        cases heq
        rw [List.mem_singleton.mp he]
        rfl
      · cases hop
        rw [List.mem_singleton.mp he]
        rfl
    · exact ih (fun o ho => hops o (List.mem_cons_of_mem op ho)) hds e he

/-- The one-megabyte heap's kernel after a page was mapped and released a number
of times: the counter is as many frames further, and the next page was never
mapped. -/
structure AfterRounds (n : ℕ) (s : Vmm) (es : List Event) (t : Vmm) : Prop where
  /-- vmm_init. -/
  init : vmmInit (2^32) pagedHeap.heap 0x200FE8=some s
  /-- The rounds are on a user address. -/
  onUser : ∀ op∈pageRounds n 0x8000000,op.OnUser
  /-- The table of the page lies at a page address. -/
  aligned : AlignedRun (2^32) s (pageRounds n 0x8000000)
  /-- The run. -/
  run : runOps (2^32) s (pageRounds n 0x8000000)=some (es,t)
  /-- The page can be mapped once more. -/
  ready : Ready (2^32) 0x8000000 t
  /-- The counter is as many frames further. -/
  next : t.nextFreePage=0x1201000+BitVec.ofNat 32 n*pageSize
  /-- The pool did not change. -/
  pool : PoolIs 0x1201000 t
  /-- The next page was never mapped. -/
  unmapped : frameOf t 0x8001=none

/-- There is such a run. -/
theorem afterRounds (n : ℕ) : ∃ s es t,AfterRounds n s es t := by
  have hv : (0x8000000 : Word).toNat<0xC0000000 := by decide
  have hf := Nat.le_refl (2^32)
  obtain ⟨s,bs,hinit,hbooted,htable,hal⟩ := pagedHeap_boots hf 0x8000000
  have huser : ∀ op∈pageRounds n 0x8000000,op.OnUser := fun op hop =>
    VmmOp.onUser_onePage hv (mem_pageRounds hop)
  have halr := alignedRun_onePage hv hf (pageRounds n 0x8000000) (fun op hop => mem_pageRounds hop)
    ⟨bs,hbooted.inv⟩ hal
  have hready : Ready (2^32) 0x8000000 s :=
    ⟨⟨bs,hbooted.inv⟩,⟨frameOf_noTables hbooted.noTables (pageOf_lt hv),htable⟩,hal⟩
  obtain ⟨es,t,hrun,hready',hnext⟩ := rounds_ready hf hv n hready
  obtain ⟨es',t',hrun',hrec⟩ := runOps_recorded _ hf ⟨bs,hbooted.inv⟩ huser halr
  rw [hrun] at hrun'
  cases hrun'
  have hbase : s.physBase=0x1201000 := by
    rw [hbooted.physBase]
    decide
  obtain ⟨hpool,_⟩ := hrec.trace.invariant (PoolIs 0x1201000) ⟨hbase,hbooted.totalPages⟩
    fun e he => pool_step (hrec.events e he)
  have hnone : frameOf s 0x8001=none := frameOf_noTables hbooted.noTables (by decide)
  obtain ⟨hunmapped,_⟩ := hrec.trace.invariant (fun u => frameOf u 0x8001=none) hnone fun e he hb => by
    have hpage : 0x8001≠pageOf e.call.virt := by
      rw [runOps_onePage _ (fun op hop => mem_pageRounds hop) hrun e he]
      decide
    exact (others_step (hrec.events e he) (by decide) hpage).trans hb
  exact ⟨s,es,t,hinit,huser,halr,hrun,hready',by rw [hnext,hbooted.nextFreePage,hbase],hpool,hunmapped⟩

/-- Without frames, mapping the page fails. -/
theorem AfterRounds.noFrames {s t : Vmm} {es : List Event} (h : AfterRounds 4096 s es t) :
    ∃ u,vmmAllocPage (2^32) t 0x8000000=some (u,-1) := by
  obtain ⟨bs,hinv⟩ := h.ready.inv
  obtain ⟨u,r,_,hrun,_,hstep⟩ := vmmAllocPage_step hinv (by decide) (Nat.le_refl (2^32)) h.ready.aligned
  have hunusable : ¬FrameUsable t := by
    rw [usable_iff (by decide) h.pool,h.next]
    decide
  obtain rfl := hstep.result_eq_neg_one h.ready.takes.1 hunusable
  exact ⟨u,hrun⟩

/-- When no frame is left, a call for one page fails and is judged by the state
before it. -/
theorem pagedHeap_noFrames_untouched_iff :
    ∃ s es t u,vmmInit (2^32) pagedHeap.heap 0x200FE8=some s ∧
      runOps (2^32) s (pageRounds 4096 0x8000000)=some (es,t) ∧
      (MapCall.allocPage 0x8000000).run (2^32) t=some (u,-1) ∧
      (Untouched t u ↔ FailsAtOnce (2^32) t (MapCall.allocPage 0x8000000).pages) := by
  obtain ⟨s,hinit,hall⟩ := mapping_atomic_iff_fails_at_once (by decide) (by decide) pagedHeap_reachable
    pagedHeap_below (by decide) (Nat.le_refl (2^32))
  obtain ⟨s',es,t,h⟩ := afterRounds 4096
  have hinit' := h.init
  rw [hinit] at hinit'
  cases hinit'
  obtain ⟨es',t',hrun,hiff⟩ := hall _ h.onUser h.aligned
  rw [h.run] at hrun
  cases hrun
  obtain ⟨u,hcall⟩ := h.noFrames
  exact ⟨s,es,t,u,hinit,h.run,hcall,hiff (.allocPage 0x8000000) ⟨h.ready.aligned,fun _ _ => trivial⟩ u hcall⟩

/-- With one frame left, mapping two pages fails at the second. -/
theorem AfterRounds.oneFrame {s t : Vmm} {es : List Event} (h : AfterRounds 4095 s es t) :
    AlignedPages (2^32) t [0x8000000,0x8001000] ∧ ∃ u,allocPages (2^32) t [0x8000000,0x8001000]=some (u,-1) ∧
      vmmIsMapped t 0x8000000=0 ∧ vmmIsMapped u 0x8000000=1 := by
  have hf := Nat.le_refl (2^32)
  have hv : (0x8000000 : Word).toNat<0xC0000000 := by decide
  obtain ⟨bs,hinv⟩ := h.ready.inv
  have hpage : pageOf 0x8000000=0x8000 := by decide
  have husable : FrameUsable t := by
    rw [usable_iff (by decide) h.pool,h.next]
    decide
  obtain ⟨u,r,cs,hrun,hinvu,hstep⟩ := vmmAllocPage_step hinv hv hf h.ready.aligned
  have hadv : Advanced t u 0x8000000 :=
    hstep.still_or_advanced.elim (fun hno => absurd h.ready.takes hno.1) And.right
  obtain rfl := hstep.result_eq_zero fun _ => ⟨h.ready.takes.2,husable⟩
  have htable : pde u (pdeIdx 0x8001000)≠0 := hadv.table
  have hmapped := (allocStep_mapped_iff hstep hv).1.mpr rfl
  have hunmapped : frameOf u 0x8001=none := by
    rw [allocStep_others hstep (by decide) (by decide)]
    exact h.unmapped
  have hunusable : ¬FrameUsable u := by
    rw [usable_iff (by decide) ⟨hadv.physBase.trans h.pool.1,hadv.totalPages.trans h.pool.2⟩,
      hadv.nextFreePage,h.next]
    decide
  have hal : AlignedTable (2^32) u 0x8001000 := fun hc => absurd hc htable
  obtain ⟨v,q,_,hrun',_,hstep'⟩ := vmmAllocPage_step hinvu (by decide) hf hal
  have hkept : frameOf v 0x8000=frameOf u 0x8000 := allocStep_others hstep' (by decide) (by decide)
  obtain rfl := hstep'.result_eq_neg_one hunmapped hunusable
  refine ⟨⟨h.ready.aligned,?_⟩,v,?_,?_,?_⟩
  · intro w hw
    rw [hrun] at hw
    cases hw
    exact ⟨hal,fun _ _ => trivial⟩
  · rw [allocPages,hrun,Option.bind_some]
    dsimp only
    rw [if_neg (not_not.mpr rfl),allocPages,hrun',Option.bind_some]
    rfl
  · rw [vmmIsMapped_eq,h.ready.takes.1]
    rfl
  · rw [vmmIsMapped_eq_one_iff,hpage,hkept,←hpage]
    exact hmapped

/-- The first of the two pages stays mapped. -/
theorem pagedHeap_oneFrame_touched :
    ∃ s es t u,vmmInit (2^32) pagedHeap.heap 0x200FE8=some s ∧
      (∀ op∈pageRounds 4095 0x8000000,op.OnUser) ∧ AlignedRun (2^32) s (pageRounds 4095 0x8000000) ∧
      runOps (2^32) s (pageRounds 4095 0x8000000)=some (es,t) ∧
      AlignedPages (2^32) t (MapCall.mapUserPages 0x8000000 2).pages ∧
      (MapCall.mapUserPages 0x8000000 2).run (2^32) t=some (u,-1) ∧
      vmmIsMapped t 0x8000000=0 ∧ vmmIsMapped u 0x8000000=1 ∧ ¬Untouched t u := by
  obtain ⟨s,es,t,h⟩ := afterRounds 4095
  obtain ⟨hal,u,hrun,hbefore,hafter⟩ := h.oneFrame
  have hpages : (MapCall.mapUserPages 0x8000000 2).pages=[0x8000000,0x8001000] := by decide
  refine ⟨s,es,t,u,h.init,h.onUser,h.aligned,h.run,by rw [hpages]; exact hal,?_,hbefore,hafter,?_⟩
  · show allocPages (2^32) t (MapCall.mapUserPages 0x8000000 2).pages=some (u,-1)
    rw [hpages]
    exact hrun
  · intro hun
    obtain ⟨hsame,_⟩ := hun.answers 0x8000000 (by decide)
    rw [hbefore,hafter] at hsame
    cases hsame

end EronKernel.VmmAtomicity

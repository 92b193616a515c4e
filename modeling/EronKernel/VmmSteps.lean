import EronKernel.EventTrace
import EronKernel.VmmTables

/-!
# What one call does to the map of pages to frames

The table entries read as a partial map from page numbers to frames. The two
queries read this map and nothing else. vmm_free_page removes one page from
it; vmm_alloc_page adds one page to it, or leaves it as it was and says so.
The frame counter moves exactly when the page has a table and no frame.
-/

namespace EronKernel.VmmSteps

open ByteMemory BlockList HeapModel HeapLayout HeapRuns WordTable VmmModel VmmTables

/-- The number of an address's page. -/
def pageOf (virt : Word) : ℕ := virt.toNat/4096

/-- The frame of a page, if it has one. -/
def frameOf (s : Vmm) (page : ℕ) : Option Word :=
  let pte := pteWord s (page/1024) (page%1024)
  if pte&&&pgPresent=0 then none else some (pte&&&pageMask)

/-- A page number is the two indices. -/
theorem pageOf_indices (virt : Word) : pageOf virt/1024=pdeIdx virt ∧ pageOf virt%1024=pteIdx virt := by
  rw [pdeIdx_eq,pteIdx_eq]
  unfold pageOf
  exact ⟨by omega,by omega⟩

/-- A user address lies in a user page. -/
theorem pageOf_lt {virt : Word} (hv : virt.toNat<0xC0000000) : pageOf virt<0xC0000 := by
  unfold pageOf
  omega

/-- The frame of an address's page is read at its two indices. -/
theorem frameOf_pageOf (s : Vmm) (virt : Word) :
    frameOf s (pageOf virt)=if pteWord s (pdeIdx virt) (pteIdx virt)&&&pgPresent=0 then none
      else some (pteWord s (pdeIdx virt) (pteIdx virt)&&&pageMask) := by
  unfold frameOf
  rw [(pageOf_indices virt).1,(pageOf_indices virt).2]

/-- vmm_is_mapped tells whether the page has a frame. -/
theorem vmmIsMapped_eq (s : Vmm) (virt : Word) :
    vmmIsMapped s virt=if (frameOf s (pageOf virt)).isSome then 1 else 0 := by
  rw [frameOf_pageOf]
  unfold vmmIsMapped pteWord
  by_cases hp : pde s (pdeIdx virt)=0
  · rw [if_pos hp,if_pos hp]
    rfl
  · rw [if_neg hp,if_neg hp]
    by_cases hpte : wordAt s.mem (tableOf s (pdeIdx virt)) (pteIdx virt)&&&pgPresent=0
    · rw [if_neg (not_not.mpr hpte),if_pos hpte]
      rfl
    · rw [if_pos hpte,if_neg hpte]
      rfl

/-- vmm_get_phys_from_virt gives the place in the page's frame. -/
theorem vmmGetPhysFromVirt_eq (s : Vmm) (virt : Word) :
    vmmGetPhysFromVirt s virt=
      (frameOf s (pageOf virt)).elim 0 fun frame => frame|||(virt&&&~~~pageMask) := by
  rw [frameOf_pageOf]
  unfold vmmGetPhysFromVirt pteWord
  by_cases hp : pde s (pdeIdx virt)=0
  · rw [if_pos hp,if_pos hp]
    rfl
  · rw [if_neg hp,if_neg hp]
    dsimp only
    split_ifs
    · rfl
    · rfl

/-- The tag of a frame is odd. -/
theorem frame_present {frame : Word} (hf : Aligned frame) : (frame|||7)&&&pgPresent≠0 := by
  intro hzero
  have hand : ((frame|||7)&&&pgPresent).toNat=(frame|||7).toNat%2 := by
    rw [BitVec.toNat_and]
    exact Nat.and_one_is_mod _
  rw [hzero,toNat_or_tag hf (by decide)] at hand
  unfold Aligned at hf
  have hseven : (7 : Word).toNat=7 := rfl
  have hnone : (0 : Word).toNat=0 := rfl
  omega

/-- The frame of a well-formed entry. -/
theorem entry_frame {s : Vmm} {page : ℕ} {frame : Word} (hf : Aligned frame)
    (he : pteWord s (page/1024) (page%1024)=frame|||7) : frameOf s page=some frame := by
  unfold frameOf
  dsimp only
  rw [he,if_neg (frame_present hf)]
  exact congrArg some (or_tag_and_addressMask hf (by decide))

/-- A zero entry has no frame. -/
theorem entry_none {s : Vmm} {page : ℕ} (he : pteWord s (page/1024) (page%1024)=0) :
    frameOf s page=none := by
  unfold frameOf
  dsimp only
  rw [he]
  rfl

/-- Equal entries have equal frames. -/
theorem frameOf_congr {s t : Vmm} {page : ℕ}
    (h : pteWord t (page/1024) (page%1024)=pteWord s (page/1024) (page%1024)) :
    frameOf t page=frameOf s page := by
  unfold frameOf
  rw [h]

/-- A user page has no frame, or a page address other than zero. -/
theorem frame_cases {bs : List Block} {s : Vmm} (h : VmmInv bs s) {page : ℕ} (hp : page<0xC0000) :
    (frameOf s page=none ∧ pteWord s (page/1024) (page%1024)=0) ∨
      ∃ frame,frameOf s page=some frame ∧ Aligned frame ∧ frame≠0 := by
  obtain hzero|⟨frame,hal,hne,he⟩ := h.pteWord_ok (by omega : page/1024<768) (by omega : page%1024<1024)
  · exact Or.inl ⟨entry_none hzero,hzero⟩
  · exact Or.inr ⟨frame,entry_frame hal he,hal,hne⟩

/-- The call can get a table: there is one, or kmalloc has room. -/
def TableAvailable (fuel : ℕ) (s : Vmm) (virt : Word) : Prop :=
  pde s (pdeIdx virt)≠0 ∨ ∃ h p,kmalloc fuel s.heap pageSize=some (h,p) ∧ p≠0

/-- A table that the call would make lies at a page address. -/
def AlignedTable (fuel : ℕ) (s : Vmm) (virt : Word) : Prop :=
  pde s (pdeIdx virt)=0→∀ h p,kmalloc fuel s.heap pageSize=some (h,p)→Aligned p

/-- The frame counter was advanced and nothing else of the pool changed, and
no table went away. -/
structure Advanced (s t : Vmm) (virt : Word) : Prop where
  /-- The pool begins at the same frame. -/
  physBase : t.physBase=s.physBase
  /-- The pool is as large. -/
  totalPages : t.totalPages=s.totalPages
  /-- The counter is a page further. -/
  nextFreePage : t.nextFreePage=s.nextFreePage+pageSize
  /-- The tables are still there. -/
  tables : ∀ i<768,pde s i≠0→pde t i≠0
  /-- The page has a table. -/
  table : pde t (pdeIdx virt)≠0

/-- The page is to be given a frame. -/
def TakesFrame (fuel : ℕ) (s : Vmm) (virt : Word) : Prop :=
  frameOf s (pageOf virt)=none ∧ TableAvailable fuel s virt

/-- The check of the frame that is next, on the counter after it was advanced. -/
def FrameUsable (s : Vmm) : Prop :=
  ¬(s.nextFreePage=0 ∨ s.physBase+s.totalPages*pageSize < s.nextFreePage+pageSize)

/-- What one call of vmm_alloc_page does. -/
inductive AllocStep (fuel : ℕ) (s : Vmm) (virt : Word) : Vmm→ℤ→Prop where
  /-- The page has a frame: nothing happens. -/
  | mapped (hm : frameOf s (pageOf virt)≠none) : AllocStep fuel s virt s 0
  /-- There is no room for a table: nothing happens. -/
  | noTable (hm : frameOf s (pageOf virt)=none) (ht : ¬TableAvailable fuel s virt) :
      AllocStep fuel s virt s (-1)
  /-- The frame is not usable: only the counter moved. -/
  | refused {t : Vmm} (ht : TakesFrame fuel s virt) (hu : ¬FrameUsable s) (ha : Advanced s t virt)
      (hsame : ∀ page<0xC0000,frameOf t page=frameOf s page) : AllocStep fuel s virt t (-1)
  /-- The page is given the frame that was next. -/
  | assigned {t : Vmm} (ht : TakesFrame fuel s virt) (hu : FrameUsable s) (ha : Advanced s t virt)
      (hset : ∀ page<0xC0000,frameOf t page=if page=pageOf virt then some s.nextFreePage
        else frameOf s page) : AllocStep fuel s virt t 0

/-- A call that takes no frame changes nothing; one that takes a frame advances
the counter. -/
theorem AllocStep.still_or_advanced {fuel : ℕ} {s t : Vmm} {virt : Word} {r : ℤ}
    (h : AllocStep fuel s virt t r) :
    (¬TakesFrame fuel s virt ∧ t=s) ∨ (TakesFrame fuel s virt ∧ Advanced s t virt) := by
  cases h with
  | mapped hm => exact Or.inl ⟨fun ht => hm ht.1,rfl⟩
  | noTable _ hno => exact Or.inl ⟨fun ht => hno ht.2,rfl⟩
  | refused ht _ ha => exact Or.inr ⟨ht,ha⟩
  | assigned ht _ ha => exact Or.inr ⟨ht,ha⟩

/-- A page that has a frame, or finds a table and a usable one, is mapped. -/
theorem AllocStep.result_eq_zero {fuel : ℕ} {s t : Vmm} {virt : Word} {r : ℤ}
    (h : AllocStep fuel s virt t r)
    (hserved : frameOf s (pageOf virt)=none→ TableAvailable fuel s virt ∧ FrameUsable s) : r=0 := by
  cases h with
  | mapped => rfl
  | noTable hnone hno => exact absurd (hserved hnone).1 hno
  | refused ht hno => exact absurd (hserved ht.1).2 hno
  | assigned => rfl

/-- A page without frame is not mapped when the next frame is not usable. -/
theorem AllocStep.result_eq_neg_one {fuel : ℕ} {s t : Vmm} {virt : Word} {r : ℤ}
    (h : AllocStep fuel s virt t r) (hnone : frameOf s (pageOf virt)=none) (hu : ¬FrameUsable s) :
    r=-1 := by
  cases h with
  | mapped hm => exact absurd hnone hm
  | noTable => rfl
  | refused => rfl
  | assigned _ hyes => exact absurd hyes hu

/-- An empty directory entry stays empty when kmalloc has no room. -/
theorem ensureTable_null {fuel : ℕ} {s : Vmm} {virt : Word} (hp : pde s (pdeIdx virt)=0)
    (hnull : kmalloc fuel s.heap pageSize=some (s.heap,0)) :
    ¬TableAvailable fuel s virt ∧ ensureTable fuel s (pdeIdx virt)=some (s,false) := by
  constructor
  · rintro (hc|⟨u,p,hrun,hpne⟩)
    · exact hc hp
    · rw [hnull] at hrun
      cases hrun
      exact hpne rfl
  · unfold ensureTable
    rw [if_neg (not_not.mpr hp),hnull]
    rfl

/-- A table that is there is used. -/
theorem ensureTable_there {fuel : ℕ} {s : Vmm} {i : ℕ} (hp : pde s i≠0) :
    ensureTable fuel s i=some (s,true) := by
  unfold ensureTable
  rw [if_pos hp]

/-- The first part of vmm_alloc_page has no room and changes nothing, or there
is a table afterwards and every table entry is as it was. -/
theorem ensureTable_cases {bs : List Block} {s : Vmm} (h : VmmInv bs s) {virt : Word}
    (hv : virt.toNat<0xC0000000) {fuel : ℕ} (hf : 2^32≤fuel) (hal : AlignedTable fuel s virt) :
    (¬TableAvailable fuel s virt ∧ ensureTable fuel s (pdeIdx virt)=some (s,false)) ∨
      (TableAvailable fuel s virt ∧ ∃ m cs u,ensureTable fuel s (pdeIdx virt)=some (u,true) ∧
        u={s with heap := m} ∧ VmmInv cs u ∧ pde u (pdeIdx virt)≠0 ∧
        (∀ i<768,pde s i≠0→pde u i≠0) ∧ (pde s (pdeIdx virt)≠0→ u=s) ∧
        ∀ i<768,∀ j<1024,pteWord u i j=pteWord s i j) := by
  by_cases hp : pde s (pdeIdx virt)=0
  · obtain hnull|⟨u,p,cs,hrun,hpne,hu,hres,hkeep⟩ := kmalloc_page h.represents hf
    · exact Or.inl (ensureTable_null hp hnull)
    · have hi := pdeIdx_lt hv
      have halp := hal hp u p hrun
      have hadded := h.tableAdded (by omega : pdeIdx virt<1024) hres hkeep
      refine Or.inr ⟨Or.inr ⟨u,p,hrun,hpne⟩,_,cs,_,ensureTable_made hp hrun hpne,rfl,
        h.newTable hi hu hres hkeep halp,hadded.kept hi (Or.inl rfl),
        fun k hk hpk => hadded.kept hk (Or.inr hpk),?_,hadded.pteWord_eq halp hp⟩
      exact fun hc => absurd hp hc
  · exact Or.inr ⟨Or.inl hp,s.heap,bs,s,ensureTable_there hp,rfl,h,hp,fun _ _ hk => hk,fun _ => rfl,
      fun _ _ _ _ => rfl⟩

/-- Setting the counter to a page address keeps the invariant. -/
theorem setNext_inv {bs : List Block} {s : Vmm} (h : VmmInv bs s) {w : Word} (hw : Aligned w) :
    VmmInv bs {s with nextFreePage := w} :=
  ⟨h.represents,h.pdirNe,h.pdir,h.tables,h.distinct,h.words,hw⟩

/-- The page behind a page address. -/
theorem aligned_add_pageSize {a : Word} (ha : Aligned a) : Aligned (a+pageSize) := by
  unfold Aligned at ha ⊢
  bv_omega

/-- The frames after one entry of a user page was written. -/
theorem frameOf_setEntry {s t : Vmm} {virt e : Word} (hv : virt.toNat<0xC0000000)
    (hset : ∀ k<768,∀ l<1024,pteWord t k l=
      if k=pdeIdx virt ∧ l=pteIdx virt then e else pteWord s k l) :
    pteWord t (pageOf virt/1024) (pageOf virt%1024)=e ∧
      ∀ page<0xC0000,page≠pageOf virt→frameOf t page=frameOf s page := by
  obtain ⟨hdiv,hmod⟩ := pageOf_indices virt
  constructor
  · rw [hdiv,hmod,hset _ (pdeIdx_lt hv) _ (pteIdx_lt virt),if_pos ⟨rfl,rfl⟩]
  · intro page hp hne
    apply frameOf_congr
    rw [hset _ (by omega) _ (by omega),if_neg]
    rintro ⟨hi,hj⟩
    omega

/-- The second part of vmm_alloc_page, once there is a table. -/
theorem mapPage_cases {bs : List Block} {s : Vmm} (h : VmmInv bs s) {virt : Word}
    (hv : virt.toNat<0xC0000000) (hp : pde s (pdeIdx virt)≠0) :
    (frameOf s (pageOf virt)≠none ∧ mapPage s (pdeIdx virt) (pteIdx virt)=(s,0)) ∨
      (frameOf s (pageOf virt)=none ∧ ∃ t r,mapPage s (pdeIdx virt) (pteIdx virt)=(t,r) ∧ VmmInv bs t ∧
        Advanced s t virt ∧
        ((¬FrameUsable s ∧ r=-1 ∧ ∀ page<0xC0000,frameOf t page=frameOf s page) ∨
          (FrameUsable s ∧ r=0 ∧ ∀ page<0xC0000,frameOf t page=
            if page=pageOf virt then some s.nextFreePage else frameOf s page))) := by
  obtain ⟨hdiv,hmod⟩ := pageOf_indices virt
  have hword : wordAt s.mem (tableOf s (pdeIdx virt)) (pteIdx virt)=
      pteWord s (pdeIdx virt) (pteIdx virt) := by
    unfold pteWord
    rw [if_neg hp]
  unfold mapPage
  dsimp only
  rw [hword]
  by_cases hpresent : pteWord s (pdeIdx virt) (pteIdx virt)&&&pgPresent=0
  · rw [if_neg (not_not.mpr hpresent)]
    have hnone : frameOf s (pageOf virt)=none := by rw [frameOf_pageOf,if_pos hpresent]
    refine Or.inr ⟨hnone,?_⟩
    have hu' : FrameUsable s ↔ ¬(s.nextFreePage=0 ∨
        s.physBase+s.totalPages*pageSize < s.nextFreePage+pageSize) := Iff.rfl
    have hw := aligned_add_pageSize h.next
    generalize hnext : s.nextFreePage+pageSize=w at hu' hw ⊢
    have hadv := setNext_inv h hw
    by_cases hu : FrameUsable s
    · rw [hu'] at hu
      have hne : s.nextFreePage≠0 := fun hc => hu (Or.inl hc)
      have hok : EntryOk (s.nextFreePage|||7) := Or.inr ⟨_,h.next,hne,rfl⟩
      obtain ⟨hinv,hpde,hset⟩ := hadv.setEntry (pdeIdx_lt hv) hp (pteIdx_lt virt) hok
      obtain ⟨hnew,hold⟩ := frameOf_setEntry hv hset
      rw [if_neg hu,userTag]
      refine ⟨_,_,rfl,hinv,⟨rfl,rfl,hnext.symm,?_,?_⟩,Or.inr ⟨hu'.mpr hu,rfl,?_⟩⟩
      · exact fun i hi hk hc => hk ((hpde i hi).symm.trans hc)
      · exact fun hc => hp ((hpde _ (pdeIdx_lt hv)).symm.trans hc)
      · intro page hpage
        by_cases heq : page=pageOf virt
        · rw [if_pos heq,heq]
          exact entry_frame h.next hnew
        · rw [if_neg heq]
          exact hold page hpage heq
    · have hno := not_not.mp (hu'.not.mp hu)
      rw [if_pos hno]
      exact ⟨_,_,rfl,hadv,⟨rfl,rfl,hnext.symm,fun _ _ hk => hk,hp⟩,Or.inl ⟨hu,rfl,fun _ _ => rfl⟩⟩
  · rw [if_pos hpresent]
    refine Or.inl ⟨?_,rfl⟩
    rw [frameOf_pageOf,if_neg hpresent]
    exact Option.some_ne_none _

/-- vmm_alloc_page returns, keeps the invariant and makes one of its steps. -/
theorem vmmAllocPage_step {bs : List Block} {s : Vmm} (h : VmmInv bs s) {virt : Word}
    (hv : virt.toNat<0xC0000000) {fuel : ℕ} (hf : 2^32≤fuel) (hal : AlignedTable fuel s virt) :
    ∃ t r cs,vmmAllocPage fuel s virt=some (t,r) ∧ VmmInv cs t ∧ AllocStep fuel s virt t r := by
  obtain ⟨hdiv,hmod⟩ := pageOf_indices virt
  unfold vmmAllocPage
  rw [if_neg h.pdirNe]
  obtain ⟨hnone,hrun⟩|⟨hsome,m,cs,u,hrun,hu,hinv,hne,hkept,hback,hsame⟩ := ensureTable_cases h hv hf hal
  · have hzero : pde s (pdeIdx virt)=0 := not_not.mp fun hc => hnone (Or.inl hc)
    have hframe : frameOf s (pageOf virt)=none := by
      rw [frameOf_pageOf]
      unfold pteWord
      rw [if_pos hzero]
      rfl
    rw [hrun]
    exact ⟨s,-1,bs,rfl,h,AllocStep.noTable hframe hnone⟩
  · have hframes : ∀ page<0xC0000,frameOf u page=frameOf s page := fun page hpage =>
      frameOf_congr (hsame _ (by omega) _ (by omega))
    have hsamePage := hframes _ (pageOf_lt hv)
    rw [hrun,Option.map_some]
    dsimp only
    rw [if_pos rfl]
    obtain ⟨hmapped,hmap⟩|⟨hfree,t,r,hmap,hinv',hadv,hcases⟩ := mapPage_cases hinv hv hne
    · have hthere : pde s (pdeIdx virt)≠0 := by
        intro hc
        rw [hsamePage,frameOf_pageOf] at hmapped
        unfold pteWord at hmapped
        rw [if_pos hc] at hmapped
        exact hmapped rfl
      rw [hmap,hback hthere]
      rw [hback hthere] at hinv
      exact ⟨s,0,cs,rfl,hinv,AllocStep.mapped (hsamePage ▸ hmapped)⟩
    · have htakes : TakesFrame fuel s virt := ⟨hsamePage ▸ hfree,hsome⟩
      have hadv' : Advanced s t virt := by
        refine ⟨hadv.physBase.trans ?_,hadv.totalPages.trans ?_,hadv.nextFreePage.trans ?_,?_,hadv.table⟩
        · rw [hu]
        · rw [hu]
        · rw [hu]
        · exact fun i hi hk => hadv.tables i hi (hkept i hi hk)
      have husable : FrameUsable u ↔ FrameUsable s := by
        unfold FrameUsable
        rw [hu]
      rw [hmap]
      obtain ⟨hno,rfl,hframes'⟩|⟨hyes,rfl,hframes'⟩ := hcases
      · refine ⟨t,-1,cs,rfl,hinv',AllocStep.refused htakes (husable.not.mp hno) hadv' ?_⟩
        intro page hpage
        rw [hframes' page hpage,hframes page hpage]
      · refine ⟨t,0,cs,rfl,hinv',AllocStep.assigned htakes (husable.mp hyes) hadv' ?_⟩
        intro page hpage
        rw [hframes' page hpage,hframes page hpage,hu]

/-- What one call of vmm_free_page does. -/
structure FreeStep (s : Vmm) (virt : Word) (t : Vmm) : Prop where
  /-- The pool begins at the same frame. -/
  physBase : t.physBase=s.physBase
  /-- The pool is as large. -/
  totalPages : t.totalPages=s.totalPages
  /-- The counter did not move. -/
  nextFreePage : t.nextFreePage=s.nextFreePage
  /-- The tables are the same. -/
  tables : ∀ i<768,pde t i=pde s i
  /-- The page has no frame and no other page changed. -/
  frames : ∀ page<0xC0000,frameOf t page=if page=pageOf virt then none else frameOf s page

/-- vmm_free_page keeps the invariant and takes the page out of the map. -/
theorem vmmFreePage_step {bs : List Block} {s : Vmm} (h : VmmInv bs s) {virt : Word}
    (hv : virt.toNat<0xC0000000) :
    VmmInv bs (vmmFreePage s virt) ∧ FreeStep s virt (vmmFreePage s virt) := by
  by_cases hp : pde s (pdeIdx virt)=0
  · have ht : vmmFreePage s virt=s := by
      unfold vmmFreePage
      rw [if_neg h.pdirNe,if_pos hp]
    rw [ht]
    refine ⟨h,rfl,rfl,rfl,fun _ _ => rfl,?_⟩
    intro page _
    by_cases heq : page=pageOf virt
    · rw [if_pos heq,heq,frameOf_pageOf]
      unfold pteWord
      rw [if_pos hp]
      rfl
    · rw [if_neg heq]
  · have ht : vmmFreePage s virt=
        s.setMem (setWord s.mem (tableOf s (pdeIdx virt)) (pteIdx virt) 0) := by
      unfold vmmFreePage
      rw [if_neg h.pdirNe,if_neg hp]
    obtain ⟨hinv,hpde,hset⟩ := h.setEntry (pdeIdx_lt hv) hp (pteIdx_lt virt) (Or.inl rfl)
    obtain ⟨hnew,hold⟩ := frameOf_setEntry hv hset
    rw [ht]
    refine ⟨hinv,rfl,rfl,rfl,hpde,?_⟩
    intro page hpage
    by_cases heq : page=pageOf virt
    · rw [if_pos heq,heq]
      exact entry_none hnew
    · rw [if_neg heq]
      exact hold page hpage heq

end EronKernel.VmmSteps

import EronKernel.PageWalk
import EronKernel.VmmKernel
import EronKernel.VmmRefinement

/-!
# What the processor translates and what virtual_mm.c says

The directory that vmm_init builds is entered into the control register by
vmm_switch_pdir. At that moment, whatever pages were mapped and unmapped before,
the processor and the two queries agree on every user address: an access goes
where vmm_get_phys_from_virt says, or faults where vmm_is_mapped says no. User
code reaches no address of the kernel's part, although the entries there do not
lead to the tables that they were meant for. The load drops every translation
that the processor has kept; vmm_free_page does not, so about pages that are
unmapped while the directory is loaded nothing is said.
-/

namespace EronKernel.MmuRefinement

open ByteMemory BlockList HeapModel HeapLayout HeapRuns HeapFirstFit HeapIntegrity WordTable PageWalk VmmModel VmmTables
  VmmSteps VmmRuns VmmKernel VmmRefinement

/-- The statics of virtual_mm.c and the control register. -/
structure Mmu where
  /-- The statics, the heap and the memory. -/
  vmm : Vmm
  /-- Register cr3. -/
  cr3 : Word

/-- vmm_switch_pdir. -/
def vmmSwitchPdir (c : Mmu) (pdir : Word) : Mmu := ⟨{c.vmm with currentPdir := pdir},pdir⟩

/-- vmm_get_current_pdir. -/
def vmmGetCurrentPdir (c : Mmu) : Word := c.vmm.currentPdir

/-- What an access to an address reaches when the control register was just loaded,
so that the processor keeps no earlier translation. -/
def Mmu.access (c : Mmu) (a : Access) (virt : Word) : Option Word := translate c.vmm.mem c.cr3 a virt

/-- The entries of the directory and its place. -/
structure Tagged (s : Vmm) : Prop where
  /-- The directory lies at a page address. -/
  pdir : Aligned s.currentPdir
  /-- An entry of the user's part is absent, or a page address that permits
  everything. -/
  user : ∀ i<768,pde s i=0 ∨ ∃ p,Aligned p ∧ pde s i=p|||7
  /-- An entry of the kernel's part is a page address that permits user code
  nothing. -/
  kernel : ∀ i,768 ≤ i → i < 1024 → ∃ p,Aligned p ∧ pde s i=p|||3

/-- A state with the same directory. -/
theorem Tagged.congr {s t : Vmm} (h : Tagged s) (hpdir : t.currentPdir=s.currentPdir)
    (hpde : ∀ i<1024,pde t i=pde s i) : Tagged t where
  pdir := by
    rw [hpdir]
    exact h.pdir
  user := by
    intro i hi
    rw [hpde i (by omega)]
    exact h.user i hi
  kernel := by
    intro i hlo hhi
    rw [hpde i hhi]
    exact h.kernel i hlo hhi

/-- The directory of vmm_init is tagged when it lies at a page address. -/
theorem tagged_vmmInit {fuel : ℕ} {h : Heap} {kernelEnd : Word} {s : Vmm}
    (hinit : vmmInit fuel h kernelEnd=some s) (hpdir : Aligned s.currentPdir)
    (hnone : ∀ i<768,pde s i=0) : Tagged s where
  pdir := hpdir
  user := fun i hi => Or.inl (hnone i hi)
  kernel := by
    intro i hlo hhi
    unfold vmmInit at hinit
    dsimp only at hinit
    obtain ⟨⟨u,p⟩,_,rfl⟩ := Option.map_eq_some_iff.mp hinit
    have hmem : i∈List.range' 768 256 := List.mem_range'_1.mpr ⟨hlo,hhi⟩
    have hall : ∀ k∈List.range' 768 256,k<1024 := fun k hk => (List.mem_range'_1.mp hk).2
    refine ⟨lastFrame i,lastFrame_aligned i,?_⟩
    unfold pde
    dsimp only [Vmm.mem]
    rw [wordAt_kernelEntries _ _ hhi _ hall hmem,BitVec.or_assoc]
    rfl

/-- The directory is what kmalloc returned. -/
theorem currentPdir_vmmInit {fuel : ℕ} {h t : Heap} {p kernelEnd : Word} {s : Vmm}
    (hrun : kmalloc fuel h pageSize=some (t,p)) (hp : p≠0) (hinit : vmmInit fuel h kernelEnd=some s) :
    s.currentPdir=p := by
  unfold vmmInit at hinit
  rw [hrun,Option.map_some] at hinit
  rw [←Option.some.inj hinit]
  exact if_neg hp

/-- Clearing the tag of a page address changes nothing. -/
theorem aligned_and_addressMask {p : Word} (hp : Aligned p) : p&&&addressMask=p := by
  apply BitVec.eq_of_toNat_eq
  unfold Aligned at hp
  rw [toNat_and_addressMask]
  omega

/-- Writing an entry of a table leaves the whole directory alone. -/
theorem pde_setTable {bs : List Block} {s t : Vmm} (h : VmmInv bs s) {i j : ℕ} (hi : i<768) (hp : pde s i≠0)
    (hj : j<1024) (e : Word) (hpdir : t.currentPdir=s.currentPdir)
    (hmem : t.heap.mem=setWord s.mem (tableOf s i) j e) {k : ℕ} (hk : k<1024) : pde t k=pde s k := by
  obtain ⟨hres,hapart⟩ := h.tables i hi hp
  unfold pde
  rw [hpdir,Vmm.mem,hmem]
  exact wordAt_setWord_of_apart e hres.fits h.pdir.fits hj hk hapart

/-- The directory after a table was entered. -/
theorem pde_withTable {bs cs : List Block} {s : Vmm} (h : VmmInv bs s) {i : ℕ} (hi : i<1024) {u : Heap}
    {p : Word} (hres : Reserved u cs p) (hkeep : KeepsPages s.heap bs u cs p) {k : ℕ} (hk : k<1024) :
    pde (withTable s u p i) k=if k=i then p|||7 else pde s k := by
  obtain ⟨hdir,hpd,hdmem⟩ := hkeep _ h.pdir
  have hone := pde_tableMem (m := u.mem) hres.fits hdir.fits hi hk hpd
  rw [wordAt_congr hdir.fits hk hdmem] at hone
  exact hone

/-- The first part of vmm_alloc_page keeps the directory tagged. -/
theorem ensureTable_tagged {bs : List Block} {s u : Vmm} (h : VmmInv bs s) (ht : Tagged s) {virt : Word}
    (hv : virt.toNat<0xC0000000) {fuel : ℕ} (hf : 2^32≤fuel) (hal : AlignedTable fuel s virt) {there : Bool}
    (hrun : ensureTable fuel s (pdeIdx virt)=some (u,there)) : Tagged u := by
  by_cases hp : pde s (pdeIdx virt)=0
  · obtain hnull|⟨v,p,cs,hkmalloc,hpne,_,hres,hkeep⟩ := kmalloc_page h.represents hf
    · rw [(ensureTable_null hp hnull).2] at hrun
      cases hrun
      exact ht
    · rw [ensureTable_made hp hkmalloc hpne] at hrun
      cases hrun
      have hi := pdeIdx_lt hv
      have hpde := fun {k : ℕ} (hk : k<1024) =>
        pde_withTable h (by omega : pdeIdx virt<1024) hres hkeep hk
      refine ⟨ht.pdir,fun k hk => ?_,fun k hlo hhi => ?_⟩
      · rw [hpde (by omega)]
        split_ifs
        · exact Or.inr ⟨p,hal hp v p hkmalloc,rfl⟩
        · exact ht.user k hk
      · rw [hpde hhi,if_neg (by omega)]
        exact ht.kernel k hlo hhi
  · rw [ensureTable_there hp] at hrun
    cases hrun
    exact ht

/-- The second part keeps the directory. -/
theorem mapPage_pde {bs : List Block} {s : Vmm} (h : VmmInv bs s) {i j : ℕ} (hi : i<768) (hp : pde s i≠0)
    (hj : j<1024) : (mapPage s i j).1.currentPdir=s.currentPdir ∧
      ∀ k<1024,pde (mapPage s i j).1 k=pde s k := by
  unfold mapPage
  dsimp only
  split_ifs
  · exact ⟨rfl,fun _ _ => rfl⟩
  · constructor
    · rfl
    · intro k _
      unfold pde Vmm.mem
      rfl
  · constructor
    · rfl
    · intro k hk
      refine pde_setTable h hi hp hj (s.nextFreePage|||pgPresent|||pgWritable|||pgUser) ?_ ?_ hk
      · unfold Vmm.setMem
        rfl
      · unfold Vmm.setMem Vmm.mem
        rfl

/-- vmm_alloc_page keeps the directory tagged. -/
theorem vmmAllocPage_tagged {bs : List Block} {s t : Vmm} (h : VmmInv bs s) (ht : Tagged s) {virt : Word}
    (hv : virt.toNat<0xC0000000) {fuel : ℕ} (hf : 2^32≤fuel) (hal : AlignedTable fuel s virt) {r : ℤ}
    (hrun : vmmAllocPage fuel s virt=some (t,r)) : Tagged t := by
  unfold vmmAllocPage at hrun
  rw [if_neg h.pdirNe] at hrun
  obtain ⟨_,hensure⟩|⟨_,m,cs,u,hensure,_,hu,hne,_⟩ := ensureTable_cases h hv hf hal
  · rw [hensure] at hrun
    cases hrun
    exact ht
  · have htu := ensureTable_tagged h ht hv hf hal hensure
    obtain ⟨hpdir,hpde⟩ := mapPage_pde hu (pdeIdx_lt hv) hne (pteIdx_lt virt)
    rw [hensure,Option.map_some] at hrun
    dsimp only at hrun
    rw [if_pos rfl] at hrun
    have hpair := Option.some.inj hrun
    rw [hpair] at hpdir hpde
    exact htu.congr hpdir hpde

/-- vmm_free_page keeps it tagged. -/
theorem vmmFreePage_tagged {bs : List Block} {s : Vmm} (h : VmmInv bs s) (ht : Tagged s) {virt : Word}
    (hv : virt.toNat<0xC0000000) : Tagged (vmmFreePage s virt) := by
  unfold vmmFreePage
  split_ifs with _ hp
  · exact ht
  · exact ht
  · refine ht.congr rfl fun k hk => pde_setTable h (pdeIdx_lt hv) hp (pteIdx_lt virt) 0 ?_ ?_ hk
    · rfl
    · rfl

/-- The loop of vmm_map_user_pages keeps it tagged. -/
theorem allocEvents_tagged (addrs : List Word) {fuel : ℕ} (hf : 2^32≤fuel) :
    ∀ {s t : Vmm} {es : List Event},(∃ bs,VmmInv bs s)→Tagged s→
      (∀ addr∈addrs,addr.toNat<0xC0000000)→AlignedPages fuel s addrs→
      allocEvents fuel s addrs=some (es,t)→Tagged t := by
  induction addrs with
  | nil =>
    intro s t es _ ht _ _ hrun
    cases hrun
    exact ht
  | cons addr addrs ih =>
    intro s t es hinv ht hu hal hrun
    obtain ⟨bs,h⟩ := hinv
    have hv := hu addr List.mem_cons_self
    obtain ⟨u,r,hone,hok⟩ := allocPage_recorded h hv hf hal.1
    have htu := vmmAllocPage_tagged h ht hv hf hal.1 hone
    unfold allocEvents at hrun
    rw [hone,Option.bind_some] at hrun
    dsimp only at hrun
    by_cases hr : r=0
    · subst hr
      rw [if_neg (not_not.mpr rfl)] at hrun
      obtain ⟨⟨ds,w⟩,hrest,heq⟩ := Option.map_eq_some_iff.mp hrun
      cases heq
      exact ih hok.after htu (fun a ha => hu a (List.mem_cons_of_mem addr ha)) (hal.2 u hone) hrest
    · rw [if_pos hr] at hrun
      cases hrun
      exact htu

/-- A call keeps it tagged. -/
theorem runOp_tagged {s t : Vmm} (h : ∃ bs,VmmInv bs s) (ht : Tagged s) {op : VmmOp} (hu : op.OnUser)
    {fuel : ℕ} (hf : 2^32≤fuel) (hal : AlignedOp fuel s op) {es : List Event}
    (hrun : runOp fuel s op=some (es,t)) : Tagged t := by
  cases op with
  | allocPage virt =>
    obtain ⟨bs,h⟩ := h
    obtain ⟨⟨u,r⟩,hone,heq⟩ := Option.map_eq_some_iff.mp hrun
    cases heq
    exact vmmAllocPage_tagged h ht hu hf hal hone
  | freePage virt =>
    obtain ⟨bs,h⟩ := h
    cases hrun
    exact vmmFreePage_tagged h ht hu
  | mapUserPages virt count => exact allocEvents_tagged _ hf h ht hu hal hrun

/-- A run keeps it tagged. -/
theorem runOps_tagged (ops : List VmmOp) {fuel : ℕ} (hf : 2^32≤fuel) :
    ∀ {s t : Vmm} {es : List Event},(∃ bs,VmmInv bs s)→Tagged s→(∀ op∈ops,op.OnUser)→
      AlignedRun fuel s ops→ runOps fuel s ops=some (es,t)→Tagged t := by
  induction ops with
  | nil =>
    intro s t es _ ht _ _ hrun
    cases hrun
    exact ht
  | cons op ops ih =>
    intro s t es h ht hu hal hrun
    have hop := hu op List.mem_cons_self
    obtain ⟨ds,u,hone,hrec⟩ := runOp_recorded h hop hf hal.1
    have htu := runOp_tagged h ht hop hf hal.1 hone
    unfold runOps at hrun
    rw [hone,Option.bind_some] at hrun
    dsimp only at hrun
    obtain ⟨⟨fs,w⟩,hrest,heq⟩ := Option.map_eq_some_iff.mp hrun
    cases heq
    exact ih hrec.inv htu (fun o ho => hu o (List.mem_cons_of_mem op ho)) (hal.2 ds u hone) hrest

/-- What the processor does with the accesses of a state whose directory is in
the control register. -/
structure Agrees (c : Mmu) : Prop where
  /-- Every access to a mapped user address goes where the query says. -/
  mapped : ∀ a virt,virt.toNat<0xC0000000→vmmIsMapped c.vmm virt=1→
    c.access a virt=some (vmmGetPhysFromVirt c.vmm virt)
  /-- Every access to another user address faults. -/
  unmapped : ∀ a virt,virt.toNat<0xC0000000→vmmIsMapped c.vmm virt≠1→ c.access a virt=none
  /-- Every access of user code to a kernel address faults. -/
  kernel : ∀ a virt,a.user=true→0xC0000000 ≤ virt.toNat→ c.access a virt=none

/-- The processor agrees with the queries on a tagged directory. -/
theorem agrees_of_tagged {bs : List Block} {s : Vmm} (h : VmmInv bs s) (ht : Tagged s) (cr3 : Word) :
    Agrees (vmmSwitchPdir ⟨s,cr3⟩ (vmmGetCurrentPdir ⟨s,cr3⟩)) := by
  have hdir : ∀ virt : Word,wordAt s.mem (s.currentPdir&&&addressMask) (virt.toNat/4194304)=
      pde s (pdeIdx virt) := by
    intro virt
    rw [aligned_and_addressMask ht.pdir,pdeIdx_eq]
    rfl
  have haccess : ∀ (a : Access) {virt : Word},virt.toNat<0xC0000000→
      translate s.mem s.currentPdir a virt=
        (frameOf s (pageOf virt)).map fun frame => frame|||(virt&&&tagMask) := by
    intro a virt hv
    obtain hzero|⟨p,hp,hpde⟩ := ht.user _ (pdeIdx_lt hv)
    · have hnone : frameOf s (pageOf virt)=none := by
        rw [frameOf_pageOf]
        unfold pteWord
        rw [if_pos hzero]
        rfl
      rw [hnone]
      apply translate_denied
      rw [hdir,hzero]
      exact permits_zero a
    · have hne : pde s (pdeIdx virt)≠0 := by
        rw [hpde]
        exact or_seven_ne_zero p
      have hword : wordAt s.mem p (virt.toNat/4096%1024)=pteWord s (pdeIdx virt) (pteIdx virt) := by
        unfold pteWord
        rw [if_neg hne,tableOf_tagged hpde hp,pteIdx_eq]
      rw [translate_table hp ((hdir virt).trans hpde) a,hword]
      obtain hzero|⟨frame,hal,_,hpte⟩ := h.pteWord_ok (pdeIdx_lt hv) (pteIdx_lt virt)
      · rw [frameOf_pageOf,hzero,permits_zero]
        rfl
      · obtain ⟨hdiv,hmod⟩ := pageOf_indices virt
        rw [hpte,permits_tagged,if_pos rfl,or_tag_and_addressMask hal (by decide),
          entry_frame hal (by rw [hdiv,hmod,hpte])]
        rfl
  refine ⟨fun a virt hv hmapped => ?_,fun a virt hv hmapped => ?_,fun a virt hu hv => ?_⟩
  · obtain ⟨frame,hframe⟩ := Option.ne_none_iff_exists'.mp ((vmmIsMapped_eq_one_iff s virt).mp hmapped)
    have hphys : vmmGetPhysFromVirt s virt=frame|||(virt&&&tagMask) := by
      rw [vmmGetPhysFromVirt_eq,hframe]
      rfl
    refine (haccess a hv).trans ?_
    rw [hframe,Option.map_some]
    exact congrArg some hphys.symm
  · have hnone : frameOf s (pageOf virt)=none :=
      not_not.mp fun hc => hmapped ((vmmIsMapped_eq_one_iff s virt).mpr hc)
    refine (haccess a hv).trans ?_
    rw [hnone]
    rfl
  · obtain ⟨p,hp,hpde⟩ := ht.kernel (pdeIdx virt) (by rw [pdeIdx_eq]; omega)
      (by rw [pdeIdx_eq]; have := virt.isLt; omega)
    refine translate_denied ?_
    have hentry := (hdir virt).trans hpde
    exact (congrArg (permits a) hentry).trans (permits_supervisor hu hp)

/-- After mm_init, any run of the allocator and vmm_init with its directory at
a page address, and any run of the virtual memory calls on user addresses whose
tables lie at page addresses, the processor agrees with the queries at the
moment at which the current directory is switched to. -/
theorem mmu_agrees_with_queries {start size : Word} (hsize : 12 ≤ size.toNat)
    (hfit : (align8 start).toNat+size.toNat<2^32) {st : Session} (hr : Reachable start size st)
    {kernelEnd : Word} (hout : st.heap.heapEnd.toNat≤(alignUp kernelEnd 4096).toNat) {fuel : ℕ}
    (hf : 2^32≤fuel) {s : Vmm} (hinit : vmmInit fuel st.heap kernelEnd=some s)
    (hpdir : Aligned s.currentPdir) {ops : List VmmOp} (hu : ∀ op∈ops,op.OnUser)
    (hal : AlignedRun fuel s ops) (cr3 : Word) :
    ∃ es t,runOps fuel s ops=some (es,t) ∧
      Agrees (vmmSwitchPdir ⟨t,cr3⟩ (vmmGetCurrentPdir ⟨t,cr3⟩)) := by
  obtain ⟨s',cs,hinit',hbooted,hruns⟩ := booted_recorded hsize hfit hr hout hf
  rw [hinit] at hinit'
  cases hinit'
  obtain ⟨es,t,hrun,hrec⟩ := hruns ops hu hal
  have htagged := runOps_tagged ops hf ⟨cs,hbooted.inv⟩
    (tagged_vmmInit hinit hpdir hbooted.noTables) hu hal hrun
  obtain ⟨ds,hinv⟩ := hrec.inv
  exact ⟨es,t,hrun,agrees_of_tagged hinv htagged cr3⟩

/-- The calls that leave a hole for the directory between two blocks. -/
def holeCalls : List HeapCall := [.kmalloc 4072,.kmalloc 4096,.kmalloc 4072,.kfree 0x101000]

/-- The blocks that they leave. -/
def holeBlocks : List Block := [⟨4072,true⟩,⟨4096,false⟩,⟨4072,true⟩,⟨1036288,false⟩]

/-- Calls that succeed one after the other reach a state. -/
theorem reachable_performAll {start size : Word} {fuel : ℕ} (calls : List HeapCall) :
    ∀ {st next : Session},Reachable start size st→performAll fuel st calls=some next→
      Reachable start size next := by
  induction calls with
  | nil =>
    intro st next hr hrun
    cases hrun
    exact hr
  | cons c calls ih =>
    intro st next hr hrun
    unfold performAll at hrun
    rw [List.foldlM_cons] at hrun
    obtain ⟨mid,hone,hrest⟩ := Option.bind_eq_some_iff.mp hrun
    exact ih (hr.call fuel c hone) hrest

/-- The one-megabyte heap with the hole. -/
theorem holeHeap :
    ∃ next,performAll 8 megabyteHeap holeCalls=some next ∧ Represents next.heap holeBlocks ∧
      next.heap.heapStart=0x100000 ∧ next.heap.heapEnd=0x200000 := by
  obtain ⟨next,hrun,hstart,hend,hheaders⟩ : ∃ next,performAll 8 megabyteHeap holeCalls=some next ∧
      next.heap.heapStart=0x100000 ∧ next.heap.heapEnd=0x200000 ∧
      ∀ p∈placed 12 0x100000 holeBlocks,
        (hdrSize next.heap.mem (BitVec.ofNat 32 p.1)).toNat=p.2.size ∧
          hdrMagic next.heap.mem (BitVec.ofNat 32 p.1)=blockMagic ∧
          hdrUsed next.heap.mem (BitVec.ofNat 32 p.1)=if p.2.used then blockUsed else blockFree :=
    ⟨_,rfl,by decide +kernel,by decide +kernel,by decide +kernel⟩
  refine ⟨next,hrun,⟨List.cons_ne_nil _ _,?_,?_⟩,hstart,hend⟩
  · rw [hstart,hend]
    rfl
  · intro p hp
    rw [hstart] at hp
    obtain ⟨hhdr,hmagic,hused⟩ := hheaders p hp
    exact ⟨hhdr,hmagic,hused⟩

/-- kmalloc of a page takes the block behind blocks that do not fit. -/
theorem kmalloc_page_behind {h : Heap} {l r : List Block} {sz : ℕ}
    (hs : Represents h (l++⟨sz,false⟩::r)) (hl : ∀ b∈l,¬BlockList.Fits 4096 b) (hlarge : 4096 ≤ sz)
    {fuel : ℕ} (hf : 2^32≤fuel) :
    ∃ t p,kmalloc fuel h pageSize=some (t,p) ∧ p≠0 ∧ TakesBlock h t l r sz 4096 p := by
  have hround : (align8 pageSize).toNat=4096 := by decide
  obtain ⟨_,hnone⟩|⟨t,p,l',sz',r',hrun,hp,hsplit,hw,hl',htakes⟩ := kmalloc_on_chain hs
      (by decide : pageSize≠0) hf
  · have hno := hnone ⟨sz,false⟩ (List.mem_append_right l List.mem_cons_self)
    rw [hround] at hno
    exact absurd ⟨rfl,hlarge⟩ hno
  · rw [hround] at hw hl' htakes
    obtain ⟨rfl,hb,rfl⟩ := split_unique hl ⟨rfl,hlarge⟩ hl' ⟨rfl,hw⟩ hsplit
    cases hb
    exact ⟨t,p,hrun,hp,htakes⟩

/-- On the heap with the hole vmm_init takes the hole for its directory, and
the first table lies at a page address. -/
theorem holeHeap_boots {h : Heap} (hs : Represents h holeBlocks) (hstart : h.heapStart=0x100000)
    {fuel : ℕ} (hf : 2^32≤fuel) (kernelEnd virt : Word) :
    ∃ s bs,vmmInit fuel h kernelEnd=some s ∧ VmmInv bs s ∧ Aligned s.currentPdir ∧
      AlignedTable fuel s virt := by
  obtain ⟨t,p,hrun,hp,htakes⟩ := kmalloc_page_behind (l := [⟨4072,true⟩])
    (r := [⟨4072,true⟩,⟨1036288,false⟩]) hs (by decide) (Nat.le_refl _) hf
  obtain ⟨hres,_⟩ := takesBlock_page (l := [⟨4072,true⟩]) hs (Nat.le_refl _) htakes
  obtain ⟨s,hinit,hbooted,hplace⟩ := vmmInit_room hrun hp htakes.chain hres kernelEnd
  have hchain := hbooted.inv.represents
  obtain ⟨u,q,hrun',_,htakes'⟩ := kmalloc_page_behind (l := [⟨4072,true⟩,⟨4096,true⟩,⟨4072,true⟩])
    (r := []) hchain (by decide) (by decide) hf
  have hptr := htakes.ptr
  have hptr' := htakes'.ptr
  rw [hplace,htakes.heapStart] at hptr'
  rw [hstart] at hptr hptr'
  refine ⟨s,_,hinit,hbooted.inv,?_,?_⟩
  · unfold Aligned
    rw [currentPdir_vmmInit hrun hp hinit,hptr]
    rfl
  · intro _ u' q' hrun''
    rw [hrun'] at hrun''
    cases hrun''
    unfold Aligned
    rw [hptr']
    rfl

/-- The processor agrees with the queries after a page of that heap's kernel
was mapped. -/
theorem holeHeap_agrees :
    ∃ st s es t,performAll 8 megabyteHeap holeCalls=some st ∧ vmmInit (2^32) st.heap 0x300000=some s ∧
      runOps (2^32) s [.allocPage 0x8000123]=some (es,t) ∧
        Agrees (vmmSwitchPdir ⟨t,0⟩ (vmmGetCurrentPdir ⟨t,0⟩)) := by
  obtain ⟨st,hrun,hs,hstart,hend⟩ := holeHeap
  obtain ⟨s,bs,hinit,hinv,hpdir,hal⟩ := holeHeap_boots hs hstart (Nat.le_refl (2^32)) 0x300000 0x8000123
  have hops : ∀ op∈[VmmOp.allocPage 0x8000123],op=.allocPage 0x8000123 ∨ op=.freePage 0x8000123 := by simp
  have huser : ∀ op∈[VmmOp.allocPage 0x8000123],op.OnUser := by simp [VmmOp.OnUser]
  have halr := alignedRun_onePage (by decide) (Nat.le_refl (2^32)) _ hops ⟨bs,hinv⟩ hal
  obtain ⟨es,t,hops,hagrees⟩ := mmu_agrees_with_queries (by decide) (by decide)
    (reachable_performAll holeCalls megabyteHeap_reachable hrun)
    (by rw [hend]; decide) (Nat.le_refl (2^32)) hinit hpdir huser halr 0
  exact ⟨st,s,es,t,hrun,hinit,hops,hagrees⟩

end EronKernel.MmuRefinement

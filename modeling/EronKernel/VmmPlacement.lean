import EronKernel.HeapIntegrity
import EronKernel.VmmTables

/-!
# Where vmm_alloc_page puts its tables

struct page_table is declared with page alignment, and the directory keeps of
a table's address only the page. kmalloc returns the address 12 bytes behind
the header of the first block that fits, wherever that is. The table is used
where kmalloc put it exactly when that address happens to be a page address;
otherwise the entries in use lie in front of the block that was returned.
-/

namespace EronKernel.VmmPlacement

open ByteMemory BlockList HeapModel HeapLayout HeapOps HeapRuns HeapFirstFit HeapIntegrity WordTable
open VmmModel VmmTables

/-- The access to each entry of the table lies in the payload of the block. -/
def InPayload (m : Mem) (p table : Word) : Prop :=
  ∀ j<1024,p.toNat≤table.toNat+4*j ∧ table.toNat+4*j+4≤p.toNat+(hdrSize m (p-headerSize)).toNat

/-- When the call makes a table at the pointer that kmalloc returned, it goes
on to use the table there, the entry has the tag of a user page, and the
table's entries lie in the block. -/
def TablePlaced (fuel : ℕ) (s : Vmm) (virt : Word) : Prop :=
  ∀ h p t,kmalloc fuel s.heap pageSize=some (h,p)→ p≠0→
    ensureTable fuel s (pdeIdx virt)=some (t,true)→
      tableOf t (pdeIdx virt)=p ∧
        pde t (pdeIdx virt)&&&tagMask=pgPresent|||pgWritable|||pgUser ∧
        InPayload h.mem p (tableOf t (pdeIdx virt))

/-- The first free block that holds a page has its payload at a page address. -/
def FirstFitAtPage (base : ℕ) (bs : List Block) : Prop :=
  ∀ q,firstFit 12 4096 base bs=some q→(q.1+12)%4096=0

/-- The first part of vmm_alloc_page is followed by the second in the state
that it leaves. -/
theorem vmmAllocPage_ensured {fuel : ℕ} {s t : Vmm} {virt : Word} (hp : s.currentPdir≠0)
    (h : ensureTable fuel s (pdeIdx virt)=some (t,true)) :
    vmmAllocPage fuel s virt=some (mapPage t (pdeIdx virt) (pteIdx virt)) := by
  unfold vmmAllocPage
  rw [if_neg hp,h]
  rfl

/-- The entry of a table that was just made is its tagged address. -/
theorem pde_ensureTable {fuel : ℕ} {s t : Vmm} {i : ℕ} (hempty : pde s i=0) {h : Heap} {p : Word}
    (hrun : kmalloc fuel s.heap pageSize=some (h,p)) (hp : p≠0)
    (ht : ensureTable fuel s i=some (t,true)) : pde t i=p|||7 := by
  rw [ensureTable_made hempty hrun hp] at ht
  cases ht
  exact wordAt_setWord_same _ _ _ _

/-- A tagged entry points to its table exactly when the table is at a page
address. -/
theorem tableOf_tagged_iff {t : Vmm} {i : ℕ} {p : Word} (hentry : pde t i=p|||7) :
    tableOf t i=p ↔ Aligned p := by
  constructor
  · intro htable
    rw [←htable]
    exact tableOf_aligned t i
  · exact tableOf_tagged hentry

/-- The first block that fits decides whether its payload is at a page
address. -/
theorem firstFitAtPage_iff {base : ℕ} {bs : List Block} {q : ℕ×Block}
    (hfirst : firstFit 12 4096 base bs=some q) : FirstFitAtPage base bs ↔ (q.1+12)%4096=0 := by
  constructor
  · exact fun hpage => hpage q hfirst
  · intro hq q' hfirst'
    obtain rfl := Option.some.inj (hfirst.symm.trans hfirst')
    exact hq

/-- On a chain the table is used where kmalloc put it exactly when the first
free block that holds a page has its payload at a page address. -/
theorem tablePlaced_iff {s : Vmm} {bs : List Block} (hs : Represents s.heap bs) {virt : Word}
    (hempty : pde s (pdeIdx virt)=0) {fuel : ℕ} (hf : 2^32≤fuel) :
    TablePlaced fuel s virt ↔ FirstFitAtPage s.heap.heapStart.toNat bs := by
  have hround : (align8 pageSize).toNat=4096 := by decide
  obtain ⟨hnull,hnone⟩|⟨h,p,l,sz,r,hrun,hp,rfl,hw,hl,htakes⟩ :=
    kmalloc_on_chain hs (by decide : pageSize≠0) hf
  · rw [hround] at hnone
    refine iff_of_true ?_ ?_
    · intro h p t hrun hp
      rw [hnull] at hrun
      cases hrun
      exact absurd rfl hp
    · intro q hq
      rw [firstFit_eq_none hnone] at hq
      cases hq
  · rw [hround] at hw hl htakes
    have hfirst : firstFit 12 4096 s.heap.heapStart.toNat (l++⟨sz,false⟩::r)=
        some (s.heap.heapStart.toNat+extent 12 l,⟨sz,false⟩) := firstFit_split hl ⟨rfl,hw⟩ _
    obtain ⟨t,hensured⟩ : ∃ t,ensureTable fuel s (pdeIdx virt)=some (t,true) :=
      ⟨_,ensureTable_made hempty hrun hp⟩
    have hentry := pde_ensureTable hempty hrun hp hensured
    have hpage : FirstFitAtPage s.heap.heapStart.toNat (l++⟨sz,false⟩::r) ↔ Aligned p := by
      unfold Aligned
      rw [firstFitAtPage_iff hfirst,htakes.ptr]
    rw [hpage]
    constructor
    · intro hplaced
      exact (tableOf_tagged_iff hentry).mp (hplaced h p t hrun hp hensured).1
    · intro hal h' p' t' hrun' _ hensured'
      rw [hrun] at hrun'
      cases hrun'
      rw [hensured] at hensured'
      cases hensured'
      have htable := (tableOf_tagged_iff hentry).mpr hal
      refine ⟨htable,?_,?_⟩
      · rw [hentry]
        exact or_tag_and_tagMask hal (by decide)
      · have hptr := htakes.ptr
        intro j hj
        rw [htable,htakes.size_eq]
        split_ifs
        · exact ⟨by omega,by omega⟩
        · exact ⟨by omega,by omega⟩

/-- In every state that runs of the allocator reach, a new table is used where
kmalloc put it exactly when the first free block that holds a page has its
payload at a page address. -/
theorem table_placed_iff_first_fit_at_page {start size : Word} (hsize : 12 ≤ size.toNat)
    (hfit : (align8 start).toNat+size.toNat<2^32) {st : Session} (hr : Reachable start size st)
    {s : Vmm} (hs : s.heap=st.heap) {virt : Word} (hempty : pde s (pdeIdx virt)=0) {fuel : ℕ}
    (hf : 2^32≤fuel) :
    ∃ bs,Represents st.heap bs ∧
      (TablePlaced fuel s virt ↔ FirstFitAtPage st.heap.heapStart.toNat bs) := by
  obtain ⟨bs,hinv,_,_⟩ := reachable_inv hsize hfit hr
  refine ⟨bs,hinv.represents,?_⟩
  rw [←hs]
  exact tablePlaced_iff (hs ▸ hinv.represents) hempty hf

/-- A one-megabyte heap with an empty directory behind it. -/
def megabyteVmm : Vmm := ⟨megabyteHeap.heap,0x201000,0x1201000,4096,0x1201000⟩

/-- The directory has no entry for the first user page. -/
theorem megabyteVmm_empty : pde megabyteVmm (pdeIdx 0x8000000)=0 := by decide

/-- The condition at the first table of that heap. -/
theorem table_placed_iff_in_megabyteVmm :
    ∃ bs,Represents megabyteHeap.heap bs ∧
      (TablePlaced (2^32) megabyteVmm 0x8000000 ↔ FirstFitAtPage megabyteHeap.heap.heapStart.toNat bs) := by
  exact table_placed_iff_first_fit_at_page (by decide) (by decide) megabyteHeap_reachable rfl megabyteVmm_empty
    (Nat.le_refl (2^32))

/-- kmalloc puts the first table of that heap 12 bytes behind the heap's first
header, and vmm_alloc_page uses it at that header. -/
theorem table_misplaced_in_megabyteVmm :
    Reachable 0x100000 0x100000 megabyteHeap ∧ megabyteVmm.heap=megabyteHeap.heap ∧
      pde megabyteVmm (pdeIdx 0x8000000)=0 ∧ ¬TablePlaced (2^32) megabyteVmm 0x8000000 ∧
      ∃ h t,kmalloc (2^32) megabyteVmm.heap pageSize=some (h,0x10000C) ∧
        vmmAllocPage (2^32) megabyteVmm 0x8000000=
          some (mapPage t (pdeIdx 0x8000000) (pteIdx 0x8000000)) ∧
        tableOf t (pdeIdx 0x8000000)=0x100000 := by
  have hf := Nat.le_refl (2^32)
  have hinv : HeapInv megabyteHeap _ := mmInit_inv (fun _ => 0) emptyTracker (by decide) (by decide)
  have hiff := tablePlaced_iff (s := megabyteVmm) hinv.represents megabyteVmm_empty hf
  refine ⟨megabyteHeap_reachable,rfl,megabyteVmm_empty,?_,?_⟩
  · intro hplaced
    have hpage := hiff.mp hplaced (0x100000,⟨1048564,false⟩) rfl
    exact absurd hpage (by decide)
  · obtain ⟨_,hnone⟩|⟨h,p,l,sz,r,hrun,hp,hbs,_,_,htakes⟩ :=
      kmalloc_on_chain hinv.represents (by decide : pageSize≠0) hf
    · exact absurd ⟨rfl,by decide⟩ (hnone _ List.mem_cons_self)
    · have hl : l=[] := by
        match l,hbs with
        | [],_ => rfl
        | b::l,hbs => simp at hbs
      have hptr : p=0x10000C := by
        apply BitVec.eq_of_toNat_eq
        rw [htakes.ptr,hl]
        rfl
      subst hptr
      have hensured := @ensureTable_made (2^32) megabyteVmm _ h 0x10000C megabyteVmm_empty hrun hp
      refine ⟨h,_,hrun,vmmAllocPage_ensured (by decide) hensured,?_⟩
      unfold tableOf
      rw [pde_ensureTable megabyteVmm_empty hrun hp hensured]
      decide

end EronKernel.VmmPlacement

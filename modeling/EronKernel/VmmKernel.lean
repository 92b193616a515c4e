import EronKernel.VmmRuns

/-!
# The kernel's part of the page directory

vmm_init computes a page table for each of the kernel's directory entries and,
for each page, the frame that the table would map it to. It stores both into the
directory entry, so that the frame of the last page is left there and the tables
are never filled.
-/

namespace EronKernel.VmmKernel

open ByteMemory BlockList HeapModel HeapLayout HeapRuns HeapIntegrity WordTable VmmModel VmmTables VmmRuns

/-- The page table that vmm_init computes for a directory entry, when the tables
begin at an address. -/
def kernelTable (kernelEnd : Word) (i : ℕ) : Word := alignUp (kernelEnd+BitVec.ofNat 32 ((i-768)*4096)) 4096

/-- The kernel's part of the directory maps the kernel through those tables. -/
structure KernelMapping (kernelEnd : Word) (s : Vmm) : Prop where
  /-- Every entry leads to its table. -/
  tables : ∀ i,768 ≤ i→ i<1024→ tableOf s i=kernelTable kernelEnd i
  /-- Different entries lead to different tables. -/
  distinct : ∀ i k,768 ≤ i→ i<1024→768 ≤ k→k<1024→ i≠k→ tableOf s i≠tableOf s k
  /-- Every kernel address is mapped to its place behind 0xC0000000. -/
  phys : ∀ v : Word,kernelVirtStart≤v→vmmGetPhysFromVirt s v=v-kernelVirtStart+0xC0000000

/-- The frame of the last page that a directory entry would map. -/
def lastFrame (i : ℕ) : Word := (BitVec.ofNat 32 i<<<22)|||0x3FF000

/-- A loop that writes one word keeps the others. -/
theorem wordAt_foldl_setWord_of_ne {a : Word} {i k : ℕ} (hi : i<1024) (hk : k<1024) (hne : k≠i) (f : ℕ→Word)
    (js : List ℕ) (m : Mem) : wordAt (js.foldl (fun m j => setWord m a i (f j)) m) a k=wordAt m a k := by
  induction js generalizing m with
  | nil => rfl
  | cons j js ih => exact (ih _).trans (wordAt_setWord_of_ne (f j) hi hk hne.symm)

/-- The last turn of a loop that writes one word decides it. -/
theorem wordAt_foldl_setWord_last (a : Word) (i : ℕ) (f : ℕ→Word) (n : ℕ) (m : Mem) :
    wordAt ((List.range (n+1)).foldl (fun m j => setWord m a i (f j)) m) a i=f n := by
  rw [List.range_succ,List.foldl_append]
  exact wordAt_setWord_same _ a i (f n)

/-- The loop over a directory entry leaves the last frame in it and the other
entries alone. -/
theorem wordAt_kernelEntry (pdir kernelEnd : Word) (m : Mem) {i k : ℕ} (hi : i<1024) (hk : k<1024) :
    wordAt (kernelEntry pdir kernelEnd m i) pdir k=
      if k=i then lastFrame i|||pgPresent|||pgWritable else wordAt m pdir k := by
  unfold kernelEntry
  dsimp only
  by_cases hki : k=i
  · rw [if_pos hki,hki,wordAt_foldl_setWord_last,BitVec.sub_add_cancel]
    rfl
  · rw [if_neg hki,wordAt_foldl_setWord_of_ne hi hk hki,wordAt_setWord_of_ne _ hi hk (Ne.symm hki)]

/-- The loop over directory entries leaves the last frame in each of them. -/
theorem wordAt_kernelEntries (pdir kernelEnd : Word) {k : ℕ} (hk : k<1024) (is : List ℕ)
    (his : ∀ i∈is,i<1024) (hmem : k∈is) (m : Mem) :
    wordAt (is.foldl (kernelEntry pdir kernelEnd) m) pdir k=lastFrame k|||pgPresent|||pgWritable := by
  induction is using List.reverseRecOn with
  | nil => exact absurd hmem List.not_mem_nil
  | append_singleton is i ih =>
    rw [List.foldl_append,List.foldl_cons,List.foldl_nil]
    have hi := his i (List.mem_append_right _ List.mem_cons_self)
    rw [wordAt_kernelEntry pdir kernelEnd _ hi hk]
    by_cases hki : k=i
    · rw [if_pos hki,hki]
    · have hin : k∈is := (List.mem_append.mp hmem).resolve_right fun h => hki (List.mem_singleton.mp h)
      rw [if_neg hki]
      exact ih (fun j hj => his j (List.mem_append_left _ hj)) hin

/-- The last frame lies at a page address. -/
theorem lastFrame_aligned (i : ℕ) : Aligned (lastFrame i) := by
  have hshift : lastFrame i=((BitVec.ofNat 32 i<<<10)|||0x3FF)<<<12 := by
    rw [BitVec.shiftLeft_or_distrib,←BitVec.shiftLeft_add]
    rfl
  unfold Aligned
  rw [hshift,BitVec.toNat_shiftLeft,Nat.shiftLeft_eq]
  omega

/-- What vmm_init leaves in the kernel's part of the directory. -/
theorem tableOf_vmmInit {fuel : ℕ} {h : Heap} {kernelEnd : Word} {s : Vmm}
    (hinit : vmmInit fuel h kernelEnd=some s) {i : ℕ} (hlo : 768 ≤ i) (hhi : i<1024) :
    tableOf s i=lastFrame i := by
  unfold vmmInit at hinit
  dsimp only at hinit
  obtain ⟨⟨u,p⟩,_,rfl⟩ := Option.map_eq_some_iff.mp hinit
  have hmem : i∈List.range' 768 256 := List.mem_range'_1.mpr ⟨hlo,hhi⟩
  have hall : ∀ k∈List.range' 768 256,k<1024 := fun k hk => (List.mem_range'_1.mp hk).2
  unfold tableOf pde
  dsimp only [Vmm.mem]
  rw [wordAt_kernelEntries _ _ hhi _ hall hmem,BitVec.or_assoc]
  exact or_tag_and_addressMask (lastFrame_aligned i) (by decide)

/-- vmm_init returns whether or not kmalloc has room for the directory. -/
theorem vmmInit_returns {h : Heap} {bs : List Block} (hs : Represents h bs) (kernelEnd : Word) {fuel : ℕ}
    (hf : 2^32≤fuel) : ∃ s,vmmInit fuel h kernelEnd=some s := by
  unfold vmmInit
  dsimp only
  obtain hnull|⟨t,p,_,hrun,_⟩ := kmalloc_page hs hf
  · rw [hnull]
    exact ⟨_,rfl⟩
  · rw [hrun]
    exact ⟨_,rfl⟩

/-- The table behind another. -/
theorem kernelTable_next (kernelEnd : Word) :
    kernelTable kernelEnd 769=kernelTable kernelEnd 768+4096 := by
  unfold kernelTable alignUp
  rw [show (~~~(4096-1) : Word)=addressMask from rfl]
  apply BitVec.eq_of_toNat_eq
  rw [BitVec.toNat_add,toNat_and_addressMask,toNat_and_addressMask]
  bv_omega

/-- vmm_init, which returns on every heap that the allocator leaves behind, does
not build the kernel mapping, wherever its tables are said to begin. -/
theorem kernel_mapping_never {start size : Word} (hsize : 12 ≤ size.toNat)
    (hfit : (align8 start).toNat+size.toNat<2^32) {st : Session} (hr : Reachable start size st)
    (kernelEnd : Word) {fuel : ℕ} (hf : 2^32≤fuel) :
    ∃ s,vmmInit fuel st.heap kernelEnd=some s ∧ ∀ base,¬KernelMapping base s := by
  obtain ⟨bs,hinv,_,_⟩ := reachable_inv hsize hfit hr
  obtain ⟨s,hinit⟩ := vmmInit_returns hinv.represents kernelEnd hf
  refine ⟨s,hinit,?_⟩
  intro base h
  have hfirst := h.tables 768 (by decide) (by decide)
  have hsecond := h.tables 769 (by decide) (by decide)
  rw [tableOf_vmmInit hinit (by decide) (by decide)] at hfirst hsecond
  rw [kernelTable_next,←hfirst] at hsecond
  exact absurd hsecond (by decide)

/-- vmm_init behind the one-megabyte heap. -/
theorem pagedHeap_not_mapped :
    ∃ s,vmmInit (2^32) pagedHeap.heap 0x200FE8=some s ∧ ∀ base,¬KernelMapping base s :=
  kernel_mapping_never (by decide) (by decide) pagedHeap_reachable 0x200FE8 (Nat.le_refl (2^32))

/-- There the tables begin at 0x201000, but the first entry leads to the frame
of the last page that its table would map. -/
theorem pagedHeap_first_entry :
    ∃ s,vmmInit (2^32) pagedHeap.heap 0x200FE8=some s ∧ s.currentPdir≠0 ∧
      kernelTable (alignUp 0x200FE8 4096) 768=0x201000 ∧ tableOf s 768=0xC03FF000 ∧
      ¬KernelMapping (alignUp 0x200FE8 4096) s := by
  obtain ⟨s,_,hinit,hbooted,_,_⟩ := pagedHeap_boots (Nat.le_refl (2^32)) 0
  have htable : tableOf s 768=0xC03FF000 := tableOf_vmmInit hinit (by decide) (by decide)
  have hcomputed : kernelTable (alignUp 0x200FE8 4096) 768=0x201000 := by decide
  refine ⟨s,hinit,hbooted.inv.pdirNe,hcomputed,htable,?_⟩
  intro h
  have hfirst := h.tables 768 (by decide) (by decide)
  rw [htable,hcomputed] at hfirst
  exact absurd hfirst (by decide)

end EronKernel.VmmKernel

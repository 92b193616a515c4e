import EronKernel.HeapFirstFit
import EronKernel.VmmModel

/-!
# The page tables in the heap

A page that lies in the payload of a used block, or outside the heap, is
reserved: kmalloc neither changes it nor hands it out again, and writing it
keeps the chain of blocks. The directory and the tables of the state are such
pages, apart from each other, as long as kmalloc returned the tables at page
addresses. Under this invariant the table entries form an array over the user
pages, and each operation updates at most one of its elements.
-/

namespace EronKernel.VmmTables

open ByteMemory BlockList HeapModel HeapLayout HeapOps HeapRuns HeapFirstFit WordTable VmmModel

/-- The page lies in the payload of a used block or outside the heap. -/
structure Reserved (s : Heap) (bs : List Block) (a : Word) : Prop where
  /-- The page does not run past the top of memory. -/
  fits : WordTable.Fits a
  /-- No header and no free block meets the page. -/
  place : (∃ b∈usedPlaced 12 s.heapStart.toNat bs,b.1+12≤a.toNat ∧ a.toNat+4096≤b.1+12+b.2.size) ∨
    a.toNat+4096 ≤ s.heapStart.toNat ∨ s.heapEnd.toNat≤a.toNat

/-- A reserved page holds no header. -/
theorem Reserved.not_header {s : Heap} {bs : List Block} {a x : Word} (h : Reserved s bs a)
    (hs : Represents s bs) (hx : InTable a x) : ¬HeaderByte s.heapStart.toNat bs x := by
  rintro ⟨q,hq,hlo,hhi⟩
  have hbound := placed_bounds hq
  have htiles := hs.tiles
  unfold InTable at hx
  obtain ⟨b,hb,hb1,hb2⟩|hout|hout := h.place
  · have heq := placed_eq_of_overlap (List.mem_filter.mp hb).1 hq (by omega) (by omega)
    rw [heq] at hb1
    omega
  · omega
  · omega

/-- Writing a reserved page keeps the chain. -/
theorem Reserved.represents {s : Heap} {bs : List Block} {a : Word} (h : Reserved s bs a)
    (hs : Represents s bs) (m : Mem) (hmem : ∀ x,¬InTable a x→ m x=s.mem x) :
    Represents {s with mem := m} bs := by
  have hext := hs.extent_lt
  refine ⟨hs.nonempty,hs.tiles,?_⟩
  intro p hp
  have hbound := placed_bounds hp
  dsimp only at hbound
  refine headerAt_congr (by omega) ?_ (hs.headers p hp)
  intro x hlo hhi
  exact hmem x fun hx => h.not_header hs hx ⟨p,hp,hlo,hhi⟩

/-- A reserved page does not meet a free block. -/
theorem Reserved.apart_free {s : Heap} {l r : List Block} {sz : ℕ} {a : Word}
    (h : Reserved s (l++⟨sz,false⟩::r) a) (hs : Represents s (l++⟨sz,false⟩::r)) :
    a.toNat+4096 ≤ s.heapStart.toNat+extent 12 l ∨ s.heapStart.toNat+extent 12 l+12+sz≤a.toNat := by
  have he := hs.at_split.2
  dsimp only at he
  obtain ⟨b,hb,hb1,hb2⟩|hout|hout := h.place
  · rw [usedPlaced_append,usedPlaced_cons,if_neg Bool.false_ne_true,List.nil_append] at hb
    rcases List.mem_append.mp hb with hb|hb
    · have hbound := placed_bounds (List.mem_filter.mp hb).1
      exact Or.inl (by omega)
    · have hbound := placed_bounds (List.mem_filter.mp hb).1
      exact Or.inr (by dsimp only at hbound; omega)
  · exact Or.inl (by omega)
  · exact Or.inr (by omega)

/-- The used blocks after a block was taken: those before and the taken one. -/
theorem usedPlaced_taken {base sz w : ℕ} {l r : List Block} (hw : w ≤ sz) :
    usedPlaced 12 base (l++carve 12 16 w sz++r)=
      usedPlaced 12 base l++[(base+extent 12 l,⟨if 12+16<sz-w then w else sz,true⟩)]++
        usedPlaced 12 (base+extent 12 l+12+sz) r := by
  rw [usedPlaced_append,usedPlaced_append,usedPlaced_carve,extent_append,extent_carve hw]
  rw [show base+(extent 12 l+(12+sz))=base+extent 12 l+12+sz by omega]

/-- What kmalloc keeps of the pages that were reserved before it reserved one. -/
def KeepsPages (h : Heap) (bs : List Block) (u : Heap) (cs : List Block) (p : Word) : Prop :=
  ∀ a,Reserved h bs a→Reserved u cs a ∧ Apart p a ∧ ∀ x,InTable a x→ u.mem x=h.mem x

/-- Taking a block for a page reserves that page, keeps the reserved pages and
their contents, and the new page is apart from them. -/
theorem takesBlock_page {s t : Heap} {l r : List Block} {sz : ℕ} {p : Word}
    (hs : Represents s (l++⟨sz,false⟩::r)) (hw : 4096 ≤ sz) (h : TakesBlock s t l r sz 4096 p) :
    Reserved t (l++carve 12 16 4096 sz++r) p ∧
      KeepsPages s (l++⟨sz,false⟩::r) t (l++carve 12 16 4096 sz++r) p := by
  have he := hs.at_split.2
  have hend := s.heapEnd.isLt
  have hp := h.ptr
  dsimp only at he
  have hmem : (s.heapStart.toNat+extent 12 l,⟨if 12+16<sz-4096 then 4096 else sz,true⟩)∈
      usedPlaced 12 t.heapStart.toNat (l++carve 12 16 4096 sz++r) := by
    rw [h.heapStart,usedPlaced_taken hw]
    exact List.mem_append_left _ (List.mem_append_right _ List.mem_cons_self)
  have hlarge : 4096 ≤ if 12+16<sz-4096 then 4096 else sz := by
    split_ifs
    · exact Nat.le_refl _
    · exact hw
  constructor
  · refine ⟨?_,Or.inl ⟨_,hmem,?_,?_⟩⟩
    · unfold WordTable.Fits
      omega
    · dsimp only
      omega
    · dsimp only
      omega
  · intro a ha
    have hapart := ha.apart_free hs
    refine ⟨⟨ha.fits,?_⟩,by unfold Apart; omega,?_⟩
    · rw [h.heapStart,h.heapEnd,usedPlaced_taken hw]
      obtain ⟨b,hb,hbounds⟩|hout := ha.place
      · rw [usedPlaced_append,usedPlaced_cons,if_neg Bool.false_ne_true,List.nil_append] at hb
        refine Or.inl ⟨b,?_,hbounds⟩
        rcases List.mem_append.mp hb with hb|hb
        · exact List.mem_append_left _ (List.mem_append_left _ hb)
        · exact List.mem_append_right _ hb
      · exact Or.inr hout
    · intro x hx
      apply h.frame
      unfold InTable at hx
      omega

/-- kmalloc of a page has no room and changes nothing, or reserves a new page
apart from the reserved ones and keeps their contents. -/
theorem kmalloc_page {s : Heap} {bs : List Block} (hs : Represents s bs) {fuel : ℕ} (hf : 2^32≤fuel) :
    kmalloc fuel s pageSize=some (s,0) ∨ ∃ t p cs,kmalloc fuel s pageSize=some (t,p) ∧ p≠0 ∧
      Represents t cs ∧ Reserved t cs p ∧ KeepsPages s bs t cs p := by
  have hround : (align8 pageSize).toNat=4096 := by decide
  obtain ⟨hnull,_⟩|⟨t,p,l,sz,r,hrun,hp,rfl,hw,_,htakes⟩ := kmalloc_on_chain hs
      (by decide : pageSize≠0) hf
  · exact Or.inl hnull
  · rw [hround] at hw htakes
    obtain ⟨hnew,hold⟩ := takesBlock_page hs hw htakes
    exact Or.inr ⟨t,p,_,hrun,hp,htakes.chain,hnew,hold⟩

/-- A table entry is zero or a frame with the tag of a user page. -/
def EntryOk (e : Word) : Prop := e=0 ∨ ∃ f,Aligned f ∧ f≠0 ∧ e=f|||7

/-- The invariant of the directory and the tables. -/
structure VmmInv (bs : List Block) (s : Vmm) : Prop where
  /-- The heap is a chain of blocks. -/
  represents : Represents s.heap bs
  /-- There is a directory. -/
  pdirNe : s.currentPdir≠0
  /-- The directory is a reserved page. -/
  pdir : Reserved s.heap bs s.currentPdir
  /-- Every table is a reserved page apart from the directory. -/
  tables : ∀ i<768,pde s i≠0→Reserved s.heap bs (tableOf s i) ∧ Apart (tableOf s i) s.currentPdir
  /-- Different directory entries lead to different tables. -/
  distinct : ∀ i<768,∀ k<768,i≠k→pde s i≠0→pde s k≠0→tableOf s i≠tableOf s k
  /-- Every table entry is well formed. -/
  words : ∀ i<768,pde s i≠0→∀ j<1024,EntryOk (wordAt s.mem (tableOf s i) j)
  /-- The counter is a page address. -/
  next : Aligned s.nextFreePage

/-- The table entry of a user page, zero where there is no table. -/
def pteWord (s : Vmm) (i j : ℕ) : Word := if pde s i=0 then 0 else wordAt s.mem (tableOf s i) j

/-- Every entry of a user page is well formed. -/
theorem VmmInv.pteWord_ok {bs : List Block} {s : Vmm} (h : VmmInv bs s) {i j : ℕ} (hi : i<768)
    (hj : j<1024) : EntryOk (pteWord s i j) := by
  unfold pteWord
  by_cases hp : pde s i=0
  · rw [if_pos hp]
    exact Or.inl rfl
  · rw [if_neg hp]
    exact h.words i hi hp j hj

/-- Tables lie at page addresses. -/
theorem tableOf_aligned (s : Vmm) (i : ℕ) : Aligned (tableOf s i) := by
  unfold Aligned tableOf
  rw [toNat_and_addressMask]
  omega

/-- Tables of different directory entries are apart. -/
theorem VmmInv.tables_apart {bs : List Block} {s : Vmm} (h : VmmInv bs s) {i k : ℕ} (hi : i<768)
    (hk : k<768) (hik : i≠k) (hpi : pde s i≠0) (hpk : pde s k≠0) :
    Apart (tableOf s i) (tableOf s k) :=
  apart_of_aligned (tableOf_aligned s i) (tableOf_aligned s k) (h.distinct i hi k hk hik hpi hpk)

/-- Writing a table entry changes no directory entry. -/
theorem VmmInv.pde_setEntry {bs : List Block} {s : Vmm} (h : VmmInv bs s) {i j : ℕ} (hi : i<768)
    (hp : pde s i≠0) (hj : j<1024) (e : Word) {k : ℕ} (hk : k<768) :
    pde (s.setMem (setWord s.mem (tableOf s i) j e)) k=pde s k ∧
      tableOf (s.setMem (setWord s.mem (tableOf s i) j e)) k=tableOf s k := by
  obtain ⟨hres,hapart⟩ := h.tables i hi hp
  have hpde : pde (s.setMem (setWord s.mem (tableOf s i) j e)) k=pde s k :=
    wordAt_setWord_of_apart e hres.fits h.pdir.fits hj (by omega) hapart
  refine ⟨hpde,?_⟩
  unfold tableOf at hpde ⊢
  rw [hpde]

/-- Writing a table entry changes no other table entry. -/
theorem VmmInv.wordAt_setEntry {bs : List Block} {s : Vmm} (h : VmmInv bs s) {i j : ℕ} (hi : i<768)
    (hp : pde s i≠0) (hj : j<1024) (e : Word) {k : ℕ} (hk : k<768) (hpk : pde s k≠0) {l : ℕ} (hl : l<1024) :
    wordAt (setWord s.mem (tableOf s i) j e) (tableOf s k) l=
      if k=i ∧ l=j then e else wordAt s.mem (tableOf s k) l := by
  obtain ⟨hres,_⟩ := h.tables i hi hp
  by_cases hki : k=i
  · subst hki
    by_cases hlj : l=j
    · subst hlj
      rw [if_pos ⟨rfl,rfl⟩]
      exact wordAt_setWord_same _ _ _ _
    · rw [if_neg fun hc => hlj hc.2]
      exact wordAt_setWord_of_ne e hj hl (Ne.symm hlj)
  · rw [if_neg fun hc => hki hc.1]
    exact wordAt_setWord_of_apart e hres.fits (h.tables k hk hpk).1.fits hj hl
      (h.tables_apart hi hk (Ne.symm hki) hp hpk)

/-- Writing a table entry keeps the invariant and changes that entry only. -/
theorem VmmInv.setEntry {bs : List Block} {s : Vmm} (h : VmmInv bs s) {i j : ℕ} (hi : i<768)
    (hp : pde s i≠0) (hj : j<1024) {e : Word} (he : EntryOk e) :
    let t := s.setMem (setWord s.mem (tableOf s i) j e)
    VmmInv bs t ∧ (∀ k<768,pde t k=pde s k) ∧
      ∀ k<768,∀ l<1024,pteWord t k l=if k=i ∧ l=j then e else pteWord s k l := by
  intro t
  obtain ⟨hres,_⟩ := h.tables i hi hp
  have hpde : ∀ k<768,pde t k=pde s k := fun k hk => (h.pde_setEntry hi hp hj e hk).1
  have htable : ∀ k<768,tableOf t k=tableOf s k := fun k hk => (h.pde_setEntry hi hp hj e hk).2
  have hword : ∀ k<768,pde s k≠0→∀ l<1024,wordAt t.mem (tableOf t k) l=
      if k=i ∧ l=j then e else wordAt s.mem (tableOf s k) l := by
    intro k hk hpk l hl
    rw [htable k hk]
    exact h.wordAt_setEntry hi hp hj e hk hpk hl
  refine ⟨⟨?_,h.pdirNe,⟨h.pdir.fits,h.pdir.place⟩,?_,?_,?_,h.next⟩,hpde,?_⟩
  · exact hres.represents h.represents _ fun x hx => setWord_of_not_inTable e hres.fits hj hx
  · intro k hk hpk
    rw [hpde k hk] at hpk
    rw [htable k hk]
    obtain ⟨hr,ha⟩ := h.tables k hk hpk
    exact ⟨⟨hr.fits,hr.place⟩,ha⟩
  · intro k hk l hl hkl hpk hpl
    rw [hpde k hk] at hpk
    rw [hpde l hl] at hpl
    rw [htable k hk,htable l hl]
    exact h.distinct k hk l hl hkl hpk hpl
  · intro k hk hpk l hl
    rw [hpde k hk] at hpk
    rw [hword k hk hpk l hl]
    split_ifs
    · exact he
    · exact h.words k hk hpk l hl
  · intro k hk l hl
    unfold pteWord
    rw [hpde k hk]
    by_cases hpk : pde s k=0
    · have hki : ¬(k=i ∧ l=j) := by
        rintro ⟨rfl,_⟩
        exact hp hpk
      rw [if_pos hpk,if_pos hpk,if_neg hki]
    · rw [if_neg hpk,if_neg hpk,hword k hk hpk l hl]

/-- The tag that vmm_alloc_page writes, bit by bit. -/
theorem userTag (a : Word) : a|||pgPresent|||pgWritable|||pgUser=a|||7 := by
  rw [BitVec.or_assoc,BitVec.or_assoc]
  rfl

/-- A tagged word is not zero. -/
theorem or_seven_ne_zero (a : Word) : a|||7≠0 := by
  intro h
  have hle : (7 : Word).toNat≤(a|||7).toNat := by
    rw [BitVec.toNat_or]
    exact Nat.right_le_or
  rw [h] at hle
  exact absurd hle (by decide)

/-- Clearing a table changes no byte outside it. -/
theorem clearEntries_of_not_inTable {m : Mem} {a x : Word} (ha : WordTable.Fits a)
    (hx : ¬InTable a x) : clearEntries m a x=m x :=
  setWords_of_not_inTable _ ha hx _ _ fun _ hi => List.mem_range.mp hi

/-- Clearing a table clears every entry. -/
theorem wordAt_clearEntries (m : Mem) (a : Word) {l : ℕ} (hl : l<1024) :
    wordAt (clearEntries m a) a l=0 :=
  wordAt_setWords_of_mem _ hl _ _ (fun _ hi => List.mem_range.mp hi) (List.mem_range.mpr hl)

/-- The memory with a cleared table and its directory entry. -/
def tableMem (m : Mem) (pdir p : Word) (i : ℕ) : Mem := setWord (clearEntries m p) pdir i (p|||7)

/-- A table that is apart from the new one and from the directory is as it was. -/
theorem wordAt_tableMem {m : Mem} {pdir p a : Word} {i l : ℕ} (hp : WordTable.Fits p)
    (hd : WordTable.Fits pdir) (ha : WordTable.Fits a) (hi : i<1024) (hl : l<1024) (hpa : Apart p a)
    (hda : Apart pdir a) : wordAt (tableMem m pdir p i) a l=wordAt m a l := by
  unfold tableMem
  rw [wordAt_setWord_of_apart _ hd ha hi hl hda]
  exact wordAt_congr ha hl fun x hx => clearEntries_of_not_inTable hp (hpa.not_inTable hx)

/-- Directory entries other than the new one are as they were. -/
theorem pde_tableMem {m : Mem} {pdir p : Word} {i k : ℕ} (hp : WordTable.Fits p)
    (hd : WordTable.Fits pdir) (hi : i<1024) (hk : k<1024) (hpd : Apart p pdir) :
    wordAt (tableMem m pdir p i) pdir k=if k=i then p|||7 else wordAt m pdir k := by
  unfold tableMem
  by_cases hki : k=i
  · subst hki
    rw [if_pos rfl,wordAt_setWord_same]
  · rw [if_neg hki,wordAt_setWord_of_ne _ hi hk (Ne.symm hki)]
    exact wordAt_congr hd hk fun x hx => clearEntries_of_not_inTable hp (hpd.not_inTable hx)

/-- The new table is empty. -/
theorem wordAt_tableMem_new {m : Mem} {pdir p : Word} {i l : ℕ} (hp : WordTable.Fits p)
    (hd : WordTable.Fits pdir) (hi : i<1024) (hl : l<1024) (hpd : Apart p pdir) :
    wordAt (tableMem m pdir p i) p l=0 := by
  unfold tableMem
  rw [wordAt_setWord_of_apart _ hd hp hi hl hpd.symm]
  exact wordAt_clearEntries m p hl

/-- An empty table at the address was entered into the directory and nothing
else of the tables changed. -/
structure TableAdded (s t : Vmm) (i : ℕ) (p : Word) : Prop where
  /-- The entry is the tagged address. -/
  pdeNew : pde t i=p|||7
  /-- The other entries are the same. -/
  pdeOld : ∀ k<768,k≠i→pde t k=pde s k
  /-- The new table is empty. -/
  empty : ∀ l<1024,wordAt t.mem p l=0
  /-- The other tables are the same. -/
  words : ∀ k<768,pde s k≠0→∀ l<1024,wordAt t.mem (tableOf s k) l=wordAt s.mem (tableOf s k) l

/-- The table of a tagged entry, at a page address. -/
theorem tableOf_tagged {t : Vmm} {i : ℕ} {p : Word} (h : pde t i=p|||7) (hal : Aligned p) : tableOf t i=p := by
  unfold tableOf
  rw [h]
  exact or_tag_and_addressMask hal (by decide)

/-- A table at a page address is found where it is. -/
theorem TableAdded.tableOf_new {s t : Vmm} {i : ℕ} {p : Word} (h : TableAdded s t i p) (hal : Aligned p) :
    tableOf t i=p :=
  tableOf_tagged h.pdeNew hal

/-- The other tables are found where they were. -/
theorem TableAdded.tableOf_old {s t : Vmm} {i k : ℕ} {p : Word} (h : TableAdded s t i p) (hk : k<768)
    (hki : k≠i) : tableOf t k=tableOf s k := by
  unfold tableOf
  rw [h.pdeOld k hk hki]

/-- No table went away, and there is one for the entry. -/
theorem TableAdded.kept {s t : Vmm} {i k : ℕ} {p : Word} (h : TableAdded s t i p) (hk : k<768)
    (hpk : k=i ∨ pde s k≠0) : pde t k≠0 := by
  by_cases hki : k=i
  · rw [hki,h.pdeNew]
    exact or_seven_ne_zero p
  · rw [h.pdeOld k hk hki]
    exact hpk.resolve_left hki

/-- An empty table in the place of none changes no table entry. -/
theorem TableAdded.pteWord_eq {s t : Vmm} {i : ℕ} {p : Word} (h : TableAdded s t i p) (hal : Aligned p)
    (hp : pde s i=0) : ∀ k<768,∀ l<1024,pteWord t k l=pteWord s k l := by
  intro k hk l hl
  unfold pteWord
  by_cases hki : k=i
  · rw [hki,hp,if_pos rfl,if_neg (h.pdeNew ▸ or_seven_ne_zero p),h.tableOf_new hal,h.empty l hl]
  · rw [h.pdeOld k hk hki]
    by_cases hpk : pde s k=0
    · rw [if_pos hpk,if_pos hpk]
    · rw [if_neg hpk,if_neg hpk,h.tableOf_old hk hki,h.words k hk hpk l hl]

/-- The state with a cleared table and its directory entry. -/
def withTable (s : Vmm) (u : Heap) (p : Word) (i : ℕ) : Vmm :=
  {s with heap := {u with mem := tableMem u.mem s.currentPdir p i}}

/-- An empty directory entry gets the page that kmalloc returns. -/
theorem ensureTable_made {fuel : ℕ} {s : Vmm} {i : ℕ} {u : Heap} {p : Word} (hp : pde s i=0)
    (hrun : kmalloc fuel s.heap pageSize=some (u,p)) (hpne : p≠0) :
    ensureTable fuel s i=some (withTable s u p i,true) := by
  unfold ensureTable
  rw [if_neg (not_not.mpr hp),hrun,Option.map_some]
  dsimp only
  rw [if_neg hpne,userTag]
  rfl

/-- Clearing a reserved page and entering it into the directory, also among the
kernel's entries, adds a table. -/
theorem VmmInv.tableAdded {bs cs : List Block} {s : Vmm} (h : VmmInv bs s) {i : ℕ} (hi : i<1024)
    {u : Heap} {p : Word} (hres : Reserved u cs p) (hkeep : KeepsPages s.heap bs u cs p) :
    TableAdded s (withTable s u p i) i p := by
  obtain ⟨hdir,hpd,hdmem⟩ := hkeep _ h.pdir
  have hpde : ∀ k<1024,pde (withTable s u p i) k=if k=i then p|||7 else pde s k := by
    intro k hk
    have hone := pde_tableMem (m := u.mem) hres.fits hdir.fits hi hk hpd
    rw [wordAt_congr hdir.fits hk hdmem] at hone
    exact hone
  refine ⟨(hpde i hi).trans (if_pos rfl),fun k hk hki => (hpde k (by omega)).trans (if_neg hki),?_,?_⟩
  · exact fun l hl => wordAt_tableMem_new hres.fits hdir.fits hi hl hpd
  · intro k hk hpk l hl
    obtain ⟨hr,ha⟩ := h.tables k hk hpk
    obtain ⟨hr',hpa,hmem⟩ := hkeep _ hr
    exact (wordAt_tableMem hres.fits hdir.fits hr'.fits hi hl hpa ha.symm).trans
      (wordAt_congr hr'.fits hl hmem)

/-- Clearing a reserved page and entering it into the directory keeps the
chain. -/
theorem represents_withTable {cs : List Block} {s : Vmm} {u : Heap} {p : Word} (hu : Represents u cs)
    (hres : Reserved u cs p) (hdir : Reserved u cs s.currentPdir) {i : ℕ} (hi : i<1024) :
    Represents (withTable s u p i).heap cs := by
  have hcleared : Represents {u with mem := clearEntries u.mem p} cs :=
    hres.represents hu _ fun x hx => clearEntries_of_not_inTable hres.fits hx
  have hdir' : Reserved {u with mem := clearEntries u.mem p} cs s.currentPdir := ⟨hdir.fits,hdir.place⟩
  refine hdir'.represents hcleared (tableMem u.mem s.currentPdir p i) fun x hx => ?_
  unfold tableMem
  dsimp only
  exact setWord_of_not_inTable _ hdir.fits hi hx

/-- A new table at a page address keeps the invariant. -/
theorem VmmInv.newTable {bs cs : List Block} {s : Vmm} (h : VmmInv bs s) {i : ℕ} (hi : i<768)
    {u : Heap} {p : Word} (hu : Represents u cs) (hres : Reserved u cs p)
    (hkeep : KeepsPages s.heap bs u cs p) (hal : Aligned p) : VmmInv cs (withTable s u p i) := by
  have hadded := h.tableAdded (by omega : i<1024) hres hkeep
  have htnew := hadded.tableOf_new hal
  obtain ⟨hdir,hpd,_⟩ := hkeep _ h.pdir
  have hreserved : ∀ a,Reserved u cs a→Reserved (withTable s u p i).heap cs a := fun _ ha =>
    ⟨ha.fits,ha.place⟩
  have hfresh : ∀ k<768,k≠i→pde (withTable s u p i) k≠0→tableOf (withTable s u p i) k≠p := by
    intro k hk hki hpk he
    rw [hadded.pdeOld k hk hki] at hpk
    rw [hadded.tableOf_old hk hki] at he
    have hapart := (hkeep _ (h.tables k hk hpk).1).2.1
    rw [he] at hapart
    unfold Apart at hapart
    omega
  refine ⟨represents_withTable hu hres hdir (by omega),h.pdirNe,hreserved _ hdir,?_,?_,?_,h.next⟩
  · intro k hk hpk
    by_cases hki : k=i
    · rw [hki,htnew]
      exact ⟨hreserved _ hres,hpd⟩
    · rw [hadded.pdeOld k hk hki] at hpk
      rw [hadded.tableOf_old hk hki]
      obtain ⟨hr,ha⟩ := h.tables k hk hpk
      exact ⟨hreserved _ (hkeep _ hr).1,ha⟩
  · intro k hk l hl hkl hpk hpl
    by_cases hki : k=i
    · rw [hki,htnew]
      exact (hfresh l hl (fun he => hkl (hki.trans he.symm)) hpl).symm
    · by_cases hli : l=i
      · rw [hli,htnew]
        exact hfresh k hk hki hpk
      · rw [hadded.pdeOld k hk hki] at hpk
        rw [hadded.pdeOld l hl hli] at hpl
        rw [hadded.tableOf_old hk hki,hadded.tableOf_old hl hli]
        exact h.distinct k hk l hl hkl hpk hpl
  · intro k hk hpk l hl
    by_cases hki : k=i
    · rw [hki,htnew,hadded.empty l hl]
      exact Or.inl rfl
    · rw [hadded.pdeOld k hk hki] at hpk
      rw [hadded.tableOf_old hk hki,hadded.words k hk hpk l hl]
      exact h.words k hk hpk l hl

/-- Nothing outside a table and none of its first words changed. -/
structure KeepsBelow (n : ℕ) (a : Word) (m m' : Mem) : Prop where
  /-- No byte outside the table changed. -/
  outside : ∀ x,¬InTable a x→m' x=m x
  /-- None of the first words changed. -/
  below : ∀ k<n,wordAt m' a k=wordAt m a k

/-- Keeping the first words twice. -/
theorem KeepsBelow.trans {n : ℕ} {a : Word} {m m' m'' : Mem} (h : KeepsBelow n a m m')
    (k : KeepsBelow n a m' m'') : KeepsBelow n a m m'' :=
  ⟨fun x hx => (k.outside x hx).trans (h.outside x hx),
    fun i hi => (k.below i hi).trans (h.below i hi)⟩

/-- A loop whose turns keep the first words keeps them. -/
theorem keepsBelow_foldl {n : ℕ} {a : Word} (f : Mem→ℕ→Mem) (is : List ℕ)
    (hf : ∀ m,∀ i∈is,KeepsBelow n a m (f m i)) (m : Mem) : KeepsBelow n a m (is.foldl f m) := by
  induction is generalizing m with
  | nil => exact ⟨fun _ _ => rfl,fun _ _ => rfl⟩
  | cons i is ih =>
    have hrest := ih (fun m k hk => hf m k (List.mem_cons_of_mem i hk)) (f m i)
    exact (hf m i List.mem_cons_self).trans hrest

/-- Writing a later word keeps the first words. -/
theorem keepsBelow_setWord {n : ℕ} {a : Word} {i : ℕ} (m : Mem) (v : Word) (ha : WordTable.Fits a)
    (hn : n ≤ i) (hi : i<1024) : KeepsBelow n a m (setWord m a i v) :=
  ⟨fun _ hx => setWord_of_not_inTable v ha hi hx,
    fun _ hk => wordAt_setWord_of_ne v hi (by omega) (by omega)⟩

/-- The kernel's directory entries are written without touching the user's. -/
theorem keepsBelow_kernelEntries {pdir : Word} (kernelEnd : Word) (m : Mem) (hp : WordTable.Fits pdir) :
    KeepsBelow 768 pdir m ((List.range' 768 256).foldl (kernelEntry pdir kernelEnd) m) := by
  refine keepsBelow_foldl _ _ ?_ m
  intro m i hi
  rw [List.mem_range'_1] at hi
  unfold kernelEntry
  generalize List.range 1024=js
  dsimp only
  exact (keepsBelow_setWord m _ hp hi.1 hi.2).trans
    (keepsBelow_foldl _ js (fun m j _ => keepsBelow_setWord m _ hp hi.1 hi.2) _)

/-- align_up to a page gives a page address. -/
theorem alignUp_aligned (a : Word) : Aligned (alignUp a 4096) := by
  unfold Aligned alignUp
  rw [show (~~~(4096-1) : Word)=addressMask from rfl,toNat_and_addressMask]
  omega

/-- A directory that was cleared and then filled in behind the user's entries
satisfies the invariant: no user page has a table. -/
theorem vmmInv_init {h : Heap} {bs : List Block} {pdir physBase : Word} {m : Mem}
    (hs : Represents h bs) (hres : Reserved h bs pdir) (hne : pdir≠0) (hbase : Aligned physBase)
    (hkeeps : KeepsBelow 768 pdir (clearEntries h.mem pdir) m) :
    let s : Vmm := ⟨{h with mem := m},pdir,physBase,4096,physBase⟩
    VmmInv bs s ∧ ∀ i<768,pde s i=0 := by
  intro s
  have hzero : ∀ i<768,pde s i=0 := fun i hi =>
    (hkeeps.below i hi).trans (wordAt_clearEntries h.mem pdir (by omega))
  refine ⟨⟨?_,hne,⟨hres.fits,hres.place⟩,?_,?_,?_,hbase⟩,hzero⟩
  · refine hres.represents hs m fun x hx => ?_
    exact (hkeeps.outside x hx).trans (clearEntries_of_not_inTable hres.fits hx)
  · exact fun i hi hp => absurd (hzero i hi) hp
  · exact fun i hi _ _ _ hp => absurd (hzero i hi) hp
  · exact fun i hi hp => absurd (hzero i hi) hp

/-- The state that vmm_init leaves: no user page has a table, and the pool
begins 16 megabytes behind the kernel. -/
structure Booted (kernelEnd : Word) (bs : List Block) (s : Vmm) : Prop where
  /-- The invariant holds. -/
  inv : VmmInv bs s
  /-- No user page has a table. -/
  noTables : ∀ i<768,pde s i=0
  /-- First frame of the pool. -/
  physBase : s.physBase=alignUp kernelEnd 4096+0x1000000
  /-- Frames of the pool. -/
  totalPages : s.totalPages=4096
  /-- The first frame is handed out next. -/
  nextFreePage : s.nextFreePage=s.physBase

/-- The first frame of the pool lies at a page address. -/
theorem poolBase_aligned (kernelEnd : Word) : Aligned (alignUp kernelEnd 4096+0x1000000) := by
  have hal := alignUp_aligned kernelEnd
  unfold Aligned at hal ⊢
  bv_omega

/-- vmm_init when kmalloc returned a page for the directory. -/
theorem vmmInit_room {h t : Heap} {cs : List Block} {p : Word} {fuel : ℕ}
    (hrun : kmalloc fuel h pageSize=some (t,p)) (hp : p≠0) (ht : Represents t cs)
    (hres : Reserved t cs p) (kernelEnd : Word) :
    ∃ s,vmmInit fuel h kernelEnd=some s ∧ Booted kernelEnd cs s ∧ s.heap.heapStart=t.heapStart := by
  unfold vmmInit
  dsimp only
  obtain ⟨hinv,hzero⟩ := vmmInv_init ht hres hp (poolBase_aligned kernelEnd)
    (keepsBelow_kernelEntries (alignUp kernelEnd 4096) _ hres.fits)
  rw [hrun,Option.map_some]
  dsimp only
  rw [if_neg hp,if_neg hp]
  exact ⟨_,rfl,⟨hinv,hzero,rfl,rfl,rfl⟩,rfl⟩

/-- vmm_init returns and establishes the invariant. The kernel ends behind the
heap. -/
theorem vmmInit_booted {h : Heap} {bs : List Block} (hs : Represents h bs) {kernelEnd : Word}
    (hout : h.heapEnd.toNat≤(alignUp kernelEnd 4096).toNat) {fuel : ℕ} (hf : 2^32≤fuel) :
    ∃ s cs,vmmInit fuel h kernelEnd=some s ∧ Booted kernelEnd cs s := by
  have hal := alignUp_aligned kernelEnd
  obtain hnull|⟨t,p,cs,hrun,hp,ht,hres,_⟩ := kmalloc_page hs hf
  · have hne : alignUp kernelEnd 4096≠0 := by
      intro hzero
      have htiles := hs.tiles
      have hend : h.heapEnd.toNat=0 := by
        rw [hzero] at hout
        exact Nat.le_zero.mp hout
      cases bs with
      | nil => exact hs.nonempty rfl
      | cons b bs =>
        simp only [extent] at htiles
        omega
    have hres : Reserved h bs (alignUp kernelEnd 4096) := ⟨hal.fits,Or.inr (Or.inr hout)⟩
    obtain ⟨hinv,hzero⟩ := vmmInv_init hs hres hne (poolBase_aligned kernelEnd)
      (keepsBelow_kernelEntries (alignUp kernelEnd 4096+pageSize) _ hal.fits)
    unfold vmmInit
    dsimp only
    rw [hnull,Option.map_some]
    exact ⟨_,bs,rfl,⟨hinv,hzero,rfl,rfl,rfl⟩⟩
  · obtain ⟨s,hinit,hbooted,_⟩ := vmmInit_room hrun hp ht hres kernelEnd
    exact ⟨s,cs,hinit,hbooted⟩

end EronKernel.VmmTables

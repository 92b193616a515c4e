import EronKernel.HeapLayout

/-!
# Allocation and release on represented heaps

kmalloc, kfree and coalesce_free_blocks are run on a represented heap and
shown to be first fit, release and merging of the block list. Each statement
gives the list represented afterwards and the used payloads that were kept;
fuel of one turn per block is enough for every walk.
-/

namespace EronKernel.HeapOps

open ByteMemory FuelLoop BlockList HeapModel HeapLayout

/-- ALIGN8 rounds the wrapped sum down to a multiple of eight. -/
theorem align8_eq_shift (x : Word) : align8 x=(x+7)>>>3<<<3 := by
  unfold align8
  generalize x+7=y
  apply BitVec.eq_of_getLsbD_eq
  intro i hi
  simp only [BitVec.getLsbD_and,BitVec.getLsbD_not,BitVec.getLsbD_shiftLeft,
    BitVec.getLsbD_ushiftRight,hi,decide_true,Bool.true_and]
  by_cases h3 : i<3
  · interval_cases i <;> simp
  · have h7 : (7#32).getLsbD i=false := by
      interval_cases i <;> rfl
    rw [show 3+(i-3)=i by omega]
    simp [h3,h7]

/-- The rounded request as a number. -/
theorem toNat_align8 (x : Word) : (align8 x).toNat=(x.toNat+7)%2^32/8*8 := by
  have h7 : (7 : Word).toNat=7 := rfl
  rw [align8_eq_shift]
  simp only [BitVec.toNat_shiftLeft,BitVec.toNat_ushiftRight,BitVec.toNat_add,h7,
    Nat.shiftRight_eq_div_pow,Nat.shiftLeft_eq]
  omega

/-- Bytes that a header write can touch. -/
theorem header_writes_frame {m : Mem} {a : ℕ} (ha : a+12≤2^32) (size magic : Word) (used : Byte)
    {x : Word} (hx : ¬(a≤x.toNat ∧ x.toNat<a+12)) :
    setSize m (BitVec.ofNat 32 a) size x=m x ∧ setMagic m (BitVec.ofNat 32 a) magic x=m x ∧
      setUsed m (BitVec.ofNat 32 a) used x=m x := by
  refine ⟨store32_of_not_inRange _ ?_,store32_of_not_inRange _ ?_,store8_of_ne _ ?_⟩
  · unfold InRange
    bv_omega
  · unfold InRange
    bv_omega
  · bv_omega

/-- Rewriting the size of a stored header. -/
theorem headerAt_setSize {m : Mem} {a : ℕ} {b : Block} (size : Word) (hh : HeaderAt m a b) :
    HeaderAt (setSize m (BitVec.ofNat 32 a) size) a ⟨size.toNat,b.used⟩ := by
  refine ⟨?_,?_,?_⟩
  · exact congrArg BitVec.toNat (load32_store32 _ _ _)
  · rw [←hh.magic]
    exact load32_store32_of_apart _ (by bv_omega) (by bv_omega)
  · rw [←hh.used]
    exact store32_of_not_inRange _ (by unfold InRange; bv_omega)

/-- Rewriting the mark of a stored header. -/
theorem headerAt_setUsed {m : Mem} {a : ℕ} {b : Block} (used : Bool) (hh : HeaderAt m a b) :
    HeaderAt (setUsed m (BitVec.ofNat 32 a) (if used then blockUsed else blockFree)) a
      ⟨b.size,used⟩ := by
  refine ⟨?_,?_,?_⟩
  · rw [←hh.size]
    exact congrArg BitVec.toNat (load32_store8_of_apart _ (by unfold InRange; bv_omega))
  · rw [←hh.magic]
    exact load32_store8_of_apart _ (by unfold InRange; bv_omega)
  · exact store8_same _ _ _

/-- A header written field by field. -/
theorem headerAt_write (m : Mem) (a : ℕ) (size : Word) (used : Bool) :
    HeaderAt (setUsed (setMagic (setSize m (BitVec.ofNat 32 a) size) (BitVec.ofNat 32 a) blockMagic)
      (BitVec.ofNat 32 a) (if used then blockUsed else blockFree)) a ⟨size.toNat,used⟩ := by
  refine ⟨?_,?_,store8_same _ _ _⟩
  · unfold hdrSize setUsed setMagic setSize
    rw [load32_store8_of_apart _ (by unfold InRange; bv_omega),
      load32_store32_of_apart _ (by bv_omega) (by bv_omega),load32_store32]
  · unfold hdrMagic setUsed setMagic setSize
    rw [load32_store8_of_apart _ (by unfold InRange; bv_omega),load32_store32]

/-- The block at a header handed out, as kmalloc does before it records the
pointer. -/
def handOut (s : Heap) (hdr wanted : Word) : Heap :=
  let s := splitBlock s hdr wanted
  {s with mem := setUsed s.mem hdr blockUsed}

/-- split_block leaves a block alone when the rest is too small. -/
theorem splitBlock_small {s : Heap} {hdr wanted : Word}
    (hs : (hdrSize s.mem hdr).toNat-wanted.toNat≤28) (hw : wanted.toNat≤(hdrSize s.mem hdr).toNat) :
    splitBlock s hdr wanted=s := by
  unfold splitBlock
  dsimp only
  rw [if_pos]
  unfold headerSize minSplitPayload
  bv_omega

/-- split_block writes two headers when the rest is large enough. -/
theorem splitBlock_large {s : Heap} {hdr wanted : Word}
    (hs : 28<(hdrSize s.mem hdr).toNat-wanted.toNat) :
    let newHdr := hdr+headerSize+wanted
    splitBlock s hdr wanted=
      {s with mem := setSize (setUsed (setMagic (setSize s.mem newHdr
        (hdrSize s.mem hdr-wanted-headerSize)) newHdr blockMagic) newHdr blockFree) hdr wanted} := by
  unfold splitBlock
  dsimp only
  rw [if_neg]
  unfold headerSize minSplitPayload
  bv_omega

/-- Handing out a free block too small to split changes its mark. -/
theorem handOut_small {s : Heap} {a sz : ℕ} {wanted : Word} (hh : HeaderAt s.mem a ⟨sz,false⟩)
    (hw : wanted.toNat ≤ sz) (hs : sz-wanted.toNat≤28) :
    handOut s (BitVec.ofNat 32 a) wanted=
      {s with mem := setUsed s.mem (BitVec.ofNat 32 a) blockUsed} := by
  have hsize : (hdrSize s.mem (BitVec.ofNat 32 a)).toNat=sz := hh.size
  have hk : splitBlock s (BitVec.ofNat 32 a) wanted=s := splitBlock_small (by omega) (by omega)
  simp only [handOut,hk]

/-- Handing out a larger free block writes the header of the free rest and
the size and mark of the chosen block. -/
theorem handOut_large {s : Heap} {a sz : ℕ} {wanted : Word} (hh : HeaderAt s.mem a ⟨sz,false⟩)
    (ha : a+12+sz≤2^32) (hs : 28<sz-wanted.toNat) :
    let new := BitVec.ofNat 32 (a+12+wanted.toNat)
    let rest := BitVec.ofNat 32 (sz-wanted.toNat-12)
    handOut s (BitVec.ofNat 32 a) wanted=
      {s with mem := setUsed (setSize (setUsed (setMagic (setSize s.mem new rest) new blockMagic)
        new blockFree) (BitVec.ofNat 32 a) wanted) (BitVec.ofNat 32 a) blockUsed} := by
  have hsize : (hdrSize s.mem (BitVec.ofNat 32 a)).toNat=sz := hh.size
  have hk := splitBlock_large (by omega : 28<(hdrSize s.mem (BitVec.ofNat 32 a)).toNat-wanted.toNat)
  have hnew : BitVec.ofNat 32 a+headerSize+wanted=BitVec.ofNat 32 (a+12+wanted.toNat) := by
    unfold headerSize
    bv_omega
  have hrest : hdrSize s.mem (BitVec.ofNat 32 a)-wanted-headerSize=
      BitVec.ofNat 32 (sz-wanted.toNat-12) := by
    unfold headerSize
    bv_omega
  dsimp only at hk ⊢
  rw [hnew,hrest] at hk
  simp only [handOut,hk]

/-- Handing out a free block carves it in memory and touches only its own
extent. -/
theorem handOut_headers {s : Heap} {a sz : ℕ} {wanted : Word} (hh : HeaderAt s.mem a ⟨sz,false⟩)
    (ha : a+12+sz≤2^32) (hw : wanted.toNat ≤ sz) :
    SameStatics s (handOut s (BitVec.ofNat 32 a) wanted) ∧
      (∀ x : Word,¬(a≤x.toNat ∧ x.toNat<a+(12+sz))→
        (handOut s (BitVec.ofNat 32 a) wanted).mem x=s.mem x) ∧
      ∀ p∈placed 12 a (carve 12 16 wanted.toNat sz),
        HeaderAt (handOut s (BitVec.ofNat 32 a) wanted).mem p.1 p.2 := by
  by_cases hs : sz-wanted.toNat≤28
  · rw [handOut_small hh hw hs]
    refine ⟨⟨rfl,rfl,rfl⟩,?_,?_⟩
    · intro x hx
      exact (header_writes_frame (by omega) 0 0 _ (by omega)).2.2
    · intro p hp
      rw [carve,if_neg (by omega)] at hp
      simp only [placed,List.mem_singleton] at hp
      rw [hp]
      exact headerAt_setUsed true hh
  · rw [handOut_large hh ha (by omega)]
    refine ⟨⟨rfl,rfl,rfl⟩,?_,?_⟩
    · intro x hx
      have hnew : a+12+wanted.toNat+12≤2^32 := by omega
      dsimp only
      rw [(header_writes_frame (by omega) 0 0 _ (by omega)).2.2,
        (header_writes_frame (by omega) _ 0 0 (by omega)).1,
        (header_writes_frame hnew 0 0 _ (by omega)).2.2,
        (header_writes_frame hnew 0 _ 0 (by omega)).2.1,
        (header_writes_frame hnew _ 0 0 (by omega)).1]
    · intro p hp
      rw [carve,if_pos (by omega)] at hp
      simp only [placed,List.mem_cons,List.not_mem_nil,or_false] at hp
      rcases hp with rfl|rfl
      · refine headerAt_setUsed true (headerAt_setSize wanted (headerAt_congr ?_ ?_ hh))
        · omega
        · intro x hx hx'
          have hnew : a+12+wanted.toNat+12≤2^32 := by omega
          rw [(header_writes_frame hnew 0 0 _ (by omega)).2.2,
            (header_writes_frame hnew 0 _ 0 (by omega)).2.1,
            (header_writes_frame hnew _ 0 0 (by omega)).1]
      · have hrest : (BitVec.ofNat 32 (sz-wanted.toNat-12)).toNat=sz-wanted.toNat-12 := by
          rw [BitVec.toNat_ofNat]
          omega
        have hw := headerAt_write s.mem (a+12+wanted.toNat) (BitVec.ofNat 32 (sz-wanted.toNat-12)) false
        rw [hrest] at hw
        refine headerAt_congr (by dsimp only; omega) ?_ hw
        intro x hx hx'
        dsimp only at hx hx' ⊢
        rw [(header_writes_frame (by omega) 0 0 _ (by omega)).2.2,
          (header_writes_frame (by omega) _ 0 0 (by omega)).1]
        rfl

/-- Handing out a free block of a represented heap carves the block list and
keeps every used payload. -/
theorem handOut_represents {s : Heap} {l r : List Block} {sz : ℕ} {wanted : Word}
    (h : Represents s (l++⟨sz,false⟩::r)) (hw : wanted.toNat ≤ sz) :
    let t := handOut s (BitVec.ofNat 32 (s.heapStart.toNat+extent 12 l)) wanted
    Represents t (l++carve 12 16 wanted.toNat sz++r) ∧ SameStatics s t ∧
      KeepsPayloads (l++⟨sz,false⟩::r) s t := by
  intro t
  obtain ⟨hh,he⟩ := h.at_split
  have hend := s.heapEnd.isLt
  dsimp only at he
  obtain ⟨hstat,hframe,hnew⟩ := handOut_headers hh (by omega) hw
  have hsplit : l++⟨sz,false⟩::r=l++[⟨sz,false⟩]++r := by simp
  have hframe' : ∀ x : Word,¬(s.heapStart.toNat+extent 12 l≤x.toNat ∧
      x.toNat<s.heapStart.toNat+extent 12 l+extent 12 [⟨sz,false⟩])→t.mem x=s.mem x := by
    intro x hx
    apply hframe
    simpa only [extent,Nat.add_zero] using hx
  rw [hsplit] at h ⊢
  refine ⟨h.replace hstat ?_ ?_ hframe' hnew,hstat,Represents.keepsPayloads ?_ hframe'⟩
  · unfold carve
    split <;> simp
  · rw [extent_carve hw]
    rfl
  · simp

/-- The result of a successful search at a header. -/
def handOutTracked (s : Heap) (hdr wanted : Word) : Heap×Word :=
  let t := handOut s hdr wanted
  ({t with tracked := trackAdd t.tracked (hdr+headerSize) (hdrSize t.mem hdr)},hdr+headerSize)

/-- The mark of a represented header tells whether the block is free. -/
theorem hdrUsed_eq_free_iff {m : Mem} {a : ℕ} {b : Block} (hh : HeaderAt m a b) :
    hdrUsed m (BitVec.ofNat 32 a)=blockFree ↔ b.used=false := by
  rw [hh.used]
  cases b.used <;> decide

/-- One turn of the search at a represented block. -/
theorem kmallocTurn_at {s : Heap} {l r : List Block} {b : Block} (wanted : Word)
    (h : Represents s (l++b::r)) :
    let hdr := BitVec.ofNat 32 (s.heapStart.toNat+extent 12 l)
    kmallocTurn s wanted hdr=
      if Fits wanted.toNat b then .done (handOutTracked s hdr wanted)
      else if r=[] then .done (s,0)
      else .again (BitVec.ofNat 32 (s.heapStart.toNat+extent 12 (l++[b]))) := by
  intro hdr
  obtain ⟨_,hlt,hvalid,hnext⟩ := h.walk
  have hh := h.at_split.1
  have hfit : (hdrUsed s.mem hdr=blockFree ∧ wanted≤hdrSize s.mem hdr) ↔ Fits wanted.toNat b := by
    unfold Fits
    rw [←hh.size]
    exact and_congr (hdrUsed_eq_free_iff hh) BitVec.le_def
  unfold kmallocTurn
  rw [if_neg (BitVec.not_le.mpr hlt),if_neg (by rw [hvalid]; decide)]
  by_cases hf : Fits wanted.toNat b
  · rw [if_pos hf,if_pos (hfit.mpr hf)]
    rfl
  · rw [if_neg hf,if_neg (fun hc => hf (hfit.mp hc))]
    dsimp only
    rw [hnext]
    cases r with
    | nil => rfl
    | cons c r =>
      simp only [List.cons_ne_nil,if_false]
      rw [if_neg h.next_ne_zero]

/-- The search returns the first fitting block, or NULL when none fits. -/
theorem kmalloc_search {s : Heap} (wanted : Word) (r : List Block) :
    ∀ (l : List Block) (fuel : ℕ),Represents s (l++r)→ r≠[]→ r.length≤fuel→
      (∃ x sz y,r=x++⟨sz,false⟩::y ∧ wanted.toNat ≤ sz ∧ (∀ b∈x,¬Fits wanted.toNat b) ∧
        runLoop (kmallocTurn s wanted) fuel (BitVec.ofNat 32 (s.heapStart.toNat+extent 12 l))=
          some (handOutTracked s (BitVec.ofNat 32 (s.heapStart.toNat+extent 12 (l++x))) wanted)) ∨
      ((∀ b∈r,¬Fits wanted.toNat b) ∧
        runLoop (kmallocTurn s wanted) fuel (BitVec.ofNat 32 (s.heapStart.toNat+extent 12 l))=
          some (s,0)) := by
  induction r with
  | nil => exact fun _ _ _ hne => absurd rfl hne
  | cons b r ih =>
    intro l fuel h _ hf
    obtain ⟨fuel,rfl⟩ : ∃ n,fuel=n+1 := ⟨fuel-1,by simp only [List.length_cons] at hf; omega⟩
    have hturn := kmallocTurn_at wanted h
    dsimp only at hturn
    by_cases hfit : Fits wanted.toNat b
    · rw [if_pos hfit] at hturn
      obtain ⟨hu,hw⟩ := hfit
      refine Or.inl ⟨[],b.size,r,?_,hw,by simp,?_⟩
      · rw [←hu]
        rfl
      · rw [runLoop_done _ hturn,List.append_nil]
    · rw [if_neg hfit] at hturn
      cases r with
      | nil =>
        rw [if_pos rfl] at hturn
        refine Or.inr ⟨?_,runLoop_done _ hturn⟩
        simpa using hfit
      | cons c r =>
        rw [if_neg (List.cons_ne_nil _ _)] at hturn
        rw [runLoop_again _ hturn]
        have hrest : Represents s ((l++[b])++c::r) := by simpa using h
        rcases ih (l++[b]) fuel hrest (List.cons_ne_nil _ _) (by simpa using hf) with hfound|hnone
        · obtain ⟨x,sz,y,hr,hw,hx,hrun⟩ := hfound
          refine Or.inl ⟨b::x,sz,y,by rw [hr]; rfl,hw,?_,?_⟩
          · intro d hd
            rcases List.mem_cons.mp hd with rfl|hd
            · exact hfit
            · exact hx d hd
          · rw [hrun]
            simp only [List.append_assoc,List.singleton_append]
        · obtain ⟨hx,hrun⟩ := hnone
          refine Or.inr ⟨?_,hrun⟩
          intro d hd
          rcases List.mem_cons.mp hd with rfl|hd
          · exact hfit
          · exact hx d hd

/-- Merging a free block with its free neighbour rewrites one size field. -/
theorem merge_represents {s : Heap} {l r : List Block} {b c : Block}
    (h : Represents s (l++b::c::r)) (hb : b.used=false) :
    let hdr := BitVec.ofNat 32 (s.heapStart.toNat+extent 12 l)
    let t := {s with mem := setSize s.mem hdr (BitVec.ofNat 32 (b.size+12+c.size))}
    Represents t (l++⟨b.size+12+c.size,false⟩::r) ∧ SameStatics s t ∧
      OnlyHeaders (l++b::c::r) s t := by
  intro hdr t
  obtain ⟨hh,he⟩ := h.at_split
  have hend := s.heapEnd.isLt
  simp only [extent] at he
  have hstat : SameStatics s t := ⟨rfl,rfl,rfl⟩
  have hframe : ∀ x : Word,¬(s.heapStart.toNat+extent 12 l≤x.toNat ∧
      x.toNat<s.heapStart.toNat+extent 12 l+extent 12 [b,c])→t.mem x=s.mem x := by
    intro x hx
    simp only [extent] at hx
    exact (header_writes_frame (by omega) _ 0 0 (by omega)).1
  have hsplit : l++b::c::r=l++[b,c]++r := by simp
  have hsplit' : l++⟨b.size+12+c.size,false⟩::r=l++[⟨b.size+12+c.size,false⟩]++r := by simp
  rw [hsplit] at h ⊢
  rw [hsplit']
  refine ⟨h.replace hstat (by simp) ?_ hframe ?_,hstat,?_⟩
  · simp only [extent]
    omega
  · intro p hp
    simp only [placed,List.mem_singleton] at hp
    have hsize : (BitVec.ofNat 32 (b.size+12+c.size)).toNat=b.size+12+c.size := by
      rw [BitVec.toNat_ofNat]
      omega
    have hw := headerAt_setSize (BitVec.ofNat 32 (b.size+12+c.size)) hh
    rw [hsize,hb] at hw
    rw [hp]
    exact hw
  · intro x hx
    have hin : (s.heapStart.toNat+extent 12 l,b)∈placed 12 s.heapStart.toNat (l++[b,c]++r) := by
      rw [←hsplit,placed_append]
      simp [placed]
    exact (header_writes_frame (by omega) _ 0 0 (fun hc => hx ⟨_,hin,hc.1,hc.2⟩)).1

/-- Merging places no header at a new address. -/
theorem placed_merge {l r : List Block} {b c : Block} (base : ℕ) :
    ∀ p∈placed 12 base (l++⟨b.size+12+c.size,false⟩::r),∃ q∈placed 12 base (l++b::c::r),q.1=p.1 := by
  intro p hp
  simp only [placed_append,List.mem_append,placed,List.mem_cons] at hp ⊢
  rcases hp with hp|hp|hp
  · exact ⟨p,Or.inl hp,rfl⟩
  · exact ⟨(base+extent 12 l,b),Or.inr (Or.inl rfl),by rw [hp]⟩
  · refine ⟨p,Or.inr (Or.inr (Or.inr ?_)),rfl⟩
    rwa [show base+extent 12 l+12+b.size+12+c.size=base+extent 12 l+12+(b.size+12+c.size) by omega]

/-- The last block ends the merging loop. -/
theorem coalesceTurn_last {s : Heap} {l : List Block} {b : Block} (h : Represents s (l++[b])) :
    coalesceTurn (s,BitVec.ofNat 32 (s.heapStart.toNat+extent 12 l))=.done s := by
  obtain ⟨_,hlt,hvalid,hnext⟩ := h.walk
  rw [if_pos rfl] at hnext
  unfold coalesceTurn
  dsimp only
  rw [if_neg (BitVec.not_le.mpr hlt),if_neg (by rw [hvalid]; decide),hnext,if_pos rfl]

/-- One turn of the merging loop at a block with a successor. -/
theorem coalesceTurn_at {s : Heap} {l r : List Block} {b c : Block}
    (h : Represents s (l++b::c::r)) :
    let hdr := BitVec.ofNat 32 (s.heapStart.toNat+extent 12 l)
    coalesceTurn (s,hdr)=
      if b.used=false ∧ c.used=false then
        .again ({s with mem := setSize s.mem hdr (BitVec.ofNat 32 (b.size+12+c.size))},hdr)
      else .again (s,BitVec.ofNat 32 (s.heapStart.toNat+extent 12 (l++[b]))) := by
  intro hdr
  obtain ⟨_,hlt,hvalid,hnext⟩ := h.walk
  have hrest : Represents s ((l++[b])++c::r) := by simpa using h
  obtain ⟨_,_,hvalid',_⟩ := hrest.walk
  have hh := h.at_split.1
  have hh' := hrest.at_split.1
  rw [if_neg (List.cons_ne_nil _ _)] at hnext
  have hfree : (hdrUsed s.mem hdr=blockFree ∧
      hdrUsed s.mem (BitVec.ofNat 32 (s.heapStart.toNat+extent 12 (l++[b])))=blockFree) ↔
      (b.used=false ∧ c.used=false) :=
    and_congr (hdrUsed_eq_free_iff hh) (hdrUsed_eq_free_iff hh')
  have hsum : hdrSize s.mem hdr+(headerSize+
      hdrSize s.mem (BitVec.ofNat 32 (s.heapStart.toNat+extent 12 (l++[b]))))=
      BitVec.ofNat 32 (b.size+12+c.size) := by
    have hb := hh.size
    have hc := hh'.size
    apply BitVec.eq_of_toNat_eq
    have hhead : headerSize.toNat=12 := rfl
    simp only [BitVec.toNat_add,BitVec.toNat_ofNat,hhead]
    rw [hb,hc]
    omega
  unfold coalesceTurn
  dsimp only
  rw [if_neg (BitVec.not_le.mpr hlt),if_neg (by rw [hvalid]; decide),hnext,
    if_neg h.next_ne_zero,if_neg (by rw [hvalid']; decide),hsum]
  by_cases hf : b.used=false ∧ c.used=false
  · rw [if_pos hf,if_pos (hfree.mpr hf)]
  · rw [if_neg hf,if_neg (fun hc => hf (hfree.mp hc))]

/-- The merging loop merges every run of free blocks from its header on. -/
theorem coalesce_run (r : List Block) :
    ∀ (s : Heap) (l : List Block) (b : Block) (fuel : ℕ),Represents s (l++b::r)→ r.length<fuel→
      ∃ t,runLoop coalesceTurn fuel (s,BitVec.ofNat 32 (s.heapStart.toNat+extent 12 l))=some t ∧
        Represents t (l++coalesceFrom 12 b r) ∧ SameStatics s t ∧
        OnlyHeaders (l++b::r) s t := by
  induction r with
  | nil =>
    intro s l b fuel h hf
    obtain ⟨fuel,rfl⟩ : ∃ n,fuel=n+1 := ⟨fuel-1,by omega⟩
    exact ⟨s,runLoop_done _ (coalesceTurn_last h),h,⟨rfl,rfl,rfl⟩,fun _ _ => rfl⟩
  | cons c r ih =>
    intro s l b fuel h hf
    obtain ⟨fuel,rfl⟩ : ∃ n,fuel=n+1 := ⟨fuel-1,by omega⟩
    have hturn := coalesceTurn_at h
    dsimp only at hturn
    simp only [List.length_cons,Nat.add_lt_add_iff_right] at hf
    by_cases hm : b.used=false ∧ c.used=false
    · obtain ⟨hrep,hstat,hkeep⟩ := merge_represents h hm.1
      rw [if_pos hm] at hturn
      obtain ⟨t,hrun,ht,hst,hk⟩ := ih _ l _ fuel hrep hf
      refine ⟨t,(runLoop_again _ hturn).trans hrun,?_,hstat.trans hst,
        hkeep.trans rfl (placed_merge _) hk⟩
      rw [coalesceFrom,if_pos hm]
      exact ht
    · rw [if_neg hm] at hturn
      have hrest : Represents s ((l++[b])++c::r) := by simpa using h
      obtain ⟨t,hrun,ht,hst,hk⟩ := ih s (l++[b]) c fuel hrest hf
      refine ⟨t,(runLoop_again _ hturn).trans hrun,?_,hst,?_⟩
      · rw [coalesceFrom,if_neg hm]
        simpa using ht
      · simpa using hk

/-- Clearing the mark of a used block of a represented heap. -/
theorem release_represents {s t : Heap} {l r : List Block} {sz : ℕ}
    (h : Represents s (l++⟨sz,true⟩::r)) (hstart : t.heapStart=s.heapStart)
    (hend : t.heapEnd=s.heapEnd)
    (hmem : t.mem=setUsed s.mem (BitVec.ofNat 32 (s.heapStart.toNat+extent 12 l)) blockFree) :
    Represents t (l++⟨sz,false⟩::r) ∧ OnlyHeaders (l++⟨sz,true⟩::r) s t := by
  obtain ⟨hh,he⟩ := h.at_split
  have hbound := s.heapEnd.isLt
  dsimp only at he
  have hin : (s.heapStart.toNat+extent 12 l,⟨sz,true⟩)∈
      placed 12 s.heapStart.toNat (l++⟨sz,true⟩::r) := by
    rw [placed_append]
    simp [placed]
  have honly : OnlyHeaders (l++⟨sz,true⟩::r) s t := by
    intro x hx
    rw [hmem]
    exact (header_writes_frame (by omega) 0 0 _ (fun hc => hx ⟨_,hin,hc.1,hc.2⟩)).2.2
  refine ⟨?_,honly⟩
  have hsplit : l++⟨sz,true⟩::r=l++[⟨sz,true⟩]++r := by simp
  have hsplit' : l++⟨sz,false⟩::r=l++[⟨sz,false⟩]++r := by simp
  have hstat : SameStatics s {t with tracked := s.tracked} := ⟨hstart,hend,rfl⟩
  rw [hsplit] at h
  rw [hsplit']
  have hrep := h.replace hstat (y := [⟨sz,false⟩]) (by simp) rfl ?_ ?_
  · exact ⟨hrep.nonempty,hrep.tiles,hrep.headers⟩
  · intro x hx
    simp only [extent,Nat.add_zero] at hx
    dsimp only
    rw [hmem]
    exact (header_writes_frame (by omega) 0 0 _ (by omega)).2.2
  · intro p hp
    simp only [placed,List.mem_singleton] at hp
    rw [hp]
    dsimp only
    rw [hmem]
    exact headerAt_setUsed false hh

/-- Merging a whole represented heap. -/
theorem coalesceFreeBlocks_run {s : Heap} {bs : List Block} {fuel : ℕ}
    (h : Represents s bs) (hf : bs.length≤fuel) :
    ∃ t,coalesceFreeBlocks fuel s=some t ∧ Represents t (coalesce 12 bs) ∧ SameStatics s t ∧
      OnlyHeaders bs s t := by
  cases bs with
  | nil => exact absurd rfl h.nonempty
  | cons b bs =>
    obtain ⟨t,hrun,ht,hst,hk⟩ := coalesce_run bs s [] b fuel h hf
    simp only [extent,Nat.add_zero,BitVec.ofNat_toNat,BitVec.setWidth_eq] at hrun
    exact ⟨t,hrun,ht,hst,hk⟩

/-- The accounting walk adds the payloads with the mark from its header on. -/
theorem sum_run {s : Heap} (used : Bool) (r : List Block) :
    ∀ (l : List Block) (fuel : ℕ) (sum : Word),Represents s (l++r)→ r≠[]→ r.length≤fuel→
      runLoop (sumTurn s (if used then blockUsed else blockFree)) fuel
        (BitVec.ofNat 32 (s.heapStart.toNat+extent 12 l),sum)=
          some (sum+BitVec.ofNat 32 (payload used r)) := by
  induction r with
  | nil => exact fun _ _ _ _ hne => absurd rfl hne
  | cons b r ih =>
    intro l fuel sum h _ hf
    obtain ⟨fuel,rfl⟩ : ∃ n,fuel=n+1 := ⟨fuel-1,by simp only [List.length_cons] at hf; omega⟩
    obtain ⟨_,hlt,hvalid,hnext⟩ := h.walk
    have hh := h.at_split.1
    have hsize : hdrSize s.mem (BitVec.ofNat 32 (s.heapStart.toNat+extent 12 l))=
        BitVec.ofNat 32 b.size := by
      rw [←hh.size]
      simp
    have hsum : (if hdrUsed s.mem (BitVec.ofNat 32 (s.heapStart.toNat+extent 12 l))=
          (if used then blockUsed else blockFree) then
          sum+hdrSize s.mem (BitVec.ofNat 32 (s.heapStart.toNat+extent 12 l)) else sum)=
        sum+BitVec.ofNat 32 (if b.used=used then b.size else 0) := by
      rw [hh.used,hsize]
      cases b.used <;> cases used <;> simp [blockUsed,blockFree]
    have hturn : sumTurn s (if used then blockUsed else blockFree)
        (BitVec.ofNat 32 (s.heapStart.toNat+extent 12 l),sum)=
        if r=[] then .done (sum+BitVec.ofNat 32 (if b.used=used then b.size else 0))
        else .again (BitVec.ofNat 32 (s.heapStart.toNat+extent 12 (l++[b])),
          sum+BitVec.ofNat 32 (if b.used=used then b.size else 0)) := by
      unfold sumTurn
      dsimp only
      rw [if_neg (BitVec.not_le.mpr hlt),if_neg (by rw [hvalid]; decide),hsum,hnext]
      cases r with
      | nil => rfl
      | cons c r =>
        simp only [List.cons_ne_nil,if_false]
        rw [if_neg h.next_ne_zero]
    cases r with
    | nil =>
      rw [if_pos rfl] at hturn
      rw [runLoop_done _ hturn]
      simp [payload]
    | cons c r =>
      rw [if_neg (List.cons_ne_nil _ _)] at hturn
      have hrest : Represents s ((l++[b])++c::r) := by simpa using h
      rw [runLoop_again _ hturn,ih (l++[b]) fuel _ hrest (List.cons_ne_nil _ _) (by simpa using hf)]
      have hp : payload used (b::c::r)=(if b.used=used then b.size else 0)+payload used (c::r) := rfl
      rw [hp,BitVec.ofNat_add,BitVec.add_assoc]

/-- mm_used is the used payload of the represented blocks. -/
theorem mmUsed_eq {s : Heap} {bs : List Block} {fuel : ℕ} (h : Represents s bs)
    (hf : bs.length≤fuel) : mmUsed fuel s=some (BitVec.ofNat 32 (payload true bs)) := by
  have hs := sum_run true bs [] fuel 0 h h.nonempty hf
  simpa [extent,mmUsed,firstBlock] using hs

/-- mm_free is the free payload of the represented blocks. -/
theorem mmFree_eq {s : Heap} {bs : List Block} {fuel : ℕ} (h : Represents s bs)
    (hf : bs.length≤fuel) : mmFree fuel s=some (BitVec.ofNat 32 (payload false bs)) := by
  have hs := sum_run false bs [] fuel 0 h h.nonempty hf
  simpa [extent,mmFree,firstBlock] using hs

end EronKernel.HeapOps

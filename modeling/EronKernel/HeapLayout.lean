import EronKernel.BlockList
import EronKernel.HeapModel

/-!
# Block lists represented in heap memory

A heap state represents a block list when the list tiles the heap exactly
and every placed block has its header in memory. Under this relation each
trusted header is valid and next_block walks the list. One local update rule
replaces consecutive blocks by others of the same extent; allocation, release
and merging are instances of it.
-/

namespace EronKernel.HeapLayout

open ByteMemory FuelLoop BlockList HeapModel

/-- The header of an abstract block is stored at a numeric address. -/
structure HeaderAt (m : Mem) (a : ℕ) (b : Block) : Prop where
  /-- The size field holds the payload size. -/
  size : (hdrSize m (BitVec.ofNat 32 a)).toNat=b.size
  /-- The magic field is intact. -/
  magic : hdrMagic m (BitVec.ofNat 32 a)=blockMagic
  /-- The used field holds one of its two marks. -/
  used : hdrUsed m (BitVec.ofNat 32 a)=if b.used then blockUsed else blockFree

/-- The state stores exactly this tiling of the heap. -/
structure Represents (s : Heap) (bs : List Block) : Prop where
  /-- The heap has at least one block. -/
  nonempty : bs≠[]
  /-- Headers and payloads cover the heap without gap or overlap. -/
  tiles : s.heapStart.toNat+extent 12 bs=s.heapEnd.toNat
  /-- Every placed block has its header in memory. -/
  headers : ∀ p∈placed 12 s.heapStart.toNat bs,HeaderAt s.mem p.1 p.2

/-- No byte of a used payload differs between two states. -/
def KeepsPayloads (bs : List Block) (s t : Heap) : Prop :=
  ∀ p∈usedPlaced 12 s.heapStart.toNat bs,∀ x : Word,
    p.1+12≤x.toNat→x.toNat<p.1+12+p.2.size→t.mem x=s.mem x

/-- The address lies in the header of a placed block. -/
def HeaderByte (base : ℕ) (bs : List Block) (x : Word) : Prop :=
  ∃ p∈placed 12 base bs,p.1≤x.toNat ∧ x.toNat<p.1+12

/-- Only header bytes differ between two states. -/
def OnlyHeaders (bs : List Block) (s t : Heap) : Prop :=
  ∀ x : Word,¬HeaderByte s.heapStart.toNat bs x→t.mem x=s.mem x

/-- Only memory differs between two states. -/
structure SameStatics (s t : Heap) : Prop where
  /-- The heap starts at the same address. -/
  heapStart : t.heapStart=s.heapStart
  /-- The heap ends at the same address. -/
  heapEnd : t.heapEnd=s.heapEnd
  /-- The tracker is the same. -/
  tracked : t.tracked=s.tracked

/-- Equal statics compose. -/
theorem SameStatics.trans {s t u : Heap} (hst : SameStatics s t) (htu : SameStatics t u) :
    SameStatics s u :=
  ⟨htu.heapStart.trans hst.heapStart,htu.heapEnd.trans hst.heapEnd,htu.tracked.trans hst.tracked⟩

/-- A header is determined by its twelve bytes. -/
theorem headerAt_congr {m n : Mem} {a : ℕ} {b : Block} (ha : a+12≤2^32)
    (hm : ∀ x : Word,a≤x.toNat→x.toNat<a+12→n x=m x) (hh : HeaderAt m a b) :
    HeaderAt n a b := by
  have hs : hdrSize n (BitVec.ofNat 32 a)=hdrSize m (BitVec.ofNat 32 a) := by
    apply load32_congr
    intro x hx
    unfold InRange at hx
    exact hm x (by bv_omega) (by bv_omega)
  have hg : hdrMagic n (BitVec.ofNat 32 a)=hdrMagic m (BitVec.ofNat 32 a) := by
    apply load32_congr
    intro x hx
    unfold InRange at hx
    exact hm x (by bv_omega) (by bv_omega)
  have hu : hdrUsed n (BitVec.ofNat 32 a)=hdrUsed m (BitVec.ofNat 32 a) := by
    unfold hdrUsed
    exact hm _ (by bv_omega) (by bv_omega)
  exact ⟨by rw [hs,hh.size],by rw [hg,hh.magic],by rw [hu,hh.used]⟩

/-- Facts about one block of a represented list: its header, and where its
extent ends. -/
theorem Represents.at_split {s : Heap} {l r : List Block} {b : Block}
    (h : Represents s (l++b::r)) :
    HeaderAt s.mem (s.heapStart.toNat+extent 12 l) b ∧
      s.heapStart.toNat+extent 12 l+12+b.size+extent 12 r=s.heapEnd.toNat := by
  constructor
  · apply h.headers (s.heapStart.toNat+extent 12 l,b)
    rw [placed_append]
    simp [placed]
  · have ht := h.tiles
    simp only [extent_append,extent] at ht
    omega

/-- A represented heap ends below the top of memory. -/
theorem Represents.extent_lt {s : Heap} {bs : List Block} (h : Represents s bs) :
    s.heapStart.toNat+extent 12 bs<2^32 := by
  rw [h.tiles]
  exact s.heapEnd.isLt

/-- A represented heap has fewer blocks than addresses. -/
theorem Represents.length_le {s : Heap} {bs : List Block} (h : Represents s bs) :
    bs.length≤2^32 := by
  have he := h.extent_lt
  have hl := @length_mul_le_extent 12 bs
  omega

/-- The header of a represented block passes every check, and next_block
leads to the following block or to NULL behind the last one. -/
theorem Represents.walk {s : Heap} {l r : List Block} {b : Block}
    (h : Represents s (l++b::r)) :
    let hdr := BitVec.ofNat 32 (s.heapStart.toNat+extent 12 l)
    hdr.toNat=s.heapStart.toNat+extent 12 l ∧ hdr<s.heapEnd ∧
      isBlockValid s hdr=true ∧
      nextBlock s hdr=if r=[] then 0 else
        BitVec.ofNat 32 (s.heapStart.toNat+extent 12 (l++[b])) := by
  intro hdr
  obtain ⟨hh,he⟩ := h.at_split
  have hend := s.heapEnd.isLt
  have hn : hdr.toNat=s.heapStart.toNat+extent 12 l := by
    simp only [hdr,BitVec.toNat_ofNat]
    omega
  have hsize : (hdrSize s.mem hdr).toNat=b.size := hh.size
  have hmagic : hdrMagic s.mem hdr=blockMagic := hh.magic
  have htotal : (hdr+blockTotalSize s hdr).toNat=hdr.toNat+12+b.size := by
    unfold blockTotalSize headerSize
    bv_omega
  have hhead : (hdr+headerSize).toNat=hdr.toNat+12 := by
    unfold headerSize
    bv_omega
  refine ⟨hn,by bv_omega,?_,?_⟩
  · unfold isBlockValid
    rw [if_neg,if_neg (not_not.mpr hmagic),if_neg]
    · bv_omega
    · bv_omega
  · unfold nextBlock
    dsimp only
    cases r with
    | nil =>
      simp only [extent,Nat.add_zero] at he
      rw [if_pos rfl,if_pos]
      bv_omega
    | cons c r =>
      simp only [extent] at he
      rw [if_neg (List.cons_ne_nil c r),if_neg]
      · apply BitVec.eq_of_toNat_eq
        simp only [htotal,BitVec.toNat_ofNat,extent_append,extent]
        omega
      · bv_omega

/-- The address of a following block is never NULL. -/
theorem Represents.next_ne_zero {s : Heap} {l r : List Block} {b c : Block}
    (h : Represents s (l++b::c::r)) :
    BitVec.ofNat 32 (s.heapStart.toNat+extent 12 (l++[b]))≠0 := by
  have he := h.at_split.2
  have hend := s.heapEnd.isLt
  simp only [extent,extent_append] at he ⊢
  bv_omega

/-- Local update rule: consecutive blocks may be replaced by blocks of the
same extent whose headers are in the new memory, when nothing outside that
extent changed. -/
theorem Represents.replace {s t : Heap} {l x y r : List Block}
    (h : Represents s (l++x++r)) (hs : SameStatics s t) (hy : y≠[])
    (hext : extent 12 y=extent 12 x)
    (hframe : ∀ a : Word,
      ¬(s.heapStart.toNat+extent 12 l≤a.toNat ∧
        a.toNat<s.heapStart.toNat+extent 12 l+extent 12 x)→t.mem a=s.mem a)
    (hnew : ∀ p∈placed 12 (s.heapStart.toNat+extent 12 l) y,HeaderAt t.mem p.1 p.2) :
    Represents t (l++y++r) := by
  have ht := h.tiles
  have hend := s.heapEnd.isLt
  simp only [extent_append] at ht
  refine ⟨by simp [hy],by rw [hs.heapStart,hs.heapEnd]; simp only [extent_append]; omega,?_⟩
  intro p hp
  rw [hs.heapStart] at hp
  have hold := h.headers p
  rw [placed_append,placed_append] at hp hold
  simp only [List.mem_append,extent_append,hext] at hp hold
  rcases hp with (hp|hp)|hp
  · have hb := placed_bounds hp
    refine headerAt_congr (by omega) (fun a ha hb' => hframe a ?_) (hold (Or.inl (Or.inl hp)))
    omega
  · exact hnew p hp
  · have hb := placed_bounds hp
    refine headerAt_congr (by omega) (fun a ha hb' => hframe a ?_) (hold (Or.inr hp))
    omega

/-- Two lists represented from the same header on are equal. -/
theorem Represents.unique_from {s : Heap} (x : List Block) :
    ∀ (l y : List Block),Represents s (l++x)→Represents s (l++y)→ x=y := by
  induction x with
  | nil =>
    intro l y hx hy
    cases y with
    | nil => rfl
    | cons c y =>
      have htx := hx.tiles
      have hty := hy.tiles
      simp only [extent_append,extent] at htx hty
      omega
  | cons b x ih =>
    intro l y hx hy
    cases y with
    | nil =>
      have htx := hx.tiles
      have hty := hy.tiles
      simp only [extent_append,extent] at htx hty
      omega
    | cons c y =>
      have hb := hx.at_split.1
      have hc := hy.at_split.1
      have hsize : b.size=c.size := hb.size.symm.trans hc.size
      have hmark := hb.used.symm.trans hc.used
      have hused : b.used=c.used := by
        cases hbu : b.used <;> cases hcu : c.used <;> simp_all [blockUsed,blockFree]
      obtain rfl : b=c := by
        cases b
        cases c
        simp_all
      rw [ih (l++[b]) y (by simpa using hx) (by simpa using hy)]

/-- A state represents at most one list. -/
theorem Represents.unique {s : Heap} {bs cs : List Block} (hb : Represents s bs)
    (hc : Represents s cs) : bs=cs :=
  Represents.unique_from bs [] cs hb hc

/-- When only the extent of free blocks changed, every used payload is kept. -/
theorem Represents.keepsPayloads {s t : Heap} {l x r : List Block}
    (hx : ∀ b∈x,b.used=false)
    (hframe : ∀ a : Word,
      ¬(s.heapStart.toNat+extent 12 l≤a.toNat ∧
        a.toNat<s.heapStart.toNat+extent 12 l+extent 12 x)→t.mem a=s.mem a) :
    KeepsPayloads (l++x++r) s t := by
  intro p hp a ha hb
  apply hframe
  rw [usedPlaced_append,usedPlaced_append] at hp
  simp only [List.mem_append,extent_append] at hp
  rcases hp with (hp|hp)|hp
  · have hbound := placed_bounds (List.mem_filter.mp hp).1
    omega
  · obtain ⟨hp,hu⟩ := List.mem_filter.mp hp
    obtain ⟨l',r',hsplit,_⟩ := exists_split_of_mem_placed hp
    have hf := hx p.2 (by rw [hsplit]; simp)
    rw [hf] at hu
    cases hu
  · have hbound := placed_bounds (List.mem_filter.mp hp).1
    omega

/-- Header writes keep every payload. -/
theorem OnlyHeaders.keepsPayloads {s t : Heap} {bs : List Block} (h : OnlyHeaders bs s t) :
    KeepsPayloads bs s t := by
  intro p hp x hx hx'
  apply h
  rintro ⟨q,hq,hlo,hhi⟩
  have he := placed_eq_of_overlap (List.mem_filter.mp hp).1 hq (by omega) (by omega)
  rw [he] at hx
  omega

/-- Header writes compose when no header address is new. -/
theorem OnlyHeaders.trans {s t u : Heap} {bs cs : List Block} (hst : OnlyHeaders bs s t)
    (hstart : t.heapStart=s.heapStart)
    (haddr : ∀ p∈placed 12 s.heapStart.toNat cs,∃ q∈placed 12 s.heapStart.toNat bs,q.1=p.1)
    (htu : OnlyHeaders cs t u) : OnlyHeaders bs s u := by
  intro x hx
  rw [←hst x hx]
  apply htu
  rintro ⟨p,hp,hlo,hhi⟩
  rw [hstart] at hp
  obtain ⟨q,hq,he⟩ := haddr p hp
  exact hx ⟨q,hq,by omega,by omega⟩

end EronKernel.HeapLayout

import EronKernel.HeapRuns

/-!
# Integrity of the kernel heap over whole runs

The representation invariant is restated in the words of mm.c: what a walk
with next_block meets, which blocks are marked used, and which bytes a call
may change. The tracker's capacity decides exactly which runs keep every
live pointer releasable.
-/

namespace EronKernel.HeapIntegrity

open ByteMemory FuelLoop BlockList HeapModel HeapLayout HeapOps HeapRuns

/-- The walk with next_block from a header visits exactly these headers; each
carries the magic and one of the two marks, each block ends where the next
header starts, and the last block ends at heap_end. -/
def WalkTiles (s : Heap) : Word→List Word→Prop
  | _,[] => False
  | hdr,h::hs =>
    h=hdr ∧ hdrMagic s.mem h=blockMagic ∧
      (hdrUsed s.mem h=blockFree ∨ hdrUsed s.mem h=blockUsed) ∧
      match hs with
      | [] => nextBlock s h=0 ∧ h.toNat+12+(hdrSize s.mem h).toNat=s.heapEnd.toNat
      | _::_ => nextBlock s h≠0 ∧ (nextBlock s h).toNat=h.toNat+12+(hdrSize s.mem h).toNat ∧
          WalkTiles s (nextBlock s h) hs

/-- The address lies in the payload of the pointer's block. -/
def InPayload (st : Session) (p x : Word) : Prop :=
  (x-p).toNat<(hdrSize st.heap.mem (p-headerSize)).toNat

/-- The heap is intact: walk, marks, live pointers and frame conditions. -/
structure Intact (start size : Word) (st : Session) (hs : List Word) : Prop where
  /-- The heap starts where mm_init placed it. -/
  heapStart : st.heap.heapStart=align8 start
  /-- The heap ends where mm_init ended it, without wrapping. -/
  heapEnd : st.heap.heapEnd.toNat=(align8 start).toNat+size.toNat
  /-- The blocks tile the heap from heap_start to heap_end. -/
  tiles : WalkTiles st.heap st.heap.heapStart hs
  /-- No two consecutive blocks are both free. -/
  merged : hs.IsChain fun h k =>
    ¬(hdrUsed st.heap.mem h=blockFree ∧ hdrUsed st.heap.mem k=blockFree)
  /-- One block per live pointer. -/
  liveNodup : st.live.Nodup
  /-- The used blocks are exactly the live allocations. -/
  liveUsed : ∀ p,p∈st.live ↔ ∃ h∈hs,hdrUsed st.heap.mem h=blockUsed ∧ p=h+headerSize
  /-- Live payloads are pairwise disjoint. -/
  payloadsDisjoint : ∀ p∈st.live,∀ q∈st.live,∀ x,InPayload st p x→InPayload st q x→p=q
  /-- Live payloads are disjoint from every header. -/
  headersApart : ∀ p∈st.live,∀ h∈hs,∀ x,InPayload st p x→¬InRange h 12 x
  /-- No allocator call changes a byte of a live payload. -/
  payloadsKept : ∀ (c : HeapCall) (fuel : ℕ) (next : Session),c.IsAllocator→
    perform fuel st c=some next→∀ p∈st.live,∀ x,InPayload st p x→ next.heap.mem x=st.heap.mem x
  /-- Every permitted call returns. -/
  returns : ∀ c : HeapCall,c.Permitted st→∃ fuel next,perform fuel st c=some next
  /-- With nothing live the heap is the one free block of mm_init again. -/
  released : st.live=[]→hs=[st.heap.heapStart] ∧ hdrUsed st.heap.mem st.heap.heapStart=blockFree ∧
    (hdrSize st.heap.mem st.heap.heapStart).toNat=size.toNat-12

/-- Header addresses of placed blocks as machine words. -/
def headerWords (base : ℕ) (bs : List Block) : List Word :=
  (placed 12 base bs).map fun p => BitVec.ofNat 32 p.1

/-- The walk over the rest of a represented heap. -/
theorem walkTiles_of_represents {s : Heap} (r : List Block) :
    ∀ l : List Block,Represents s (l++r)→ r≠[]→
      WalkTiles s (BitVec.ofNat 32 (s.heapStart.toNat+extent 12 l))
        (headerWords (s.heapStart.toNat+extent 12 l) r) := by
  induction r with
  | nil => exact fun _ _ hne => absurd rfl hne
  | cons b r ih =>
    intro l h _
    obtain ⟨hn,_,_,hnext⟩ := h.walk
    obtain ⟨hh,he⟩ := h.at_split
    have hend := s.heapEnd.isLt
    refine ⟨rfl,hh.magic,?_,?_⟩
    · have hu := hh.used
      dsimp only
      rw [hu]
      cases b.used <;> simp
    · cases r with
      | nil =>
        refine ⟨hnext,?_⟩
        rw [hn,hh.size]
        simp only [extent,Nat.add_zero] at he
        exact he
      | cons c r =>
        rw [if_neg (List.cons_ne_nil _ _)] at hnext
        have hrest : Represents s ((l++[b])++c::r) := by simpa using h
        have htiles := ih (l++[b]) hrest (List.cons_ne_nil _ _)
        have hbase : s.heapStart.toNat+extent 12 (l++[b])=s.heapStart.toNat+extent 12 l+12+b.size := by
          simp only [extent_append,extent]
          omega
        refine ⟨?_,?_,?_⟩
        · rw [hnext]
          exact h.next_ne_zero
        · rw [hnext,hn,hh.size,BitVec.toNat_ofNat,hbase]
          simp only [extent] at he
          omega
        · rw [hnext]
          rw [hbase] at htiles ⊢
          exact htiles

/-- Separated blocks have separated marks in memory. -/
theorem merged_of_represents {s : Heap} (r : List Block) :
    ∀ l : List Block,Represents s (l++r)→Separated r→
      (headerWords (s.heapStart.toNat+extent 12 l) r).IsChain fun h k =>
        ¬(hdrUsed s.mem h=blockFree ∧ hdrUsed s.mem k=blockFree) := by
  induction r with
  | nil => exact fun _ _ _ => List.isChain_nil
  | cons b r ih =>
    intro l h hs
    cases r with
    | nil => exact List.isChain_singleton _
    | cons c r =>
      have hrest : Represents s ((l++[b])++c::r) := by simpa using h
      obtain ⟨hbc,hs⟩ := List.isChain_cons_cons.mp hs
      have hbase : s.heapStart.toNat+extent 12 (l++[b])=s.heapStart.toNat+extent 12 l+12+b.size := by
        simp only [extent_append,extent]
        omega
      have ht := ih (l++[b]) hrest hs
      have hc := hrest.at_split.1
      rw [hbase] at ht hc
      refine List.isChain_cons_cons.mpr ⟨?_,ht⟩
      rintro ⟨hb,hk⟩
      have hbf := (hdrUsed_eq_free_iff h.at_split.1).mp hb
      have hcf := (hdrUsed_eq_free_iff hc).mp hk
      rw [hbf,hcf] at hbc
      simp at hbc

/-- Live pointers are the payloads of the headers marked used. -/
theorem mem_live_iff {st : Session} {bs : List Block} (h : HeapInv st bs) (p : Word) :
    p∈st.live ↔ ∃ k∈headerWords st.heap.heapStart.toNat bs,
      hdrUsed st.heap.mem k=blockUsed ∧ p=k+headerSize := by
  rw [h.live.mem_iff]
  have hadd : ∀ a : ℕ,BitVec.ofNat 32 (a+12)=BitVec.ofNat 32 a+headerSize := by
    intro a
    unfold headerSize
    bv_omega
  constructor
  · intro hp
    obtain ⟨q,hq,rfl⟩ := List.mem_map.mp hp
    obtain ⟨hq,hu⟩ := List.mem_filter.mp hq
    refine ⟨_,List.mem_map_of_mem hq,?_,hadd _⟩
    rw [(h.represents.headers q hq).used,hu]
    rfl
  · rintro ⟨k,hk,hu,rfl⟩
    obtain ⟨q,hq,rfl⟩ := List.mem_map.mp hk
    refine List.mem_map.mpr ⟨q,List.mem_filter.mpr ⟨hq,?_⟩,hadd _⟩
    have hmark := (h.represents.headers q hq).used
    rw [hu] at hmark
    cases hq : q.2.used with
    | true => rfl
    | false =>
      rw [hq] at hmark
      simp at hmark

/-- A live payload is the payload of one placed used block. -/
theorem placed_of_live {st : Session} {bs : List Block} (h : HeapInv st bs) {p : Word}
    (hp : p∈st.live) :
    ∃ q∈usedPlaced 12 st.heap.heapStart.toNat bs,p.toNat=q.1+12 ∧ q.1+12+q.2.size<2^32 ∧
      (hdrSize st.heap.mem (p-headerSize)).toNat=q.2.size := by
  obtain ⟨l,sz,r,hbs,hpn,_,hsize,hbound⟩ := h.block_of_live hp
  have hend := st.heap.heapEnd.isLt
  refine ⟨(st.heap.heapStart.toNat+extent 12 l,⟨sz,true⟩),?_,hpn,by dsimp only; omega,?_⟩
  · rw [hbs,usedPlaced_append,usedPlaced_cons]
    simp
  · rw [hsize,BitVec.toNat_ofNat]
    dsimp only
    omega

/-- With nothing live a represented heap is one free block. -/
theorem released_of_inv {st : Session} {bs : List Block} (h : HeapInv st bs) (hl : st.live=[]) :
    ∃ sz,bs=[⟨sz,false⟩] := by
  have hnone : usedPtrs st.heap.heapStart.toNat bs=[] := by
    have hp := h.live
    rw [hl] at hp
    exact hp.nil_eq.symm
  have hfree : ∀ b∈bs,b.used=false := by
    intro b hb
    cases hu : b.used with
    | false => rfl
    | true =>
      obtain ⟨l,r,rfl⟩ := List.append_of_mem hb
      rw [usedPtrs_append,usedPtrs_cons,hu] at hnone
      simp at hnone
  have hlen := length_le_one_of_separated h.separated hfree
  match bs,h.represents.nonempty,hlen,hfree with
  | [],hne,_,_ => exact absurd rfl hne
  | [b],_,_,hf =>
    refine ⟨b.size,?_⟩
    rw [←hf b List.mem_cons_self]
  | _::_::_,_,hlen,_ =>
    simp only [List.length_cons] at hlen
    omega

/-- The address in a live payload lies in the payload of one placed used
block. -/
theorem placed_of_inPayload {st : Session} {bs : List Block} (h : HeapInv st bs) {p x : Word}
    (hp : p∈st.live) (hx : InPayload st p x) :
    ∃ q∈usedPlaced 12 st.heap.heapStart.toNat bs,p.toNat=q.1+12 ∧ q.1+12 ≤ x.toNat ∧
      x.toNat<q.1+12+q.2.size := by
  obtain ⟨q,hq,hpq,hbound,hsize⟩ := placed_of_live h hp
  unfold InPayload at hx
  rw [hsize] at hx
  exact ⟨q,hq,hpq,by bv_omega,by bv_omega⟩

/-- Live payloads are pairwise disjoint. -/
theorem payloads_disjoint {st : Session} {bs : List Block} (h : HeapInv st bs) {p q x : Word}
    (hp : p∈st.live) (hq : q∈st.live) (hx : InPayload st p x) (hy : InPayload st q x) : p=q := by
  obtain ⟨a,ha,hpa,hx1,hx2⟩ := placed_of_inPayload h hp hx
  obtain ⟨b,hb,hqb,hy1,hy2⟩ := placed_of_inPayload h hq hy
  have he := placed_eq_of_overlap (List.mem_filter.mp ha).1 (List.mem_filter.mp hb).1
    (by omega) (by omega)
  apply BitVec.eq_of_toNat_eq
  rw [hpa,hqb,he]

/-- Live payloads are disjoint from every header. -/
theorem payload_apart_header {st : Session} {bs : List Block} (h : HeapInv st bs) {p hdr x : Word}
    (hp : p∈st.live) (hh : hdr∈headerWords st.heap.heapStart.toNat bs) (hx : InPayload st p x) :
    ¬InRange hdr 12 x := by
  intro hin
  obtain ⟨a,ha,hpa,hx1,hx2⟩ := placed_of_inPayload h hp hx
  obtain ⟨b,hb,rfl⟩ := List.mem_map.mp hh
  have hext := h.represents.extent_lt
  have hbb := placed_bounds hb
  unfold InRange at hin
  have hn : (BitVec.ofNat 32 b.1).toNat=b.1 := by
    rw [BitVec.toNat_ofNat]
    omega
  have hin' : b.1≤x.toNat ∧ x.toNat<b.1+12 := by bv_omega
  have he := placed_eq_of_overlap (List.mem_filter.mp ha).1 hb (by omega) (by omega)
  rw [←he] at hin'
  omega

/-- With nothing live the heap is one free block. -/
theorem released_headers {st : Session} {bs : List Block} (h : HeapInv st bs) (hl : st.live=[]) :
    headerWords st.heap.heapStart.toNat bs=[st.heap.heapStart] ∧
      hdrUsed st.heap.mem st.heap.heapStart=blockFree ∧
      st.heap.heapStart.toNat+12+(hdrSize st.heap.mem st.heap.heapStart).toNat=st.heap.heapEnd.toNat := by
  obtain ⟨sz,rfl⟩ := released_of_inv h hl
  have hh := h.represents.headers (st.heap.heapStart.toNat,⟨sz,false⟩) (by simp [placed])
  have ht := h.represents.tiles
  have hsz := hh.size
  have hu := hh.used
  simp only [extent] at ht
  simp only [BitVec.ofNat_toNat,BitVec.setWidth_eq,Bool.false_eq_true,if_false] at hsz hu
  refine ⟨by simp [headerWords,placed],hu,?_⟩
  rw [hsz]
  omega

/-- In every state that any sequence of allocator calls and client writes
reaches from mm_init, the heap is intact. -/
theorem heap_intact_of_reachable {start size : Word} (hsize : 12 ≤ size.toNat)
    (hfit : (align8 start).toNat+size.toNat<2^32) {st : Session} (hr : Reachable start size st) :
    ∃ hs,Intact start size st hs := by
  obtain ⟨bs,hinv,hstart,hend⟩ := reachable_inv hsize hfit hr
  have hrep := hinv.represents
  have hendNat : st.heap.heapEnd.toNat=(align8 start).toNat+size.toNat := by
    rw [hend]
    bv_omega
  have htiles := walkTiles_of_represents bs [] hrep hrep.nonempty
  have hmerged := merged_of_represents bs [] hrep hinv.separated
  simp only [extent,Nat.add_zero,BitVec.ofNat_toNat,BitVec.setWidth_eq] at htiles hmerged
  refine ⟨headerWords st.heap.heapStart.toNat bs,hstart,hendNat,htiles,hmerged,hinv.live_nodup,
    mem_live_iff hinv,?_,?_,?_,?_,?_⟩
  · exact fun p hp q hq x => payloads_disjoint hinv hp hq
  · exact fun p hp h hh x => payload_apart_header hinv hp hh
  · intro c fuel next hc hp p hm x hx
    obtain ⟨cs,hstep⟩ := callStep_of_perform hinv hp
    obtain ⟨a,ha,hpa,hx1,hx2⟩ := placed_of_inPayload hinv hm hx
    exact hstep.keeps hc a ha x hx1 hx2
  · intro c hc
    obtain ⟨next,_,hp,_⟩ := perform_step hinv c hc (Nat.le_refl (2^32))
    exact ⟨_,next,hp⟩
  · intro hl
    obtain ⟨hone,hfree,hspan⟩ := released_headers hinv hl
    rw [hendNat,hstart] at hspan
    rw [hstart] at hone hfree ⊢
    exact ⟨hone,hfree,by omega⟩

/-- A zeroed static tracker. -/
def emptyTracker : Tracker :=
  ⟨List.replicate 256 ⟨0,0,false⟩,List.length_replicate⟩

/-- The one-megabyte heap at 0x100000 over zeroed memory. -/
def megabyteHeap : Session := ⟨mmInit (fun _ => 0) emptyTracker 0x100000 0x100000,[]⟩

/-- That heap is reached by mm_init. -/
theorem megabyteHeap_reachable : Reachable 0x100000 0x100000 megabyteHeap :=
  Reachable.init (fun _ => 0) emptyTracker

/-- The heap is intact after the first allocation of a one-megabyte heap. -/
theorem heap_intact_after_kmalloc :
    ∃ next hs,perform (2^32) megabyteHeap (.kmalloc 64)=some next ∧
      Intact 0x100000 0x100000 next hs := by
  have hinv : HeapInv megabyteHeap _ :=
    mmInit_inv (fun _ => 0) emptyTracker (by decide) (by decide)
  obtain ⟨next,_,hp,_⟩ := perform_step hinv (.kmalloc 64) trivial (Nat.le_refl (2^32))
  obtain ⟨hs,hi⟩ := heap_intact_of_reachable (by decide) (by decide)
    (Reachable.call (2^32) (.kmalloc 64) megabyteHeap_reachable hp)
  exact ⟨next,hs,hp,hi⟩

/-- Every live pointer can be released: kfree returns one and mm_used drops
by the size of the block. -/
def Releasable (st : Session) : Prop :=
  ∀ p∈st.live,∃ fuel t before after,kfree fuel st.heap p=some (t,1) ∧
    mmUsed fuel st.heap=some before ∧ mmUsed fuel t=some after ∧
    before.toNat=after.toNat+(hdrSize st.heap.mem (p-headerSize)).toNat

/-- One call of a run. -/
def Calls (st next : Session) : Prop := ∃ fuel c,perform fuel st c=some next

/-- The states of one run: it starts with mm_init and every state follows
from the one before by a call that returned. -/
def IsRun (start size : Word) (sts : List Session) : Prop :=
  (∃ m t,sts.head?=some ⟨mmInit m t start size,[]⟩) ∧
    sts.IsChain Calls

/-- A pointer that kfree accepted was tracked. -/
theorem tracked_of_kfree {fuel : ℕ} {s t : Heap} {p : Word} (hk : kfree fuel s p=some (t,1)) :
    p∈trackedPtrs s.tracked := by
  by_contra hn
  rw [kfree_untracked hn] at hk
  cases hk

/-- Tracked live pointers are releasable. -/
theorem releasable_of_allTracked {st : Session} {bs : List Block} (h : HeapInv st bs)
    (ha : AllTracked st) : Releasable st := by
  intro p hp
  obtain ⟨t,cs,hk,hstep,_,hpay⟩ := kfree_tracked h (ha p hp) (Nat.le_refl (2^32))
  have hb := mmUsed_eq h.represents h.represents.length_le
  have hc := mmUsed_eq hstep.inv.represents hstep.inv.represents.length_le
  have hbl := @payload_le_extent 12 true bs
  have hcl := @payload_le_extent 12 true cs
  have hbe := h.represents.extent_lt
  have hce := hstep.inv.represents.extent_lt
  refine ⟨2^32,t,_,_,hk,hb,hc,?_⟩
  rw [BitVec.toNat_ofNat,BitVec.toNat_ofNat,Nat.mod_eq_of_lt (by omega),Nat.mod_eq_of_lt (by omega)]
  exact hpay

/-- Releasable live pointers are at most as many as tracker entries. -/
theorem length_le_of_releasable {st : Session} {bs : List Block} (h : HeapInv st bs)
    (hr : Releasable st) : st.live.length≤256 := by
  have ha : AllTracked st := by
    intro p hp
    obtain ⟨fuel,t,_,_,hk,_⟩ := hr p hp
    exact tracked_of_kfree hk
  exact (length_le_of_allTracked h ha).trans (length_trackedPtrs_le _)

/-- The live pointers of a run are releasable in all its states exactly when
no state holds more live pointers than the tracker has entries. -/
theorem releasable_iff_tracker_suffices {start size : Word} (hsize : 12 ≤ size.toNat)
    (hfit : (align8 start).toNat+size.toNat<2^32) {sts : List Session}
    (hrun : IsRun start size sts) :
    (∀ st∈sts,Releasable st) ↔ ∀ st∈sts,st.live.length≤256 := by
  obtain ⟨⟨m,t,hhead⟩,hchain⟩ := hrun
  have hinit : ∀ hne : sts≠[],HeapInv (sts.head hne) [⟨size.toNat-12,false⟩] ∧
      AllTracked (sts.head hne) := by
    intro hne
    rw [List.head_eq_iff_head?_eq_some hne |>.mpr hhead]
    exact ⟨mmInit_inv m t hsize hfit,fun p hp => absurd hp List.not_mem_nil⟩
  constructor
  · intro hall s hs
    have hinv : ∃ cs,HeapInv s cs := by
      refine hchain.induction (fun s => ∃ cs,HeapInv s cs) sts ?_ (fun hne => ⟨_,(hinit hne).1⟩) s hs
      rintro a b ⟨fuel,c,hp⟩ ⟨bs,hinv⟩
      obtain ⟨cs,hstep⟩ := callStep_of_perform hinv hp
      exact ⟨cs,hstep.inv⟩
    exact length_le_of_releasable hinv.choose_spec (hall s hs)
  · intro hall s hs
    have hbounded : sts.IsChain fun a b => Calls a b ∧ b.live.length≤256 :=
      hchain.imp_of_mem_imp fun a b _ hb hc => ⟨hc,hall b hb⟩
    obtain ⟨cs,hinv,ha⟩ : ∃ cs,HeapInv s cs ∧ AllTracked s := by
      refine hbounded.induction (fun s => ∃ cs,HeapInv s cs ∧ AllTracked s) sts ?_
        (fun hne => ⟨_,hinit hne⟩) s hs
      rintro a b ⟨⟨fuel,c,hp⟩,hlen⟩ ⟨bs,hinv,ha⟩
      obtain ⟨cs,hstep⟩ := callStep_of_perform hinv hp
      exact ⟨cs,hstep.inv,hstep.allTracked ha hlen⟩
    exact releasable_of_allTracked hinv ha

/-- The first allocation of a one-megabyte heap is releasable. -/
theorem releasable_in_megabyteHeap :
    ∃ next,perform 1 megabyteHeap (.kmalloc 64)=some next ∧ next.live=[0x10000C] ∧
      Releasable next := by
  obtain ⟨next,hp,hl⟩ : ∃ next,perform 1 megabyteHeap (.kmalloc 64)=some next ∧
      next.live=[0x10000C] := ⟨_,rfl,by decide +kernel⟩
  refine ⟨next,hp,hl,?_⟩
  have hrun : IsRun 0x100000 0x100000 [megabyteHeap,next] :=
    ⟨⟨fun _ => 0,emptyTracker,rfl⟩,List.isChain_pair.mpr ⟨1,.kmalloc 64,hp⟩⟩
  refine (releasable_iff_tracker_suffices (by decide) (by decide) hrun).mpr ?_ next (by simp)
  simp [megabyteHeap,hl]

/-- Perform calls one after the other. -/
def performAll (fuel : ℕ) (st : Session) (calls : List HeapCall) : Option Session :=
  calls.foldlM (perform fuel) st

/-- The only free block behind a run of used ones is the last block. -/
theorem split_of_replicate_used {k : ℕ} {u f b : Block} (hu : u.used=true) (hb : b.used=false)
    {l r : List Block} (h : List.replicate k u++[f]=l++b::r) :
    l=List.replicate k u ∧ b=f ∧ r=[] := by
  induction k generalizing l with
  | zero =>
    cases l with
    | nil => simpa [eq_comm] using h
    | cons c l => simp at h
  | succ k ih =>
    rw [List.replicate_succ,List.cons_append] at h
    cases l with
    | nil =>
      rw [List.nil_append,List.cons.injEq] at h
      rw [h.1,hb] at hu
      cases hu
    | cons c l =>
      rw [List.cons_append,List.cons.injEq] at h
      obtain ⟨hl,hf⟩ := ih h.2
      exact ⟨by rw [List.replicate_succ,hl,←h.1],hf⟩

/-- Requests of eight bytes carve the one-megabyte heap from the bottom. -/
theorem performAll_eights (k : ℕ) (hk : k≤257) :
    ∃ st,performAll (2^32) megabyteHeap (List.replicate k (.kmalloc 8))=some st ∧
      HeapInv st (List.replicate k ⟨8,true⟩++[⟨1048564-20*k,false⟩]) ∧ st.live.length=k := by
  induction k with
  | zero => exact ⟨megabyteHeap,rfl,mmInit_inv _ _ (by decide) (by decide),rfl⟩
  | succ k ih =>
    obtain ⟨st,hrun,hinv,hlen⟩ := ih (by omega)
    have hw : (align8 8).toNat=8 := by decide
    rcases kmalloc_cases hinv 8 (Nat.le_refl (2^32)) with ⟨_,hnone⟩|⟨l,sz,r,hsplit,_,hsz,_,hfound⟩
    · rcases hnone with hz|hnone
      · cases hz
      · have hfit : Fits (align8 8).toNat ⟨1048564-20*k,false⟩ :=
          ⟨rfl,by rw [hw]; dsimp only; omega⟩
        exact absurd hfit (hnone _ (by simp))
    · obtain ⟨hl,hb,hr⟩ := split_of_replicate_used rfl rfl hsplit
      have hszn : sz=1048564-20*k := congrArg Block.size hb
      subst hl hszn hr
      obtain ⟨_,hnz,_,_,hnext,_⟩ := kmalloc_found hinv hsz
      let out := handOutTracked st.heap
        (BitVec.ofNat 32 (st.heap.heapStart.toNat+extent 12 (List.replicate k ⟨8,true⟩))) (align8 8)
      refine ⟨⟨out.1,out.2::st.live⟩,?_,?_,by simp [hlen]⟩
      · unfold performAll at hrun ⊢
        rw [List.replicate_succ',List.foldlM_append,hrun]
        change (perform (2^32) st (.kmalloc 8)).bind some=_
        simp only [perform,hfound,Option.map_some,if_neg hnz]
        rfl
      · have hcarve : carve 12 16 8 (1048564-20*k)=[⟨8,true⟩,⟨1048564-20*(k+1),false⟩] := by
          unfold carve
          rw [if_pos (by omega),show 1048564-20*k-8-12=1048564-20*(k+1) by omega]
        rw [hw,hcarve,List.append_nil] at hnext
        rw [List.replicate_succ',List.append_assoc]
        exact hnext

/-- After 257 requests of eight bytes some live pointer is refused by kfree,
which returns zero and changes nothing. -/
theorem kfree_refuses_after_257_kmallocs :
    ∃ st,performAll (2^32) megabyteHeap (List.replicate 257 (.kmalloc 8))=some st ∧
      ¬Releasable st ∧ ∃ p∈st.live,∀ fuel,kfree fuel st.heap p=some (st.heap,0) := by
  obtain ⟨st,hrun,hinv,hlen⟩ := performAll_eights 257 (Nat.le_refl _)
  have hnot : ¬AllTracked st := by
    intro ha
    have hle := (length_le_of_allTracked hinv ha).trans (length_trackedPtrs_le _)
    omega
  unfold AllTracked at hnot
  push Not at hnot
  obtain ⟨p,hp,hn⟩ := hnot
  refine ⟨st,hrun,?_,p,hp,kfree_untracked hn⟩
  intro hr
  have hle := length_le_of_releasable hinv hr
  omega

end EronKernel.HeapIntegrity

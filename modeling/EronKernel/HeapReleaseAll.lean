import EronKernel.HeapRelease

/-!
# Releasing everything that is tracked

kfree_all walks the tracker while every kfree it makes clears one entry and
merges blocks. A run of releases is followed one pointer at a time: the entry
cleared is the one the walk stands on, so the entries behind it are those at
the start, and the blocks left are those whose pointers were not yet met.
-/

namespace EronKernel.HeapReleaseAll

open ByteMemory FuelLoop BlockList HeapModel HeapLayout HeapOps HeapRuns HeapIntegrity HeapRelease

/-- The entry with its mark taken away. -/
def cleared (e : TrackedBlock) : TrackedBlock := {e with inUse := false}

/-- The pointer to the payload of a placed block. -/
def payloadPtr (q : ℕ×Block) : Word := BitVec.ofNat 32 (q.1+12)

/-- Pointers released one after the other, with the chain of blocks after each
release. -/
inductive ReleaseRun : Session→List Block→List Word→Session→List Block→Prop where
  /-- Nothing was released. -/
  | nil (st : Session) (bs : List Block) : ReleaseRun st bs [] st bs
  /-- One pointer was released before the others. -/
  | cons {st u : Session} {t : Heap} {l r cs : List Block} {sz : ℕ} {p : Word} {ps : List Word} :
    ReleasesBlock st.heap t l r sz p→
    HeaderStep st ⟨t,st.live.erase p⟩ (l++⟨sz,true⟩::r) (releaseIn 12 l sz r)→
    ReleaseRun ⟨t,st.live.erase p⟩ (releaseIn 12 l sz r) ps u cs→
    ReleaseRun st (l++⟨sz,true⟩::r) (p::ps) u cs

/-- Everything tracked was released and nothing else changed. -/
structure ReleasesTracked (s t : Heap) (bs cs : List Block) : Prop where
  /-- The chain afterwards. -/
  chain : Represents t cs
  /-- The heap did not move. -/
  heapStart : t.heapStart=s.heapStart
  /-- The heap did not grow. -/
  heapEnd : t.heapEnd=s.heapEnd
  /-- No entry of the tracker is in use. -/
  tracker : ∀ e∈t.tracked.entries,e.inUse=false
  /-- Every tracked pointer was that of a used block. -/
  tracked : ∀ p∈trackedPtrs s.tracked,∃ q∈usedPlaced 12 s.heapStart.toNat bs,p=payloadPtr q
  /-- The used blocks are those before, at their addresses and with their
  sizes, whose pointers were not tracked. -/
  used : usedPlaced 12 t.heapStart.toNat cs=
    (usedPlaced 12 s.heapStart.toNat bs).filter fun q => decide (payloadPtr q∉trackedPtrs s.tracked)
  /-- No byte of a payload changed. -/
  contents : KeepsPayloads bs s t
  /-- No byte outside the headers changed. -/
  onlyHeaders : OnlyHeaders bs s t
  /-- No two neighbouring blocks are both free. -/
  separated : Separated cs

/-- kfree of a tracked pointer releases its block and keeps the invariant. -/
theorem kfree_release {st : Session} {bs : List Block} (h : HeapInv st bs) {p : Word}
    (hp : p∈trackedPtrs st.heap.tracked) {fuel : ℕ} (hf : 2^32≤fuel) :
    ∃ t l sz r,kfree fuel st.heap p=some (t,1) ∧ bs=l++⟨sz,true⟩::r ∧
      ReleasesBlock st.heap t l r sz p ∧
      HeaderStep st ⟨t,st.live.erase p⟩ bs (releaseIn 12 l sz r) := by
  obtain ⟨t,l,sz,r,hrun,hbs,hrel⟩ := kfree_releasesBlock h hp hf
  obtain ⟨t',cs,hrun',hstep,_,_⟩ := kfree_tracked h hp hf
  rw [hrun] at hrun'
  cases hrun'
  have hcs : cs=releaseIn 12 l sz r := hstep.inv.represents.unique hrel.chain
  exact ⟨t,l,sz,r,hrun,hbs,hrel,hcs ▸ hstep⟩

/-- Blocks at different addresses have different pointers. -/
theorem payloadPtr_ne {q : ℕ×Block} {p : Word} {a : ℕ} (hp : p.toNat=a+12) (hq : q.1+12<2^32) (hne : q.1≠a) :
    payloadPtr q≠p := by
  rintro rfl
  rw [payloadPtr,BitVec.toNat_ofNat,Nat.mod_eq_of_lt hq] at hp
  omega

/-- The used blocks after one release are those with another pointer. -/
theorem usedPlaced_of_releasesBlock {s t : Heap} {l r : List Block} {sz : ℕ} {p : Word}
    (h : ReleasesBlock s t l r sz p) (hs : Represents s (l++⟨sz,true⟩::r)) :
    usedPlaced 12 t.heapStart.toNat (releaseIn 12 l sz r)=
      (usedPlaced 12 s.heapStart.toNat (l++⟨sz,true⟩::r)).filter
        fun q => decide (payloadPtr q≠p) := by
  have hp := h.ptr
  have hend := hs.extent_lt
  simp only [extent_append,extent] at hend
  have hleft : ∀ q∈usedPlaced 12 s.heapStart.toNat l,decide (payloadPtr q≠p)=true := by
    intro q hq
    have hb := placed_bounds (List.mem_filter.mp hq).1
    exact decide_eq_true (payloadPtr_ne hp (by omega) (by omega))
  have hright : ∀ q∈usedPlaced 12 (s.heapStart.toNat+extent 12 l+12+sz) r,
      decide (payloadPtr q≠p)=true := by
    intro q hq
    have hb := placed_bounds (List.mem_filter.mp hq).1
    exact decide_eq_true (payloadPtr_ne hp (by omega) (by omega))
  have hself : decide (payloadPtr (s.heapStart.toNat+extent 12 l,⟨sz,true⟩)≠p)=false := by
    refine decide_eq_false (not_not.mpr ?_)
    apply BitVec.eq_of_toNat_eq
    rw [hp]
    simp only [payloadPtr,BitVec.toNat_ofNat]
    omega
  rw [h.others,usedPlaced_append,usedPlaced_cons,if_pos rfl,List.filter_append,List.filter_append,
    List.filter_eq_self.mpr hleft,List.filter_eq_self.mpr hright,
    List.filter_cons_of_neg (by rw [hself]; exact Bool.false_ne_true),List.filter_nil,List.nil_append]

/-- What a run of releases leaves of the used blocks, and that it rewrites
headers only. -/
theorem ReleaseRun.facts {st u : Session} {bs cs : List Block} {ps : List Word}
    (h : ReleaseRun st bs ps u cs) (hinv : HeapInv st bs) :
    HeaderStep st u bs cs ∧
      usedPlaced 12 u.heap.heapStart.toNat cs=
        (usedPlaced 12 st.heap.heapStart.toNat bs).filter fun q => decide (payloadPtr q∉ps) := by
  induction h with
  | nil st bs =>
    refine ⟨HeaderStep.refl hinv,?_⟩
    simp
  | cons hrel hstep _ ih =>
    obtain ⟨hrest,hused⟩ := ih hstep.inv
    refine ⟨hstep.trans hrest,?_⟩
    rw [hused]
    dsimp only
    rw [usedPlaced_of_releasesBlock hrel hinv.represents,List.filter_filter]
    apply List.filter_congr
    intro q _
    simp [List.mem_cons,Bool.and_comm]

/-- The entry cleared is the one that was found at an index. -/
theorem clearsOne_eq_set {before after : List TrackedBlock} {p : Word} (h : ClearsOne before after p)
    {i : ℕ} {e : TrackedBlock} (he : before[i]?=some e) (hu : e.inUse=true) (hp : e.ptr=p) :
    after=before.set i (cleared e) := by
  obtain ⟨front,d,back,rfl,_,_,hother,rfl⟩ := h
  have hmem : ∀ c∈front++back,c≠e := by
    rintro c hc rfl
    exact hother c hc ⟨hu,hp⟩
  obtain hlt|rfl|hgt := Nat.lt_trichotomy i front.length
  · rw [List.getElem?_append_left hlt] at he
    exact absurd rfl (hmem e (List.mem_append_left _ (List.mem_of_getElem? he)))
  · rw [List.getElem?_append_right (Nat.le_refl _),Nat.sub_self,List.getElem?_cons_zero] at he
    cases he
    rw [List.set_append_right _ _ (Nat.le_refl _),Nat.sub_self,List.set_cons_zero]
    rfl
  · obtain ⟨k,rfl⟩ : ∃ k,i=front.length+(k+1) := ⟨i-front.length-1,by omega⟩
    rw [List.getElem?_append_right (by omega),Nat.add_sub_cancel_left,List.getElem?_cons_succ] at he
    exact absurd rfl (hmem e (List.mem_append_right _ (List.mem_of_getElem? he)))

/-- Without an entry in use in front of an index, the tracked pointers are those
of the entries from the index on. -/
theorem entryPtrs_eq_drop {ts : List TrackedBlock} {i : ℕ} (h : ∀ e∈ts.take i,e.inUse=false) :
    entryPtrs ts=entryPtrs (ts.drop i) := by
  have hnone : (ts.take i).filter (fun e => e.inUse)=[] := by
    rw [List.filter_eq_nil_iff]
    intro e he
    rw [h e he]
    exact Bool.false_ne_true
  unfold entryPtrs
  conv_lhs => rw [←List.take_append_drop i ts]
  rw [List.filter_append,hnone,List.nil_append]

/-- The walk stands on the first tracked pointer whenever its entry is in use. -/
theorem entryPtrs_at {ts : List TrackedBlock} {i : ℕ} (h : ∀ e∈ts.take i,e.inUse=false)
    {e : TrackedBlock} (he : ts[i]?=some e) :
    entryPtrs ts=(if e.inUse then [e.ptr] else [])++entryPtrs (ts.drop (i+1)) := by
  obtain ⟨hlt,hget⟩ := List.getElem?_eq_some_iff.mp he
  rw [entryPtrs_eq_drop h,List.drop_eq_getElem_cons hlt,hget,entryPtrs_cons]

/-- Without an entry in use up to an index, one more entry that is not in use
moves the index. -/
theorem take_succ_cleared {ts : List TrackedBlock} {i : ℕ} (h : ∀ e∈ts.take i,e.inUse=false)
    {e : TrackedBlock} (he : ts[i]?=some e) (hu : e.inUse=false) :
    ∀ d∈ts.take (i+1),d.inUse=false := by
  intro d hd
  rw [List.take_add_one,he,Option.toList_some] at hd
  obtain hd|hd := List.mem_append.mp hd
  · exact h d hd
  · rw [List.mem_singleton.mp hd]
    exact hu

/-- Clearing the entry at an index leaves the tracked pointers behind it. -/
theorem entryPtrs_set_cleared {ts : List TrackedBlock} {i : ℕ} (h : ∀ e∈ts.take i,e.inUse=false)
    {e : TrackedBlock} (he : ts[i]?=some e) :
    (∀ d∈(ts.set i (cleared e)).take (i+1),d.inUse=false) ∧
      entryPtrs (ts.set i (cleared e))=entryPtrs (ts.drop (i+1)) := by
  obtain ⟨hlt,_⟩ := List.getElem?_eq_some_iff.mp he
  have hclear : ∀ d∈(ts.set i (cleared e)).take (i+1),d.inUse=false := by
    refine take_succ_cleared (e:=cleared e) ?_ (List.getElem?_set_self hlt) rfl
    rw [List.take_set_of_le (Nat.le_refl _)]
    exact h
  refine ⟨hclear,?_⟩
  rw [entryPtrs_eq_drop hclear,List.drop_set_of_lt (Nat.lt_succ_self i)]

/-- Without an entry in use nothing is tracked. -/
theorem trackedPtrs_eq_nil {tr : Tracker} (h : ∀ e∈tr.entries,e.inUse=false) : trackedPtrs tr=[] := by
  unfold trackedPtrs
  rw [entryPtrs_eq_drop (i:=256) (fun e he => h e (List.mem_of_mem_take he)),
    List.drop_eq_nil_of_le tr.length_entries.le]
  rfl

/-- The turn of kfree_all at the first entry in use releases its pointer, and the
pointers behind it are those that stay tracked. -/
theorem kfreeEntry_release {fuel : ℕ} (hf : 2^32≤fuel) {s : Heap} {live : List Word} {bs : List Block}
    (hinv : HeapInv ⟨s,live⟩ bs) {i : ℕ} (hclear : ∀ e∈s.tracked.entries.take i,e.inUse=false)
    {e : TrackedBlock} (he : s.tracked.entries[i]?=some e) (hu : e.inUse=true) (freed : ℤ) :
    ∃ t l sz r,kfreeEntry fuel (s,freed) i=some (t,freed+1) ∧ bs=l++⟨sz,true⟩::r ∧
      ReleasesBlock s t l r sz e.ptr ∧
      HeaderStep ⟨s,live⟩ ⟨t,live.erase e.ptr⟩ bs (releaseIn 12 l sz r) ∧
      (∀ d∈t.tracked.entries.take (i+1),d.inUse=false) ∧
      trackedPtrs s.tracked=e.ptr::trackedPtrs t.tracked := by
  have hat := entryPtrs_at hclear he
  rw [if_pos hu,List.singleton_append] at hat
  have hp : e.ptr∈trackedPtrs s.tracked := by
    rw [trackedPtrs,hat]
    exact List.mem_cons_self
  obtain ⟨t,l,sz,r,hfree,hbs,hrel,hstep⟩ := kfree_release hinv hp hf
  obtain ⟨hclear',hptrs⟩ := entryPtrs_set_cleared hclear he
  rw [←clearsOne_eq_set hrel.tracker he hu rfl] at hclear' hptrs
  dsimp only at hfree
  refine ⟨t,l,sz,r,?_,hbs,hrel,hstep,hclear',?_⟩
  · simp [kfreeEntry,he,hu,hfree]
  · rw [trackedPtrs,trackedPtrs,hat,hptrs]

/-- The walk of kfree_all from an index on, when no entry in front of it is in
use. -/
theorem releaseAll_run {fuel : ℕ} (hf : 2^32≤fuel) (m : ℕ) :
    ∀ {i : ℕ} {s : Heap} {live : List Word} {bs : List Block} (freed : ℤ),i+m=256→
      HeapInv ⟨s,live⟩ bs→(∀ e∈s.tracked.entries.take i,e.inUse=false)→
      ∃ t live' cs,(List.range' i m).foldlM (kfreeEntry fuel) (s,freed)=
          some (t,freed+(trackedPtrs s.tracked).length) ∧
        ReleaseRun ⟨s,live⟩ bs (trackedPtrs s.tracked) ⟨t,live'⟩ cs ∧
        ∀ e∈t.tracked.entries,e.inUse=false := by
  induction m with
  | zero =>
    intro i s live bs freed hi _ hclear
    have hall : s.tracked.entries.take i=s.tracked.entries := by
      apply List.take_of_length_le
      rw [s.tracked.length_entries]
      exact hi.ge
    rw [hall] at hclear
    rw [trackedPtrs_eq_nil hclear]
    exact ⟨s,live,bs,by simp,ReleaseRun.nil _ _,hclear⟩
  | succ m ih =>
    intro i s live bs freed hi hinv hclear
    have hlt : i<s.tracked.entries.length := by
      rw [s.tracked.length_entries]
      unfold maxTrackedBlocks
      omega
    obtain ⟨e,he⟩ : ∃ e,s.tracked.entries[i]?=some e := ⟨_,List.getElem?_eq_getElem hlt⟩
    rw [List.range'_succ,List.foldlM_cons]
    cases hu : e.inUse with
    | false =>
      obtain ⟨t,live',cs,hrun,hrel,hnone⟩ :=
        ih freed (by omega : i+1+m=256) hinv (take_succ_cleared hclear he hu)
      refine ⟨t,live',cs,?_,hrel,hnone⟩
      have hentry : kfreeEntry fuel (s,freed) i=some (s,freed) := by
        simp [kfreeEntry,he,hu]
      rw [hentry]
      exact hrun
    | true =>
      obtain ⟨t1,l,sz,r,hentry,rfl,hrel,hstep,hclear',hptrs⟩ :=
        kfreeEntry_release hf hinv hclear he hu freed
      obtain ⟨t,live',cs,hrun,hrest,hnone⟩ := ih (freed+1) (by omega : i+1+m=256) hstep.inv hclear'
      rw [hptrs,hentry]
      refine ⟨t,live',cs,hrun.trans ?_,ReleaseRun.cons hrel hstep hrest,hnone⟩
      rw [List.length_cons,Nat.cast_add,Nat.cast_one,add_assoc,add_comm 1]

/-- A tracked pointer is that of a used block. -/
theorem exists_used_of_tracked {st : Session} {bs : List Block} (h : HeapInv st bs) {p : Word}
    (hp : p∈trackedPtrs st.heap.tracked) :
    ∃ q∈usedPlaced 12 st.heap.heapStart.toNat bs,p=payloadPtr q := by
  obtain ⟨q,hq,he⟩ := List.mem_map.mp (h.live.mem_iff.mp (h.trackedLive p hp))
  exact ⟨q,hq,he.symm⟩

/-- kfree_all on a heap that keeps the invariant. -/
theorem kfreeAll_releases {st : Session} {bs : List Block} (h : HeapInv st bs) {fuel : ℕ}
    (hf : 2^32≤fuel) :
    ∃ u cs,kfreeAll fuel st.heap=some (u.heap,((trackedPtrs st.heap.tracked).length : ℤ)) ∧
      ReleaseRun st bs (trackedPtrs st.heap.tracked) u cs ∧
      ∀ e∈u.heap.tracked.entries,e.inUse=false := by
  obtain ⟨t,live',cs,hrun,hrel,hnone⟩ := releaseAll_run hf 256 (i:=0) 0 (Nat.zero_add _) h (by simp)
  rw [Int.zero_add,←List.range_eq_range'] at hrun
  exact ⟨⟨t,live'⟩,cs,hrun,hrel,hnone⟩

/-- The number of entries in use is the number of tracked pointers. -/
theorem countP_inUse (ts : List TrackedBlock) :
    ts.countP (fun e => e.inUse)=(entryPtrs ts).length := by
  rw [entryPtrs,List.length_map,List.countP_eq_length_filter]

/-- In every reachable state kfree_all returns the number of entries in use,
clears them all, frees exactly the blocks of their pointers, and leaves every
other used block, every payload byte and the separation of free blocks. -/
theorem kfree_all_releases_tracked {start size : Word} (hsize : 12 ≤ size.toNat)
    (hfit : (align8 start).toNat+size.toNat<2^32) {st : Session} (hr : Reachable start size st) :
    ∃ bs,Represents st.heap bs ∧ ∀ fuel,2^32≤fuel→∃ t cs,
      kfreeAll fuel st.heap=some (t,(st.heap.tracked.entries.countP (fun e => e.inUse) : ℤ)) ∧
        ReleasesTracked st.heap t bs cs := by
  obtain ⟨bs,hinv,_,_⟩ := reachable_inv hsize hfit hr
  refine ⟨bs,hinv.represents,?_⟩
  intro fuel hf
  obtain ⟨u,cs,hrun,hrel,hnone⟩ := kfreeAll_releases hinv hf
  obtain ⟨hstep,hused⟩ := hrel.facts hinv
  refine ⟨u.heap,cs,?_,⟨hstep.inv.represents,hstep.heapStart,hstep.heapEnd,hnone,?_,hused,
    hstep.onlyHeaders.keepsPayloads,hstep.onlyHeaders,hstep.inv.separated⟩⟩
  · rw [countP_inUse]
    exact hrun
  · exact fun p hp => exists_used_of_tracked hinv hp

/-- After one allocation in a one-megabyte heap kfree_all returns one. -/
theorem kfree_all_after_first_kmalloc :
    ∃ next,perform 1 megabyteHeap (.kmalloc 64)=some next ∧
      ∃ t,kfreeAll (2^32) next.heap=some (t,1) ∧ ∀ e∈t.tracked.entries,e.inUse=false := by
  obtain ⟨next,hp,hcount⟩ : ∃ next,perform 1 megabyteHeap (.kmalloc 64)=some next ∧
      next.heap.tracked.entries.countP (fun e => e.inUse)=1 := ⟨_,rfl,by decide +kernel⟩
  have hreach : Reachable 0x100000 0x100000 next :=
    Reachable.call 1 (.kmalloc 64) megabyteHeap_reachable hp
  obtain ⟨bs,_,hall⟩ := kfree_all_releases_tracked (by decide) (by decide) hreach
  obtain ⟨t,cs,hrun,hrel⟩ := hall (2^32) (Nat.le_refl _)
  rw [hcount] at hrun
  exact ⟨next,hp,t,hrun,hrel.tracker⟩

end EronKernel.HeapReleaseAll

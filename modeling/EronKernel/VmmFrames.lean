import EronKernel.VmmRefinement

/-!
# The frames that are handed out

The frame counter is advanced before the frame is checked, also when the check
fails, so it runs through all of memory and wraps. Until then the frames are
distinct frames of the pool. At the last page of memory the advanced counter
is zero and passes the check, and a frame outside the pool is handed out.
-/

namespace EronKernel.VmmFrames

open ByteMemory BlockList HeapModel HeapLayout HeapRuns HeapIntegrity EventTrace WordTable
open VmmModel VmmTables VmmSteps VmmRuns VmmRefinement

/-- The frame that the event stored in a table entry, if any. -/
def handed (e : Event) : Option Word :=
  match e.call with
  | .allocPage virt => if frameOf e.before (pageOf virt)=none then frameOf e.after (pageOf virt) else none
  | .freePage _ => none

/-- The frames that the events stored, in order. -/
def handedOut (es : List Event) : List Word := es.filterMap handed

/-- The frame lies in the pool. -/
def InPool (s : Vmm) (frame : Word) : Prop :=
  s.physBase.toNat≤frame.toNat ∧ frame.toNat < s.physBase.toNat+0x1000000

/-- The frames handed out are distinct frames of the pool, and every entry
holds one of them. -/
structure FramesSafe (s : Vmm) (es : List Event) (t : Vmm) : Prop where
  /-- Every frame handed out lies in the pool. -/
  pool : ∀ frame∈handedOut es,InPool s frame
  /-- No frame is handed out twice. -/
  distinct : (handedOut es).Nodup
  /-- Every frame in a table entry lies in the pool. -/
  stored : ∀ page<0xC0000,∀ frame,frameOf t page=some frame→InPool s frame

/-- The event asks for a frame when the counter is at the last page of
memory: the page has no frame, and there is a table or room for one. -/
def TakesLast (fuel : ℕ) (e : Event) : Prop :=
  ∃ virt,e.call=.allocPage virt ∧ TakesFrame fuel e.before virt ∧ e.before.nextFreePage=0xFFFFF000

/-- The pool begins at the base and has its full size. -/
def PoolIs (base : Word) (s : Vmm) : Prop := s.physBase=base ∧ s.totalPages=4096

/-- No event changes the pool. -/
theorem pool_step {fuel : ℕ} {base : Word} {e : Event} (h : EventOk fuel e) (hp : PoolIs base e.before) :
    PoolIs base e.after := by
  obtain ⟨hbase,htotal⟩ := hp
  obtain ⟨virt,_,⟨_,hstep⟩|⟨_,hstep⟩⟩ := h.step
  · obtain ⟨_,hsame⟩|⟨_,hadv⟩ := hstep.still_or_advanced
    · rw [hsame]
      exact ⟨hbase,htotal⟩
    · exact ⟨hadv.physBase.trans hbase,hadv.totalPages.trans htotal⟩
  · exact ⟨hstep.physBase.trans hbase,hstep.totalPages.trans htotal⟩

/-- A call of vmm_alloc_page hands out the frame that is next when it takes a
usable one, and nothing otherwise. -/
theorem handed_of_isAlloc {fuel : ℕ} {virt : Word} {e : Event} (h : IsAlloc fuel virt e)
    (hv : virt.toNat<0xC0000000) :
    (TakesFrame fuel e.before virt→ FrameUsable e.before→handed e=some e.before.nextFreePage) ∧
      (¬(TakesFrame fuel e.before virt ∧ FrameUsable e.before)→handed e=none) := by
  obtain ⟨before,call,result,after⟩ := e
  obtain ⟨hcall,hstep⟩ := h
  dsimp only at hcall hstep
  subst hcall
  have hp := pageOf_lt hv
  unfold handed
  dsimp only
  cases hstep with
  | mapped hm => exact ⟨fun ht _ => absurd ht.1 hm,fun _ => if_neg hm⟩
  | noTable hm hno => exact ⟨fun ht _ => absurd ht.2 hno,fun _ => (if_pos hm).trans hm⟩
  | refused ht hu _ hsame =>
    refine ⟨fun _ hyes => absurd hyes hu,fun _ => ?_⟩
    rw [if_pos ht.1]
    exact (hsame _ hp).trans ht.1
  | assigned ht hu _ hset =>
    refine ⟨fun _ _ => ?_,fun hno => absurd ⟨ht,hu⟩ hno⟩
    rw [if_pos ht.1]
    exact (hset _ hp).trans (if_pos rfl)

/-- An event leaves the counter and hands out nothing, or it takes the frame
that is next: the counter is advanced, and the frame is handed out when it is
usable. -/
theorem handed_cases {fuel : ℕ} {e : Event} (h : EventOk fuel e) :
    (handed e=none ∧ e.after.nextFreePage=e.before.nextFreePage) ∨
      ∃ virt,e.call=.allocPage virt ∧ TakesFrame fuel e.before virt ∧
        e.after.nextFreePage=e.before.nextFreePage+pageSize ∧
        ((¬FrameUsable e.before ∧ handed e=none) ∨
          (FrameUsable e.before ∧ handed e=some e.before.nextFreePage)) := by
  obtain ⟨virt,hv,halloc|⟨hcall,hstep⟩⟩ := h.step
  · obtain ⟨hsome,hnone⟩ := handed_of_isAlloc halloc hv
    obtain ⟨hno,hsame⟩|⟨htakes,hadv⟩ := halloc.2.still_or_advanced
    · exact Or.inl ⟨hnone fun hc => hno hc.1,by rw [hsame]⟩
    · refine Or.inr ⟨virt,halloc.1,htakes,hadv.nextFreePage,?_⟩
      by_cases hu : FrameUsable e.before
      · exact Or.inr ⟨hu,hsome htakes hu⟩
      · exact Or.inl ⟨hu,hnone fun hc => hu hc.2⟩
  · refine Or.inl ⟨?_,hstep.nextFreePage⟩
    unfold handed
    rw [hcall]

/-- Every frame in an entry was handed out. -/
theorem handed_of_stored {fuel : ℕ} {s t : Vmm} {es : List Event} (h : Recorded fuel s es t) {page : ℕ}
    (hp : page<0xC0000) (hs : frameOf s page=none) {frame : Word} (ht : frameOf t page=some frame) :
    frame∈handedOut es := by
  obtain ⟨front,e,back,rfl,hb,ha,_⟩ := h.trace.established
    (fun u => frameOf u page=some frame) (by rw [hs]; exact (Option.some_ne_none frame).symm) ht
  have hmem : e∈front++e::back := List.mem_append_right front List.mem_cons_self
  obtain ⟨⟨virt,hcall,rfl,_⟩,hnone⟩ := assigned_step (h.events e hmem) hp hb ha
  refine List.mem_filterMap.mpr ⟨e,hmem,?_⟩
  unfold handed
  rw [hcall]
  dsimp only
  rw [if_pos hnone]
  exact ha

/-- What was handed out while the counter has not wrapped. -/
structure Ledger (base : Word) (es : List Event) (t : Vmm) : Prop where
  /-- The counter is not below the pool. -/
  low : base.toNat≤t.nextFreePage.toNat
  /-- The frames are frames of the pool below the counter. -/
  frames : ∀ frame∈handedOut es,base.toNat≤frame.toNat ∧ frame.toNat<t.nextFreePage.toNat ∧
    frame.toNat<base.toNat+0x1000000
  /-- No frame was handed out twice. -/
  distinct : (handedOut es).Nodup

/-- The frames after one more event. -/
theorem handedOut_snoc (es : List Event) (e : Event) :
    handedOut (es++[e])=handedOut es++(handed e).toList := by
  unfold handedOut
  rw [List.filterMap_append]
  cases he : handed e with
  | none => simp [he]
  | some frame => simp [he]

/-- A usable frame lies below the end of the pool, unless the counter wraps. -/
theorem usable_iff {base : Word} (hpool : base.toNat+0x1000000<2^32) {s : Vmm} (hp : PoolIs base s) :
    FrameUsable s ↔ s.nextFreePage≠0 ∧ (s.nextFreePage+pageSize).toNat≤base.toNat+0x1000000 := by
  obtain ⟨hbase,htotal⟩ := hp
  have hend : (base+4096*pageSize : Word).toNat=base.toNat+0x1000000 := by bv_omega
  unfold FrameUsable
  rw [hbase,htotal,not_or,BitVec.lt_def,hend,not_lt]

/-- An event that hands out nothing keeps the ledger when the counter does not
go back. -/
theorem Ledger.keep {base : Word} {es : List Event} {e : Event} (h : Ledger base es e.before)
    (hnone : handed e=none) (hle : e.before.nextFreePage.toNat≤e.after.nextFreePage.toNat) :
    Ledger base (es++[e]) e.after := by
  have hout : handedOut (es++[e])=handedOut es := by
    rw [handedOut_snoc,hnone]
    exact List.append_nil _
  refine ⟨h.low.trans hle,?_,?_⟩
  · rw [hout]
    intro frame hf
    obtain ⟨hlow,hcounter,hend⟩ := h.frames frame hf
    exact ⟨hlow,Nat.lt_of_lt_of_le hcounter hle,hend⟩
  · rw [hout]
    exact h.distinct

/-- An event that hands out the frame at the counter keeps the ledger when the
counter moves on. -/
theorem Ledger.add {base : Word} {es : List Event} {e : Event} (h : Ledger base es e.before)
    (hsome : handed e=some e.before.nextFreePage)
    (hlt : e.before.nextFreePage.toNat<e.after.nextFreePage.toNat)
    (hend : e.before.nextFreePage.toNat<base.toNat+0x1000000) : Ledger base (es++[e]) e.after := by
  have hout : handedOut (es++[e])=handedOut es++[e.before.nextFreePage] := by
    rw [handedOut_snoc,hsome]
    rfl
  refine ⟨h.low.trans hlt.le,?_,?_⟩
  · rw [hout]
    intro frame hf
    obtain hf|hf := List.mem_append.mp hf
    · obtain ⟨hlow,hcounter,hpool⟩ := h.frames frame hf
      exact ⟨hlow,hcounter.trans hlt,hpool⟩
    · obtain rfl := List.mem_singleton.mp hf
      exact ⟨h.low,hlt,hend⟩
  · rw [hout]
    refine List.nodup_append.mpr ⟨h.distinct,List.nodup_singleton _,?_⟩
    rintro frame hf _ hlast rfl
    obtain rfl := List.mem_singleton.mp hlast
    exact absurd (h.frames _ hf).2.1 (Nat.lt_irrefl _)

/-- An event that does not take the last page of memory keeps the ledger. -/
theorem ledger_snoc {fuel : ℕ} {base : Word} (hpool : base.toNat+0x1000000<2^32) {es : List Event}
    {e : Event} (h : Ledger base es e.before) (he : EventOk fuel e) (hp : PoolIs base e.before)
    (hlast : ¬TakesLast fuel e) : Ledger base (es++[e]) e.after := by
  obtain ⟨hnone,hsame⟩|⟨virt,hcall,htakes,hnext,hcases⟩ := handed_cases he
  · exact h.keep hnone (by rw [hsame])
  · have hadd : e.after.nextFreePage.toNat=e.before.nextFreePage.toNat+4096 := by
      obtain ⟨bs,hinv⟩ := he.before
      have hal := hinv.next
      have hne : e.before.nextFreePage≠0xFFFFF000 := fun hc => hlast ⟨virt,hcall,htakes,hc⟩
      unfold Aligned at hal
      rw [hnext]
      bv_omega
    obtain ⟨_,hnone⟩|⟨husable,hsome⟩ := hcases
    · exact h.keep hnone (by omega)
    · rw [usable_iff hpool hp,←hnext] at husable
      exact h.add hsome (by omega) (by omega)

/-- A trace that never takes the last page of memory has a ledger. -/
theorem ledger_of_trace {fuel : ℕ} {base : Word} (hfit : base.toNat+0x1000000<2^32) {s t : Vmm}
    {es : List Event} (h : Trace Event.before Event.after s es t) (hs : s.nextFreePage=base)
    (hok : ∀ e∈es,EventOk fuel e) (hpool : ∀ e∈es,PoolIs base e.before)
    (hlast : ∀ e∈es,¬TakesLast fuel e) : Ledger base es t := by
  induction h with
  | nil =>
    refine ⟨by rw [hs],?_,List.nodup_nil⟩
    exact fun frame hf => absurd hf List.not_mem_nil
  | @snoc es e _ ih =>
    have hmem : e∈es++[e] := List.mem_append_right es List.mem_cons_self
    have hbefore := ih (fun d hd => hok d (List.mem_append_left _ hd))
      (fun d hd => hpool d (List.mem_append_left _ hd)) (fun d hd => hlast d (List.mem_append_left _ hd))
    exact ledger_snoc hfit hbefore (hok e hmem) (hpool e hmem) (hlast e hmem)

/-- The last page of memory is handed out to the event that takes it. -/
theorem handed_of_takesLast {fuel : ℕ} {base : Word} (hfit : base.toNat+0x1000000<2^32) {e : Event}
    (h : EventOk fuel e) (hp : PoolIs base e.before) (hlast : TakesLast fuel e) :
    handed e=some 0xFFFFF000 := by
  obtain ⟨virt,hcall,htakes,hnext⟩ := hlast
  have husable : FrameUsable e.before := by
    rw [usable_iff hfit hp,hnext]
    exact ⟨by decide,Nat.zero_le _⟩
  obtain ⟨virt',hv,halloc|⟨hcall',_⟩⟩ := h.step
  · have heq : virt'=virt := PageCall.allocPage.inj (halloc.1.symm.trans hcall)
    rw [heq] at halloc hv
    rw [(handed_of_isAlloc halloc hv).1 htakes husable,hnext]
  · cases hcall'.symm.trans hcall

/-- The frames of a recorded run are distinct frames of the pool exactly when
no event takes the last page of memory. -/
theorem framesSafe_iff {fuel : ℕ} {s t : Vmm} {es : List Event} (h : Recorded fuel s es t)
    (hnone : ∀ page<0xC0000,frameOf s page=none) (hpool : s.totalPages=4096)
    (hnext : s.nextFreePage=s.physBase) (hal : Aligned s.physBase)
    (hfit : s.physBase.toNat+0x1000000<2^32) : FramesSafe s es t ↔ ∀ e∈es,¬TakesLast fuel e := by
  obtain ⟨_,hpools⟩ := h.trace.invariant (PoolIs s.physBase) ⟨rfl,hpool⟩
    fun e he => pool_step (h.events e he)
  constructor
  · intro hsafe e he hlast
    have hhanded := handed_of_takesLast hfit (h.events e he) (hpools e he) hlast
    obtain ⟨_,hhigh⟩ := hsafe.pool 0xFFFFF000 (List.mem_filterMap.mpr ⟨e,he,hhanded⟩)
    have hvalue : (0xFFFFF000 : Word).toNat=0xFFFFF000 := rfl
    unfold Aligned at hal
    omega
  · intro hlast
    have hledger := ledger_of_trace hfit h.trace hnext h.events hpools hlast
    have hframes : ∀ frame∈handedOut es,InPool s frame := fun frame hf =>
      ⟨(hledger.frames frame hf).1,(hledger.frames frame hf).2.2⟩
    refine ⟨hframes,hledger.distinct,?_⟩
    intro page hp frame hframe
    exact hframes frame (handed_of_stored h hp (hnone page hp) hframe)

/-- After mm_init, any run of the allocator and vmm_init, in every run of the
virtual memory calls on user addresses whose tables lie at page addresses the
frames handed out are distinct frames of the pool exactly when no call takes a
frame while the counter is at the last page of memory. The kernel ends behind
the heap and the pool ends below the top of memory, as the boot code has it. -/
theorem frames_safe_iff_last_page_not_taken {start size : Word} (hsize : 12 ≤ size.toNat)
    (hfit : (align8 start).toNat+size.toNat<2^32) {st : Session} (hr : Reachable start size st)
    {kernelEnd : Word} (hout : st.heap.heapEnd.toNat≤(alignUp kernelEnd 4096).toNat)
    (hpool : (alignUp kernelEnd 4096).toNat+0x2000000<2^32) {fuel : ℕ} (hf : 2^32≤fuel) :
    ∃ s,vmmInit fuel st.heap kernelEnd=some s ∧
      ∀ ops,(∀ op∈ops,op.OnUser)→AlignedRun fuel s ops→
        ∃ es t,runOps fuel s ops=some (es,t) ∧ Trace Event.before Event.after s es t ∧
          (FramesSafe s es t ↔ ∀ e∈es,¬TakesLast fuel e) := by
  obtain ⟨s,cs,hinit,hbooted,hruns⟩ := booted_recorded hsize hfit hr hout hf
  refine ⟨s,hinit,?_⟩
  intro ops hu hal
  obtain ⟨es,t,hrun,hrec⟩ := hruns ops hu hal
  have hempty : ∀ page<0xC0000,frameOf s page=none := fun page hp =>
    frameOf_noTables hbooted.noTables hp
  have hbase : s.physBase.toNat+0x1000000<2^32 := by
    rw [hbooted.physBase]
    bv_omega
  have haligned : Aligned s.physBase := by
    rw [hbooted.physBase]
    exact poolBase_aligned kernelEnd
  exact ⟨es,t,hrun,hrec.trace,
    framesSafe_iff hrec hempty hbooted.totalPages hbooted.nextFreePage haligned hbase⟩

/-- A page of the one-megabyte heap's kernel is mapped and released. -/
theorem pagedHeap_frames_safe_iff :
    ∃ s,vmmInit (2^32) pagedHeap.heap 0x200FE8=some s ∧ ∃ es t,
      runOps (2^32) s [.allocPage 0x8000000,.freePage 0x8000000]=some (es,t) ∧
        (FramesSafe s es t ↔ ∀ e∈es,¬TakesLast (2^32) e) := by
  obtain ⟨s,hinit,hall⟩ := frames_safe_iff_last_page_not_taken (by decide) (by decide) pagedHeap_reachable
    pagedHeap_below (by decide) (Nat.le_refl (2^32))
  obtain ⟨s',bs,hinit',hbooted,_,hal⟩ := pagedHeap_boots (Nat.le_refl (2^32)) 0x8000000
  rw [hinit] at hinit'
  cases hinit'
  have hops : ∀ op∈[VmmOp.allocPage 0x8000000,.freePage 0x8000000],
      op=.allocPage 0x8000000 ∨ op=.freePage 0x8000000 := by simp
  have huser : ∀ op∈[VmmOp.allocPage 0x8000000,.freePage 0x8000000],op.OnUser := by
    simp [VmmOp.OnUser]
  have halr := alignedRun_onePage (by decide) (Nat.le_refl (2^32)) _ hops ⟨bs,hbooted.inv⟩ hal
  obtain ⟨es,t,hrun,_,hiff⟩ := hall _ huser halr
  exact ⟨s,hinit,es,t,hrun,hiff⟩

/-- A single page can be mapped and released over and over. -/
structure Ready (fuel : ℕ) (virt : Word) (s : Vmm) : Prop where
  /-- The invariant holds. -/
  inv : ∃ bs,VmmInv bs s
  /-- The page takes the frame that is next. -/
  takes : TakesFrame fuel s virt
  /-- Its table lies at a page address. -/
  aligned : AlignedTable fuel s virt

/-- Map and release a page a number of times. -/
def pageRounds (n : ℕ) (virt : Word) : List VmmOp :=
  (List.replicate n [VmmOp.allocPage virt,VmmOp.freePage virt]).flatten

/-- One round advances the counter by a page. -/
theorem round_ready {fuel : ℕ} (hf : 2^32≤fuel) {virt : Word} (hv : virt.toNat<0xC0000000) {s : Vmm}
    (h : Ready fuel virt s) :
    ∃ es t,runOps fuel s [.allocPage virt,.freePage virt]=some (es,t) ∧ Ready fuel virt t ∧
      t.nextFreePage=s.nextFreePage+pageSize := by
  obtain ⟨bs,hinv⟩ := h.inv
  obtain ⟨u,r,cs,halloc,hinv',hstep⟩ := vmmAllocPage_step hinv hv hf h.aligned
  obtain ⟨hinv'',hfree⟩ := vmmFreePage_step hinv' hv
  have hadv : Advanced s u virt :=
    hstep.still_or_advanced.elim (fun hno => absurd h.takes hno.1) And.right
  have htable : pde (vmmFreePage u virt) (pdeIdx virt)≠0 := by
    rw [hfree.tables _ (pdeIdx_lt hv)]
    exact hadv.table
  have hnone : frameOf (vmmFreePage u virt) (pageOf virt)=none :=
    (hfree.frames _ (pageOf_lt hv)).trans (if_pos rfl)
  have hready : Ready fuel virt (vmmFreePage u virt) :=
    ⟨⟨cs,hinv''⟩,⟨hnone,Or.inl htable⟩,fun hc => absurd hc htable⟩
  have hrun : runOps fuel s [.allocPage virt,.freePage virt]=
      some ([⟨s,.allocPage virt,r,u⟩,⟨u,.freePage virt,0,vmmFreePage u virt⟩],vmmFreePage u virt) := by
    simp only [runOps,runOp,halloc,Option.map_some,Option.bind_some]
    rfl
  exact ⟨_,_,hrun,hready,hfree.nextFreePage.trans hadv.nextFreePage⟩

/-- Runs compose. -/
theorem runOps_append {fuel : ℕ} {s t u : Vmm} {xs ys : List VmmOp} {es ds : List Event}
    (hx : runOps fuel s xs=some (es,t)) (hy : runOps fuel t ys=some (ds,u)) :
    runOps fuel s (xs++ys)=some (es++ds,u) := by
  induction xs generalizing s es with
  | nil =>
    cases hx
    exact hy
  | cons op ops ih =>
    simp only [runOps,Option.bind_eq_some_iff,Option.map_eq_some_iff] at hx
    obtain ⟨⟨as,v⟩,hop,⟨bs,w⟩,hops,heq⟩ := hx
    cases heq
    have hrest := ih hops
    simp only [List.cons_append,runOps,hop,Option.bind_some,hrest,Option.map_some,List.append_assoc]

/-- Rounds advance the counter by as many pages. -/
theorem rounds_ready {fuel : ℕ} (hf : 2^32≤fuel) {virt : Word} (hv : virt.toNat<0xC0000000) (n : ℕ)
    {s : Vmm} (h : Ready fuel virt s) :
    ∃ es t,runOps fuel s (pageRounds n virt)=some (es,t) ∧ Ready fuel virt t ∧
      t.nextFreePage=s.nextFreePage+BitVec.ofNat 32 n*pageSize := by
  induction n generalizing s with
  | zero =>
    refine ⟨[],s,rfl,h,?_⟩
    bv_omega
  | succ n ih =>
    obtain ⟨es,u,hrun,hready,hnext⟩ := round_ready hf hv h
    obtain ⟨ds,t,hruns,hready',hnext'⟩ := ih hready
    have hsplit : pageRounds (n+1) virt=[.allocPage virt,.freePage virt]++pageRounds n virt := rfl
    refine ⟨es++ds,t,?_,hready',?_⟩
    · rw [hsplit]
      exact runOps_append hrun hruns
    · rw [hnext',hnext]
      have hsucc : BitVec.ofNat 32 (n+1)=BitVec.ofNat 32 n+1 := BitVec.ofNat_add n 1
      rw [hsucc]
      bv_omega

/-- Every call of the rounds is made on the one page. -/
theorem mem_pageRounds {n : ℕ} {virt : Word} {op : VmmOp} (h : op∈pageRounds n virt) :
    op=.allocPage virt ∨ op=.freePage virt := by
  unfold pageRounds at h
  obtain ⟨round,hround,hop⟩ := List.mem_flatten.mp h
  rw [List.eq_of_mem_replicate hround] at hop
  simpa using hop

/-- A page of the one-megabyte heap's kernel is mapped and released until the
counter is at the last page of memory, and mapped once more. -/
def wrappingOps : List VmmOp := pageRounds 0xFEDFE 0x8000000++[.allocPage 0x8000000]

/-- Every call is made on the one page. -/
theorem mem_wrappingOps {op : VmmOp} (h : op∈wrappingOps) :
    op=.allocPage 0x8000000 ∨ op=.freePage 0x8000000 := by
  unfold wrappingOps at h
  obtain h|h := List.mem_append.mp h
  · exact mem_pageRounds h
  · exact Or.inl (List.mem_singleton.mp h)

/-- The run ends with an event that takes the last page of memory. -/
theorem wrappingOps_takes_last {fuel : ℕ} (hf : 2^32≤fuel) {s : Vmm} (h : Ready fuel 0x8000000 s)
    (hnext : s.nextFreePage=0x1201000) {es : List Event} {t : Vmm}
    (hrun : runOps fuel s wrappingOps=some (es,t)) : ∃ e∈es,TakesLast fuel e := by
  have hv : (0x8000000 : Word).toNat<0xC0000000 := by decide
  obtain ⟨ds,u,hrounds,hready,hnext'⟩ := rounds_ready hf hv 0xFEDFE h
  obtain ⟨bs,hinv⟩ := hready.inv
  obtain ⟨v,r,_,halloc,_⟩ := vmmAllocPage_step hinv hv hf hready.aligned
  have hlast : runOps fuel u [.allocPage 0x8000000]=some ([⟨u,.allocPage 0x8000000,r,v⟩],v) := by
    simp only [runOps,runOp,halloc,Option.map_some,Option.bind_some]
    rfl
  have hall := runOps_append hrounds hlast
  unfold wrappingOps at hrun
  rw [hrun] at hall
  obtain ⟨rfl,_⟩ := Prod.mk.inj (Option.some.inj hall)
  refine ⟨_,List.mem_append_right ds List.mem_cons_self,0x8000000,rfl,hready.takes,?_⟩
  dsimp only
  rw [hnext',hnext]
  decide

/-- On that heap the run hands out a frame outside the pool. -/
theorem frames_unsafe_in_pagedHeap :
    ∃ s es t,vmmInit (2^32) pagedHeap.heap 0x200FE8=some s ∧ (∀ op∈wrappingOps,op.OnUser) ∧
      AlignedRun (2^32) s wrappingOps ∧ runOps (2^32) s wrappingOps=some (es,t) ∧ ¬FramesSafe s es t := by
  have hv : (0x8000000 : Word).toNat<0xC0000000 := by decide
  obtain ⟨s,bs,hinit,hbooted,htable,hal⟩ := pagedHeap_boots (Nat.le_refl (2^32)) 0x8000000
  have huser : ∀ op∈wrappingOps,op.OnUser := fun op hop => VmmOp.onUser_onePage hv (mem_wrappingOps hop)
  have halr := alignedRun_onePage hv (Nat.le_refl (2^32)) wrappingOps
    (fun op hop => mem_wrappingOps hop) ⟨bs,hbooted.inv⟩ hal
  obtain ⟨es,t,hrun,hrec⟩ := runOps_recorded wrappingOps (Nat.le_refl (2^32)) ⟨bs,hbooted.inv⟩ huser halr
  have hempty : ∀ page<0xC0000,frameOf s page=none := fun page hp =>
    frameOf_noTables hbooted.noTables hp
  have hbase : s.physBase=0x1201000 := by
    rw [hbooted.physBase]
    decide
  have hready : Ready (2^32) 0x8000000 s := ⟨⟨bs,hbooted.inv⟩,⟨hempty _ (pageOf_lt hv),htable⟩,hal⟩
  obtain ⟨e,he,hlast⟩ := wrappingOps_takes_last (Nat.le_refl (2^32)) hready
    (hbooted.nextFreePage.trans hbase) hrun
  refine ⟨s,es,t,hinit,huser,halr,hrun,?_⟩
  have hiff := framesSafe_iff hrec hempty hbooted.totalPages hbooted.nextFreePage
    (by rw [hbase]; decide) (by rw [hbase]; decide)
  exact fun hsafe => hiff.mp hsafe e he hlast

end EronKernel.VmmFrames

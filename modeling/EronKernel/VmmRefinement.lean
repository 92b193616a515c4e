import EronKernel.VmmRuns

/-!
# The page tables refine a partial map

Whatever heap vmm_init finds and whatever calls follow, the queries answer as
a partial map from pages to frames would: a page is mapped exactly when its
last successful allocation was not followed by its release, it keeps the frame
of the call that mapped it until then, and no call changes another page.
-/

namespace EronKernel.VmmRefinement

open ByteMemory BlockList HeapModel HeapLayout HeapRuns HeapIntegrity EventTrace WordTable
open VmmModel VmmTables VmmSteps VmmRuns

/-- The event is a call of vmm_alloc_page for the page that returned zero. -/
def Allocs (page : ℕ) (e : Event) : Prop :=
  ∃ virt,e.call=.allocPage virt ∧ pageOf virt=page ∧ e.result=0

/-- The event is a call of vmm_free_page for the page. -/
def Frees (page : ℕ) (e : Event) : Prop := ∃ virt,e.call=.freePage virt ∧ pageOf virt=page

/-- A call of vmm_alloc_page leaves the other pages as they were. -/
theorem allocStep_others {fuel : ℕ} {s t : Vmm} {virt : Word} {r : ℤ} (h : AllocStep fuel s virt t r)
    {page : ℕ} (hp : page<0xC0000) (hne : page≠pageOf virt) : frameOf t page=frameOf s page := by
  cases h with
  | mapped => rfl
  | noTable => rfl
  | refused _ _ _ hsame => exact hsame page hp
  | assigned _ _ _ hset => rw [hset page hp,if_neg hne]

/-- A call of vmm_alloc_page keeps the frames and maps its page when it
returns zero. -/
theorem allocStep_mapped_iff {fuel : ℕ} {s t : Vmm} {virt : Word} {r : ℤ} (h : AllocStep fuel s virt t r)
    (hv : virt.toNat<0xC0000000) :
    (frameOf t (pageOf virt)≠none ↔ r=0) ∧ (frameOf s (pageOf virt)≠none→ r=0) := by
  have hp := pageOf_lt hv
  cases h with
  | mapped hm => exact ⟨iff_of_true hm rfl,fun _ => rfl⟩
  | noTable hm => exact ⟨iff_of_false (not_not.mpr hm) (by decide),fun hc => absurd hm hc⟩
  | refused ht _ _ hsame =>
    refine ⟨iff_of_false (not_not.mpr ?_) (by decide),fun hc => absurd ht.1 hc⟩
    rw [hsame _ hp]
    exact ht.1
  | assigned ht _ _ hset =>
    refine ⟨iff_of_true ?_ rfl,fun _ => rfl⟩
    rw [hset _ hp,if_pos rfl]
    exact Option.some_ne_none _

/-- An event of vmm_alloc_page allocates its page when it returned zero, and
frees none. -/
theorem allocs_of_isAlloc {fuel : ℕ} {virt : Word} {e : Event} (h : IsAlloc fuel virt e) (page : ℕ) :
    (Allocs page e ↔ page=pageOf virt ∧ e.result=0) ∧ ¬Frees page e := by
  obtain ⟨hcall,_⟩ := h
  unfold Allocs Frees
  rw [hcall]
  refine ⟨⟨?_,?_⟩,?_⟩
  · rintro ⟨v,hv,rfl,hr⟩
    cases hv
    exact ⟨rfl,hr⟩
  · exact fun hp => ⟨virt,rfl,hp.1.symm,hp.2⟩
  · rintro ⟨v,hv,_⟩
    cases hv

/-- An event of vmm_free_page frees its page and allocates none. -/
theorem frees_of_isFree {virt : Word} {e : Event} (h : IsFree virt e) (page : ℕ) :
    (Frees page e ↔ page=pageOf virt) ∧ ¬Allocs page e := by
  obtain ⟨hcall,_⟩ := h
  unfold Allocs Frees
  rw [hcall]
  refine ⟨⟨?_,?_⟩,?_⟩
  · rintro ⟨v,hv,rfl⟩
    cases hv
    rfl
  · exact fun hp => ⟨virt,rfl,hp.symm⟩
  · rintro ⟨v,hv,_⟩
    cases hv

/-- A page is mapped after an event that allocated it, and stays mapped
through any event that does not free it. -/
theorem mapped_step {fuel : ℕ} {e : Event} (h : EventOk fuel e) {page : ℕ} (hp : page<0xC0000) :
    frameOf e.after page≠none ↔ Allocs page e ∨ (frameOf e.before page≠none ∧ ¬Frees page e) := by
  obtain ⟨virt,hv,halloc|hfree⟩ := h.step
  · obtain ⟨hallocs,hfrees⟩ := allocs_of_isAlloc halloc page
    rw [hallocs]
    by_cases heq : page=pageOf virt
    · subst heq
      obtain ⟨hafter,hbefore⟩ := allocStep_mapped_iff halloc.2 hv
      rw [hafter]
      exact ⟨fun hr => Or.inl ⟨rfl,hr⟩,fun hr => hr.elim And.right fun hb => hbefore hb.1⟩
    · rw [allocStep_others halloc.2 hp heq]
      exact ⟨fun hb => Or.inr ⟨hb,hfrees⟩,fun hb => hb.elim (fun hc => absurd hc.1 heq) And.left⟩
  · obtain ⟨hfrees,hallocs⟩ := frees_of_isFree hfree page
    rw [hfree.2.frames page hp,hfrees]
    by_cases heq : page=pageOf virt
    · rw [if_pos heq]
      exact iff_of_false (fun hc => hc rfl) fun hb => hb.elim hallocs fun hc => hc.2 heq
    · rw [if_neg heq]
      exact ⟨fun hb => Or.inr ⟨hb,heq⟩,fun hb => hb.elim (fun hc => absurd hc hallocs) And.left⟩

/-- No event changes a page other than its own. -/
theorem others_step {fuel : ℕ} {e : Event} (h : EventOk fuel e) {page : ℕ} (hp : page<0xC0000)
    (hne : page≠pageOf e.call.virt) : frameOf e.after page=frameOf e.before page := by
  obtain ⟨virt,_,⟨hcall,hstep⟩|⟨hcall,hstep⟩⟩ := h.step
  · rw [hcall] at hne
    exact allocStep_others hstep hp hne
  · rw [hcall] at hne
    exact (hstep.frames page hp).trans (if_neg hne)

/-- An event after which a page has a frame that it did not have before is the
call of vmm_alloc_page that assigned it to a page without frame. -/
theorem assigned_step {fuel : ℕ} {e : Event} (h : EventOk fuel e) {page : ℕ} (hp : page<0xC0000)
    {frame : Word} (hb : frameOf e.before page≠some frame) (ha : frameOf e.after page=some frame) :
    Allocs page e ∧ frameOf e.before page=none := by
  obtain ⟨virt,hv,halloc|⟨_,hstep⟩⟩ := h.step
  · by_cases heq : page=pageOf virt
    · obtain ⟨hafter,hbefore⟩ := allocStep_mapped_iff halloc.2 hv
      have hzero : e.result=0 := hafter.mp (by rw [←heq,ha]; exact Option.some_ne_none frame)
      refine ⟨(allocs_of_isAlloc halloc page).1.mpr ⟨heq,hzero⟩,?_⟩
      obtain ⟨hno,hsame⟩|⟨htakes,_⟩ := halloc.2.still_or_advanced
      · rw [hsame] at ha
        exact absurd ha hb
      · rw [heq]
        exact htakes.1
    · rw [allocStep_others halloc.2 hp heq] at ha
      exact absurd ha hb
  · rw [hstep.frames page hp] at ha
    split_ifs at ha
    exact absurd ha hb

/-- An event that leaves a page its frame does not free it. -/
theorem not_frees_of_frame {fuel : ℕ} {e : Event} (h : EventOk fuel e) {page : ℕ} (hp : page<0xC0000)
    {frame : Word} (ha : frameOf e.after page=some frame) : ¬Frees page e := by
  obtain ⟨virt,_,halloc|hfree⟩ := h.step
  · exact (allocs_of_isAlloc halloc page).2
  · rw [(frees_of_isFree hfree page).1]
    intro heq
    rw [hfree.2.frames page hp,if_pos heq] at ha
    cases ha

/-- vmm_get_phys_from_virt adds the offset in the page to the frame. -/
theorem phys_of_frame {s : Vmm} {virt frame : Word} (hal : Aligned frame)
    (hframe : frameOf s (pageOf virt)=some frame) :
    (vmmGetPhysFromVirt s virt).toNat=frame.toNat+virt.toNat%4096 := by
  rw [vmmGetPhysFromVirt_eq,hframe,Option.elim_some]
  have hoffset : (virt&&&~~~pageMask).toNat=virt.toNat%4096 := toNat_and_tagMask virt
  rw [toNat_or_tag hal (by rw [hoffset]; exact Nat.mod_lt _ (by decide)),hoffset]

/-- A page is mapped when it has a frame. -/
theorem vmmIsMapped_eq_one_iff (s : Vmm) (virt : Word) :
    vmmIsMapped s virt=1 ↔ frameOf s (pageOf virt)≠none := by
  rw [vmmIsMapped_eq]
  cases frameOf s (pageOf virt) with
  | none => exact iff_of_false (by decide) (not_not.mpr rfl)
  | some frame => exact iff_of_true rfl (Option.some_ne_none frame)

/-- No frame is at address zero, so the two queries agree. -/
theorem phys_ne_zero_iff {bs : List Block} {s : Vmm} (h : VmmInv bs s) {virt : Word}
    (hv : virt.toNat<0xC0000000) :
    vmmGetPhysFromVirt s virt≠0 ↔ frameOf s (pageOf virt)≠none := by
  obtain ⟨hnone,_⟩|⟨frame,hframe,hal,hne⟩ := frame_cases h (pageOf_lt hv)
  · refine iff_of_false (not_not.mpr ?_) (not_not.mpr hnone)
    rw [vmmGetPhysFromVirt_eq,hnone]
    rfl
  · refine iff_of_true ?_ (hframe ▸ Option.some_ne_none frame)
    intro hzero
    have hphys := phys_of_frame hal hframe
    rw [hzero] at hphys
    apply hne
    apply BitVec.eq_of_toNat_eq
    have hnone : (0 : Word).toNat=0 := rfl
    omega

/-- What the two queries say about the page. -/
def SameTranslation (s t : Vmm) (virt : Word) : Prop :=
  vmmIsMapped t virt=vmmIsMapped s virt ∧ vmmGetPhysFromVirt t virt=vmmGetPhysFromVirt s virt

/-- A page that keeps its frame keeps the answers for its addresses. -/
theorem sameTranslation_of_frame {s t : Vmm} {virt : Word}
    (h : frameOf t (pageOf virt)=frameOf s (pageOf virt)) : SameTranslation s t virt := by
  unfold SameTranslation
  rw [vmmIsMapped_eq,vmmIsMapped_eq,vmmGetPhysFromVirt_eq,vmmGetPhysFromVirt_eq,h]
  exact ⟨rfl,rfl⟩

/-- The addresses of the page translate to the frame. -/
def TranslatesTo (s : Vmm) (page : ℕ) (frame : Word) : Prop :=
  ∀ virt,pageOf virt=page→(vmmGetPhysFromVirt s virt).toNat=frame.toNat+virt.toNat%4096

/-- One event gave the page the frame, and the page had it ever since. -/
def AssignedOnce (es : List Event) (page : ℕ) (frame : Word) : Prop :=
  ∃ front e back,es=front++e::back ∧ Allocs page e ∧ frameOf e.before page=none ∧
    TranslatesTo e.after page frame ∧ ∀ d∈back,¬Frees page d ∧ TranslatesTo d.after page frame

/-- After the events the queries answer as the partial map from pages to
frames that the events describe. -/
structure RefinesMap (fuel : ℕ) (es : List Event) (t : Vmm) : Prop where
  /-- A page is mapped when its last allocation was not followed by its release. -/
  mapped : ∀ virt,virt.toNat<0xC0000000→
    (vmmIsMapped t virt=1 ↔ HeldSince (Allocs (pageOf virt)) (Frees (pageOf virt)) es)
  /-- An address has a translation when its page is mapped. -/
  translated : ∀ virt,virt.toNat<0xC0000000→(vmmGetPhysFromVirt t virt≠0 ↔ vmmIsMapped t virt=1)
  /-- The translation is the offset in a frame that has not changed since it
  was assigned. -/
  frame : ∀ virt,virt.toNat<0xC0000000→vmmIsMapped t virt=1→
    ∃ frame,Aligned frame ∧ TranslatesTo t (pageOf virt) frame ∧ AssignedOnce es (pageOf virt) frame
  /-- No call changes the translation of another page. -/
  others : ∀ e∈es,∀ virt,virt.toNat<0xC0000000→pageOf virt≠pageOf e.call.virt→
    SameTranslation e.before e.after virt
  /-- Allocating a mapped page again returns zero and changes nothing. -/
  again : ∀ virt,virt.toNat<0xC0000000→vmmIsMapped t virt=1→vmmAllocPage fuel t virt=some (t,0)

/-- vmm_alloc_page finds a mapped page mapped. -/
theorem vmmAllocPage_mapped {bs : List Block} {s : Vmm} (h : VmmInv bs s) {virt : Word}
    (hm : vmmIsMapped s virt=1) (fuel : ℕ) : vmmAllocPage fuel s virt=some (s,0) := by
  unfold vmmIsMapped at hm
  by_cases hp : pde s (pdeIdx virt)=0
  · rw [if_pos hp] at hm
    exact absurd hm (by decide)
  · rw [if_neg hp] at hm
    have hpresent : wordAt s.mem (tableOf s (pdeIdx virt)) (pteIdx virt)&&&pgPresent≠0 := by
      intro hc
      rw [if_neg (not_not.mpr hc)] at hm
      exact absurd hm (by decide)
    unfold vmmAllocPage ensureTable mapPage
    rw [if_neg h.pdirNe,if_pos hp,Option.map_some]
    dsimp only
    rw [if_pos rfl,if_pos hpresent]

/-- The frame of a mapped page was assigned by one event and kept. -/
theorem assignedOnce_of_recorded {fuel : ℕ} {s t : Vmm} {es : List Event} (h : Recorded fuel s es t)
    {page : ℕ} (hp : page<0xC0000) (hs : frameOf s page=none) {frame : Word}
    (ht : frameOf t page=some frame) (hal : Aligned frame) : AssignedOnce es page frame := by
  have htranslates : ∀ u : Vmm,frameOf u page=some frame→TranslatesTo u page frame := by
    rintro u hu virt rfl
    exact phys_of_frame hal hu
  obtain ⟨front,e,back,rfl,hb,ha,hback⟩ := h.trace.established
    (fun u => frameOf u page=some frame) (by rw [hs]; exact (Option.some_ne_none frame).symm) ht
  have hok := h.events e (List.mem_append_right front List.mem_cons_self)
  obtain ⟨hallocs,hnone⟩ := assigned_step hok hp hb ha
  refine ⟨front,e,back,rfl,hallocs,hnone,htranslates _ ha,?_⟩
  intro d hd
  have hdok := h.events d (List.mem_append_right front (List.mem_cons_of_mem e hd))
  exact ⟨not_frees_of_frame hdok hp (hback d hd).2,htranslates _ (hback d hd).2⟩

/-- A recorded run from a state without tables refines the map. -/
theorem refinesMap_of_recorded {fuel : ℕ} {s t : Vmm} {es : List Event} (h : Recorded fuel s es t)
    (hs : ∀ page<0xC0000,frameOf s page=none) : RefinesMap fuel es t := by
  obtain ⟨bs,hinv⟩ := h.inv
  refine ⟨?_,?_,?_,?_,fun virt _ hm => vmmAllocPage_mapped hinv hm fuel⟩
  · intro virt hv
    rw [vmmIsMapped_eq_one_iff]
    exact h.trace.holds_iff (fun u => frameOf u (pageOf virt)≠none)
      (not_not.mpr (hs _ (pageOf_lt hv))) fun e he => mapped_step (h.events e he) (pageOf_lt hv)
  · intro virt hv
    rw [phys_ne_zero_iff hinv hv,vmmIsMapped_eq_one_iff]
  · intro virt hv hm
    have hp := pageOf_lt hv
    rw [vmmIsMapped_eq_one_iff] at hm
    obtain ⟨hnone,_⟩|⟨frame,hframe,hal,_⟩ := frame_cases hinv hp
    · exact absurd hnone hm
    · refine ⟨frame,hal,?_,assignedOnce_of_recorded h hp (hs _ hp) hframe hal⟩
      intro u hu
      exact phys_of_frame hal (hu ▸ hframe)
  · intro e he virt hv hne
    exact sameTranslation_of_frame (others_step (h.events e he) (pageOf_lt hv) hne)

/-- Without tables no user page has a frame. -/
theorem frameOf_noTables {s : Vmm} (h : ∀ i<768,pde s i=0) {page : ℕ} (hp : page<0xC0000) :
    frameOf s page=none := by
  apply entry_none
  unfold pteWord
  rw [if_pos (h _ (by omega))]

/-- After mm_init, any run of the allocator and vmm_init, every run of the
virtual memory calls on user addresses whose tables lie at page addresses
returns and refines the partial map from pages to frames. The kernel ends
behind the heap, as the boot code has it. -/
theorem page_tables_refine_map {start size : Word} (hsize : 12 ≤ size.toNat)
    (hfit : (align8 start).toNat+size.toNat<2^32) {st : Session} (hr : Reachable start size st)
    {kernelEnd : Word} (hout : st.heap.heapEnd.toNat≤(alignUp kernelEnd 4096).toNat) {fuel : ℕ}
    (hf : 2^32≤fuel) :
    ∃ s,vmmInit fuel st.heap kernelEnd=some s ∧
      ∀ ops,(∀ op∈ops,op.OnUser)→AlignedRun fuel s ops→
        ∃ es t,runOps fuel s ops=some (es,t) ∧ Trace Event.before Event.after s es t ∧
          RefinesMap fuel es t := by
  obtain ⟨s,cs,hinit,hbooted,hruns⟩ := booted_recorded hsize hfit hr hout hf
  refine ⟨s,hinit,?_⟩
  intro ops hu hal
  obtain ⟨es,t,hrun,hrec⟩ := hruns ops hu hal
  have hempty : ∀ page<0xC0000,frameOf s page=none := fun page hp =>
    frameOf_noTables hbooted.noTables hp
  exact ⟨es,t,hrun,hrec.trace,refinesMap_of_recorded hrec hempty⟩

/-- A page of a one-megabyte heap's kernel is mapped, released and mapped
again. -/
theorem pagedHeap_refines_map :
    ∃ s,vmmInit (2^32) pagedHeap.heap 0x200FE8=some s ∧ ∃ es t,
      runOps (2^32) s [.allocPage 0x8000123,.freePage 0x8000123,.allocPage 0x8000123]=some (es,t) ∧
        RefinesMap (2^32) es t := by
  obtain ⟨s,hinit,hall⟩ := page_tables_refine_map (by decide) (by decide) pagedHeap_reachable
    pagedHeap_below (Nat.le_refl (2^32))
  obtain ⟨s',bs,hinit',hbooted,_,hal⟩ := pagedHeap_boots (Nat.le_refl (2^32)) 0x8000123
  rw [hinit] at hinit'
  cases hinit'
  have hops : ∀ op∈[VmmOp.allocPage 0x8000123,.freePage 0x8000123,.allocPage 0x8000123],
      op=.allocPage 0x8000123 ∨ op=.freePage 0x8000123 := by simp
  have huser : ∀ op∈[VmmOp.allocPage 0x8000123,.freePage 0x8000123,.allocPage 0x8000123],op.OnUser := by
    simp [VmmOp.OnUser]
  have halr := alignedRun_onePage (by decide) (Nat.le_refl (2^32)) _ hops ⟨bs,hbooted.inv⟩ hal
  obtain ⟨es,t,hrun,_,hrefines⟩ := hall _ huser halr
  exact ⟨s,hinit,es,t,hrun,hrefines⟩

end EronKernel.VmmRefinement

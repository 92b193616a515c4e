import EronKernel.VmmSteps

/-!
# Runs of the virtual memory calls

A run makes any of the three calls on user addresses in any order and is
recorded as one event for each single page, those of vmm_map_user_pages
included. kmalloc does not promise tables at page addresses, so a run is
assumed to get such tables; then it returns, its events form a trace, and
each of them is one of the steps.
-/

namespace EronKernel.VmmRuns

open ByteMemory BlockList HeapModel HeapLayout HeapOps HeapRuns HeapFirstFit HeapIntegrity
open EventTrace WordTable VmmModel VmmTables VmmSteps

/-- A call on one page. -/
inductive PageCall where
  /-- vmm_alloc_page. -/
  | allocPage (virt : Word)
  /-- vmm_free_page. -/
  | freePage (virt : Word)

/-- The address of a call. -/
def PageCall.virt : PageCall→Word
  | .allocPage virt => virt
  | .freePage virt => virt

/-- One call on a page with its result and the states around it. -/
structure Event where
  /-- The state before. -/
  before : Vmm
  /-- The call. -/
  call : PageCall
  /-- The result, zero for vmm_free_page. -/
  result : ℤ
  /-- The state after. -/
  after : Vmm

/-- The events of the loop of vmm_map_user_pages. -/
def allocEvents (fuel : ℕ) : Vmm→List Word→Option (List Event×Vmm)
  | s,[] => some ([],s)
  | s,addr::addrs => (vmmAllocPage fuel s addr).bind fun (t,r) =>
    if r≠0 then some ([⟨s,.allocPage addr,r,t⟩],t)
    else (allocEvents fuel t addrs).map fun (es,u) => (⟨s,.allocPage addr,r,t⟩::es,u)

/-- A call of a run. -/
inductive VmmOp where
  /-- vmm_alloc_page. -/
  | allocPage (virt : Word)
  /-- vmm_free_page. -/
  | freePage (virt : Word)
  /-- vmm_map_user_pages. -/
  | mapUserPages (virt count : Word)

/-- A call with its events. -/
def runOp (fuel : ℕ) (s : Vmm) : VmmOp→Option (List Event×Vmm)
  | .allocPage virt => (vmmAllocPage fuel s virt).map fun (t,r) => ([⟨s,.allocPage virt,r,t⟩],t)
  | .freePage virt => some ([⟨s,.freePage virt,0,vmmFreePage s virt⟩],vmmFreePage s virt)
  | .mapUserPages virt count => allocEvents fuel s (pageAddrs virt count)

/-- Calls one after another with their events. -/
def runOps (fuel : ℕ) : Vmm→List VmmOp→Option (List Event×Vmm)
  | s,[] => some ([],s)
  | s,op::ops => (runOp fuel s op).bind fun (es,t) =>
    (runOps fuel t ops).map fun (ds,u) => (es++ds,u)

/-- The call is made on user addresses. -/
def VmmOp.OnUser : VmmOp→Prop
  | .allocPage virt => virt.toNat<0xC0000000
  | .freePage virt => virt.toNat<0xC0000000
  | .mapUserPages virt count => ∀ addr∈pageAddrs virt count,addr.toNat<0xC0000000

/-- The tables that the loop makes lie at page addresses. -/
def AlignedPages (fuel : ℕ) : Vmm→List Word→Prop
  | _,[] => True
  | s,addr::addrs => AlignedTable fuel s addr ∧
    ∀ t,vmmAllocPage fuel s addr=some (t,0)→AlignedPages fuel t addrs

/-- The tables that the call makes lie at page addresses. -/
def AlignedOp (fuel : ℕ) (s : Vmm) : VmmOp→Prop
  | .allocPage virt => AlignedTable fuel s virt
  | .freePage _ => True
  | .mapUserPages virt count => AlignedPages fuel s (pageAddrs virt count)

/-- The tables that the calls make lie at page addresses. -/
def AlignedRun (fuel : ℕ) : Vmm→List VmmOp→Prop
  | _,[] => True
  | s,op::ops => AlignedOp fuel s op ∧ ∀ es t,runOp fuel s op=some (es,t)→AlignedRun fuel t ops

/-- The events record what vmm_map_user_pages does. -/
theorem allocPages_eq (fuel : ℕ) (addrs : List Word) (s : Vmm) :
    allocPages fuel s addrs=(allocEvents fuel s addrs).map fun (es,t) =>
      (t,if es.all (fun e => e.result=0) then 0 else -1) := by
  induction addrs generalizing s with
  | nil => rfl
  | cons addr addrs ih =>
    unfold allocPages allocEvents
    cases hrun : vmmAllocPage fuel s addr with
    | none => rfl
    | some out =>
      obtain ⟨t,r⟩ := out
      rw [Option.bind_some,Option.bind_some]
      dsimp only
      by_cases hr : r=0
      · rw [if_neg (not_not.mpr hr),if_neg (not_not.mpr hr),ih t,Option.map_map]
        cases allocEvents fuel t addrs with
        | none => rfl
        | some out' =>
          rw [Option.map_some,Option.map_some]
          simp [hr]
      · rw [if_pos hr,if_pos hr,Option.map_some]
        simp [hr]

/-- vmm_map_user_pages goes from the first to the last state of its events. -/
theorem vmmMapUserPages_eq (fuel : ℕ) (s : Vmm) (virt count : Word) :
    vmmMapUserPages fuel s virt count=(runOp fuel s (.mapUserPages virt count)).map fun (es,t) =>
      (t,if es.all (fun e => e.result=0) then 0 else -1) :=
  allocPages_eq fuel (pageAddrs virt count) s

/-- The event is a call of vmm_alloc_page that made one of its steps. -/
def IsAlloc (fuel : ℕ) (virt : Word) (e : Event) : Prop :=
  e.call=.allocPage virt ∧ AllocStep fuel e.before virt e.after e.result

/-- The event is a call of vmm_free_page that made its step. -/
def IsFree (virt : Word) (e : Event) : Prop :=
  e.call=.freePage virt ∧ FreeStep e.before virt e.after

/-- An event on a user page between two states that satisfy the invariant. -/
structure EventOk (fuel : ℕ) (e : Event) : Prop where
  /-- The invariant holds before. -/
  before : ∃ bs,VmmInv bs e.before
  /-- The invariant holds after. -/
  after : ∃ bs,VmmInv bs e.after
  /-- The call is on a user address and made one of its steps. -/
  step : ∃ virt,virt.toNat<0xC0000000 ∧ (IsAlloc fuel virt e ∨ IsFree virt e)

/-- The events lead from one state to another that satisfies the invariant. -/
structure Recorded (fuel : ℕ) (s : Vmm) (es : List Event) (t : Vmm) : Prop where
  /-- The events are a trace. -/
  trace : Trace Event.before Event.after s es t
  /-- Every event is in order. -/
  events : ∀ e∈es,EventOk fuel e
  /-- The invariant holds at the end. -/
  inv : ∃ bs,VmmInv bs t

/-- Recorded runs compose. -/
theorem Recorded.append {fuel : ℕ} {s t u : Vmm} {es ds : List Event} (h : Recorded fuel s es t)
    (hd : Recorded fuel t ds u) : Recorded fuel s (es++ds) u := by
  refine ⟨h.trace.append hd.trace,?_,hd.inv⟩
  intro e he
  obtain he|he := List.mem_append.mp he
  · exact h.events e he
  · exact hd.events e he

/-- A run of one event. -/
theorem recorded_single {fuel : ℕ} {e : Event} (h : EventOk fuel e) :
    Recorded fuel e.before [e] e.after := by
  refine ⟨Trace.single e,?_,h.after⟩
  intro d hd
  obtain rfl := List.mem_singleton.mp hd
  exact h

/-- One call of vmm_alloc_page returns and is recorded. -/
theorem allocPage_recorded {bs : List Block} {s : Vmm} (h : VmmInv bs s) {virt : Word}
    (hv : virt.toNat<0xC0000000) {fuel : ℕ} (hf : 2^32≤fuel) (hal : AlignedTable fuel s virt) :
    ∃ t r,vmmAllocPage fuel s virt=some (t,r) ∧ EventOk fuel ⟨s,.allocPage virt,r,t⟩ := by
  obtain ⟨t,r,cs,hrun,hinv,hstep⟩ := vmmAllocPage_step h hv hf hal
  exact ⟨t,r,hrun,⟨⟨bs,h⟩,⟨cs,hinv⟩,virt,hv,Or.inl ⟨rfl,hstep⟩⟩⟩

/-- The loop of vmm_map_user_pages returns and is recorded. -/
theorem allocEvents_recorded (addrs : List Word) {fuel : ℕ} (hf : 2^32≤fuel) :
    ∀ {s : Vmm},(∃ bs,VmmInv bs s)→(∀ addr∈addrs,addr.toNat<0xC0000000)→AlignedPages fuel s addrs→
      ∃ es t,allocEvents fuel s addrs=some (es,t) ∧ Recorded fuel s es t := by
  induction addrs with
  | nil => exact fun h _ _ => ⟨[],_,rfl,Trace.nil,fun e he => absurd he List.not_mem_nil,h⟩
  | cons addr addrs ih =>
    rintro s ⟨bs,h⟩ hu ⟨hal,hrest⟩
    obtain ⟨t,r,hrun,hok⟩ := allocPage_recorded h (hu addr List.mem_cons_self) hf hal
    have hone := recorded_single hok
    unfold allocEvents
    rw [hrun,Option.bind_some]
    dsimp only
    by_cases hr : r=0
    · subst hr
      obtain ⟨es,u,hes,hrec⟩ := ih hone.inv (fun a ha => hu a (List.mem_cons_of_mem addr ha))
        (hrest t hrun)
      rw [if_neg (not_not.mpr rfl),hes]
      exact ⟨_,u,rfl,hone.append hrec⟩
    · rw [if_pos hr]
      exact ⟨_,t,rfl,hone⟩

/-- A call returns and is recorded. -/
theorem runOp_recorded {s : Vmm} (h : ∃ bs,VmmInv bs s) {op : VmmOp} (hu : op.OnUser) {fuel : ℕ}
    (hf : 2^32≤fuel) (hal : AlignedOp fuel s op) :
    ∃ es t,runOp fuel s op=some (es,t) ∧ Recorded fuel s es t := by
  cases op with
  | allocPage virt =>
    obtain ⟨bs,h⟩ := h
    obtain ⟨t,r,hrun,hok⟩ := allocPage_recorded h hu hf hal
    refine ⟨_,t,?_,recorded_single hok⟩
    simp only [runOp,hrun,Option.map_some]
  | freePage virt =>
    obtain ⟨bs,h⟩ := h
    obtain ⟨hinv,hstep⟩ := vmmFreePage_step h hu
    have hok : EventOk fuel ⟨s,.freePage virt,0,vmmFreePage s virt⟩ :=
      ⟨⟨bs,h⟩,⟨bs,hinv⟩,virt,hu,Or.inr ⟨rfl,hstep⟩⟩
    exact ⟨_,_,rfl,recorded_single hok⟩
  | mapUserPages virt count => exact allocEvents_recorded _ hf h hu hal

/-- A run returns and is recorded. -/
theorem runOps_recorded (ops : List VmmOp) {fuel : ℕ} (hf : 2^32≤fuel) :
    ∀ {s : Vmm},(∃ bs,VmmInv bs s)→(∀ op∈ops,op.OnUser)→AlignedRun fuel s ops→
      ∃ es t,runOps fuel s ops=some (es,t) ∧ Recorded fuel s es t := by
  induction ops with
  | nil => exact fun h _ _ => ⟨[],_,rfl,Trace.nil,fun e he => absurd he List.not_mem_nil,h⟩
  | cons op ops ih =>
    rintro s h hu ⟨hal,hrest⟩
    obtain ⟨es,t,hrun,hrec⟩ := runOp_recorded h (hu op List.mem_cons_self) hf hal
    obtain ⟨ds,u,hruns,hrecs⟩ := ih hrec.inv (fun o ho => hu o (List.mem_cons_of_mem op ho))
      (hrest es t hrun)
    unfold runOps
    rw [hrun,Option.bind_some]
    dsimp only
    rw [hruns]
    exact ⟨_,u,rfl,hrec.append hrecs⟩

/-- After mm_init and any run of the allocator vmm_init boots, and every run of
calls on user addresses whose tables lie at page addresses is recorded. -/
theorem booted_recorded {start size : Word} (hsize : 12 ≤ size.toNat)
    (hfit : (align8 start).toNat+size.toNat<2^32) {st : Session} (hr : Reachable start size st)
    {kernelEnd : Word} (hout : st.heap.heapEnd.toNat≤(alignUp kernelEnd 4096).toNat) {fuel : ℕ}
    (hf : 2^32≤fuel) :
    ∃ s cs,vmmInit fuel st.heap kernelEnd=some s ∧ Booted kernelEnd cs s ∧
      ∀ ops,(∀ op∈ops,op.OnUser)→AlignedRun fuel s ops→
        ∃ es t,runOps fuel s ops=some (es,t) ∧ Recorded fuel s es t := by
  obtain ⟨bs,hinv,_,_⟩ := reachable_inv hsize hfit hr
  obtain ⟨s,cs,hinit,hbooted⟩ := vmmInit_booted hinv.represents hout hf
  exact ⟨s,cs,hinit,hbooted,fun ops hu hal => runOps_recorded ops hf ⟨cs,hbooted.inv⟩ hu hal⟩

/-- A call on one page leaves the page's table aligned, or there is none yet
and nothing changed. -/
theorem alignedTable_runOp {s t : Vmm} {bs : List Block} (h : VmmInv bs s) {virt : Word}
    (hv : virt.toNat<0xC0000000) {fuel : ℕ} (hf : 2^32≤fuel) (hal : AlignedTable fuel s virt)
    {op : VmmOp} (hop : op=.allocPage virt ∨ op=.freePage virt) {es : List Event}
    (hrun : runOp fuel s op=some (es,t)) : AlignedTable fuel t virt := by
  obtain rfl|rfl := hop
  · obtain ⟨t',r,_,halloc,_,hstep⟩ := vmmAllocPage_step h hv hf hal
    simp only [runOp,halloc,Option.map_some,Option.some.injEq,Prod.mk.injEq] at hrun
    obtain ⟨_,rfl⟩ := hrun
    obtain ⟨_,hsame⟩|⟨_,hadv⟩ := hstep.still_or_advanced
    · rw [hsame]
      exact hal
    · exact fun hc => absurd hc hadv.table
  · obtain ⟨_,hstep⟩ := vmmFreePage_step h hv
    simp only [runOp,Option.some.injEq,Prod.mk.injEq] at hrun
    obtain ⟨_,rfl⟩ := hrun
    by_cases hp : pde s (pdeIdx virt)=0
    · have hsame : vmmFreePage s virt=s := by
        unfold vmmFreePage
        rw [if_neg h.pdirNe,if_pos hp]
      rw [hsame]
      exact hal
    · exact fun hc => absurd ((hstep.tables _ (pdeIdx_lt hv)).symm.trans hc) hp

/-- A call on a user page is on a user address. -/
theorem VmmOp.onUser_onePage {virt : Word} (hv : virt.toNat<0xC0000000) {op : VmmOp}
    (hop : op=.allocPage virt ∨ op=.freePage virt) : op.OnUser := by
  obtain rfl|rfl := hop
  · exact hv
  · exact hv

/-- Calls on one page make at most one table. -/
theorem alignedRun_onePage {virt : Word} (hv : virt.toNat<0xC0000000) {fuel : ℕ} (hf : 2^32≤fuel)
    (ops : List VmmOp) (hops : ∀ op∈ops,op=.allocPage virt ∨ op=.freePage virt) :
    ∀ {s : Vmm},(∃ bs,VmmInv bs s)→AlignedTable fuel s virt→AlignedRun fuel s ops := by
  induction ops with
  | nil => exact fun _ _ => trivial
  | cons op ops ih =>
    intro s h hal
    have hop := hops op List.mem_cons_self
    have hu := VmmOp.onUser_onePage hv hop
    have halop : AlignedOp fuel s op := by
      obtain rfl|rfl := hop
      · exact hal
      · exact trivial
    refine ⟨halop,?_⟩
    intro es t hrun
    obtain ⟨es',t',hrun',hrec⟩ := runOp_recorded h hu hf halop
    rw [hrun] at hrun'
    cases hrun'
    obtain ⟨bs,hinv⟩ := h
    exact ih (fun o ho => hops o (List.mem_cons_of_mem op ho)) hrec.inv
      (alignedTable_runOp hinv hv hf hal hop hrun)

/-- vmm_init takes its directory from the front of a heap that is one free
block. -/
theorem vmmInit_fresh {h : Heap} {sz : ℕ} (hs : Represents h [⟨sz,false⟩]) (hlarge : 4096+28<sz)
    (kernelEnd : Word) {fuel : ℕ} (hf : 2^32≤fuel) :
    ∃ s,vmmInit fuel h kernelEnd=some s ∧ Booted kernelEnd [⟨4096,true⟩,⟨sz-4096-12,false⟩] s ∧
      s.heap.heapStart=h.heapStart := by
  have hround : (align8 pageSize).toNat=4096 := by decide
  obtain ⟨_,hnone⟩|⟨t,p,l,sz',r,hrun,hp,hbs,hw,_,htakes⟩ := kmalloc_on_chain hs (by decide : pageSize≠0) hf
  · have hno := hnone ⟨sz,false⟩ List.mem_cons_self
    rw [hround] at hno
    exact absurd ⟨rfl,by dsimp only; omega⟩ hno
  · obtain ⟨rfl,hcons⟩ : l=[] ∧ [⟨sz,false⟩]=⟨sz',false⟩::r := by
      cases l with
      | nil => exact ⟨rfl,hbs⟩
      | cons b l => exact absurd (List.cons.inj hbs).2 (by simp)
    cases hcons
    rw [hround] at hw htakes
    obtain ⟨hres,_⟩ := takesBlock_page hs hw htakes
    have hcarve : [] ++ carve 12 16 4096 sz++[]=[⟨4096,true⟩,⟨sz-4096-12,false⟩] := by
      unfold carve
      rw [if_pos (by omega)]
      rfl
    have hchain := htakes.chain
    rw [hcarve] at hchain hres
    obtain ⟨s,hinit,hbooted,hstart⟩ := vmmInit_room hrun hp hchain hres kernelEnd
    exact ⟨s,hinit,hbooted,hstart.trans htakes.heapStart⟩

/-- The first table after the directory lies 4120 bytes into the heap. -/
theorem firstTable {h : Heap} {sz : ℕ} (hs : Represents h [⟨4096,true⟩,⟨sz,false⟩]) (hlarge : 4096 ≤ sz)
    {fuel : ℕ} (hf : 2^32≤fuel) :
    ∃ t p,kmalloc fuel h pageSize=some (t,p) ∧ p≠0 ∧ p.toNat=h.heapStart.toNat+4120 := by
  have hround : (align8 pageSize).toNat=4096 := by decide
  obtain ⟨_,hnone⟩|⟨t,p,l,sz',r,hrun,hp,hbs,_,_,htakes⟩ := kmalloc_on_chain hs (by decide : pageSize≠0) hf
  · have hno := hnone ⟨sz,false⟩ (List.mem_cons_of_mem _ List.mem_cons_self)
    rw [hround] at hno
    exact absurd ⟨rfl,hlarge⟩ hno
  · have hl : l=[⟨4096,true⟩] := by
      match l,hbs with
      | [],hbs => cases hbs
      | [b],hbs => rw [(List.cons.inj hbs).1]
      | b::c::l,hbs => simp at hbs
    refine ⟨t,p,hrun,hp,?_⟩
    rw [htakes.ptr,hl]
    rfl

/-- A one-megabyte heap whose first table lies at a page address. -/
def pagedHeap : Session := ⟨mmInit (fun _ => 0) emptyTracker 0x100FE8 0x100000,[]⟩

/-- That heap is reached by mm_init. -/
theorem pagedHeap_reachable : Reachable 0x100FE8 0x100000 pagedHeap :=
  Reachable.init (fun _ => 0) emptyTracker

/-- A kernel that ends behind that heap. -/
theorem pagedHeap_below : pagedHeap.heap.heapEnd.toNat≤(alignUp 0x200FE8 4096).toNat := by decide

/-- vmm_init on that heap. -/
theorem pagedHeap_boots {fuel : ℕ} (hf : 2^32≤fuel) (virt : Word) :
    ∃ s bs,vmmInit fuel pagedHeap.heap 0x200FE8=some s ∧ Booted 0x200FE8 bs s ∧
      TableAvailable fuel s virt ∧ AlignedTable fuel s virt := by
  have hinv : HeapInv pagedHeap _ := mmInit_inv (fun _ => 0) emptyTracker (by decide) (by decide)
  obtain ⟨s,hinit,hbooted,hstart⟩ := vmmInit_fresh hinv.represents (by decide) 0x200FE8 hf
  obtain ⟨t,p,hrun,hp,hptr⟩ := firstTable hbooted.inv.represents (by decide) hf
  refine ⟨s,_,hinit,hbooted,Or.inr ⟨t,p,hrun,hp⟩,?_⟩
  intro _ t' p' hrun'
  rw [hrun] at hrun'
  cases hrun'
  rw [hstart] at hptr
  unfold Aligned
  rw [hptr]
  decide

end EronKernel.VmmRuns

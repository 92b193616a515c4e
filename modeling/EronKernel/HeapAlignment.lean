import EronKernel.HeapFirstFit
import EronKernel.HeapReleaseAll

/-!
# Alignment of the pointers that kmalloc returns

Requests are rounded up to multiples of eight, but a header has twelve bytes.
Over any run every payload but that of the last block stays a multiple of
four, so a block moves the next payload by a multiple of eight exactly when
its own payload is no multiple of eight. Which pointers are multiples of eight
is therefore a matter of how many blocks lie in front of them.
-/

namespace EronKernel.HeapAlignment

open ByteMemory FuelLoop BlockList HeapModel HeapLayout HeapOps HeapRuns HeapFirstFit HeapIntegrity
open HeapReleaseAll

/-- Whatever block kmalloc returns lies at a multiple of eight. -/
def EightAligned (s : Heap) (n : Word) : Prop :=
  ∀ fuel t p,kmalloc fuel s n=some (t,p)→ p≠0→ p.toNat%8=0

/-- The blocks in front of the first that fits. -/
def blocksBefore (wanted : ℕ) (bs : List Block) : List Block :=
  bs.takeWhile fun b => decide (¬Fits wanted b)

/-- The number of blocks whose payload is a multiple of eight. -/
def eights (bs : List Block) : ℕ := bs.countP fun b => decide (8∣b.size)

/-- The blocks in front of a fitting one behind blocks that do not fit. -/
theorem blocksBefore_split {wanted : ℕ} {l r : List Block} {b : Block} (hl : ∀ c∈l,¬Fits wanted c)
    (hb : Fits wanted b) : blocksBefore wanted (l++b::r)=l := by
  unfold blocksBefore
  rw [List.takeWhile_append_of_pos (fun c hc => decide_eq_true (hl c hc)),
    List.takeWhile_cons_of_neg (by simpa using hb),List.append_nil]

/-- Payloads of multiples of four cover a multiple of eight up to one half of
it for each payload that is itself a multiple of eight. -/
theorem extent_mod_eight (l : List Block) (h : ∀ b∈l,4∣b.size) :
    extent 12 l%8=4*eights l%8 := by
  induction l with
  | nil => rfl
  | cons b l ih =>
    have htail := ih fun c hc => h c (List.mem_cons_of_mem b hc)
    have hfour := h b List.mem_cons_self
    unfold eights at htail ⊢
    rw [extent,List.countP_cons]
    by_cases hb : 8∣b.size
    · rw [if_pos (decide_eq_true hb)]
      omega
    · rw [if_neg (by simpa using hb)]
      omega

/-- A run of releases keeps the inner payloads multiples of four. -/
theorem innerDvd_of_releaseRun {st u : Session} {bs cs : List Block} {ps : List Word}
    (h : ReleaseRun st bs ps u cs) (hinv : HeapInv st bs) (hd : InnerDvd 4 bs) : InnerDvd 4 cs := by
  induction h with
  | nil st bs => exact hd
  | cons _ hstep _ ih => exact ih hstep.inv (innerDvd_releaseIn (by decide) hinv.separated hd)

/-- The rounded request is a multiple of eight, also where the rounding wraps. -/
theorem four_dvd_align8 (n : Word) : 4∣(align8 n).toNat := by
  rw [toNat_align8]
  omega

/-- Every call that returned keeps the inner payloads multiples of four. -/
theorem innerDvd_of_perform {st next : Session} {bs : List Block} (h : HeapInv st bs)
    (hd : InnerDvd 4 bs) {c : HeapCall} {fuel : ℕ} (hp : perform fuel st c=some next) :
    ∃ cs,HeapInv next cs ∧ InnerDvd 4 cs := by
  obtain ⟨cs,hstep⟩ := callStep_of_perform h hp
  have hf : 2^32≤ max fuel (2^32) := Nat.le_max_right _ _
  have hmore := perform_mono (Nat.le_max_left fuel (2^32)) hp
  refine ⟨cs,hstep.inv,?_⟩
  cases c with
  | kmalloc size =>
    obtain ⟨⟨t,p⟩,hrun,rfl⟩ := Option.map_eq_some_iff.mp hmore
    by_cases hz : size=0
    · rw [kmalloc,if_pos hz] at hrun
      cases hrun
      exact hstep.inv.represents.unique h.represents ▸ hd
    · obtain ⟨hnull,_⟩|⟨t',p',l,sz,r,hfound,_,rfl,_,_,htakes⟩ := kmalloc_on_chain h.represents hz hf
      · rw [hrun] at hnull
        cases hnull
        exact hstep.inv.represents.unique h.represents ▸ hd
      · rw [hrun] at hfound
        cases hfound
        rw [hstep.inv.represents.unique htakes.chain]
        exact innerDvd_carve (by decide) (four_dvd_align8 size) hd
  | kfree p =>
    obtain ⟨⟨t,k⟩,hrun,rfl⟩ := Option.map_eq_some_iff.mp hmore
    by_cases hin : p∈trackedPtrs st.heap.tracked
    · obtain ⟨t',l,sz,r,hfound,rfl,hrel,_⟩ := kfree_release h hin hf
      rw [hrun] at hfound
      cases hfound
      rw [hstep.inv.represents.unique hrel.chain]
      exact innerDvd_releaseIn (by decide) h.separated hd
    · rw [kfree_untracked hin] at hrun
      cases hrun
      exact hstep.inv.represents.unique h.represents ▸ hd
  | kfreeAll =>
    obtain ⟨u,ds,hrun,hrel,_⟩ := kfreeAll_releases h hf
    have hheap : some next.heap=some u.heap := by
      have hproj := perform_kfreeAll_heap (max fuel (2^32)) st
      rw [hmore,hrun] at hproj
      exact hproj
    have hrep := (hrel.facts h).1.inv.represents
    rw [←Option.some.inj hheap] at hrep
    rw [hstep.inv.represents.unique hrep]
    exact innerDvd_of_releaseRun hrel h hd
  | write x b =>
    have hlive : LivePayload st x := permitted_of_perform hp
    have hsame := write_inv h hlive b
    rw [perform,if_pos hlive] at hp
    cases hp
    exact hstep.inv.represents.unique hsame.represents ▸ hd

/-- In every reachable state the heap starts at a multiple of eight and every
payload but the last is a multiple of four. -/
theorem reachable_innerDvd {start size : Word} (hs : 12 ≤ size.toNat)
    (hfit : (align8 start).toNat+size.toNat<2^32) {st : Session} (hr : Reachable start size st) :
    ∃ bs,HeapInv st bs ∧ InnerDvd 4 bs := by
  induction hr with
  | init m t => exact ⟨_,mmInit_inv m t hs hfit,fun b hb => absurd hb List.not_mem_nil⟩
  | call fuel c _ hp ih =>
    obtain ⟨bs,hinv,hd⟩ := ih
    exact innerDvd_of_perform hinv hd hp

/-- A block that kmalloc takes lies at a multiple of four, and at a multiple of
eight exactly behind an odd number of blocks whose payload is a multiple of
eight. -/
theorem ptr_mod_eight {s t : Heap} {l r : List Block} {sz w : ℕ} {p : Word}
    (h : TakesBlock s t l r sz w p) (hstart : s.heapStart.toNat%8=0)
    (hd : InnerDvd 4 (l++⟨sz,false⟩::r)) : p.toNat%8=4*(eights l+1)%8 := by
  have hl := ((innerDvd_append l (List.cons_ne_nil _ _)).mp hd).1
  have hext := extent_mod_eight l hl
  rw [h.ptr]
  omega

/-- In every reachable state kmalloc returns NULL or a multiple of eight exactly
when the request is empty, no block fits, or an odd number of blocks whose
payload is a multiple of eight lies in front of the first that fits. -/
theorem kmalloc_aligned_iff {start size : Word} (hsize : 12 ≤ size.toNat)
    (hfit : (align8 start).toNat+size.toNat<2^32) {st : Session} (hr : Reachable start size st) :
    ∃ bs,Represents st.heap bs ∧ ∀ n,EightAligned st.heap n ↔
      n=0 ∨ (∀ b∈bs,¬Fits (align8 n).toNat b) ∨
        eights (blocksBefore (align8 n).toNat bs)%2=1 := by
  obtain ⟨bs,hinv,hd⟩ := reachable_innerDvd hsize hfit hr
  obtain ⟨_,_,hstart,_⟩ := reachable_inv hsize hfit hr
  have hbase : st.heap.heapStart.toNat%8=0 := by
    rw [hstart,toNat_align8]
    omega
  refine ⟨bs,hinv.represents,?_⟩
  intro n
  by_cases hz : n=0
  · refine iff_of_true ?_ (Or.inl hz)
    intro fuel t p hrun hp
    rw [kmalloc,if_pos hz] at hrun
    cases hrun
    exact absurd rfl hp
  · constructor
    · intro hall
      obtain ⟨_,hnone⟩|⟨t,p,l,sz,r,hrun,hp,rfl,hw,hl,htakes⟩ :=
        kmalloc_on_chain hinv.represents hz (Nat.le_refl (2^32))
      · exact Or.inr (Or.inl hnone)
      · have hmod := ptr_mod_eight htakes hbase hd
        have hzero := hall (2^32) t p hrun hp
        refine Or.inr (Or.inr ?_)
        rw [blocksBefore_split hl ⟨rfl,hw⟩]
        omega
    · intro hcond fuel t p hrun hp
      have hmore := kmalloc_mono (Nat.le_max_left fuel (2^32)) hrun
      obtain ⟨hnull,_⟩|⟨t',p',l,sz,r,hfound,_,rfl,hw,hl,htakes⟩ :=
        kmalloc_on_chain hinv.represents hz (Nat.le_max_right fuel (2^32))
      · rw [hmore] at hnull
        cases hnull
        exact absurd rfl hp
      · rw [hmore] at hfound
        cases hfound
        have hmod := ptr_mod_eight htakes hbase hd
        obtain hno|hnone|hodd := hcond
        · exact absurd hno hz
        · exact absurd ⟨rfl,hw⟩ (hnone _ (List.mem_append_right l List.mem_cons_self))
        · rw [blocksBefore_split hl ⟨rfl,hw⟩] at hodd
          omega

/-- The condition in a one-megabyte heap. -/
theorem kmalloc_aligned_iff_in_megabyteHeap :
    ∃ bs,Represents megabyteHeap.heap bs ∧ (EightAligned megabyteHeap.heap 64 ↔
      (64 : Word)=0 ∨ (∀ b∈bs,¬Fits (align8 64).toNat b) ∨
        eights (blocksBefore (align8 64).toNat bs)%2=1) := by
  obtain ⟨bs,hbs,hall⟩ := kmalloc_aligned_iff (by decide) (by decide) megabyteHeap_reachable
  exact ⟨bs,hbs,hall 64⟩

/-- The first allocation of a one-megabyte heap lies at 0x10000C. -/
theorem kmalloc_misaligned_in_megabyteHeap :
    Reachable 0x100000 0x100000 megabyteHeap ∧ ¬EightAligned megabyteHeap.heap 64 ∧
      ∃ t,kmalloc 1 megabyteHeap.heap 64=some (t,0x10000C) := by
  have hrun : (kmalloc 1 megabyteHeap.heap 64).map (fun r => r.2)=some 0x10000C := by
    decide +kernel
  obtain ⟨⟨t,p⟩,hfound,hp⟩ := Option.map_eq_some_iff.mp hrun
  dsimp only at hp
  subst hp
  refine ⟨megabyteHeap_reachable,?_,t,hfound⟩
  intro hall
  exact absurd (hall 1 t _ hfound (by decide)) (by decide)

end EronKernel.HeapAlignment

import EronKernel.ElfContainment

/-!
# Files that are rejected after a part was loaded

The loader checks one program header and copies its segment before it looks at
the next header. What a rejected file leaves behind is therefore what the headers
in front of the rejected one have stored: a rejection is without a trace exactly
when none of them leaves another byte than memory held before the call.
-/

namespace EronKernel.ElfAtomicity

open ByteMemory FuelLoop ElfModel ElfRuns ElfSegments ElfHeaders ElfLoop ElfContainment

/-- A check rejects the file: one of those before the loop, or one of those on
a header that the loop gets to. -/
def Rejected (m : Mem) (data size : Word) : Prop :=
  ¬Loads m data size ∨ ∃ n tr,LoopAt m data size n tr ∧ n<(ePhnum tr.mem data).toNat ∧
    classify tr.mem data size n=.reject

/-- When a check rejects the file the call returns zero and memory is as before. -/
def Atomic (m : Mem) (data size : Word) : Prop :=
  Rejected m data size→∃ tr,elfLoad m data size=some (tr,0) ∧ tr.mem=m

/-- The loop finds a header in a memory and the header passes all checks. -/
def Passes (m : Mem) (data size : Word) (i : ℕ) (tr : Trace) : Prop :=
  LoopAt m data size i tr ∧ i<(ePhnum tr.mem data).toNat ∧ classify tr.mem data size i=.copy

/-- Loading the segment of a header stores a byte at an address. -/
def Stores (m : Mem) (data ph x : Word) (b : Byte) : Prop :=
  ∃ n c,Ends m data ph n c ∧ Covers m data ph n c x ∧ clearedMem m data ph n c x=b

/-- In front of header n a header that passes all checks stores at an address
another byte than memory held there before the call, and none behind it stores
there again. -/
def Leaves (m : Mem) (data size : Word) (n : ℕ) (x : Word) : Prop :=
  ∃ i tr b,i < n ∧ Passes m data size i tr ∧ Stores tr.mem data (phAddr tr.mem data i) x b ∧ b≠m x ∧
    ∀ j tr' b',i < j→ j < n→Passes m data size j tr'→¬Stores tr'.mem data (phAddr tr'.mem data j) x b'

/-- A header is rejected behind one that has left another byte. -/
def RejectsBehindChange (m : Mem) (data size : Word) : Prop :=
  Loads m data size ∧ ∃ n tr x,LoopAt m data size n tr ∧ n<(ePhnum tr.mem data).toNat ∧
    classify tr.mem data size n=.reject ∧ Leaves m data size n x

/-- The loop passes over a header, which stores nothing. -/
theorem leaves_skip {m : Mem} {data size : Word} {n : ℕ} {tr : Trace} (h : LoopAt m data size n tr)
    (hc : classify tr.mem data size n=.skip) (x : Word) :
    Leaves m data size (n+1) x ↔ Leaves m data size n x := by
  have hno : ∀ tr',¬Passes m data size n tr' := by
    rintro tr' ⟨h',_,hc'⟩
    rw [loopAt_unique h h'] at hc
    cases hc.symm.trans hc'
  constructor
  · rintro ⟨i,tri,b,hi,hp,hs,hb,hlast⟩
    have hne : i≠n := fun he => hno tri (he▸hp)
    exact ⟨i,tri,b,by omega,hp,hs,hb,fun j tr' b' hij hj => hlast j tr' b' hij (by omega)⟩
  · rintro ⟨i,tri,b,hi,hp,hs,hb,hlast⟩
    refine ⟨i,tri,b,by omega,hp,hs,hb,fun j tr' b' hij hj hp' => ?_⟩
    have hne : j≠n := fun he => hno tr' (he▸hp')
    exact hlast j tr' b' hij (by omega) hp'

/-- A header that passes decides about the bytes that it stores. -/
theorem leaves_copy {m : Mem} {data size : Word} {i n c : ℕ} {tr : Trace} (h : Passes m data size i tr)
    (hends : Ends tr.mem data (phAddr tr.mem data i) n c) (x : Word) :
    (Covers tr.mem data (phAddr tr.mem data i) n c x→
      (Leaves m data size (i+1) x ↔ clearedMem tr.mem data (phAddr tr.mem data i) n c x≠m x)) ∧
    (¬Covers tr.mem data (phAddr tr.mem data i) n c x→
      (Leaves m data size (i+1) x ↔ Leaves m data size i x)) := by
  have honly : ∀ tr',Passes m data size i tr'→tr'=tr := fun tr' h' => loopAt_unique h'.1 h.1
  have hstores : ∀ b,Stores tr.mem data (phAddr tr.mem data i) x b→
      Covers tr.mem data (phAddr tr.mem data i) n c x ∧
        clearedMem tr.mem data (phAddr tr.mem data i) n c x=b := by
    rintro b ⟨n',c',h',hcovers,hb⟩
    obtain ⟨rfl,rfl⟩ := hends.unique h'
    exact ⟨hcovers,hb⟩
  constructor
  · intro hcovers
    constructor
    · rintro ⟨j,trj,b,hj,hp,hs,hb,hlast⟩
      by_cases he : j=i
      · subst he
        rw [honly trj hp] at hs
        rw [(hstores b hs).2]
        exact hb
      · exact absurd ⟨n,c,hends,hcovers,rfl⟩ (hlast i tr _ (by omega) (Nat.lt_succ_self i) h)
    · exact fun hb => ⟨i,tr,_,Nat.lt_succ_self i,h,⟨n,c,hends,hcovers,rfl⟩,hb,
        fun j _ _ hij hj => by omega⟩
  · intro hno
    constructor
    · rintro ⟨j,trj,b,hj,hp,hs,hb,hlast⟩
      have hne : j≠i := by
        rintro rfl
        rw [honly trj hp] at hs
        exact hno (hstores b hs).1
      exact ⟨j,trj,b,by omega,hp,hs,hb,fun k tr' b' hjk hk => hlast k tr' b' hjk (by omega)⟩
    · rintro ⟨j,trj,b,hj,hp,hs,hb,hlast⟩
      refine ⟨j,trj,b,by omega,hp,hs,hb,fun k tr' b' hjk hk hp' hs' => ?_⟩
      by_cases he : k=i
      · subst he
        rw [honly tr' hp'] at hs'
        exact hno (hstores b' hs').1
      · exact hlast k tr' b' hjk (by omega) hp' hs'

/-- Memory differs from that before the call where a header has left another
byte, and nowhere else. -/
theorem loopAt_differs_iff {m : Mem} {data size : Word} {n : ℕ} {tr : Trace}
    (h : LoopAt m data size n tr) (x : Word) : tr.mem x≠m x ↔ Leaves m data size n x := by
  induction h with
  | start =>
    refine iff_of_false (fun hne => hne rfl) ?_
    rintro ⟨i,_,_,hi,_⟩
    omega
  | @skip i tr h hi hc ih =>
    rw [leaves_skip h hc]
    exact ih
  | @copy i tr t h hi hc ht ih =>
    obtain ⟨n,c,hends⟩ := exists_ends tr.mem data (phAddr tr.mem data i)
    have hrun := @copySegment_ends data _ (tr.note (inspected tr.mem data size i)) n c hends
    rw [Option.some.inj (ht.symm.trans hrun),endsTrace_mem]
    obtain ⟨hcovered,hkept⟩ := leaves_copy ⟨h,hi,hc⟩ hends x
    by_cases hcovers : Covers tr.mem data (phAddr tr.mem data i) n c x
    · rw [hcovered hcovers]
      rfl
    · rw [hkept hcovers,←ih]
      exact not_congr (Eq.congr_left (clearedMem_of_not_covers hcovers))

/-- A file that is rejected leaves memory as it was exactly when no header in
front of the rejected one leaves another byte, for every file and every memory. -/
theorem elf_load_atomic_iff (m : Mem) (data size : Word) :
    Atomic m data size ↔ ¬RejectsBehindChange m data size := by
  constructor
  · rintro ha ⟨hl,n,tr,x,h,hn,hc,hleaves⟩
    obtain ⟨tr',hrun,hmem⟩ := ha (Or.inr ⟨n,tr,h,hn,hc⟩)
    rw [elfLoad_of_loopAt hl h hn hc] at hrun
    cases hrun
    exact (loopAt_differs_iff h x).mpr hleaves (congrFun hmem x)
  · intro hno hrej
    by_cases hl : Loads m data size
    · obtain hnl|⟨n,tr,h,hn,hc⟩ := hrej
      · exact absurd hl hnl
      · refine ⟨_,elfLoad_of_loopAt hl h hn hc,funext fun x => ?_⟩
        by_contra hne
        exact hno ⟨hl,n,tr,x,h,hn,hc,(loopAt_differs_iff h x).mp hne⟩
    · obtain ⟨rs,hrun,_⟩ := elfLoad_not_loads hl
      exact ⟨_,hrun,rfl⟩

/-- A file with a segment in user space and behind it one in kernel space. -/
def halfBadFile : Mem :=
  fileMem ((ehdrBytes 52).set 44 2++phdrBytes 0x08048000 2 4++phdrBytes 0x1000 2 4)

/-- The loader rejects the file at its second header and leaves the first
segment in memory. -/
theorem elf_load_not_atomic :
    BufferOutside 0x200000 116 ∧ ¬Atomic halfBadFile 0x200000 116 ∧
      ∃ tr,elfLoad halfBadFile 0x200000 116=some (tr,0) ∧ halfBadFile 0x08048000=0 ∧
        tr.mem 0x08048000=0x7F := by
  have hb : BufferOutside 0x200000 116 := by unfold BufferOutside; decide
  have hl : Loads halfBadFile 0x200000 116 := by decide
  have hd := hb.range hl.size_ge
  have hs : Stable halfBadFile 0x200000 116 1 := by
    intro j hj
    obtain rfl : j=0 := by omega
    have haddr : phAddr halfBadFile 0x200000 0=0x200034 := by decide
    refine ⟨by decide,by decide,fun k hk hu => ?_,fun _ => ?_⟩
    · rw [haddr] at hu
      unfold InUser at hu
      bv_omega
    · unfold Fits
      decide
  have hbyte : (headersTrace 0x200000 116 (startTrace halfBadFile 0x200000) 1).mem 0x08048000=0x7F := by
    decide +kernel
  have hzero : halfBadFile 0x08048000=0 := by decide
  have hloop := loopAt_of_stable hd 1 hs
  have hlt : 1<(ePhnum (headersTrace 0x200000 116 (startTrace halfBadFile 0x200000) 1).mem 0x200000).toNat := by
    decide +kernel
  have hrej : classify (headersTrace 0x200000 116 (startTrace halfBadFile 0x200000) 1).mem 0x200000 116 1=
      .reject := by
    decide +kernel
  refine ⟨hb,fun ha => ?_,_,elfLoad_of_loopAt hl hloop hlt hrej,hzero,hbyte⟩
  have hleaves := (loopAt_differs_iff hloop 0x08048000).mp (by rw [hbyte,hzero]; decide)
  exact (elf_load_atomic_iff _ _ _).mp ha ⟨hl,1,_,_,hloop,hlt,hrej,hleaves⟩

end EronKernel.ElfAtomicity

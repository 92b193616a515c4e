import EronKernel.ElfLoop

/-!
# Containment of the loader's reads and writes

Every header is judged in the memory in which the loop finds it. Writes stay in
user space exactly when every segment that is copied ends there in unbounded
arithmetic; reads stay in the file exactly when every header that is looked at
and every copied source lie inside it. Only a segment that covers the size
fields of its own header is longer or shorter than they first say.
-/

namespace EronKernel.ElfContainment

open ByteMemory FuelLoop ElfModel ElfRuns ElfSegments ElfHeaders ElfLoop

/-- The data buffer does not wrap and lies outside user space. -/
def BufferOutside (data size : Word) : Prop :=
  data.toNat+size.toNat≤2^32 ∧
    (data.toNat+size.toNat≤0x08000000 ∨ 0xC0000000≤data.toNat)

/-- The call returns and every address it writes lies in user space. -/
def WritesInside (m : Mem) (data size : Word) : Prop :=
  ∃ r,elfLoad m data size=some r ∧ ∀ x∈r.1.writes,InUser x

/-- The segment ends inside user space: p_vaddr and the larger of p_filesz and
p_memsz do. A segment that covers these fields of its own header ends where its
loops do. -/
def SegmentFits (m : Mem) (data ph : Word) : Prop :=
  (KeepsSizes m ph→Fits m ph) ∧ (¬KeepsSizes m ph→EndsInUser m data ph)

/-- Every segment that is copied ends inside user space, by its header as the
loop finds it. -/
def SegmentsFit (m : Mem) (data size : Word) : Prop :=
  Loads m data size→∀ i tr,LoopAt m data size i tr→ i<(ePhnum tr.mem data).toNat→
    classify tr.mem data size i=.copy→SegmentFits tr.mem data (phAddr tr.mem data i)

/-- In both cases its loops end there. -/
theorem segmentFits_iff {m : Mem} {data ph : Word} : SegmentFits m data ph ↔ EndsInUser m data ph := by
  unfold SegmentFits
  by_cases hk : KeepsSizes m ph
  · rw [endsInUser_iff_fits hk]
    exact ⟨fun h => h.1 hk,fun h => ⟨fun _ => h,fun hn => absurd hk hn⟩⟩
  · exact ⟨fun h => h.2 hk,fun h => ⟨fun hy => absurd hy hk,fun _ => h⟩⟩

/-- A segment that is copied and does not fit writes the first byte behind user
space. -/
theorem elfLoad_escapes {m : Mem} {data size : Word} (hl : Loads m data size) {i : ℕ} {tr : Trace}
    (h : LoopAt m data size i tr) (hi : i<(ePhnum tr.mem data).toNat)
    (hc : classify tr.mem data size i=.copy) (hout : ¬SegmentFits tr.mem data (phAddr tr.mem data i)) :
    ∃ r,elfLoad m data size=some r ∧ userSpaceEnd∈r.1.writes := by
  obtain ⟨n,c,hends⟩ := exists_ends tr.mem data (phAddr tr.mem data i)
  obtain ⟨r,hr,hext⟩ := loopAt_extends hl (loopAt_copied h hi hc hends)
  have hcovers := covers_userSpaceEnd hends (classify_copy hc).2.2.2.1 (mt segmentFits_iff.mpr hout)
  exact ⟨r,hr,hext.1 _ ((mem_writes_endsTrace _).mpr (Or.inr hcovers))⟩

/-- Every write of elf_load lies in user space exactly when every segment that is
copied ends there, for every file and every memory. -/
theorem elf_load_writes_inside_iff (m : Mem) (data size : Word) :
    WritesInside m data size ↔ SegmentsFit m data size := by
  by_cases hl : Loads m data size
  · constructor
    · rintro ⟨r,hrun,hin⟩ _ i tr h hi hc
      by_contra hout
      obtain ⟨r',hrun',hw⟩ := elfLoad_escapes hl h hi hc hout
      rw [hrun] at hrun'
      cases hrun'
      exact absurd (hin _ hw) (by decide)
    · intro hfit
      have hw : ∀ {n tr},LoopAt m data size n tr→∀ x∈tr.writes,InUser x := by
        intro n tr h
        refine loopAt_invariant (fun tr => ∀ x∈tr.writes,InUser x) ?_ (fun _ _ _ _ ht => ht) ?_ h
        · intro x hx
          cases hx
        · intro i tr n c h hi hc hends ht x hx
          rcases (mem_writes_endsTrace x).mp hx with hx|hx
          · exact ht x hx
          · exact covers_inUser hends (classify_copy hc).2.2.1
              (segmentFits_iff.mp (hfit hl i tr h hi hc)) hx
      obtain ⟨n,tr,h,⟨_,hrun⟩|⟨_,_,hrun⟩⟩ := elfLoad_last hl
      · exact ⟨_,hrun,hw h⟩
      · exact ⟨_,hrun,fun x hx => hw h x hx⟩
  · obtain ⟨rs,hrun,_⟩ := elfLoad_not_loads hl
    refine iff_of_true ⟨_,hrun,?_⟩ fun h => absurd h hl
    intro x hx
    cases hx

/-- The bytes of a word, least significant first. -/
def wordBytes (w : Word) : List Byte := [byteOf w 0,byteOf w 1,byteOf w 2,byteOf w 3]

/-- An ELF header with one program header behind it at the given offset. -/
def ehdrBytes (phoff : Word) : List Byte :=
  [0x7F,0x45,0x4C,0x46,1,1,1,0,0,0,0,0,0,0,0,0,2,0,3,0,1,0,0,0]++wordBytes 0x08048000++wordBytes phoff++
    [0,0,0,0,0,0,0,0,52,0,32,0,1,0,0,0,0,0,0,0]

/-- A loadable program header whose source starts at the file's first byte. -/
def phdrBytes (vaddr filesz memsz : Word) : List Byte :=
  wordBytes 1++wordBytes 0++wordBytes vaddr++wordBytes vaddr++wordBytes filesz++wordBytes memsz++
    wordBytes 5++wordBytes 0x1000

/-- Zeroed memory with a file at 0x200000. -/
def fileMem (bytes : List Byte) : Mem := fun x => bytes.getD (x-0x200000).toNat 0

/-- A file with one segment whose size in the file exceeds its size in memory,
loaded at the last byte of user space. -/
def escapingFile : Mem := fileMem (ehdrBytes 52++phdrBytes 0xBFFFFFFF 2 1)

/-- The loader writes the byte behind user space when the size in the file
exceeds the size in memory. -/
theorem elf_load_writes_behind_user_space :
    BufferOutside 0x200000 84 ∧ ¬WritesInside escapingFile 0x200000 84 ∧
      ∃ r,elfLoad escapingFile 0x200000 84=some r ∧ userSpaceEnd∈r.1.writes := by
  have hb : BufferOutside 0x200000 84 := by unfold BufferOutside; decide
  have hl : Loads escapingFile 0x200000 84 := by decide
  have hout : ¬SegmentFits escapingFile 0x200000 (phAddr escapingFile 0x200000 0) := by
    intro h
    have hkeeps : KeepsSizes escapingFile (phAddr escapingFile 0x200000 0) := by
      unfold KeepsSizes
      decide
    have hfits := h.1 hkeeps
    unfold Fits at hfits
    exact absurd hfits (by decide)
  obtain ⟨r,hr,hw⟩ := elfLoad_escapes hl .start (show 0<(ePhnum escapingFile 0x200000).toNat by decide)
    (show classify escapingFile 0x200000 84 0=.copy by decide) hout
  refine ⟨hb,?_,r,hr,hw⟩
  rintro ⟨r',hr',hin⟩
  rw [hr] at hr'
  cases hr'
  exact absurd (hin _ hw) (by decide)

/-- The loop gets to a header: no earlier one is rejected. -/
def Reached (m : Mem) (data size : Word) (i : ℕ) : Prop :=
  i<(ePhnum m data).toNat ∧ ∀ j < i,classify m data size j≠.reject

/-- Every header that is reached lies outside user space. -/
def TableOutside (m : Mem) (data size : Word) : Prop :=
  Loads m data size→∀ i,Reached m data size i→RangeOutside (phAddr m data i) 32

/-- Every segment that is copied ends inside user space. -/
def CopiesFit (m : Mem) (data size : Word) : Prop :=
  Loads m data size→∀ i,Reached m data size i→classify m data size i=.copy→Fits m (phAddr m data i)

/-- The buffer's bytes lie outside user space. -/
theorem BufferOutside.range {data size : Word} (h : BufferOutside data size) {n : ℕ}
    (hn : n ≤ size.toNat) : RangeOutside data n := by
  intro k hk hu
  unfold InUser at hu
  unfold BufferOutside at h
  bv_omega

/-- Headers in front of one that is reached are reached. -/
theorem Reached.earlier {m : Mem} {data size : Word} {i j : ℕ} (h : Reached m data size i)
    (hj : j < i) : Reached m data size j :=
  ⟨by have := h.1; omega,fun k hk => h.2 k (by omega)⟩

/-- When every header that is reached in a reference memory is stable, a loop
over a memory that differs in user space only goes through a stable prefix. -/
theorem loopAt_stable {m m0 : Mem} {data size : Word} (h : AgreesOutside m m0)
    (hd : RangeOutside data 52)
    (hall : ∀ i,Reached m0 data size i→RangeOutside (phAddr m0 data i) 32 ∧
      (classify m0 data size i=.copy→Fits m0 (phAddr m0 data i)))
    {n : ℕ} {tr : Trace} (hloop : LoopAt m data size n tr) :
    Stable m0 data size n ∧ AgreesOutside tr.mem m0 := by
  have hnext : ∀ i (tr : Trace),Stable m0 data size i→AgreesOutside tr.mem m0→
      i<(ePhnum tr.mem data).toNat→classify tr.mem data size i≠.reject→
      Stable m0 data size (i+1) := by
    intro i tr hs hagree hi hrej
    obtain ⟨hnum,_,_⟩ := ehdr_congr hagree hd
    have hreach : Reached m0 data size i := ⟨hnum ▸ hi,fun j hj => (hs j hj).2.1⟩
    obtain ⟨hc,_⟩ := hs.classify_next hd hagree (hall i hreach).1
    intro j hj
    by_cases hji : j=i
    · rw [hji]
      exact ⟨hreach.1,hc ▸ hrej,(hall i hreach).1,(hall i hreach).2⟩
    · exact hs j (by omega)
  induction hloop with
  | start => exact ⟨fun i hi => absurd hi (Nat.not_lt_zero i),h⟩
  | @skip i tr _ hi hc ih => exact ⟨hnext i tr ih.1 ih.2 hi (by rw [hc]; decide),ih.2⟩
  | @copy i tr t _ hi hc ht ih =>
    have hs := hnext i tr ih.1 ih.2 hi (by rw [hc]; decide)
    refine ⟨hs,?_⟩
    have hstep := (@headerTrace_step data size tr m0 i 0 hd ih.2 hs).1
    obtain ⟨_,_,hout,hfit⟩ := hs i (Nat.lt_succ_self i)
    obtain ⟨_,_,ha⟩ := ehdr_congr ih.2 hd
    obtain ⟨hcc,_⟩ := hs.classify_congr hd ih.2 (Nat.lt_succ_self i)
    have hfits := (fits_congr ih.2 hout).mpr (hfit (hcc ▸ hc))
    rw [←ha i] at hout hfits
    have hseg := (@copySegment_fits data _ (tr.note (inspected tr.mem data size i)) hout
      (classify_copy hc).2.2.1 hfits).1
    rw [ht] at hseg
    unfold headerTrace at hstep
    rw [hc] at hstep
    rw [Option.some.inj hseg]
    exact hstep

/-- A stable prefix is where the loop gets to. -/
theorem loopAt_of_stable {m : Mem} {data size : Word} (hd : RangeOutside data 52) (n : ℕ)
    (hs : Stable m data size n) :
    LoopAt m data size n (headersTrace data size (startTrace m data) n) := by
  induction n with
  | zero => exact LoopAt.start
  | succ n ih =>
    have hloop := ih (hs.front (Nat.le_succ n))
    obtain ⟨hnum,_,hout,_⟩ := hs n (Nat.lt_succ_self n)
    have hstart : Stable (startTrace m data).mem data size (n+1) := hs
    obtain ⟨hagree,hcase⟩ := headersTrace_succ hd hstart
    obtain ⟨hphnum,_,ha⟩ := ehdr_congr hagree hd
    obtain ⟨hc,hi⟩ := hstart.classify_congr hd hagree (Nat.lt_succ_self n)
    have hlt : n<(ePhnum (headersTrace data size (startTrace m data) n).mem data).toNat := by
      rw [hphnum]
      exact hnum
    rw [←hc,←hi,←ha n] at hcase
    obtain ⟨hskip,he⟩|⟨hcopy,hlo,hfit,he⟩ := hcase
    · rw [he]
      exact LoopAt.skip hloop hlt hskip
    · have haddr : phAddr (headersTrace data size (startTrace m data) n).mem data n=phAddr m data n := ha n
      rw [he]
      rw [←haddr] at hout
      exact LoopAt.copy hloop hlt hcopy
        (@copySegment_fits data _ ((headersTrace data size (startTrace m data) n).note _) hout hlo hfit).1

/-- While the headers that are reached lie outside user space the loop finds them
as they were before the call, so the bound is one on the file. -/
theorem segmentsFit_iff_copiesFit {m : Mem} {data size : Word} (hb : BufferOutside data size)
    (ht : TableOutside m data size) : SegmentsFit m data size ↔ CopiesFit m data size := by
  constructor
  · intro hfit hl i
    have hd := hb.range hl.size_ge
    induction i using Nat.strong_induction_on with
    | _ i ih =>
      intro hr hc
      have hstable : Stable m data size i := fun j hj =>
        ⟨(hr.earlier hj).1,hr.2 j hj,ht hl j (hr.earlier hj),ih j hj (hr.earlier hj)⟩
      have hloop := loopAt_of_stable hd i hstable
      obtain ⟨hagree,_⟩ := @loadHeaders_stable data size (startTrace m data) hd i hstable
      obtain ⟨hphnum,_,ha⟩ := ehdr_congr hagree hd
      obtain ⟨hcc,_⟩ := hstable.classify_next hd hagree (ht hl i hr)
      have hcopy := hcc.trans hc
      have hfits := hfit hl i _ hloop (by rw [hphnum]; exact hr.1) hcopy
      have hlo := (classify_copy hcopy).2.2.1
      rw [ha i] at hfits hlo
      exact (fits_congr hagree (ht hl i hr)).mp (hfits.1 (keepsSizes_of_outside (ht hl i hr) hlo))
  · intro hfit hl i tr h hi hc
    have hd := hb.range hl.size_ge
    obtain ⟨hs,hagree⟩ := loopAt_stable (fun _ _ => rfl) hd (fun i hr => ⟨ht hl i hr,hfit hl i hr⟩) h
    obtain ⟨hphnum,_,ha⟩ := ehdr_congr hagree hd
    have hr : Reached m data size i := ⟨by rw [←hphnum]; exact hi,fun j hj => (hs j hj).2.1⟩
    obtain ⟨hcc,_⟩ := hs.classify_next hd hagree (ht hl i hr)
    have hfits := (fits_congr hagree (ht hl i hr)).mpr (hfit hl i hr (hcc.symm.trans hc))
    have hlo := (classify_copy hc).2.2.1
    rw [ha i] at hlo ⊢
    exact ⟨fun _ => hfits,fun hn => absurd (keepsSizes_of_outside (ht hl i hr) hlo) hn⟩

/-- A program header of 32 bytes lies inside the file. -/
def HeaderInside (m : Mem) (data size : Word) (i : ℕ) : Prop :=
  (phOffset m data i).toNat+32 ≤ size.toNat

/-- The source range of a segment lies inside the file. -/
def SourceInside (m : Mem) (ph size : Word) : Prop :=
  (pOffset m ph).toNat+(pFilesz m ph).toNat ≤ size.toNat

/-- The source of a segment lies inside the file: p_offset and p_filesz do. For a
segment that covers p_filesz of its own header those are the bytes that are
copied. -/
def SourceFits (m : Mem) (data ph size : Word) : Prop :=
  (KeepsFilesz m ph→SourceInside m ph size) ∧
    (¬KeepsFilesz m ph→∃ n c,Ends m data ph n c ∧ (pOffset m ph).toNat+n ≤ size.toNat)

/-- The headers that are looked at for one header: it and, for the overlap check,
the ones in front up to the first that overlaps. -/
def Inspects (m : Mem) (data size : Word) (i j : ℕ) : Prop :=
  j=i ∨ (j < i ∧ checksOverlap m size (phAddr m data i)=true ∧
    ∀ k<j,overlapsWith m (phAddr m data i) (phAddr m data k)=false)

/-- Every header that is looked at lies inside the file, and so does the source
of every segment that is copied, by its header as the loop finds it. -/
def ReadsFit (m : Mem) (data size : Word) : Prop :=
  Loads m data size→∀ i tr,LoopAt m data size i tr→ i<(ePhnum tr.mem data).toNat→
    (∀ j,Inspects tr.mem data size i j→HeaderInside tr.mem data size j) ∧
      (classify tr.mem data size i=.copy→SourceFits tr.mem data (phAddr tr.mem data i) size)

/-- The bytes that are copied, in both cases. -/
theorem sourceFits_iff {m : Mem} {data ph size : Word} {n c : ℕ} (h : Ends m data ph n c) :
    SourceFits m data ph size ↔ (pOffset m ph).toNat+n ≤ size.toNat := by
  unfold SourceFits SourceInside
  by_cases hk : KeepsFilesz m ph
  · rw [h.copied_eq hk]
    exact ⟨fun hs => hs.1 hk,fun hs => ⟨fun _ => hs,fun hn => absurd hk hn⟩⟩
  · constructor
    · intro hs
      obtain ⟨n',c',h',hle⟩ := hs.2 hk
      rw [(h.unique h').1]
      exact hle
    · exact fun hs => ⟨fun hy => absurd hy hk,fun _ => ⟨n,c,h,hs⟩⟩

/-- A recorded range lies inside the file. -/
def InFile (data size : Word) (r : Word×ℕ) : Prop :=
  ∀ k < r.2,(r.1+BitVec.ofNat 32 k-data).toNat<size.toNat

/-- The call returns and every byte it reads belongs to the file. -/
def ReadsInside (m : Mem) (data size : Word) : Prop :=
  ∃ r,elfLoad m data size=some r ∧ ∀ x∈r.1.reads,InFile data size x

/-- A header is read inside the file exactly when it lies there. -/
theorem inFile_header_iff {m : Mem} {data size : Word} {i : ℕ} :
    InFile data size (phAddr m data i,32) ↔ HeaderInside m data size i := by
  unfold InFile HeaderInside phAddr
  have hs := size.isLt
  have ho := (phOffset m data i).isLt
  constructor
  · intro h
    dsimp only at h
    by_cases hw : (phOffset m data i).toNat+31<2^32
    · have hlast := h 31 (by omega)
      bv_omega
    · have hlast := h (2^32-1-(phOffset m data i).toNat) (by omega)
      bv_omega
  · intro h k hk
    dsimp only at hk ⊢
    bv_omega

/-- Headers inside a buffer outside user space lie outside user space. -/
theorem HeaderInside.outside {m : Mem} {data size : Word} {i : ℕ} (hb : BufferOutside data size)
    (h : HeaderInside m data size i) : RangeOutside (phAddr m data i) 32 := by
  intro k hk hu
  unfold InUser phAddr at hu
  unfold BufferOutside at hb
  unfold HeaderInside at h
  bv_omega

/-- The ELF header lies inside a file that is long enough. -/
theorem inFile_ehdr {data size : Word} (hs : 52 ≤ size.toNat) : InFile data size (data,52) := by
  intro k hk
  dsimp only at hk ⊢
  bv_omega

/-- Bytes of a source range are read inside the file exactly when the range lies
there. -/
theorem inFile_source_iff {data size offset : Word} {n : ℕ} (hn : n < 2^32)
    (h0 : n=0→ offset.toNat ≤ size.toNat) :
    (∀ k<n,InFile data size (data+offset+BitVec.ofNat 32 k,1)) ↔ offset.toNat+n ≤ size.toNat := by
  unfold InFile
  have hs := size.isLt
  have ho := offset.isLt
  constructor
  · intro h
    by_cases hz : n=0
    · have := h0 hz
      omega
    · by_cases hw : offset.toNat+n-1<2^32
      · have hlast := h (n-1) (by omega) 0 Nat.zero_lt_one
        dsimp only at hlast
        bv_omega
      · have hlast := h (2^32-1-offset.toNat) (by omega) 0 Nat.zero_lt_one
        dsimp only at hlast
        bv_omega
  · intro h k hk j hj
    dsimp only at hj ⊢
    have hj0 : j=0 := by omega
    subst hj0
    bv_omega

/-- The overlap check reads earlier headers up to the first that overlaps. -/
theorem mem_overlapScan_iff {m : Mem} {data ph : Word} {r : Word×ℕ} (n s : ℕ) :
    r∈(overlapScan m data ph (List.range' s n)).1 ↔ ∃ j,(s ≤ j ∧ j<s+n) ∧
      (∀ k,s ≤ k→ k<j→ overlapsWith m ph (phAddr m data k)=false) ∧ r=(phAddr m data j,32) := by
  induction n generalizing s with
  | zero =>
    refine iff_of_false (fun h => by cases h) ?_
    rintro ⟨j,hj,_⟩
    omega
  | succ n ih =>
    rw [List.range'_succ,overlapScan]
    dsimp only
    cases hov : overlapsWith m ph (phAddr m data s) with
    | true =>
      rw [if_pos rfl,List.mem_singleton]
      constructor
      · exact fun hr => ⟨s,⟨Nat.le_refl s,by omega⟩,fun k hk hks => by omega,hr⟩
      · rintro ⟨j,hj,hall,hr⟩
        have hjs : j=s := by
          by_contra hne
          have hfalse := hall s (Nat.le_refl s) (by omega)
          rw [hov] at hfalse
          cases hfalse
        rw [hr,hjs]
    | false =>
      rw [if_neg Bool.false_ne_true]
      change r∈(phAddr m data s,phdrSize)::(overlapScan m data ph (List.range' (s+1) n)).1 ↔ _
      rw [List.mem_cons,ih]
      constructor
      · rintro (hr|⟨j,hj,hall,hr⟩)
        · exact ⟨s,⟨Nat.le_refl s,by omega⟩,fun k hk hks => by omega,hr⟩
        · refine ⟨j,⟨by omega,by omega⟩,fun k hk hkj => ?_,hr⟩
          by_cases hks : k=s
          · rw [hks]
            exact hov
          · exact hall k (by omega) hkj
      · rintro ⟨j,hj,hall,hr⟩
        by_cases hjs : j=s
        · rw [hjs] at hr
          exact Or.inl hr
        · exact Or.inr ⟨j,⟨by omega,by omega⟩,fun k hk hkj => hall k (by omega) hkj,hr⟩

/-- The ranges that are read for one header are those of the headers looked at. -/
theorem mem_inspected_iff {m : Mem} {data size : Word} {i : ℕ} {r : Word×ℕ} :
    r∈inspected m data size i ↔ ∃ j,Inspects m data size i j ∧ r=(phAddr m data j,32) := by
  unfold inspected Inspects
  dsimp only
  cases hcheck : checksOverlap m size (phAddr m data i) with
  | true =>
    rw [if_pos rfl,List.mem_append,List.mem_singleton,List.range_eq_range',mem_overlapScan_iff]
    constructor
    · rintro (⟨j,hj,hall,hr⟩|hr)
      · exact ⟨j,Or.inr ⟨by omega,rfl,fun k hk => hall k (Nat.zero_le k) hk⟩,hr⟩
      · exact ⟨i,Or.inl rfl,hr⟩
    · rintro ⟨j,rfl|⟨hj,_,hall⟩,hr⟩
      · exact Or.inr hr
      · exact Or.inl ⟨j,⟨Nat.zero_le j,by omega⟩,fun k _ hk => hall k hk,hr⟩
  | false =>
    rw [if_neg Bool.false_ne_true,List.mem_singleton]
    constructor
    · exact fun hr => ⟨i,Or.inl rfl,hr⟩
    · rintro ⟨j,rfl|⟨_,hno,_⟩,hr⟩
      · exact hr
      · cases hno

/-- The bytes of a source that is copied lie inside the file exactly when the
source fits. -/
theorem inFile_copied_iff {m : Mem} {data size : Word} {i n c : ℕ} (hc : classify m data size i=.copy)
    (h : Ends m data (phAddr m data i) n c) :
    (∀ k<n,InFile data size (data+pOffset m (phAddr m data i)+BitVec.ofNat 32 k,1)) ↔
      SourceFits m data (phAddr m data i) size := by
  rw [sourceFits_iff h]
  refine inFile_source_iff h.copied_lt fun hz => ?_
  have hsum := (classify_copy hc).2.1
  have hnone := h.copied
  rw [hz] at hnone
  have hfilesz : pFilesz m (phAddr m data i)=0 := by
    have hsame : pFilesz (copiedMem m data (phAddr m data i) 0) (phAddr m data i)=
        pFilesz m (phAddr m data i) := rfl
    rw [hsame] at hnone
    bv_omega
  rw [hfilesz] at hsum
  bv_omega

/-- elf_load reads only the file exactly when every header that is looked at and
every source that is copied lie inside it, for every file and every memory. -/
theorem elf_load_reads_inside_iff (m : Mem) (data size : Word) :
    ReadsInside m data size ↔ ReadsFit m data size := by
  by_cases hl : Loads m data size
  · constructor
    · rintro ⟨r,hrun,hin⟩ _ i tr h hi
      constructor
      · intro j hj
        obtain ⟨r',hrun',hreads⟩ := loopAt_inspects hl h hi
        rw [hrun] at hrun'
        cases hrun'
        exact inFile_header_iff.mp (hin _ (hreads _ (mem_inspected_iff.mpr ⟨j,hj,rfl⟩)))
      · intro hc
        obtain ⟨n,c,hends⟩ := exists_ends tr.mem data (phAddr tr.mem data i)
        obtain ⟨r',hrun',hext⟩ := loopAt_extends hl (loopAt_copied h hi hc hends)
        rw [hrun] at hrun'
        cases hrun'
        refine (inFile_copied_iff hc hends).mp fun k hk => hin _ (hext.2 _ ?_)
        exact (mem_reads_endsTrace _).mpr (Or.inr ⟨k,hk,rfl⟩)
    · intro hfit
      have hlook : ∀ {i tr},LoopAt m data size i tr→ i<(ePhnum tr.mem data).toNat→
          ∀ x∈inspected tr.mem data size i,InFile data size x := by
        intro i tr h hi x hx
        obtain ⟨j,hj,rfl⟩ := mem_inspected_iff.mp hx
        exact inFile_header_iff.mpr ((hfit hl i tr h hi).1 j hj)
      have hin : ∀ {n tr},LoopAt m data size n tr→∀ x∈tr.reads,InFile data size x := by
        intro n tr h
        refine loopAt_invariant (fun tr => ∀ x∈tr.reads,InFile data size x) ?_ ?_ ?_ h
        · intro x hx
          rw [List.mem_singleton.mp hx]
          exact inFile_ehdr hl.size_ge
        · intro i tr h hi ht x hx
          exact (List.mem_append.mp hx).elim (hlook h hi x) (ht x)
        · intro i tr n c h hi hc hends ht x hx
          rcases (mem_reads_endsTrace x).mp hx with hx|⟨k,hk,rfl⟩
          · exact ht x hx
          · exact (inFile_copied_iff hc hends).mpr ((hfit hl i tr h hi).2 hc) k hk
      obtain ⟨n,tr,h,⟨_,hrun⟩|⟨hn,_,hrun⟩⟩ := elfLoad_last hl
      · exact ⟨_,hrun,hin h⟩
      · exact ⟨_,hrun,fun x hx => (List.mem_append.mp hx).elim (hlook h hn x) (hin h x)⟩
  · obtain ⟨rs,hrun,hrs⟩ := elfLoad_not_loads hl
    refine iff_of_true ⟨_,hrun,fun x hx => ?_⟩ fun h => absurd h hl
    obtain ⟨rfl,hs⟩ := hrs x hx
    exact inFile_ehdr hs

/-- A file that ends with the ELF header but names a program header behind
it. -/
def truncatedFile : Mem := fileMem (ehdrBytes 52)

/-- The loader reads behind the end of the file when the program header table
lies there. -/
theorem elf_load_reads_behind_file :
    BufferOutside 0x200000 52 ∧ ¬ReadsInside truncatedFile 0x200000 52 ∧
      ∃ r,elfLoad truncatedFile 0x200000 52=some r ∧ (0x200034,32)∈r.1.reads := by
  have hb : BufferOutside 0x200000 52 := by unfold BufferOutside; decide
  have hl : Loads truncatedFile 0x200000 52 := by decide
  have haddr : phAddr truncatedFile 0x200000 0=0x200034 := by decide
  obtain ⟨r,hr,hreads⟩ := loopAt_inspects hl .start (show 0<(ePhnum truncatedFile 0x200000).toNat by decide)
  have hmem := hreads _ (mem_inspected_iff.mpr ⟨0,Or.inl rfl,rfl⟩)
  rw [show (startTrace truncatedFile 0x200000).mem=truncatedFile from rfl,haddr] at hmem
  refine ⟨hb,?_,r,hr,hmem⟩
  rintro ⟨r',hr',hin⟩
  rw [hr] at hr'
  cases hr'
  have hbad := hin _ hmem 0 (by decide)
  exact absurd hbad (by decide)

/-- When every header that is reached is stable the loop ends behind a stable
prefix, at the end of the table or at a header that is rejected. -/
theorem elfLoad_ends {m : Mem} {data size : Word} (hl : Loads m data size)
    (hd : RangeOutside data 52)
    (hall : ∀ i,Reached m data size i→RangeOutside (phAddr m data i) 32 ∧
      (classify m data size i=.copy→Fits m (phAddr m data i))) :
    ∃ n,Stable m data size n ∧
      ((n=(ePhnum m data).toNat ∧
        elfLoad m data size=some (headersTrace data size (startTrace m data) n,eEntry m data)) ∨
      (Reached m data size n ∧ classify m data size n=.reject ∧
        elfLoad m data size=
          some ((headersTrace data size (startTrace m data) n).note (inspected m data size n),0))) := by
  have hex : ∃ n,n=(ePhnum m data).toNat ∨ classify m data size n=.reject := ⟨_,Or.inl rfl⟩
  classical
  obtain ⟨n,hn,hmin⟩ := Nat.findX hex
  have hle : n≤(ePhnum m data).toNat := by
    by_contra hgt
    exact hmin _ (Nat.not_le.mp hgt) (Or.inl rfl)
  have hrej : ∀ j<n,classify m data size j≠.reject := fun j hj hr => hmin j hj (Or.inr hr)
  have hstable : Stable m data size n := by
    intro i hi
    have hr : Reached m data size i := ⟨by omega,fun j hj => hrej j (by omega)⟩
    exact ⟨hr.1,hrej i hi,hall i hr⟩
  have hnum := hl.phnum_le
  obtain ⟨hagree,hrun⟩ := @loadHeaders_stable data size (startTrace m data) hd n hstable
  obtain ⟨hphnum,hentry,haddr⟩ := ehdr_congr hagree hd
  obtain ⟨rest,hrest⟩ : ∃ rest,2^16=(rest+1)+n := ⟨2^16-1-n,by omega⟩
  refine ⟨n,hstable,?_⟩
  rw [elfLoad_loads hl,hrest,hrun]
  by_cases he : n=(ePhnum m data).toNat
  · refine Or.inl ⟨he,?_⟩
    rw [loadHeaders_end (by rw [hphnum]; exact Nat.not_lt.mpr (Nat.le_of_eq he.symm)),hentry]
    rfl
  · have hreject : classify m data size n=.reject := hn.resolve_left he
    have hreach : Reached m data size n := ⟨by omega,hrej⟩
    obtain ⟨hc,hi⟩ := hstable.classify_next hd hagree (hall n hreach).1
    have hlt : n<(ePhnum (headersTrace data size (startTrace m data) n).mem data).toNat := by
      rw [hphnum]
      exact hreach.1
    refine Or.inr ⟨hreach,hreject,?_⟩
    rw [loadHeaders_turn hlt,hc,hi]
    simp only [startTrace,hreject]

end EronKernel.ElfContainment

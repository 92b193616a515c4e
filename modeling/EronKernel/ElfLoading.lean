import EronKernel.ElfContainment

/-!
# Loading well-formed files

For a file whose header table lies inside it and whose loadable segments obey
the documented bounds, the loader returns the entry point with every segment
laid out in memory when the segments are disjoint, and zero when two of them
meet.
-/

namespace EronKernel.ElfLoading

open ByteMemory FuelLoop ElfModel ElfRuns ElfSegments ElfHeaders ElfLoop ElfContainment

/-- The header describes a loadable segment. -/
def IsLoad (m : Mem) (data : Word) (i : ℕ) : Prop := pType m (phAddr m data i)=ptLoad

/-- The address lies in the memory range of a segment. -/
def InSegment (m : Mem) (data : Word) (i : ℕ) (x : Word) : Prop :=
  (pVaddr m (phAddr m data i)).toNat≤x.toNat ∧
    x.toNat<(pVaddr m (phAddr m data i)).toNat+(pMemsz m (phAddr m data i)).toNat

/-- The bounds on a loadable segment, in unbounded arithmetic. -/
structure SegmentOk (m : Mem) (data size : Word) (i : ℕ) : Prop where
  /-- The segment is not empty in memory. -/
  memsz : 0<(pMemsz m (phAddr m data i)).toNat
  /-- No more is copied than the segment holds. -/
  filesz : (pFilesz m (phAddr m data i)).toNat≤(pMemsz m (phAddr m data i)).toNat
  /-- The segment starts in user space. -/
  lower : 0x08000000≤(pVaddr m (phAddr m data i)).toNat
  /-- The segment ends in user space. -/
  upper : (pVaddr m (phAddr m data i)).toNat+(pMemsz m (phAddr m data i)).toNat≤0xC0000000
  /-- The source lies inside the file. -/
  source : SourceInside m (phAddr m data i) size

/-- A well-formed file. -/
structure WellFormed (m : Mem) (data size : Word) : Prop where
  /-- The ELF header passes elf_validate. -/
  valid : elfValidate m data size=0
  /-- There is a header table. -/
  phoff : ePhoff m data≠0
  /-- It has a header. -/
  phnumPos : 1≤(ePhnum m data).toNat
  /-- It has at most sixteen. -/
  phnumLe : (ePhnum m data).toNat≤16
  /-- Its stride covers a header. -/
  phentsize : 32≤(ePhentsize m data).toNat
  /-- It lies inside the file. -/
  table : (ePhoff m data).toNat+(ePhnum m data).toNat*(ePhentsize m data).toNat ≤ size.toNat
  /-- Loadable segments obey the bounds. -/
  segments : ∀ i<(ePhnum m data).toNat,IsLoad m data i→SegmentOk m data size i

/-- No address lies in two loadable segments. -/
def SegmentsDisjoint (m : Mem) (data : Word) : Prop :=
  ∀ i j,i<j→j<(ePhnum m data).toNat→IsLoad m data i→IsLoad m data j→
    ∀ x,¬(InSegment m data i x ∧ InSegment m data j x)

/-- The memory holds every loadable segment, its file bytes first and zeros
behind them, and is unchanged elsewhere. -/
structure LaidOut (m : Mem) (data : Word) (n : ℕ) (out : Mem) : Prop where
  /-- Bytes of the file. -/
  copied : ∀ i<n,IsLoad m data i→∀ k<(pFilesz m (phAddr m data i)).toNat,
    out (pVaddr m (phAddr m data i)+BitVec.ofNat 32 k)=
      m (data+pOffset m (phAddr m data i)+BitVec.ofNat 32 k)
  /-- Cleared bytes. -/
  cleared : ∀ i<n,IsLoad m data i→∀ k,(pFilesz m (phAddr m data i)).toNat≤k→
    k<(pMemsz m (phAddr m data i)).toNat→ out (pVaddr m (phAddr m data i)+BitVec.ofNat 32 k)=0
  /-- Everything else. -/
  unchanged : ∀ x,(∀ i<n,IsLoad m data i→¬InSegment m data i x)→ out x=m x

/-- A well-formed file gets to the loop. -/
theorem WellFormed.loads {m : Mem} {data size : Word} (h : WellFormed m data size) :
    Loads m data size := by
  have hp := h.phnumPos
  have hle := h.phnumLe
  refine ⟨h.valid,?_,by bv_omega⟩
  rintro (h0|h0)
  · exact h.phoff h0
  · rw [h0] at hp
    exact absurd hp (by decide)

/-- Headers of a well-formed file lie inside it. -/
theorem WellFormed.headerInside {m : Mem} {data size : Word} (h : WellFormed m data size) {i : ℕ}
    (hi : i<(ePhnum m data).toNat) : HeaderInside m data size i := by
  have hmul : (i+1)*(ePhentsize m data).toNat≤(ePhnum m data).toNat*(ePhentsize m data).toNat :=
    Nat.mul_le_mul_right _ hi
  have hsum : (i+1)*(ePhentsize m data).toNat=i*(ePhentsize m data).toNat+(ePhentsize m data).toNat :=
    Nat.succ_mul _ _
  have ht := h.table
  have he := h.phentsize
  have hs := size.isLt
  unfold HeaderInside phOffset
  rw [BitVec.toNat_add,BitVec.toNat_ofNat]
  omega

/-- A segment within the bounds fits into user space. -/
theorem SegmentOk.fits {m : Mem} {data size : Word} {i : ℕ} (h : SegmentOk m data size i) :
    Fits m (phAddr m data i) := by
  have hf := h.filesz
  have hu := h.upper
  unfold Fits
  omega

/-- The overlap check finds an earlier header that overlaps. -/
theorem overlapScan_iff {m : Mem} {data ph : Word} (js : List ℕ) :
    (overlapScan m data ph js).2=true ↔ ∃ j∈js,overlapsWith m ph (phAddr m data j)=true := by
  induction js with
  | nil => simp [overlapScan]
  | cons j js ih =>
    unfold overlapScan
    dsimp only
    split_ifs with ho
    · simp [ho]
    · simp [ho,ih]

/-- Within the bounds the overlap test compares memory ranges. -/
theorem overlapsWith_iff {m : Mem} {data size : Word} {i j : ℕ} (hi : SegmentOk m data size i)
    (hj : IsLoad m data j→SegmentOk m data size j) :
    overlapsWith m (phAddr m data i) (phAddr m data j)=true ↔
      IsLoad m data j ∧ ∃ x,InSegment m data j x ∧ InSegment m data i x := by
  unfold overlapsWith
  simp only [Bool.and_eq_true,beq_iff_eq,Bool.or_eq_true,decide_eq_true_eq]
  refine and_congr_right fun hl => ?_
  have hok := hj hl
  have a1 := hi.memsz
  have a2 := hi.upper
  have b1 := hok.memsz
  have b2 := hok.upper
  unfold InSegment
  constructor
  · rintro (⟨h1,h2⟩|⟨h1,h2⟩)
    · exact ⟨pVaddr m (phAddr m data i),by bv_omega,by bv_omega⟩
    · exact ⟨pVaddr m (phAddr m data j),by bv_omega,by bv_omega⟩
  · rintro ⟨x,h1,h2⟩
    bv_omega

/-- A loadable header within the bounds is rejected exactly when its range
meets an earlier one. -/
theorem classify_load {m : Mem} {data size : Word} (h : WellFormed m data size) {i : ℕ}
    (hi : i<(ePhnum m data).toNat) (hl : IsLoad m data i) :
    classify m data size i=
      if (overlapScan m data (phAddr m data i) (List.range i)).2 then .reject else .copy := by
  have hok := h.segments i hi hl
  have a1 := hok.memsz
  have a2 := hok.lower
  have a3 := hok.upper
  have a4 := hok.source
  unfold SourceInside at a4
  have h1 : ¬pType m (phAddr m data i)≠ptLoad := not_not.mpr hl
  have h2 : ¬size<pOffset m (phAddr m data i)+pFilesz m (phAddr m data i) := by bv_omega
  have h3 : ¬(pVaddr m (phAddr m data i)=0 ∨ pMemsz m (phAddr m data i)=0) := by bv_omega
  have h4 : validateLoadAddr (pVaddr m (phAddr m data i)) (pMemsz m (phAddr m data i))=true := by
    unfold validateLoadAddr
    rw [if_neg (by bv_omega),if_neg (by bv_omega),if_neg (by bv_omega),if_neg (by bv_omega)]
  unfold classify
  dsimp only
  rw [if_neg h1,if_neg h2,if_neg h3,h4,if_neg (by decide)]

/-- Other headers are passed over. -/
theorem classify_not_load {m : Mem} {data size : Word} {i : ℕ} (hl : ¬IsLoad m data i) :
    classify m data size i=.skip := by
  unfold classify
  exact if_pos hl

/-- Copied bytes hold their source when the source lies outside user space. -/
theorem copySteps_mem {dest src : Word} {tr : Trace} {n : ℕ} (hn : n≤2^32)
    (hu : ∀ k<n,InUser (dest+BitVec.ofNat 32 k)) (hs : ∀ k<n,¬InUser (src+BitVec.ofNat 32 k)) :
    ∀ k<n,(iterSteps (copyStep dest src) n tr).mem (dest+BitVec.ofNat 32 k)=
      tr.mem (src+BitVec.ofNat 32 k) := by
  induction n with
  | zero =>
    intro k hk
    omega
  | succ n ih =>
    intro k hk
    have hagree := iterSteps_agrees (copyStep_writesAt dest src) n tr fun j hj => hu j (by omega)
    have hih := ih (by omega) (fun j hj => hu j (by omega)) (fun j hj => hs j (by omega))
    by_cases he : k=n
    · subst he
      exact (store8_same _ _ _).trans (hagree _ (hs k hk))
    · refine (store8_of_ne _ ?_).trans (hih k (by omega))
      bv_omega

/-- Cleared bytes are zero. -/
theorem zeroSteps_mem {dest start : Word} {tr : Trace} {n : ℕ} (hn : n≤2^32) :
    ∀ k<n,(iterSteps (zeroStep dest start) n tr).mem (dest+(start+BitVec.ofNat 32 k))=0 := by
  induction n with
  | zero =>
    intro k hk
    omega
  | succ n ih =>
    intro k hk
    by_cases he : k=n
    · subst he
      exact store8_same _ _ _
    · refine (store8_of_ne _ ?_).trans (ih (by omega) k (by omega))
      bv_omega

/-- The memory after a segment within the bounds. -/
theorem segmentTrace_mem {data ph : Word} {tr : Trace} (hlo : 0x08000000≤(pVaddr tr.mem ph).toNat)
    (hf : (pFilesz tr.mem ph).toNat≤(pMemsz tr.mem ph).toNat)
    (hhi : (pVaddr tr.mem ph).toNat+(pMemsz tr.mem ph).toNat≤0xC0000000)
    (hs : ∀ k<(pFilesz tr.mem ph).toNat,¬InUser (data+pOffset tr.mem ph+BitVec.ofNat 32 k)) :
    (∀ k<(pFilesz tr.mem ph).toNat,(segmentTrace data ph tr).mem (pVaddr tr.mem ph+BitVec.ofNat 32 k)=
      tr.mem (data+pOffset tr.mem ph+BitVec.ofNat 32 k)) ∧
    (∀ k,(pFilesz tr.mem ph).toNat≤k→ k<(pMemsz tr.mem ph).toNat→
      (segmentTrace data ph tr).mem (pVaddr tr.mem ph+BitVec.ofNat 32 k)=0) ∧
    ∀ x,¬((pVaddr tr.mem ph).toNat≤x.toNat ∧
      x.toNat<(pVaddr tr.mem ph).toNat+(pMemsz tr.mem ph).toNat)→
      (segmentTrace data ph tr).mem x=tr.mem x := by
  have hflt := (pFilesz tr.mem ph).isLt
  have hmlt := (pMemsz tr.mem ph).isLt
  unfold segmentTrace copiedTrace
  refine ⟨?_,?_,?_⟩
  · intro k hk
    rw [iterSteps_of_ne (zeroStep_writesAt _ _)]
    · refine copySteps_mem (by omega) ?_ hs k hk
      intro j hj
      unfold InUser
      bv_omega
    · intro j hj
      bv_omega
  · intro k hk hkm
    have haddr : BitVec.ofNat 32 k=pFilesz tr.mem ph+BitVec.ofNat 32 (k-(pFilesz tr.mem ph).toNat) := by
      bv_omega
    rw [haddr]
    exact zeroSteps_mem (by omega) _ (by omega)
  · intro x hx
    rw [iterSteps_of_ne (zeroStep_writesAt _ _),iterSteps_of_ne (copyStep_writesAt _ _)]
    · intro j hj
      bv_omega
    · intro j hj
      bv_omega

/-- In a well-formed file with disjoint segments every header is stable. -/
theorem stable_of_disjoint {m : Mem} {data size : Word} (hb : BufferOutside data size)
    (h : WellFormed m data size) (hdis : SegmentsDisjoint m data) :
    Stable m data size (ePhnum m data).toNat := by
  intro i hi
  refine ⟨hi,?_,(h.headerInside hi).outside hb,?_⟩
  · by_cases hl : IsLoad m data i
    · rw [classify_load h hi hl]
      split_ifs with ho
      · obtain ⟨j,hj,hov⟩ := (overlapScan_iff _).mp ho
        have hji := List.mem_range.mp hj
        obtain ⟨hlj,x,hx⟩ := (overlapsWith_iff (h.segments i hi hl) (h.segments j (by omega))).mp hov
        exact absurd hx (hdis j i hji hi hlj hl x)
      · decide
    · rw [classify_not_load hl]
      decide
  · intro hc
    exact (h.segments i hi (classify_copy hc).1).fits

/-- The source of a segment lies outside user space. -/
theorem source_outside {m : Mem} {data size ph : Word} (hb : BufferOutside data size)
    (hs : SourceInside m ph size) :
    ∀ k<(pFilesz m ph).toNat,¬InUser (data+pOffset m ph+BitVec.ofNat 32 k) := by
  intro k hk hu
  unfold InUser at hu
  unfold BufferOutside at hb
  unfold SourceInside at hs
  bv_omega

/-- A header that is not loadable adds nothing to the layout. -/
theorem LaidOut.skip {m out : Mem} {data : Word} {n : ℕ} (h : LaidOut m data n out)
    (hnl : ¬IsLoad m data n) : LaidOut m data (n+1) out where
  copied := by
    intro i hi hl
    have hin : i≠n := fun hin => hnl (hin▸hl)
    exact h.copied i (by omega) hl
  cleared := by
    intro i hi hl
    have hin : i≠n := fun hin => hnl (hin▸hl)
    exact h.cleared i (by omega) hl
  unchanged := by
    intro x hx
    exact h.unchanged x fun i hi => hx i (by omega)

/-- A loadable header adds its segment when it leaves everything else alone;
the segments in front of it are disjoint from it. -/
theorem LaidOut.load {m before after : Mem} {data size : Word} {n : ℕ} (hw : WellFormed m data size)
    (hdis : SegmentsDisjoint m data) (hn : n<(ePhnum m data).toNat) (hl : IsLoad m data n)
    (h : LaidOut m data n before)
    (hcopied : ∀ k<(pFilesz m (phAddr m data n)).toNat,
      after (pVaddr m (phAddr m data n)+BitVec.ofNat 32 k)=
        m (data+pOffset m (phAddr m data n)+BitVec.ofNat 32 k))
    (hcleared : ∀ k,(pFilesz m (phAddr m data n)).toNat≤k→ k<(pMemsz m (phAddr m data n)).toNat→
      after (pVaddr m (phAddr m data n)+BitVec.ofNat 32 k)=0)
    (hother : ∀ x,¬InSegment m data n x→after x=before x) : LaidOut m data (n+1) after := by
  have hkeep : ∀ i<n,IsLoad m data i→∀ k<(pMemsz m (phAddr m data i)).toNat,
      after (pVaddr m (phAddr m data i)+BitVec.ofNat 32 k)=
        before (pVaddr m (phAddr m data i)+BitVec.ofNat 32 k) := by
    intro i hi hli k hk
    apply hother
    intro hin
    have hupper := (hw.segments i (by omega) hli).upper
    have hlt := (pMemsz m (phAddr m data i)).isLt
    refine hdis i n hi hn hli hl (pVaddr m (phAddr m data i)+BitVec.ofNat 32 k) ⟨?_,hin⟩
    unfold InSegment
    bv_omega
  refine ⟨?_,?_,?_⟩
  · intro i hi hli k hk
    by_cases hin : i=n
    · subst hin
      exact hcopied k hk
    · have hlt := (hw.segments i (by omega) hli).filesz
      exact (hkeep i (by omega) hli k (by omega)).trans (h.copied i (by omega) hli k hk)
  · intro i hi hli k hk hkm
    by_cases hin : i=n
    · subst hin
      exact hcleared k hk hkm
    · exact (hkeep i (by omega) hli k hkm).trans (h.cleared i (by omega) hli k hk hkm)
  · intro x hx
    refine (hother x (hx n (Nat.lt_succ_self n) hl)).trans ?_
    exact h.unchanged x fun i hi => hx i (by omega)

/-- After each header the segments met so far are laid out. -/
theorem headersTrace_laidOut {m : Mem} {data size : Word} (hb : BufferOutside data size)
    (h : WellFormed m data size) (hdis : SegmentsDisjoint m data) (n : ℕ)
    (hn : n≤(ePhnum m data).toNat) :
    LaidOut m data n (headersTrace data size (startTrace m data) n).mem := by
  induction n with
  | zero =>
    exact ⟨fun i hi => by omega,fun i hi => by omega,fun _ _ => rfl⟩
  | succ n ih =>
    have hd := hb.range h.loads.size_ge
    have hall := stable_of_disjoint hb h hdis
    have hs : Stable m data size (n+1) := fun i hi => hall i (by omega)
    have hih := ih (by omega)
    obtain ⟨hagree,hcases⟩ := @headersTrace_succ data size (startTrace m data) hd n hs
    rcases hcases with ⟨hc,he⟩|⟨hc,_,_,he⟩
    · have hnl : ¬IsLoad m data n := by
        intro hl
        have hcl := classify_load h (by omega) hl
        rw [show classify m data size n=.skip from hc] at hcl
        split_ifs at hcl
      rw [he]
      exact hih.skip hnl
    · have hl : IsLoad m data n := (classify_copy hc).1
      have hok := h.segments n (by omega) hl
      have hout := (hs n (Nat.lt_succ_self n)).2.2.1
      obtain ⟨_,hpo,hpv,hpf,hpm⟩ := fields_congr hagree hout
      let t := (headersTrace data size (startTrace m data) n).note (inspected m data size n)
      have htv : pVaddr t.mem (phAddr m data n)=pVaddr m (phAddr m data n) := hpv
      have hto : pOffset t.mem (phAddr m data n)=pOffset m (phAddr m data n) := hpo
      have htf : pFilesz t.mem (phAddr m data n)=pFilesz m (phAddr m data n) := hpf
      have htm : pMemsz t.mem (phAddr m data n)=pMemsz m (phAddr m data n) := hpm
      have hsrc := source_outside hb hok.source
      obtain ⟨hcopied,hcleared,hother⟩ := @segmentTrace_mem data (phAddr m data n) t
        (by rw [htv]; exact hok.lower) (by rw [htf,htm]; exact hok.filesz)
        (by rw [htv,htm]; exact hok.upper) (by rw [htf,hto]; exact hsrc)
      rw [htf,htv,hto] at hcopied
      rw [htf,htm,htv] at hcleared
      rw [htv,htm] at hother
      rw [he]
      exact hih.load h hdis (by omega) hl
        (fun k hk => (hcopied k hk).trans (hagree _ (hsrc k hk))) hcleared hother

/-- A well-formed file with disjoint segments is loaded: elf_load returns the
entry point, every segment is laid out and nothing else changes. A
well-formed file in which two segments meet is refused with zero. -/
theorem elf_load_well_formed {m : Mem} {data size : Word} (hb : BufferOutside data size)
    (h : WellFormed m data size) :
    (SegmentsDisjoint m data→∃ tr,elfLoad m data size=some (tr,eEntry m data) ∧
      LaidOut m data (ePhnum m data).toNat tr.mem) ∧
    (¬SegmentsDisjoint m data→∃ tr,elfLoad m data size=some (tr,0)) := by
  have hd := hb.range h.loads.size_ge
  obtain ⟨n,hstable,hends⟩ := elfLoad_ends h.loads hd fun i hr =>
    ⟨(h.headerInside hr.1).outside hb,fun hc => (h.segments i hr.1 (classify_copy hc).1).fits⟩
  constructor
  · intro hdis
    rcases hends with ⟨rfl,hrun⟩|⟨hr,hrej,_⟩
    · exact ⟨_,hrun,headersTrace_laidOut hb h hdis _ (Nat.le_refl _)⟩
    · exact absurd hrej (stable_of_disjoint hb h hdis n hr.1).2.1
  · intro hmeet
    rcases hends with ⟨rfl,_⟩|⟨_,_,hrun⟩
    · exfalso
      apply hmeet
      intro i j hij hj hli hlj x hx
      have hov := (overlapsWith_iff (h.segments j hj hlj) (h.segments i (by omega))).mpr ⟨hli,x,hx⟩
      have hscan := (overlapScan_iff (List.range j)).mpr ⟨i,List.mem_range.mpr hij,hov⟩
      refine (hstable j hj).2.1 ?_
      rw [classify_load h hj hlj,if_pos hscan]
    · exact ⟨_,hrun⟩

/-- A file with two segments, both longer in memory than in the file. -/
def twoSegmentFile : Mem :=
  fileMem ((ehdrBytes 52).set 44 2++phdrBytes 0x08048000 2 4++phdrBytes 0x08049000 3 8)

/-- Both segments are laid out with zeros behind them and the entry point is
returned. -/
theorem elf_load_twoSegmentFile : ∃ tr,elfLoad twoSegmentFile 0x200000 116=some (tr,0x08048000) ∧
    LaidOut twoSegmentFile 0x200000 2 tr.mem := by
  have hb : BufferOutside 0x200000 116 := by unfold BufferOutside; decide
  have hnum : (ePhnum twoSegmentFile 0x200000).toNat=2 := by decide
  have hentry : eEntry twoSegmentFile 0x200000=0x08048000 := by decide
  have hwf : WellFormed twoSegmentFile 0x200000 116 := by
    refine ⟨by decide,by decide,by decide,by decide,by decide,by decide,?_⟩
    intro i hi _
    obtain rfl|rfl : i=0 ∨ i=1 := by omega
    · exact ⟨by decide,by decide,by decide,by decide,by unfold SourceInside; decide⟩
    · exact ⟨by decide,by decide,by decide,by decide,by unfold SourceInside; decide⟩
  have hdis : SegmentsDisjoint twoSegmentFile 0x200000 := by
    intro i j hij hj _ _ x hx
    obtain ⟨rfl,rfl⟩ : i=0 ∧ j=1 := by omega
    have hfirst : pVaddr twoSegmentFile (phAddr twoSegmentFile 0x200000 0)=0x08048000 ∧
        pMemsz twoSegmentFile (phAddr twoSegmentFile 0x200000 0)=4 := by decide
    have hsecond : pVaddr twoSegmentFile (phAddr twoSegmentFile 0x200000 1)=0x08049000 := by decide
    unfold InSegment at hx
    rw [hfirst.1,hfirst.2,hsecond] at hx
    bv_omega
  obtain ⟨tr,hrun,hlaid⟩ := (elf_load_well_formed hb hwf).1 hdis
  rw [hentry] at hrun
  rw [hnum] at hlaid
  exact ⟨tr,hrun,hlaid⟩

end EronKernel.ElfLoading

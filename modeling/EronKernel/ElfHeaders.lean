import EronKernel.ElfSegments

/-!
# The loop over the program headers

A header is stable while it lies outside user space and every earlier segment
stays inside. The loop is followed through a stable prefix of the table; what
it does at the first header behind that prefix decides how the call ends.
-/

namespace EronKernel.ElfHeaders

open ByteMemory FuelLoop ElfModel ElfRuns ElfSegments

/-- The loop over the headers always returns and only adds accesses. -/
theorem loadHeaders_total (data size : Word) {fuel i : ℕ} (tr : Trace) (hf : 65535<fuel+i)
    (hpos : 0<fuel) : ∃ r,loadHeaders data size fuel i tr=some r ∧ Extends r.1 tr := by
  induction fuel generalizing i tr with
  | zero => omega
  | succ fuel ih =>
    by_cases hi : i<(ePhnum tr.mem data).toNat
    · have hlt := (ePhnum tr.mem data).isLt
      have hpos' : 0<fuel := by omega
      rw [loadHeaders_turn hi]
      cases hc : classify tr.mem data size i with
      | skip =>
        obtain ⟨r,hr,he⟩ := @ih (i+1) (tr.note (inspected tr.mem data size i)) (by omega) hpos'
        exact ⟨r,hr,he.trans (extends_note _ _)⟩
      | reject => exact ⟨_,rfl,extends_note _ _⟩
      | copy =>
        obtain ⟨t,ht,het⟩ := copySegment_total data (phAddr tr.mem data i)
          (tr.note (inspected tr.mem data size i))
        obtain ⟨r,hr,he⟩ := @ih (i+1) t (by omega) hpos'
        dsimp only
        rw [ht,Option.bind_some]
        exact ⟨r,hr,he.trans (het.trans (extends_note _ _))⟩
    · exact ⟨_,loadHeaders_end hi,Extends.refl tr⟩

/-- Fields of an ELF header outside user space are kept. -/
theorem ehdr_congr {m m0 : Mem} (h : AgreesOutside m m0) {data : Word} (hd : RangeOutside data 52) :
    ePhnum m data=ePhnum m0 data ∧ eEntry m data=eEntry m0 data ∧
      ∀ i,phAddr m data i=phAddr m0 data i := by
  have hb : ∀ k<52,m (data+BitVec.ofNat 32 k)=m0 (data+BitVec.ofNat 32 k) := fun k hk => h _ (hd k hk)
  have hoff : ePhoff m data=ePhoff m0 data := load32_of_agree hb 28 (by omega)
  have hent : ePhentsize m data=ePhentsize m0 data := load16_of_agree hb 42 (by omega)
  refine ⟨load16_of_agree hb 44 (by omega),load32_of_agree hb 24 (by omega),fun i => ?_⟩
  unfold phAddr phOffset
  rw [hoff,hent]

/-- The overlap check depends on headers outside user space only. -/
theorem overlapScan_congr {m m0 : Mem} (h : AgreesOutside m m0) {data ph : Word}
    (hd : RangeOutside data 52) (hph : RangeOutside ph 32) (js : List ℕ)
    (hjs : ∀ j∈js,RangeOutside (phAddr m0 data j) 32) :
    overlapScan m data ph js=overlapScan m0 data ph js := by
  induction js with
  | nil => rfl
  | cons j js ih =>
    obtain ⟨_,_,ha⟩ := ehdr_congr h hd
    obtain ⟨ht,_,hv,_,hm⟩ := fields_congr h hph
    obtain ⟨ht',_,hv',_,hm'⟩ := fields_congr h (hjs j List.mem_cons_self)
    have ho : overlapsWith m ph (phAddr m0 data j)=overlapsWith m0 ph (phAddr m0 data j) := by
      unfold overlapsWith
      rw [ht',hv,hv',hm,hm']
    simp only [overlapScan,ha,ho]
    rw [ih fun k hk => hjs k (List.mem_cons_of_mem _ hk)]

/-- A header is classified as in the initial memory. -/
theorem classify_congr {m m0 : Mem} (h : AgreesOutside m m0) {data size : Word}
    (hd : RangeOutside data 52) {i : ℕ} (hi : ∀ j ≤ i,RangeOutside (phAddr m0 data j) 32) :
    classify m data size i=classify m0 data size i ∧ inspected m data size i=inspected m0 data size i := by
  obtain ⟨_,_,ha⟩ := ehdr_congr h hd
  obtain ⟨ht,ho,hv,hf,hm⟩ := fields_congr h (hi i (Nat.le_refl i))
  have hs := overlapScan_congr h hd (hi i (Nat.le_refl i)) (List.range i) fun j hj =>
    hi j (Nat.le_of_lt (List.mem_range.mp hj))
  constructor
  · unfold classify
    simp only [ha,ht,ho,hv,hf,hm,hs]
  · unfold inspected checksOverlap
    simp only [ha,ht,ho,hv,hf,hm,hs]

/-- What passing all checks means for a header. -/
theorem classify_copy {m : Mem} {data size : Word} {i : ℕ} (h : classify m data size i=.copy) :
    pType m (phAddr m data i)=ptLoad ∧
      ¬size<pOffset m (phAddr m data i)+pFilesz m (phAddr m data i) ∧
      0x08000000≤(pVaddr m (phAddr m data i)).toNat ∧ (pVaddr m (phAddr m data i)).toNat<0xC0000000 ∧
      (overlapScan m data (phAddr m data i) (List.range i)).2=false := by
  unfold classify at h
  dsimp only at h
  split_ifs at h with h1 h2 h3 h4 h5
  have hv : validateLoadAddr (pVaddr m (phAddr m data i)) (pMemsz m (phAddr m data i))=true := by
    simpa using h4
  unfold validateLoadAddr at hv
  split_ifs at hv with v1 v2 v3 v4
  refine ⟨not_not.mp h1,h2,?_,?_,by simpa using h5⟩
  · bv_omega
  · bv_omega

/-- The headers in front of an index are stable: in the table, not rejected,
outside user space, and their segments inside. -/
def Stable (m : Mem) (data size : Word) (n : ℕ) : Prop :=
  ∀ i<n,i<(ePhnum m data).toNat ∧ classify m data size i≠.reject ∧
    RangeOutside (phAddr m data i) 32 ∧
    (classify m data size i=.copy→Fits m (phAddr m data i))

/-- The front of a stable prefix is stable. -/
theorem Stable.front {m : Mem} {data size : Word} {k n : ℕ} (hs : Stable m data size n) (hk : k≤n) :
    Stable m data size k := fun i hi => hs i (Nat.lt_of_lt_of_le hi hk)

/-- A header of a stable prefix is classified alike in every memory that differs
in user space only. -/
theorem Stable.classify_congr {m m0 : Mem} {data size : Word} {n : ℕ} (hs : Stable m0 data size n)
    (hd : RangeOutside data 52) (h : AgreesOutside m m0) {i : ℕ} (hi : i<n) :
    classify m data size i=classify m0 data size i ∧ inspected m data size i=inspected m0 data size i :=
  ElfHeaders.classify_congr h hd fun j hj => (hs j (Nat.lt_of_le_of_lt hj hi)).2.2.1

/-- So is the header behind the prefix when it lies outside user space. -/
theorem Stable.classify_next {m m0 : Mem} {data size : Word} {n : ℕ} (hs : Stable m0 data size n)
    (hd : RangeOutside data 52) (h : AgreesOutside m m0) (hout : RangeOutside (phAddr m0 data n) 32) :
    classify m data size n=classify m0 data size n ∧ inspected m data size n=inspected m0 data size n := by
  refine ElfHeaders.classify_congr h hd fun j hj => ?_
  obtain hlt|rfl := Nat.lt_or_eq_of_le hj
  · exact (hs j hlt).2.2.1
  · exact hout

/-- The trace after one header that is not rejected. -/
def headerTrace (data size : Word) (tr : Trace) (i : ℕ) : Trace :=
  match classify tr.mem data size i with
  | .copy => segmentTrace data (phAddr tr.mem data i) (tr.note (inspected tr.mem data size i))
  | _ => tr.note (inspected tr.mem data size i)

/-- The trace after a number of headers. -/
def headersTrace (data size : Word) (tr : Trace) : ℕ→Trace
  | 0 => tr
  | n+1 => headerTrace data size (headersTrace data size tr n) n

/-- One more header behind a stable prefix. -/
theorem headerTrace_step {data size : Word} {tr : Trace} {m0 : Mem} {i fuel : ℕ}
    (hd : RangeOutside data 52) (hagree : AgreesOutside tr.mem m0) (hs : Stable m0 data size (i+1)) :
    AgreesOutside (headerTrace data size tr i).mem m0 ∧
      loadHeaders data size (fuel+1) i tr=loadHeaders data size fuel (i+1) (headerTrace data size tr i) := by
  obtain ⟨hnum,hrej,hout,hfit⟩ := hs i (Nat.lt_succ_self i)
  obtain ⟨hn,_,ha⟩ := ehdr_congr hagree hd
  obtain ⟨hc,_⟩ := hs.classify_congr hd hagree (Nat.lt_succ_self i)
  have hi : i<(ePhnum tr.mem data).toNat := by rw [hn]; exact hnum
  rw [loadHeaders_turn hi]
  unfold headerTrace
  rw [←hc] at hrej hfit
  cases hcase : classify tr.mem data size i with
  | skip => exact ⟨hagree,rfl⟩
  | reject => exact absurd hcase hrej
  | copy =>
    have hcopy := classify_copy hcase
    have hfit' := hfit hcase
    rw [←ha i] at hout hfit'
    have hfits := (fits_congr hagree hout).mpr hfit'
    have hseg := @copySegment_fits data (phAddr tr.mem data i) (tr.note (inspected tr.mem data size i))
      hout hcopy.2.2.1 hfits
    dsimp only
    rw [hseg.1,Option.bind_some]
    exact ⟨AgreesOutside.trans hseg.2 hagree,rfl⟩

/-- The loop follows a stable prefix. -/
theorem loadHeaders_stable {data size : Word} {tr : Trace} (hd : RangeOutside data 52) (n : ℕ)
    (hs : Stable tr.mem data size n) :
    AgreesOutside (headersTrace data size tr n).mem tr.mem ∧
      ∀ fuel,loadHeaders data size (fuel+n) 0 tr=
        loadHeaders data size fuel n (headersTrace data size tr n) := by
  induction n with
  | zero => exact ⟨fun _ _ => rfl,fun _ => rfl⟩
  | succ n ih =>
    obtain ⟨hagree,hrun⟩ := ih (hs.front (Nat.le_succ n))
    refine ⟨(@headerTrace_step _ _ _ _ _ 0 hd hagree hs).1,fun fuel => ?_⟩
    rw [show fuel+(n+1)=(fuel+1)+n by omega,hrun,(headerTrace_step hd hagree hs).2]
    rfl

/-- The last header of a stable prefix is passed over, or its segment lies in
user space and is copied. -/
theorem headersTrace_succ {data size : Word} {tr : Trace} (hd : RangeOutside data 52) {n : ℕ}
    (hs : Stable tr.mem data size (n+1)) :
    AgreesOutside (headersTrace data size tr n).mem tr.mem ∧
    ((classify tr.mem data size n=.skip ∧
      headersTrace data size tr (n+1)=
        (headersTrace data size tr n).note (inspected tr.mem data size n)) ∨
    (classify tr.mem data size n=.copy ∧
      0x08000000≤(pVaddr (headersTrace data size tr n).mem (phAddr tr.mem data n)).toNat ∧
      Fits (headersTrace data size tr n).mem (phAddr tr.mem data n) ∧
      headersTrace data size tr (n+1)=segmentTrace data (phAddr tr.mem data n)
        ((headersTrace data size tr n).note (inspected tr.mem data size n)))) := by
  obtain ⟨hagree,_⟩ := loadHeaders_stable hd n (hs.front (Nat.le_succ n))
  obtain ⟨_,hrej,hout,hfit⟩ := hs n (Nat.lt_succ_self n)
  obtain ⟨_,_,ha⟩ := ehdr_congr hagree hd
  obtain ⟨hc,hi⟩ := hs.classify_congr hd hagree (Nat.lt_succ_self n)
  have hstep : headersTrace data size tr (n+1)=headerTrace data size (headersTrace data size tr n) n := rfl
  refine ⟨hagree,?_⟩
  rw [hstep]
  unfold headerTrace
  rw [hc,hi,ha n]
  cases hcase : classify tr.mem data size n with
  | skip => exact Or.inl ⟨rfl,rfl⟩
  | reject => exact absurd hcase hrej
  | copy =>
    have hv := (fields_congr hagree hout).2.2.1
    refine Or.inr ⟨rfl,?_,(fits_congr hagree hout).mpr (hfit hcase),rfl⟩
    rw [hv]
    exact (classify_copy hcase).2.2.1

end EronKernel.ElfHeaders

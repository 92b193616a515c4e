import EronKernel.ElfModel

/-!
# Runs of the ELF loader

While the loader writes only into user space, headers that lie elsewhere keep
their fields, so each of them is classified as in the initial memory and its
segment is copied in full. The trace after a number of headers is then an
explicit function of the initial memory.
-/

namespace EronKernel.ElfRuns

open ByteMemory FuelLoop ElfModel

/-- The address lies in user space. -/
def InUser (x : Word) : Prop := 0x08000000≤x.toNat ∧ x.toNat<0xC0000000

instance (x : Word) : Decidable (InUser x) := inferInstanceAs (Decidable (_ ∧ _))

/-- Both memories agree outside user space. -/
def AgreesOutside (m m0 : Mem) : Prop := ∀ x,¬InUser x→m x=m0 x

/-- Agreement is transitive. -/
theorem AgreesOutside.trans {m m1 m0 : Mem} (h : AgreesOutside m m1) (k : AgreesOutside m1 m0) :
    AgreesOutside m m0 :=
  fun x hx => (h x hx).trans (k x hx)

/-- A run of bytes lies outside user space. -/
def RangeOutside (a : Word) (n : ℕ) : Prop := ∀ k<n,¬InUser (a+BitVec.ofNat 32 k)

/-- What the loader does with one header. -/
inductive Outcome where
  /-- Go on with the next header. -/
  | skip
  /-- Return zero. -/
  | reject
  /-- Copy the segment and go on. -/
  | copy
  deriving DecidableEq

/-- The checks on one header, in the order of the source. -/
def classify (m : Mem) (data size : Word) (i : ℕ) : Outcome :=
  let ph := phAddr m data i
  if pType m ph≠ptLoad then .skip
  else if size<pOffset m ph+pFilesz m ph then .reject
  else if pVaddr m ph=0 ∨ pMemsz m ph=0 then .skip
  else if !validateLoadAddr (pVaddr m ph) (pMemsz m ph) then .reject
  else if (overlapScan m data ph (List.range i)).2 then .reject
  else .copy

/-- The overlap check is made for this header. -/
def checksOverlap (m : Mem) (size ph : Word) : Bool :=
  decide (pType m ph=ptLoad) && !decide (size<pOffset m ph+pFilesz m ph) &&
    !decide (pVaddr m ph=0 ∨ pMemsz m ph=0) && validateLoadAddr (pVaddr m ph) (pMemsz m ph)

/-- The headers that are read for one header. -/
def inspected (m : Mem) (data size : Word) (i : ℕ) : List (Word×ℕ) :=
  let ph := phAddr m data i
  if checksOverlap m size ph then (overlapScan m data ph (List.range i)).1++[(ph,phdrSize)]
  else [(ph,phdrSize)]

/-- One turn of the loop over the headers. -/
theorem loadHeaders_turn {data size : Word} {fuel i : ℕ} {tr : Trace}
    (hi : i<(ePhnum tr.mem data).toNat) :
    loadHeaders data size (fuel+1) i tr=
      match classify tr.mem data size i with
      | .skip => loadHeaders data size fuel (i+1) (tr.note (inspected tr.mem data size i))
      | .reject => some (tr.note (inspected tr.mem data size i),0)
      | .copy => (copySegment data (phAddr tr.mem data i) (tr.note (inspected tr.mem data size i))).bind
          (loadHeaders data size fuel (i+1)) := by
  have hmem : ∀ rs,(tr.note rs).mem=tr.mem := fun _ => rfl
  have hnote : ∀ a b,(tr.note [a]).note b=tr.note (b++[a]) := by
    intro a b
    simp [Trace.note]
  rw [loadHeaders,if_pos hi]
  unfold classify inspected checksOverlap
  simp only [hmem,hnote]
  generalize phAddr tr.mem data i=ph
  by_cases h1 : pType tr.mem ph=ptLoad
  · by_cases h2 : size<pOffset tr.mem ph+pFilesz tr.mem ph
    · simp only [h1,h2,ne_eq,not_true_eq_false,if_true,if_false,decide_true,Bool.not_true,Bool.and_false,
        Bool.false_and,Bool.false_eq_true]
    · by_cases h3 : pVaddr tr.mem ph=0 ∨ pMemsz tr.mem ph=0
      · simp only [h1,h2,h3,ne_eq,not_true_eq_false,if_true,if_false,decide_true,decide_false,
          Bool.not_true,Bool.not_false,Bool.and_true,Bool.and_false,Bool.false_and,Bool.false_eq_true]
      · cases h4 : validateLoadAddr (pVaddr tr.mem ph) (pMemsz tr.mem ph) with
        | false =>
          simp only [h1,h2,h3,ne_eq,not_true_eq_false,if_true,if_false,Bool.not_false,
            Bool.and_false,Bool.false_eq_true]
        | true =>
          cases h5 : (overlapScan tr.mem data ph (List.range i)).2 with
          | false =>
            simp only [h1,h2,h3,ne_eq,not_true_eq_false,if_true,if_false,decide_true,decide_false,
              Bool.not_true,Bool.not_false,Bool.and_self,Bool.false_eq_true]
          | true =>
            simp only [h1,h2,h3,ne_eq,not_true_eq_false,if_true,if_false,decide_true,decide_false,
              Bool.not_true,Bool.not_false,Bool.and_self,Bool.false_eq_true]
  · simp only [h1,ne_eq,not_false_eq_true,if_true,if_false,decide_false,Bool.false_and,Bool.false_eq_true]

/-- The loop over the headers ends with the entry point. -/
theorem loadHeaders_end {data size : Word} {fuel i : ℕ} {tr : Trace}
    (hi : ¬i<(ePhnum tr.mem data).toNat) :
    loadHeaders data size (fuel+1) i tr=some (tr,eEntry tr.mem data) := by
  rw [loadHeaders,if_neg hi]

/-- Steps that each write one byte, taken in order. -/
def iterSteps (step : ℕ→Trace→Trace) : ℕ→Trace→Trace
  | 0,tr => tr
  | n+1,tr => step n (iterSteps step n tr)

/-- Each step writes one known address and nothing else. -/
def WritesAt (step : ℕ→Trace→Trace) (addr : ℕ→Word) : Prop :=
  ∀ k tr,(step k tr).writes=addr k::tr.writes ∧ ∀ x,x≠addr k→(step k tr).mem x=tr.mem x

/-- The addresses written by the first steps. -/
theorem mem_writes_iterSteps {step : ℕ→Trace→Trace} {addr : ℕ→Word} (h : WritesAt step addr) (n : ℕ)
    (tr : Trace) (x : Word) :
    x∈(iterSteps step n tr).writes ↔ x∈tr.writes ∨ ∃ k<n,x=addr k := by
  induction n with
  | zero => simp [iterSteps]
  | succ n ih =>
    rw [iterSteps,(h n _).1,List.mem_cons,ih]
    constructor
    · rintro (rfl|hx|⟨k,hk,rfl⟩)
      · exact Or.inr ⟨n,Nat.lt_succ_self n,rfl⟩
      · exact Or.inl hx
      · exact Or.inr ⟨k,by omega,rfl⟩
    · rintro (hx|⟨k,hk,rfl⟩)
      · exact Or.inr (Or.inl hx)
      · by_cases he : k=n
        · exact Or.inl (by rw [he])
        · exact Or.inr (Or.inr ⟨k,by omega,rfl⟩)

/-- Bytes that no step writes keep their value. -/
theorem iterSteps_of_ne {step : ℕ→Trace→Trace} {addr : ℕ→Word} (h : WritesAt step addr) (n : ℕ)
    (tr : Trace) {x : Word} (hx : ∀ k<n,x≠addr k) : (iterSteps step n tr).mem x=tr.mem x := by
  induction n with
  | zero => rfl
  | succ n ih =>
    rw [iterSteps,(h n _).2 x (hx n (Nat.lt_succ_self n))]
    exact ih fun k hk => hx k (by omega)

/-- Steps inside user space change nothing outside. -/
theorem iterSteps_agrees {step : ℕ→Trace→Trace} {addr : ℕ→Word} (h : WritesAt step addr) (n : ℕ)
    (tr : Trace) (hu : ∀ k<n,InUser (addr k)) : AgreesOutside (iterSteps step n tr).mem tr.mem := by
  intro x hx
  refine iterSteps_of_ne h n tr ?_
  rintro k hk rfl
  exact hx (hu k hk)

/-- The steps of the copy loop. -/
def copyStep (dest src : Word) (k : ℕ) (tr : Trace) : Trace :=
  tr.copyByte (dest+BitVec.ofNat 32 k) (src+BitVec.ofNat 32 k)

/-- The steps of the clearing loop from an index on. -/
def zeroStep (dest start : Word) (k : ℕ) (tr : Trace) : Trace :=
  tr.zeroByte (dest+(start+BitVec.ofNat 32 k))

/-- The copy loop writes the destination bytes. -/
theorem copyStep_writesAt (dest src : Word) :
    WritesAt (copyStep dest src) fun k => dest+BitVec.ofNat 32 k :=
  fun _ _ => ⟨rfl,fun _ hx => store8_of_ne _ hx⟩

/-- The clearing loop writes the bytes behind the copied ones. -/
theorem zeroStep_writesAt (dest start : Word) :
    WritesAt (zeroStep dest start) fun k => dest+(start+BitVec.ofNat 32 k) :=
  fun _ _ => ⟨rfl,fun _ hx => store8_of_ne _ hx⟩

/-- A word inside a run of bytes that agree. -/
theorem load32_of_agree {m m0 : Mem} {a : Word} {n : ℕ}
    (hb : ∀ k<n,m (a+BitVec.ofNat 32 k)=m0 (a+BitVec.ofNat 32 k)) (k : ℕ) (hk : k+3<n) :
    load32 m (a+BitVec.ofNat 32 k)=load32 m0 (a+BitVec.ofNat 32 k) := by
  unfold load32
  rw [hb k (by omega),show a+BitVec.ofNat 32 k+1=a+BitVec.ofNat 32 (k+1) by bv_omega,
    show a+BitVec.ofNat 32 k+2=a+BitVec.ofNat 32 (k+2) by bv_omega,
    show a+BitVec.ofNat 32 k+3=a+BitVec.ofNat 32 (k+3) by bv_omega,
    hb (k+1) (by omega),hb (k+2) (by omega),hb (k+3) (by omega)]

/-- A halfword inside a run of bytes that agree. -/
theorem load16_of_agree {m m0 : Mem} {a : Word} {n : ℕ}
    (hb : ∀ k<n,m (a+BitVec.ofNat 32 k)=m0 (a+BitVec.ofNat 32 k)) (k : ℕ) (hk : k+1<n) :
    load16 m (a+BitVec.ofNat 32 k)=load16 m0 (a+BitVec.ofNat 32 k) := by
  unfold load16
  rw [hb k (by omega),show a+BitVec.ofNat 32 k+1=a+BitVec.ofNat 32 (k+1) by bv_omega,hb (k+1) (by omega)]

/-- Fields of a header outside user space are kept. -/
theorem fields_congr {m m0 : Mem} (h : AgreesOutside m m0) {ph : Word} (hph : RangeOutside ph 32) :
    pType m ph=pType m0 ph ∧ pOffset m ph=pOffset m0 ph ∧ pVaddr m ph=pVaddr m0 ph ∧
      pFilesz m ph=pFilesz m0 ph ∧ pMemsz m ph=pMemsz m0 ph := by
  have hw := load32_of_agree fun k hk => h _ (hph k hk)
  have h0 := hw 0 (by omega)
  rw [show ph+BitVec.ofNat 32 0=ph by bv_omega] at h0
  exact ⟨h0,hw 4 (by omega),hw 8 (by omega),hw 16 (by omega),hw 20 (by omega)⟩

/-- The segment's memory range ends inside user space. -/
def Fits (m : Mem) (ph : Word) : Prop :=
  (pVaddr m ph).toNat+max (pFilesz m ph).toNat (pMemsz m ph).toNat≤0xC0000000

/-- Whether a segment fits depends on its header only. -/
theorem fits_congr {m m0 : Mem} (h : AgreesOutside m m0) {ph : Word} (hph : RangeOutside ph 32) :
    Fits m ph ↔ Fits m0 ph := by
  obtain ⟨_,_,hv,hf,hm⟩ := fields_congr h hph
  unfold Fits
  rw [hv,hf,hm]

/-- The trace after the copied bytes of a segment. -/
def copiedTrace (data ph : Word) (tr : Trace) : Trace :=
  iterSteps (copyStep (pVaddr tr.mem ph) (data+pOffset tr.mem ph)) (pFilesz tr.mem ph).toNat tr

/-- The trace after a whole segment. -/
def segmentTrace (data ph : Word) (tr : Trace) : Trace :=
  iterSteps (zeroStep (pVaddr tr.mem ph) (pFilesz tr.mem ph))
    ((pMemsz tr.mem ph).toNat-(pFilesz tr.mem ph).toNat) (copiedTrace data ph tr)

/-- Accesses are only added. -/
def Extends (tr tr0 : Trace) : Prop :=
  (∀ x∈tr0.writes,x∈tr.writes) ∧ ∀ r∈tr0.reads,r∈tr.reads

/-- Nothing was added. -/
theorem Extends.refl (tr : Trace) : Extends tr tr := ⟨fun _ h => h,fun _ h => h⟩

/-- Additions accumulate. -/
theorem Extends.trans {tr tr1 tr0 : Trace} (h : Extends tr tr1) (k : Extends tr1 tr0) : Extends tr tr0 :=
  ⟨fun x hx => h.1 x (k.1 x hx),fun r hr => h.2 r (k.2 r hr)⟩

/-- Recorded reads are added. -/
theorem extends_note (tr : Trace) (rs : List (Word×ℕ)) : Extends (tr.note rs) tr :=
  ⟨fun _ h => h,fun _ h => List.mem_append_right _ h⟩

/-- Steps that each read what a list function says. -/
theorem mem_reads_iterSteps {step : ℕ→Trace→Trace} {range : ℕ→List (Word×ℕ)}
    (h : ∀ k tr,(step k tr).reads=range k++tr.reads) (n : ℕ) (tr : Trace) (r : Word×ℕ) :
    r∈(iterSteps step n tr).reads ↔ r∈tr.reads ∨ ∃ k<n,r∈range k := by
  induction n with
  | zero => simp [iterSteps]
  | succ n ih =>
    rw [iterSteps,h,List.mem_append,ih]
    constructor
    · rintro (hr|hr|⟨k,hk,hr⟩)
      · exact Or.inr ⟨n,Nat.lt_succ_self n,hr⟩
      · exact Or.inl hr
      · exact Or.inr ⟨k,by omega,hr⟩
    · rintro (hr|⟨k,hk,hr⟩)
      · exact Or.inr (Or.inl hr)
      · by_cases he : k=n
        · exact Or.inl (he▸hr)
        · exact Or.inr (Or.inr ⟨k,by omega,hr⟩)

end EronKernel.ElfRuns

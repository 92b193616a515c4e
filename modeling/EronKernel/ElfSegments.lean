import EronKernel.ElfRuns

/-!
# The two loops of a segment

The copy loop reads p_filesz again before every byte and the clearing loop
reads p_memsz again, so a segment that covers its own program header changes
its length while it is loaded. How many turns the loops take is determined by
the memory in which the header is found. A segment that keeps off these two
fields takes as many as they say.
-/

namespace EronKernel.ElfSegments

open ByteMemory FuelLoop ElfModel ElfRuns

variable {m : Mem} {data ph : Word} {tr : Trace} {n c : ℕ}

/-- Memory after a number of bytes were copied one after the other. -/
def copied (m : Mem) (dest src : Word) : ℕ→Mem
  | 0 => m
  | n+1 => store8 (copied m dest src n) (dest+BitVec.ofNat 32 n)
      (copied m dest src n (src+BitVec.ofNat 32 n))

/-- Memory after a number of bytes were cleared from an index on. -/
def cleared (m : Mem) (dest start : Word) : ℕ→Mem
  | 0 => m
  | n+1 => store8 (cleared m dest start n) (dest+(start+BitVec.ofNat 32 n)) 0

/-- Memory when the copy loop of a header's segment has copied some bytes. -/
def copiedMem (m : Mem) (data ph : Word) (n : ℕ) : Mem := copied m (pVaddr m ph) (data+pOffset m ph) n

/-- The index at which the clearing loop starts: p_filesz, read behind the copy
loop. -/
def clearStart (m : Mem) (data ph : Word) (n : ℕ) : Word := pFilesz (copiedMem m data ph n) ph

/-- Memory when the clearing loop has cleared some bytes as well. -/
def clearedMem (m : Mem) (data ph : Word) (n c : ℕ) : Mem :=
  cleared (copiedMem m data ph n) (pVaddr m ph) (clearStart m data ph n) c

/-- The copy loop ends after n bytes and the clearing loop after c more. -/
structure Ends (m : Mem) (data ph : Word) (n c : ℕ) : Prop where
  /-- Every byte before is below p_filesz as it stands then. -/
  copying : ∀ k<n,k<(pFilesz (copiedMem m data ph k) ph).toNat
  /-- The next one is not. -/
  copied : (pFilesz (copiedMem m data ph n) ph).toNat≤n
  /-- Every cleared index is below p_memsz as it stands then. -/
  clearing : ∀ k<c,(clearStart m data ph n).toNat+k<(pMemsz (clearedMem m data ph n k) ph).toNat
  /-- The next one is not. -/
  cleared : (pMemsz (clearedMem m data ph n c) ph).toNat≤(clearStart m data ph n).toNat+c

/-- A number that is reached from below a moving bound. -/
theorem exists_first (bound : ℕ→Word) (start : ℕ) :
    ∃ n,(∀ k<n,start+k<(bound k).toNat) ∧ (bound n).toNat≤ start+n := by
  have hex : ∃ n,(bound n).toNat≤ start+n := ⟨2^32,by have := (bound (2^32)).isLt; omega⟩
  classical
  obtain ⟨n,hn,hmin⟩ := Nat.findX hex
  exact ⟨n,fun k hk => Nat.not_le.mp (hmin k hk),hn⟩

/-- Both loops end. -/
theorem exists_ends (m : Mem) (data ph : Word) : ∃ n c,Ends m data ph n c := by
  obtain ⟨n,hbefore,hn⟩ := exists_first (fun k => pFilesz (copiedMem m data ph k) ph) 0
  obtain ⟨c,hclear,hc⟩ := exists_first (fun k => pMemsz (clearedMem m data ph n k) ph)
    (clearStart m data ph n).toNat
  refine ⟨n,c,⟨fun k hk => ?_,?_,hclear,hc⟩⟩
  · have := hbefore k hk
    omega
  · omega

/-- In one way only. -/
theorem Ends.unique {n' c' : ℕ} (h : Ends m data ph n c) (h' : Ends m data ph n' c') : n=n' ∧ c=c' := by
  have hn : n=n' := by
    rcases Nat.lt_trichotomy n n' with hlt|heq|hlt
    · have := h'.copying n hlt
      have := h.copied
      omega
    · exact heq
    · have := h.copying n' hlt
      have := h'.copied
      omega
  subst hn
  refine ⟨rfl,?_⟩
  rcases Nat.lt_trichotomy c c' with hlt|heq|hlt
  · have := h'.clearing c hlt
    have := h.cleared
    omega
  · exact heq
  · have := h.clearing c' hlt
    have := h'.cleared
    omega

/-- The clearing loop starts where the copy loop ended, or in front of it. -/
theorem Ends.start_le (h : Ends m data ph n c) : (clearStart m data ph n).toNat≤n := h.copied

/-- No more bytes are copied than a word can count. -/
theorem Ends.copied_lt (h : Ends m data ph n c) : n<2^32 := by
  by_contra hn
  have hlt := h.copying (2^32-1) (by omega)
  have := (pFilesz (copiedMem m data ph (2^32-1)) ph).isLt
  omega

/-- Nor cleared. -/
theorem Ends.cleared_lt (h : Ends m data ph n c) : (clearStart m data ph n).toNat+c<2^32 := by
  have hstart := (clearStart m data ph n).isLt
  by_contra hc
  have hlt := h.clearing (2^32-1-(clearStart m data ph n).toNat) (by omega)
  have := (pMemsz (clearedMem m data ph n (2^32-1-(clearStart m data ph n).toNat)) ph).isLt
  omega

/-- The steps of the copy loop change memory as copied says. -/
theorem copySteps_copied (dest src : Word) (n : ℕ) (tr : Trace) :
    (iterSteps (copyStep dest src) n tr).mem=copied tr.mem dest src n := by
  induction n with
  | zero => rfl
  | succ n ih =>
    rw [copied,←ih]
    rfl

/-- The steps of the clearing loop change memory as cleared says. -/
theorem zeroSteps_cleared (dest start : Word) (n : ℕ) (tr : Trace) :
    (iterSteps (zeroStep dest start) n tr).mem=cleared tr.mem dest start n := by
  induction n with
  | zero => rfl
  | succ n ih =>
    rw [cleared,←ih]
    rfl

/-- The trace of a segment by the numbers of turns. -/
def endsTrace (data ph : Word) (n c : ℕ) (tr : Trace) : Trace :=
  iterSteps (zeroStep (pVaddr tr.mem ph) (clearStart tr.mem data ph n)) c
    (iterSteps (copyStep (pVaddr tr.mem ph) (data+pOffset tr.mem ph)) n tr)

/-- Its memory. -/
theorem endsTrace_mem (data ph : Word) (n c : ℕ) (tr : Trace) :
    (endsTrace data ph n c tr).mem=clearedMem tr.mem data ph n c := by
  unfold endsTrace clearedMem copiedMem
  rw [zeroSteps_cleared,copySteps_copied]

/-- Loading a segment takes as many turns as its loops need. -/
theorem copySegment_ends (h : Ends tr.mem data ph n c) :
    copySegment data ph tr=some (endsTrace data ph n c tr) := by
  have hn := h.copied_lt
  have hc := h.cleared_lt
  have hcopy : runLoop (copyTurn ph (pVaddr tr.mem ph) (data+pOffset tr.mem ph)) (2^32) (0,tr)=
      some (iterSteps (copyStep (pVaddr tr.mem ph) (data+pOffset tr.mem ph)) n tr) := by
    refine runLoop_ends
      (fun k => (BitVec.ofNat 32 k,iterSteps (copyStep (pVaddr tr.mem ph) (data+pOffset tr.mem ph)) k tr))
      n (fun k hk => ?_) ?_ hn
    · have hlt := h.copying k hk
      rw [copiedMem,←copySteps_copied] at hlt
      unfold copyTurn
      dsimp only
      rw [if_pos (by bv_omega),show BitVec.ofNat 32 k+1=BitVec.ofNat 32 (k+1) by bv_omega]
      rfl
    · have hle := h.copied
      rw [copiedMem,←copySteps_copied] at hle
      unfold copyTurn
      dsimp only
      rw [if_neg (by bv_omega)]
  have hstart : clearStart tr.mem data ph n=
      pFilesz (iterSteps (copyStep (pVaddr tr.mem ph) (data+pOffset tr.mem ph)) n tr).mem ph := by
    rw [clearStart,copiedMem,←copySteps_copied]
  unfold copySegment
  dsimp only
  rw [hcopy,Option.bind_some,←hstart]
  have hzero : clearStart tr.mem data ph n=clearStart tr.mem data ph n+BitVec.ofNat 32 0 := by bv_omega
  conv_lhs => rw [hzero]
  refine runLoop_ends (fun k => (clearStart tr.mem data ph n+BitVec.ofNat 32 k,endsTrace data ph n k tr))
    c (fun k hk => ?_) ?_ (by omega)
  · have hlt := h.clearing k hk
    rw [←endsTrace_mem] at hlt
    unfold zeroTurn
    dsimp only
    rw [if_pos (by bv_omega),show clearStart tr.mem data ph n+BitVec.ofNat 32 k+1=
      clearStart tr.mem data ph n+BitVec.ofNat 32 (k+1) by bv_omega]
    rfl
  · have hle := h.cleared
    rw [←endsTrace_mem] at hle
    unfold zeroTurn
    dsimp only
    rw [if_neg (by bv_omega)]

/-- The bytes that a segment stores. -/
def Covers (m : Mem) (data ph : Word) (n c : ℕ) (x : Word) : Prop :=
  (∃ k<n,x=pVaddr m ph+BitVec.ofNat 32 k) ∨ ∃ k<c,x=pVaddr m ph+(clearStart m data ph n+BitVec.ofNat 32 k)

/-- They are written. -/
theorem mem_writes_endsTrace (x : Word) :
    x∈(endsTrace data ph n c tr).writes ↔ x∈tr.writes ∨ Covers tr.mem data ph n c x := by
  unfold endsTrace Covers
  rw [mem_writes_iterSteps (zeroStep_writesAt _ _),mem_writes_iterSteps (copyStep_writesAt _ _),or_assoc]

/-- Other bytes are kept. -/
theorem clearedMem_of_not_covers {x : Word} (hx : ¬Covers m data ph n c x) : clearedMem m data ph n c x=m x := by
  have htrace : (endsTrace data ph n c ⟨m,[],[]⟩).mem=clearedMem m data ph n c := endsTrace_mem _ _ _ _ _
  rw [←htrace]
  unfold endsTrace
  rw [iterSteps_of_ne (zeroStep_writesAt _ _),iterSteps_of_ne (copyStep_writesAt _ _)]
  · exact fun k hk he => hx (Or.inl ⟨k,hk,he⟩)
  · exact fun k hk he => hx (Or.inr ⟨k,hk,he⟩)

/-- A segment reads its source bytes. -/
theorem mem_reads_endsTrace (r : Word×ℕ) :
    r∈(endsTrace data ph n c tr).reads ↔ r∈tr.reads ∨
      ∃ k<n,r=(data+pOffset tr.mem ph+BitVec.ofNat 32 k,1) := by
  have hzero : ∀ dest start k t,(zeroStep dest start k t).reads=[]++t.reads := fun _ _ _ _ => rfl
  have hcopy : ∀ dest src k t,(copyStep dest src k t).reads=[(src+BitVec.ofNat 32 k,1)]++t.reads :=
    fun _ _ _ _ => rfl
  unfold endsTrace
  rw [mem_reads_iterSteps (hzero _ _),mem_reads_iterSteps (hcopy _ _)]
  simp

/-- Both loops of a segment end inside user space. -/
def EndsInUser (m : Mem) (data ph : Word) : Prop :=
  ∃ n c,Ends m data ph n c ∧ (pVaddr m ph).toNat+n≤0xC0000000 ∧
    (pVaddr m ph).toNat+((clearStart m data ph n).toNat+c)≤0xC0000000

/-- What a segment stores lies in user space when its loops end there. -/
theorem covers_inUser (h : Ends m data ph n c) (hlo : 0x08000000≤(pVaddr m ph).toNat)
    (hin : EndsInUser m data ph) {x : Word} (hx : Covers m data ph n c x) : InUser x := by
  obtain ⟨n',c',h',hfile,hmem⟩ := hin
  obtain ⟨rfl,rfl⟩ := h.unique h'
  have hn := h.copied_lt
  have hc := h.cleared_lt
  unfold InUser
  rcases hx with ⟨k,hk,rfl⟩|⟨k,hk,rfl⟩
  · bv_omega
  · bv_omega

/-- A segment whose loops end elsewhere stores the first byte behind user space. -/
theorem covers_userSpaceEnd (h : Ends m data ph n c) (hhi : (pVaddr m ph).toNat<0xC0000000)
    (hout : ¬EndsInUser m data ph) : Covers m data ph n c userSpaceEnd := by
  have hend : (userSpaceEnd : Word).toNat=0xC0000000 := rfl
  have hstart := h.start_le
  by_cases hfile : (pVaddr m ph).toNat+n≤0xC0000000
  · have hmem : 0xC0000000<(pVaddr m ph).toNat+((clearStart m data ph n).toNat+c) := by
      by_contra hle
      exact hout ⟨n,c,h,hfile,Nat.not_lt.mp hle⟩
    exact Or.inr ⟨0xC0000000-(pVaddr m ph).toNat-(clearStart m data ph n).toNat,by omega,by bv_omega⟩
  · exact Or.inl ⟨0xC0000000-(pVaddr m ph).toNat,by omega,by bv_omega⟩

/-- The two size fields of a header lie where its segment does not come while it
stays inside user space. -/
def KeepsSizes (m : Mem) (ph : Word) : Prop :=
  ∀ k<8,(ph+BitVec.ofNat 32 (16+k)).toNat<(pVaddr m ph).toNat ∨ 0xC0000000≤(ph+BitVec.ofNat 32 (16+k)).toNat

/-- So does every header outside user space. -/
theorem keepsSizes_of_outside (hph : RangeOutside ph 32) (hlo : 0x08000000≤(pVaddr m ph).toNat) :
    KeepsSizes m ph := by
  intro k hk
  have hout := hph (16+k) (by omega)
  unfold InUser at hout
  omega

/-- The size fields of memories that agree on them. -/
theorem sizes_congr {m0 : Mem} (h : ∀ k<8,m (ph+BitVec.ofNat 32 (16+k))=m0 (ph+BitVec.ofNat 32 (16+k))) :
    pFilesz m ph=pFilesz m0 ph ∧ pMemsz m ph=pMemsz m0 ph := by
  have hb : ∀ k<8,m (ph+16+BitVec.ofNat 32 k)=m0 (ph+16+BitVec.ofNat 32 k) := by
    intro k hk
    rw [show ph+16+BitVec.ofNat 32 k=ph+BitVec.ofNat 32 (16+k) by bv_omega]
    exact h k hk
  have h0 := load32_of_agree hb 0 (by omega)
  have h4 := load32_of_agree hb 4 (by omega)
  rw [show ph+16+BitVec.ofNat 32 0=ph+16 by bv_omega] at h0
  rw [show ph+16+BitVec.ofNat 32 4=ph+20 by bv_omega] at h4
  exact ⟨h0,h4⟩

/-- Copied bytes inside user space keep the size fields. -/
theorem KeepsSizes.sizes_copied (hk : KeepsSizes m ph) (hn : (pVaddr m ph).toNat+n≤0xC0000000) :
    pFilesz (copiedMem m data ph n) ph=pFilesz m ph ∧ pMemsz (copiedMem m data ph n) ph=pMemsz m ph := by
  refine sizes_congr fun k hk8 => ?_
  have htrace := copySteps_copied (pVaddr m ph) (data+pOffset m ph) n ⟨m,[],[]⟩
  rw [copiedMem,←htrace]
  refine iterSteps_of_ne (copyStep_writesAt _ _) n _ fun j hj he => ?_
  have hplace := hk k hk8
  rw [he] at hplace
  bv_omega

/-- So do cleared ones. -/
theorem KeepsSizes.memsz_cleared (hk : KeepsSizes m ph) (hn : (pVaddr m ph).toNat+n≤0xC0000000)
    (hc : (pVaddr m ph).toNat+((clearStart m data ph n).toNat+c)≤0xC0000000) :
    pMemsz (clearedMem m data ph n c) ph=pMemsz m ph := by
  have hsizes : pMemsz (copiedMem m data ph n) ph=pMemsz m ph := (hk.sizes_copied hn).2
  rw [←hsizes]
  refine (sizes_congr fun k hk8 => ?_).2
  have htrace := zeroSteps_cleared (pVaddr m ph) (clearStart m data ph n) c ⟨copiedMem m data ph n,[],[]⟩
  rw [clearedMem,←htrace]
  refine iterSteps_of_ne (zeroStep_writesAt _ _) c _ fun j hj he => ?_
  have hplace := hk k hk8
  rw [he] at hplace
  bv_omega

/-- A segment that fits and keeps its sizes takes as many turns as they say. -/
theorem ends_of_fits (hk : KeepsSizes m ph) (hfit : Fits m ph) :
    Ends m data ph (pFilesz m ph).toNat ((pMemsz m ph).toNat-(pFilesz m ph).toNat) ∧
      clearStart m data ph (pFilesz m ph).toNat=pFilesz m ph := by
  unfold Fits at hfit
  have hcopied : ∀ k≤(pFilesz m ph).toNat,pFilesz (copiedMem m data ph k) ph=pFilesz m ph :=
    fun k hle => (hk.sizes_copied (by omega)).1
  have hstart : clearStart m data ph (pFilesz m ph).toNat=pFilesz m ph := hcopied _ (Nat.le_refl _)
  have hcleared : ∀ c,c≤(pMemsz m ph).toNat-(pFilesz m ph).toNat→
      pMemsz (clearedMem m data ph (pFilesz m ph).toNat c) ph=pMemsz m ph := by
    intro c hc
    refine hk.memsz_cleared (by omega) ?_
    rw [hstart]
    omega
  refine ⟨⟨fun k hlt => ?_,?_,fun k hlt => ?_,?_⟩,hstart⟩
  · rw [hcopied k (by omega)]
    exact hlt
  · rw [hcopied _ (Nat.le_refl _)]
  · rw [hcleared k (by omega),hstart]
    omega
  · rw [hcleared _ (Nat.le_refl _),hstart]
    omega

/-- Where the segment keeps off the size fields its loops end in user space
exactly when p_vaddr and the larger size do. -/
theorem endsInUser_iff_fits (hk : KeepsSizes m ph) : EndsInUser m data ph ↔ Fits m ph := by
  constructor
  · rintro ⟨n,c,h,hn,hc⟩
    have hfile := h.copied
    rw [(hk.sizes_copied hn).1] at hfile
    have hmem := h.cleared
    rw [hk.memsz_cleared hn hc] at hmem
    unfold Fits
    omega
  · intro hfit
    obtain ⟨h,hstart⟩ := ends_of_fits hk hfit
    unfold Fits at hfit
    refine ⟨_,_,h,by omega,?_⟩
    rw [hstart]
    omega

/-- The bytes that p_filesz announces do not cover that field of their own
header. -/
def KeepsFilesz (m : Mem) (ph : Word) : Prop :=
  ∀ k<4,∀ j<(pFilesz m ph).toNat,ph+16+BitVec.ofNat 32 k≠pVaddr m ph+BitVec.ofNat 32 j

/-- Then that many bytes are copied. -/
theorem Ends.copied_eq (h : Ends m data ph n c) (hk : KeepsFilesz m ph) : n=(pFilesz m ph).toNat := by
  have hkeeps : ∀ j ≤ (pFilesz m ph).toNat,pFilesz (copiedMem m data ph j) ph=pFilesz m ph := by
    intro j hj
    have hb : ∀ k<4,copiedMem m data ph j (ph+16+BitVec.ofNat 32 k)=m (ph+16+BitVec.ofNat 32 k) := by
      intro k hk4
      have htrace := copySteps_copied (pVaddr m ph) (data+pOffset m ph) j ⟨m,[],[]⟩
      rw [copiedMem,←htrace]
      exact iterSteps_of_ne (copyStep_writesAt _ _) j _ fun i hi => hk k hk4 i (by omega)
    have h0 := load32_of_agree hb 0 (by omega)
    rw [show ph+16+BitVec.ofNat 32 0=ph+16 by bv_omega] at h0
    exact h0
  rcases Nat.lt_trichotomy n (pFilesz m ph).toNat with hlt|heq|hlt
  · have hle := h.copied
    rw [hkeeps n (by omega)] at hle
    omega
  · exact heq
  · have hmore := h.copying _ hlt
    rw [hkeeps _ (Nat.le_refl _)] at hmore
    omega

/-- A segment that lies in user space while its header does not is loaded as the
header says. -/
theorem copySegment_fits (hph : RangeOutside ph 32) (hlo : 0x08000000≤(pVaddr tr.mem ph).toNat)
    (hfit : Fits tr.mem ph) :
    copySegment data ph tr=some (segmentTrace data ph tr) ∧
      AgreesOutside (segmentTrace data ph tr).mem tr.mem := by
  have hkeeps := keepsSizes_of_outside hph hlo
  obtain ⟨h,hstart⟩ := @ends_of_fits tr.mem data ph hkeeps hfit
  have hsame : endsTrace data ph (pFilesz tr.mem ph).toNat
      ((pMemsz tr.mem ph).toNat-(pFilesz tr.mem ph).toNat) tr=segmentTrace data ph tr := by
    unfold endsTrace segmentTrace copiedTrace
    rw [hstart]
  refine ⟨hsame▸copySegment_ends h,?_⟩
  have hin : EndsInUser tr.mem data ph := (endsInUser_iff_fits hkeeps).mpr hfit
  intro x hx
  rw [←hsame,endsTrace_mem]
  exact clearedMem_of_not_covers fun hcovers => hx (covers_inUser h hlo hin hcovers)

/-- Both loops of a segment always return. -/
theorem copySegment_total (data ph : Word) (tr : Trace) :
    ∃ t,copySegment data ph tr=some t ∧ Extends t tr := by
  obtain ⟨n,c,h⟩ := exists_ends tr.mem data ph
  exact ⟨_,copySegment_ends h,fun x hx => (mem_writes_endsTrace x).mpr (Or.inl hx),
    fun r hr => (mem_reads_endsTrace r).mpr (Or.inl hr)⟩

end EronKernel.ElfSegments

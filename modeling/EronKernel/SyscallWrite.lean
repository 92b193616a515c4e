import EronKernel.SyscallHeap

/-!
# What SYS_WRITE sends to the terminal

The count of SYS_WRITE is checked and returned, but the characters sent are
those in front of the first NUL. Both are the same bytes exactly when that NUL
lies right behind the range; a range that is refused is reported as written
all the same.
-/

namespace EronKernel.SyscallWrite

open ByteMemory CString StringScan SyscallModel

variable {F : Type} {resume : ℕ→Kernel F→Kernel F} {fuel : ℕ} {k : Kernel F} {tf : Trapframe}

/-- A call that returns something else than -1 returns the count, and exactly
the bytes of the range were sent to the terminal, in order. -/
def WritesExactly (resume : ℕ→Kernel F→Kernel F) (fuel : ℕ) (k : Kernel F) (tf : Trapframe) : Prop :=
  ∀ o,syscallHandle resume fuel k tf=some o→ o.tf.eax≠-1→
    o.tf.eax=tf.edx ∧ o.kernel.output=k.output++bytesAt k.mem tf.ecx o.tf.eax.toNat

/-- The range holds no NUL and one follows it. -/
def TerminatedBehind (m : Mem) (buf count : Word) : Prop :=
  (∀ j<count.toNat,m (buf+BitVec.ofNat 32 j)≠0) ∧ m (buf+count)=0

/-- The string at an address is the range exactly when a NUL follows the range
and none lies in it. -/
theorem holdsString_bytesAt_iff {m : Mem} {buf count : Word} {s : CStr} (h : HoldsString m buf s) :
    s.bytes=bytesAt m buf count.toNat ↔ TerminatedBehind m buf count := by
  have hword : BitVec.ofNat 32 count.toNat=count := by simp
  constructor
  · intro hbytes
    have hlen : s.bytes.length=count.toNat := by rw [hbytes,length_bytesAt]
    refine ⟨fun j hj => h.nonzero j (by omega),?_⟩
    have hend := h.terminated
    rwa [hlen,hword] at hend
  · rintro ⟨hnonzero,hend⟩
    have hle : s.bytes.length≤count.toNat := h.length_le (by rw [hword]; exact hend)
    have hge : ¬s.bytes.length<count.toNat := fun hlt => hnonzero _ hlt h.terminated
    apply List.ext_getElem
    · rw [length_bytesAt]
      omega
    · intro i hi hj
      rw [getElem_bytesAt,h.bytes i hi]

/-- On a descriptor that is no terminal the call returns -1. -/
theorem syscallHandle_write_other (he : tf.eax=Syscall.sysWrite.number)
    (hfd : ¬(tf.ebx=1 ∨ tf.ebx=2)) :
    syscallHandle resume fuel k tf=some ⟨k,{tf with eax := -1},none⟩ := by
  rw [syscallHandle_write he,doWrite,if_neg hfd]
  rfl

/-- A range that is refused is reported as written. -/
theorem syscallHandle_write_refused (he : tf.eax=Syscall.sysWrite.number) (hfd : tf.ebx=1 ∨ tf.ebx=2)
    (hv : validateUserPtr tf.ecx tf.edx=false) :
    syscallHandle resume fuel k tf=some ⟨k,{tf with eax := tf.edx},none⟩ := by
  rw [syscallHandle_write he,doWrite,if_pos hfd,if_neg (by rw [hv]; exact Bool.false_ne_true)]
  rfl

/-- In an accepted range the string at its start is sent to the terminal. -/
theorem syscallHandle_write_accepted (he : tf.eax=Syscall.sysWrite.number) (hfd : tf.ebx=1 ∨ tf.ebx=2)
    (hv : validateUserPtr tf.ecx tf.edx=true) :
    syscallHandle resume fuel k tf=(stringAt k.mem tf.ecx).map fun s =>
      ⟨{k with output := k.output++s.bytes},{tf with eax := tf.edx},none⟩ := by
  rw [syscallHandle_write he,doWrite,if_pos hfd,if_pos hv,terminalWritestring]
  cases stringAt k.mem tf.ecx <;> rfl

/-- A refused range is reported as written, which is right for no bytes and
for the count -1. -/
theorem writesExactly_refused_iff (he : tf.eax=Syscall.sysWrite.number) (hfd : tf.ebx=1 ∨ tf.ebx=2)
    (hv : validateUserPtr tf.ecx tf.edx=false) :
    WritesExactly resume fuel k tf ↔ tf.edx=-1 ∨ tf.edx=0 := by
  unfold WritesExactly
  rw [syscallHandle_write_refused he hfd hv]
  simp only [Option.some.injEq,forall_eq',true_and]
  constructor
  · intro hall
    by_cases hcount : tf.edx=-1
    · exact Or.inl hcount
    · have hlen := congrArg List.length (hall hcount)
      rw [List.length_append,length_bytesAt] at hlen
      exact Or.inr (by bv_omega)
  · rintro (hcount|hzero) hne
    · exact absurd hcount hne
    · rw [hzero]
      simp [bytesAt]

/-- The count of an accepted range is not -1. -/
theorem count_ne_of_accepted {buf count : Word} (hv : validateUserPtr buf count=true) : count≠-1 := by
  obtain ⟨hlo,hhi⟩ := (validateUserPtr_iff _ _).mp hv
  intro hminus
  rw [hminus] at hhi
  have hbig : (-1 : Word).toNat=0xFFFFFFFF := rfl
  omega

/-- An accepted range is written exactly when a NUL lies right behind it and
none in it, or when the scan never ends. -/
theorem writesExactly_accepted_iff (he : tf.eax=Syscall.sysWrite.number) (hfd : tf.ebx=1 ∨ tf.ebx=2)
    (hv : validateUserPtr tf.ecx tf.edx=true) :
    WritesExactly resume fuel k tf ↔
      (∀ x,k.mem x≠0) ∨ TerminatedBehind k.mem tf.ecx tf.edx := by
  have hcount := count_ne_of_accepted hv
  unfold WritesExactly
  rw [syscallHandle_write_accepted he hfd hv]
  obtain ⟨hnone,hscan⟩|⟨s,hs,hscan⟩ := stringAt_cases k.mem tf.ecx
  · rw [hscan]
    refine iff_of_true ?_ (Or.inl hnone)
    intro o ho
    cases ho
  · have hsome : ¬∀ x,k.mem x≠0 := fun hall => hall _ hs.terminated
    rw [hscan]
    simp only [Option.map_some,Option.some.injEq,forall_eq',true_and,
      List.append_cancel_left_eq,holdsString_bytesAt_iff hs]
    constructor
    · exact fun hall => Or.inr (hall hcount)
    · rintro (hall|hterm) _
      · exact absurd hall hsome
      · exact hterm

/-- SYS_WRITE writes exactly the requested bytes when the descriptor is no
terminal, when the count reads as -1, when an empty range is refused, and in an
accepted range when memory has no NUL at all, so that the call never returns,
or the first one at its start lies right behind it; in no other case. -/
theorem sys_write_exact_iff (he : tf.eax=Syscall.sysWrite.number) :
    WritesExactly resume fuel k tf ↔
      ¬(tf.ebx=1 ∨ tf.ebx=2) ∨ tf.edx=-1 ∨
      (validateUserPtr tf.ecx tf.edx=false ∧ tf.edx=0) ∨
      (validateUserPtr tf.ecx tf.edx=true ∧
        ((∀ x,k.mem x≠0) ∨ TerminatedBehind k.mem tf.ecx tf.edx)) := by
  by_cases hfd : tf.ebx=1 ∨ tf.ebx=2
  · cases hv : validateUserPtr tf.ecx tf.edx with
    | false =>
      rw [writesExactly_refused_iff he hfd hv,or_iff_right (not_not.mpr hfd)]
      simp only [true_and,Bool.false_eq_true,false_and,or_false]
    | true =>
      rw [writesExactly_accepted_iff he hfd hv,or_iff_right (not_not.mpr hfd),
        or_iff_right (count_ne_of_accepted hv)]
      simp only [Bool.true_eq_false,false_and,false_or,true_and]
  · refine iff_of_true ?_ (Or.inl hfd)
    unfold WritesExactly
    rw [syscallHandle_write_other he hfd]
    rintro o ho hne
    cases ho
    exact absurd rfl hne

/-- A kernel whose memory holds two letters at the start of user space and NULs
elsewhere. -/
def twoLetterKernel : Kernel Unit :=
  SyscallHeap.megabyteKernel.withMem fun x =>
    if x=0x08000000 then 0x41 else if x=0x08000001 then 0x42 else 0

/-- Two letters with a NUL behind them are written exactly. -/
theorem two_letters_written_exactly :
    WritesExactly (fun _ k => k) 0 twoLetterKernel ⟨1,1,0x08000000,2⟩ :=
  (sys_write_exact_iff rfl).mpr (Or.inr (Or.inr (Or.inr ⟨by decide,Or.inr ⟨by decide,by decide⟩⟩)))

/-- A refused range of five bytes is reported as written though nothing is, and
of two letters both are printed when one is requested. -/
theorem write_not_exact :
    ¬WritesExactly (fun _ k => k) 0 twoLetterKernel ⟨1,1,0x1000,5⟩ ∧
      syscallHandle (fun _ k => k) 0 twoLetterKernel ⟨1,1,0x1000,5⟩=
        some ⟨twoLetterKernel,⟨5,1,0x1000,5⟩,none⟩ ∧
      ¬WritesExactly (fun _ k => k) 0 twoLetterKernel ⟨1,1,0x08000000,1⟩ := by
  have hrefused := @syscallHandle_write_refused Unit (fun _ k => k) 0 twoLetterKernel
    ⟨1,1,0x1000,5⟩ rfl (Or.inl rfl) (by decide)
  refine ⟨?_,hrefused,?_⟩
  · intro hall
    obtain ⟨_,hout⟩ := hall _ hrefused (by decide)
    exact absurd (congrArg List.length hout) (by decide)
  · intro hall
    have haccepted := @syscallHandle_write_accepted Unit (fun _ k => k) 0 twoLetterKernel
      ⟨1,1,0x08000000,1⟩ rfl (Or.inl rfl) (by decide)
    have hscan : scanLength twoLetterKernel.mem 0x08000000=some 2 :=
      scanLength_eq_some (by decide) (by decide) (by decide)
    rw [stringAt,hscan] at haccepted
    obtain ⟨_,hout⟩ := hall _ haccepted (by decide)
    exact absurd (congrArg List.length hout) (by decide)

end EronKernel.SyscallWrite

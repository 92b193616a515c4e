import EronKernel.BootTables

/-!
# What the processor accepts after boot

Whatever the tables and devices held before, the gates and segments read back
as the kernel meant them. The vectors that are accepted are those with a stub,
a program can raise system calls only, and every line that the interrupt
controllers let through has a handler already when interrupts are enabled. The
timer runs at the frequency that was asked for whenever the chip can count it.
-/

namespace EronKernel.BootVectors

open ByteMemory DescriptorFormat X86Machine TrapMachine BootTables

/-- The lower nibble of a byte as a number. -/
theorem toNat_and_nibble (x : Byte) : (x&&&0x0F).toNat=x.toNat%16 := by
  rw [BitVec.toNat_and]
  exact Nat.and_two_pow_sub_one_eq_mod x.toNat 4

/-- A byte of one lower and one upper nibble. -/
theorem nibbles (a g : Byte) :
    (a&&&0x0F|||g&&&0xF0).toNat%16=a.toNat%16 ∧ (a&&&0x0F|||g&&&0xF0).toNat/16=g.toNat/16 := by
  have hlow : (a&&&0x0F|||g&&&0xF0)&&&0x0F=a&&&0x0F := by
    rw [BitVec.and_or_distrib_right]
    simp [BitVec.and_assoc]
  have hkeep : (g>>>4&&&(0x0F : Byte))=g>>>4 := by
    apply BitVec.eq_of_toNat_eq
    rw [toNat_and_nibble,BitVec.toNat_ushiftRight,Nat.shiftRight_eq_div_pow]
    omega
  have hhigh : (a&&&0x0F|||g&&&0xF0)>>>4=g>>>4 := by
    rw [BitVec.ushiftRight_or_distrib,BitVec.ushiftRight_and_distrib,BitVec.ushiftRight_and_distrib]
    simpa using hkeep
  constructor
  · rw [←toNat_and_nibble,hlow,toNat_and_nibble]
  · have hdiv := congrArg BitVec.toNat hhigh
    simpa [Nat.shiftRight_eq_div_pow] using hdiv

/-- A half that was masked before it was cut off. -/
theorem setWidth_and_half (x : Word) : (x&&&0xFFFF).setWidth 16=x.setWidth 16 := by
  rw [BitVec.setWidth_and]
  exact BitVec.and_allOnes

/-- A byte that was masked before it was cut off. -/
theorem setWidth_and_byte (x : Word) : (x&&&0xFF).setWidth 8=x.setWidth 8 := by
  rw [BitVec.setWidth_and]
  exact BitVec.and_allOnes

/-- A gate that was set reads back. -/
theorem gate_idtSetGate (t : Tables) (num : Byte) (base : Word) (sel : Half) (flags : Byte) :
    ((idtSetGate t num base sel flags).idt num).gate=⟨base,sel,flags⟩ := by
  have hoffset : wordOfHalves (base.setWidth 16) ((base>>>16).setWidth 16)=base := by
    apply BitVec.eq_of_toNat_eq
    rw [toNat_wordOfHalves]
    simp only [BitVec.toNat_setWidth,BitVec.toNat_ushiftRight,Nat.shiftRight_eq_div_pow]
    omega
  unfold idtSetGate IdtEntry.gate
  simp only [Function.update_self]
  rw [Gate.decode_pack,setWidth_and_half,setWidth_and_half,hoffset]

/-- Other gates stay as they are. -/
theorem idt_idtSetGate_of_ne (t : Tables) {num v : Byte} (hv : v≠num) (base : Word) (sel : Half)
    (flags : Byte) : (idtSetGate t num base sel flags).idt v=t.idt v := Function.update_of_ne hv _ _

/-- A segment that was set reads back, with the lower twenty bits of its limit
and the upper nibble of its flags. -/
theorem segment_gdtSetGate (t : Tables) (num : Fin gdtEntries) (base limit : Word) (access gran : Byte) :
    ((gdtSetGate t num base limit access gran).gdt num).segment=
      ⟨base,limit.setWidth 20,access,BitVec.ofNat 4 (gran.toNat/16)⟩ := by
  have hfield : (limit>>>16&&&0x0F).setWidth 8=(limit>>>16).setWidth 8&&&(0x0F : Byte) := by
    rw [BitVec.setWidth_and]
    rfl
  obtain ⟨hlow,hhigh⟩ := nibbles ((limit>>>16).setWidth 8) gran
  unfold gdtSetGate GdtEntry.segment
  simp only [Function.update_self]
  rw [Segment.decode_pack,hfield,hlow,hhigh,setWidth_and_half,setWidth_and_half,setWidth_and_byte,
    setWidth_and_byte]
  congr 1
  all_goals
    apply BitVec.eq_of_toNat_eq
    simp only [BitVec.toNat_ofNat,BitVec.toNat_setWidth,BitVec.toNat_ushiftRight,
      Nat.shiftRight_eq_div_pow]
    omega

/-- The descriptor that tss_flush loads is that of a task state segment that is
present and not in use. -/
theorem taskState_loads (sym : Symbols) (t : Tables) :
    isTaskState ((gdtSetGate t 5 sym.tss (tssSize-1) 0x89 0x00).gdt 5).segment.access=true ∧
      present ((gdtSetGate t 5 sym.tss (tssSize-1) 0x89 0x00).gdt 5).segment.access=true := by
  rw [segment_gdtSetGate]
  change isTaskState 0x89=true ∧ present 0x89=true
  decide

/-- The segment of the task state after it was loaded. -/
theorem segment_tssInit (sym : Symbols) (t : Tables) (ss0 esp0 : Word) :
    ((tssInit sym t ss0 esp0).gdt 5).segment=⟨sym.tss,103,0x8B,0⟩ := by
  have hbusy : (tssInit sym t ss0 esp0).gdt 5=(gdtSetGate t 5 sym.tss (tssSize-1) 0x8B 0x00).gdt 5 := by
    unfold tssInit tssFlush gdtSetGate
    simp only [Function.update_self]
    rfl
  rw [hbusy,segment_gdtSetGate]
  rfl

/-- A gate of the cleared table. -/
theorem gate_idtInstall (t : Tables) (v : Byte) : ((idtInstall t).idt v).gate=⟨0,0,0⟩ :=
  Gate.decode_pack 0 0 0 0 0

/-- The reload value that timer_init leaves: the lower two bytes of the quotient. -/
theorem timerInit_pit {t e : Tables} {freq : Word} (h : timerInit t freq=some e) :
    e.pit=⟨false,(1193182/freq).setWidth 8,((1193182/freq)>>>8).setWidth 8⟩ := by
  unfold timerInit at h
  split_ifs at h
  rw [←Option.some.inj h,setWidth_and_byte,setWidth_and_byte]
  rfl

/-- The period of a reload value, by its two bytes. -/
theorem period_eq (upper : Bool) (x : Word) :
    (⟨upper,x.setWidth 8,(x>>>8).setWidth 8⟩ : Pit).period=
      if x.toNat%65536=0 then 65536 else x.toNat%65536 := by
  have hlow : (x.setWidth 8).toNat=x.toNat%256 := BitVec.toNat_setWidth 8 x
  have hhigh : ((x>>>8).setWidth 8).toNat=x.toNat/256%256 := by
    rw [BitVec.toNat_setWidth,BitVec.toNat_ushiftRight,Nat.shiftRight_eq_div_pow]
  have hzero : (x.setWidth 8=0 ∧ (x>>>8).setWidth 8=(0 : Byte)) ↔ x.toNat%65536=0 := by
    rw [BitVec.toNat_eq,BitVec.toNat_eq,hlow,hhigh]
    simp only [BitVec.ofNat_eq_ofNat,BitVec.toNat_ofNat,Nat.zero_mod]
    omega
  unfold Pit.period
  simp only [hzero,hlow,hhigh]
  split_ifs <;> omega

/-- timer_init makes the timer interrupt at the frequency that it was given
exactly when the quotient is not zero and has two bytes. -/
theorem timerInit_period_iff {t e : Tables} {freq : Word} (h : timerInit t freq=some e) :
    e.pit.period=1193182/freq.toNat ↔ 19≤ freq.toNat ∧ freq.toNat≤1193182 := by
  rw [timerInit_pit h,period_eq,BitVec.toNat_udiv]
  change (if 1193182/freq.toNat%65536=0 then _ else 1193182/freq.toNat%65536)=_ ↔ _
  constructor
  · intro hperiod
    have hfreq : freq.toNat≤1193182 := by
      by_contra hlarge
      rw [Nat.div_eq_of_lt (by omega)] at hperiod
      cases hperiod
    refine ⟨?_,hfreq⟩
    by_contra hsmall
    have hpos : freq.toNat≠0 := by
      intro hzero
      rw [hzero] at hperiod
      cases hperiod
    have hlarge : 1193182/18≤1193182/freq.toNat := Nat.div_le_div_left (by omega) (by omega)
    split_ifs at hperiod <;> omega
  · rintro ⟨hlow,hhigh⟩
    have hpos : 0<1193182/freq.toNat := Nat.div_pos hhigh (by omega)
    have hlt : 1193182/freq.toNat<65536 := (Nat.div_lt_iff_lt_mul (by omega)).mpr (by omega)
    rw [Nat.mod_eq_of_lt hlt,if_neg hpos.ne']

/-- The stub of a vector and the flags of its gate. -/
def stubOf (sym : Symbols) (v : Byte) : Option (Word×Byte) :=
  if v=0x80 then some (sym.syscallHandlerAsm,0xEE)
  else if v=33 then some (sym.keyboardHandlerAsm,0x8E)
  else if v=32 then some (sym.timerHandlerAsm,0x8E)
  else if v=14 then some (sym.isr14,0x8E)
  else if v=13 then some (sym.isr13,0x8E)
  else if v=6 then some (sym.isr6,0x8E)
  else if v=0 then some (sym.isr0,0x8E)
  else none

/-- What the tables hold when interrupts are enabled, whatever they held
before. -/
structure Early (sym : Symbols) (e : Tables) : Prop where
  /-- The gates but the last one. -/
  gate : ∀ v,v≠0x80→(e.idt v).gate=((stubOf sym v).elim ⟨0,0,0⟩ fun s => ⟨s.1,0x08,s.2⟩)
  /-- The gate of system calls is not yet there. -/
  noSyscall : (e.idt 0x80).gate=⟨0,0,0⟩
  /-- Every vector is inside the gate table. -/
  idtLimit : e.idtLimit=2047
  /-- Kernel code. -/
  kernelCode : (e.gdt 1).segment=⟨0,0xFFFFF,0x9A,0xC⟩
  /-- Kernel data. -/
  kernelData : (e.gdt 2).segment=⟨0,0xFFFFF,0x92,0xC⟩
  /-- User code. -/
  userCode : (e.gdt 3).segment=⟨0,0xFFFFF,0xFA,0xC⟩
  /-- User data. -/
  userData : (e.gdt 4).segment=⟨0,0xFFFFF,0xF2,0xC⟩
  /-- Task state. -/
  taskState : (e.gdt 5).segment=⟨sym.tss,103,0x8B,0⟩
  /-- Every segment is inside the table. -/
  gdtLimit : e.gdtLimit=47
  /-- The first controller is past its initialization. -/
  master : e.master=⟨0x20,0xFC,0,0⟩
  /-- The second one as well. -/
  slave : e.slave=⟨0x28,0xFF,0,0⟩
  /-- The boot stack is the stack of level zero. -/
  ring : ringStack e=⟨0x10,sym.stackTop⟩

/-- The gates that kernel_main sets. -/
theorem interruptInit_gate (sym : Symbols) (t : Tables) {v : Byte} (hv : v≠0x80) :
    ((interruptInit sym t).idt v).gate=((stubOf sym v).elim ⟨0,0,0⟩ fun s => ⟨s.1,0x08,s.2⟩) := by
  unfold interruptInit stubOf
  rw [if_neg hv]
  by_cases h33 : v=33
  · rw [if_pos h33,h33]
    exact gate_idtSetGate _ _ _ _ _
  rw [if_neg h33,idt_idtSetGate_of_ne _ h33]
  by_cases h32 : v=32
  · rw [if_pos h32,h32]
    exact gate_idtSetGate _ _ _ _ _
  rw [if_neg h32,idt_idtSetGate_of_ne _ h32]
  by_cases h14 : v=14
  · rw [if_pos h14,h14]
    exact gate_idtSetGate _ _ _ _ _
  rw [if_neg h14,idt_idtSetGate_of_ne _ h14]
  by_cases h13 : v=13
  · rw [if_pos h13,h13]
    exact gate_idtSetGate _ _ _ _ _
  rw [if_neg h13,idt_idtSetGate_of_ne _ h13]
  by_cases h6 : v=6
  · rw [if_pos h6,h6]
    exact gate_idtSetGate _ _ _ _ _
  rw [if_neg h6,idt_idtSetGate_of_ne _ h6]
  by_cases h0 : v=0
  · rw [if_pos h0,h0]
    exact gate_idtSetGate _ _ _ _ _
  rw [if_neg h0,idt_idtSetGate_of_ne _ h0]
  exact gate_idtInstall t v

/-- The tables when interrupts are enabled: the devices do not depend on what
they were told before. -/
theorem earlyTables_eq (sym : Symbols) (t : Tables) :
    earlyTables sym t=some {tssInit sym (interruptInit sym (gdtInit t)) 0x10 sym.stackTop with
      master := ⟨0x20,0xFC,0,0⟩, slave := ⟨0x28,0xFF,0,0⟩, pit := ⟨false,0x9B,0x2E⟩} := by
  rfl

/-- kernel_main gets there. -/
theorem earlyTables_early (sym : Symbols) (t : Tables) :
    ∃ e,earlyTables sym t=some e ∧ Early sym e := by
  refine ⟨_,earlyTables_eq sym t,?_⟩
  constructor
  · exact fun v hv => interruptInit_gate sym (gdtInit t) hv
  · change ((interruptInit sym (gdtInit t)).idt 0x80).gate=_
    unfold interruptInit
    rw [idt_idtSetGate_of_ne _ (by decide),idt_idtSetGate_of_ne _ (by decide),
      idt_idtSetGate_of_ne _ (by decide),idt_idtSetGate_of_ne _ (by decide),
      idt_idtSetGate_of_ne _ (by decide),idt_idtSetGate_of_ne _ (by decide)]
    exact gate_idtInstall _ _
  · rfl
  · exact segment_gdtSetGate t 1 0 0xFFFFF 0x9A 0xCF
  · exact segment_gdtSetGate t 2 0 0xFFFFF 0x92 0xCF
  · exact segment_gdtSetGate t 3 0 0xFFFFF 0xFA 0xCF
  · exact segment_gdtSetGate t 4 0 0xFFFFF 0xF2 0xCF
  · exact segment_tssInit sym (interruptInit sym (gdtInit t)) 0x10 sym.stackTop
  · rfl
  · rfl
  · rfl
  · rfl

/-- The tables with the gates of all stubs. -/
structure Booted (sym : Symbols) (b : Tables) : Prop where
  /-- Every gate. -/
  gate : ∀ v,(b.idt v).gate=((stubOf sym v).elim ⟨0,0,0⟩ fun s => ⟨s.1,0x08,s.2⟩)
  /-- Every vector is inside the gate table. -/
  idtLimit : b.idtLimit=2047
  /-- Kernel code. -/
  kernelCode : segmentOf b 0x08=some ⟨0,0xFFFFF,0x9A,0xC⟩

/-- A selector of a segment inside the table. -/
theorem segmentOf_eq {t : Tables} (hlimit : t.gdtLimit=47) {x : Half} {k : Fin gdtEntries}
    (hk : k≠0) (hindex : x.toNat/8=k.val) : segmentOf t x=some (t.gdt k).segment := by
  have hlt := k.isLt
  have hpos := Fin.pos_of_ne_zero hk
  have hfin : (⟨x.toNat/8,hindex▸k.isLt⟩ : Fin gdtEntries)=k := Fin.ext hindex
  unfold segmentOf
  rw [dif_pos (hindex▸k.isLt),if_neg ?_,hfin]
  rw [hlimit,not_or]
  have hmax : (47 : Half).toNat=47 := rfl
  constructor
  · have hval : 0<k.val := hpos
    omega
  · unfold gdtEntries at hlt
    omega

/-- syscall_init adds the last gate. -/
theorem Early.booted {sym : Symbols} {e : Tables} (h : Early sym e) : Booted sym (syscallInit sym e) where
  gate v := by
    by_cases hv : v=0x80
    · rw [hv]
      exact gate_idtSetGate e 0x80 sym.syscallHandlerAsm 0x08 0xEE
    · unfold syscallInit
      rw [idt_idtSetGate_of_ne _ hv]
      exact h.gate v hv
  idtLimit := h.idtLimit
  kernelCode := (segmentOf_eq h.gdtLimit (k := 1) (by decide) rfl).trans (congrArg some h.kernelCode)

/-- Stubs of programs have gates for programs, the others do not. -/
theorem stubOf_flags {sym : Symbols} {v : Byte} {s : Word×Byte} (hs : stubOf sym v=some s) :
    s.2=if v=0x80 then 0xEE else 0x8E := by
  unfold stubOf at hs
  split_ifs at hs⊢ <;> cases hs <;> rfl

/-- A vector without a gate is not accepted. -/
theorem handlerOf_of_absent {t : Tables} {v : Byte} (hgate : (t.idt v).gate=⟨0,0,0⟩) :
    handlerOf t v=none := by
  have habsent : (!present (t.idt v).gate.access)=true := by rw [hgate]; rfl
  exact if_pos (Or.inr (Or.inl habsent))

/-- A vector is accepted exactly when its gate has a stub. -/
theorem handlerOf_eq {t : Tables} {v : Byte} (hlimit : t.idtLimit=2047)
    (hcode : segmentOf t 0x08=some ⟨0,0xFFFFF,0x9A,0xC⟩) {stub : Option (Word×Byte)}
    (hflags : ∀ s,stub=some s→ s.2=0x8E ∨ s.2=0xEE)
    (hgate : (t.idt v).gate=stub.elim ⟨0,0,0⟩ fun s => ⟨s.1,0x08,s.2⟩) :
    handlerOf t v=stub.map fun s => ⟨0x08,s.1⟩ := by
  have hinside : ¬t.idtLimit.toNat<8*v.toNat+7 := by
    have hv := v.isLt
    have hmax : (2047 : Half).toNat=2047 := rfl
    rw [hlimit]
    omega
  cases stub with
  | none => exact handlerOf_of_absent hgate
  | some s =>
    unfold handlerOf
    rw [hgate]
    have hok : present s.2=true ∧ isInterruptGate s.2=true := by
      rcases hflags s rfl with hf|hf <;> rw [hf] <;> decide
    simp only [Option.elim_some,hinside,hok.1,hok.2,hcode,Bool.not_true,Bool.false_eq_true,or_self,
      if_false,Option.bind_some,Option.map_some]
    rfl

variable {sym : Symbols} {b : Tables}

/-- The vectors that are accepted after boot. -/
theorem Booted.handlerOf_eq (h : Booted sym b) (v : Byte) :
    handlerOf b v=(stubOf sym v).map fun s => ⟨0x08,s.1⟩ := by
  refine BootVectors.handlerOf_eq h.idtLimit h.kernelCode (fun s hs => ?_) (h.gate v)
  rw [stubOf_flags hs]
  split_ifs
  · exact Or.inr rfl
  · exact Or.inl rfl

/-- Programs may raise system calls only. -/
theorem Booted.mayRaise_iff (h : Booted sym b) (v : Byte) : mayRaise b 3 v=true ↔ v=0x80 := by
  unfold mayRaise
  rw [h.handlerOf_eq,h.gate]
  constructor
  · intro hraise
    by_contra hv
    cases hs : stubOf sym v with
    | none =>
      rw [hs] at hraise
      cases hraise
    | some s =>
      rw [hs,Option.elim_some,stubOf_flags hs,if_neg hv] at hraise
      have hkernel : ¬(3 : BitVec 2)≤privilege 0x8E := by decide
      exact hkernel (of_decide_eq_true (Bool.and_eq_true_iff.mp hraise).2)
  · rintro rfl
    have hs : stubOf sym 0x80=some (sym.syscallHandlerAsm,0xEE) := rfl
    have hprogram : (3 : BitVec 2)≤privilege 0xEE := by decide
    rw [hs]
    exact Bool.and_eq_true_iff.mpr ⟨rfl,decide_eq_true hprogram⟩

/-- The lines that the first controller lets through, with their vectors and
stubs. -/
theorem Early.line_handler {e : Tables} (h : Early sym e) {line : Fin 8}
    (hpass : e.master.passes line=true) :
    e.master.vector line=0x20+BitVec.ofNat 8 line.val ∧ (line=0 ∨ line=1) ∧
      handlerOf e (e.master.vector line)=
        some ⟨0x08,if line=0 then sym.timerHandlerAsm else sym.keyboardHandlerAsm⟩ := by
  have hline : line=0 ∨ line=1 := by
    rw [h.master] at hpass
    revert line
    decide
  have hne : e.master.vector line≠0x80 := by
    rw [h.master]
    rcases hline with rfl|rfl <;> decide
  have hcode : segmentOf e 0x08=some ⟨0,0xFFFFF,0x9A,0xC⟩ :=
    (segmentOf_eq h.gdtLimit (k := 1) (by decide) rfl).trans (congrArg some h.kernelCode)
  have hhandler := BootVectors.handlerOf_eq h.idtLimit hcode (fun s hs => by
    rw [stubOf_flags hs,if_neg hne]
    exact Or.inl rfl) (h.gate _ hne)
  refine ⟨by rw [h.master]; rfl,hline,hhandler.trans ?_⟩
  rw [h.master]
  rcases hline with rfl|rfl <;> rfl

/-- The flat segments of both levels, by the selectors that the kernel loads
and puts into trap frames. -/
def FlatSegments (t : Tables) : Prop :=
  (∀ selector∈[0x08,0x10,0x1B,0x23],∃ d,segmentOf t selector=some d ∧ d.base=0 ∧ d.bytes=2^32 ∧
    present d.access=true ∧ (privilege d.access).setWidth 16=selector&&&3) ∧
  (∀ selector∈[0x08,0x1B],∃ d,segmentOf t selector=some d ∧ isCode d.access=true) ∧
  ∀ selector∈[0x10,0x23],∃ d,segmentOf t selector=some d ∧ isWritableData d.access=true

/-- The segments of kernel_main are flat. -/
theorem Early.flat {e : Tables} (h : Early sym e) : FlatSegments e := by
  have hkcode := (segmentOf_eq (x := 0x08) h.gdtLimit (k := 1) (by decide) rfl).trans
    (congrArg some h.kernelCode)
  have hkdata := (segmentOf_eq (x := 0x10) h.gdtLimit (k := 2) (by decide) rfl).trans
    (congrArg some h.kernelData)
  have hucode := (segmentOf_eq (x := 0x1B) h.gdtLimit (k := 3) (by decide) rfl).trans
    (congrArg some h.userCode)
  have hudata := (segmentOf_eq (x := 0x23) h.gdtLimit (k := 4) (by decide) rfl).trans
    (congrArg some h.userData)
  refine ⟨?_,?_,?_⟩
  · intro selector hs
    simp only [List.mem_cons,List.not_mem_nil,or_false] at hs
    rcases hs with rfl|rfl|rfl|rfl
    · exact ⟨_,hkcode,by decide⟩
    · exact ⟨_,hkdata,by decide⟩
    · exact ⟨_,hucode,by decide⟩
    · exact ⟨_,hudata,by decide⟩
  · intro selector hs
    simp only [List.mem_cons,List.not_mem_nil,or_false] at hs
    rcases hs with rfl|rfl
    · exact ⟨_,hkcode,by decide⟩
    · exact ⟨_,hucode,by decide⟩
  · intro selector hs
    simp only [List.mem_cons,List.not_mem_nil,or_false] at hs
    rcases hs with rfl|rfl
    · exact ⟨_,hkdata,by decide⟩
    · exact ⟨_,hudata,by decide⟩

/-- Whatever tables and devices held before, kernel_main sets up flat segments
and a task state whose stack is the boot stack. When it enables interrupts,
every line that gets through has its handler behind a vector that no exception
has, and system calls are not yet accepted; after syscall_init the accepted
vectors are those with a stub, and programs may raise system calls only. -/
theorem boot_accepts (sym : Symbols) (t : Tables) :
    ∃ e b,earlyTables sym t=some e ∧ bootTables sym t=some b ∧
      FlatSegments b ∧ segmentOf b 0x28=some ⟨sym.tss,103,0x8B,0⟩ ∧
      ringStack b=⟨0x10,sym.stackTop⟩ ∧
      (∀ line,e.master.passes line=true→
        e.master.vector line=0x20+BitVec.ofNat 8 line.val ∧ (line=0 ∨ line=1) ∧
          handlerOf e (e.master.vector line)=
            some ⟨0x08,if line=0 then sym.timerHandlerAsm else sym.keyboardHandlerAsm⟩) ∧
      (∀ line,e.slave.passes line=false) ∧ handlerOf e 0x80=none ∧
      (∀ v,handlerOf b v=(stubOf sym v).map fun s => ⟨0x08,s.1⟩) ∧
      ∀ v,mayRaise b 3 v=true ↔ v=0x80 := by
  obtain ⟨e,he,hearly⟩ := earlyTables_early sym t
  refine ⟨e,syscallInit sym e,he,by rw [bootTables,he]; rfl,hearly.flat,?_,hearly.ring,
    fun line => hearly.line_handler,?_,?_,hearly.booted.handlerOf_eq,hearly.booted.mayRaise_iff⟩
  · exact (segmentOf_eq hearly.gdtLimit (k := 5) (by decide) rfl).trans (congrArg some hearly.taskState)
  · rw [hearly.slave]
    decide
  · exact handlerOf_of_absent hearly.noSyscall

end EronKernel.BootVectors

import EronKernel.X86Machine

/-!
# Interrupts of a 32-bit x86 processor

The instructions of interrupt stubs beside those of the switch, and what the
processor does on its own when an interrupt is accepted: the stack of the inner
level is taken, the interrupted place is pushed and the gate's code entered.
The stack is seen as a list of words, which a push extends and a pop shortens.
Addresses are memory's own, without paging. The resume flag, which the processor
sets in the flags that it pushes for a fault, is left out.
-/

namespace EronKernel.TrapMachine

open ByteMemory X86Machine

/-- Words on the stack, from its pointer upwards. -/
def words (c : Cpu) (n : ℕ) : List Word := (List.range n).map fun i => c.above (BitVec.ofNat 32 i)

/-- Instructions, decoded; a jump is the short one. -/
inductive StubInstr where
  /-- An instruction of the switch. -/
  | base (i : Instr)
  /-- Push a constant. -/
  | pushImm (v : Word)
  /-- Jump to an address near by. -/
  | jmp (target : Word)
  /-- Push all general registers. -/
  | pusha
  /-- Push a data segment register. -/
  | pushSeg (r : Seg)
  /-- Load a constant into the low half of eax. -/
  | movAx (v : Half)
  /-- Load a data segment register from the low half of eax. -/
  | movSeg (r : Seg)
  deriving DecidableEq

/-- Bytes of the encoding; a constant that fits a signed byte has the short
form. -/
def StubInstr.size : StubInstr→Word
  | .base i => i.size
  | .pushImm v => if v+0x80<0x100 then 2 else 5
  | .jmp _ => 2
  | .pusha => 1
  | .pushSeg .es | .pushSeg .ds => 1
  | .pushSeg .fs | .pushSeg .gs => 2
  | .movAx _ => 4
  | .movSeg _ => 2

/-- The order in which pusha pushes. -/
def pushaOrder : List Reg := [.eax,.ecx,.edx,.ebx,.esp,.ebp,.esi,.edi]

/-- pusha: the stack pointer is pushed as it was before. -/
def pushAll (c : Cpu) : Cpu := pushaOrder.foldl (fun d r => d.pushWord (c.reg r)) c

/-- What lies in a word on the stack after a selector was pushed. Processors
either clear its upper half or leave what was there; a pop ignores it. -/
structure SelectorPush where
  /-- The word, from the selector and what was there before. -/
  word : Half→Word→Word
  /-- Its lower half is the selector. -/
  low : ∀ s w,(word s w).setWidth 16=s

/-- The effect of an instruction; eip is already behind it. -/
def StubInstr.exec (sel : SelectorPush) (c : Cpu) : StubInstr→Cpu
  | .base i => execInstr c i
  | .pushImm v => c.pushWord v
  | .jmp target => {c with eip := target}
  | .pusha => pushAll c
  | .pushSeg r => c.pushWord (sel.word (c.seg r) (load32 c.mem (c.reg .esp-4)))
  | .movAx v => c.setReg .eax ((c.reg .eax)&&&0xFFFF0000|||v.setWidth 32)
  | .movSeg r => {c with seg := Function.update c.seg r ((c.reg .eax).setWidth 16)}

/-- Execute one instruction where eip stands. -/
def StubInstr.advance (sel : SelectorPush) (c : Cpu) (i : StubInstr) : Cpu :=
  i.exec sel {c with eip := c.eip+i.size}

/-- Execute instructions one after the other. -/
def execStub (sel : SelectorPush) (c : Cpu) (is : List StubInstr) : Cpu :=
  is.foldl (StubInstr.advance sel) c

/-- Decoded instructions by address. -/
abbrev StubCode := Word→Option StubInstr

/-- Fetch and execute a number of instructions. -/
def runStub (sel : SelectorPush) (code : StubCode) : ℕ→Cpu→Option Cpu
  | 0,c => some c
  | n+1,c => (code c.eip).bind fun i => runStub sel code n (i.advance sel c)

/-- Instructions lie behind one another from an address on. -/
def StubAt (code : StubCode) : Word→List StubInstr→Prop
  | _,[] => True
  | a,i::is => code a=some i ∧ StubAt code (a+i.size) is

instance (code : StubCode) : ∀ (a : Word) (is : List StubInstr),Decidable (StubAt code a is)
  | _,[] => inferInstanceAs (Decidable True)
  | a,i::is => @instDecidableAnd _ _ (inferInstanceAs (Decidable (code a=some i)))
      (instDecidableStubAt code (a+i.size) is)

/-- The instruction leaves eip behind itself. -/
def StubInstr.linear : StubInstr→Bool
  | .base i => i.linear
  | .jmp _ => false
  | _ => true

/-- The stack that the processor takes when it enters level zero. -/
structure RingStack where
  /-- Stack segment selector. -/
  ss0 : Half
  /-- Stack pointer. -/
  esp0 : Word

/-- Where an interrupt goes. -/
structure Handler where
  /-- Code segment selector, with the new level in its lowest two bits. -/
  cs : Half
  /-- Address of the code. -/
  offset : Word

/-- Flags after an interrupt gate was entered: the trap, interrupt, nested
task, resume and virtual mode flags are cleared. -/
def gateFlags (eflags : Word) : Word := eflags&&&0xFFFCBCFF

/-- The stack that an interrupt pushes to: coming from an outer level, the
stack of the inner one with the outer stack on it. -/
def enterStack (ring : RingStack) (h : Handler) (c : Cpu) : Cpu :=
  if level h.cs<level c.cs then
    (({c.setReg .esp ring.esp0 with ss := ring.ss0}.pushWord (c.ss.setWidth 32)).pushWord (c.reg .esp))
  else c

/-- The processor accepts an interrupt. -/
def enter (ring : RingStack) (h : Handler) (err : Option Word) (c : Cpu) : Cpu :=
  let d := (((enterStack ring h c).pushWord c.eflags).pushWord (c.cs.setWidth 32)).pushWord c.eip
  let d := match err with
    | some code => d.pushWord code
    | none => d
  {d with cs := h.cs, eip := h.offset, eflags := gateFlags c.eflags}

section Stack

variable (c : Cpu) (v : Word)

/-- A push moves the stack pointer. -/
@[simp] theorem pushWord_esp : (c.pushWord v).reg .esp=c.reg .esp-4 := by
  simp [Cpu.pushWord,Cpu.setReg]

/-- A push changes no other register. -/
theorem pushWord_reg {r : Reg} (hr : r≠.esp) : (c.pushWord v).reg r=c.reg r := by
  simp [Cpu.pushWord,Cpu.setReg,hr]

/-- A push changes no data segment register. -/
@[simp] theorem pushWord_seg : (c.pushWord v).seg=c.seg := rfl

/-- A push stays where it is in the code. -/
@[simp] theorem pushWord_eip : (c.pushWord v).eip=c.eip := rfl

/-- A push stays in its code segment. -/
@[simp] theorem pushWord_cs : (c.pushWord v).cs=c.cs := rfl

/-- A push stays in its stack segment. -/
@[simp] theorem pushWord_ss : (c.pushWord v).ss=c.ss := rfl

/-- A push changes no flag. -/
@[simp] theorem pushWord_eflags : (c.pushWord v).eflags=c.eflags := rfl

/-- The pushed word is on top. -/
theorem pushWord_above_zero : (c.pushWord v).above 0=v := by
  have hzero : c.reg .esp-4+4*0=c.reg .esp-4 := by bv_omega
  rw [Cpu.above,pushWord_esp,hzero]
  exact load32_store32 _ _ _

/-- The words that were there lie above it. -/
theorem pushWord_above_succ {i : ℕ} (hi : 4*(i+2)≤2^32) :
    (c.pushWord v).above (BitVec.ofNat 32 (i+1))=c.above (BitVec.ofNat 32 i) := by
  have hnext : c.reg .esp-4+4*BitVec.ofNat 32 (i+1)=c.reg .esp+4*BitVec.ofNat 32 i := by bv_omega
  rw [Cpu.above,pushWord_esp,hnext]
  exact load32_store32_of_apart _ (by bv_omega) (by bv_omega)

/-- A push extends the list of words. -/
theorem words_pushWord {n : ℕ} (hn : 4*(n+1)≤2^32) :
    words (c.pushWord v) (n+1)=v::words c n := by
  unfold words
  rw [List.range_succ_eq_map,List.map_cons,List.map_map]
  have hhead : (c.pushWord v).above (BitVec.ofNat 32 0)=v := pushWord_above_zero c v
  rw [hhead]
  refine congrArg (v::·) (List.map_congr_left fun i hi => ?_)
  have hlt := List.mem_range.mp hi
  exact pushWord_above_succ c v (by omega)

end Stack

/-- A word on the stack by its place in the list. -/
theorem getElem?_words {c : Cpu} {n i : ℕ} (hi : i < n) :
    (words c n)[i]?=some (c.above (BitVec.ofNat 32 i)) := by
  simp [words,hi]

/-- Number of words. -/
@[simp] theorem length_words (c : Cpu) (n : ℕ) : (words c n).length=n := by simp [words]

/-- The second state has words on the stack of the first, and nothing else was
written. -/
structure Pushed (c d : Cpu) (ws : List Word) : Prop where
  /-- The stack pointer. -/
  esp : d.reg .esp=c.reg .esp-BitVec.ofNat 32 (4*ws.length)
  /-- The words, in front of those that were there. -/
  words : ∀ n,4*(n+ws.length)≤2^32→words d (n+ws.length)=ws++words c n
  /-- Memory outside the words. -/
  mem : ∀ x,¬InRange (d.reg .esp) (4*ws.length) x→ d.mem x=c.mem x

/-- Nothing is pushed as long as stack pointer and memory stay. -/
theorem Pushed.refl {c d : Cpu} (hesp : d.reg .esp=c.reg .esp) (hmem : d.mem=c.mem) : Pushed c d [] where
  esp := by
    rw [hesp,List.length_nil]
    bv_omega
  words n _ := by
    rw [List.nil_append,List.length_nil,Nat.add_zero]
    simp only [TrapMachine.words,Cpu.above,hesp,hmem]
  mem x _ := by rw [hmem]

/-- One word more. -/
theorem Pushed.push {c d e : Cpu} {ws : List Word} {v : Word} (h : Pushed c d ws)
    (hfit : 4*(ws.length+1)≤2^32) (hesp : e.reg .esp=d.reg .esp-4)
    (hmem : e.mem=store32 d.mem (d.reg .esp-4) v) : Pushed c e (v::ws) where
  esp := by
    rw [hesp,h.esp,List.length_cons]
    bv_omega
  words n hn := by
    have hsame : TrapMachine.words e (n+ws.length+1)=TrapMachine.words (d.pushWord v) (n+ws.length+1) := by
      simp only [TrapMachine.words,Cpu.above,hesp,hmem,pushWord_esp]
      rfl
    rw [List.length_cons] at hn⊢
    rw [←Nat.add_assoc,hsame,words_pushWord _ _ (by omega),h.words n (by omega),List.cons_append]
  mem x hx := by
    rw [hesp,List.length_cons] at hx
    unfold InRange at hx
    have hword : ¬InRange (d.reg .esp-4) 4 x := by
      unfold InRange
      omega
    rw [hmem,store32_of_not_inRange v hword]
    refine h.mem x ?_
    unfold InRange
    bv_omega

/-- Words on top of words. -/
theorem Pushed.trans {c d e : Cpu} {ws vs : List Word} (h : Pushed c d ws) (h' : Pushed d e vs) :
    Pushed c e (vs++ws) where
  esp := by
    rw [h'.esp,h.esp,List.length_append]
    bv_omega
  words n hn := by
    rw [List.length_append] at hn⊢
    have hsplit : n+(vs.length+ws.length)=n+ws.length+vs.length := by omega
    rw [hsplit,h'.words _ (by omega),h.words n (by omega),List.append_assoc]
  mem x hx := by
    rw [List.length_append,h'.esp] at hx
    unfold InRange at hx
    have hinner : ¬InRange (e.reg .esp) (4*vs.length) x := by
      rw [h'.esp]
      unfold InRange
      omega
    rw [h'.mem x hinner]
    refine h.mem x ?_
    unfold InRange
    bv_omega

/-- A pushed word by its place. -/
theorem Pushed.above {c d : Cpu} {ws : List Word} (h : Pushed c d ws) (hfit : 4*ws.length≤2^32) {i : ℕ}
    (hi : i < ws.length) : d.above (BitVec.ofNat 32 i)=ws[i] := by
  have hwords := h.words 0 (by omega)
  rw [Nat.zero_add] at hwords
  have habove := getElem?_words (c := d) hi
  rw [hwords,List.getElem?_append_left hi,List.getElem?_eq_getElem hi] at habove
  exact (Option.some.inj habove).symm

/-- A push. -/
theorem Pushed.pushWord {c d : Cpu} {ws : List Word} (h : Pushed c d ws) (hfit : 4*(ws.length+1)≤2^32)
    (v : Word) : Pushed c (d.pushWord v) (v::ws) := h.push hfit (pushWord_esp d v) rfl

/-- A state with the same stack pointer and the same memory. -/
theorem Pushed.keep {c d e : Cpu} {ws : List Word} (h : Pushed c d ws) (hesp : e.reg .esp=d.reg .esp)
    (hmem : e.mem=d.mem) : Pushed c e ws := h.trans (Pushed.refl hesp hmem)

/-- The stack after pusha. -/
theorem pushed_pushAll (c : Cpu) : Pushed c (pushAll c) [c.reg .edi,c.reg .esi,c.reg .ebp,c.reg .esp,
    c.reg .ebx,c.reg .edx,c.reg .ecx,c.reg .eax] := by
  unfold pushAll pushaOrder
  simp only [List.foldl_cons,List.foldl_nil]
  iterate 8 refine Pushed.pushWord ?_ (by simp) _
  exact Pushed.refl rfl rfl

section Steps

variable {sel : SelectorPush} {c d : Cpu} {ws : List Word}

/-- pusha as one step. -/
theorem Pushed.pusha (h : Pushed c d ws) : Pushed c (StubInstr.pusha.advance sel d)
    ([d.reg .edi,d.reg .esi,d.reg .ebp,d.reg .esp,d.reg .ebx,d.reg .edx,d.reg .ecx,d.reg .eax]++ws) :=
  (h.keep (e := {d with eip := d.eip+1}) rfl rfl).trans (pushed_pushAll _)

/-- The push of a selector as one step. -/
theorem Pushed.pushSeg (h : Pushed c d ws) (hfit : 4*(ws.length+1)≤2^32) (r : Seg) :
    ∃ w : Word,w.setWidth 16=d.seg r ∧ Pushed c ((StubInstr.pushSeg r).advance sel d) (w::ws) :=
  ⟨_,sel.low _ _,h.push hfit (pushWord_esp _ _) rfl⟩

/-- The push of a constant as one step. -/
theorem Pushed.pushImm (h : Pushed c d ws) (hfit : 4*(ws.length+1)≤2^32) (v : Word) :
    Pushed c ((StubInstr.pushImm v).advance sel d) (v::ws) := h.push hfit (pushWord_esp _ _) rfl

/-- The push of a register as one step. -/
theorem Pushed.pushReg (h : Pushed c d ws) (hfit : 4*(ws.length+1)≤2^32) (r : Reg) :
    Pushed c ((StubInstr.base (.push r)).advance sel d) (d.reg r::ws) := h.push hfit (pushWord_esp _ _) rfl

/-- A call as one step. -/
theorem Pushed.call (h : Pushed c d ws) (hfit : 4*(ws.length+1)≤2^32) (target : Word) :
    Pushed c ((StubInstr.base (.call target)).advance sel d) ((d.eip+5)::ws) :=
  h.push hfit (pushWord_esp {d with eip := d.eip+5} (d.eip+5)) rfl

/-- A jump as one step. -/
theorem Pushed.jmp (h : Pushed c d ws) (target : Word) :
    Pushed c ((StubInstr.jmp target).advance sel d) ws := h.keep rfl rfl

/-- The load of a constant into ax as one step. -/
theorem Pushed.movAx (h : Pushed c d ws) (v : Half) : Pushed c ((StubInstr.movAx v).advance sel d) ws := by
  refine h.keep ?_ rfl
  simp [StubInstr.advance,StubInstr.exec,Cpu.setReg]

/-- The load of a data segment register as one step. -/
theorem Pushed.movSeg (h : Pushed c d ws) (r : Seg) : Pushed c ((StubInstr.movSeg r).advance sel d) ws :=
  h.keep rfl rfl

end Steps

/-- Running on. -/
theorem runStub_add {sel : SelectorPush} {code : StubCode} {n : ℕ} {c d : Cpu}
    (h : runStub sel code n c=some d) (m : ℕ) : runStub sel code (n+m) c=runStub sel code m d := by
  induction n generalizing c with
  | zero =>
    cases h
    rw [Nat.zero_add]
  | succ n ih =>
    rw [Nat.succ_add]
    cases hi : code c.eip with
    | none =>
      rw [runStub,hi] at h
      cases h
    | some i =>
      rw [runStub,hi,Option.bind_some] at h⊢
      exact ih h

/-- The processor without the stubs' instructions does the same. -/
theorem runStub_of_run {sel : SelectorPush} {code : StubCode} {base : Code}
    (hbase : ∀ a i,base a=some i→ code a=some (.base i)) {n : ℕ} {c d : Cpu}
    (h : run base n c=some d) : runStub sel code n c=some d := by
  induction n generalizing c with
  | zero => exact h
  | succ n ih =>
    cases hi : base c.eip with
    | none =>
      rw [run,step,hi] at h
      cases h
    | some i =>
      rw [run,step,hi,Option.map_some,Option.bind_some] at h
      rw [runStub,hbase _ _ hi,Option.bind_some]
      exact ih h

/-- A linear instruction leaves eip behind itself. -/
theorem exec_eip {i : StubInstr} (h : i.linear=true) (sel : SelectorPush) (c : Cpu) :
    (i.exec sel c).eip=c.eip := by
  cases i with
  | base i => exact execInstr_eip h c
  | jmp _ => cases h
  | _ => rfl

/-- Linear instructions run one after the other, and then the one behind
them. -/
theorem runStub_block (sel : SelectorPush) {code : StubCode} {j : StubInstr} (is : List StubInstr) :
    ∀ {c : Cpu},StubAt code c.eip (is++[j])→(∀ i∈is,i.linear=true)→
      runStub sel code (is.length+1) c=some (execStub sel c (is++[j])) := by
  induction is with
  | nil =>
    intro c hcode _
    rw [List.nil_append] at hcode
    rw [List.length_nil,runStub,hcode.1]
    rfl
  | cons i is ih =>
    intro c hcode hlinear
    have heip : (i.advance sel c).eip=c.eip+i.size := exec_eip (hlinear i List.mem_cons_self) _ _
    rw [List.length_cons,runStub,hcode.1,Option.bind_some]
    refine ih ?_ fun j hj => hlinear j (List.mem_cons_of_mem i hj)
    rw [heip]
    exact hcode.2

/-- Instructions that lie in two parts. -/
theorem stubAt_append {code : StubCode} {js : List StubInstr} (is : List StubInstr) :
    ∀ {a : Word},StubAt code a (is++js) ↔
      StubAt code a is ∧ StubAt code (is.foldl (fun a i => a+i.size) a) js := by
  induction is with
  | nil =>
    intro a
    rw [List.nil_append,StubAt,List.foldl_nil,true_and]
  | cons i is ih =>
    intro a
    rw [List.cons_append,StubAt,StubAt,List.foldl_cons,ih,and_assoc]

end EronKernel.TrapMachine

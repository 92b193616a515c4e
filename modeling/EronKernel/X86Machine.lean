import EronKernel.ByteMemory

/-!
# A 32-bit x86 processor, as far as stack switching needs it

General and segment registers, eip, eflags and memory, with the instructions
that move words between registers and the stack, transfer control, or return
to another privilege level. Instructions are decoded, and each has the length
of its encoding. Code that lies behind one another and has no jump in front of
its last instruction is executed as a block.
-/

namespace EronKernel.X86Machine

open ByteMemory

/-- General registers. -/
inductive Reg where
  /-- Register eax. -/
  | eax
  /-- Register ecx. -/
  | ecx
  /-- Register edx. -/
  | edx
  /-- Register ebx. -/
  | ebx
  /-- Register esp. -/
  | esp
  /-- Register ebp. -/
  | ebp
  /-- Register esi. -/
  | esi
  /-- Register edi. -/
  | edi
  deriving DecidableEq,Repr

/-- Data segment registers. -/
inductive Seg where
  /-- Register es. -/
  | es
  /-- Register ds. -/
  | ds
  /-- Register fs. -/
  | fs
  /-- Register gs. -/
  | gs
  deriving DecidableEq,Repr

/-- The state of the processor. -/
structure Cpu where
  /-- General registers. -/
  reg : Reg→Word
  /-- Data segment registers. -/
  seg : Seg→Half
  /-- Code segment register. -/
  cs : Half
  /-- Stack segment register. -/
  ss : Half
  /-- Address of the next instruction. -/
  eip : Word
  /-- Flags. -/
  eflags : Word
  /-- Memory. -/
  mem : Mem

/-- Instructions, decoded. -/
inductive Instr where
  /-- Load a word at a distance from the stack pointer. -/
  | loadStack (off : Word) (dst : Reg)
  /-- Store a register at the address in another. -/
  | store (src ptr : Reg)
  /-- Copy a register. -/
  | mov (src dst : Reg)
  /-- Push a register. -/
  | push (r : Reg)
  /-- Pop a register. -/
  | pop (r : Reg)
  /-- Pop a data segment register. -/
  | popSeg (r : Seg)
  /-- Pop all general registers but esp. -/
  | popa
  /-- Add a small constant to a register. -/
  | addImm (imm : Word) (r : Reg)
  /-- Call a routine. -/
  | call (target : Word)
  /-- Return from a routine. -/
  | ret
  /-- Return from an interrupt. -/
  | iret
  deriving DecidableEq

/-- Bytes of the encoding. -/
def Instr.size : Instr→Word
  | .loadStack _ _ => 4
  | .store _ _ => 2
  | .mov _ _ => 2
  | .push _ => 1
  | .pop _ => 1
  | .popSeg .es | .popSeg .ds => 1
  | .popSeg .fs | .popSeg .gs => 2
  | .popa => 1
  | .addImm _ _ => 3
  | .call _ => 5
  | .ret => 1
  | .iret => 1

/-- Write a general register. -/
def Cpu.setReg (c : Cpu) (r : Reg) (v : Word) : Cpu := {c with reg := Function.update c.reg r v}

/-- The word on top of the stack. -/
def Cpu.top (c : Cpu) : Word := load32 c.mem (c.reg .esp)

/-- Move the stack pointer up by a number of words. -/
def Cpu.drop (c : Cpu) (words : Word) : Cpu := c.setReg .esp (c.reg .esp+4*words)

/-- Push a word. -/
def Cpu.pushWord (c : Cpu) (v : Word) : Cpu :=
  {c.setReg .esp (c.reg .esp-4) with mem := store32 c.mem (c.reg .esp-4) v}

/-- A word at a distance above the stack pointer. -/
def Cpu.above (c : Cpu) (words : Word) : Word := load32 c.mem (c.reg .esp+4*words)

/-- Even number of ones in the low byte. -/
def evenParity (v : Word) : Bool :=
  ((List.range 8).countP fun k => v.getLsbD k)%2==0

/-- Flags after an addition. -/
def addFlags (eflags a b : Word) : Word :=
  let sum := a+b
  let bit (k : ℕ) (set : Bool) : Word := if set then 1<<<k else 0
  (eflags&&&0xFFFFF72A)|||bit 0 (decide (2^32≤a.toNat+b.toNat))|||bit 2 (evenParity sum)|||
    bit 4 (decide (16≤a.toNat%16+b.toNat%16))|||bit 6 (sum==0)|||bit 7 sum.msb|||
    bit 11 (a.msb==b.msb && !(sum.msb==a.msb))

/-- The privilege level of a code segment selector. -/
def level (selector : Half) : Half := selector&&&3

/-- popa: edi, esi, ebp, a word that is skipped, ebx, edx, ecx, eax. -/
def popAll (c : Cpu) : Cpu :=
  (((((((c.setReg .edi (c.above 0)).setReg .esi (c.above 1)).setReg .ebp (c.above 2)).setReg .ebx
    (c.above 4)).setReg .edx (c.above 5)).setReg .ecx (c.above 6)).setReg .eax (c.above 7)).drop 8

/-- iret: eip, cs and eflags, and the stack when the privilege level changes.
The selectors of data segments that the new level may use are kept. -/
def interruptReturn (c : Cpu) : Cpu :=
  let cs := (c.above 1).setWidth 16
  let d := {c with eip := c.above 0, cs := cs, eflags := c.above 2}
  if level c.cs<level cs then {d.setReg .esp (c.above 3) with ss := (c.above 4).setWidth 16}
  else d.drop 3

/-- The effect of an instruction; eip is already behind it. -/
def execInstr (c : Cpu) : Instr→Cpu
  | .loadStack off dst => c.setReg dst (load32 c.mem (c.reg .esp+off))
  | .store src ptr => {c with mem := store32 c.mem (c.reg ptr) (c.reg src)}
  | .mov src dst => c.setReg dst (c.reg src)
  | .push r => c.pushWord (c.reg r)
  | .pop r => (c.drop 1).setReg r c.top
  | .popSeg r => {c.drop 1 with seg := Function.update c.seg r (c.top.setWidth 16)}
  | .popa => popAll c
  | .addImm imm r => {c.setReg r (c.reg r+imm) with eflags := addFlags c.eflags (c.reg r) imm}
  | .call target => {c.pushWord c.eip with eip := target}
  | .ret => {c.drop 1 with eip := c.top}
  | .iret => interruptReturn c

/-- The instruction leaves eip behind itself. -/
def Instr.linear : Instr→Bool
  | .call _ | .ret | .iret => false
  | _ => true

/-- Execute one instruction where eip stands. -/
def advance (c : Cpu) (i : Instr) : Cpu := execInstr {c with eip := c.eip+i.size} i

/-- Execute instructions one after the other. -/
def execBlock (c : Cpu) (is : List Instr) : Cpu := is.foldl advance c

/-- Decoded instructions by address. -/
abbrev Code := Word→Option Instr

/-- Fetch and execute. -/
def step (code : Code) (c : Cpu) : Option Cpu := (code c.eip).map (advance c)

/-- Fetch and execute a number of instructions. -/
def run (code : Code) : ℕ→Cpu→Option Cpu
  | 0,c => some c
  | n+1,c => (step code c).bind (run code n)

/-- Instructions lie behind one another from an address on. -/
def CodeAt (code : Code) : Word→List Instr→Prop
  | _,[] => True
  | a,i::is => code a=some i ∧ CodeAt code (a+i.size) is

instance (code : Code) : ∀ (a : Word) (is : List Instr),Decidable (CodeAt code a is)
  | _,[] => inferInstanceAs (Decidable True)
  | a,i::is => @instDecidableAnd _ _ (inferInstanceAs (Decidable (code a=some i)))
      (instDecidableCodeAt code (a+i.size) is)

/-- A linear instruction leaves eip behind itself. -/
theorem execInstr_eip {i : Instr} (h : i.linear=true) (c : Cpu) : (execInstr c i).eip=c.eip := by
  cases i with
  | call | ret | iret => cases h
  | _ => rfl

/-- Running on. -/
theorem run_add {code : Code} {n : ℕ} {c d : Cpu} (h : run code n c=some d) (m : ℕ) :
    run code (n+m) c=run code m d := by
  induction n generalizing c with
  | zero =>
    cases h
    rw [Nat.zero_add]
  | succ n ih =>
    rw [Nat.succ_add]
    cases hs : step code c with
    | none =>
      rw [run,hs] at h
      cases h
    | some e =>
      rw [run,hs,Option.bind_some] at h⊢
      exact ih h

/-- Linear instructions run one after the other, up to what lies behind
them. -/
theorem run_linear {code : Code} {js : List Instr} (is : List Instr) :
    ∀ {c : Cpu},CodeAt code c.eip (is++js)→(∀ i∈is,i.linear=true)→
      run code is.length c=some (execBlock c is) ∧ CodeAt code (execBlock c is).eip js := by
  induction is with
  | nil => exact fun hcode _ => ⟨rfl,hcode⟩
  | cons i is ih =>
    intro c hcode hlinear
    have hstep : step code c=some (advance c i) := by rw [step,hcode.1,Option.map_some]
    have heip : (advance c i).eip=c.eip+i.size := execInstr_eip (hlinear i List.mem_cons_self) _
    rw [List.length_cons,run,hstep,Option.bind_some]
    refine ih ?_ fun j hj => hlinear j (List.mem_cons_of_mem i hj)
    rw [heip]
    exact hcode.2

/-- Linear instructions and the one behind them. -/
theorem run_block {code : Code} {is : List Instr} {j : Instr} {c : Cpu}
    (hcode : CodeAt code c.eip (is++[j])) (hlinear : ∀ i∈is,i.linear=true) :
    run code is.length c=some (execBlock c is) ∧ code (execBlock c is).eip=some j ∧
      step code (execBlock c is)=some (execBlock c (is++[j])) := by
  obtain ⟨hrun,hlast⟩ := run_linear is hcode hlinear
  refine ⟨hrun,hlast.1,?_⟩
  rw [step,hlast.1,Option.map_some,execBlock,execBlock,List.foldl_append]
  rfl

end EronKernel.X86Machine

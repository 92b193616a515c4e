import EronKernel.DescriptorFormat
import EronKernel.TrapMachine

/-!
# The tables that kernel_main sets up

The descriptor tables of gdt.c, idt.c and tss.c, the interrupt controllers and
the timer chip, as kernel_main leaves them before it enables interrupts and
after syscall_init. The processor reads the tables through the descriptor
format: a vector is accepted when its gate and the code segment behind it are
in order, and a program may only raise the vectors whose gates allow its level.
-/

namespace EronKernel.BootTables

open ByteMemory DescriptorFormat X86Machine TrapMachine

/-- struct gdt_entry. -/
structure GdtEntry where
  /-- Lower half of the limit. -/
  limitLow : Half
  /-- Lower half of the base. -/
  baseLow : Half
  /-- Third byte of the base. -/
  baseMiddle : Byte
  /-- Access byte. -/
  access : Byte
  /-- Flags and the upper four bits of the limit. -/
  granularity : Byte
  /-- Fourth byte of the base. -/
  baseHigh : Byte

/-- struct idt_entry. -/
structure IdtEntry where
  /-- Lower half of the handler's address. -/
  baseLow : Half
  /-- Code segment selector. -/
  sel : Half
  /-- Unused. -/
  zero : Byte
  /-- Presence, privilege level and type. -/
  flags : Byte
  /-- Upper half of the handler's address. -/
  baseHigh : Half

/-- struct tss_entry: the fields that are set, by their names, and the others
by their distance in words. -/
structure TssEntry where
  /-- Stack pointer of level zero. -/
  esp0 : Word
  /-- Stack segment of level zero. -/
  ss0 : Word
  /-- Distance of the port bitmap. -/
  iomapBase : Half
  /-- Everything else. -/
  rest : Fin 24→Word

/-- Bytes of struct tss_entry. -/
abbrev tssSize : Word := 104

/-- Entries of the segment descriptor table. -/
abbrev gdtEntries : ℕ := 6

/-- The channel of the timer chip that interrupts: the byte that a write goes
to, and the two bytes of its reload value. -/
structure Pit where
  /-- The next byte is the upper one. -/
  upper : Bool
  /-- Lower byte of the reload value. -/
  low : Byte
  /-- Upper byte of the reload value. -/
  high : Byte

/-- What the processor and the devices in front of it were told. -/
structure Tables where
  /-- gdt. -/
  gdt : Fin gdtEntries→GdtEntry
  /-- idt. -/
  idt : Byte→IdtEntry
  /-- tss. -/
  tss : TssEntry
  /-- Limit of the loaded segment descriptor table. -/
  gdtLimit : Half
  /-- Limit of the loaded gate table. -/
  idtLimit : Half
  /-- The first interrupt controller. -/
  master : Controller
  /-- The second interrupt controller. -/
  slave : Controller
  /-- The timer chip. -/
  pit : Pit

/-- Addresses that the linker chose. -/
structure Symbols where
  /-- The task state segment. -/
  tss : Word
  /-- isr0. -/
  isr0 : Word
  /-- isr6. -/
  isr6 : Word
  /-- isr13. -/
  isr13 : Word
  /-- isr14. -/
  isr14 : Word
  /-- timer_handler_asm. -/
  timerHandlerAsm : Word
  /-- keyboard_handler_asm. -/
  keyboardHandlerAsm : Word
  /-- syscall_handler_asm. -/
  syscallHandlerAsm : Word
  /-- stack_top. -/
  stackTop : Word

/-- gdt_set_gate. -/
def gdtSetGate (t : Tables) (num : Fin gdtEntries) (base limit : Word) (access gran : Byte) : Tables :=
  {t with gdt := Function.update t.gdt num {
    baseLow := (base&&&0xFFFF).setWidth 16
    baseMiddle := (base>>>16&&&0xFF).setWidth 8
    baseHigh := (base>>>24&&&0xFF).setWidth 8
    limitLow := (limit&&&0xFFFF).setWidth 16
    granularity := (limit>>>16&&&0x0F).setWidth 8|||gran&&&0xF0
    access := access}}

/-- gdt_init. -/
def gdtInit (t : Tables) : Tables :=
  let t := {t with gdtLimit := 8*6-1}
  let t := gdtSetGate t 0 0 0 0 0
  let t := gdtSetGate t 1 0 0xFFFFF 0x9A 0xCF
  let t := gdtSetGate t 2 0 0xFFFFF 0x92 0xCF
  let t := gdtSetGate t 3 0 0xFFFFF 0xFA 0xCF
  gdtSetGate t 4 0 0xFFFFF 0xF2 0xCF

/-- idt_set_gate. -/
def idtSetGate (t : Tables) (num : Byte) (base : Word) (sel : Half) (flags : Byte) : Tables :=
  {t with idt := Function.update t.idt num {
    baseLow := (base&&&0xFFFF).setWidth 16
    baseHigh := (base>>>16&&&0xFFFF).setWidth 16
    sel := sel
    zero := 0
    flags := flags}}

/-- idt_install. -/
def idtInstall (t : Tables) : Tables :=
  {t with idtLimit := 8*256-1, idt := fun _ => ⟨0,0,0,0,0⟩}

/-- tss_flush: the processor marks the descriptor of the task state segment
that it loads as busy. -/
def tssFlush (t : Tables) : Tables :=
  {t with gdt := Function.update t.gdt 5 {t.gdt 5 with access := (t.gdt 5).access|||0x02}}

/-- tss_init. -/
def tssInit (sym : Symbols) (t : Tables) (ss0 esp0 : Word) : Tables :=
  let t := gdtSetGate t 5 sym.tss (tssSize-1) 0x89 0x00
  tssFlush {t with tss := ⟨esp0,ss0,tssSize.setWidth 16,fun _ => 0⟩}

/-- A byte on the data port of the timer's channel. -/
def Pit.data (p : Pit) (v : Byte) : Pit :=
  if p.upper then {p with high := v, upper := false} else {p with low := v, upper := true}

/-- outb, on the ports that the kernel writes. A command to the timer chip
starts with the lower byte of the reload value. -/
def outb (t : Tables) (port : Half) (val : Byte) : Tables :=
  if port=0x20 then {t with master := t.master.command val}
  else if port=0x21 then {t with master := t.master.data val}
  else if port=0xA0 then {t with slave := t.slave.command val}
  else if port=0xA1 then {t with slave := t.slave.data val}
  else if port=0x43 then {t with pit := {t.pit with upper := false}}
  else if port=0x40 then {t with pit := t.pit.data val}
  else t

/-- timer_init, which divides by its argument. -/
def timerInit (t : Tables) (freq : Word) : Option Tables :=
  if freq=0 then none
  else
    let divisor : Word := 1193182/freq
    let t := outb t 0x43 0x36
    let t := outb t 0x40 ((divisor&&&0xFF).setWidth 8)
    some (outb t 0x40 ((divisor>>>8&&&0xFF).setWidth 8))

/-- Pulses between two interrupts of the timer chip; zero stands for the
largest number. -/
def Pit.period (p : Pit) : ℕ :=
  if p.low=0 ∧ p.high=0 then 65536 else p.low.toNat+256*p.high.toNat

/-- kernel_main from the interrupt table to the interrupt controllers. -/
def interruptInit (sym : Symbols) (t : Tables) : Tables :=
  let t := idtInstall t
  let t := idtSetGate t 0 sym.isr0 0x08 0x8E
  let t := idtSetGate t 6 sym.isr6 0x08 0x8E
  let t := idtSetGate t 13 sym.isr13 0x08 0x8E
  let t := idtSetGate t 14 sym.isr14 0x08 0x8E
  let t := idtSetGate t 32 sym.timerHandlerAsm 0x08 0x8E
  idtSetGate t 33 sym.keyboardHandlerAsm 0x08 0x8E

/-- The bytes that kernel_main gives to the interrupt controllers. -/
def picInit : List (Half×Byte) :=
  [(0x20,0x11),(0xA0,0x11),(0x21,0x20),(0xA1,0x28),(0x21,0x04),(0xA1,0x02),(0x21,0x01),(0xA1,0x01),
    (0x21,0xFC),(0xA1,0xFF)]

/-- syscall_init. -/
def syscallInit (sym : Symbols) (t : Tables) : Tables := idtSetGate t 0x80 sym.syscallHandlerAsm 0x08 0xEE

/-- The tables when kernel_main enables interrupts. -/
def earlyTables (sym : Symbols) (t : Tables) : Option Tables :=
  let t := interruptInit sym (gdtInit t)
  let t := picInit.foldl (fun t w => outb t w.1 w.2) t
  timerInit (tssInit sym t 0x10 sym.stackTop) 100

/-- The tables when the shell starts. -/
def bootTables (sym : Symbols) (t : Tables) : Option Tables := (earlyTables sym t).map (syscallInit sym)

/-- A segment descriptor as the processor reads it. -/
def GdtEntry.segment (e : GdtEntry) : Segment :=
  .decode (wordOfHalves e.limitLow e.baseLow) (wordOfBytes e.baseMiddle e.access e.granularity e.baseHigh)

/-- A gate as the processor reads it. -/
def IdtEntry.gate (e : IdtEntry) : Gate :=
  .decode (wordOfHalves e.baseLow e.sel) (BitVec.ofNat 32 (e.zero.toNat+256*e.flags.toNat+65536*e.baseHigh.toNat))

/-- The segment of a selector; the null selector and those behind the table
have none. -/
def segmentOf (t : Tables) (selector : Half) : Option Segment :=
  let index := selector.toNat/8
  if h : index<gdtEntries then
    if index=0 ∨ t.gdtLimit.toNat<8*index+7 then none else some (t.gdt ⟨index,h⟩).segment
  else none

/-- Where the processor goes with a vector: through a present interrupt gate
to a present code segment, whose level becomes the current one. -/
def handlerOf (t : Tables) (vector : Byte) : Option Handler :=
  let g := (t.idt vector).gate
  if t.idtLimit.toNat<8*vector.toNat+7 ∨ !present g.access ∨ !isInterruptGate g.access then none
  else (segmentOf t g.selector).bind fun d =>
    if present d.access ∧ isCode d.access then
      some ⟨g.selector&&&0xFFFC|||(privilege d.access).setWidth 16,g.offset⟩
    else none

/-- Whether a program at a level may raise a vector with an instruction. -/
def mayRaise (t : Tables) (cpl : BitVec 2) (vector : Byte) : Bool :=
  (handlerOf t vector).isSome && cpl≤privilege (t.idt vector).gate.access

/-- The stack of level zero. -/
def ringStack (t : Tables) : RingStack := ⟨t.tss.ss0.setWidth 16,t.tss.esp0⟩

end EronKernel.BootTables

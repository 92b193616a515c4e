import EronKernel.ByteMemory

/-!
# Descriptors of a 32-bit x86 processor

What the processor reads in the two words of a segment descriptor and of a
gate, the fields it checks, and that packing and reading agree field by field.
The interrupt controllers in front of it are programmed by a sequence of bytes.
-/

namespace EronKernel.DescriptorFormat

open ByteMemory

/-- A segment descriptor as the processor reads it. -/
structure Segment where
  /-- First address of the segment. -/
  base : Word
  /-- Last offset, in units of the granularity. -/
  limit : BitVec 20
  /-- Access byte: presence, privilege level and type. -/
  access : Byte
  /-- Granularity, default size and two more flags. -/
  flags : BitVec 4
  deriving DecidableEq

/-- A gate as the processor reads it. -/
structure Gate where
  /-- Address of the handler. -/
  offset : Word
  /-- Selector of the handler's code segment. -/
  selector : Half
  /-- Presence, privilege level and type. -/
  access : Byte
  deriving DecidableEq

/-- The segment in two words. -/
def Segment.decode (low high : Word) : Segment where
  base := BitVec.ofNat 32
    (low.toNat/65536+65536*(high.toNat%256)+16777216*(high.toNat/16777216))
  limit := BitVec.ofNat 20 (low.toNat%65536+65536*(high.toNat/65536%16))
  access := BitVec.ofNat 8 (high.toNat/256)
  flags := BitVec.ofNat 4 (high.toNat/1048576)

/-- The gate in two words. -/
def Gate.decode (low high : Word) : Gate where
  offset := BitVec.ofNat 32 (low.toNat%65536+65536*(high.toNat/65536))
  selector := BitVec.ofNat 16 (low.toNat/65536)
  access := BitVec.ofNat 8 (high.toNat/256)

/-- Two halves that lie behind one another. -/
def wordOfHalves (a b : Half) : Word := BitVec.ofNat 32 (a.toNat+65536*b.toNat)

/-- Four bytes that lie behind one another. -/
def wordOfBytes (a b c d : Byte) : Word :=
  BitVec.ofNat 32 (a.toNat+256*b.toNat+65536*c.toNat+16777216*d.toNat)

/-- The descriptor may be used. -/
def present (access : Byte) : Bool := access.getLsbD 7

/-- Its privilege level. -/
def privilege (access : Byte) : BitVec 2 := access.extractLsb' 5 2

/-- A 32-bit interrupt gate. -/
def isInterruptGate (access : Byte) : Bool := access.extractLsb' 0 5=0xE#5

/-- A code segment that is entered at its own privilege level. -/
def isCode (access : Byte) : Bool := access.extractLsb' 2 3=0x6#3

/-- A data segment that may be written and grows upwards. -/
def isWritableData (access : Byte) : Bool := access.extractLsb' 1 4=0x9#4

/-- A 32-bit task state segment that is not in use. -/
def isTaskState (access : Byte) : Bool := access.extractLsb' 0 5=0x9#5

/-- Bytes of a segment: its limit counts pages when the granularity flag is
set. -/
def Segment.bytes (d : Segment) : ℕ :=
  if d.flags.getLsbD 3 then (d.limit.toNat+1)*4096 else d.limit.toNat+1

/-- One of the two interrupt controllers: the vector of its first line, the
masked lines, the lines in service, and how many bytes of its initialization
are still to come. -/
structure Controller where
  /-- Vector of line zero. -/
  offset : Byte
  /-- Lines that are masked. -/
  mask : Byte
  /-- Lines in service. -/
  service : Byte
  /-- Bytes of the initialization that are expected on the data port. -/
  pending : ℕ

/-- A byte on the command port: an initialization that announces all four
bytes, or an end of interrupt, which takes the first line out of service. -/
def Controller.command (p : Controller) (v : Byte) : Controller :=
  if v.getLsbD 4 then {p with mask := 0, service := 0, pending := 3}
  else if v.extractLsb' 5 3=1#3 then {p with service := p.service&&&(p.service-1)}
  else p

/-- A byte on the data port: the vector of line zero, the wiring, the mode, and
after that the mask. -/
def Controller.data (p : Controller) (v : Byte) : Controller :=
  match p.pending with
  | 3 => {p with offset := v&&&0xF8, pending := 2}
  | k+1 => {p with pending := k}
  | 0 => {p with mask := v}

/-- A line that is not masked while nothing is in service. -/
def Controller.passes (p : Controller) (line : Fin 8) : Bool :=
  !p.mask.getLsbD line.val && p.service=0

/-- The vector of a line. -/
def Controller.vector (p : Controller) (line : Fin 8) : Byte := p.offset+BitVec.ofNat 8 line.val

/-- The processor takes a line: it is in service until an end of interrupt. -/
def Controller.acknowledge (p : Controller) (line : Fin 8) : Controller :=
  {p with service := p.service|||1#8<<<line.val}

/-- The number in two halves. -/
theorem toNat_wordOfHalves (a b : Half) : (wordOfHalves a b).toNat=a.toNat+65536*b.toNat := by
  unfold wordOfHalves
  rw [BitVec.toNat_ofNat]
  omega

/-- The number in four bytes. -/
theorem toNat_wordOfBytes (a b c d : Byte) :
    (wordOfBytes a b c d).toNat=a.toNat+256*b.toNat+65536*c.toNat+16777216*d.toNat := by
  unfold wordOfBytes
  rw [BitVec.toNat_ofNat]
  omega

/-- The fields of a packed segment descriptor are the ones that were put in;
the limit's upper four bits share a byte with the flags. -/
theorem Segment.decode_pack (limitLow baseLow : Half) (baseMiddle access flagsLimit baseHigh : Byte) :
    Segment.decode (wordOfHalves limitLow baseLow) (wordOfBytes baseMiddle access flagsLimit baseHigh)=
      ⟨BitVec.ofNat 32 (baseLow.toNat+65536*baseMiddle.toNat+16777216*baseHigh.toNat),
        BitVec.ofNat 20 (limitLow.toNat+65536*(flagsLimit.toNat%16)),access,
        BitVec.ofNat 4 (flagsLimit.toNat/16)⟩ := by
  have hbase : (limitLow.toNat+65536*baseLow.toNat)/65536=baseLow.toNat := by omega
  have hlimit : (limitLow.toNat+65536*baseLow.toNat)%65536=limitLow.toNat := by omega
  have hhigh := toNat_wordOfBytes baseMiddle access flagsLimit baseHigh
  have hmiddle : (wordOfBytes baseMiddle access flagsLimit baseHigh).toNat%256=baseMiddle.toNat := by omega
  have htop : (wordOfBytes baseMiddle access flagsLimit baseHigh).toNat/16777216=baseHigh.toNat := by
    omega
  have hnibble : (wordOfBytes baseMiddle access flagsLimit baseHigh).toNat/65536%16=
      flagsLimit.toNat%16 := by omega
  unfold Segment.decode
  rw [toNat_wordOfHalves,hbase,hlimit,hmiddle,htop,hnibble]
  congr 1
  all_goals
    apply BitVec.eq_of_toNat_eq
    simp only [BitVec.toNat_ofNat]
    omega

/-- The fields of a packed gate are the ones that were put in. -/
theorem Gate.decode_pack (low selector high : Half) (zero access : Byte) :
    Gate.decode (wordOfHalves low selector)
        (BitVec.ofNat 32 (zero.toNat+256*access.toNat+65536*high.toNat))=
      ⟨wordOfHalves low high,selector,access⟩ := by
  have hhigh : (BitVec.ofNat 32 (zero.toNat+256*access.toNat+65536*high.toNat)).toNat=
      zero.toNat+256*access.toNat+65536*high.toNat := by
    rw [BitVec.toNat_ofNat]
    omega
  unfold Gate.decode
  rw [toNat_wordOfHalves,hhigh]
  congr 1
  all_goals
    apply BitVec.eq_of_toNat_eq
    simp only [BitVec.toNat_ofNat,toNat_wordOfHalves]
    omega

/-- Taking a line and ending its service changes nothing. -/
theorem Controller.acknowledge_endOfInterrupt {p : Controller} (h : p.service=0) (line : Fin 8) :
    (p.acknowledge line).command 0x20=p := by
  obtain ⟨offset,mask,service,pending⟩ := p
  have hclear : ∀ l : Fin 8,(0#8|||1#8<<<l.val)&&&((0#8|||1#8<<<l.val)-1)=0 := by decide
  have heoi : ∀ q : Controller,q.command 0x20={q with service := q.service&&&(q.service-1)} := fun _ => rfl
  dsimp only at h
  rw [heoi,acknowledge,h]
  exact congrArg (fun service => Controller.mk offset mask service pending) (hclear line)

end EronKernel.DescriptorFormat

import EronKernel.ByteMemory
import EronKernel.FuelLoop

/-!
# The ELF loader of elf.c

The file lies in memory behind a data pointer and the loader writes the same
memory, so header fields are read again wherever the source names them. A
trace records which bytes are read through the data pointer and which are
written. All sums are machine words and wrap.
-/

namespace EronKernel.ElfModel

open ByteMemory FuelLoop

/-- Memory with the accesses made so far. -/
structure Trace where
  /-- The whole address space. -/
  mem : Mem
  /-- Ranges read from the file, start and length. -/
  reads : List (Word×ℕ)
  /-- Addresses written. -/
  writes : List Word

/-- Record ranges that are read. -/
def Trace.note (tr : Trace) (ranges : List (Word×ℕ)) : Trace := {tr with reads := ranges++tr.reads}

/-- First address of user space. -/
abbrev userSpaceStart : Word := 0x08000000

/-- First address behind user space. -/
abbrev userSpaceEnd : Word := 0xC0000000

/-- First address of kernel space. -/
abbrev kernelSpaceStart : Word := 0xC0000000

/-- The magic number of an ELF file. -/
abbrev elfMagic : Word := 0x464C457F

/-- Size of struct elf32_ehdr. -/
abbrev ehdrSize : Word := 52

/-- Size of struct elf32_phdr. -/
abbrev phdrSize : ℕ := 32

/-- The type of a loadable segment. -/
abbrev ptLoad : Word := 1

/-- Field e_magic. -/
def eMagic (m : Mem) (data : Word) : Word := load32 m data

/-- Field e_class. -/
def eClass (m : Mem) (data : Word) : Byte := m (data+4)

/-- Field e_data. -/
def eData (m : Mem) (data : Word) : Byte := m (data+5)

/-- Field e_type. -/
def eType (m : Mem) (data : Word) : Half := load16 m (data+16)

/-- Field e_machine. -/
def eMachine (m : Mem) (data : Word) : Half := load16 m (data+18)

/-- Field e_entry. -/
def eEntry (m : Mem) (data : Word) : Word := load32 m (data+24)

/-- Field e_phoff. -/
def ePhoff (m : Mem) (data : Word) : Word := load32 m (data+28)

/-- Field e_phentsize. -/
def ePhentsize (m : Mem) (data : Word) : Half := load16 m (data+42)

/-- Field e_phnum. -/
def ePhnum (m : Mem) (data : Word) : Half := load16 m (data+44)

/-- Offset of a program header from the data pointer. -/
def phOffset (m : Mem) (data : Word) (i : ℕ) : Word :=
  ePhoff m data+BitVec.ofNat 32 (i*(ePhentsize m data).toNat)

/-- Address of a program header. -/
def phAddr (m : Mem) (data : Word) (i : ℕ) : Word := data+phOffset m data i

/-- Field p_type. -/
def pType (m : Mem) (ph : Word) : Word := load32 m ph

/-- Field p_offset. -/
def pOffset (m : Mem) (ph : Word) : Word := load32 m (ph+4)

/-- Field p_vaddr. -/
def pVaddr (m : Mem) (ph : Word) : Word := load32 m (ph+8)

/-- Field p_filesz. -/
def pFilesz (m : Mem) (ph : Word) : Word := load32 m (ph+16)

/-- Field p_memsz. -/
def pMemsz (m : Mem) (ph : Word) : Word := load32 m (ph+20)

/-- elf_validate. -/
def elfValidate (m : Mem) (data size : Word) : ℤ :=
  if size<ehdrSize then -1
  else if eMagic m data≠elfMagic then -1
  else if eClass m data≠1 then -1
  else if eData m data≠1 then -1
  else if eType m data≠2 then -1
  else if eMachine m data≠3 then -1
  else 0

/-- validate_load_addr. -/
def validateLoadAddr (addr size : Word) : Bool :=
  if addr=0 then false
  else if addr<userSpaceStart then false
  else if userSpaceEnd<addr+size then false
  else if kernelSpaceStart≤addr then false
  else true

/-- The test of the overlap check for one earlier header. -/
def overlapsWith (m : Mem) (ph prev : Word) : Bool :=
  pType m prev==ptLoad &&
    (decide (pVaddr m prev≤pVaddr m ph ∧ pVaddr m ph<pVaddr m prev+pMemsz m prev) ||
      decide (pVaddr m ph≤pVaddr m prev ∧ pVaddr m prev<pVaddr m ph+pMemsz m ph))

/-- The overlap check over earlier headers, with the headers it reads. -/
def overlapScan (m : Mem) (data ph : Word) : List ℕ→List (Word×ℕ)×Bool
  | [] => ([],false)
  | j::js =>
    let prev := phAddr m data j
    if overlapsWith m ph prev then ([(prev,phdrSize)],true)
    else
      let rest := overlapScan m data ph js
      ((prev,phdrSize)::rest.1,rest.2)

/-- One byte copied from the file. -/
def Trace.copyByte (tr : Trace) (dest src : Word) : Trace :=
  ⟨store8 tr.mem dest (tr.mem src),(src,1)::tr.reads,dest::tr.writes⟩

/-- One byte cleared. -/
def Trace.zeroByte (tr : Trace) (dest : Word) : Trace :=
  ⟨store8 tr.mem dest 0,tr.reads,dest::tr.writes⟩

/-- One turn of the copy loop; p_filesz is read again. -/
def copyTurn (ph dest src : Word) (state : Word×Trace) : Turn (Word×Trace) Trace :=
  if state.1<pFilesz state.2.mem ph then
    .again (state.1+1,state.2.copyByte (dest+state.1) (src+state.1))
  else .done state.2

/-- One turn of the clearing loop; p_memsz is read again. -/
def zeroTurn (ph dest : Word) (state : Word×Trace) : Turn (Word×Trace) Trace :=
  if state.1<pMemsz state.2.mem ph then .again (state.1+1,state.2.zeroByte (dest+state.1))
  else .done state.2

/-- Both loops of a segment. -/
def copySegment (data ph : Word) (tr : Trace) : Option Trace :=
  let dest := pVaddr tr.mem ph
  let src := data+pOffset tr.mem ph
  (runLoop (copyTurn ph dest src) (2^32) (0,tr)).bind fun tr =>
    runLoop (zeroTurn ph dest) (2^32) (pFilesz tr.mem ph,tr)

/-- The loop over the program headers, from header i on. -/
def loadHeaders (data size : Word) : ℕ→ℕ→Trace→Option (Trace×Word)
  | 0,_,_ => none
  | fuel+1,i,tr =>
    if i<(ePhnum tr.mem data).toNat then
      let ph := phAddr tr.mem data i
      let tr := tr.note [(ph,phdrSize)]
      if pType tr.mem ph≠ptLoad then loadHeaders data size fuel (i+1) tr
      else if size<pOffset tr.mem ph+pFilesz tr.mem ph then some (tr,0)
      else if pVaddr tr.mem ph=0 ∨ pMemsz tr.mem ph=0 then loadHeaders data size fuel (i+1) tr
      else if !validateLoadAddr (pVaddr tr.mem ph) (pMemsz tr.mem ph) then some (tr,0)
      else
        let scan := overlapScan tr.mem data ph (List.range i)
        let tr := tr.note scan.1
        if scan.2 then some (tr,0)
        else (copySegment data ph tr).bind (loadHeaders data size fuel (i+1))
    else some (tr,eEntry tr.mem data)

/-- elf_load, with the accesses it made. A file that is too short for the ELF
header is not read at all. -/
def elfLoad (m : Mem) (data size : Word) : Option (Trace×Word) :=
  let tr : Trace := ⟨m,if size<ehdrSize then [] else [(data,52)],[]⟩
  if elfValidate m data size≠0 then some (tr,0)
  else if ePhoff m data=0 ∨ ePhnum m data=0 then some (tr,0)
  else if 16<ePhnum m data then some (tr,0)
  else loadHeaders data size (2^16) 0 tr

end EronKernel.ElfModel

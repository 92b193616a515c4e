import EronKernel.BoundedText
import EronKernel.VfsModel
import Mathlib.Data.Nat.Digits.Defs

/-!
# The read functions of the proc files

kernel.c gives three nodes under /proc a read function that writes a fresh
report into the caller's buffer. The texts are put together by str_append and
num_append, which keep a position and stop one byte before the end of the
buffer. What the processor, the heap and the timer say is an arbitrary value
here; it may differ from one read to the next. A report is delivered up to the
last byte but one of the buffer, whatever its size.
-/

namespace EronKernel.ProcFiles

open ByteMemory CString BoundedText VfsModel

/-- The registers that cpuid fills. -/
structure Cpuid where
  /-- Register eax. -/
  eax : Word
  /-- Register ebx. -/
  ebx : Word
  /-- Register ecx. -/
  ecx : Word
  /-- Register edx. -/
  edx : Word

/-- What the read functions find out about the machine. -/
structure Machine where
  /-- cpuid for a leaf. -/
  cpuid : Word→Cpuid
  /-- mm_total. -/
  mmTotal : Word
  /-- mm_used. -/
  mmUsed : Word
  /-- mm_free. -/
  mmFree : Word
  /-- timer_seconds. -/
  timerSeconds : Word

/-- The read functions that vfs_populate registers. -/
inductive ProcFile where
  /-- proc_cpuinfo_read. -/
  | cpuinfo
  /-- proc_meminfo_read. -/
  | meminfo
  /-- proc_uptime_read. -/
  | uptime
  deriving DecidableEq,Repr

/-- A buffer and the position behind the text in it. -/
structure Text where
  /-- The buffer. -/
  buf : Buf
  /-- The next position. -/
  pos : ℕ

/-- str_append: bytes while the position is in front of the last one, then a
terminator. -/
def strAppend (max : ℕ) : Text→List Byte→Text
  | t,[] => {t with buf := Function.update t.buf t.pos 0}
  | t,b::s =>
    if t.pos < max-1 then strAppend max ⟨Function.update t.buf t.pos b,t.pos+1⟩ s
    else {t with buf := Function.update t.buf t.pos 0}

/-- The digits that num_append collects, most significant first. -/
def decimal (val : ℕ) : List Byte :=
  if val=0 then [0x30]
  else ((Nat.digits 10 val).map fun d => BitVec.ofNat 8 (0x30+d)).reverse

/-- num_append; its copy loop has the same test as that of str_append. -/
def numAppend (max : ℕ) (t : Text) (val : ℕ) : Text := strAppend max t (decimal val)

/-- str_append of a literal. -/
def litAppend (max : ℕ) (t : Text) (text : String) : Text := strAppend max t (ascii text)

/-- The bytes of a register in memory. -/
def wordBytes (w : Word) : List Byte :=
  [w.extractLsb' 0 8,w.extractLsb' 8 8,w.extractLsb' 16 8,w.extractLsb' 24 8]

/-- The vendor string of leaf zero. -/
def vendor (c : Cpuid) : CStr := .ofBytes (wordBytes c.ebx++wordBytes c.edx++wordBytes c.ecx)

/-- Append the name of a feature when its bit is set. -/
def flagAppend (max : ℕ) (edx : Word) (t : Text) (flag : ℕ×String) : Text :=
  if edx.getLsbD flag.1 then litAppend max t flag.2 else t

/-- The features that proc_cpuinfo_read looks at. -/
def cpuFlags : List (ℕ×String) :=
  [(0,"fpu "),(4,"tsc "),(23,"mmx "),(25,"sse "),(26,"sse2 ")]

/-- proc_cpuinfo_read. -/
def procCpuinfoRead (mach : Machine) (buf : Buf) (size : Word) : Text :=
  let max := size.toNat
  let c := mach.cpuid 1
  let t := litAppend max ⟨buf,0⟩ "processor : 0\nvendor    : "
  let t := strAppend max t (vendor (mach.cpuid 0)).bytes
  let t := litAppend max t "\nfamily    : "
  let t := numAppend max t ((c.eax>>>8)&&&0xF).toNat
  let t := litAppend max t "\nmodel     : "
  let t := numAppend max t ((c.eax>>>4)&&&0xF).toNat
  let t := litAppend max t "\nstepping  : "
  let t := numAppend max t (c.eax&&&0xF).toNat
  let t := litAppend max t "\nflags     : "
  cpuFlags.foldl (flagAppend max c.edx) t

/-- proc_meminfo_read. -/
def procMeminfoRead (mach : Machine) (buf : Buf) (size : Word) : Text :=
  let max := size.toNat
  let t := litAppend max ⟨buf,0⟩ "HeapTotal : "
  let t := numAppend max t (mach.mmTotal.toNat/1024)
  let t := litAppend max t " kB\nHeapUsed  : "
  let t := numAppend max t (mach.mmUsed.toNat/1024)
  let t := litAppend max t " kB\nHeapFree  : "
  let t := numAppend max t (mach.mmFree.toNat/1024)
  litAppend max t " kB\nStack     : 16 kB"

/-- proc_uptime_read. -/
def procUptimeRead (mach : Machine) (buf : Buf) (size : Word) : Text :=
  let max := size.toNat
  litAppend max (numAppend max ⟨buf,0⟩ mach.timerSeconds.toNat) " seconds"

/-- What a read function returns, and the buffer afterwards. -/
def procCall (mach : Machine) (f : ProcFile) (buf : Buf) (size : Word) : ℤ×Buf :=
  let t := match f with
    | .cpuinfo => procCpuinfoRead mach buf size
    | .meminfo => procMeminfoRead mach buf size
    | .uptime => procUptimeRead mach buf size
  (t.pos,t.buf)

/-- The digits of a number are not NUL. -/
theorem zero_notMem_decimal (val : ℕ) : (0 : Byte)∉decimal val := by
  unfold decimal
  split_ifs with hz
  · decide
  · rw [List.mem_reverse,List.mem_map]
    rintro ⟨d,hd,he⟩
    have hlt : d<10 := Nat.digits_lt_base (by decide) hd
    have hv := congrArg BitVec.toNat he
    rw [BitVec.toNat_ofNat,Nat.mod_eq_of_lt (by omega)] at hv
    change 0x30+d=0 at hv
    omega

/-- A text stands at the start of a buffer with room for a terminator, and the
bytes behind the buffer's end are those of another buffer. -/
structure Carries (b : Buf) (max : ℕ) (text : List Byte) (out : Buf) : Prop where
  /-- The text ends in front of the last byte. -/
  fits : text.length< max
  /-- The bytes of the text. -/
  bytes : ∀ k (h : k<text.length),out k=text[k]
  /-- The bytes behind the buffer. -/
  outside : ∀ k,max ≤ k→ out k=b k

/-- A buffer as a read leaves it: a text and its terminator. -/
structure Delivered (b : Buf) (max : ℕ) (text : List Byte) (out : Buf) : Prop extends
    Carries b max text out where
  /-- The terminator. -/
  terminated : out text.length=0

/-- Storing a byte inside the buffer and behind the text. -/
theorem Carries.update {b : Buf} {max : ℕ} {text : List Byte} {out : Buf} (h : Carries b max text out)
    (c : Byte) : Carries b max text (Function.update out text.length c) where
  fits := h.fits
  bytes k hk := by
    rw [Function.update_of_ne (Nat.ne_of_lt hk)]
    exact h.bytes k hk
  outside k hk := by
    have hfits := h.fits
    rw [Function.update_of_ne (by omega)]
    exact h.outside k hk

/-- A byte stored right behind the text belongs to it. -/
theorem Carries.push {b : Buf} {max : ℕ} {text : List Byte} {out : Buf} (h : Carries b max text out)
    (hroom : text.length< max-1) (c : Byte) :
    Carries b max (text++[c]) (Function.update out text.length c) where
  fits := by
    rw [List.length_append,List.length_singleton]
    omega
  bytes k hk := by
    rw [List.length_append,List.length_singleton] at hk
    by_cases he : k=text.length
    · subst he
      rw [Function.update_self,List.getElem_concat_length rfl]
    · rw [List.getElem_append_left (by omega)]
      exact (h.update c).bytes k (by omega)
  outside := (h.update c).outside

/-- The position of a report is behind its text. -/
structure Holding (b : Buf) (max : ℕ) (text : List Byte) (t : Text) : Prop where
  /-- The position. -/
  pos : t.pos=text.length
  /-- The buffer. -/
  carries : Carries b max text t.buf

/-- str_append adds what fits to the text and terminates it. -/
theorem strAppend_holding {b : Buf} {max : ℕ} (s : List Byte) :
    ∀ {text : List Byte} {t : Text},Holding b max text t→
      (strAppend max t s).pos=(addWithin (max-1) text s).length ∧
        Delivered b max (addWithin (max-1) text s) (strAppend max t s).buf := by
  induction s with
  | nil =>
    intro text t h
    have hfits := h.carries.fits
    rw [addWithin_nil (by omega)]
    unfold strAppend
    dsimp only
    rw [h.pos]
    exact ⟨rfl,h.carries.update 0,Function.update_self _ _ _⟩
  | cons c s ih =>
    intro text t h
    have hfits := h.carries.fits
    unfold strAppend
    rw [h.pos]
    split_ifs with hroom
    · rw [addWithin_cons]
      refine ih ⟨?_,h.carries.push hroom c⟩
      rw [List.length_append,List.length_singleton]
    · rw [addWithin_of_full (by omega)]
      exact ⟨rfl,h.carries.update 0,Function.update_self _ _ _⟩

/-- A report of several pieces. -/
theorem foldl_strAppend_delivers {b : Buf} {max : ℕ} (parts : List (List Byte)) :
    ∀ {text : List Byte} {t : Text},t.pos=text.length→Delivered b max text t.buf→
      (parts.foldl (strAppend max) t).pos=(addWithin (max-1) text parts.flatten).length ∧
        Delivered b max (addWithin (max-1) text parts.flatten) (parts.foldl (strAppend max) t).buf := by
  induction parts with
  | nil =>
    intro text t hpos h
    have hfits := h.fits
    rw [List.flatten_nil,addWithin_nil (by omega)]
    exact ⟨hpos,h⟩
  | cons part parts ih =>
    intro text t hpos h
    obtain ⟨hpos',h'⟩ := strAppend_holding part ⟨hpos,h.toCarries⟩
    rw [List.flatten_cons,←addWithin_addWithin]
    exact ih hpos' h'

/-- The pieces of a report in order. -/
def reportParts (mach : Machine) : ProcFile→List (List Byte)
  | .cpuinfo =>
    let c := mach.cpuid 1
    ascii "processor : 0\nvendor    : "::(vendor (mach.cpuid 0)).bytes::
      ascii "\nfamily    : "::decimal ((c.eax>>>8)&&&0xF).toNat::
      ascii "\nmodel     : "::decimal ((c.eax>>>4)&&&0xF).toNat::
      ascii "\nstepping  : "::decimal (c.eax&&&0xF).toNat::
      ascii "\nflags     : "::(cpuFlags.filter fun f => c.edx.getLsbD f.1).map fun f => ascii f.2
  | .meminfo =>
    [ascii "HeapTotal : ",decimal (mach.mmTotal.toNat/1024),
      ascii " kB\nHeapUsed  : ",decimal (mach.mmUsed.toNat/1024),
      ascii " kB\nHeapFree  : ",decimal (mach.mmFree.toNat/1024),ascii " kB\nStack     : 16 kB"]
  | .uptime => [decimal mach.timerSeconds.toNat,ascii " seconds"]

/-- The features are pieces of the report. -/
theorem foldl_flagAppend (max : ℕ) (edx : Word) (flags : List (ℕ×String)) :
    ∀ t : Text,flags.foldl (flagAppend max edx) t=
      ((flags.filter fun f => edx.getLsbD f.1).map fun f => ascii f.2).foldl (strAppend max) t := by
  intro t
  rw [List.foldl_map,List.foldl_filter]
  rfl

/-- Every read function appends the pieces of its report. -/
theorem procCall_eq_parts (mach : Machine) (f : ProcFile) (buf : Buf) (size : Word) :
    procCall mach f buf size=
      ((((reportParts mach f).foldl (strAppend size.toNat) ⟨buf,0⟩).pos : ℤ),
        ((reportParts mach f).foldl (strAppend size.toNat) ⟨buf,0⟩).buf) := by
  cases f with
  | cpuinfo =>
    unfold procCall procCpuinfoRead
    dsimp only
    rw [foldl_flagAppend]
    rfl
  | meminfo => rfl
  | uptime => rfl

/-- A report has at least one piece. -/
theorem reportParts_ne_nil (mach : Machine) (f : ProcFile) : reportParts mach f≠[] := by
  cases f <;> exact List.cons_ne_nil _ _

/-- The whole report. -/
def report (mach : Machine) (f : ProcFile) : List Byte := (reportParts mach f).flatten

/-- No piece of a report has a NUL. -/
theorem zero_notMem_reportParts (mach : Machine) (f : ProcFile) :
    ∀ part∈reportParts mach f,(0 : Byte)∉part := by
  cases f with
  | cpuinfo =>
    have hflags : ∀ f∈cpuFlags,(0 : Byte)∉ascii f.2 := by decide
    unfold reportParts
    simp only [List.forall_mem_cons]
    refine ⟨by decide,(vendor _).nonzero,by decide,zero_notMem_decimal _,by decide,
      zero_notMem_decimal _,by decide,zero_notMem_decimal _,by decide,?_⟩
    intro part hpart
    obtain ⟨f,hf,rfl⟩ := List.mem_map.mp hpart
    exact hflags f (List.mem_of_mem_filter hf)
  | meminfo =>
    unfold reportParts
    simp only [List.forall_mem_cons]
    exact ⟨by decide,zero_notMem_decimal _,by decide,zero_notMem_decimal _,by decide,
      zero_notMem_decimal _,by decide,List.forall_mem_nil _⟩
  | uptime =>
    unfold reportParts
    simp only [List.forall_mem_cons]
    exact ⟨zero_notMem_decimal _,by decide,List.forall_mem_nil _⟩

/-- A report has no NUL. -/
theorem zero_notMem_report (mach : Machine) (f : ProcFile) : (0 : Byte)∉report mach f := by
  intro hmem
  obtain ⟨part,hpart,hzero⟩ := List.mem_flatten.mp hmem
  exact zero_notMem_reportParts mach f part hpart hzero

/-- A read function delivers the start of its report. -/
theorem procCall_delivers (mach : Machine) (f : ProcFile) (buf : Buf) {size : Word} (hsize : size≠0) :
    ∃ out,procCall mach f buf size=((((report mach f).take (size.toNat-1)).length : ℤ),out) ∧
      Delivered buf size.toNat ((report mach f).take (size.toNat-1)) out := by
  have hpos : 0<size.toNat := Nat.pos_of_ne_zero fun he => hsize (BitVec.eq_of_toNat_eq he)
  have hstart : Holding buf size.toNat [] ⟨buf,0⟩ :=
    ⟨rfl,⟨hpos,fun k hk => absurd hk (Nat.not_lt_zero k),fun _ _ => rfl⟩⟩
  obtain ⟨part,parts,hparts⟩ := List.exists_cons_of_ne_nil (reportParts_ne_nil mach f)
  obtain ⟨hfirst,hdelivered⟩ := strAppend_holding part hstart
  obtain ⟨hend,htext⟩ := foldl_strAppend_delivers parts hfirst hdelivered
  rw [addWithin_addWithin,←List.flatten_cons,←hparts] at hend htext
  rw [procCall_eq_parts,hparts,List.foldl_cons,hend]
  exact ⟨_,rfl,htext⟩

/-- A text without NUL that was delivered. -/
theorem Delivered.nonzero {b : Buf} {max : ℕ} {text : List Byte} {out : Buf} (h : Delivered b max text out)
    (h0 : (0 : Byte)∉text) : ∀ k<text.length,out k≠0 := by
  intro k hk
  rw [h.bytes k hk]
  exact fun he => h0 (he▸List.getElem_mem hk)

/-- Every read function writes a text without NUL that fits the buffer. -/
theorem procCall_ok (mach : Machine) (f : ProcFile) (buf : Buf) {size : Word} (hsize : size≠0) :
    ∃ n : ℕ,(procCall mach f buf size).1=n ∧ n<size.toNat ∧
      ∀ k<n,(procCall mach f buf size).2 k≠0 := by
  obtain ⟨out,hrun,hout⟩ := procCall_delivers mach f buf hsize
  rw [hrun]
  exact ⟨_,rfl,hout.fits,hout.nonzero fun hmem => zero_notMem_report mach f (List.mem_of_mem_take hmem)⟩

end EronKernel.ProcFiles

import EronKernel.ByteMemory
import Mathlib.Data.List.TakeWhile

/-!
# NUL-terminated strings and fixed byte arrays

A C string argument is the list of its bytes up to the terminator. A fixed
array of bytes holds a string in its prefix up to the first NUL; copying a
string into an array overwrites that prefix and the terminator and leaves the
remaining bytes as they were.
-/

namespace EronKernel.CString

open ByteMemory

/-- The bytes of a C string in front of its terminator. -/
@[ext] structure CStr where
  /-- The bytes in order. -/
  bytes : List Byte
  /-- The terminator ends the string, so it is not among the bytes. -/
  nonzero : (0 : Byte)∉bytes

/-- Strings are equal when their bytes are. -/
instance : DecidableEq CStr := fun a b => decidable_of_iff (a.bytes=b.bytes) CStr.ext_iff.symm

/-- An array of bytes of fixed length. -/
abbrev Row (n : ℕ) := Fin n→Byte

/-- The string an array holds: its bytes in front of the first NUL. -/
def rowString {n : ℕ} (r : Row n) : List Byte := (List.ofFn r).takeWhile fun b => b≠0

/-- Write bytes and a terminator over the start of an array. -/
def copyRow {n : ℕ} (dst : Row n) (src : List Byte) : Row n :=
  fun i => if h : i.val<src.length then src[i.val] else if i.val=src.length then 0 else dst i

/-- An array's string has no NUL. -/
theorem zero_notMem_rowString {n : ℕ} (r : Row n) : (0 : Byte)∉rowString r := by
  intro h
  have hp := List.mem_takeWhile_imp h
  simp at hp

/-- The string an array holds, as a string value. -/
def rowStr {n : ℕ} (r : Row n) : CStr := ⟨rowString r,zero_notMem_rowString r⟩

/-- A byte of an array's string is the byte of the array at that place. -/
theorem getElem_rowStr {n : ℕ} (r : Row n) {k : ℕ} (hk : k<(rowStr r).bytes.length) (hn : k<n) :
    (rowStr r).bytes[k]=r ⟨k,hn⟩ := by
  have hp : (rowStr r).bytes<+:List.ofFn r := List.takeWhile_prefix _
  rw [hp.getElem hk,List.getElem_ofFn]

/-- The string that a run of bytes starts with. -/
def CStr.ofBytes (bytes : List Byte) : CStr :=
  ⟨bytes.takeWhile fun b => b≠0,fun h => by simpa using List.mem_takeWhile_imp h⟩

/-- The bytes of a character sequence in the source. -/
def ascii (text : String) : List Byte := text.toList.map fun c => BitVec.ofNat 8 c.toNat

/-- A string literal of the source. -/
def CStr.lit (text : String) : CStr := .ofBytes (ascii text)

/-- Bytes without NUL are a whole string. -/
theorem CStr.ofBytes_bytes {bytes : List Byte} (h0 : (0 : Byte)∉bytes) :
    (CStr.ofBytes bytes).bytes=bytes := by
  unfold CStr.ofBytes
  rw [List.takeWhile_eq_self_iff]
  intro b hb
  have hne : b≠0 := fun he => h0 (he▸hb)
  simpa using hne

/-- The empty string. -/
def CStr.empty : CStr := ⟨[],List.not_mem_nil⟩

/-- The first bytes of a string. -/
def CStr.take (s : CStr) (n : ℕ) : CStr := ⟨s.bytes.take n,fun h => s.nonzero (List.mem_of_mem_take h)⟩

/-- A string is what its own bytes start with. -/
theorem CStr.ofBytes_self (s : CStr) : CStr.ofBytes s.bytes=s :=
  CStr.ext (CStr.ofBytes_bytes s.nonzero)

/-- A short enough string is not cut. -/
theorem CStr.take_of_length_le {s : CStr} {n : ℕ} (h : s.bytes.length≤n) : s.take n=s :=
  CStr.ext (List.take_of_length_le h)

/-- A copied array starts with the copied bytes and the terminator. -/
theorem ofFn_copyRow {n : ℕ} (dst : Row n) {src : List Byte} (hl : src.length<n) :
    List.ofFn (copyRow dst src)=src++0::(List.ofFn dst).drop (src.length+1) := by
  apply List.ext_getElem
  · simp only [List.length_ofFn,List.length_append,List.length_cons,List.length_drop]
    omega
  · intro i hi hj
    rw [List.getElem_ofFn]
    unfold copyRow
    by_cases hs : i<src.length
    · simp only [dif_pos hs,List.getElem_append_left hs]
    · by_cases he : i=src.length
      · subst he
        simp
      · obtain ⟨k,rfl⟩ : ∃ k,i=src.length+(k+1) := ⟨i-src.length-1,by omega⟩
        rw [List.getElem_append_right (by omega)]
        simp [Nat.add_assoc,Nat.add_comm 1 k]

/-- Nothing behind a terminator belongs to the string in front of it. -/
theorem takeWhile_terminated (src rest : List Byte) :
    (src++0::rest).takeWhile (fun b => b≠0)=src.takeWhile fun b => b≠0 := by
  induction src with
  | nil => simp
  | cons b src ih => rw [List.cons_append,List.takeWhile_cons,List.takeWhile_cons,ih]

/-- What is copied with its terminator is read back up to its first NUL. -/
theorem rowStr_copyRow {n : ℕ} (dst : Row n) {src : List Byte} (hl : src.length<n) :
    rowStr (copyRow dst src)=.ofBytes src := by
  apply CStr.ext
  change (List.ofFn (copyRow dst src)).takeWhile _=src.takeWhile _
  rw [ofFn_copyRow dst hl,takeWhile_terminated]

end EronKernel.CString

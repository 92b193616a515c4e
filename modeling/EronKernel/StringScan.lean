import EronKernel.CString
import EronKernel.FuelLoop
import Mathlib.Data.List.GetD

/-!
# Scanning memory for a terminator

A string argument is an address; its bytes are whatever lies between that
address and the next NUL. The scan visits addresses upwards and wraps, so it
has seen all of memory after 2^32 turns and a scan that is not over by then
never ends: an absent value is a loop that does not return.
-/

namespace EronKernel.StringScan

open ByteMemory CString FuelLoop

/-- One turn of a scan: stop at a NUL, else look at the next offset. -/
def scanTurn (m : Mem) (a : Word) (n : ℕ) : Turn ℕ ℕ :=
  if m (a+BitVec.ofNat 32 n)=0 then .done n else .again (n+1)

/-- Distance from an address to the first NUL at or behind it. -/
def scanLength (m : Mem) (a : Word) : Option ℕ := runLoop (scanTurn m a) (2^32) 0

/-- The bytes of a wrapped range in order. -/
def bytesAt (m : Mem) (a : Word) (n : ℕ) : List Byte :=
  (List.range n).map fun i => m (a+BitVec.ofNat 32 i)

/-- The string at an address; no value when memory has no NUL. -/
def stringAt (m : Mem) (a : Word) : Option CStr :=
  (scanLength m a).map fun n => .ofBytes (bytesAt m a n)

/-- Memory holds exactly this string and its terminator from the address on. -/
structure HoldsString (m : Mem) (a : Word) (s : CStr) : Prop where
  /-- The string does not come round to its own start. -/
  length_lt : s.bytes.length<2^32
  /-- Its bytes lie in order. -/
  bytes : ∀ i (h : i<s.bytes.length),m (a+BitVec.ofNat 32 i)=s.bytes[i]
  /-- The terminator follows. -/
  terminated : m (a+BitVec.ofNat 32 s.bytes.length)=0

/-- A range has as many bytes as asked for. -/
@[simp] theorem length_bytesAt (m : Mem) (a : Word) (n : ℕ) : (bytesAt m a n).length=n := by
  simp [bytesAt]

/-- Each byte is the one at its offset. -/
@[simp] theorem getElem_bytesAt (m : Mem) (a : Word) (n i : ℕ) (h : i<(bytesAt m a n).length) :
    (bytesAt m a n)[i]=m (a+BitVec.ofNat 32 i) := by
  simp [bytesAt]

/-- Offsets in front of a NUL are passed over. -/
theorem runLoop_scanTurn {m : Mem} {a : Word} {n : ℕ}
    (hn : ∀ k<n,m (a+BitVec.ofNat 32 k)≠0) (fuel : ℕ) :
    runLoop (scanTurn m a) (fuel+n) 0=runLoop (scanTurn m a) fuel n :=
  runLoop_iterate (fun k => k) n (fun k hk => if_neg (hn k hk)) fuel

/-- The scan stops at the first NUL. -/
theorem scanLength_eq_some {m : Mem} {a : Word} {n : ℕ} (hlt : n<2^32)
    (hn : ∀ k<n,m (a+BitVec.ofNat 32 k)≠0) (h0 : m (a+BitVec.ofNat 32 n)=0) :
    scanLength m a=some n := by
  obtain ⟨rest,hrest⟩ : ∃ rest,2^32=rest+1+n := ⟨2^32-1-n,by omega⟩
  have hd : scanTurn m a n=.done n := if_pos h0
  rw [scanLength,hrest,runLoop_scanTurn hn,runLoop_done rest hd]

/-- A memory without NUL is scanned for ever. -/
theorem scanLength_eq_none {m : Mem} (a : Word) (hm : ∀ x,m x≠0) : scanLength m a=none := by
  have h := runLoop_scanTurn (fun k (_ : k<2^32) => hm (a+BitVec.ofNat 32 k)) 0
  rw [Nat.zero_add] at h
  exact h

/-- Bytes that are not NUL contain no NUL. -/
theorem zero_notMem_bytesAt {m : Mem} {a : Word} {n : ℕ}
    (hn : ∀ k<n,m (a+BitVec.ofNat 32 k)≠0) : (0 : Byte)∉bytesAt m a n := by
  intro h
  obtain ⟨k,hk,h0⟩ := List.mem_map.mp h
  exact hn k (List.mem_range.mp hk) h0

/-- A string that memory holds has no NUL in front of its terminator. -/
theorem HoldsString.nonzero {m : Mem} {a : Word} {s : CStr} (h : HoldsString m a s) :
    ∀ k<s.bytes.length,m (a+BitVec.ofNat 32 k)≠0 := by
  intro k hk h0
  rw [h.bytes k hk] at h0
  exact s.nonzero (h0▸List.getElem_mem hk)

/-- The scan finds exactly the string that memory holds. -/
theorem HoldsString.stringAt_eq {m : Mem} {a : Word} {s : CStr} (h : HoldsString m a s) :
    stringAt m a=some s := by
  have hb : bytesAt m a s.bytes.length=s.bytes := by
    apply List.ext_getElem (length_bytesAt _ _ _)
    intro i hi hj
    rw [getElem_bytesAt,h.bytes i hj]
  rw [stringAt,scanLength_eq_some h.length_lt h.nonzero h.terminated,Option.map_some,hb,
    CStr.ofBytes_self]

/-- Either memory has no NUL, or the scan returns the string it holds. -/
theorem stringAt_cases (m : Mem) (a : Word) :
    ((∀ x,m x≠0) ∧ stringAt m a=none) ∨ ∃ s,HoldsString m a s ∧ stringAt m a=some s := by
  by_cases hm : ∀ x,m x≠0
  · exact Or.inl ⟨hm,by rw [stringAt,scanLength_eq_none a hm,Option.map_none]⟩
  · push Not at hm
    obtain ⟨x,hx⟩ := hm
    have hex : ∃ n,m (a+BitVec.ofNat 32 n)=0 := ⟨(x-a).toNat,by
      rw [BitVec.ofNat_toNat,BitVec.setWidth_eq,show a+(x-a)=x by bv_omega]
      exact hx⟩
    have hle : Nat.find hex≤(x-a).toNat := Nat.find_min' hex (by
      rw [BitVec.ofNat_toNat,BitVec.setWidth_eq,show a+(x-a)=x by bv_omega]
      exact hx)
    have hn : ∀ k<Nat.find hex,m (a+BitVec.ofNat 32 k)≠0 := fun k hk => Nat.find_min hex hk
    have hz := zero_notMem_bytesAt hn
    have hs : HoldsString m a ⟨bytesAt m a (Nat.find hex),hz⟩ := by
      refine ⟨?_,fun i hi => (getElem_bytesAt m a _ i hi).symm,?_⟩
      · rw [length_bytesAt]
        exact lt_of_le_of_lt hle (x-a).isLt
      · rw [length_bytesAt]
        exact Nat.find_spec hex
    exact Or.inr ⟨_,hs,hs.stringAt_eq⟩

/-- Bytes in front of the first NUL start the string. -/
theorem HoldsString.bytesAt_prefix {m : Mem} {a : Word} {s : CStr} (h : HoldsString m a s) {n : ℕ}
    (hn : ∀ k<n,m (a+BitVec.ofNat 32 k)≠0) : bytesAt m a n<+:s.bytes := by
  have hle : n ≤ s.bytes.length := by
    by_contra hlt
    exact hn _ (by omega) h.terminated
  rw [List.prefix_iff_eq_take]
  apply List.ext_getElem
  · rw [length_bytesAt,List.length_take]
    omega
  · intro i hi hj
    rw [length_bytesAt] at hi
    rw [getElem_bytesAt,h.bytes i (by omega),List.getElem_take]

/-- A string is also held by any memory that agrees on it and its terminator. -/
theorem HoldsString.congr {m n : Mem} {a : Word} {s : CStr} (h : HoldsString m a s)
    (he : ∀ k ≤ s.bytes.length,n (a+BitVec.ofNat 32 k)=m (a+BitVec.ofNat 32 k)) :
    HoldsString n a s where
  length_lt := h.length_lt
  bytes i hi := (he i hi.le).trans (h.bytes i hi)
  terminated := (he _ le_rfl).trans h.terminated

/-- A known NUL bounds the string. -/
theorem HoldsString.length_le {m : Mem} {a : Word} {s : CStr} (h : HoldsString m a s) {n : ℕ}
    (h0 : m (a+BitVec.ofNat 32 n)=0) : s.bytes.length≤n := by
  by_contra hlt
  exact h.nonzero n (by omega) h0

/-- An offset that stays below the top of memory does not wrap. -/
theorem toNat_offset {a : Word} {k : ℕ} (hk : a.toNat+k<2^32) :
    (a+BitVec.ofNat 32 k).toNat=a.toNat+k := by
  rw [BitVec.toNat_add,BitVec.toNat_ofNat,Nat.mod_eq_of_lt (a := k) (by omega),Nat.mod_eq_of_lt hk]

/-- Equal bytes in memory are equal lists. -/
theorem bytesAt_congr {m n : Mem} {a : Word} {len : ℕ}
    (h : ∀ k<len,n (a+BitVec.ofNat 32 k)=m (a+BitVec.ofNat 32 k)) : bytesAt n a len=bytesAt m a len :=
  List.map_congr_left fun k hk => h k (List.mem_range.mp hk)

/-- The memory that goes on with other bytes, and then NULs, at an address. -/
def continueAt (m : Mem) (e : Word) (t : List Byte) : Mem :=
  fun x => if x<e then m x else t.getD (x.toNat-e.toNat) 0

/-- A string that is not over at an address goes on with the bytes put there. -/
theorem holdsString_continueAt {m : Mem} {a e : Word} (hae : a≤e)
    (hn : ∀ k<e.toNat-a.toNat,m (a+BitVec.ofNat 32 k)≠0) {t : List Byte} (ht : (0 : Byte)∉t)
    (hlen : e.toNat+t.length<2^32) :
    ∃ s : CStr,s.bytes=bytesAt m a (e.toNat-a.toNat)++t ∧ HoldsString (continueAt m e t) a s := by
  have hle : a.toNat≤e.toNat := hae
  have hz : (0 : Byte)∉bytesAt m a (e.toNat-a.toNat)++t := by
    rw [List.mem_append]
    exact not_or.mpr ⟨zero_notMem_bytesAt hn,ht⟩
  refine ⟨⟨_,hz⟩,rfl,⟨?_,?_,?_⟩⟩
  · rw [List.length_append,length_bytesAt]
    omega
  · intro i hi
    dsimp only at hi ⊢
    rw [List.length_append,length_bytesAt] at hi
    have hi' := @toNat_offset a i (by omega)
    unfold continueAt
    by_cases hlow : i<e.toNat-a.toNat
    · rw [if_pos (by rw [BitVec.lt_def,hi']; omega),
        List.getElem_append_left (by rw [length_bytesAt]; exact hlow),getElem_bytesAt]
    · have hoff : (a+BitVec.ofNat 32 i).toNat-e.toNat=i-(e.toNat-a.toNat) := by omega
      rw [if_neg (by rw [BitVec.lt_def,hi']; omega),
        List.getElem_append_right (by rw [length_bytesAt]; omega),hoff,
        List.getD_eq_getElem _ _ (by omega)]
      simp only [length_bytesAt]
  · dsimp only
    rw [List.length_append,length_bytesAt]
    have hi' := @toNat_offset a (e.toNat-a.toNat+t.length) (by omega)
    unfold continueAt
    rw [if_neg (by rw [BitVec.lt_def,hi']; omega),hi',List.getD_eq_default _ _ (by omega)]

end EronKernel.StringScan

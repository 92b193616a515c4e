import Mathlib.Tactic

/-!
# Flat byte memory of a 32-bit machine

Memory is a total function from 32-bit addresses to bytes, so every address
computation wraps exactly as the machine's does. Words and halfwords are
little-endian. Each store comes with the value it can be read back as and
with the addresses it leaves alone; ranges are measured from their first
address by wrapped subtraction, so a range may cross the top of memory.
-/

namespace EronKernel.ByteMemory

/-- One byte. -/
abbrev Byte := BitVec 8

/-- One 16-bit halfword. -/
abbrev Half := BitVec 16

/-- One 32-bit machine word; also an address. -/
abbrev Word := BitVec 32

/-- The whole address space. -/
abbrev Mem := Word→Byte

/-- Little-endian halfword at an arbitrary address. -/
def load16 (m : Mem) (a : Word) : Half :=
  BitVec.ofNat 16 ((m a).toNat+256*(m (a+1)).toNat)

/-- Little-endian word at an arbitrary address. -/
def load32 (m : Mem) (a : Word) : Word :=
  BitVec.ofNat 32 ((m a).toNat+256*(m (a+1)).toNat+65536*(m (a+2)).toNat+
    16777216*(m (a+3)).toNat)

/-- Store one byte. -/
def store8 (m : Mem) (a : Word) (b : Byte) : Mem := Function.update m a b

/-- Byte number k of a word, counted from the least significant one. -/
def byteOf (v : Word) (k : ℕ) : Byte := BitVec.ofNat 8 (v.toNat/256^k)

/-- Store the four bytes of a word, least significant first. -/
def store32 (m : Mem) (a v : Word) : Mem :=
  store8 (store8 (store8 (store8 m a (byteOf v 0)) (a+1) (byteOf v 1))
    (a+2) (byteOf v 2)) (a+3) (byteOf v 3)

/-- Store words one behind the other. -/
def storeWords (m : Mem) (a : Word) : List Word→Mem
  | [] => m
  | w::ws => storeWords (store32 m a w) (a+4) ws

/-- Membership in the wrapped range of n bytes from a. -/
def InRange (a : Word) (n : ℕ) (x : Word) : Prop := (x-a).toNat<n

/-- The stored byte is read back. -/
@[simp] theorem store8_same (m : Mem) (a : Word) (b : Byte) : store8 m a b a=b :=
  Function.update_self _ _ _

/-- Every other byte is left alone. -/
theorem store8_of_ne {m : Mem} {a x : Word} (b : Byte) (hx : x≠a) :
    store8 m a b x=m x :=
  Function.update_of_ne hx _ _

/-- Four of the machine's addresses are never equal to their successors. -/
theorem word_offsets_distinct (a : Word) :
    a≠a+1 ∧ a≠a+2 ∧ a≠a+3 ∧ a+1≠a+2 ∧ a+1≠a+3 ∧ a+2≠a+3 := by
  refine ⟨?_,?_,?_,?_,?_,?_⟩ <;> bv_omega

/-- The four bytes written by a word store. -/
theorem store32_bytes (m : Mem) (a v : Word) :
    store32 m a v a=byteOf v 0 ∧ store32 m a v (a+1)=byteOf v 1 ∧
      store32 m a v (a+2)=byteOf v 2 ∧ store32 m a v (a+3)=byteOf v 3 := by
  obtain ⟨h01,h02,h03,h12,h13,h23⟩ := word_offsets_distinct a
  unfold store32
  refine ⟨?_,?_,?_,store8_same _ _ _⟩
  · rw [store8_of_ne _ h03,store8_of_ne _ h02,store8_of_ne _ h01,store8_same]
  · rw [store8_of_ne _ h13,store8_of_ne _ h12,store8_same]
  · rw [store8_of_ne _ h23,store8_same]

/-- A stored word is read back unchanged. -/
@[simp] theorem load32_store32 (m : Mem) (a v : Word) : load32 (store32 m a v) a=v := by
  obtain ⟨h0,h1,h2,h3⟩ := store32_bytes m a v
  unfold load32
  rw [h0,h1,h2,h3]
  apply BitVec.eq_of_toNat_eq
  simp only [byteOf,BitVec.toNat_ofNat]
  omega

/-- A word store leaves every address outside its four bytes alone. -/
theorem store32_of_not_inRange {m : Mem} {a x : Word} (v : Word) (hx : ¬InRange a 4 x) :
    store32 m a v x=m x := by
  unfold InRange at hx
  unfold store32
  rw [store8_of_ne,store8_of_ne,store8_of_ne,store8_of_ne] <;> bv_omega

/-- A word is determined by its four bytes. -/
theorem load32_congr {m n : Mem} {a : Word} (h : ∀ x,InRange a 4 x→m x=n x) :
    load32 m a=load32 n a := by
  unfold load32
  rw [h a (by unfold InRange; bv_omega),h (a+1) (by unfold InRange; bv_omega),
    h (a+2) (by unfold InRange; bv_omega),h (a+3) (by unfold InRange; bv_omega)]

/-- A word is not disturbed by a word store at a distance of four or more. -/
theorem load32_store32_of_apart {m : Mem} {a b : Word} (v : Word)
    (hab : 4≤(a-b).toNat) (hba : 4≤(b-a).toNat) :
    load32 (store32 m b v) a=load32 m a := by
  apply load32_congr
  intro x hx
  apply store32_of_not_inRange
  unfold InRange at *
  bv_omega

/-- A word is not disturbed by a byte store outside its four bytes. -/
theorem load32_store8_of_apart {m : Mem} {a b : Word} (v : Byte) (hb : ¬InRange a 4 b) :
    load32 (store8 m b v) a=load32 m a := by
  apply load32_congr
  intro x hx
  apply store8_of_ne
  rintro rfl
  exact hb hx

/-- An address at a distance below the size of memory determines the
distance. -/
theorem offset_injective {a : Word} {k l : ℕ} (hk : k<2^32) (hl : l<2^32)
    (h : a+BitVec.ofNat 32 k=a+BitVec.ofNat 32 l) : k=l := by
  bv_omega

/-- The addresses of a range by their distance from its first one. -/
theorem inRange_iff {a x : Word} {n : ℕ} (hn : n≤2^32) :
    InRange a n x ↔ ∃ k<n,x=a+BitVec.ofNat 32 k := by
  unfold InRange
  constructor
  · intro h
    refine ⟨(x-a).toNat,h,?_⟩
    rw [BitVec.ofNat_toNat,BitVec.setWidth_eq]
    bv_omega
  · rintro ⟨k,hk,rfl⟩
    have he : a+BitVec.ofNat 32 k-a=BitVec.ofNat 32 k := by bv_omega
    rw [he,BitVec.toNat_ofNat,Nat.mod_eq_of_lt (by omega)]
    exact hk

/-- A byte read after a word was stored is one of the word, or it is the byte
that was there. -/
theorem store32_cases (m : Mem) (a v x : Word) :
    (∃ k<4,x=a+BitVec.ofNat 32 k ∧ store32 m a v x=byteOf v k) ∨ store32 m a v x=m x := by
  by_cases hx : InRange a 4 x
  · obtain ⟨k,hk,rfl⟩ := (inRange_iff (by decide)).mp hx
    refine Or.inl ⟨k,hk,rfl,?_⟩
    obtain ⟨h0,h1,h2,h3⟩ := store32_bytes m a v
    match k,hk with
    | 0,_ =>
      rw [BitVec.add_zero]
      exact h0
    | 1,_ => exact h1
    | 2,_ => exact h2
    | 3,_ => exact h3
  · exact Or.inr (store32_of_not_inRange v hx)

/-- Stored words leave every address outside their range alone. -/
theorem storeWords_of_not_inRange (ws : List Word) :
    ∀ {m : Mem} {a x : Word},4*ws.length≤2^32→¬InRange a (4*ws.length) x→storeWords m a ws x=m x := by
  induction ws with
  | nil => exact fun _ _ => rfl
  | cons w ws ih =>
    intro m a x hn hx
    simp only [List.length_cons] at hn hx
    unfold InRange at hx
    have htail : ¬InRange (a+4) (4*ws.length) x := by
      unfold InRange
      bv_omega
    have hhead : ¬InRange a 4 x := by
      unfold InRange
      omega
    rw [storeWords,ih (by omega) htail,store32_of_not_inRange w hhead]

/-- A stored word is read back at its place. -/
theorem load32_storeWords (ws : List Word) :
    ∀ {m : Mem} {a : Word} {i : ℕ} (hi : i<ws.length),4*ws.length≤2^32→
      load32 (storeWords m a ws) (a+BitVec.ofNat 32 (4*i))=ws[i] := by
  induction ws with
  | nil => exact fun hi _ => absurd hi (Nat.not_lt_zero _)
  | cons w ws ih =>
    intro m a i hi hn
    simp only [List.length_cons] at hi hn
    rw [storeWords]
    cases i with
    | zero =>
      have hzero : a+BitVec.ofNat 32 (4*0)=a := by bv_omega
      rw [hzero,List.getElem_cons_zero]
      refine Eq.trans (load32_congr fun x hx => ?_) (load32_store32 m a w)
      refine storeWords_of_not_inRange ws (by omega) ?_
      unfold InRange at *
      bv_omega
    | succ i =>
      have hnext : a+BitVec.ofNat 32 (4*(i+1))=a+4+BitVec.ofNat 32 (4*i) := by bv_omega
      rw [hnext,ih (by omega) (by omega),List.getElem_cons_succ]

end EronKernel.ByteMemory

import EronKernel.ByteMemory

/-!
# Tables of words in flat memory

A table is a run of 1024 words, one page of 4096 bytes, at some address.
Writing one word changes no other word of the table and no byte outside it,
and tables whose pages do not meet are independent of each other. The address
of a page leaves twelve bits for a tag; the tag and the address are recovered
from their union by masks.
-/

namespace EronKernel.WordTable

open ByteMemory

/-- Word number i of the table at an address. -/
def wordAt (m : Mem) (a : Word) (i : ℕ) : Word := load32 m (a+BitVec.ofNat 32 (4*i))

/-- Write word number i of the table at an address. -/
def setWord (m : Mem) (a : Word) (i : ℕ) (v : Word) : Mem := store32 m (a+BitVec.ofNat 32 (4*i)) v

/-- Write several words of a table, one after the other. -/
def setWords (m : Mem) (a : Word) (f : ℕ→Word) (is : List ℕ) : Mem :=
  is.foldl (fun m i => setWord m a i (f i)) m

/-- The address lies in the table. -/
def InTable (a x : Word) : Prop := a.toNat≤x.toNat ∧ x.toNat<a.toNat+4096

/-- The table does not run past the top of memory. -/
def Fits (a : Word) : Prop := a.toNat+4096≤2^32

/-- The pages of two tables do not meet. -/
def Apart (a b : Word) : Prop := a.toNat+4096≤b.toNat ∨ b.toNat+4096≤a.toNat

/-- The address is that of a page. -/
def Aligned (a : Word) : Prop := a.toNat%4096=0

instance (a : Word) : Decidable (Aligned a) := inferInstanceAs (Decidable (_=_))

/-- A written word is read back. -/
@[simp] theorem wordAt_setWord_same (m : Mem) (a : Word) (i : ℕ) (v : Word) :
    wordAt (setWord m a i v) a i=v := load32_store32 _ _ _

/-- Other words of the table are left alone. -/
theorem wordAt_setWord_of_ne {m : Mem} {a : Word} {i j : ℕ} (v : Word) (hi : i<1024) (hj : j<1024)
    (hij : i≠j) : wordAt (setWord m a i v) a j=wordAt m a j := by
  apply load32_store32_of_apart
  · bv_omega
  · bv_omega

/-- Bytes outside the table are left alone. -/
theorem setWord_of_not_inTable {m : Mem} {a x : Word} {i : ℕ} (v : Word) (ha : Fits a) (hi : i<1024)
    (hx : ¬InTable a x) : setWord m a i v x=m x := by
  apply store32_of_not_inRange
  unfold InTable at hx
  unfold Fits at ha
  unfold InRange
  bv_omega

/-- A word is determined by the bytes of its table. -/
theorem wordAt_congr {m n : Mem} {a : Word} {i : ℕ} (ha : Fits a) (hi : i<1024)
    (h : ∀ x,InTable a x→ n x=m x) : wordAt n a i=wordAt m a i := by
  apply load32_congr
  intro x hx
  apply h
  unfold InRange at hx
  unfold Fits at ha
  unfold InTable
  bv_omega

/-- No address lies in two tables that are apart. -/
theorem Apart.not_inTable {a b x : Word} (h : Apart a b) (hx : InTable b x) : ¬InTable a x := by
  unfold Apart at h
  unfold InTable at *
  omega

/-- Writing a table leaves a table apart from it alone. -/
theorem wordAt_setWord_of_apart {m : Mem} {a b : Word} {i j : ℕ} (v : Word) (ha : Fits a) (hb : Fits b)
    (hi : i<1024) (hj : j<1024) (hab : Apart a b) : wordAt (setWord m a i v) b j=wordAt m b j :=
  wordAt_congr hb hj fun _ hx => setWord_of_not_inTable v ha hi (hab.not_inTable hx)

/-- The relation is symmetric. -/
theorem Apart.symm {a b : Word} (h : Apart a b) : Apart b a := Or.symm h

/-- Different pages do not meet. -/
theorem apart_of_aligned {a b : Word} (ha : Aligned a) (hb : Aligned b) (hab : a≠b) : Apart a b := by
  unfold Aligned at ha hb
  unfold Apart
  have hne : a.toNat≠b.toNat := fun he => hab (BitVec.eq_of_toNat_eq he)
  omega

/-- A page fits into memory. -/
theorem Aligned.fits {a : Word} (ha : Aligned a) : Fits a := by
  unfold Aligned at ha
  unfold Fits
  have hlt := a.isLt
  omega

/-- Writing several words changes no byte outside the table. -/
theorem setWords_of_not_inTable {a x : Word} (f : ℕ→Word) (ha : Fits a) (hx : ¬InTable a x)
    (is : List ℕ) (m : Mem) (his : ∀ i∈is,i<1024) : setWords m a f is x=m x := by
  induction is generalizing m with
  | nil => rfl
  | cons i is ih =>
    change setWords (setWord m a i (f i)) a f is x=_
    rw [ih _ fun j hj => his j (List.mem_cons_of_mem i hj),
      setWord_of_not_inTable _ ha (his i List.mem_cons_self) hx]

/-- Writing several words leaves the others alone. -/
theorem wordAt_setWords_of_notMem {a : Word} (f : ℕ→Word) {j : ℕ} (hj : j<1024) (is : List ℕ) (m : Mem)
    (his : ∀ i∈is,i<1024) (hnot : j∉is) : wordAt (setWords m a f is) a j=wordAt m a j := by
  induction is generalizing m with
  | nil => rfl
  | cons i is ih =>
    change wordAt (setWords (setWord m a i (f i)) a f is) a j=_
    rw [ih _ (fun k hk => his k (List.mem_cons_of_mem i hk)) fun hk => hnot (List.mem_cons_of_mem i hk),
      wordAt_setWord_of_ne _ (his i List.mem_cons_self) hj fun he => hnot (he ▸ List.mem_cons_self)]

/-- Writing several words by one rule leaves every written word as the rule
says. -/
theorem wordAt_setWords_of_mem {a : Word} (f : ℕ→Word) {j : ℕ} (hj : j<1024) (is : List ℕ) (m : Mem)
    (his : ∀ i∈is,i<1024) (hmem : j∈is) : wordAt (setWords m a f is) a j=f j := by
  induction is generalizing m with
  | nil => cases hmem
  | cons i is ih =>
    change wordAt (setWords (setWord m a i (f i)) a f is) a j=_
    have hrest : ∀ k∈is,k<1024 := fun k hk => his k (List.mem_cons_of_mem i hk)
    by_cases hin : j∈is
    · exact ih _ hrest hin
    · obtain rfl|hin' := List.mem_cons.mp hmem
      · rw [wordAt_setWords_of_notMem f hj is _ hrest hin,wordAt_setWord_same]
      · exact absurd hin' hin

/-- The mask that clears the tag. -/
abbrev addressMask : Word := 0xFFFFF000

/-- The mask that keeps the tag. -/
abbrev tagMask : Word := 0xFFF

/-- Keeping the tag is the remainder. -/
theorem toNat_and_tagMask (x : Word) : (x&&&tagMask).toNat=x.toNat%4096 := by
  rw [BitVec.toNat_and]
  exact Nat.and_two_pow_sub_one_eq_mod x.toNat 12

/-- The two masks split a word. -/
theorem and_masks_add (x : Word) : (x&&&addressMask).toNat+(x&&&tagMask).toNat=x.toNat := by
  have hzero : (x&&&addressMask)&&&(x&&&tagMask)=0 := by
    have hmasks : addressMask&&&tagMask=0 := by decide
    calc (x&&&addressMask)&&&(x&&&tagMask)=(x&&&x)&&&(addressMask&&&tagMask) := by ac_rfl
      _=0 := by rw [hmasks]; exact BitVec.and_zero
  have hor : (x&&&addressMask)|||(x&&&tagMask)=x := by
    have hmasks : addressMask|||tagMask=BitVec.allOnes 32 := by decide
    rw [←BitVec.and_or_distrib_left,hmasks,BitVec.and_allOnes]
  have hsum : (x&&&addressMask)+(x&&&tagMask)=x := by
    rw [BitVec.add_eq_or_of_and_eq_zero _ _ hzero,hor]
  have hle : (x&&&addressMask).toNat≤0xFFFFF000 := by
    rw [BitVec.toNat_and]
    exact Nat.and_le_right
  have htag := toNat_and_tagMask x
  have hn := congrArg BitVec.toNat hsum
  rw [BitVec.toNat_add] at hn
  omega

/-- Clearing the tag rounds down to a page. -/
theorem toNat_and_addressMask (x : Word) : (x&&&addressMask).toNat=x.toNat/4096*4096 := by
  have hsplit := and_masks_add x
  rw [toNat_and_tagMask] at hsplit
  omega

/-- A page address and a tag are added by their union. -/
theorem toNat_or_tag {p t : Word} (hp : Aligned p) (ht : t.toNat<4096) :
    (p|||t).toNat=p.toNat+t.toNat := by
  unfold Aligned at hp
  rw [BitVec.toNat_or]
  have hadd := Nat.two_pow_add_eq_or_of_lt (i := 12) ht (p.toNat/4096)
  rw [show 2^12*(p.toNat/4096)=p.toNat by omega] at hadd
  exact hadd.symm

/-- Clearing the tag of a tagged page gives the page. -/
theorem or_tag_and_addressMask {p t : Word} (hp : Aligned p) (ht : t.toNat<4096) :
    (p|||t)&&&addressMask=p := by
  apply BitVec.eq_of_toNat_eq
  have hp' := hp
  unfold Aligned at hp'
  rw [toNat_and_addressMask,toNat_or_tag hp ht]
  omega

/-- Keeping the tag of a tagged page gives the tag. -/
theorem or_tag_and_tagMask {p t : Word} (hp : Aligned p) (ht : t.toNat<4096) :
    (p|||t)&&&tagMask=t := by
  apply BitVec.eq_of_toNat_eq
  have hp' := hp
  unfold Aligned at hp'
  rw [toNat_and_tagMask,toNat_or_tag hp ht]
  omega

end EronKernel.WordTable

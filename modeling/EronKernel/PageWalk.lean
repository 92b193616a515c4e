import EronKernel.WordTable

/-!
# Address translation of the processor

With paging on, an address is translated through two tables of entries: the
control register names the directory, the upper ten bits of the address an
entry of it, the middle ten bits an entry of the table that it leads to. Both
entries have to be present and have to permit the access. Large pages are off,
and write protection does not bind the supervisor. The tables are read at the
access: translations that the processor may have kept since the control register
was loaded are left out.
-/

namespace EronKernel.PageWalk

open ByteMemory WordTable

/-- The kind of an access. -/
structure Access where
  /-- It is made by user code. -/
  user : Bool
  /-- It writes. -/
  write : Bool

/-- An entry permits an access: it is present, user code needs its third bit,
and user code that writes needs its second one too. -/
def permits (a : Access) (entry : Word) : Bool :=
  entry.getLsbD 0 && (!a.user || (entry.getLsbD 2 && (!a.write || entry.getLsbD 1)))

/-- The translation of an address; no value is a page fault. -/
def translate (m : Mem) (cr3 : Word) (a : Access) (virt : Word) : Option Word :=
  let entry := wordAt m (cr3&&&addressMask) (virt.toNat/4194304)
  if permits a entry then
    let last := wordAt m (entry&&&addressMask) (virt.toNat/4096%1024)
    if permits a last then some ((last&&&addressMask)|||(virt&&&tagMask)) else none
  else none

/-- An entry with the three lowest bits set permits everything. -/
theorem permits_tagged (a : Access) (p : Word) : permits a (p|||7)=true := by
  have hbit : ∀ i<3,(7 : Word).getLsbD i=true := by decide
  unfold permits
  rw [BitVec.getLsbD_or,BitVec.getLsbD_or,BitVec.getLsbD_or,hbit 0 (by decide),hbit 1 (by decide),
    hbit 2 (by decide)]
  simp

/-- An absent entry permits nothing. -/
theorem permits_zero (a : Access) : permits a 0=false := by
  have hbit : (0 : Word).getLsbD 0=false := rfl
  unfold permits
  rw [hbit,Bool.false_and]

/-- An entry of a page address without the third bit permits user code
nothing. -/
theorem permits_supervisor {a : Access} (ha : a.user=true) {p : Word} (hp : Aligned p) :
    permits a (p|||3)=false := by
  have hbit : p.getLsbD 2=false := by
    unfold Aligned at hp
    rw [BitVec.getLsbD,Nat.testBit,Nat.shiftRight_eq_div_pow]
    have hzero : p.toNat/4%2=0 := by omega
    simp [hzero]
  unfold permits
  rw [BitVec.getLsbD_or,BitVec.getLsbD_or,BitVec.getLsbD_or,hbit,ha]
  simp

/-- Where the directory's entry is absent or denies the access, there is no
translation. -/
theorem translate_denied {m : Mem} {cr3 : Word} {a : Access} {virt : Word}
    (h : permits a (wordAt m (cr3&&&addressMask) (virt.toNat/4194304))=false) :
    translate m cr3 a virt=none := by
  unfold translate
  exact if_neg (by rw [h]; exact Bool.false_ne_true)

/-- Where the directory's entry permits everything, the table decides. -/
theorem translate_table {m : Mem} {cr3 p : Word} (hp : Aligned p) {virt : Word}
    (h : wordAt m (cr3&&&addressMask) (virt.toNat/4194304)=p|||7) (a : Access) :
    translate m cr3 a virt=
      if permits a (wordAt m p (virt.toNat/4096%1024)) then
        some ((wordAt m p (virt.toNat/4096%1024)&&&addressMask)|||(virt&&&tagMask)) else none := by
  unfold translate
  dsimp only
  rw [h,permits_tagged,or_tag_and_addressMask hp (by decide),if_pos rfl]

end EronKernel.PageWalk

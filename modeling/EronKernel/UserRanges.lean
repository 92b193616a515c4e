import EronKernel.ElfModel
import EronKernel.SyscallModel

/-!
# The two range checks of user space

validate_user_ptr of syscall.c and validate_load_addr of elf.c guard the same
range. Both add with wrapping sums; the first one looks whether its sum
wrapped, the second one does not, so a range that starts in user space and
goes over the top of memory passes the loader's check.
-/

namespace EronKernel.UserRanges

open ByteMemory

/-- The range lies in user space, without wrapping. -/
def InUserRange (addr size : Word) : Prop :=
  0x08000000≤addr.toNat ∧ addr.toNat+size.toNat≤0xC0000000

/-- Both checks accept the range exactly when it lies in user space. -/
def ValidatorsAgree (addr size : Word) : Prop :=
  (SyscallModel.validateUserPtr addr size=true ↔ ElfModel.validateLoadAddr addr size=true) ∧
    (ElfModel.validateLoadAddr addr size=true ↔ InUserRange addr size)

/-- The loader's check accepts the ranges that start in user space and whose
wrapped end lies there. -/
theorem validateLoadAddr_iff (addr size : Word) :
    ElfModel.validateLoadAddr addr size=true ↔ 0x08000000≤addr.toNat ∧ addr.toNat<0xC0000000 ∧
      (addr.toNat+size.toNat)%2^32≤0xC0000000 := by
  have hsum : (addr+size).toNat=(addr.toNat+size.toNat)%2^32 := BitVec.toNat_add addr size
  unfold ElfModel.validateLoadAddr ElfModel.userSpaceStart ElfModel.userSpaceEnd
    ElfModel.kernelSpaceStart
  split_ifs with hzero hlow hend hkernel
  · simp only [false_iff]
    bv_omega
  · simp only [false_iff]
    bv_omega
  · simp only [false_iff]
    rw [←hsum]
    bv_omega
  · simp only [false_iff]
    bv_omega
  · simp only [true_iff]
    rw [←hsum]
    bv_omega

/-- A range that starts in user space and goes over the top of memory ends
below its start, so the loader's check accepts it. -/
theorem validateLoadAddr_of_wraps {addr size : Word} (hlo : 0x08000000≤addr.toNat)
    (hhi : addr.toNat<0xC0000000) (hwrap : 2^32≤addr.toNat+size.toNat) :
    ElfModel.validateLoadAddr addr size=true := by
  have hsize := size.isLt
  have hmod : (addr.toNat+size.toNat)%2^32=addr.toNat+size.toNat-2^32 := by omega
  refine (validateLoadAddr_iff addr size).mpr ⟨hlo,hhi,?_⟩
  omega

/-- Every nonempty range is judged alike by both checks and as it should be,
unless it starts in user space and goes over the top of memory. -/
theorem validators_agree_iff {addr size : Word} (hsize : 1 ≤ size.toNat) :
    ValidatorsAgree addr size ↔
      addr.toNat<0x08000000 ∨ 0xC0000000≤addr.toNat ∨ addr.toNat+size.toNat<2^32 := by
  have haddr := addr.isLt
  have hlt := size.isLt
  unfold ValidatorsAgree
  rw [SyscallModel.validateUserPtr_iff]
  constructor
  · rintro ⟨_,hload⟩
    by_contra hcond
    have hin := hload.mp (validateLoadAddr_of_wraps (by omega) (by omega) (by omega))
    unfold InUserRange at hin
    omega
  · intro hcond
    have hload : ElfModel.validateLoadAddr addr size=true ↔ InUserRange addr size := by
      rw [validateLoadAddr_iff]
      unfold InUserRange
      obtain hlow|hhigh|hfits := hcond
      · omega
      · omega
      · rw [Nat.mod_eq_of_lt hfits]
        omega
    exact ⟨hload.symm,hload⟩

/-- A page at the start of user space is accepted by both. -/
theorem validators_agree_on_first_page : ValidatorsAgree 0x08000000 0x1000 :=
  (validators_agree_iff (by decide)).mpr (Or.inr (Or.inr (by decide)))

/-- A range from the start of user space over the top of memory is accepted by
the loader's check only. -/
theorem validators_disagree_on_wrapped_range :
    ¬ValidatorsAgree 0x08000000 0xF8000000 ∧
      ElfModel.validateLoadAddr 0x08000000 0xF8000000=true ∧
      SyscallModel.validateUserPtr 0x08000000 0xF8000000=false := by
  refine ⟨?_,by decide,by decide⟩
  rintro ⟨hagree,_⟩
  exact absurd (hagree.mpr (by decide)) (by decide)

end EronKernel.UserRanges

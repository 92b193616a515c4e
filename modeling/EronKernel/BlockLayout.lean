import EronKernel.BlockList

/-!
# A separated block list is what its used blocks make it

Where no two neighbouring blocks are free, the free blocks are the gaps that
the used ones leave. So two separated lists of the same extent with the same
placed used blocks are the same list.
-/

namespace EronKernel.BlockLayout

open BlockList

variable {header base : ℕ} {x y : Block} {xs ys : List Block}

/-- Two lists place the same used blocks. -/
def SameUsed (header base : ℕ) (xs ys : List Block) : Prop :=
  ∀ q,q∈usedPlaced header base xs ↔ q∈usedPlaced header base ys

/-- The other way round. -/
theorem SameUsed.symm (h : SameUsed header base xs ys) : SameUsed header base ys xs := fun q => (h q).symm

/-- Used blocks lie behind the base. -/
theorem base_le_of_usedPlaced {q : ℕ×Block} (hq : q∈usedPlaced header base xs) : base≤q.1 :=
  (placed_bounds (List.mem_filter.mp hq).1).1

/-- A placed used block is the first one, or is placed behind it. -/
theorem mem_usedPlaced_cons {q : ℕ×Block} :
    q∈usedPlaced header base (x::xs) ↔
      (x.used=true ∧ q=(base,x)) ∨ q∈usedPlaced header (base+header+x.size) xs := by
  rw [usedPlaced_cons,List.mem_append]
  cases x.used <;> simp

/-- A used block in front is in front of both lists. -/
theorem SameUsed.head_used (h : SameUsed header base (x::xs) (y::ys)) (hh : 0<header) (hx : x.used=true) :
    x=y := by
  have hmem := (h (base,x)).mp (mem_usedPlaced_cons.mpr (Or.inl ⟨hx,rfl⟩))
  obtain ⟨_,heq⟩|htail := mem_usedPlaced_cons.mp hmem
  · exact congrArg Prod.snd heq
  · have hle := base_le_of_usedPlaced htail
    dsimp only at hle
    omega

/-- A free block in front is not smaller than that of the other list: behind it
comes a used block, which the other list has at the same place. -/
theorem SameUsed.free_le (h : SameUsed header base (x::xs) (y::ys)) (hx : x.used=false) (hy : y.used=false)
    (hsep : Separated (x::xs)) (hext : extent header (x::xs)=extent header (y::ys)) : y.size≤x.size := by
  by_contra hlt
  rw [not_le] at hlt
  simp only [extent] at hext
  cases xs with
  | nil =>
    simp only [extent] at hext
    omega
  | cons z zs =>
    have hz : z.used=true := by
      rcases (List.isChain_cons_cons.mp hsep).1 with hused|hused
      · rw [hx] at hused
        cases hused
      · exact hused
    have hplaced : (base+header+x.size,z)∈usedPlaced header base (x::z::zs) :=
      mem_usedPlaced_cons.mpr (Or.inr (mem_usedPlaced_cons.mpr (Or.inl ⟨hz,rfl⟩)))
    obtain ⟨hused,_⟩|htail := mem_usedPlaced_cons.mp ((h _).mp hplaced)
    · rw [hy] at hused
      cases hused
    · have hle := base_le_of_usedPlaced htail
      dsimp only at hle
      omega

/-- Behind the same first block the lists place the same used blocks. -/
theorem SameUsed.tail (h : SameUsed header base (x::xs) (x::ys)) (hh : 0<header) :
    SameUsed header (base+header+x.size) xs ys := by
  have hone : ∀ {as bs : List Block},SameUsed header base (x::as) (x::bs)→∀ q,
      q∈usedPlaced header (base+header+x.size) as→ q∈usedPlaced header (base+header+x.size) bs := by
    intro as bs hsame q hq
    obtain ⟨_,heq⟩|htail := mem_usedPlaced_cons.mp ((hsame q).mp (mem_usedPlaced_cons.mpr (Or.inr hq)))
    · have hle := base_le_of_usedPlaced hq
      rw [heq] at hle
      dsimp only at hle
      omega
    · exact htail
  exact fun q => ⟨hone h q,hone h.symm q⟩

/-- Separated lists of one extent that place the same used blocks are equal. -/
theorem eq_of_sameUsed (hh : 0<header) (hxs : Separated xs) (hys : Separated ys)
    (hext : extent header xs=extent header ys) (h : SameUsed header base xs ys) : xs=ys := by
  induction xs generalizing ys base with
  | nil =>
    cases ys with
    | nil => rfl
    | cons y ys =>
      simp only [extent] at hext
      omega
  | cons x xs ih =>
    cases ys with
    | nil =>
      simp only [extent] at hext
      omega
    | cons y ys =>
      have hhead : x=y := by
        by_cases hx : x.used=true
        · exact h.head_used hh hx
        · by_cases hy : y.used=true
          · exact (h.symm.head_used hh hy).symm
          · rw [Bool.not_eq_true] at hx hy
            have hle := h.free_le hx hy hxs hext
            have hge := h.symm.free_le hy hx hys hext.symm
            obtain ⟨size,used⟩ := x
            obtain ⟨size',used'⟩ := y
            dsimp only at hx hy hle hge
            rw [hx,hy,le_antisymm hge hle]
      subst hhead
      simp only [extent] at hext
      have hxtail : Separated xs := hxs.tail
      have hytail : Separated ys := hys.tail
      rw [ih hxtail hytail (by omega) (h.tail hh)]

end EronKernel.BlockLayout

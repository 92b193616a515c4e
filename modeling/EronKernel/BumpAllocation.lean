import Mathlib.Data.List.Pairwise
import Mathlib.Algebra.Order.Group.Nat

/-!
# Allocation by a cursor

A cursor moves towards a limit. A request is rounded up and takes the space from
the cursor on, or is refused when the cursor would pass the limit. The blocks
follow each other, so they do not meet and stay in front of the limit.
-/

namespace EronKernel.BumpAllocation

variable {limit : ℕ} {round : ℕ→ℕ}

/-- The cursor behind a request. -/
def advance (limit : ℕ) (round : ℕ→ℕ) (pos n : ℕ) : ℕ := if pos+round n≤limit then pos+round n else pos

/-- The blocks that the requests are given, each with its start and the size
that was asked for. -/
def blocks (limit : ℕ) (round : ℕ→ℕ) : ℕ→List ℕ→List (ℕ×ℕ)
  | _,[] => []
  | pos,n::ns =>
    let rest := blocks limit round (advance limit round pos n) ns
    if pos+round n≤limit then (pos,n)::rest else rest

/-- The blocks of one more request. -/
theorem blocks_cons (limit : ℕ) (round : ℕ→ℕ) (pos n : ℕ) (ns : List ℕ) :
    blocks limit round pos (n::ns)=
      if pos+round n≤limit then (pos,n)::blocks limit round (advance limit round pos n) ns
      else blocks limit round (advance limit round pos n) ns := rfl

/-- The cursor does not move back. -/
theorem le_advance (limit : ℕ) (round : ℕ→ℕ) (pos n : ℕ) : pos≤advance limit round pos n := by
  unfold advance
  split_ifs <;> omega

/-- The blocks lie between the cursor and the limit. -/
theorem blocks_within (hround : ∀ n,n≤round n) (ns : List ℕ) :
    ∀ pos,∀ b∈blocks limit round pos ns,pos≤b.1 ∧ b.1+b.2≤limit := by
  induction ns with
  | nil => exact fun pos b hb => absurd hb List.not_mem_nil
  | cons n ns ih =>
    intro pos b hb
    have hle := le_advance limit round pos n
    rw [blocks_cons] at hb
    split_ifs at hb with hfits
    · obtain rfl|hb := List.mem_cons.mp hb
      · have hn := hround n
        exact ⟨Nat.le_refl _,by omega⟩
      · exact ⟨hle.trans (ih _ b hb).1,(ih _ b hb).2⟩
    · exact ⟨hle.trans (ih _ b hb).1,(ih _ b hb).2⟩

/-- Every block ends in front of the later ones. -/
theorem blocks_pairwise (hround : ∀ n,n≤round n) (ns : List ℕ) :
    ∀ pos,(blocks limit round pos ns).Pairwise fun a b => a.1+a.2≤b.1 := by
  induction ns with
  | nil => exact fun pos => List.Pairwise.nil
  | cons n ns ih =>
    intro pos
    rw [blocks_cons]
    split_ifs with hfits
    · refine List.Pairwise.cons ?_ (ih _)
      intro b hb
      have hstart := (blocks_within hround ns _ b hb).1
      have hn := hround n
      unfold advance at hstart
      rw [if_pos hfits] at hstart
      dsimp only
      omega
    · exact ih _

end EronKernel.BumpAllocation

import Mathlib.Data.List.OfFn
import Mathlib.Tactic

/-!
# Bounded accesses to fixed arrays

An access outside an array has no result, so a run that returns one has made
no such access. An array starts with a list when its first cells hold the
list's elements; a store right behind the list makes it longer by one. A loop
that stores one cell after the other, each read from elsewhere, has the cells
as a function of their index.
-/

namespace EronKernel.BoundedCells

variable {α : Type*} {n : ℕ}

/-- Store to a cell of the array. -/
def put (r : Fin n→α) (k : ℕ) (c : α) : Option (Fin n→α) :=
  if h : k<n then some (Function.update r ⟨k,h⟩ c) else none

/-- Read a cell of the array. -/
def get (r : Fin n→α) (k : ℕ) : Option α := if h : k<n then some (r ⟨k,h⟩) else none

/-- The first cells of the array hold a list. -/
def Starts (r : Fin n→α) (xs : List α) : Prop := ∀ k c,xs[k]?=some c→ get r k=some c

/-- Every array starts with the empty list. -/
theorem starts_nil (r : Fin n→α) : Starts r [] := by
  intro k c h
  cases h

/-- A store inside the array. -/
theorem put_of_lt (r : Fin n→α) {k : ℕ} (hk : k<n) (c : α) :
    put r k c=some (Function.update r ⟨k,hk⟩ c) := dif_pos hk

/-- What was stored is read back. -/
theorem get_update_self (r : Fin n→α) {k : ℕ} (hk : k<n) (c : α) :
    get (Function.update r ⟨k,hk⟩ c) k=some c := by
  unfold get
  rw [dif_pos hk,Function.update_self]

/-- A store leaves every other cell alone. -/
theorem get_update_of_ne (r : Fin n→α) {k l : ℕ} (hk : k<n) (c : α) (hne : l≠k) :
    get (Function.update r ⟨k,hk⟩ c) l=get r l := by
  unfold get
  split_ifs with hl
  · rw [Function.update_of_ne fun he => hne (congrArg Fin.val he)]
  · rfl

/-- A store right behind the list makes it longer by one element. -/
theorem Starts.push {r : Fin n→α} {xs : List α} (h : Starts r xs) (hroom : xs.length<n) (c : α) :
    ∃ r',put r xs.length c=some r' ∧ Starts r' (xs++[c]) := by
  refine ⟨_,put_of_lt r hroom c,?_⟩
  intro k d hd
  by_cases hk : k=xs.length
  · subst hk
    rw [List.getElem?_concat_length] at hd
    cases hd
    exact get_update_self r hroom c
  · rw [get_update_of_ne r hroom c hk]
    have hlt : k<(xs++[c]).length := (List.getElem?_eq_some_iff.mp hd).1
    rw [List.length_append,List.length_singleton] at hlt
    rw [List.getElem?_append_left (by omega)] at hd
    exact h k d hd

/-- Cells 0 to m-1 in order, each with a value that is read from elsewhere. -/
def copyLoop (read : ℕ→Option α) (m : ℕ) (buf : Fin n→α) : Option (Fin n→α) :=
  (List.range m).foldlM (fun b j => (read j).bind (put b j)) buf

/-- The cells after a loop whose reads and stores are all inside. -/
theorem copyLoop_eq {read : ℕ→Option α} {value : ℕ→α} (buf : Fin n→α) {m : ℕ} (hm : m ≤ n)
    (hread : ∀ j< m,read j=some (value j)) :
    copyLoop read m buf=some fun i => if i.val< m then value i.val else buf i := by
  induction m with
  | zero => rfl
  | succ m ih =>
    have hlt : m<n := hm
    have hrest := ih (by omega) fun j hj => hread j (by omega)
    unfold copyLoop at hrest ⊢
    rw [List.range_succ,List.foldlM_append,hrest]
    simp only [List.foldlM_cons,List.foldlM_nil,Option.pure_def,Option.bind_eq_bind,Option.bind_some,
      hread m (by omega),put_of_lt _ hlt]
    congr 1
    funext i
    by_cases hi : i=⟨m,hlt⟩
    · subst hi
      rw [Function.update_self,if_pos (Nat.lt_succ_self m)]
    · have hne : i.val≠m := fun he => hi (Fin.ext he)
      rw [Function.update_of_ne hi]
      exact ite_congr (by rw [eq_iff_iff]; omega) (fun _ => rfl) fun _ => rfl

end EronKernel.BoundedCells

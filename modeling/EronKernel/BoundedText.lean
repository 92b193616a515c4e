import Mathlib.Data.List.Basic

/-!
# Texts of limited length

A text grows by appending runs of items until a limit is reached; what does
not fit is dropped. However the items are cut into runs, the text is the start
of everything that was appended.
-/

namespace EronKernel.BoundedText

variable {α β : Type*}

/-- Append as many items as fit under the limit. -/
def addWithin (max : ℕ) (out xs : List α) : List α := (out++xs).take max

/-- A text stays under its limit. -/
theorem length_addWithin_le (max : ℕ) (out xs : List α) : (addWithin max out xs).length ≤ max :=
  List.length_take_le max (out++xs)

/-- Nothing is dropped when everything fits. -/
theorem addWithin_of_length_le {max : ℕ} {out xs : List α} (h : (out++xs).length ≤ max) :
    addWithin max out xs=out++xs :=
  List.take_of_length_le h

/-- Appending nothing. -/
theorem addWithin_nil {max : ℕ} {out : List α} (h : out.length ≤ max) : addWithin max out []=out := by
  rw [addWithin_of_length_le (by rwa [List.append_nil]),List.append_nil]

/-- A full text takes nothing more. -/
theorem addWithin_of_full {max : ℕ} {out : List α} (h : out.length=max) (xs : List α) :
    addWithin max out xs=out :=
  List.take_left' h

/-- A first item that fits. -/
theorem addWithin_cons (max : ℕ) (out : List α) (x : α) (xs : List α) :
    addWithin max out (x::xs)=addWithin max (out++[x]) xs := by
  unfold addWithin
  rw [List.append_assoc,List.singleton_append]

/-- Two runs one after the other are one run. -/
theorem addWithin_addWithin (max : ℕ) (out xs ys : List α) :
    addWithin max (addWithin max out xs) ys=addWithin max out (xs++ys) := by
  unfold addWithin
  rw [←List.append_assoc]
  by_cases hfull : (out++xs).length ≤ max
  · rw [List.take_of_length_le hfull]
  · have hlen : ((out++xs).take max).length=max := by
      rw [List.length_take]
      omega
    have hle : max ≤ (out++xs).length := Nat.le_of_not_le hfull
    rw [List.take_left' hlen]
    exact (List.take_append_of_le_length hle).symm

/-- Appending step by step is appending everything that the steps append. -/
theorem foldl_addWithin {max : ℕ} {f : List α→β→List α} {g : β→List α}
    (hf : ∀ out b,out.length ≤ max→ f out b=addWithin max out (g b)) (bs : List β) :
    ∀ {out : List α},out.length ≤ max→ bs.foldl f out=addWithin max out (bs.flatMap g) := by
  induction bs with
  | nil => exact fun h => (addWithin_nil h).symm
  | cons b bs ih =>
    intro out h
    rw [List.foldl_cons,hf out b h,ih (length_addWithin_le max out (g b)),addWithin_addWithin,
      List.flatMap_cons]

end EronKernel.BoundedText

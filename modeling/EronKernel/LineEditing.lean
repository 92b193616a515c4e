import Mathlib.Data.List.Infix
import Mathlib.Logic.Function.Basic

/-!
# Editing lines

Of a sequence of items, one kind ends the current line, one kind erases its
last item and all others are added to it. The ended lines only become more. The
current line may be kept in the first cells of an array.
-/

namespace EronKernel.LineEditing

variable {α : Type*}

/-- The lines that were ended and the current one. -/
structure Editor (α : Type*) where
  /-- The ended lines in order. -/
  lines : List (List α)
  /-- The current line. -/
  current : List α

/-- Nothing was edited. -/
def empty : Editor α := ⟨[],[]⟩

/-- One item. -/
def edit [DecidableEq α] (enter erase : α) (e : Editor α) (c : α) : Editor α :=
  if c=enter then ⟨e.lines++[e.current],[]⟩
  else if c=erase then {e with current := e.current.dropLast}
  else {e with current := e.current++[c]}

/-- Any number of items. -/
def edited [DecidableEq α] (enter erase : α) (items : List α) : Editor α :=
  items.foldl (edit enter erase) empty

/-- An item ends at most one line. -/
theorem lines_prefix_edit [DecidableEq α] (enter erase : α) (e : Editor α) (c : α) :
    e.lines<+:(edit enter erase e c).lines := by
  unfold edit
  split_ifs
  · exact List.prefix_append _ _
  · exact List.prefix_refl _
  · exact List.prefix_refl _

/-- Items in two parts. -/
theorem edited_append [DecidableEq α] (enter erase : α) (xs ys : List α) :
    edited enter erase (xs++ys)=ys.foldl (edit enter erase) (edited enter erase xs) :=
  List.foldl_append

/-- One more item. -/
theorem edited_snoc [DecidableEq α] (enter erase : α) (xs : List α) (c : α) :
    edited enter erase (xs++[c])=edit enter erase (edited enter erase xs) c :=
  edited_append enter erase xs [c]

/-- More items keep the lines that were ended. -/
theorem lines_prefix_foldl [DecidableEq α] (enter erase : α) (ys : List α) (e : Editor α) :
    e.lines<+:(ys.foldl (edit enter erase) e).lines := by
  induction ys generalizing e with
  | nil => exact List.prefix_refl _
  | cons y ys ih => exact (lines_prefix_edit enter erase e y).trans (ih _)

/-- What the first items end, all of them end. -/
theorem lines_prefix_of_prefix [DecidableEq α] (enter erase : α) {xs zs : List α} (h : xs<+:zs) :
    (edited enter erase xs).lines<+:(edited enter erase zs).lines := by
  obtain ⟨ys,rfl⟩ := h
  rw [edited_append]
  exact lines_prefix_foldl enter erase ys _

/-- The first cells of an array. -/
def cells (buf : ℕ→α) (n : ℕ) : List α := (List.range n).map buf

/-- Their number. -/
@[simp] theorem length_cells (buf : ℕ→α) (n : ℕ) : (cells buf n).length=n := by
  unfold cells
  rw [List.length_map,List.length_range]

/-- One more cell. -/
theorem cells_succ (buf : ℕ→α) (n : ℕ) : cells buf (n+1)=cells buf n++[buf n] := by
  unfold cells
  rw [List.range_succ,List.map_append]
  rfl

/-- More cells. -/
theorem cells_prefix (buf : ℕ→α) (n m : ℕ) : cells buf n<+:cells buf (n+m) := by
  unfold cells
  rw [List.range_add,List.map_append]
  exact List.prefix_append _ _

/-- A cell behind the first ones may be written. -/
theorem cells_update (buf : ℕ→α) (n : ℕ) (c : α) : cells (Function.update buf n c) n=cells buf n := by
  unfold cells
  refine List.map_congr_left fun i hi => ?_
  exact Function.update_of_ne (Nat.ne_of_lt (List.mem_range.mp hi)) c buf

/-- Writing the next cell adds an item. -/
theorem cells_push (buf : ℕ→α) (n : ℕ) (c : α) :
    cells (Function.update buf n c) (n+1)=cells buf n++[c] := by
  rw [cells_succ,cells_update,Function.update_self]

/-- Giving the last cell up erases an item. -/
theorem cells_pred (buf : ℕ→α) (n : ℕ) : cells buf (n-1)=(cells buf n).dropLast := by
  cases n with
  | zero => rfl
  | succ n =>
    rw [cells_succ,List.dropLast_concat]
    rfl

end EronKernel.LineEditing

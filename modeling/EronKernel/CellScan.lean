import Mathlib.Data.List.Basic
import Mathlib.Data.List.Forall2
import Mathlib.Data.List.TakeWhile

/-!
# Scans over the cells of an array

A loop that moves an index over the cells of an array while they satisfy a
test is a checked scan: it has no result when it would leave the array. A
string stands at an index when its items are in the cells from there on and a
terminator follows them. Cells may be overwritten in front of and behind the
scan without disturbing it.
-/

namespace EronKernel.CellScan

variable {α : Type*}

/-- How many of the first cells pass the test, if a cell that does not pass
follows them. -/
def scan (go : α→Bool) : List α→Option ℕ
  | [] => none
  | c::cells => if go c then (scan go cells).map fun n => n+1 else some 0

/-- The index of the first cell from another on that does not pass. -/
def scanFrom (go : α→Bool) (cells : List α) (p : ℕ) : Option ℕ :=
  (scan go (cells.drop p)).map fun n => p+n

/-- The scan stops behind the cells that pass. -/
theorem scan_append {go : α→Bool} {run : List α} (hrun : ∀ x∈run,go x=true) {c : α} (hc : go c=false)
    (rest : List α) : scan go (run++c::rest)=some run.length := by
  induction run with
  | nil =>
    rw [List.nil_append,scan,if_neg (by simp [hc])]
    rfl
  | cons x run ih =>
    have hx := hrun x List.mem_cons_self
    have htail := ih fun y hy => hrun y (List.mem_cons_of_mem x hy)
    rw [List.cons_append,scan,if_pos hx,htail]
    rfl

/-- A scan from behind some cells. -/
theorem scanFrom_append {go : α→Bool} (pre : List α) {run : List α} (hrun : ∀ x∈run,go x=true) {c : α}
    (hc : go c=false) (rest : List α) :
    scanFrom go (pre++(run++c::rest)) pre.length=some (pre.length+run.length) := by
  unfold scanFrom
  rw [List.drop_left,scan_append hrun hc]
  rfl

/-- The cell behind some cells. -/
theorem getElem?_append_cons (pre : List α) (c : α) (rest : List α) :
    (pre++c::rest)[pre.length]?=some c := by
  rw [List.getElem?_append_right (Nat.le_refl _),Nat.sub_self]
  rfl

/-- Overwriting the cell behind some cells. -/
theorem set_append_cons (pre : List α) (c d : α) (rest : List α) :
    (pre++c::rest).set pre.length d=pre++d::rest := by
  rw [List.set_append_right pre.length d (Nat.le_refl _),Nat.sub_self]
  rfl

/-- The cells from an index on up to a terminator. -/
def stringFrom [DecidableEq α] (stop : α) (cells : List α) (p : ℕ) : List α :=
  (cells.drop p).takeWhile fun x => x≠stop

/-- The string behind some cells. -/
theorem stringFrom_append [DecidableEq α] {stop : α} (pre : List α) {w : List α} (hw : stop∉w)
    (rest : List α) : stringFrom stop (pre++(w++stop::rest)) pre.length=w := by
  unfold stringFrom
  rw [List.drop_left,List.takeWhile_append_of_pos]
  · simp
  · intro x hx
    have hne : x≠stop := fun he => hw (he▸hx)
    simpa using hne

/-- The second list is the first with some of its items of one kind replaced. -/
def Replaced (old new : α) (xs ys : List α) : Prop :=
  List.Forall₂ (fun x y => y=x ∨ (x=old ∧ y=new)) xs ys

/-- Nothing is replaced. -/
theorem Replaced.refl (old new : α) (xs : List α) : Replaced old new xs xs :=
  List.forall₂_same.mpr fun _ _ => Or.inl rfl

/-- Replacements in two parts. -/
theorem Replaced.append {old new : α} {xs ys xs' ys' : List α} (h : Replaced old new xs ys)
    (h' : Replaced old new xs' ys') : Replaced old new (xs++xs') (ys++ys') :=
  List.rel_append h h'

/-- One item is replaced. -/
theorem Replaced.replace {old new : α} {xs ys : List α} (h : Replaced old new xs ys) :
    Replaced old new (old::xs) (new::ys) :=
  List.Forall₂.cons (Or.inr ⟨rfl,rfl⟩) h

/-- Replacing keeps the number of items. -/
theorem Replaced.length_eq {old new : α} {xs ys : List α} (h : Replaced old new xs ys) :
    ys.length=xs.length :=
  (List.Forall₂.length_eq h).symm

end EronKernel.CellScan

import Mathlib.Data.Nat.ModEq
import Mathlib.Logic.Function.Basic

/-!
# Ring buffers

A queue is kept in the cells of a ring. One index is the cell that is written
next and one the cell that is read next; the queue is empty when they are
equal, so one cell is always left free. The ring holds a list when the cells
from the one read next on are its elements.
-/

namespace EronKernel.RingQueue

variable {α : Type*}

/-- The cells and the two indices. -/
structure RingBuffer (α : Type*) where
  /-- The cells by index. -/
  buf : ℕ→α
  /-- The cell that is written next. -/
  head : ℕ
  /-- The cell that is read next. -/
  tail : ℕ

/-- The index after another in a ring of some cells. -/
def next (n i : ℕ) : ℕ := (i+1)%n

/-- Write one element. -/
def RingBuffer.push (n : ℕ) (r : RingBuffer α) (a : α) : RingBuffer α :=
  {r with buf := Function.update r.buf r.head a, head := next n r.head}

/-- Give one cell free. -/
def RingBuffer.pop (n : ℕ) (r : RingBuffer α) : RingBuffer α := {r with tail := next n r.tail}

/-- The ring holds a list. -/
structure Holds (n : ℕ) (r : RingBuffer α) (queue : List α) : Prop where
  /-- The cell read next is in the ring. -/
  tailLt : r.tail < n
  /-- One cell is left free. -/
  lengthLt : queue.length < n
  /-- The cell written next is behind the list. -/
  head : r.head=(r.tail+queue.length)%n
  /-- The cells are the elements in order. -/
  cells : ∀ k (h : k<queue.length),r.buf ((r.tail+k)%n)=queue[k]

/-- Offsets within one turn are told apart by their cells. -/
theorem offset_inj {n t k l : ℕ} (hk : k < n) (hl : l < n) (h : (t+k)%n=(t+l)%n) : k=l := by
  have hmod : k%n=l%n := Nat.ModEq.add_left_cancel' t h
  rwa [Nat.mod_eq_of_lt hk,Nat.mod_eq_of_lt hl] at hmod

/-- The index after an offset is the next offset. -/
theorem next_offset (n t k : ℕ) : next n ((t+k)%n)=(t+(k+1))%n := by
  unfold next
  rw [Nat.mod_add_mod,Nat.add_assoc]

/-- An empty ring holds the empty list. -/
theorem holds_nil {n : ℕ} {r : RingBuffer α} (hlt : r.tail < n) (h : r.head=r.tail) : Holds n r [] where
  tailLt := hlt
  lengthLt := Nat.zero_lt_of_lt hlt
  head := by
    rw [List.length_nil,Nat.add_zero,Nat.mod_eq_of_lt hlt]
    exact h
  cells k hk := absurd hk (Nat.not_lt_zero k)

/-- The ring is empty when the indices are equal. -/
theorem holds_empty_iff {n : ℕ} {r : RingBuffer α} {queue : List α} (h : Holds n r queue) :
    r.head=r.tail↔ queue=[] := by
  have htail : r.tail=(r.tail+0)%n := by
    rw [Nat.add_zero,Nat.mod_eq_of_lt h.tailLt]
  constructor
  · intro heq
    rw [h.head] at heq
    have hlength := offset_inj h.lengthLt (Nat.zero_lt_of_lt h.tailLt) (heq.trans htail)
    exact List.length_eq_zero_iff.1 hlength
  · intro hnil
    rw [h.head,hnil,List.length_nil]
    exact htail.symm

/-- The index after the cell written next is the cell read next when only one
cell is free. -/
theorem holds_full_iff {n : ℕ} {r : RingBuffer α} {queue : List α} (h : Holds n r queue) :
    next n r.head=r.tail↔ queue.length+1=n := by
  have hlength := h.lengthLt
  rw [h.head,next_offset]
  constructor
  · intro heq
    by_contra hne
    have htail : r.tail=(r.tail+0)%n := by
      rw [Nat.add_zero,Nat.mod_eq_of_lt h.tailLt]
    have hzero := offset_inj (by omega) (by omega) (heq.trans htail)
    omega
  · intro hfull
    rw [hfull,Nat.add_mod_right,Nat.mod_eq_of_lt h.tailLt]

/-- Writing an element appends it. -/
theorem holds_push {n : ℕ} {r : RingBuffer α} {queue : List α} (h : Holds n r queue)
    (hfree : next n r.head≠r.tail) (a : α) : Holds n (r.push n a) (queue++[a]) := by
  have hlength := h.lengthLt
  have hroom : queue.length+1≠n := fun hfull => hfree ((holds_full_iff h).2 hfull)
  refine ⟨h.tailLt,?_,?_,?_⟩
  · rw [List.length_append,List.length_singleton]
    omega
  · rw [List.length_append,List.length_singleton]
    show next n r.head=(r.tail+(queue.length+1))%n
    rw [h.head,next_offset]
  · intro k hk
    rw [List.length_append,List.length_singleton] at hk
    show Function.update r.buf r.head a ((r.tail+k)%n)=(queue++[a])[k]
    by_cases hlast : k=queue.length
    · subst hlast
      rw [h.head,Function.update_self,List.getElem_concat_length rfl]
    · have hold : k<queue.length := by omega
      have hne : (r.tail+k)%n≠r.head := by
        intro heq
        rw [h.head] at heq
        exact hlast (offset_inj (by omega) hlength heq)
      rw [Function.update_of_ne hne,List.getElem_append_left hold]
      exact h.cells k hold

/-- Only the cells of the list count. -/
theorem Holds.congr {n : ℕ} {r r' : RingBuffer α} {queue : List α} (h : Holds n r queue)
    (hhead : r'.head=r.head) (htail : r'.tail=r.tail)
    (hcells : ∀ k<queue.length,r'.buf ((r.tail+k)%n)=r.buf ((r.tail+k)%n)) : Holds n r' queue where
  tailLt := by
    rw [htail]
    exact h.tailLt
  lengthLt := h.lengthLt
  head := by
    rw [hhead,htail]
    exact h.head
  cells k hk := by
    rw [htail,hcells k hk]
    exact h.cells k hk

/-- The cell read next is the first element. -/
theorem holds_front {n : ℕ} {r : RingBuffer α} {a : α} {rest : List α} (h : Holds n r (a::rest)) :
    r.buf r.tail=a := by
  have hfirst := h.cells 0 (Nat.zero_lt_succ rest.length)
  rwa [Nat.add_zero,Nat.mod_eq_of_lt h.tailLt] at hfirst

/-- Giving the cell free removes the first element. -/
theorem holds_pop {n : ℕ} {r : RingBuffer α} {a : α} {rest : List α} (h : Holds n r (a::rest)) :
    Holds n (r.pop n) rest := by
  have hlength := h.lengthLt
  rw [List.length_cons] at hlength
  have hshift : ∀ k,(next n r.tail+k)%n=(r.tail+(k+1))%n := by
    intro k
    unfold next
    rw [Nat.mod_add_mod,Nat.add_assoc,Nat.add_comm 1 k]
  refine ⟨Nat.mod_lt _ (Nat.zero_lt_of_lt h.tailLt),by omega,?_,?_⟩
  · show r.head=(next n r.tail+rest.length)%n
    rw [hshift,h.head,List.length_cons]
  · intro k hk
    show r.buf ((next n r.tail+k)%n)=rest[k]
    rw [hshift]
    exact h.cells (k+1) (Nat.succ_lt_succ hk)

end EronKernel.RingQueue

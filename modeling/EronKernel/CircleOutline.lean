import EronKernel.FramebufferModel
import Mathlib.Logic.Function.Iterate

/-!
# The outline that fb_draw_circle plots

The loop adds to its error term when it moves to the left, where the distance
to the circle calls for a subtraction. So from the first move to the left on
it moves left in every turn, and the outline is a straight line down to the
diagonal. Up to a radius of six this line stays within one pixel of the
circle, from seven on it does not.
-/

namespace EronKernel.CircleOutline

open ByteMemory FuelLoop FramebufferModel

/-- The offsets of the first octant lie within one pixel of the circle, one in
each row from zero on, until the diagonal is crossed. -/
structure Accurate (r : ℤ) (out : Outline) : Prop where
  /-- Every offset is near the circle. -/
  near : ∀ p∈out.offsets,(r-1)^2 ≤ p.1^2+p.2^2 ∧ p.1^2+p.2^2 ≤ (r+1)^2
  /-- The rows are consecutive. -/
  rows : out.offsets.map Prod.snd=(List.range out.offsets.length).map fun k : ℕ => (k : ℤ)
  /-- The next row is behind the diagonal. -/
  past : out.x<out.y

/-- The loop is left, and what it has plotted is accurate. -/
def Draws (fb : Fb) (cx cy r : ℤ) (color : Word) : Prop :=
  ∃ fuel out,fbDrawCircle fuel fb cx cy r color=some out ∧ Accurate r out

section Turns

variable (cx cy : ℤ) (color : Word) (c : Outline)

/-- Every turn plots its offset. -/
theorem next_offsets : (c.next cx cy color).offsets=c.offsets++[(c.x,c.y)] := by
  unfold Outline.next
  dsimp only
  split_ifs <;> rfl

/-- Every turn goes to the next row. -/
theorem next_y : (c.next cx cy color).y=c.y+1 := by
  unfold Outline.next
  dsimp only
  split_ifs <;> rfl

/-- No turn goes to the right. -/
theorem next_x_le : (c.next cx cy color).x ≤ c.x := by
  unfold Outline.next
  dsimp only
  split_ifs
  · exact Int.sub_le_self c.x (by decide)
  · exact Int.le_refl c.x

variable {c}

/-- A turn that stays in its column. -/
theorem next_of_lt (h : c.err+(1+2*(c.y+1))<c.x) :
    (c.next cx cy color).x=c.x ∧ (c.next cx cy color).err=c.err+(1+2*(c.y+1)) := by
  unfold Outline.next
  dsimp only
  rw [if_neg (by omega)]
  exact ⟨rfl,rfl⟩

/-- A turn that moves to the left. The error term grows by the two columns. -/
theorem next_of_le (h : c.x ≤ c.err+(1+2*(c.y+1))) :
    (c.next cx cy color).x=c.x-1 ∧ (c.next cx cy color).err=c.err+2*c.x := by
  unfold Outline.next
  dsimp only
  rw [if_pos (by omega)]
  exact ⟨rfl,by ring⟩

variable {cx cy color}

/-- A turn in front of the diagonal. -/
theorem circleTurn_again (h : c.y ≤ c.x) :
    circleTurn cx cy color c=.again (c.next cx cy color) := if_pos h

/-- What a turn that goes round again does. -/
theorem circleTurn_eq_again {d : Outline} (h : circleTurn cx cy color c=.again d) :
    c.y ≤ c.x ∧ d=c.next cx cy color := by
  unfold circleTurn at h
  split_ifs at h with hle
  exact ⟨hle,(Turn.again.inj h).symm⟩

/-- What a turn that leaves the loop does. -/
theorem circleTurn_eq_done {out : Outline} (h : circleTurn cx cy color c=.done out) :
    c.x<c.y ∧ out=c := by
  unfold circleTurn at h
  split_ifs at h with hle
  exact ⟨Int.not_le.mp hle,(Turn.done.inj h).symm⟩

end Turns

/-- The rows that were plotted are those in front of the present one. -/
def RowsDone (c : Outline) : Prop :=
  c.offsets.map Prod.snd=((List.range c.offsets.length).map fun k : ℕ => (k : ℤ)) ∧
    c.y=c.offsets.length

/-- A turn plots the present row. -/
theorem rowsDone_next {c : Outline} (h : RowsDone c) (cx cy : ℤ) (color : Word) :
    RowsDone (c.next cx cy color) := by
  unfold RowsDone
  rw [next_offsets,next_y,List.map_append,List.length_append,List.length_singleton,List.range_succ,
    List.map_append,h.1,h.2]
  exact ⟨rfl,rfl⟩

/-- When the loop is left, the rows in front of the present one were plotted, and
the present one is behind the diagonal. -/
theorem circle_rows {fb : Fb} {cx cy r : ℤ} {color : Word} {fuel : ℕ} {out : Outline}
    (hrun : fbDrawCircle fuel fb cx cy r color=some out) : RowsDone out ∧ out.x<out.y := by
  refine runLoop_invariant RowsDone (fun out => RowsDone out ∧ out.x<out.y) ?_ ?_ ⟨rfl,rfl⟩ hrun
  · intro s t hs hturn
    obtain ⟨_,rfl⟩ := circleTurn_eq_again hturn
    exact rowsDone_next hs cx cy color
  · intro s v hs hturn
    obtain ⟨hlt,rfl⟩ := circleTurn_eq_done hturn
    exact ⟨hs,hlt⟩

/-- The loop is left for every radius. -/
theorem circle_terminates (fb : Fb) (cx cy r : ℤ) (color : Word) :
    ∃ fuel out,fbDrawCircle fuel fb cx cy r color=some out := by
  obtain ⟨out,hrun,_⟩ := @runLoop_total _ _ (circleTurn cx cy color)
    (fun _ => True) (fun _ => True) (fun c => (c.x-c.y+1).toNat) (fun s t _ hturn => by
      obtain ⟨hle,rfl⟩ := circleTurn_eq_again hturn
      have hx := next_x_le cx cy color s
      refine ⟨trivial,?_⟩
      rw [next_y]
      omega) (fun _ _ _ _ => trivial) _ ⟨r,0,0,fb,[]⟩ trivial
      (Nat.lt_succ_self _)
  exact ⟨_,out,hrun⟩

/-- The states of the loop, turn by turn. -/
def circleAt (fb : Fb) (cx cy r : ℤ) (color : Word) (k : ℕ) : Outline :=
  (Outline.next cx cy color)^[k] ⟨r,0,0,fb,[]⟩

section States

variable (fb : Fb) (cx cy : ℤ) {r : ℤ} (color : Word)

/-- One more turn. -/
theorem circleAt_succ (k : ℕ) :
    circleAt fb cx cy r color (k+1)=(circleAt fb cx cy r color k).next cx cy color :=
  Function.iterate_succ_apply' _ _ _

/-- As long as the error term is below the radius the loop goes straight up. -/
theorem circleAt_straight {top : ℕ} (htop : ∀ k<top,(k : ℤ)^2+2*k< r) :
    ∀ k<top,(circleAt fb cx cy r color k).x=r ∧ (circleAt fb cx cy r color k).y=k ∧
      (circleAt fb cx cy r color k).err=(k : ℤ)^2+2*k := by
  intro k
  induction k with
  | zero =>
    intro _
    exact ⟨rfl,rfl,rfl⟩
  | succ k ih =>
    intro hk
    obtain ⟨hx,hy,herr⟩ := ih (by omega)
    have hbelow := htop (k+1) hk
    push_cast at hbelow ⊢
    have hgoal : (circleAt fb cx cy r color k).err+(1+2*((circleAt fb cx cy r color k).y+1))=
        ((k : ℤ)+1)^2+2*(k+1) := by
      rw [hy,herr]
      ring
    obtain ⟨hx',herr'⟩ := next_of_lt (c:=circleAt fb cx cy r color k) cx cy color (by rw [hgoal,hx]; exact hbelow)
    rw [circleAt_succ,next_y,hx',herr',hgoal,hx,hy]
    exact ⟨rfl,rfl,rfl⟩

/-- From the first move to the left on, every turn moves to the left. -/
theorem circleAt_diagonal {top : ℕ} (hpos : 0<top) (htop : ∀ k<top,(k : ℤ)^2+2*k< r)
    (hlast : r ≤ (top : ℤ)^2+2*top) :
    ∀ m : ℕ,(m : ℤ) ≤ r→(circleAt fb cx cy r color (top+m)).x=r-1-m ∧
      (circleAt fb cx cy r color (top+m)).y=top+m ∧
      r-1-m ≤ (circleAt fb cx cy r color (top+m)).err := by
  intro m
  induction m with
  | zero =>
    intro hm
    obtain ⟨before,rfl⟩ : ∃ before,top=before+1 := ⟨top-1,by omega⟩
    obtain ⟨hx,hy,herr⟩ := circleAt_straight fb cx cy color htop before
      (Nat.lt_succ_self before)
    push_cast at hlast hm ⊢
    have hnext : (circleAt fb cx cy r color before).err+
        (1+2*((circleAt fb cx cy r color before).y+1))=((before : ℤ)+1)^2+2*(before+1) := by
      rw [hy,herr]
      ring
    obtain ⟨hx',herr'⟩ := next_of_le (c:=circleAt fb cx cy r color before) cx cy color (by rw [hnext,hx]; exact hlast)
    rw [Nat.add_zero,circleAt_succ,next_y,hx',herr',hx,hy,herr]
    have hsquare : 0 ≤ (before : ℤ)^2 := sq_nonneg _
    exact ⟨by ring,by ring,by omega⟩
  | succ m ih =>
    intro hm
    push_cast at hm ⊢
    obtain ⟨hx,hy,herr⟩ := ih (by omega)
    obtain ⟨hx',herr'⟩ := next_of_le (c:=circleAt fb cx cy r color (top+m)) cx cy color (by rw [hx,hy]; omega)
    rw [←Nat.add_assoc,circleAt_succ,next_y,hx',herr',hx,hy]
    exact ⟨by ring,by ring,by omega⟩

variable {fb cx cy color}

/-- An offset that was plotted stays plotted. -/
theorem plotted_of_run {p : ℤ×ℤ} {fuel : ℕ} {c out : Outline} (hp : p∈c.offsets)
    (hrun : runLoop (circleTurn cx cy color) fuel c=some out) : p∈out.offsets := by
  refine runLoop_invariant (fun c => p∈c.offsets) (fun out => p∈out.offsets) ?_ ?_ hp hrun
  · intro s t hs hturn
    obtain ⟨_,rfl⟩ := circleTurn_eq_again hturn
    rw [next_offsets]
    exact List.mem_append_left _ hs
  · intro s v hs hturn
    obtain ⟨_,rfl⟩ := circleTurn_eq_done hturn
    exact hs

/-- An offset that the loop comes to in front of the diagonal is plotted. -/
theorem plotted_of_reached {k : ℕ} (hbefore : ∀ l≤k,
      (circleAt fb cx cy r color l).y ≤ (circleAt fb cx cy r color l).x) {fuel : ℕ} {out : Outline}
    (hrun : fbDrawCircle fuel fb cx cy r color=some out) :
    ((circleAt fb cx cy r color k).x,(circleAt fb cx cy r color k).y)∈out.offsets := by
  have hmore : runLoop (circleTurn cx cy color) (fuel+(k+1)) (circleAt fb cx cy r color 0)=some out :=
    runLoop_mono (Nat.le_add_right _ _) hrun
  rw [runLoop_iterate (circleAt fb cx cy r color) (k+1) (fun l hl => by
    rw [circleAt_succ]
    exact circleTurn_again (hbefore l (by omega)))] at hmore
  refine plotted_of_run ?_ hmore
  rw [circleAt_succ,next_offsets]
  exact List.mem_append_right _ (List.mem_singleton.mpr rfl)

end States

/-- Where the loop first moves to the left. -/
theorem exists_top {r : ℤ} (hr : 1 ≤ r) :
    ∃ top : ℕ,0<top ∧ (∀ k<top,(k : ℤ)^2+2*k< r) ∧ r ≤ (top : ℤ)^2+2*top ∧ (top : ℤ)^2 ≤ r := by
  have hex : ∃ k : ℕ,r ≤ (k : ℤ)^2+2*k := by
    refine ⟨r.toNat,?_⟩
    rw [Int.toNat_of_nonneg (by omega)]
    have hsquare : 0 ≤ r^2 := sq_nonneg r
    omega
  have hfirst := Nat.find_spec hex
  have hbefore : ∀ k< Nat.find hex,(k : ℤ)^2+2*k< r := fun k hk => Int.not_le.mp (Nat.find_min hex hk)
  have hpos : 0< Nat.find hex := by
    rw [Nat.pos_iff_ne_zero]
    intro hz
    rw [hz] at hfirst
    norm_num at hfirst
    omega
  refine ⟨Nat.find hex,hpos,hbefore,hfirst,?_⟩
  obtain ⟨k,hk⟩ : ∃ k,Nat.find hex=k+1 := ⟨Nat.find hex-1,by omega⟩
  have hlast := hbefore k (by omega)
  rw [hk]
  push_cast
  linarith

/-- The middle of the straight line is more than one pixel inside the circle. -/
theorem diagonal_inside {r top : ℤ} (hr : 7 ≤ r) (hpos : 1 ≤ top) (htop : top^2 ≤ r) :
    (r-1+top)^2+1<2*(r-1)^2 := by
  obtain hsmall|hlarge : top ≤ 2 ∨ 3 ≤ top := by omega
  · nlinarith
  · nlinarith [mul_nonneg (show 0 ≤ top-3 by omega) (show 0 ≤ r-top^2 by omega)]

/-- A circle with a radius of seven or more is plotted as a line that leaves
it. -/
theorem not_accurate_of_large {fb : Fb} {cx cy r : ℤ} {color : Word} (hr : 7 ≤ r) {fuel : ℕ}
    {out : Outline} (hrun : fbDrawCircle fuel fb cx cy r color=some out) : ¬Accurate r out := by
  intro hacc
  obtain ⟨top,hpos,hbefore,hlast,hsquare⟩ := exists_top (r:=r) (by omega)
  have htop : (top : ℤ)< r := by nlinarith
  obtain ⟨m,hm⟩ : ∃ m : ℕ,(m : ℤ)=(r-1-top)/2 := ⟨((r-1-top)/2).toNat,Int.toNat_of_nonneg (by omega)⟩
  have hdiagonal := circleAt_diagonal fb cx cy color hpos hbefore hlast
  have hreached : ∀ l≤top+m,
      (circleAt fb cx cy r color l).y ≤ (circleAt fb cx cy r color l).x := by
    intro l hl
    obtain hlow|hhigh := Nat.lt_or_ge l top
    · obtain ⟨hx,hy,_⟩ := circleAt_straight fb cx cy color hbefore l hlow
      rw [hx,hy]
      omega
    · obtain ⟨n,rfl⟩ := Nat.exists_eq_add_of_le hhigh
      obtain ⟨hx,hy,_⟩ := hdiagonal n (by omega)
      rw [hx,hy]
      omega
  obtain ⟨hx,hy,_⟩ := hdiagonal m (by omega)
  have hnear := (hacc.near _ (plotted_of_reached hreached hrun)).1
  dsimp only at hnear
  rw [hx,hy] at hnear
  have hinside := diagonal_inside hr (by omega) hsquare
  obtain ⟨d,hd⟩ : ∃ d,d=r-1-m-(top+m) := ⟨_,rfl⟩
  have hdd : d^2≤1 := by
    obtain rfl|rfl : d=0 ∨ d=1 := by omega
    · norm_num
    · norm_num
  have hsum : 2*((r-1-m)^2+((top : ℤ)+m)^2)=(r-1+top)^2+d^2 := by
    rw [hd]
    ring
  linarith

/-- A circle whose offsets are all near is accurate. -/
theorem draws_of_run {fb fb' : Fb} {cx cy r x y err : ℤ} {color : Word} (fuel : ℕ)
    (offsets : List (ℤ×ℤ)) (hrun : fbDrawCircle fuel fb cx cy r color=some ⟨x,y,err,fb',offsets⟩)
    (hnear : ∀ p∈offsets,(r-1)^2 ≤ p.1^2+p.2^2 ∧ p.1^2+p.2^2 ≤ (r+1)^2) : Draws fb cx cy r color := by
  obtain ⟨hrows,hpast⟩ := circle_rows hrun
  exact ⟨fuel,_,hrun,hnear,hrows.1,hpast⟩

/-- The circles with a radius up to six. -/
theorem draws_of_small (fb : Fb) (cx cy : ℤ) {r : ℤ} (color : Word) (hr : 1 ≤ r) (hsmall : r≤6) :
    Draws fb cx cy r color := by
  obtain rfl|rfl|rfl|rfl|rfl|rfl : r=1 ∨ r=2 ∨ r=3 ∨ r=4 ∨ r=5 ∨ r=6 := by omega
  · exact draws_of_run 2 [(1,0)] rfl (by decide)
  · exact draws_of_run 3 [(2,0),(1,1)] rfl (by decide)
  · exact draws_of_run 3 [(3,0),(2,1)] rfl (by decide)
  · exact draws_of_run 4 [(4,0),(4,1),(3,2)] rfl (by decide)
  · exact draws_of_run 5 [(5,0),(5,1),(4,2),(3,3)] rfl (by decide)
  · exact draws_of_run 5 [(6,0),(6,1),(5,2),(4,3)] rfl (by decide)

/-- For every radius from one on the loop is left and has plotted one offset in
each row up to the diagonal; all offsets are within one pixel of the circle
exactly when the radius is at most six. -/
theorem circle_accurate_iff (fb : Fb) (cx cy : ℤ) {r : ℤ} (color : Word) (hr : 1 ≤ r) :
    (∃ fuel out,fbDrawCircle fuel fb cx cy r color=some out ∧ RowsDone out ∧ out.x<out.y) ∧
      (Draws fb cx cy r color ↔ r≤6) := by
  constructor
  · obtain ⟨fuel,out,hrun⟩ := circle_terminates fb cx cy r color
    exact ⟨fuel,out,hrun,circle_rows hrun⟩
  · constructor
    · intro ⟨fuel,out,hrun,hacc⟩
      by_contra hlarge
      exact not_accurate_of_large (by omega) hrun hacc
    · exact draws_of_small fb cx cy color hr

/-- A circle of radius one. -/
theorem circle_one_accurate :
    (∃ fuel out,fbDrawCircle fuel blankFb 0 0 1 7=some out ∧ RowsDone out ∧ out.x<out.y) ∧
      (Draws blankFb 0 0 1 7 ↔ (1 : ℤ)≤6) :=
  circle_accurate_iff blankFb 0 0 7 (by decide)

/-- A circle of radius ten plots the offset (8,4), more than one pixel inside. -/
theorem circle_ten_not_accurate :
    ¬∀ (fb : Fb) (cx cy r : ℤ) (color : Word),1 ≤ r→ Draws fb cx cy r color := by
  intro h
  obtain ⟨fuel,out,hrun,hacc⟩ := h blankFb 0 0 10 7 (by decide)
  exact not_accurate_of_large (by decide) hrun hacc

end EronKernel.CircleOutline

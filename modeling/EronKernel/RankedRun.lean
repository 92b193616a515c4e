import Mathlib.Data.List.Basic

/-!
# Waiting with a rank

A system steps on inputs, and some of its steps are ticks. Something waits
with a rank that no step raises and every tick lowers until its wait is over.
Then the wait is over within as many ticks as the rank says, whatever other
steps happen in between.
-/

namespace EronKernel.RankedRun

variable {σ ι : Type*}

/-- Inputs one after the other; no value when a step cannot happen. -/
def runSteps (step : σ→ι→Option σ) : σ→List ι→Option σ
  | s,[] => some s
  | s,i::is => (step s i).bind fun t => runSteps step t is

/-- One for a tick. -/
def tickCount (tick : σ→ι→Bool) (s : σ) (i : ι) : ℕ := if tick s i then 1 else 0

/-- How many steps of a run are ticks. -/
def ticks (step : σ→ι→Option σ) (tick : σ→ι→Bool) : σ→List ι→ℕ
  | _,[] => 0
  | s,i::is => tickCount tick s i+((step s i).map fun t => ticks step tick t is).getD 0

variable {step : σ→ι→Option σ} {tick : σ→ι→Bool}

/-- A run starts with its first step. -/
theorem runSteps_cons_eq_some {s t : σ} {i : ι} {is : List ι} :
    runSteps step s (i::is)=some t ↔ ∃ u,step s i=some u ∧ runSteps step u is=some t :=
  Option.bind_eq_some_iff

/-- A run without steps. -/
@[simp] theorem ticks_nil (s : σ) : ticks step tick s []=0 := rfl

/-- The ticks of a run are those of its first step and of the others. -/
theorem ticks_cons {s t : σ} {i : ι} (h : step s i=some t) (is : List ι) :
    ticks step tick s (i::is)=tickCount tick s i+ticks step tick t is := by
  rw [ticks,h]
  rfl

/-- One step is at most one tick. -/
theorem tickCount_le_one (tick : σ→ι→Bool) (s : σ) (i : ι) : tickCount tick s i≤1 := by
  unfold tickCount
  split_ifs <;> omega

/-- Waits with a rank, and what ends them. -/
structure Ranked (step : σ→ι→Option σ) (tick : σ→ι→Bool) (waiting goal : σ→Prop) (rank : σ→ℕ) : Prop where
  /-- While something waits its rank is not zero. -/
  positive : ∀ s,waiting s→0< rank s
  /-- A step ends the wait or lowers the rank by its ticks. -/
  lower : ∀ s i t,waiting s→step s i=some t→
    goal t ∨ (waiting t ∧ rank t+tickCount tick s i ≤ rank s)

/-- A run with as many ticks as the rank ends the wait on its way, after at
most that many ticks. -/
theorem Ranked.reaches {waiting goal : σ→Prop} {rank : σ→ℕ} (h : Ranked step tick waiting goal rank)
    (is : List ι) : ∀ {s t : σ},waiting s→ runSteps step s is=some t→ rank s ≤ ticks step tick s is→
      ∃ front back u,is=front++back ∧ runSteps step s front=some u ∧ goal u ∧
        ticks step tick s front ≤ rank s := by
  induction is with
  | nil =>
    intro s t hs _ hticks
    have hpos := h.positive s hs
    rw [ticks_nil] at hticks
    omega
  | cons i is ih =>
    intro s t hs hrun hticks
    obtain ⟨u,hu,hrest⟩ := runSteps_cons_eq_some.mp hrun
    have hpos := h.positive s hs
    have hone := tickCount_le_one tick s i
    rcases h.lower s i u hs hu with hgoal|⟨hwait,hrank⟩
    · refine ⟨[i],is,u,rfl,runSteps_cons_eq_some.mpr ⟨u,hu,rfl⟩,hgoal,?_⟩
      rw [ticks_cons hu,ticks_nil]
      omega
    · rw [ticks_cons hu] at hticks
      obtain ⟨front,back,v,rfl,hfront,hgoal,hle⟩ := ih hwait hrest (by omega)
      refine ⟨i::front,back,v,rfl,runSteps_cons_eq_some.mpr ⟨u,hu,hfront⟩,hgoal,?_⟩
      rw [ticks_cons hu]
      omega

end EronKernel.RankedRun

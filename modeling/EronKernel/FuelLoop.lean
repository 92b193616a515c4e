import Mathlib.Tactic

/-!
# Fuelled execution of imperative loops

A loop body either goes round again with a new state or leaves with a value.
Supplied fuel bounds the number of executed turns; exhausted fuel is reported
as an absent value and is never read as a result. Monotonicity makes the
value independent of the supplied fuel, so a loop that stops for one budget
has one meaning. The variant rule, the invariant rule and the rule for known
turns are the only inductions that later loop proofs need.
-/

namespace EronKernel.FuelLoop

variable {σ β : Type*}

/-- Outcome of one executed loop turn. -/
inductive Turn (σ β : Type*) where
  /-- The condition still holds; the next turn starts from this state. -/
  | again (state : σ)
  /-- The loop is left, by its condition or by an early return. -/
  | done (value : β)

/-- Execute at most the supplied number of turns. -/
def runLoop (body : σ→Turn σ β) : ℕ→σ→Option β
  | 0,_ => none
  | fuel+1,state =>
    match body state with
    | .again next => runLoop body fuel next
    | .done value => some value

/-- A turn that goes round again costs one unit of fuel. -/
theorem runLoop_again {body : σ→Turn σ β} {state next : σ} (fuel : ℕ)
    (hb : body state=.again next) :
    runLoop body (fuel+1) state=runLoop body fuel next := by
  simp only [runLoop,hb]

/-- A turn that leaves the loop needs one unit of fuel. -/
theorem runLoop_done {body : σ→Turn σ β} {state : σ} {value : β} (fuel : ℕ)
    (hb : body state=.done value) :
    runLoop body (fuel+1) state=some value := by
  simp only [runLoop,hb]

/-- Additional fuel never changes a value that was already returned. -/
theorem runLoop_mono {body : σ→Turn σ β} {fuel more : ℕ} {state : σ} {value : β}
    (hle : fuel ≤ more) (hr : runLoop body fuel state=some value) :
    runLoop body more state=some value := by
  induction fuel generalizing more state with
  | zero => cases hr
  | succ fuel ih =>
    obtain ⟨rest,rfl⟩ : ∃ rest,more=rest+1 := ⟨more-1,by omega⟩
    cases hb : body state with
    | again next =>
      rw [runLoop_again _ hb] at hr ⊢
      exact ih (by omega) hr
    | done out =>
      rw [runLoop_done _ hb] at hr ⊢
      exact hr

/-- Total correctness: a variant that every repeated turn decreases bounds
the fuel with which the loop certainly returns. -/
theorem runLoop_total {body : σ→Turn σ β} (Inv : σ→Prop) (Post : β→Prop) (variant : σ→ℕ)
    (hagain : ∀ s t,Inv s→body s=.again t→Inv t ∧ variant t<variant s)
    (hdone : ∀ s v,Inv s→body s=.done v→Post v)
    {fuel : ℕ} {state : σ} (hi : Inv state) (hf : variant state<fuel) :
    ∃ value,runLoop body fuel state=some value ∧ Post value := by
  induction fuel generalizing state with
  | zero => omega
  | succ fuel ih =>
    cases hb : body state with
    | again next =>
      obtain ⟨hn,hv⟩ := hagain _ _ hi hb
      rw [runLoop_again _ hb]
      exact ih hn (by omega)
    | done out => exact ⟨out,runLoop_done _ hb,hdone _ _ hi hb⟩

/-- Partial correctness: what every repeated turn keeps holds when the loop is
left. -/
theorem runLoop_invariant {body : σ→Turn σ β} (Inv : σ→Prop) (Post : β→Prop)
    (hagain : ∀ s t,Inv s→body s=.again t→Inv t) (hdone : ∀ s v,Inv s→body s=.done v→Post v)
    {fuel : ℕ} {state : σ} {value : β} (hi : Inv state) (hr : runLoop body fuel state=some value) :
    Post value := by
  induction fuel generalizing state with
  | zero => cases hr
  | succ fuel ih =>
    cases hb : body state with
    | again next =>
      rw [runLoop_again _ hb] at hr
      exact ih (hagain _ _ hi hb) hr
    | done out =>
      rw [runLoop_done _ hb] at hr
      cases hr
      exact hdone _ _ hi hb

/-- A turn that leads back to its own state never returns. -/
theorem runLoop_stuck {body : σ→Turn σ β} {state : σ} (hb : body state=.again state) (fuel : ℕ) :
    runLoop body fuel state=none := by
  induction fuel with
  | zero => rfl
  | succ fuel ih => rw [runLoop_again _ hb,ih]

/-- A known sequence of repeated turns is skipped at once. -/
theorem runLoop_iterate {body : σ→Turn σ β} (states : ℕ→σ) (n : ℕ)
    (hn : ∀ k<n,body (states k)=.again (states (k+1))) (fuel : ℕ) :
    runLoop body (fuel+n) (states 0)=runLoop body fuel (states n) := by
  induction n generalizing fuel with
  | zero => rfl
  | succ n ih =>
    rw [show fuel+(n+1)=(fuel+1)+n by omega,ih (fun k hk => hn k (by omega)),
      runLoop_again _ (hn n (by omega))]

/-- A loop of known turns that leaves behind them. -/
theorem runLoop_ends {body : σ→Turn σ β} {value : β} (states : ℕ→σ) (n : ℕ)
    (hn : ∀ k<n,body (states k)=.again (states (k+1))) (hdone : body (states n)=.done value) {fuel : ℕ}
    (hf : n<fuel) : runLoop body fuel (states 0)=some value := by
  obtain ⟨rest,rfl⟩ : ∃ rest,fuel=rest+1+n := ⟨fuel-1-n,by omega⟩
  rw [runLoop_iterate states n hn,runLoop_done rest hdone]

end EronKernel.FuelLoop

import Mathlib.Data.List.Basic
import Mathlib.Data.List.Induction
import Mathlib.Tactic.Tauto

/-!
# Runs as lists of events

An event holds the state before and the state after it, and a trace is a list
of events in which each begins where the previous one ended. A property of
states that some events open and others close holds at the end exactly when
an opening event is followed by neither. A property that the events of two
others open and close need not hold exactly when one of the others does.
-/

namespace EronKernel.EventTrace

variable {σ ε : Type} {before after : ε→σ} {opens closes : ε→Prop}

/-- A list of events that leads from one state to another. -/
inductive Trace (before after : ε→σ) (s : σ) : List ε→σ→Prop where
  /-- Nothing happened. -/
  | nil : Trace before after s [] s
  /-- One more event. -/
  | snoc {es : List ε} (e : ε) (h : Trace before after s es (before e)) :
      Trace before after s (es++[e]) (after e)

/-- The trace of one event. -/
theorem Trace.single (e : ε) : Trace before after (before e) [e] (after e) :=
  Trace.snoc e Trace.nil

/-- Traces compose. -/
theorem Trace.append {s t u : σ} {es ds : List ε} (h : Trace before after s es t)
    (hd : Trace before after t ds u) : Trace before after s (es++ds) u := by
  induction hd with
  | nil =>
    rw [List.append_nil]
    exact h
  | snoc e _ ih =>
    rw [←List.append_assoc]
    exact Trace.snoc e ih

/-- What every event keeps holds of all states of the trace. -/
theorem Trace.invariant {s t : σ} {es : List ε} (h : Trace before after s es t) (holds : σ→Prop)
    (hs : holds s) (hstep : ∀ e∈es,holds (before e)→holds (after e)) :
    holds t ∧ ∀ e∈es,holds (before e) := by
  induction h with
  | nil => exact ⟨hs,fun e he => absurd he List.not_mem_nil⟩
  | snoc e _ ih =>
    obtain ⟨hbefore,hall⟩ := ih fun d hd => hstep d (List.mem_append_left _ hd)
    refine ⟨hstep e (List.mem_append_right _ List.mem_cons_self) hbefore,?_⟩
    intro d hd
    obtain hd|hd := List.mem_append.mp hd
    · exact hall d hd
    · obtain rfl := List.mem_singleton.mp hd
      exact hbefore

/-- The last opening event is followed by no closing one. -/
def HeldSince (opens closes : ε→Prop) (es : List ε) : Prop :=
  ∃ front e back,es=front++e::back ∧ opens e ∧ ∀ d∈back,¬opens d ∧ ¬closes d

/-- One more event at the end of a split list. -/
theorem append_cons_snoc (front back : List ε) (e d : ε) :
    (front++e::back)++[d]=front++e::(back++[d]) := by
  rw [List.append_assoc,List.cons_append]

/-- An event with a property, chosen by the events in front of it, that only
events of one kind follow: it is the last one, or it was there before and the
last one is of the kind. -/
theorem exists_split_snoc {P : List ε→ε→Prop} {Q : ε→Prop} (es : List ε) (e : ε) :
    (∃ front d back,es++[e]=front++d::back ∧ P front d ∧ ∀ c∈back,Q c) ↔
      P es e ∨ ((∃ front d back,es=front++d::back ∧ P front d ∧ ∀ c∈back,Q c) ∧ Q e) := by
  constructor
  · rintro ⟨front,d,back,heq,hd,hback⟩
    rcases List.eq_nil_or_concat back with rfl|⟨init,last,rfl⟩
    · obtain ⟨rfl,he⟩ := List.append_inj' heq rfl
      cases he
      exact Or.inl hd
    · rw [List.concat_eq_append,←append_cons_snoc] at heq
      obtain ⟨hes,he⟩ := List.append_inj' heq rfl
      cases he
      rw [List.concat_eq_append] at hback
      have hlast := hback e (List.mem_append_right _ List.mem_cons_self)
      exact Or.inr ⟨⟨front,d,init,hes,hd,fun c hc => hback c (List.mem_append_left _ hc)⟩,hlast⟩
  · rintro (hd|⟨⟨front,d,back,rfl,hd,hback⟩,hlast⟩)
    · exact ⟨es,e,[],rfl,hd,fun c hc => absurd hc List.not_mem_nil⟩
    · refine ⟨front,d,back++[e],append_cons_snoc front back d e,hd,?_⟩
      intro c hc
      obtain hc|hc := List.mem_append.mp hc
      · exact hback c hc
      · obtain rfl := List.mem_singleton.mp hc
        exact hlast

/-- One more event opens, or leaves open what it neither opens nor closes. -/
theorem heldSince_snoc (es : List ε) (e : ε) :
    HeldSince opens closes (es++[e]) ↔ opens e ∨ (HeldSince opens closes es ∧ ¬closes e) := by
  refine (exists_split_snoc (P := fun _ d => opens d) es e).trans ?_
  by_cases he : opens e
  · exact iff_of_true (Or.inl he) (Or.inl he)
  · refine or_congr_right (and_congr_right fun _ => ?_)
    exact and_iff_right he

/-- The last event of two kinds closed one kind while the other was open. -/
def ClosedUnder (opens closes opens' closes' : ε→Prop) (es : List ε) : Prop :=
  ∃ front e back,es=front++e::back ∧
    ((closes e ∧ HeldSince opens' closes' front) ∨ (closes' e ∧ HeldSince opens closes front)) ∧
    ∀ d∈back,¬(opens d ∨ opens' d) ∧ ¬(closes d ∨ closes' d)

/-- One more event closes one kind while the other is open, or is of neither
kind. -/
theorem closedUnder_snoc {opens' closes' : ε→Prop} (es : List ε) (e : ε) :
    ClosedUnder opens closes opens' closes' (es++[e]) ↔
      ((closes e ∧ HeldSince opens' closes' es) ∨ (closes' e ∧ HeldSince opens closes es)) ∨
        (ClosedUnder opens closes opens' closes' es ∧ ¬(opens e ∨ opens' e) ∧ ¬(closes e ∨ closes' e)) :=
  exists_split_snoc es e

/-- Nothing is open at first. -/
theorem not_heldSince_nil : ¬HeldSince opens closes [] := by
  rintro ⟨front,e,back,heq,_⟩
  exact absurd heq (by simp)

/-- What the events of two kinds open and close together is open only when one
of the kinds is, and differs from it when the last event closed one kind while
the other was open. -/
theorem heldSince_or_cases {opens' closes' : ε→Prop} (hopen : ∀ e,opens e ∨ opens' e→¬(closes e ∨ closes' e))
    (hclose : ∀ e,¬(closes e ∧ closes' e)) (es : List ε) :
    (HeldSince (fun e => opens e ∨ opens' e) (fun e => closes e ∨ closes' e) es→
      HeldSince opens closes es ∨ HeldSince opens' closes' es) ∧
    (ClosedUnder opens closes opens' closes' es ↔
      ¬HeldSince (fun e => opens e ∨ opens' e) (fun e => closes e ∨ closes' e) es ∧
        (HeldSince opens closes es ∨ HeldSince opens' closes' es)) := by
  induction es using List.reverseRecOn with
  | nil =>
    refine ⟨fun h => absurd h not_heldSince_nil,iff_of_false ?_ ?_⟩
    · rintro ⟨front,e,back,heq,_⟩
      exact absurd heq (by simp)
    · exact fun h => h.2.elim not_heldSince_nil not_heldSince_nil
  | append_singleton es e ih =>
    obtain ⟨honly,hunder⟩ := ih
    rw [heldSince_snoc,heldSince_snoc,heldSince_snoc,closedUnder_snoc,hunder]
    by_cases ho : opens e ∨ opens' e
    · have hopened := hopen e ho
      grind
    · by_cases hc : closes e ∨ closes' e
      · have hone := hclose e
        grind
      · have hno := not_or.mp ho
        have hnc := not_or.mp hc
        simp only [hno.1,hno.2,hnc.1,hnc.2]
        grind

/-- What the events of two kinds open and close together is open exactly when
one of the kinds is, unless the last event closed one kind while the other was
open. -/
theorem heldSince_or_iff {opens' closes' : ε→Prop} (hopen : ∀ e,opens e ∨ opens' e→¬(closes e ∨ closes' e))
    (hclose : ∀ e,¬(closes e ∧ closes' e)) (es : List ε) :
    (HeldSince (fun e => opens e ∨ opens' e) (fun e => closes e ∨ closes' e) es ↔
      HeldSince opens closes es ∨ HeldSince opens' closes' es) ↔
        ¬ClosedUnder opens closes opens' closes' es := by
  obtain ⟨honly,hunder⟩ := heldSince_or_cases hopen hclose es
  rw [hunder]
  tauto

/-- A property that each event opens, closes or leaves as it was holds at the
end exactly when the last opening event is followed by no closing one. -/
theorem Trace.holds_iff {s t : σ} {es : List ε} (h : Trace before after s es t) (holds : σ→Prop)
    (hs : ¬holds s)
    (hstep : ∀ e∈es,(holds (after e) ↔ opens e ∨ (holds (before e) ∧ ¬closes e))) :
    holds t ↔ HeldSince opens closes es := by
  induction h with
  | nil => exact iff_of_false hs not_heldSince_nil
  | snoc e _ ih =>
    have hbefore := ih fun d hd => hstep d (List.mem_append_left _ hd)
    rw [hstep e (List.mem_append_right _ List.mem_cons_self),heldSince_snoc,hbefore]

/-- A property that holds at the end but not at the beginning was established
by some event and kept by all later ones. -/
theorem Trace.established {s t : σ} {es : List ε} (h : Trace before after s es t) (holds : σ→Prop)
    (hs : ¬holds s) (ht : holds t) :
    ∃ front e back,es=front++e::back ∧ ¬holds (before e) ∧ holds (after e) ∧
      ∀ d∈back,holds (before d) ∧ holds (after d) := by
  induction h with
  | nil => exact absurd ht hs
  | @snoc es e hes ih =>
    by_cases hb : holds (before e)
    · obtain ⟨front,d,back,rfl,hd,hd',hback⟩ := ih hb
      refine ⟨front,d,back++[e],append_cons_snoc front back d e,hd,hd',?_⟩
      intro c hc
      obtain hc|hc := List.mem_append.mp hc
      · exact hback c hc
      · obtain rfl := List.mem_singleton.mp hc
        exact ⟨hb,ht⟩
    · exact ⟨es,e,[],rfl,hb,ht,fun d hd => absurd hd List.not_mem_nil⟩

/-- What the last event that sets a value sets it to. -/
def lastSet {α : Type} (sets : ε→Option α) (es : List ε) : Option α := es.reverse.findSome? sets

/-- A later event decides first. -/
theorem lastSet_append_singleton {α : Type} (sets : ε→Option α) (es : List ε) (e : ε) :
    lastSet sets (es++[e])=(sets e).or (lastSet sets es) := by
  unfold lastSet
  rw [List.reverse_append,List.reverse_singleton,List.singleton_append,List.findSome?_cons]
  cases sets e <;> rfl

/-- A value that every event either sets or keeps is the last one that was
set. -/
theorem value_foldl {α : Type} {step : σ→ε→σ} (value : σ→α) {sets : ε→Option α} {ok : σ→Prop}
    (hok : ∀ s e,ok s→ ok (step s e)) (h : ∀ s e,ok s→value (step s e)=(sets e).getD (value s)) {s : σ}
    (hs : ok s) (es : List ε) :
    ok (es.foldl step s) ∧ value (es.foldl step s)=(lastSet sets es).getD (value s) := by
  induction es using List.reverseRecOn with
  | nil => exact ⟨hs,rfl⟩
  | append_singleton es e ih =>
    obtain ⟨hlast,hvalue⟩ := ih
    rw [List.foldl_append,List.foldl_cons,List.foldl_nil]
    refine ⟨hok _ e hlast,?_⟩
    rw [h _ e hlast,hvalue,lastSet_append_singleton]
    cases sets e <;> rfl

end EronKernel.EventTrace

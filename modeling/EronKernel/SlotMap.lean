import Mathlib.Tactic
import Mathlib.Logic.Function.Basic

/-!
# Slot tables that represent finite maps

A table assigns to some of its slots a key and an entry. When no key occurs
in two slots the table represents a map from keys to entries. Clearing a
slot, filling an empty one and replacing a slot's contents correspond to
point updates of the map.
-/

namespace EronKernel.SlotMap

variable {ι κ ε : Type*}

/-- No name occurs in two slots. -/
def Distinct (names : ι→Option κ) : Prop :=
  ∀ i j a,names i=some a→names j=some a→i=j

/-- The table holds exactly the entries of the map, each key in one slot. -/
structure Represents (t : ι→Option (κ×ε)) (m : κ→Option ε) : Prop where
  /-- The map's entries are those of the slots. -/
  mem_iff : ∀ k e,m k=some e ↔ ∃ i,t i=some (k,e)
  /-- No key occurs in two slots. -/
  distinct : Distinct fun i => (t i).map Prod.fst

/-- An empty table represents the empty map. -/
theorem represents_empty : Represents (fun _ : ι => (none : Option (κ×ε))) fun _ => none where
  mem_iff := by simp
  distinct := by
    intro i j a hi
    cases hi

/-- A slot's key leads to that slot's entry. -/
theorem Represents.apply {t : ι→Option (κ×ε)} {m : κ→Option ε} (h : Represents t m) {i : ι} {k : κ}
    {e : ε} (hi : t i=some (k,e)) : m k=some e :=
  (h.mem_iff k e).mpr ⟨i,hi⟩

/-- A key is held by one slot only. -/
theorem Represents.slot_unique {t : ι→Option (κ×ε)} {m : κ→Option ε} (h : Represents t m) {i j : ι}
    {k : κ} {e f : ε} (hi : t i=some (k,e)) (hj : t j=some (k,f)) : i=j :=
  h.distinct i j k (by simp [hi]) (by simp [hj])

/-- A key that no slot holds is not in the map. -/
theorem Represents.apply_none {t : ι→Option (κ×ε)} {m : κ→Option ε} (h : Represents t m) {k : κ}
    (hk : ∀ i e,t i≠some (k,e)) : m k=none := by
  cases hm : m k with
  | none => rfl
  | some e =>
    obtain ⟨i,hi⟩ := (h.mem_iff k e).mp hm
    exact absurd hi (hk i e)

/-- A search over the slots of an array stops at the first slot that matches. -/
theorem find?_finRange_eq_some_iff {n : ℕ} {p : Fin n→Bool} {i : Fin n} :
    (List.finRange n).find? p=some i ↔ p i=true ∧ ∀ j,j < i→p j=false := by
  rw [List.find?_eq_some_iff_getElem]
  refine and_congr_right fun _ => ⟨?_,?_⟩
  · rintro ⟨k,hk,he,hbefore⟩ j hj
    rw [List.getElem_finRange] at he
    rw [←he] at hj
    have hno := hbefore j.val hj
    rwa [List.getElem_finRange,Bool.not_eq_true'] at hno
  · intro hbefore
    refine ⟨i.val,by simp,by simp,fun j hj => ?_⟩
    rw [List.getElem_finRange,Bool.not_eq_true']
    exact hbefore _ hj

/-- The same for a test that decides a property. -/
theorem find?_finRange_iff {n : ℕ} {p : Fin n→Bool} {P : Fin n→Prop} (hp : ∀ j,p j=true ↔ P j) {i : Fin n} :
    (List.finRange n).find? p=some i ↔ P i ∧ ∀ j,j < i→¬P j := by
  rw [find?_finRange_eq_some_iff,hp]
  refine and_congr_right fun _ => forall₂_congr fun j _ => ?_
  rw [←Bool.not_eq_true,hp]

variable [DecidableEq ι]

/-- Emptying a slot keeps names distinct. -/
theorem Distinct.clear {names : ι→Option κ} (h : Distinct names) (i : ι) :
    Distinct (Function.update names i none) := by
  intro j k a hj hk
  rw [Function.update_apply] at hj hk
  split_ifs at hj hk
  exact h j k a hj hk

/-- A name stored in a slot keeps names distinct exactly when no other slot
has it. -/
theorem Distinct.update_iff {names : ι→Option κ} (h : Distinct names) (i : ι) (a : κ) :
    Distinct (Function.update names i (some a)) ↔ ∀ j,j≠i→ names j≠some a := by
  constructor
  · intro hd j hj hn
    refine hj (hd j i a ?_ ?_)
    · rw [Function.update_of_ne hj]
      exact hn
    · rw [Function.update_self]
  · intro hother j k b hj hk
    rw [Function.update_apply] at hj hk
    split_ifs at hj hk with hji hki hki
    · rw [hji,hki]
    · cases hj
      exact absurd hk (hother k hki)
    · cases hk
      exact absurd hj (hother j hji)
    · exact h j k b hj hk

variable [DecidableEq κ]

/-- Clearing a slot removes its key. -/
theorem Represents.clear {t : ι→Option (κ×ε)} {m : κ→Option ε} (h : Represents t m) {i : ι} {k : κ}
    {e : ε} (hi : t i=some (k,e)) :
    Represents (Function.update t i none) (Function.update m k none) where
  mem_iff := by
    intro q f
    by_cases hq : q=k
    · subst hq
      rw [Function.update_self]
      constructor
      · intro hn
        cases hn
      · rintro ⟨j,hj⟩
        rw [Function.update_apply] at hj
        split_ifs at hj with hji
        exact absurd (h.slot_unique hj hi) hji
    · rw [Function.update_of_ne hq,h.mem_iff]
      constructor
      · rintro ⟨j,hj⟩
        refine ⟨j,?_⟩
        rw [Function.update_of_ne,hj]
        rintro rfl
        rw [hi] at hj
        cases hj
        exact hq rfl
      · rintro ⟨j,hj⟩
        rw [Function.update_apply] at hj
        split_ifs at hj
        exact ⟨j,hj⟩
  distinct := by
    have hd := h.distinct.clear i
    convert hd using 1
    funext j
    rw [Function.update_apply,Function.update_apply]
    split_ifs <;> rfl

/-- Filling an empty slot adds its key. -/
theorem Represents.insert {t : ι→Option (κ×ε)} {m : κ→Option ε} (h : Represents t m) {i : ι} {k : κ}
    (e : ε) (hi : t i=none) (hk : m k=none) :
    Represents (Function.update t i (some (k,e))) (Function.update m k (some e)) where
  mem_iff := by
    intro q f
    have hfree : ∀ j g,t j≠some (k,g) := by
      intro j g hj
      rw [h.apply hj] at hk
      cases hk
    by_cases hq : q=k
    · subst hq
      rw [Function.update_self]
      constructor
      · intro he
        cases he
        exact ⟨i,Function.update_self ..⟩
      · rintro ⟨j,hj⟩
        rw [Function.update_apply] at hj
        split_ifs at hj
        · cases hj
          rfl
        · exact absurd hj (hfree j f)
    · rw [Function.update_of_ne hq,h.mem_iff]
      constructor
      · rintro ⟨j,hj⟩
        refine ⟨j,?_⟩
        rw [Function.update_of_ne,hj]
        rintro rfl
        rw [hi] at hj
        cases hj
      · rintro ⟨j,hj⟩
        rw [Function.update_apply] at hj
        split_ifs at hj
        · cases hj
          exact absurd rfl hq
        · exact ⟨j,hj⟩
  distinct := by
    have hd := (h.distinct.update_iff i k).mpr ?_
    · convert hd using 1
      funext j
      rw [Function.update_apply,Function.update_apply]
      split_ifs <;> rfl
    · intro j hj hn
      obtain ⟨⟨q,f⟩,hf,rfl⟩ := Option.map_eq_some_iff.mp hn
      rw [h.apply hf] at hk
      cases hk

/-- Replacing a slot's contents moves its key. -/
theorem Represents.replace {t : ι→Option (κ×ε)} {m : κ→Option ε} (h : Represents t m) {i : ι}
    {k q : κ} {e : ε} (f : ε) (hi : t i=some (k,e)) (hq : q=k ∨ m q=none) :
    Represents (Function.update t i (some (q,f)))
      (Function.update (Function.update m k none) q (some f)) := by
  have hfree : Function.update m k none q=none := by
    rcases hq with rfl|hq
    · exact Function.update_self ..
    · rw [Function.update_apply,hq,ite_self]
  have hr := (h.clear hi).insert f (Function.update_self i none t) hfree
  rwa [Function.update_idem] at hr

end EronKernel.SlotMap

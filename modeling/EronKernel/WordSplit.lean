import Mathlib.Data.List.Basic
import Mathlib.Data.List.TakeWhile

/-!
# Words between separators

The words of a text are its longest runs without a separator. They are found
one after the other from the front, and putting one separator between each
two of them never gives a longer text than the one they were taken from.
-/

namespace EronKernel.WordSplit

variable {α : Type*}

/-- A piece more makes a joined text longer by the piece and a separator. -/
theorem length_intercalate_cons {sep : α} (w : List α) {ws : List (List α)} (hws : ws≠[]) :
    ([sep].intercalate (w::ws)).length=w.length+1+([sep].intercalate ws).length := by
  rw [List.intercalate_cons_of_ne_nil hws]
  simp only [List.length_append,List.length_singleton]

/-- Leaving out empty pieces makes a joined text no longer. -/
theorem length_intercalate_filter_le (sep : α) (ws : List (List α)) :
    ([sep].intercalate (ws.filter fun w => !w.isEmpty)).length ≤ ([sep].intercalate ws).length := by
  induction ws with
  | nil => exact Nat.le_refl 0
  | cons w ws ih =>
    have htail : ([sep].intercalate ws).length ≤ ([sep].intercalate (w::ws)).length := by
      cases ws with
      | nil => exact Nat.zero_le _
      | cons v ws =>
        rw [length_intercalate_cons w (List.cons_ne_nil v ws)]
        omega
    cases w with
    | nil => exact ih.trans htail
    | cons x w =>
      rw [List.filter_cons_of_pos rfl]
      cases hws : ws.filter fun w => !w.isEmpty with
      | nil =>
        cases ws with
        | nil => exact Nat.le_refl _
        | cons v ws =>
          rw [List.intercalate_singleton,length_intercalate_cons (x::w) (List.cons_ne_nil v ws)]
          omega
      | cons v vs =>
        have hne : ws≠[] := by
          rintro rfl
          cases hws
        rw [hws] at ih
        rw [length_intercalate_cons (x::w) (List.cons_ne_nil v vs),length_intercalate_cons (x::w) hne]
        omega

variable [DecidableEq α]

/-- The words of a text in order. -/
def wordsOf (sep : α) (xs : List α) : List (List α) := (xs.splitOn sep).filter fun w => !w.isEmpty

/-- An empty text has no words. -/
@[simp] theorem wordsOf_nil (sep : α) : wordsOf sep []=[] := by
  simp [wordsOf,List.splitOn_nil]

/-- A separator in front changes nothing. -/
@[simp] theorem wordsOf_sep (sep : α) (xs : List α) : wordsOf sep (sep::xs)=wordsOf sep xs := by
  simp [wordsOf,List.splitOn_cons_eq_if_modifyHead]

/-- Separators in front can be skipped. -/
theorem wordsOf_dropWhile (sep : α) (xs : List α) :
    wordsOf sep (xs.dropWhile fun x => x=sep)=wordsOf sep xs := by
  induction xs with
  | nil => rfl
  | cons x xs ih =>
    by_cases hx : x=sep
    · subst hx
      rw [List.dropWhile_cons_of_pos (by simp),wordsOf_sep,ih]
    · rw [List.dropWhile_cons_of_neg (by simpa using hx)]

/-- Separators in front, counted. -/
theorem wordsOf_replicate (sep : α) (n : ℕ) (xs : List α) :
    wordsOf sep (List.replicate n sep++xs)=wordsOf sep xs := by
  induction n with
  | zero => rfl
  | succ n ih => rw [List.replicate_succ,List.cons_append,wordsOf_sep,ih]

/-- A text consists of separators, or a last word or a word and a separator
follow them. -/
theorem words_cases (sep : α) (xs : List α) :
    (∃ n,xs=List.replicate n sep) ∨
      (∃ n w,w≠[] ∧ sep∉w ∧ xs=List.replicate n sep++w) ∨
      ∃ n w rest,w≠[] ∧ sep∉w ∧ xs=List.replicate n sep++(w++sep::rest) := by
  obtain ⟨n,hn⟩ : ∃ n,xs.takeWhile (fun x => decide (x=sep))=List.replicate n sep :=
    ⟨_,List.eq_replicate_of_mem fun x hx => by simpa using List.mem_takeWhile_imp hx⟩
  have hsplit := List.takeWhile_append_dropWhile (p := fun x => decide (x=sep)) (l := xs)
  rw [hn] at hsplit
  cases hrest : xs.dropWhile fun x => decide (x=sep) with
  | nil =>
    rw [hrest,List.append_nil] at hsplit
    exact Or.inl ⟨n,hsplit.symm⟩
  | cons y ys =>
    have hy : y≠sep := by
      have hhead := List.head?_dropWhile_not (fun x => decide (x=sep)) xs
      rw [hrest] at hhead
      simpa using hhead
    have hword := List.takeWhile_append_dropWhile (p := fun x => decide (x≠sep)) (l := y::ys)
    have hne : (y::ys).takeWhile (fun x => decide (x≠sep))≠[] := by
      rw [List.takeWhile_cons_of_pos (by simpa using hy)]
      exact List.cons_ne_nil _ _
    have hsep : sep∉(y::ys).takeWhile fun x => decide (x≠sep) := fun hmem => by
      simpa using List.mem_takeWhile_imp hmem
    rw [hrest,←hword] at hsplit
    cases hlast : (y::ys).dropWhile fun x => decide (x≠sep) with
    | nil =>
      rw [hlast,List.append_nil] at hsplit
      exact Or.inr (Or.inl ⟨n,_,hne,hsep,hsplit.symm⟩)
    | cons z zs =>
      have hz : z=sep := by
        have hhead := List.head?_dropWhile_not (fun x => decide (x≠sep)) (y::ys)
        rw [hlast] at hhead
        simpa using hhead
      rw [hlast,hz] at hsplit
      exact Or.inr (Or.inr ⟨n,_,zs,hne,hsep,hsplit.symm⟩)

/-- A run without separators is one word. -/
theorem wordsOf_word {sep : α} {w : List α} (hne : w≠[]) (hw : sep∉w) : wordsOf sep w=[w] := by
  unfold wordsOf
  rw [List.splitOn_eq_singleton hw]
  simp [hne]

/-- The first word ends at the first separator. -/
theorem wordsOf_word_sep {sep : α} {w : List α} (hne : w≠[]) (hw : sep∉w) (rest : List α) :
    wordsOf sep (w++sep::rest)=w::wordsOf sep rest := by
  unfold wordsOf
  rw [List.splitOn_append_cons_self_of_not_mem hw]
  simp [hne]

/-- A text that does not start with a separator starts with its first word. -/
theorem wordsOf_takeWhile {sep x : α} (hx : x≠sep) (xs : List α) :
    wordsOf sep (x::xs)=((x::xs).takeWhile fun y => y≠sep)::
      wordsOf sep ((x::xs).drop (((x::xs).takeWhile fun y => y≠sep).length+1)) := by
  obtain ⟨w,hw⟩ : ∃ w,(x::xs).takeWhile (fun y => decide (y≠sep))=w := ⟨_,rfl⟩
  obtain ⟨rest,hrest⟩ : ∃ rest,(x::xs).dropWhile (fun y => decide (y≠sep))=rest := ⟨_,rfl⟩
  have hsplit : x::xs=w++rest := by
    rw [←hw,←hrest,List.takeWhile_append_dropWhile]
  have hne : w≠[] := by
    rw [←hw,List.takeWhile_cons_of_pos (by simpa using hx)]
    exact List.cons_ne_nil _ _
  have hsep : sep∉w := by
    intro hmem
    rw [←hw] at hmem
    simpa using List.mem_takeWhile_imp hmem
  rw [hw,hsplit]
  cases rest with
  | nil =>
    rw [List.append_nil,List.drop_eq_nil_of_le (Nat.le_succ _),wordsOf_nil]
    exact wordsOf_word hne hsep
  | cons y rest =>
    have hy : y=sep := by
      have hhead := List.head?_dropWhile_not (fun y => decide (y≠sep)) (x::xs)
      rw [hrest] at hhead
      simpa using hhead
    subst hy
    have hdrop : (w++y::rest).drop (w.length+1)=rest := by
      rw [←List.drop_drop,List.drop_left,List.drop_one,List.tail_cons]
    rw [hdrop]
    exact wordsOf_word_sep hne hsep rest

/-- Words with one separator between each two are no longer than the text
they were taken from. -/
theorem length_intercalate_wordsOf_le (sep : α) (xs : List α) :
    ([sep].intercalate (wordsOf sep xs)).length ≤ xs.length := by
  have h := length_intercalate_filter_le sep (xs.splitOn sep)
  rw [List.intercalate_splitOn] at h
  exact h

end EronKernel.WordSplit

import EronKernel.WordPainting

/-!
# A canvas of points and the array that shows it

A canvas has a colour at every point of an unbounded plane. Strokes colour one
point each, in order; where the colour of a stroke depends on its point alone,
the picture is given by the set of the points. An array of words shows the
part of the canvas whose points are numbered: one word for each of them, and
no two with one number.
-/

namespace EronKernel.CanvasPainting

open ByteMemory WordPainting

section Strokes

variable {π κ : Type*} [DecidableEq π]

/-- Colour one point after the other. -/
def paint (c : π→κ) (strokes : List (π×κ)) : π→κ :=
  strokes.foldl (fun c s => Function.update c s.1 s.2) c

/-- No stroke. -/
@[simp] theorem paint_nil (c : π→κ) : paint c []=c := rfl

/-- One more stroke. -/
@[simp] theorem paint_cons (c : π→κ) (s : π×κ) (strokes : List (π×κ)) :
    paint c (s::strokes)=paint (Function.update c s.1 s.2) strokes := rfl

/-- A point without a stroke is as before. -/
theorem paint_of_notMem {strokes : List (π×κ)} {p : π} (h : ∀ s∈strokes,s.1≠p) (c : π→κ) :
    paint c strokes p=c p := by
  induction strokes generalizing c with
  | nil => rfl
  | cons s strokes ih =>
    rw [paint_cons,ih fun d hd => h d (List.mem_cons_of_mem s hd)]
    exact Function.update_of_ne (h s List.mem_cons_self).symm s.2 c

/-- Where every stroke takes its colour from its point, a stroked point has that
colour. -/
theorem paint_of_mem {f : π→κ} {strokes : List (π×κ)} (h : ∀ s∈strokes,s.2=f s.1) {p : π}
    (hp : ∃ s∈strokes,s.1=p) (c : π→κ) : paint c strokes p=f p := by
  induction strokes generalizing c with
  | nil =>
    obtain ⟨s,hs,_⟩ := hp
    cases hs
  | cons s strokes ih =>
    rw [paint_cons]
    by_cases htail : ∃ d∈strokes,d.1=p
    · exact ih (fun d hd => h d (List.mem_cons_of_mem s hd)) htail _
    · have hs : s.1=p := by
        obtain ⟨d,hd,he⟩ := hp
        obtain rfl|hd := List.mem_cons.mp hd
        · exact he
        · exact absurd ⟨d,hd,he⟩ htail
      rw [paint_of_notMem (fun d hd he => htail ⟨d,hd,he⟩),h s List.mem_cons_self,hs]
      exact Function.update_self p (f p) c

/-- Strokes of one colour. -/
theorem paint_uniform (c : π→κ) (points : List π) (v : κ) (p : π) [Decidable (p∈points)] :
    paint c (points.map fun q => (q,v)) p=if p∈points then v else c p := by
  split_ifs with hp
  · refine paint_of_mem (f := fun _ => v) ?_ ⟨(p,v),List.mem_map.mpr ⟨p,hp,rfl⟩,rfl⟩ c
    intro s hs
    obtain ⟨q,_,rfl⟩ := List.mem_map.mp hs
    rfl
  · refine paint_of_notMem ?_ c
    intro s hs he
    obtain ⟨q,hq,rfl⟩ := List.mem_map.mp hs
    exact hp (he▸hq)

end Strokes

/-- A numbering of some points by the indices of an array of words. -/
structure Window (π : Type*) where
  /-- The index of a point, if it has one. -/
  index : π→Option ℕ
  /-- The indices stay below a quarter of the address space. -/
  small : ∀ {p k},index p=some k→ k<2^30
  /-- No two points have one index. -/
  inj : ∀ {p q k},index p=some k→ index q=some k→ p=q

namespace Window

variable {π : Type*} (w : Window π)

/-- The array shows a canvas. -/
def Shows (m : Mem) (base : Word) (c : π→Word) : Prop :=
  ∀ p k,w.index p=some k→load32 m (element base k)=c p

/-- The address belongs to no word of the array. -/
def Outside (base x : Word) : Prop := ∀ p k,w.index p=some k→¬InRange (element base k) 4 x

variable {w} {m : Mem} {base : Word} {c : π→Word}

/-- Storing at the index of a point colours it. -/
theorem Shows.store [DecidableEq π] (h : w.Shows m base c) {p : π} {k : ℕ} (hp : w.index p=some k) (v : Word) :
    w.Shows (store32 m (element base k) v) base (Function.update c p v) := by
  intro q l hq
  by_cases he : q=p
  · subst he
    rw [hp] at hq
    cases hq
    rw [Function.update_self]
    exact load32_store32 m (element base k) v
  · have hne : l∉[k] := by
      intro hmem
      rw [List.mem_singleton.mp hmem] at hq
      exact he (w.inj hq hp)
    have hsmall : ∀ i∈[k],i<2^30 := fun i hi => List.mem_singleton.mp hi▸w.small hp
    have hone : store32 m (element base k) v=paintWords m base v [k] := rfl
    rw [Function.update_of_ne he,←h q l hq,hone]
    exact load32_paintWords_of_notMem m base v hsmall (w.small hq) hne

/-- A point without an index may have any colour. -/
theorem Shows.hidden [DecidableEq π] (h : w.Shows m base c) {p : π} (hp : w.index p=none) (v : Word) :
    w.Shows m base (Function.update c p v) := by
  intro q l hq
  have he : q≠p := by
    intro he
    rw [he,hp] at hq
    cases hq
  rw [Function.update_of_ne he]
  exact h q l hq

/-- A store at an index leaves the bytes outside alone. -/
theorem Outside.store {x : Word} (h : w.Outside base x) {p : π} {k : ℕ} (hp : w.index p=some k) (v : Word) :
    store32 m (element base k) v x=m x := store32_of_not_inRange v (h p k hp)

end Window

end EronKernel.CanvasPainting

import EronKernel.FramebufferStore

/-!
# Filling a rectangle and clearing the screen

With 32 bits per pixel both fb_fill_rect and fb_clear store one word at a list
of indices: the visible pixels of the rectangle, which may lie outside the
screen in part or as a whole, and the words of the buffer in order. The bytes
that change follow from the lists alone, and the whole screen as a rectangle
has the indices of the whole buffer.
-/

namespace EronKernel.FramebufferFill

open ByteMemory WordPainting FramebufferModel FramebufferStore

/-- The pixels of a rectangle in the order of the loops. -/
def rectPixels (x y w h : ℤ) : List (ℤ×ℤ) :=
  (upTo y (y+h)).flatMap fun j => (upTo x (x+w)).map fun i => (i,j)

/-- The index of a pixel that is on the screen. -/
def visibleIndex (width height : Word) (p : ℤ×ℤ) : Option ℕ :=
  if (0 ≤ p.1 ∧ p.1<width.toNat) ∧ 0 ≤ p.2 ∧ p.2<height.toNat then
    some (pixelIndex width p.1.toNat p.2.toNat)
  else none

/-- A pixel lies in a rectangle. -/
def InRect (x y w h : ℤ) (i j : ℕ) : Prop := (x ≤ i ∧ i<x+w) ∧ y ≤ j ∧ j<y+h

/-- The loops go over the pixels of the rectangle. -/
theorem fbFillRect_eq (fb : Fb) (x y w h : ℤ) (color : Word) :
    fbFillRect fb x y w h color=
      (rectPixels x y w h).foldl (fun fb p => fbPutpixel fb p.1 p.2 color) fb := by
  unfold fbFillRect rectPixels
  rw [List.foldl_flatMap]
  congr 1
  funext fb j
  rw [List.foldl_map]

/-- The indices that a rectangle has on the screen. -/
theorem mem_visibleIndices {width height : Word} {x y w h : ℤ} {k : ℕ} :
    k∈(rectPixels x y w h).filterMap (visibleIndex width height) ↔
      ∃ i j : ℕ,i<width.toNat ∧ j<height.toNat ∧ InRect x y w h i j ∧ pixelIndex width i j=k := by
  rw [List.mem_filterMap]
  unfold rectPixels visibleIndex InRect
  constructor
  · rintro ⟨⟨i,j⟩,hmem,hindex⟩
    obtain ⟨j',hj',hi'⟩ := List.mem_flatMap.mp hmem
    obtain ⟨i',hcolumn,he⟩ := List.mem_map.mp hi'
    cases he
    rw [mem_upTo] at hcolumn hj'
    dsimp only at hindex
    split_ifs at hindex with hin
    exact ⟨i.toNat,j.toNat,by omega,by omega,by omega,Option.some.inj hindex⟩
  · rintro ⟨i,j,hi,hj,hrect,rfl⟩
    refine ⟨(i,j),List.mem_flatMap.mpr ⟨j,mem_upTo.mpr hrect.2,
      List.mem_map.mpr ⟨i,mem_upTo.mpr hrect.1,rfl⟩⟩,?_⟩
    dsimp only
    rw [if_pos (by omega)]
    rfl

section Words

variable {fb s : Fb} {width height buffer : Word}

/-- One side of a screen is below the sign bit, or the other side is zero. -/
theorem sides_words (hfit : SizeFits width height 32) :
    (width.toNat<2^31 ∧ height.toNat<2^31) ∨ (width.toNat=0 ∨ height.toNat=0) := by
  by_cases hzero : width.toNat=0 ∨ height.toNat=0
  · exact Or.inr hzero
  · rw [not_or] at hzero
    obtain ⟨hw,hh⟩ := sides_lt hfit (by decide) (Nat.pos_of_ne_zero hzero.1) (Nat.pos_of_ne_zero hzero.2)
    exact Or.inl ⟨by omega,by omega⟩

/-- The test of the drawing functions is that of the visible pixels. -/
theorem offScreen_words (hfit : SizeFits width height 32)
    (hs : s.fbInfo=(inMode fb width height 32 buffer).fbInfo) (x y : ℤ) :
    offScreen s.fbInfo x y=false ↔ (0 ≤ x ∧ x<width.toNat) ∧ 0 ≤ y ∧ y<height.toNat := by
  rw [hs,inMode_fbInfo]
  unfold offScreen
  simp only [Bool.or_eq_false_iff,decide_eq_false_iff_not]
  obtain ⟨hw,hh⟩|hzero := sides_words hfit
  · rw [toInt_of_lt hw,toInt_of_lt hh]
    omega
  · refine iff_of_false (fun h => ?_) fun h => by omega
    obtain hw|hh := hzero
    · have hint := toInt_of_lt (v:=width) (by omega)
      omega
    · have hint := toInt_of_lt (v:=height) (by omega)
      omega

/-- One pixel paints its index, if it has one. -/
theorem fbPutpixel_mem (hfit : SizeFits width height 32) (hb : buffer≠0)
    (hs : s.fbInfo=(inMode fb width height 32 buffer).fbInfo) (p : ℤ×ℤ) (color : Word) :
    (fbPutpixel s p.1 p.2 color).mem=
      paintWords s.mem buffer color (visibleIndex width height p).toList := by
  unfold visibleIndex
  split_ifs with hin
  · have hbuffer : s.fbInfo.buffer≠0 := by
      rw [hs]
      exact inMode_buffer_ne hb
    rw [fbPutpixel_onScreen color ((offScreen_words hfit hs p.1 p.2).mpr hin) hbuffer,hs]
    have hrow : p.2.toNat<height.toNat := by omega
    have haddress : pixelAddress (inMode fb width height 32 buffer).fbInfo p.1.toNat p.2.toNat=_ :=
      pixelAddress_words hfit p.1.toNat hrow
    rw [Int.toNat_of_nonneg hin.1.1,Int.toNat_of_nonneg hin.2.1] at haddress
    rw [haddress,store_element_mem]
    rfl
  · have hoff : offScreen s.fbInfo p.1 p.2=true :=
      (Bool.eq_false_or_eq_true _).resolve_right fun h => hin ((offScreen_words hfit hs p.1 p.2).mp h)
    unfold fbPutpixel
    rw [hoff,if_pos rfl]
    rfl

/-- Pixels one after the other paint their indices. -/
theorem foldl_putpixel_mem (hfit : SizeFits width height 32) (hb : buffer≠0) (color : Word)
    (pixels : List (ℤ×ℤ)) : ∀ {s : Fb},s.fbInfo=(inMode fb width height 32 buffer).fbInfo→
      (pixels.foldl (fun fb p => fbPutpixel fb p.1 p.2 color) s).mem=
        paintWords s.mem buffer color (pixels.filterMap (visibleIndex width height)) := by
  induction pixels with
  | nil =>
    intro s _
    rfl
  | cons p pixels ih =>
    intro s hs
    have hnext : (fbPutpixel s p.1 p.2 color).fbInfo=(inMode fb width height 32 buffer).fbInfo := by
      rw [fbPutpixel_fbInfo,hs]
    rw [List.foldl_cons,ih hnext,fbPutpixel_mem hfit hb hs]
    cases hp : visibleIndex width height p with
    | none => rw [List.filterMap_cons_none hp]; rfl
    | some k => rw [List.filterMap_cons_some hp]; rfl

/-- A rectangle paints its visible indices. -/
theorem fbFillRect_mem (hfit : SizeFits width height 32) (hb : buffer≠0) (x y w h : ℤ) (color : Word) :
    (fbFillRect (inMode fb width height 32 buffer) x y w h color).mem=
      paintWords (inMode fb width height 32 buffer).mem buffer color
        ((rectPixels x y w h).filterMap (visibleIndex width height)) := by
  rw [fbFillRect_eq]
  exact foldl_putpixel_mem hfit hb color _ rfl

/-- Stores one after the other paint their indices. -/
theorem foldl_store_mem (base color : Word) (indices : List ℕ) :
    ∀ s : Fb,(indices.foldl (fun fb i => fb.store (element base i) color) s).mem=
      paintWords s.mem base color indices := by
  induction indices with
  | nil => intro s; rfl
  | cons i indices ih => intro s; exact ih (s.store (element base i) color)

/-- Clearing paints the words of the buffer. -/
theorem fbClear_mem (hfit : SizeFits width height 32) (hb : buffer≠0) (color : Word) :
    (fbClear (inMode fb width height 32 buffer) color).mem=
      paintWords (inMode fb width height 32 buffer).mem buffer color
        (List.range (width.toNat*height.toNat)) := by
  have hcount : ((inMode fb width height 32 buffer).fbInfo.size/4).toNat=width.toNat*height.toNat := by
    rw [inMode_fbInfo]
    dsimp only
    rw [BitVec.toNat_udiv,toNat_size hfit]
    change width.toNat*4*height.toNat/4=_
    rw [Nat.mul_right_comm,Nat.mul_div_cancel _ (by decide)]
  unfold fbClear
  rw [if_neg (inMode_buffer_ne hb)]
  dsimp only
  rw [hcount,foldl_store_mem,inMode_fbInfo]

/-- The whole screen as a rectangle has the words of the buffer. -/
theorem mem_screenIndices (hfit : SizeFits width height 32) (k : ℕ) :
    k∈(rectPixels 0 0 width.toInt height.toInt).filterMap (visibleIndex width height) ↔
      k∈List.range (width.toNat*height.toNat) := by
  rw [mem_visibleIndices,List.mem_range]
  constructor
  · rintro ⟨i,j,hi,hj,_,rfl⟩
    exact pixelIndex_lt hi hj
  · intro hk
    have hw : 0<width.toNat := Nat.pos_of_mul_pos_right (Nat.zero_lt_of_lt hk)
    have hi : k%width.toNat<width.toNat := Nat.mod_lt _ hw
    have hj : k/width.toNat<height.toNat := Nat.div_lt_of_lt_mul hk
    obtain ⟨hw31,hh31⟩|hzero := sides_words hfit
    · refine ⟨_,_,hi,hj,?_,Nat.div_add_mod k width.toNat⟩
      unfold InRect
      rw [toInt_of_lt hw31,toInt_of_lt hh31]
      generalize k%width.toNat=i at hi
      generalize k/width.toNat=j at hj
      omega
    · generalize k/width.toNat=j at hj
      omega

end Words

/-- In every mode of 32 bits per pixel a rectangle, wherever it lies, sets its
pixels on the screen to the colour and changes no other byte; and the rectangle
of the whole screen leaves the memory that clearing leaves. -/
theorem fill_rect_clips_exactly (fb : Fb) {width height buffer : Word}
    (hfit : SizeFits width height 32) (hb : buffer≠0) (x y w h : ℤ) (color : Word) :
    let s := inMode fb width height 32 buffer
    let t := fbFillRect s x y w h color
    (∀ i j : ℕ,i<width.toNat→j<height.toNat→InRect x y w h i j→
      load32 t.mem (element buffer (pixelIndex width i j))=color) ∧
    (∀ a : Word,(∀ i j : ℕ,i<width.toNat→j<height.toNat→InRect x y w h i j→
      ¬InRange (element buffer (pixelIndex width i j)) 4 a)→t.mem a=s.mem a) ∧
    (fbFillRect s 0 0 width.toInt height.toInt color).mem=(fbClear s color).mem := by
  intro s t
  have hsmall : ∀ {x y w h : ℤ},∀ k∈(rectPixels x y w h).filterMap (visibleIndex width height),k<2^30 := by
    intro x y w h k hk
    obtain ⟨i,j,hi,hj,_,rfl⟩ := mem_visibleIndices.mp hk
    exact pixelIndex_small hfit hi hj
  have hfill : t.mem=paintWords s.mem buffer color _ := fbFillRect_mem hfit hb x y w h color
  refine ⟨?_,?_,?_⟩
  · intro i j hi hj hrect
    rw [hfill]
    exact load32_paintWords _ _ _ hsmall (mem_visibleIndices.mpr ⟨i,j,hi,hj,hrect,rfl⟩)
  · intro a ha
    rw [hfill,paintWords_apply buffer color hsmall,if_neg]
    intro hmem
    obtain ⟨i,j,hi,hj,hrect,hindex⟩ := mem_visibleIndices.mp hmem
    exact ha i j hi hj hrect ((inRange_element_iff (pixelIndex_small hfit hi hj)).mpr hindex.symm)
  · rw [fbFillRect_mem hfit hb,fbClear_mem hfit hb]
    exact paintWords_congr _ _ _ hsmall (mem_screenIndices hfit)

/-- A rectangle that lies half to the left of a screen of two pixels. -/
theorem half_rect_clips_exactly :
    let s := inMode blankFb 2 1 32 0x1000
    let t := fbFillRect s (-1) 0 2 1 7
    (∀ i j : ℕ,i<(2 : Word).toNat→j<(1 : Word).toNat→InRect (-1) 0 2 1 i j→
      load32 t.mem (element 0x1000 (pixelIndex 2 i j))=7) ∧
    (∀ a : Word,(∀ i j : ℕ,i<(2 : Word).toNat→j<(1 : Word).toNat→InRect (-1) 0 2 1 i j→
      ¬InRange (element 0x1000 (pixelIndex 2 i j)) 4 a)→t.mem a=s.mem a) ∧
    (fbFillRect s 0 0 (2 : Word).toInt (1 : Word).toInt 7).mem=(fbClear s 7).mem :=
  fill_rect_clips_exactly blankFb (by unfold SizeFits; decide) (by decide) (-1) 0 2 1 7

end EronKernel.FramebufferFill

import EronKernel.FramebufferText

/-!
# Pictures of runs of drawing calls

Every drawing call is a change of the canvas that does not depend on the
screen: a point, a rectangle, a disc, an octagon, a character cell or a text.
After any calls in any order the screen shows the canvas that the changes lead
to, clipped at its edges. The drawing functions compute with numbers here, so a
call that could overflow an int, which has no meaning in the source, is given no
value.
-/

namespace EronKernel.FramebufferPictures

open ByteMemory CString FuelLoop StringScan WordPainting CanvasPainting
open FramebufferModel FramebufferStore FramebufferFill CircleOutline FramebufferDrawing FramebufferCanvas
open FramebufferText

/-- The points of a rectangle. -/
theorem mem_rectPixels {x y w h : ℤ} {p : ℤ×ℤ} :
    p∈rectPixels x y w h ↔ (x ≤ p.1 ∧ p.1<x+w) ∧ y ≤ p.2 ∧ p.2<y+h := by
  unfold rectPixels
  rw [List.mem_flatMap]
  constructor
  · intro ⟨j,hj,hp⟩
    obtain ⟨i,hi,rfl⟩ := List.mem_map.mp hp
    exact ⟨mem_upTo.mp hi,mem_upTo.mp hj⟩
  · intro ⟨hi,hj⟩
    exact ⟨p.2,mem_upTo.mpr hj,List.mem_map.mpr ⟨p.1,mem_upTo.mpr hi,rfl⟩⟩

/-- The points of a disc. -/
theorem mem_diskPixels {cx cy r : ℤ} {p : ℤ×ℤ} :
    p∈diskPixels cx cy r ↔ 0 ≤ r ∧ (p.1-cx)^2+(p.2-cy)^2 ≤ r^2 := by
  unfold diskPixels
  rw [List.mem_flatMap]
  constructor
  · intro ⟨yr,hy,hp⟩
    obtain ⟨xr,hx,rfl⟩ := List.mem_map.mp hp
    obtain ⟨_,hle⟩ := List.mem_filter.mp hx
    have hdist := of_decide_eq_true hle
    rw [mem_upTo] at hy
    refine ⟨by omega,?_⟩
    dsimp only
    rw [add_sub_cancel_left,add_sub_cancel_left,sq,sq,sq]
    exact hdist
  · intro ⟨hr,hdist⟩
    have hside : ∀ a b : ℤ,a^2+b^2 ≤ r^2→ -r ≤ a ∧ a<r+1 := by
      intro a b hab
      have habs := abs_le_of_sq_le_sq' (by linarith [sq_nonneg b] : a^2 ≤ r^2) hr
      exact ⟨habs.1,Int.lt_add_one_of_le habs.2⟩
    refine ⟨p.2-cy,mem_upTo.mpr (hside _ (p.1-cx) (by linarith)),List.mem_map.mpr ⟨p.1-cx,?_,?_⟩⟩
    · refine List.mem_filter.mpr ⟨mem_upTo.mpr (hside _ _ hdist),decide_eq_true ?_⟩
      rw [←sq,←sq,←sq]
      exact hdist
    · exact Prod.ext (add_sub_cancel cx p.1) (add_sub_cancel cy p.2)

/-- Stores keep the mode. -/
theorem foldl_store_fbInfo (base color : Word) (indices : List ℕ) :
    ∀ s : Fb,(indices.foldl (fun fb i => fb.store (element base i) color) s).fbInfo=s.fbInfo := by
  induction indices with
  | nil => exact fun _ => rfl
  | cons i indices ih => exact fun s => ih (s.store (element base i) color)

/-- The words of a screen's buffer. -/
theorem count_words (d : Screen) : (d.mode.size/4).toNat=d.width.toNat*d.height.toNat := by
  unfold Screen.mode
  rw [inMode_fbInfo]
  dsimp only
  rw [BitVec.toNat_udiv,toNat_size d.fits]
  change d.width.toNat*4*d.height.toNat/4=_
  rw [Nat.mul_right_comm,Nat.mul_div_cancel _ (by decide)]

/-- Every word of the buffer is a pixel. -/
theorem exists_pixel (d : Screen) {k : ℕ} (hk : k<d.width.toNat*d.height.toNat) :
    ∃ p,d.window.index p=some k := by
  obtain ⟨i,j,hi,hj,_,hindex⟩ := mem_visibleIndices.mp ((mem_screenIndices d.fits k).mpr (List.mem_range.mpr hk))
  refine ⟨((i : ℤ),(j : ℤ)),?_⟩
  change visibleIndex d.width d.height _=_
  unfold visibleIndex
  rw [if_pos (by dsimp only; omega)]
  exact congrArg some hindex

/-- Every pixel is a word of the buffer. -/
theorem index_lt {d : Screen} {p : ℤ×ℤ} {k : ℕ} (hp : d.window.index p=some k) :
    k<d.width.toNat*d.height.toNat := by
  change visibleIndex d.width d.height p=some k at hp
  unfold visibleIndex at hp
  split_ifs at hp
  rw [←Option.some.inj hp]
  exact pixelIndex_lt (by omega) (by omega)

/-- An address outside is one behind the words of the buffer. -/
theorem outside_iff {d : Screen} {x : Word} :
    d.window.Outside d.buffer x ↔ ¬InRange d.buffer (4*(d.width.toNat*d.height.toNat)) x := by
  unfold InRange
  constructor
  · intro hout hin
    obtain ⟨p,hp⟩ := exists_pixel d (by unfold indexOf; omega : indexOf d.buffer x<_)
    exact hout p _ hp ((inRange_element_iff (d.window.small hp)).mpr rfl)
  · intro hnot p k hp hin
    have hindex := (inRange_element_iff (d.window.small hp)).mp hin
    have hlt := index_lt hp
    unfold indexOf at hindex
    omega

/-- fb_clear gives every point one colour. -/
theorem depicts_clear {d : Screen} {m : Mem} {fb : Fb} {c : ℤ×ℤ→Word} (h : d.Depicts m fb c) (color : Word) :
    d.Depicts m (fbClear fb color) fun _ => color := by
  have hbuffer : d.mode.buffer=d.buffer := by
    unfold Screen.mode
    rw [inMode_fbInfo]
  have hclear : fbClear fb color=
      (List.range (d.width.toNat*d.height.toNat)).foldl (fun fb i => fb.store (element d.buffer i) color) fb := by
    unfold fbClear
    dsimp only
    rw [h.mode,if_neg (by rw [hbuffer]; exact d.nonzero),count_words,hbuffer]
  have hmem := foldl_store_mem d.buffer color (List.range (d.width.toNat*d.height.toNat)) fb
  have hsmall : ∀ k∈List.range (d.width.toNat*d.height.toNat),k<2^30 := by
    intro k hk
    obtain ⟨p,hp⟩ := exists_pixel d (List.mem_range.mp hk)
    exact d.window.small hp
  rw [hclear]
  refine ⟨(foldl_store_fbInfo _ _ _ fb).trans h.mode,?_,?_⟩
  · intro p k hp
    rw [hmem]
    exact load32_paintWords _ _ _ hsmall (List.mem_range.mpr (index_lt hp))
  · intro x hx
    rw [hmem,paintWords_apply d.buffer color hsmall,if_neg]
    · exact h.outside x hx
    · intro hk
      obtain ⟨p,hp⟩ := exists_pixel d (List.mem_range.mp hk)
      exact hx p _ hp ((inRange_element_iff (hsmall _ hk)).mpr rfl)

/-- A drawing call. -/
inductive DrawCall where
  /-- fb_putpixel. -/
  | putpixel (x y : ℤ) (color : Word)
  /-- fb_clear. -/
  | clear (color : Word)
  /-- fb_fill_rect. -/
  | fillRect (x y w h : ℤ) (color : Word)
  /-- fb_draw_circle. -/
  | circle (cx cy r : ℤ) (color : Word)
  /-- fb_draw_filled_circle. -/
  | filledCircle (cx cy r : ℤ) (color : Word)
  /-- fb_draw_char. -/
  | char (x y : ℤ) (c : Byte) (fg bg : Word)
  /-- fb_draw_string. -/
  | string (x y : ℤ) (s fg bg : Word)
  /-- fb_swap. -/
  | swap

/-- The text at an address. -/
def textAt (m : Mem) (s : Word) : List Byte := ((stringAt m s).map CStr.bytes).getD []

/-- The number is an int. -/
def IsInt (a : ℤ) : Prop := -2147483648 ≤ a ∧ a ≤ 2147483647

instance (a : ℤ) : Decidable (IsInt a) := inferInstanceAs (Decidable (_ ∧ _))

/-- How the locals of fb_draw_circle stay bounded: the error term grows by two
columns with every move to the left, which is what the square of the column and
the column lose. -/
structure CircleBounds (r : ℤ) (c : Outline) : Prop where
  /-- The rows are counted from zero. -/
  y : 0≤c.y
  /-- No column is to the right of the first. -/
  x : c.x≤r
  /-- Every turn goes up, and at most one column to the left. -/
  corner : r≤c.x+c.y
  /-- The error term is never below zero. -/
  err : 0≤c.err
  /-- It is bounded by the columns that are behind the loop. -/
  sum : c.err+c.x^2+c.x ≤ r^2+2*r

/-- A turn keeps the bounds. -/
theorem circleBounds_next {r : ℤ} {c : Outline} (h : CircleBounds r c) (hle : c.y≤c.x) (cx cy : ℤ)
    (color : Word) : CircleBounds r (c.next cx cy color) := by
  have hy := h.y
  have hx := h.x
  have herr := h.err
  have hcorner := h.corner
  have hsum := h.sum
  have hup := next_y cx cy color c
  by_cases hlt : c.err+(1+2*(c.y+1))<c.x
  · obtain ⟨hcol,hterm⟩ := next_of_lt cx cy color hlt
    refine ⟨?_,?_,?_,?_,?_⟩
    · omega
    · omega
    · omega
    · omega
    · rw [hcol,hterm]
      have hsq : c.x^2≤r^2 := by nlinarith
      omega
  · obtain ⟨hcol,hterm⟩ := next_of_le cx cy color (Int.not_lt.mp hlt)
    refine ⟨?_,?_,?_,?_,?_⟩
    · omega
    · omega
    · omega
    · omega
    · rw [hcol,hterm]
      have hsq : (c.x-1)^2=c.x^2-2*c.x+1 := by ring
      omega

/-- The ints that one turn computes: the points it plots, the error term with
its test, and the error term that it leaves. -/
def TurnFits (cx cy : ℤ) (color : Word) (c : Outline) : Prop :=
  (∀ p∈octants cx cy c.x c.y,IsInt p.1 ∧ IsInt p.2) ∧ IsInt (c.err+(1+2*(c.y+1))) ∧
    IsInt (2*(c.err+(1+2*(c.y+1))-c.x)+1) ∧ IsInt (c.next cx cy color).err

/-- Under the bounds a turn computes ints when the extreme points are ints and
the square of the radius is half of one. -/
theorem turnFits_of_bounds {cx cy r : ℤ} {c : Outline} (h : CircleBounds r c) (hle : c.y≤c.x)
    (hx : IsInt (cx-r) ∧ IsInt (cx+r)) (hy : IsInt (cy-r) ∧ IsInt (cy+r)) (hr : IsInt (2*r*r)) (color : Word) :
    TurnFits cx cy color c := by
  have hnext := circleBounds_next h hle cx cy color
  obtain ⟨hy0,hxr,hcorner,herr,hsum⟩ := h
  obtain ⟨_,hxr',_,herr',hsum'⟩ := hnext
  unfold IsInt at hx hy hr
  have hradius : r≤32767 := by nlinarith
  have hcol : c.x*r≤2*c.x^2 := by nlinarith
  have hrad : r*r≤2*(c.x*r) := by nlinarith
  have hleft := sq_nonneg (2*(c.next cx cy color).x+1)
  refine ⟨?_,?_,?_,?_⟩
  · intro p hp
    simp only [octants,List.mem_cons,List.not_mem_nil,or_false] at hp
    unfold IsInt
    rcases hp with rfl|rfl|rfl|rfl|rfl|rfl|rfl|rfl <;> dsimp only <;> omega
  · exact ⟨by omega,by linarith⟩
  · exact ⟨by omega,by linarith⟩
  · exact ⟨by omega,by linarith⟩

/-- So every turn of fb_draw_circle does. -/
theorem circle_turns_fit (fb : Fb) {cx cy r : ℤ} (color : Word) (hx : IsInt (cx-r) ∧ IsInt (cx+r))
    (hy : IsInt (cy-r) ∧ IsInt (cy+r)) (hr : IsInt (2*r*r)) {k : ℕ}
    (hk : ∀ l≤k,(circleAt fb cx cy r color l).y≤(circleAt fb cx cy r color l).x) :
    TurnFits cx cy color (circleAt fb cx cy r color k) := by
  have hbounds : ∀ l≤k,CircleBounds r (circleAt fb cx cy r color l) := by
    intro l
    induction l with
    | zero =>
      intro _
      have h0 : 0≤ r := hk 0 (Nat.zero_le k)
      exact ⟨Int.le_refl 0,Int.le_refl r,by change r≤ r+0; omega,Int.le_refl 0,by change 0+r^2+r≤_; omega⟩
    | succ l ih =>
      intro hl
      rw [circleAt_succ]
      exact circleBounds_next (ih (by omega)) (hk l (by omega)) cx cy color
  exact turnFits_of_bounds (hbounds k (Nat.le_refl k)) (hk k (Nat.le_refl k)) hx hy hr color

/-- No int of a call overflows: the far corner of a rectangle, the extreme points
of a circle and the squares of two offsets together, the last column and row of
a character cell, and the position behind a text are ints. -/
def DrawCall.IntsFit (m : Mem) : DrawCall→Prop
  | .putpixel x y _ => IsInt x ∧ IsInt y
  | .fillRect x y w h _ => (IsInt x ∧ IsInt w ∧ IsInt (x+w)) ∧ IsInt y ∧ IsInt h ∧ IsInt (y+h)
  | .circle cx cy r _ | .filledCircle cx cy r _ =>
    (IsInt (cx-r) ∧ IsInt (cx+r)) ∧ (IsInt (cy-r) ∧ IsInt (cy+r)) ∧ IsInt (2*r*r)
  | .char x y _ _ _ => (IsInt x ∧ IsInt (x+7)) ∧ IsInt y ∧ IsInt (y+7)
  | .string x y s _ _ =>
    (IsInt x ∧ IsInt (x+8*(textAt m s).length)) ∧ IsInt y ∧ IsInt (y+10*(textAt m s).length)
  | .clear _ | .swap => True

instance (m : Mem) : (call : DrawCall)→Decidable (call.IntsFit m)
  | .putpixel .. | .fillRect .. | .circle .. | .filledCircle .. | .char .. | .string .. =>
    inferInstanceAs (Decidable (_ ∧ _))
  | .clear .. | .swap => inferInstanceAs (Decidable True)

/-- The function of a call on the framebuffer; the inner value is missing when it
reads behind the font. -/
def DrawCall.exec (fuel : ℕ) (fb : Fb) : DrawCall→Option (Option Fb)
  | .putpixel x y color => some (some (fbPutpixel fb x y color))
  | .clear color => some (some (fbClear fb color))
  | .fillRect x y w h color => some (some (fbFillRect fb x y w h color))
  | .circle cx cy r color => (fbDrawCircle fuel fb cx cy r color).map fun o => some o.fb
  | .filledCircle cx cy r color => some (some (fbDrawFilledCircle fb cx cy r color))
  | .char x y c fg bg => some (fbDrawChar fb x y c fg bg)
  | .string x y s fg bg => fbDrawString fuel fb x y s fg bg
  | .swap => some (some (fbSwap fb))

/-- A call; no value when an int of it overflows. -/
def DrawCall.run (fuel : ℕ) (fb : Fb) (call : DrawCall) : Option (Option Fb) :=
  if call.IntsFit fb.mem then call.exec fuel fb else none

/-- Calls one after the other, until one reads behind the font. -/
def drawCalls (fuel : ℕ) : Fb→List DrawCall→Option (Option Fb)
  | fb,[] => some (some fb)
  | fb,call::calls => (call.run fuel fb).bind fun out =>
    match out with
    | none => some none
    | some t => drawCalls fuel t calls

/-- A call on the canvas, its text being read in the given memory. -/
def DrawCall.picture (m : Mem) (c : ℤ×ℤ→Word) : DrawCall→ℤ×ℤ→Word
  | .putpixel x y color => Function.update c (x,y) color
  | .clear color => fun _ => color
  | .fillRect x y w h color => fun p =>
    if (x ≤ p.1 ∧ p.1<x+w) ∧ y ≤ p.2 ∧ p.2<y+h then color else c p
  | .circle cx cy r color => fun p => if p∈outlinePoints cx cy r then color else c p
  | .filledCircle cx cy r color => fun p => if 0 ≤ r ∧ (p.1-cx)^2+(p.2-cy)^2 ≤ r^2 then color else c p
  | .char x y ch fg bg => paintChar c x y ch fg bg
  | .string x y s fg bg => paintText x fg bg c x y (textAt m s)
  | .swap => c

/-- Calls one after the other on the canvas. -/
def pictures (m : Mem) (c : ℤ×ℤ→Word) (calls : List DrawCall) : ℤ×ℤ→Word :=
  calls.foldl (fun c call => call.picture m c) c

/-- The text of a call ends, and none of it lies in the buffer. -/
def DrawCall.Placed (d : Screen) (m : Mem) : DrawCall→Prop
  | .string _ _ s _ _ => ∃ text,HoldsString m s text ∧
    ∀ i≤text.bytes.length,¬InRange d.buffer (4*(d.width.toNat*d.height.toNat)) (s+BitVec.ofNat 32 i)
  | _ => True

/-- The font has every character of a call. -/
def DrawCall.Readable (m : Mem) : DrawCall→Prop
  | .char _ _ ch _ _ => HasGlyph ch
  | .string _ _ s _ _ => Legible (textAt m s)
  | _ => True

/-- A placed text is read where it lies. -/
theorem textAt_of_placed {d : Screen} {m : Mem} {s : Word} {text : CStr} (h : HoldsString m s text)
    (hout : ∀ i≤text.bytes.length,d.window.Outside d.buffer (s+BitVec.ofNat 32 i)) :
    TextAt d m s (textAt m s) := by
  have hsuffix : ∀ (bs pre : List Byte),text.bytes=pre++bs→TextAt d m (s+BitVec.ofNat 32 pre.length) bs := by
    intro bs
    induction bs with
    | nil =>
      intro pre hpre
      rw [List.append_nil] at hpre
      rw [←hpre]
      exact ⟨hout _ (Nat.le_refl _),h.terminated⟩
    | cons b bs ih =>
      intro pre hpre
      have hlen : pre.length<text.bytes.length := by
        rw [hpre,List.length_append,List.length_cons]
        omega
      have hbyte : text.bytes[pre.length]=b := by simp [hpre]
      have hread := h.bytes pre.length hlen
      refine ⟨hout _ (Nat.le_of_lt hlen),hread.trans hbyte,?_,?_⟩
      · rw [←hbyte]
        exact fun hzero => text.nonzero (hzero▸List.getElem_mem hlen)
      · have hnext := ih (pre++[b]) (by rw [hpre,List.append_assoc]; rfl)
        rw [List.length_append,List.length_singleton,BitVec.ofNat_add,←BitVec.add_assoc] at hnext
        exact hnext
  have htext : textAt m s=text.bytes := by
    unfold textAt
    rw [h.stringAt_eq]
    rfl
  rw [htext]
  have hwhole := hsuffix text.bytes [] rfl
  rw [List.length_nil,BitVec.add_zero] at hwhole
  exact hwhole

/-- Drawing leaves the text of a placed call alone, and so its ints. -/
theorem DrawCall.intsFit_congr {d : Screen} {m : Mem} {fb : Fb} {c : ℤ×ℤ→Word} (h : d.Depicts m fb c)
    {call : DrawCall} (hplaced : call.Placed d m) : call.IntsFit fb.mem ↔ call.IntsFit m := by
  cases call with
  | string x y s fg bg =>
    obtain ⟨text,htext,hfar⟩ := hplaced
    have hkept : ∀ i≤text.bytes.length,fb.mem (s+BitVec.ofNat 32 i)=m (s+BitVec.ofNat 32 i) :=
      fun i hi => h.outside _ (outside_iff.mpr (hfar i hi))
    have hnow : HoldsString fb.mem s text := by
      refine ⟨htext.length_lt,fun i hi => ?_,?_⟩
      · rw [hkept i (Nat.le_of_lt hi)]
        exact htext.bytes i hi
      · rw [hkept _ (Nat.le_refl _)]
        exact htext.terminated
    have hsame : textAt fb.mem s=textAt m s := by
      unfold textAt
      rw [hnow.stringAt_eq,htext.stringAt_eq]
    simp only [IntsFit,hsame]
  | _ => exact Iff.rfl

/-- A call whose characters are in the font draws its picture. -/
theorem DrawCall.depicts {d : Screen} {m : Mem} {fb : Fb} {c : ℤ×ℤ→Word} (h : d.Depicts m fb c)
    {call : DrawCall} (hplaced : call.Placed d m) (hread : call.Readable m) (hints : call.IntsFit m) :
    ∃ fuel t,call.run fuel fb=some (some t) ∧ d.Depicts m t (call.picture m c) := by
  unfold DrawCall.run
  simp only [if_pos ((intsFit_congr h hplaced).mpr hints)]
  cases call with
  | putpixel x y color => exact ⟨0,_,rfl,h.putpixel (x,y) color⟩
  | clear color => exact ⟨0,_,rfl,depicts_clear h color⟩
  | fillRect x y w h' color =>
    refine ⟨0,_,rfl,?_⟩
    have hrect := h.uniform (rectPixels x y w h') color
    rw [←fbFillRect_eq] at hrect
    simp only [mem_rectPixels] at hrect
    exact hrect
  | circle cx cy r color =>
    obtain ⟨fuel,out,hrun,hout⟩ := h.circle cx cy r color
    exact ⟨fuel,out.fb,congrArg (Option.map fun o : Outline => some o.fb) hrun,hout⟩
  | filledCircle cx cy r color =>
    refine ⟨0,_,rfl,?_⟩
    have hdisk := h.uniform (diskPixels cx cy r) color
    rw [←fbDrawFilledCircle_eq] at hdisk
    simp only [mem_diskPixels] at hdisk
    exact hdisk
  | char x y ch fg bg =>
    obtain ⟨t,hrun,ht⟩ := depicts_char h x y hread fg bg
    exact ⟨0,t,congrArg some hrun,ht⟩
  | string x y s fg bg =>
    obtain ⟨text,htext,hfar⟩ := hplaced
    have hout := fun i hi => outside_iff.mpr (hfar i hi)
    obtain ⟨t,hrun,ht⟩ := depicts_text x fg bg _ x y h (textAt_of_placed htext hout) hread
    exact ⟨(textAt m s).length+1,t,hrun,ht⟩
  | swap => exact ⟨0,fb,rfl,h⟩

/-- A call with a character behind the font reads behind it. -/
theorem DrawCall.past {d : Screen} {m : Mem} {fb : Fb} {c : ℤ×ℤ→Word} (h : d.Depicts m fb c)
    {call : DrawCall} (hplaced : call.Placed d m) (hread : ¬call.Readable m) (hints : call.IntsFit m) :
    ∃ fuel,call.run fuel fb=some none := by
  unfold DrawCall.run
  simp only [if_pos ((intsFit_congr h hplaced).mpr hints)]
  cases call with
  | char x y ch fg bg => exact ⟨0,congrArg some (fbDrawChar_past fb x y hread fg bg)⟩
  | string x y s fg bg =>
    obtain ⟨text,htext,hfar⟩ := hplaced
    have hout := fun i hi => outside_iff.mpr (hfar i hi)
    exact ⟨(textAt m s).length+1,text_past x fg bg _ x y h (textAt_of_placed htext hout) hread⟩
  | _ => exact absurd trivial hread

/-- More fuel does not change a call that returned. -/
theorem DrawCall.run_mono {fuel more : ℕ} (hle : fuel ≤ more) {fb : Fb} {call : DrawCall} {out : Option Fb}
    (hrun : call.run fuel fb=some out) : call.run more fb=some out := by
  unfold DrawCall.run at hrun ⊢
  split_ifs at hrun ⊢
  cases call with
  | circle cx cy r color =>
    obtain ⟨o,ho,rfl⟩ := Option.map_eq_some_iff.mp hrun
    have hmore : fbDrawCircle more fb cx cy r color=some o := runLoop_mono hle ho
    exact congrArg (Option.map fun o : Outline => some o.fb) hmore
  | string x y s fg bg => exact runLoop_mono hle hrun
  | _ => exact hrun

/-- More fuel does not change calls that returned. -/
theorem drawCalls_mono {fuel more : ℕ} (hle : fuel ≤ more) (calls : List DrawCall) :
    ∀ {fb : Fb} {out : Option Fb},drawCalls fuel fb calls=some out→drawCalls more fb calls=some out := by
  induction calls with
  | nil => exact fun h => h
  | cons call calls ih =>
    intro fb out h
    unfold drawCalls at h ⊢
    obtain ⟨mid,hone,hrest⟩ := Option.bind_eq_some_iff.mp h
    rw [DrawCall.run_mono hle hone,Option.bind_some]
    cases mid with
    | none => exact hrest
    | some t => exact ih hrest

/-- A call that returned is followed by the rest. -/
theorem drawCalls_cons {fuel more : ℕ} {fb t : Fb} {call : DrawCall} {calls : List DrawCall} {out : Option Fb}
    (hone : call.run fuel fb=some (some t)) (hrest : drawCalls more t calls=some out) :
    drawCalls (max fuel more) fb (call::calls)=some out := by
  unfold drawCalls
  rw [DrawCall.run_mono (le_max_left fuel more) hone,Option.bind_some]
  exact drawCalls_mono (le_max_right fuel more) calls hrest

/-- Calls whose characters are in the font draw their pictures. -/
theorem drawCalls_depict {d : Screen} {m : Mem} (calls : List DrawCall) :
    ∀ {fb : Fb} {c : ℤ×ℤ→Word},d.Depicts m fb c→
      (∀ call∈calls,call.Placed d m ∧ call.Readable m ∧ call.IntsFit m)→
      ∃ fuel t,drawCalls fuel fb calls=some (some t) ∧ d.Depicts m t (pictures m c calls) := by
  induction calls with
  | nil => exact fun h _ => ⟨0,_,rfl,h⟩
  | cons call calls ih =>
    intro fb c h hall
    obtain ⟨hplaced,hread,hints⟩ := hall call List.mem_cons_self
    obtain ⟨fuel,t,hone,ht⟩ := DrawCall.depicts h hplaced hread hints
    obtain ⟨more,u,hrest,hu⟩ := ih ht fun e he => hall e (List.mem_cons_of_mem call he)
    exact ⟨max fuel more,u,drawCalls_cons hone hrest,hu⟩

/-- Calls with a character behind the font read behind it. -/
theorem drawCalls_past {d : Screen} {m : Mem} (calls : List DrawCall) :
    ∀ {fb : Fb} {c : ℤ×ℤ→Word},d.Depicts m fb c→(∀ call∈calls,call.Placed d m ∧ call.IntsFit m)→
      (∃ call∈calls,¬call.Readable m)→∃ fuel,drawCalls fuel fb calls=some none := by
  induction calls with
  | nil => exact fun _ _ ⟨_,hmem,_⟩ => absurd hmem List.not_mem_nil
  | cons call calls ih =>
    intro fb c h hall hex
    obtain ⟨hplaced,hints⟩ := hall call List.mem_cons_self
    by_cases hread : call.Readable m
    · obtain ⟨fuel,t,hone,ht⟩ := DrawCall.depicts h hplaced hread hints
      obtain ⟨bad,hbad,hnot⟩ := hex
      obtain rfl|hbad := List.mem_cons.mp hbad
      · exact absurd hread hnot
      · obtain ⟨more,hrest⟩ := ih ht (fun e he => hall e (List.mem_cons_of_mem call he)) ⟨bad,hbad,hnot⟩
        exact ⟨max fuel more,drawCalls_cons hone hrest⟩
    · obtain ⟨fuel,hone⟩ := DrawCall.past h hplaced hread hints
      refine ⟨fuel,?_⟩
      unfold drawCalls
      rw [hone]
      rfl

/-- A visible pixel is read at its index. -/
theorem getpixel_word {d : Screen} {fb : Fb} (hmode : fb.fbInfo=d.mode) {x y : ℤ}
    (hin : offScreen d.mode x y=false) :
    ∃ k,d.window.index (x,y)=some k ∧ fbGetpixel fb x y=load32 fb.mem (element d.buffer k) := by
  have hvisible := (offScreen_words d.fits hmode x y).mp (by rw [hmode]; exact hin)
  have hbuffer : fb.fbInfo.buffer≠0 := by
    rw [hmode]
    exact inMode_buffer_ne d.nonzero
  have haddress : pixelAddress d.mode x.toNat y.toNat=_ :=
    pixelAddress_words d.fits x.toNat (by omega : y.toNat<d.height.toNat)
  rw [Int.toNat_of_nonneg hvisible.1.1,Int.toNat_of_nonneg hvisible.2.1] at haddress
  refine ⟨pixelIndex d.width x.toNat y.toNat,if_pos hvisible,?_⟩
  rw [fbGetpixel_onScreen (by rw [hmode]; exact hin) hbuffer,hmode,haddress]

/-- A framebuffer in the mode of a screen depicts what it is read as. -/
theorem depicts_getpixel {d : Screen} {fb : Fb} (hmode : fb.fbInfo=d.mode) :
    d.Depicts fb.mem fb fun p => fbGetpixel fb p.1 p.2 := by
  refine ⟨hmode,?_,fun _ _ => rfl⟩
  intro p k hp
  have hvisible : (0 ≤ p.1 ∧ p.1<d.width.toNat) ∧ 0 ≤ p.2 ∧ p.2<d.height.toNat := by
    by_contra hc
    have hnone : d.window.index p=none := if_neg hc
    rw [hnone] at hp
    cases hp
  have hin : offScreen d.mode p.1 p.2=false := (offScreen_words d.fits rfl p.1 p.2).mpr hvisible
  obtain ⟨l,hl,hread⟩ := getpixel_word hmode hin
  rw [hp] at hl
  cases hl
  exact hread.symm

/-- A framebuffer that depicts a canvas is read as its visible part. -/
theorem getpixel_of_depicts {d : Screen} {m : Mem} {fb : Fb} {c : ℤ×ℤ→Word} (h : d.Depicts m fb c)
    {x y : ℤ} (hin : offScreen d.mode x y=false) : fbGetpixel fb x y=c (x,y) := by
  obtain ⟨k,hk,hread⟩ := getpixel_word h.mode hin
  exact hread.trans (h.shows (x,y) k hk)

/-- In every mode of 32 bits per pixel, after any drawing calls in any order
whose texts lie outside the buffer and whose ints do not overflow: when the font has their characters, the
calls return, every visible pixel has the colour that the pictures of the calls
give it on the unbounded canvas, and no byte outside the buffer has changed;
when one character is not there, the drawing reads behind the font. -/
theorem drawing_refines_canvas (d : Screen) {fb : Fb} (hmode : fb.fbInfo=d.mode) (calls : List DrawCall)
    (hplaced : ∀ call∈calls,call.Placed d fb.mem) (hints : ∀ call∈calls,call.IntsFit fb.mem) :
    ((∀ call∈calls,call.Readable fb.mem)→∃ fuel t,drawCalls fuel fb calls=some (some t) ∧
      (∀ x y,offScreen d.mode x y=false→
        fbGetpixel t x y=pictures fb.mem (fun p => fbGetpixel fb p.1 p.2) calls (x,y)) ∧
      ∀ a,¬InRange d.buffer (4*(d.width.toNat*d.height.toNat)) a→t.mem a=fb.mem a) ∧
    ((∃ call∈calls,¬call.Readable fb.mem)→∃ fuel,drawCalls fuel fb calls=some none) := by
  have hstart := depicts_getpixel hmode
  refine ⟨fun hread => ?_,drawCalls_past calls hstart fun call hcall => ⟨hplaced call hcall,hints call hcall⟩⟩
  obtain ⟨fuel,t,hrun,ht⟩ := drawCalls_depict calls hstart fun call hcall =>
    ⟨hplaced call hcall,hread call hcall,hints call hcall⟩
  exact ⟨fuel,t,hrun,fun x y hin => getpixel_of_depicts ht hin,
    fun a ha => ht.outside a (outside_iff.mpr ha)⟩

/-- A screen of eight by eight pixels. -/
def smallScreen : Screen := ⟨8,8,0x1000,by unfold SizeFits; decide,by decide⟩

/-- Its framebuffer, with a text of one character in memory. -/
def smallFb : Fb := {inMode blankFb 8 8 32 0x1000 with mem := fun a => if a=0x500 then 33 else 0}

/-- The text of one character. -/
theorem holdsString_smallFb : HoldsString smallFb.mem 0x500 ⟨[33],by decide⟩ where
  length_lt := by decide
  bytes := by
    intro i hi
    obtain rfl : i=0 := by
      have hone : i<1 := hi
      omega
    rfl
  terminated := by decide

/-- On that screen a clear, an outline and the text are drawn on the canvas. -/
theorem smallFb_refines_canvas :
    ∃ fuel t,drawCalls fuel smallFb [.clear 7,.circle 4 4 3 1,.string 0 0 0x500 2 0]=some (some t) ∧
      (∀ x y,offScreen smallScreen.mode x y=false→fbGetpixel t x y=
        pictures smallFb.mem (fun p => fbGetpixel smallFb p.1 p.2)
          [.clear 7,.circle 4 4 3 1,.string 0 0 0x500 2 0] (x,y)) ∧
      ∀ a,¬InRange 0x1000 256 a→t.mem a=smallFb.mem a := by
  have htext : textAt smallFb.mem 0x500=[33] := by
    unfold textAt
    rw [holdsString_smallFb.stringAt_eq]
    rfl
  have hmode : smallFb.fbInfo=smallScreen.mode := rfl
  refine (drawing_refines_canvas smallScreen hmode _ ?_ ?_).1 ?_
  · intro call hcall
    simp only [List.mem_cons,List.not_mem_nil,or_false] at hcall
    obtain rfl|rfl|rfl := hcall
    · trivial
    · trivial
    · refine ⟨_,holdsString_smallFb,fun i hi => ?_⟩
      obtain rfl|rfl : i=0 ∨ i=1 := by
        have hone : i ≤ 1 := hi
        omega
      · unfold InRange
        decide
      · unfold InRange
        decide
  · intro call hcall
    simp only [List.mem_cons,List.not_mem_nil,or_false] at hcall
    obtain rfl|rfl|rfl := hcall
    · trivial
    · change (IsInt _ ∧ IsInt _) ∧ (IsInt _ ∧ IsInt _) ∧ IsInt _
      decide
    · change (IsInt 0 ∧ IsInt (0+8*(textAt smallFb.mem 0x500).length)) ∧
        IsInt 0 ∧ IsInt (0+10*(textAt smallFb.mem 0x500).length)
      rw [htext]
      decide
  · intro call hcall
    simp only [List.mem_cons,List.not_mem_nil,or_false] at hcall
    obtain rfl|rfl|rfl := hcall
    · trivial
    · trivial
    · change Legible (textAt smallFb.mem 0x500)
      rw [htext]
      decide

end EronKernel.FramebufferPictures

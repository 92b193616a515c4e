import EronKernel.FramebufferFill

/-!
# Discs, characters and strings of framebuffer.c

These functions set pixels one at a time. A character selects eight rows of the
font by its code; the font has the rows of 47 characters, so the code of most
characters leads behind its end, where nothing is known. A char is signed; the
ints are numbers that do not overflow. The lines of fb_draw_line, which are
computed in floating point, are left out, and with them fb_draw_rect;
fb_get_info copies the mode.
-/

namespace EronKernel.FramebufferDrawing

open ByteMemory FuelLoop FramebufferModel FramebufferFill

/-- font_8x8. -/
def font8x8 : List Byte :=
  [0x00,0x00,0x00,0x00,0x00,0x00,0x00,0x00,
   0x18,0x3C,0x3C,0x18,0x18,0x00,0x18,0x00,
   0x6E,0x3B,0x00,0x00,0x00,0x00,0x00,0x00,
   0x00,0x3E,0x3C,0x06,0x1C,0x30,0x7E,0x00,
   0x00,0x18,0x3C,0x1E,0x33,0x33,0x1E,0x00,
   0x00,0x06,0x1C,0x3E,0x30,0x1C,0x06,0x00,
   0x1C,0x3E,0x07,0x00,0x00,0x00,0x00,0x00,
   0x00,0x00,0x00,0x00,0x03,0x06,0x00,0x00,
   0x00,0x18,0x18,0x18,0x18,0x18,0x00,0x00,
   0x00,0x0C,0x0C,0x00,0x00,0x18,0x18,0x00,
   0x06,0x1C,0x30,0x30,0x30,0x1C,0x06,0x00,
   0x00,0x00,0x33,0x33,0x00,0x00,0x00,0x00,
   0x00,0x00,0x03,0x06,0x0C,0x18,0x00,0x00,
   0x00,0x3E,0x3E,0x3E,0x3E,0x3E,0x00,0x00,
   0x00,0x00,0x00,0x00,0x00,0x03,0x06,0x00,
   0x60,0x30,0x18,0x0C,0x06,0x03,0x00,0x00,
   0x3E,0x63,0x73,0x7B,0x6F,0x67,0x3E,0x00,
   0x18,0x38,0x18,0x18,0x18,0x18,0x7E,0x00,
   0x7E,0x03,0x1E,0x03,0x7E,0x00,0x00,0x00,
   0x7E,0x1F,0x03,0x1E,0x03,0x03,0x1E,0x00,
   0x06,0x1E,0x33,0x33,0x3F,0x30,0x00,0x00,
   0x3F,0x30,0x06,0x1C,0x03,0x7E,0x00,0x00,
   0x1E,0x33,0x33,0x1E,0x33,0x33,0x1E,0x00,
   0x00,0x18,0x18,0x7E,0x00,0x00,0x00,0x00,
   0x00,0x18,0x18,0x00,0x00,0x18,0x18,0x00,
   0x03,0x06,0x0C,0x18,0x30,0x30,0x00,0x00,
   0x00,0x00,0x7E,0x00,0x00,0x00,0x00,0x00,
   0x00,0x00,0x00,0x00,0x18,0x18,0x00,0x00,
   0x07,0x1C,0x30,0x30,0x30,0x1C,0x07,0x00,
   0x3F,0x33,0x33,0x33,0x33,0x33,0x33,0x00,
   0x1E,0x33,0x33,0x33,0x33,0x33,0x1E,0x00,
   0x7E,0x33,0x33,0x33,0x33,0x33,0x33,0x00,
   0x3E,0x33,0x33,0x3E,0x33,0x33,0x3E,0x00,
   0x03,0x1F,0x33,0x33,0x3F,0x30,0x00,0x00,
   0x3E,0x33,0x33,0x1F,0x03,0x03,0x1E,0x00,
   0x7E,0x33,0x33,0x33,0x33,0x33,0x33,0x00,
   0x03,0x03,0x03,0x03,0x03,0x03,0x7E,0x00,
   0x33,0x33,0x33,0x33,0x33,0x33,0x1E,0x00,
   0x33,0x33,0x33,0x33,0x1E,0x0C,0x06,0x00,
   0x33,0x33,0x33,0x33,0x1F,0x03,0x00,0x00,
   0x7E,0x06,0x1C,0x30,0x30,0x1C,0x06,0x00,
   0x7E,0x03,0x03,0x03,0x03,0x03,0x03,0x00,
   0x33,0x33,0x33,0x33,0x33,0x33,0x1E,0x00,
   0x33,0x33,0x1E,0x1E,0x33,0x33,0x33,0x00,
   0x33,0x33,0x1E,0x0C,0x0C,0x18,0x30,0x00,
   0x7E,0x06,0x1C,0x30,0x30,0x1C,0x06,0x00,
   0x7E,0x03,0x03,0x03,0x03,0x03,0x7E,0x00]

/-- The pixels of the loops of fb_draw_filled_circle, in order. -/
def diskPixels (cx cy r : ℤ) : List (ℤ×ℤ) :=
  (upTo (-r) (r+1)).flatMap fun yr =>
    ((upTo (-r) (r+1)).filter fun xr => xr*xr+yr*yr ≤ r*r).map fun xr => (cx+xr,cy+yr)

/-- fb_draw_filled_circle. -/
def fbDrawFilledCircle (fb : Fb) (cx cy r : ℤ) (color : Word) : Fb :=
  (upTo (-r) (r+1)).foldl (fun fb yr =>
    (upTo (-r) (r+1)).foldl (fun fb xr =>
      if xr*xr+yr*yr ≤ r*r then fbPutpixel fb (cx+xr) (cy+yr) color else fb) fb) fb

/-- One pixel of a row of the font. -/
def glyphBit (line : Byte) (col : ℕ) : Bool := (line&&&(0x80>>>col))≠0

/-- The loop of fb_draw_char over the pixels of one row. -/
def drawRow (fb : Fb) (x y : ℤ) (line : Byte) (fg bg : Word) : Fb :=
  (List.range 8).foldl (fun fb (col : ℕ) =>
    if glyphBit line col then fbPutpixel fb (x+col) y fg
    else if bg≠0 then fbPutpixel fb (x+col) y bg
    else fb) fb

/-- fb_draw_char; no value when it reads behind the font. -/
def fbDrawChar (fb : Fb) (x y : ℤ) (c : Byte) (fg bg : Word) : Option Fb :=
  let idx := c.toInt*8
  if idx<0 ∨ 2048 ≤ idx then some fb
  else (List.range 8).foldlM (fun fb (row : ℕ) =>
    font8x8[idx.toNat+row]?.map fun line => drawRow fb x (y+row) line fg bg) fb

/-- The locals of fb_draw_string. -/
structure Cursor where
  /-- s. -/
  s : Word
  /-- px. -/
  px : ℤ
  /-- y. -/
  y : ℤ
  /-- The framebuffer. -/
  fb : Fb

/-- One turn of the loop of fb_draw_string. -/
def stringTurn (x : ℤ) (fg bg : Word) (t : Cursor) : Turn Cursor (Option Fb) :=
  if t.fb.mem t.s=0 then .done (some t.fb)
  else if t.fb.mem t.s=10 then .again ⟨t.s+1,x,t.y+10,t.fb⟩
  else match fbDrawChar t.fb t.px t.y (t.fb.mem t.s) fg bg with
    | none => .done none
    | some fb => .again ⟨t.s+1,t.px+8,t.y,fb⟩

/-- fb_draw_string. -/
def fbDrawString (fuel : ℕ) (fb : Fb) (x y : ℤ) (s fg bg : Word) : Option (Option Fb) :=
  runLoop (stringTurn x fg bg) fuel ⟨s,x,y,fb⟩

/-- fb_swap. -/
def fbSwap (fb : Fb) : Fb := fb

/-- fb_make_rgb. -/
def fbMakeRgb (r g b : Byte) : Word :=
  (r.setWidth 32<<<16)|||(g.setWidth 32<<<8)|||b.setWidth 32

/-- fb_make_rgba. -/
def fbMakeRgba (r g b a : Byte) : Word :=
  (r.setWidth 32<<<16)|||(g.setWidth 32<<<8)|||(a.setWidth 32<<<24)|||b.setWidth 32

/-- A colour has its parts in four bytes. -/
theorem fbMakeRgba_eq (r g b a : Byte) : fbMakeRgba r g b a=a++r++g++b := by
  unfold fbMakeRgba
  apply BitVec.eq_of_getLsbD_eq
  intro i hi
  have hr := r.getLsbD_of_ge (i-16)
  have hg := g.getLsbD_of_ge (i-8)
  have hb := b.getLsbD_of_ge i
  have hin : ∀ k,i-k<32 := fun k => by omega
  have h16 : i-8-8=i-16 := by omega
  have h24 : i-16-8=i-24 := by omega
  simp only [BitVec.getLsbD_or,BitVec.getLsbD_shiftLeft,BitVec.getLsbD_setWidth,BitVec.getLsbD_append,
    hi,hin,decide_true,Bool.true_and,h16,h24]
  obtain h|h|h|h : i < 8 ∨ (8 ≤ i ∧ i < 16) ∨ (16 ≤ i ∧ i < 24) ∨ 24 ≤ i := by omega
  · simp [h,show i < 16 by omega,show i < 24 by omega]
  · simp [h,show ¬i < 8 by omega,show i < 24 by omega,show i-8 < 8 by omega]
  · simp [h,show ¬i < 8 by omega,show ¬i < 16 by omega,show ¬i-8 < 8 by omega,hb (by omega),
      hg (by omega),show i-16 < 8 by omega]
  · simp [show ¬i < 8 by omega,show ¬i < 16 by omega,show ¬i < 24 by omega,show ¬i-8 < 8 by omega,
      show ¬i-16 < 8 by omega,hb (by omega),hg (by omega),hr (by omega)]

/-- Without the fourth part that byte is zero. -/
theorem fbMakeRgb_eq (r g b : Byte) : fbMakeRgb r g b=(0 : Byte)++r++g++b := by
  rw [←fbMakeRgba_eq]
  unfold fbMakeRgb fbMakeRgba
  have hzero : (0 : Byte).setWidth 32<<<24=0#32 := by decide
  rw [hzero,BitVec.or_zero]

/-- The font has 47 characters. -/
theorem length_font8x8 : font8x8.length=376 := by decide +kernel

/-- A disc goes over its pixels. -/
theorem fbDrawFilledCircle_eq (fb : Fb) (cx cy r : ℤ) (color : Word) :
    fbDrawFilledCircle fb cx cy r color=
      (diskPixels cx cy r).foldl (fun fb p => fbPutpixel fb p.1 p.2 color) fb := by
  unfold fbDrawFilledCircle diskPixels
  rw [List.foldl_flatMap]
  congr 1
  funext fb yr
  rw [List.foldl_map,List.foldl_filter]
  congr 1
  funext fb xr
  by_cases h : xr*xr+yr*yr ≤ r*r
  · rw [if_pos h,if_pos (decide_eq_true h)]
  · rw [if_neg h,if_neg (by rw [decide_eq_true_iff]; exact h)]

end EronKernel.FramebufferDrawing

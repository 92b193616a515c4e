import EronKernel.FuelLoop
import EronKernel.WordPainting

/-!
# The framebuffer of framebuffer.c

A mode has a width, a height and a row pitch that depends on the bits per
pixel; a pixel is addressed with four bytes per column in every mode. The
int arguments of the drawing functions are numbers here, and sums and products
of them do not overflow, so what is said about a function holds of the source
where its ints are in range. They are compared with the width and the height as
ints, and turned into 32-bit words where an address is computed. Every address
that a store reaches is noted.
-/

namespace EronKernel.FramebufferModel

open ByteMemory FuelLoop WordPainting

/-- struct framebuffer_info, without the masks that no function reads. -/
structure FbInfo where
  /-- width. -/
  width : Word
  /-- height. -/
  height : Word
  /-- pitch. -/
  pitch : Word
  /-- bpp. -/
  bpp : Word
  /-- format. -/
  format : Word
  /-- buffer. -/
  buffer : Word
  /-- size. -/
  size : Word
  deriving DecidableEq

/-- FB_FORMAT_BGRX8888. -/
abbrev fbFormatBgrx8888 : Word := 2

/-- The statics of framebuffer.c and the memory. -/
structure Fb where
  /-- fb_info. -/
  fbInfo : FbInfo
  /-- fb_initialized. -/
  fbInitialized : Bool
  /-- The memory. -/
  mem : Mem
  /-- The addresses that were stored to. -/
  touched : List Word

/-- The framebuffer before fb_init. -/
def blankFb : Fb := ⟨⟨0,0,0,0,0,0,0⟩,false,fun _ => 0,[]⟩

/-- fb_init. -/
def fbInit (fb : Fb) : Fb :=
  {fb with
    fbInfo := ⟨800,600,800*4,32,fbFormatBgrx8888,0,800*4*600⟩
    fbInitialized := true}

/-- fb_set_mode. -/
def fbSetMode (fb : Fb) (width height bpp : Word) : Fb :=
  let fb := if fb.fbInitialized then fb else fbInit fb
  {fb with
    fbInfo := {fb.fbInfo with
      width := width
      height := height
      bpp := bpp
      format := fbFormatBgrx8888
      pitch := width*(bpp/8)
      size := width*(bpp/8)*height}}

/-- A mode with a buffer. -/
def inMode (fb : Fb) (width height bpp buffer : Word) : Fb :=
  let fb := fbSetMode fb width height bpp
  {fb with fbInfo := {fb.fbInfo with buffer := buffer}}

/-- The test that fb_putpixel and fb_getpixel start with. -/
def offScreen (info : FbInfo) (x y : ℤ) : Bool :=
  x<0 || info.width.toInt ≤ x || y<0 || info.height.toInt ≤ y

/-- The address that fb_putpixel and fb_getpixel compute. -/
def pixelAddress (info : FbInfo) (x y : ℤ) : Word :=
  info.buffer+BitVec.ofInt 32 y*info.pitch+BitVec.ofInt 32 (x*4)

/-- A store of a word. -/
def Fb.store (fb : Fb) (a color : Word) : Fb :=
  {fb with mem := store32 fb.mem a color, touched := fb.touched++[a,a+1,a+2,a+3]}

/-- fb_putpixel. -/
def fbPutpixel (fb : Fb) (x y : ℤ) (color : Word) : Fb :=
  if offScreen fb.fbInfo x y then fb
  else if fb.fbInfo.buffer=0 then fb
  else fb.store (pixelAddress fb.fbInfo x y) color

/-- fb_getpixel. -/
def fbGetpixel (fb : Fb) (x y : ℤ) : Word :=
  if offScreen fb.fbInfo x y then 0
  else if fb.fbInfo.buffer=0 then 0
  else load32 fb.mem (pixelAddress fb.fbInfo x y)

/-- fb_clear. -/
def fbClear (fb : Fb) (color : Word) : Fb :=
  if fb.fbInfo.buffer=0 then fb
  else
    let p := fb.fbInfo.buffer
    let count := fb.fbInfo.size/4
    (List.range count.toNat).foldl (fun fb i => fb.store (element p i) color) fb

/-- The values of a counter that starts at a number and stays below another. -/
def upTo (first limit : ℤ) : List ℤ := (List.range (limit-first).toNat).map fun k : ℕ => first+k

/-- fb_fill_rect. -/
def fbFillRect (fb : Fb) (x y w h : ℤ) (color : Word) : Fb :=
  (upTo y (y+h)).foldl (fun fb j => (upTo x (x+w)).foldl (fun fb i => fbPutpixel fb i j color) fb) fb

/-- The pixels that fb_draw_circle sets for one offset, in order. -/
def octants (cx cy x y : ℤ) : List (ℤ×ℤ) :=
  [(cx+x,cy+y),(cx+y,cy+x),(cx-y,cy+x),(cx-x,cy+y),(cx-x,cy-y),(cx-y,cy-x),(cx+y,cy-x),(cx+x,cy-y)]

/-- The locals of fb_draw_circle and the offsets that were plotted. -/
structure Outline where
  /-- x. -/
  x : ℤ
  /-- y. -/
  y : ℤ
  /-- err. -/
  err : ℤ
  /-- The framebuffer. -/
  fb : Fb
  /-- The offsets in the first octant, in order. -/
  offsets : List (ℤ×ℤ)

/-- The body of the loop of fb_draw_circle. -/
def Outline.next (cx cy : ℤ) (color : Word) (c : Outline) : Outline :=
  let fb := (octants cx cy c.x c.y).foldl (fun fb p => fbPutpixel fb p.1 p.2 color) c.fb
  let offsets := c.offsets++[(c.x,c.y)]
  let y := c.y+1
  let err := c.err+(1+2*y)
  if 0<2*(err-c.x)+1 then
    let x := c.x-1
    ⟨x,y,err+(1+2*(x-y)),fb,offsets⟩
  else ⟨c.x,y,err,fb,offsets⟩

/-- One turn of the loop of fb_draw_circle. -/
def circleTurn (cx cy : ℤ) (color : Word) (c : Outline) : Turn Outline Outline :=
  if c.y ≤ c.x then .again (c.next cx cy color) else .done c

/-- fb_draw_circle. -/
def fbDrawCircle (fuel : ℕ) (fb : Fb) (cx cy r : ℤ) (color : Word) : Option Outline :=
  runLoop (circleTurn cx cy color) fuel ⟨r,0,0,fb,[]⟩

/-- The counter of a for loop. -/
theorem mem_upTo {first limit i : ℤ} : i∈upTo first limit ↔ first ≤ i ∧ i<limit := by
  unfold upTo
  rw [List.mem_map]
  constructor
  · rintro ⟨k,hk,rfl⟩
    rw [List.mem_range] at hk
    omega
  · rintro ⟨hfirst,hlimit⟩
    refine ⟨(i-first).toNat,?_,?_⟩
    · rw [List.mem_range]
      omega
    · omega

/-- A mode of an initialized or uninitialized framebuffer. -/
theorem inMode_fbInfo (fb : Fb) (width height bpp buffer : Word) :
    (inMode fb width height bpp buffer).fbInfo=
      ⟨width,height,width*(bpp/8),bpp,fbFormatBgrx8888,buffer,width*(bpp/8)*height⟩ := by
  unfold inMode fbSetMode
  split_ifs <;> rfl

/-- A pixel does not change the mode. -/
theorem fbPutpixel_fbInfo (fb : Fb) (x y : ℤ) (color : Word) :
    (fbPutpixel fb x y color).fbInfo=fb.fbInfo := by
  unfold fbPutpixel
  split_ifs <;> rfl

/-- What fb_putpixel does on the screen. -/
theorem fbPutpixel_onScreen {fb : Fb} {x y : ℤ} (color : Word) (hin : offScreen fb.fbInfo x y=false)
    (hb : fb.fbInfo.buffer≠0) :
    fbPutpixel fb x y color=fb.store (pixelAddress fb.fbInfo x y) color := by
  unfold fbPutpixel
  rw [hin,if_neg Bool.false_ne_true,if_neg hb]

/-- What fb_getpixel does on the screen. -/
theorem fbGetpixel_onScreen {fb : Fb} {x y : ℤ} (hin : offScreen fb.fbInfo x y=false)
    (hb : fb.fbInfo.buffer≠0) : fbGetpixel fb x y=load32 fb.mem (pixelAddress fb.fbInfo x y) := by
  unfold fbGetpixel
  rw [hin,if_neg Bool.false_ne_true,if_neg hb]

end EronKernel.FramebufferModel

import EronKernel.CanvasPainting
import EronKernel.CircleOutline
import EronKernel.FramebufferDrawing
import EronKernel.StringScan

/-!
# The framebuffer as a canvas

In a mode of 32 bits per pixel the buffer shows the visible part of an
unbounded canvas, and every drawing function is a shape on the canvas: clipping
at the edges of the screen is all that the buffer adds, whatever shapes were
drawn before and in whatever order. The outline of a circle is an octagon with
straight sides. A string has a picture when the font has its characters.
-/

namespace EronKernel.FramebufferCanvas

open ByteMemory CString FuelLoop StringScan WordPainting CanvasPainting
open FramebufferModel FramebufferStore FramebufferFill FramebufferDrawing CircleOutline

/-- A mode of 32 bits per pixel with a buffer. -/
structure Screen where
  /-- The width. -/
  width : Word
  /-- The height. -/
  height : Word
  /-- The buffer. -/
  buffer : Word
  /-- The bytes of the rows fit an int. -/
  fits : SizeFits width height 32
  /-- There is a buffer. -/
  nonzero : buffer≠0

/-- The mode of a screen. -/
def Screen.mode (d : Screen) : FbInfo := (inMode blankFb d.width d.height 32 d.buffer).fbInfo

/-- The visible pixels, numbered row by row. -/
def Screen.window (d : Screen) : Window (ℤ×ℤ) where
  index := visibleIndex d.width d.height
  small := by
    intro p k hp
    unfold visibleIndex at hp
    split_ifs at hp with hin
    rw [←Option.some.inj hp]
    exact pixelIndex_small d.fits (by omega) (by omega)
  inj := by
    intro p q k hp hq
    unfold visibleIndex at hp hq
    split_ifs at hp hq with hpin hqin
    obtain ⟨hx,hy⟩ := pixelIndex_inj (by omega) (by omega) ((Option.some.inj hp).trans (Option.some.inj hq).symm)
    exact Prod.ext (by omega) (by omega)

/-- The picture on the screen is that of the canvas, and nothing outside the
buffer differs from an earlier memory. -/
structure Screen.Depicts (d : Screen) (m : Mem) (fb : Fb) (c : ℤ×ℤ→Word) : Prop where
  /-- The mode is that of the screen. -/
  mode : fb.fbInfo=d.mode
  /-- The buffer shows the canvas. -/
  shows : d.window.Shows fb.mem d.buffer c
  /-- The rest of the memory is as before. -/
  outside : ∀ x,d.window.Outside d.buffer x→fb.mem x=m x

section Pixels

variable {d : Screen} {m : Mem} {fb : Fb} {c : ℤ×ℤ→Word}

/-- A pixel is one stroke. -/
theorem Screen.Depicts.putpixel (h : d.Depicts m fb c) (p : ℤ×ℤ) (color : Word) :
    d.Depicts m (fbPutpixel fb p.1 p.2 color) (Function.update c p color) := by
  have hmem := fbPutpixel_mem d.fits d.nonzero h.mode p color
  cases hp : visibleIndex d.width d.height p with
  | none =>
    have hsame : (fbPutpixel fb p.1 p.2 color).mem=fb.mem := by
      rw [hmem,hp]
      rfl
    refine ⟨(fbPutpixel_fbInfo fb p.1 p.2 color).trans h.mode,?_,?_⟩
    · rw [hsame]
      exact h.shows.hidden hp color
    · intro x hx
      rw [hsame]
      exact h.outside x hx
  | some k =>
    have hstore : (fbPutpixel fb p.1 p.2 color).mem=store32 fb.mem (element d.buffer k) color := by
      rw [hmem,hp]
      rfl
    refine ⟨(fbPutpixel_fbInfo fb p.1 p.2 color).trans h.mode,?_,?_⟩
    · rw [hstore]
      exact h.shows.store hp color
    · intro x hx
      rw [hstore]
      exact (hx.store hp color).trans (h.outside x hx)

/-- Pixels one after the other are strokes one after the other. -/
theorem Screen.Depicts.putpixels (strokes : List ((ℤ×ℤ)×Word)) :
    ∀ {fb : Fb} {c : ℤ×ℤ→Word},d.Depicts m fb c→
      d.Depicts m (strokes.foldl (fun fb s => fbPutpixel fb s.1.1 s.1.2 s.2) fb) (paint c strokes) := by
  induction strokes with
  | nil => exact fun h => h
  | cons s strokes ih => exact fun h => ih (h.putpixel s.1 s.2)

/-- Pixels of one colour. -/
theorem Screen.Depicts.uniform (h : d.Depicts m fb c) (points : List (ℤ×ℤ)) (color : Word) :
    d.Depicts m (points.foldl (fun fb p => fbPutpixel fb p.1 p.2 color) fb)
      (fun p => if p∈points then color else c p) := by
  have hstrokes := h.putpixels (points.map fun p => (p,color))
  have hpicture : paint c (points.map fun p => (p,color))=fun p => if p∈points then color else c p :=
    funext fun p => paint_uniform c points color p
  rw [List.foldl_map,hpicture] at hstrokes
  exact hstrokes

end Pixels

/-- The number of rows in which the outline of a circle goes straight up. -/
def straightRows (r : ℤ) : ℕ := max 1 (Nat.sqrt r.toNat)

/-- The column of the outline in a row of the first octant. -/
def outlineColumn (r y : ℤ) : ℤ := if y<straightRows r then r else r-1-(y-straightRows r)

/-- The points of the outline. -/
def outlinePoints (cx cy r : ℤ) : List (ℤ×ℤ) :=
  ((upTo 0 (r+1)).filter fun y => y ≤ outlineColumn r y).flatMap fun y => octants cx cy (outlineColumn r y) y

/-- A row is one of the straight ones. -/
theorem lt_straightRows {r : ℤ} (hr : 0 ≤ r) (k : ℕ) : k<straightRows r ↔ k=0 ∨ (k : ℤ)^2+2*k<r := by
  unfold straightRows
  rw [lt_max_iff,Nat.lt_one_iff,Nat.lt_iff_add_one_le,Nat.le_sqrt]
  refine or_congr_right ?_
  obtain ⟨n,rfl⟩ := Int.eq_ofNat_of_zero_le hr
  rw [Int.toNat_natCast]
  constructor
  · intro h
    have hcast : ((k : ℤ)+1)*(k+1) ≤ n := by exact_mod_cast h
    linarith [hcast,sq (k : ℤ)]
  · intro h
    have hcast : ((k : ℤ)+1)*(k+1) ≤ n := by nlinarith
    exact_mod_cast hcast

/-- The state of the loop of fb_draw_circle on the outline. -/
structure OnOutline (r : ℤ) (n : ℕ) (c : Outline) : Prop where
  /-- The row. -/
  y : c.y=n
  /-- The column. -/
  x : c.x=outlineColumn r n
  /-- The error term while the outline goes straight up. -/
  straight : n<straightRows r→ c.err=(n : ℤ)^2+2*n
  /-- The error term behind. -/
  diagonal : straightRows r ≤ n → c.x ≤ c.err
  /-- The offsets of the rows so far. -/
  offsets : c.offsets=(List.range n).map fun k : ℕ => (outlineColumn r k,(k : ℤ))
  /-- They are in front of the diagonal. -/
  before : ∀ k<n,(k : ℤ) ≤ outlineColumn r k

/-- The outline in a straight row. -/
theorem outlineColumn_straight {r : ℤ} {n : ℕ} (h : n<straightRows r) : outlineColumn r n=r :=
  if_pos (by exact_mod_cast h)

/-- The outline in a row behind. -/
theorem outlineColumn_diagonal {r : ℤ} {n : ℕ} (h : straightRows r ≤ n) :
    outlineColumn r n=r-1-(n-straightRows r) := if_neg (by omega)

/-- A turn goes on along the outline. -/
theorem OnOutline.next {r : ℤ} {n : ℕ} {c : Outline} (h : OnOutline r n c) (hr : 0 ≤ r) (hle : c.y ≤ c.x)
    (cx cy : ℤ) (color : Word) : OnOutline r (n+1) (c.next cx cy color) := by
  have hy := h.y
  have hx := h.x
  have hnexty : (c.next cx cy color).y=((n+1 : ℕ) : ℤ) := by
    rw [next_y,hy]
    push_cast
    rfl
  have hoffsets : (c.next cx cy color).offsets=
      (List.range (n+1)).map fun k : ℕ => (outlineColumn r k,(k : ℤ)) := by
    rw [next_offsets,h.offsets,hx,hy,List.range_succ,List.map_append]
    rfl
  have hbefore : ∀ k<n+1,(k : ℤ) ≤ outlineColumn r k := by
    intro k hk
    obtain hlt|rfl := Nat.lt_succ_iff_lt_or_eq.mp hk
    · exact h.before k hlt
    · rw [←hx,←hy]
      exact hle
  obtain hlt|heq|hgt : n+1<straightRows r ∨ n+1=straightRows r ∨ straightRows r ≤ n := by omega
  · have herr := h.straight (by omega)
    have hbelow := ((lt_straightRows hr (n+1)).mp hlt).resolve_left (Nat.succ_ne_zero n)
    rw [outlineColumn_straight (by omega)] at hx
    push_cast at hbelow
    obtain ⟨hx',herr'⟩ := next_of_lt (c := c) cx cy color (by rw [herr,hy,hx]; linarith)
    refine ⟨hnexty,?_,fun _ => ?_,fun hc => absurd hlt (Nat.not_lt.mpr hc),hoffsets,hbefore⟩
    · rw [hx',hx,outlineColumn_straight hlt]
    · rw [herr',herr,hy]
      push_cast
      ring
  · have herr := h.straight (by omega)
    have habove := (lt_straightRows hr (n+1)).not.mp (by omega)
    rw [not_or,not_lt] at habove
    have hreach := habove.2
    push_cast at hreach
    rw [outlineColumn_straight (by omega)] at hx
    obtain ⟨hx',herr'⟩ := next_of_le (c := c) cx cy color (by rw [herr,hy,hx]; linarith)
    refine ⟨hnexty,?_,fun hc => absurd hc (by omega),fun _ => ?_,hoffsets,hbefore⟩
    · rw [hx',hx,outlineColumn_diagonal (by omega),heq]
      ring
    · rw [hx',herr',hx,herr]
      nlinarith
  · have herr := h.diagonal hgt
    rw [outlineColumn_diagonal hgt] at hx
    obtain ⟨hx',herr'⟩ := next_of_le (c := c) cx cy color (by omega)
    refine ⟨hnexty,?_,fun hc => absurd hc (by omega),fun _ => ?_,hoffsets,hbefore⟩
    · rw [hx',hx,outlineColumn_diagonal (by omega)]
      push_cast
      ring
    · rw [hx',herr']
      omega

/-- Behind the diagonal the outline stays behind it. -/
theorem outlineColumn_past {r : ℤ} {n k : ℕ} (hn : outlineColumn r n<n) (hk : n ≤ k) : outlineColumn r k<k := by
  unfold outlineColumn at hn ⊢
  split_ifs at hn ⊢ with h h'
  all_goals omega

/-- The offsets of a finished outline are its points in the first octant. -/
theorem OnOutline.points {r : ℤ} {n : ℕ} {c : Outline} (h : OnOutline r n c) (hpast : c.x<c.y)
    (cx cy : ℤ) (p : ℤ×ℤ) :
    p∈c.offsets.flatMap (fun q => octants cx cy q.1 q.2) ↔ p∈outlinePoints cx cy r := by
  have hlast : outlineColumn r n<n := by
    rw [←h.x,←h.y]
    exact hpast
  unfold outlinePoints
  rw [h.offsets,List.mem_flatMap,List.mem_flatMap]
  constructor
  · intro ⟨q,hq,hp⟩
    obtain ⟨k,hk,rfl⟩ := List.mem_map.mp hq
    have hle := h.before k (List.mem_range.mp hk)
    have hr : outlineColumn r k ≤ r := by
      unfold outlineColumn
      split_ifs <;> omega
    exact ⟨k,List.mem_filter.mpr ⟨mem_upTo.mpr (by omega),decide_eq_true hle⟩,hp⟩
  · intro ⟨y,hy,hp⟩
    obtain ⟨hrange,hle⟩ := List.mem_filter.mp hy
    obtain ⟨k,rfl⟩ := Int.eq_ofNat_of_zero_le (mem_upTo.mp hrange).1
    have hk : k<n := by
      by_contra hc
      have hpast' := outlineColumn_past hlast (Nat.not_lt.mp hc)
      have hle' := of_decide_eq_true hle
      omega
    exact ⟨_,List.mem_map.mpr ⟨k,List.mem_range.mpr hk,rfl⟩,hp⟩

/-- What the loop of fb_draw_circle keeps. -/
structure Plotting (d : Screen) (m : Mem) (c : ℤ×ℤ→Word) (cx cy r : ℤ) (color : Word) (o : Outline) : Prop where
  /-- The locals are on the outline. -/
  outline : ∃ n,OnOutline r n o
  /-- The plotted points have the colour. -/
  picture : d.Depicts m o.fb fun p =>
    if p∈o.offsets.flatMap (fun q => octants cx cy q.1 q.2) then color else c p

/-- A turn plots one more row. -/
theorem Plotting.next {d : Screen} {m : Mem} {c : ℤ×ℤ→Word} {cx cy r : ℤ} {color : Word} {o : Outline}
    (h : Plotting d m c cx cy r color o) (hr : 0 ≤ r) (hle : o.y ≤ o.x) :
    Plotting d m c cx cy r color (o.next cx cy color) := by
  obtain ⟨n,hn⟩ := h.outline
  have hfb : (o.next cx cy color).fb=
      (octants cx cy o.x o.y).foldl (fun fb p => fbPutpixel fb p.1 p.2 color) o.fb := by
    unfold Outline.next
    dsimp only
    split_ifs <;> rfl
  refine ⟨⟨n+1,hn.next hr hle cx cy color⟩,?_⟩
  have hpicture := h.picture.uniform (octants cx cy o.x o.y) color
  have hmem : ∀ p,p∈(o.next cx cy color).offsets.flatMap (fun q => octants cx cy q.1 q.2) ↔
      p∈octants cx cy o.x o.y ∨ p∈o.offsets.flatMap fun q => octants cx cy q.1 q.2 := by
    intro p
    rw [next_offsets,List.flatMap_append,List.mem_append,List.flatMap_singleton,or_comm]
  rw [←hfb] at hpicture
  convert hpicture using 2 with p
  by_cases hnew : p∈octants cx cy o.x o.y
  · rw [if_pos hnew,if_pos ((hmem p).mpr (Or.inl hnew))]
  · rw [if_neg hnew]
    exact if_congr ((hmem p).trans (or_iff_right hnew)) rfl rfl

/-- The loop of fb_draw_circle draws the outline. -/
theorem Screen.Depicts.circle {d : Screen} {m : Mem} {fb : Fb} {c : ℤ×ℤ→Word} (h : d.Depicts m fb c)
    (cx cy r : ℤ) (color : Word) :
    ∃ fuel out,fbDrawCircle fuel fb cx cy r color=some out ∧
      d.Depicts m out.fb (fun p => if p∈outlinePoints cx cy r then color else c p) := by
  by_cases hr : 0 ≤ r
  · obtain ⟨fuel,out,hrun⟩ := circle_terminates fb cx cy r color
    refine ⟨fuel,out,hrun,?_⟩
    have hstart : Plotting d m c cx cy r color ⟨r,0,0,fb,[]⟩ := by
      refine ⟨⟨0,rfl,?_,fun _ => rfl,fun hc => ?_,rfl,fun k hk => absurd hk (Nat.not_lt_zero k)⟩,h⟩
      · exact (outlineColumn_straight ((lt_straightRows hr 0).mpr (Or.inl rfl))).symm
      · exact absurd ((lt_straightRows hr 0).mpr (Or.inl rfl)) (Nat.not_lt.mpr hc)
    have hend := runLoop_invariant (Plotting d m c cx cy r color)
      (fun out => Plotting d m c cx cy r color out ∧ out.x<out.y) (fun s t hs hturn => by
        obtain ⟨hle,rfl⟩ := circleTurn_eq_again hturn
        exact hs.next hr hle) (fun s v hs hturn => by
        obtain ⟨hlt,rfl⟩ := circleTurn_eq_done hturn
        exact ⟨hs,hlt⟩) hstart hrun
    obtain ⟨⟨n,hn⟩,hpicture⟩ := hend.1
    have hsame : ∀ p,p∈out.offsets.flatMap (fun q => octants cx cy q.1 q.2) ↔ p∈outlinePoints cx cy r :=
      hn.points hend.2 cx cy
    simp only [hsame] at hpicture
    exact hpicture
  · have hnone : outlinePoints cx cy r=[] := by
      unfold outlinePoints upTo
      rw [show (r+1-0).toNat=0 by omega]
      rfl
    refine ⟨1,⟨r,0,0,fb,[]⟩,runLoop_done 0 (if_neg hr),?_⟩
    rw [hnone]
    exact h

end EronKernel.FramebufferCanvas

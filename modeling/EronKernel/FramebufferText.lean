import EronKernel.FramebufferCanvas

/-!
# Characters and texts on the canvas

A character is a cell of eight by eight points, whose rows the font gives; a
text is a sequence of cells and line breaks. It is drawn when the font has
every character of it; a negative char is skipped. At the first character that
is not there the drawing reads behind the font.
-/

namespace EronKernel.FramebufferText

open ByteMemory FuelLoop CanvasPainting
open FramebufferModel FramebufferDrawing FramebufferCanvas

/-- The colour of one pixel of a character, if it is set. -/
def glyphColour (line : Byte) (col : ℕ) (fg bg : Word) : Option Word :=
  if glyphBit line col then some fg else if bg≠0 then some bg else none

/-- The rows of a character in the font. -/
def fontRow (c : Byte) (row : ℕ) : Byte := font8x8.getD (8*c.toNat+row) 0

/-- The font has the character, or the guard refuses it. -/
def HasGlyph (c : Byte) : Prop := c.toNat<47 ∨ 128 ≤ c.toNat

instance (c : Byte) : Decidable (HasGlyph c) := inferInstanceAs (Decidable (_ ∨ _))

/-- A character on the canvas: a cell of eight by eight points. -/
def paintChar (c : ℤ×ℤ→Word) (x y : ℤ) (ch : Byte) (fg bg : Word) (p : ℤ×ℤ) : Word :=
  if ch.toNat<128 ∧ (x ≤ p.1 ∧ p.1<x+8) ∧ y ≤ p.2 ∧ p.2<y+8 then
    (glyphColour (fontRow ch (p.2-y).toNat) (p.1-x).toNat fg bg).getD (c p)
  else c p

/-- A text on the canvas. -/
def paintText (x : ℤ) (fg bg : Word) : (ℤ×ℤ→Word)→ℤ→ℤ→List Byte→ℤ×ℤ→Word
  | c,_,_,[] => c
  | c,px,y,b::bs =>
    if b=10 then paintText x fg bg c x (y+10) bs
    else paintText x fg bg (paintChar c px y b fg bg) (px+8) y bs

/-- The strokes of a character. -/
def charStrokes (x y : ℤ) (ch : Byte) (fg bg : Word) : List ((ℤ×ℤ)×Word) :=
  (List.range 8).flatMap fun row : ℕ => (List.range 8).filterMap fun col : ℕ =>
    (glyphColour (fontRow ch row) col fg bg).map fun v => ((x+col,y+row),v)

/-- The strokes of a character are the set pixels of its cell. -/
theorem mem_charStrokes {x y : ℤ} {ch : Byte} {fg bg : Word} {s : (ℤ×ℤ)×Word} :
    s∈charStrokes x y ch fg bg ↔ ∃ row<8,∃ col<8,∃ v,
      glyphColour (fontRow ch row) col fg bg=some v ∧ ((x+(col : ℕ),y+(row : ℕ)),v)=s := by
  unfold charStrokes
  rw [List.mem_flatMap]
  simp only [List.mem_range,List.mem_filterMap,Option.map_eq_some_iff]

/-- The strokes of a character paint its cell. -/
theorem paint_charStrokes (c : ℤ×ℤ→Word) (x y : ℤ) {ch : Byte} (hch : ch.toNat<128) (fg bg : Word) :
    paint c (charStrokes x y ch fg bg)=paintChar c x y ch fg bg := by
  obtain ⟨f,hf⟩ : ∃ f : ℤ×ℤ→Word,
      ∀ q,f q=(glyphColour (fontRow ch (q.2-y).toNat) (q.1-x).toNat fg bg).getD (c q) := ⟨_,fun _ => rfl⟩
  have hcolour : ∀ s∈charStrokes x y ch fg bg,s.2=f s.1 := by
    intro s hs
    obtain ⟨row,_,col,_,v,hv,rfl⟩ := mem_charStrokes.mp hs
    rw [hf]
    dsimp only
    rw [add_sub_cancel_left,add_sub_cancel_left,Int.toNat_natCast,Int.toNat_natCast,hv]
    rfl
  funext p
  unfold paintChar
  by_cases hp : ∃ s∈charStrokes x y ch fg bg,s.1=p
  · rw [paint_of_mem hcolour hp c]
    obtain ⟨s,hs,rfl⟩ := hp
    obtain ⟨row,hrow,col,hcol,v,_,rfl⟩ := mem_charStrokes.mp hs
    rw [if_pos (by dsimp only; omega)]
    exact hf _
  · rw [paint_of_notMem (fun s hs he => hp ⟨s,hs,he⟩) c]
    split_ifs with hcell
    · cases hv : glyphColour (fontRow ch (p.2-y).toNat) (p.1-x).toNat fg bg with
      | none => rfl
      | some v =>
        refine absurd ⟨_,mem_charStrokes.mpr ⟨_,by omega,_,by omega,v,hv,rfl⟩,Prod.ext ?_ ?_⟩ hp
        · dsimp only
          omega
        · dsimp only
          omega
    · rfl

/-- A row of a character is its strokes. -/
theorem drawRow_eq (fb : Fb) (x y : ℤ) (line : Byte) (fg bg : Word) :
    drawRow fb x y line fg bg=((List.range 8).filterMap fun col : ℕ =>
      (glyphColour line col fg bg).map fun v => ((x+col,y),v)).foldl
        (fun fb s => fbPutpixel fb s.1.1 s.1.2 s.2) fb := by
  unfold drawRow
  rw [List.foldl_filterMap]
  congr 1
  funext fb col
  unfold glyphColour
  split_ifs <;> rfl

/-- Rows that all have a value are drawn one after the other. -/
theorem foldlM_rows {α β : Type} (row : ℕ→Option β) (line : ℕ→β) (draw : α→ℕ→β→α) (rows : List ℕ)
    (h : ∀ k∈rows,row k=some (line k)) (a : α) :
    rows.foldlM (fun a k => (row k).map fun b => draw a k b) a=
      some (rows.foldl (fun a k => draw a k (line k)) a) := by
  induction rows generalizing a with
  | nil => rfl
  | cons k rows ih =>
    rw [List.foldlM_cons,h k List.mem_cons_self,Option.map_some]
    exact ih (fun j hj => h j (List.mem_cons_of_mem k hj)) (draw a k (line k))

/-- A char of the lower half is not negative. -/
theorem toInt_char {ch : Byte} (hch : ch.toNat<128) : ch.toInt=ch.toNat := by
  rw [BitVec.toInt_eq_toNat_cond,if_pos (by omega)]

/-- A character of the font is drawn by its strokes. -/
theorem fbDrawChar_glyph (fb : Fb) (x y : ℤ) {ch : Byte} (hch : ch.toNat<47) (fg bg : Word) :
    fbDrawChar fb x y ch fg bg=
      some ((charStrokes x y ch fg bg).foldl (fun fb s => fbPutpixel fb s.1.1 s.1.2 s.2) fb) := by
  have hidx : (ch.toInt*8).toNat=8*ch.toNat := by
    rw [toInt_char (by omega)]
    omega
  have hrow : ∀ row∈List.range 8,font8x8[8*ch.toNat+row]?=some (fontRow ch row) := by
    intro row hmem
    have hlt : 8*ch.toNat+row<font8x8.length := by
      rw [length_font8x8]
      have := List.mem_range.mp hmem
      omega
    unfold fontRow
    rw [List.getD_eq_getElem?_getD,List.getElem?_eq_getElem hlt]
    rfl
  unfold fbDrawChar charStrokes
  dsimp only
  rw [if_neg (by rw [toInt_char (by omega)]; omega),hidx,
    foldlM_rows _ _ (fun fb row line => drawRow fb x (y+(row : ℕ)) line fg bg) _ hrow,List.foldl_flatMap]
  congr 2
  funext fb row
  exact drawRow_eq fb x (y+row) (fontRow ch row) fg bg

/-- The drawing of a character behind the font reads behind it. -/
theorem fbDrawChar_past (fb : Fb) (x y : ℤ) {ch : Byte} (hch : ¬HasGlyph ch) (fg bg : Word) :
    fbDrawChar fb x y ch fg bg=none := by
  unfold HasGlyph at hch
  have hidx : (ch.toInt*8).toNat=8*ch.toNat := by
    rw [toInt_char (by omega)]
    omega
  have hnone : font8x8[8*ch.toNat+0]?=none := by
    rw [List.getElem?_eq_none_iff,length_font8x8]
    omega
  unfold fbDrawChar
  dsimp only
  rw [if_neg (by rw [toInt_char (by omega)]; omega),hidx,List.range_succ_eq_map,List.foldlM_cons,hnone]
  rfl

/-- The guard refuses a negative char. -/
theorem fbDrawChar_negative (fb : Fb) (x y : ℤ) {ch : Byte} (hch : 128 ≤ ch.toNat) (fg bg : Word) :
    fbDrawChar fb x y ch fg bg=some fb := by
  have hlt := ch.isLt
  have hint : ch.toInt=(ch.toNat : ℤ)-256 := by
    rw [BitVec.toInt_eq_toNat_cond,if_neg (by omega)]
    rfl
  unfold fbDrawChar
  dsimp only
  rw [hint,if_pos (Or.inl (by omega))]

/-- fb_draw_char draws the cell of a character that the font has. -/
theorem depicts_char {d : Screen} {m : Mem} {fb : Fb} {c : ℤ×ℤ→Word} (h : d.Depicts m fb c) (x y : ℤ)
    {ch : Byte} (hch : HasGlyph ch) (fg bg : Word) :
    ∃ t,fbDrawChar fb x y ch fg bg=some t ∧ d.Depicts m t (paintChar c x y ch fg bg) := by
  obtain hlow|hhigh := hch
  · have hstrokes := h.putpixels (charStrokes x y ch fg bg)
    rw [paint_charStrokes c x y (by omega)] at hstrokes
    exact ⟨_,fbDrawChar_glyph fb x y hlow fg bg,hstrokes⟩
  · have hsame : paintChar c x y ch fg bg=c := by
      funext p
      unfold paintChar
      exact if_neg fun hc => absurd hc.1 (by omega)
    rw [hsame]
    exact ⟨fb,fbDrawChar_negative fb x y hhigh fg bg,h⟩

/-- The bytes of a text lie in memory behind each other, none of them in the
buffer. -/
def TextAt (d : Screen) (m : Mem) : Word→List Byte→Prop
  | a,[] => d.window.Outside d.buffer a ∧ m a=0
  | a,b::bs => d.window.Outside d.buffer a ∧ m a=b ∧ b≠0 ∧ TextAt d m (a+1) bs

/-- The font has every character of a text. -/
def Legible (bs : List Byte) : Prop := ∀ b∈bs,b=10 ∨ HasGlyph b

instance (bs : List Byte) : Decidable (Legible bs) := inferInstanceAs (Decidable (∀ b∈bs,_))

section Turns

variable {x px y : ℤ} {fg bg a : Word} {b : Byte} {fb : Fb}

/-- A turn on a newline. -/
theorem stringTurn_line (hread : fb.mem a=b) (hne : b≠0) (hline : b=10) :
    stringTurn x fg bg ⟨a,px,y,fb⟩=.again ⟨a+1,x,y+10,fb⟩ := by
  unfold stringTurn
  dsimp only
  rw [hread,if_neg hne,if_pos hline]

/-- A turn on a character that is drawn. -/
theorem stringTurn_char (hread : fb.mem a=b) (hne : b≠0) (hline : b≠10) {t : Fb}
    (hchar : fbDrawChar fb px y b fg bg=some t) :
    stringTurn x fg bg ⟨a,px,y,fb⟩=.again ⟨a+1,px+8,y,t⟩ := by
  unfold stringTurn
  dsimp only
  rw [hread,if_neg hne,if_neg hline,hchar]

/-- A turn on a character behind the font. -/
theorem stringTurn_past (hread : fb.mem a=b) (hne : b≠0) (hline : b≠10)
    (hchar : fbDrawChar fb px y b fg bg=none) : stringTurn x fg bg ⟨a,px,y,fb⟩=.done none := by
  unfold stringTurn
  dsimp only
  rw [hread,if_neg hne,if_neg hline,hchar]

end Turns

/-- One more character is in the font. -/
theorem legible_cons {b : Byte} {bs : List Byte} : Legible (b::bs) ↔ (b=10 ∨ HasGlyph b) ∧ Legible bs :=
  List.forall_mem_cons

/-- The loop of fb_draw_string draws a text that the font has. -/
theorem depicts_text {d : Screen} {m : Mem} (x : ℤ) (fg bg : Word) (bs : List Byte) :
    ∀ {fb : Fb} {c : ℤ×ℤ→Word} {a : Word} (px y : ℤ),d.Depicts m fb c→TextAt d m a bs→Legible bs→
      ∃ t,runLoop (stringTurn x fg bg) (bs.length+1) ⟨a,px,y,fb⟩=some (some t) ∧
        d.Depicts m t (paintText x fg bg c px y bs) := by
  induction bs with
  | nil =>
    intro fb c a px y h ⟨hout,hzero⟩ _
    have hread : fb.mem a=0 := (h.outside a hout).trans hzero
    exact ⟨fb,runLoop_done 0 (if_pos hread),h⟩
  | cons b bs ih =>
    intro fb c a px y h ⟨hout,hb,hne,hrest⟩ hlegible
    have hread : fb.mem a=b := (h.outside a hout).trans hb
    obtain ⟨hfirst,htail⟩ := legible_cons.mp hlegible
    unfold paintText
    rw [List.length_cons]
    by_cases hline : b=10
    · rw [if_pos hline,runLoop_again _ (stringTurn_line hread hne hline)]
      exact ih x (y+10) h hrest htail
    · obtain ⟨t,hchar,ht⟩ := depicts_char h px y (hfirst.resolve_left hline) fg bg
      rw [if_neg hline,runLoop_again _ (stringTurn_char hread hne hline hchar)]
      exact ih (px+8) y ht hrest htail

/-- The loop reads behind the font at the first character that is not there. -/
theorem text_past {d : Screen} {m : Mem} (x : ℤ) (fg bg : Word) (bs : List Byte) :
    ∀ {fb : Fb} {c : ℤ×ℤ→Word} {a : Word} (px y : ℤ),d.Depicts m fb c→TextAt d m a bs→¬Legible bs→
      runLoop (stringTurn x fg bg) (bs.length+1) ⟨a,px,y,fb⟩=some none := by
  induction bs with
  | nil => exact fun px y _ _ hlegible => absurd (fun b hb => absurd hb List.not_mem_nil) hlegible
  | cons b bs ih =>
    intro fb c a px y h ⟨hout,hb,hne,hrest⟩ hlegible
    have hread : fb.mem a=b := (h.outside a hout).trans hb
    rw [legible_cons,not_and] at hlegible
    rw [List.length_cons]
    by_cases hline : b=10
    · rw [runLoop_again _ (stringTurn_line hread hne hline)]
      exact ih x (y+10) h hrest (hlegible (Or.inl hline))
    · by_cases hglyph : HasGlyph b
      · obtain ⟨t,hchar,ht⟩ := depicts_char h px y hglyph fg bg
        rw [runLoop_again _ (stringTurn_char hread hne hline hchar)]
        exact ih (px+8) y ht hrest (hlegible (Or.inr hglyph))
      · exact runLoop_done _ (stringTurn_past hread hne hline (fbDrawChar_past fb px y hglyph fg bg))

end EronKernel.FramebufferText

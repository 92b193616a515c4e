import EronKernel.TtyModel

/-!
# The terminal shows the end of an unbounded page

The same bytes are interpreted on a page that has as many rows as are needed
and never scrolls. The screen shows its last rows up to the cursor: scrolling
moves every row up by one while the window on the page moves down by one.
-/

namespace EronKernel.TtyRefinement

open ByteMemory CString TtyModel

/-- A page without a lower end. -/
structure Page where
  /-- Characters by row and column. -/
  cell : ℕ→ℕ→Byte
  /-- Row of the cursor. -/
  row : ℕ
  /-- Column of the cursor. -/
  column : ℕ

/-- The page before anything is written. -/
def blankPage : Page := ⟨fun _ _ => blank,0,0⟩

/-- The start of the next row. -/
def Page.newline (p : Page) : Page := {p with row := p.row+1, column := 0}

/-- Put the same character into some columns of the cursor's row. -/
def Page.fill (p : Page) (start stop : ℕ) (c : Byte) : Page :=
  {p with cell := fun y x => if y=p.row ∧ start≤x ∧ x<stop then c else p.cell y x}

/-- Move the cursor within its row, or to the next one behind the last
column. -/
def Page.moveTo (p : Page) (column : ℕ) : Page :=
  if column<vgaWidth then {p with column := column} else p.newline

/-- The next multiple of eight. -/
def nextTab (column : ℕ) : ℕ := (column/8+1)*8

/-- Interpret one byte. -/
def Page.putchar (p : Page) (c : Byte) : Page :=
  if c=0x0A then p.newline
  else if c=0x08 then
    if p.column=0 then p else {p.fill (p.column-1) p.column blank with column := p.column-1}
  else if c=0x09 then (p.fill p.column (nextTab p.column) blank).moveTo (nextTab p.column)
  else (p.fill p.column (p.column+1) c).moveTo (p.column+1)

/-- Interpret one call. -/
def Page.perform (p : Page) : TtyOp→Page
  | .putchar c => p.putchar c
  | .writestring data => data.bytes.foldl Page.putchar p
  | .setcolor _ => p
  | .clear => blankPage

/-- The page's row at the top of the screen. -/
def Page.top (p : Page) : ℕ := p.row-24

/-- The screen shows the page, wherever in its row the cursor is. -/
structure Displays (t : Terminal) (p : Page) : Prop where
  /-- The cursor's row on the screen. -/
  row : t.row+p.top=p.row
  /-- The cursor is on the screen. -/
  rowLt : t.row<vgaHeight
  /-- The screen shows the page from its top row on. -/
  cells : ∀ y<vgaHeight,∀ x<vgaWidth,shown t y x=p.cell (p.top+y) x
  /-- The page is blank below the cursor. -/
  below : ∀ y,p.row<y→∀ x,p.cell y x=blank
  /-- Every store was inside the buffer. -/
  stores : ∀ i∈t.stores,i < vgaHeight*vgaWidth

/-- The terminal shows the page between two calls. -/
structure Shows (t : Terminal) (p : Page) : Prop extends Displays t p where
  /-- The cursor's column. -/
  column : t.column=p.column
  /-- The cursor is inside its row. -/
  columnLt : p.column<vgaWidth

/-- Which cells of the buffer a loop has stored to, by index. -/
abbrev Within (first count i : ℕ) : Prop := first ≤ i ∧ i < first+count

/-- A loop has given new values to a range of cells and did nothing else. -/
structure Stored (first count : ℕ) (value : ℕ→Half) (t u : Terminal) : Prop where
  /-- The cells of the range and no others. -/
  buffer : ∀ i,u.buffer i=if Within first count i then value i else t.buffer i
  /-- The cursor's row. -/
  row : u.row=t.row
  /-- The cursor's column. -/
  column : u.column=t.column
  /-- The colour. -/
  color : u.color=t.color
  /-- The stores. -/
  stores : ∀ i∈u.stores,i∈t.stores ∨ Within first count i

/-- Nothing is stored at first. -/
theorem stored_zero (first : ℕ) (value : ℕ→Half) (t : Terminal) : Stored first 0 value t t where
  buffer i := by
    rw [if_neg]
    rintro ⟨h1,h2⟩
    omega
  row := rfl
  column := rfl
  color := rfl
  stores _ h := Or.inl h

/-- Two adjacent ranges. -/
theorem stored_add {first n m : ℕ} {value : ℕ→Half} {t u v : Terminal}
    (h : Stored first n value t u) (h' : Stored (first+n) m value u v) :
    Stored first (n+m) value t v where
  buffer i := by
    rw [h'.buffer,h.buffer]
    by_cases h1 : Within (first+n) m i
    · rw [if_pos h1,if_pos (by omega)]
    · rw [if_neg h1]
      by_cases h2 : Within first n i
      · rw [if_pos h2,if_pos (by omega)]
      · rw [if_neg h2,if_neg (by omega)]
  row := h'.row.trans h.row
  column := h'.column.trans h.column
  color := h'.color.trans h.color
  stores i hi := by
    obtain hi|hi := h'.stores i hi
    · obtain hi|hi := h.stores i hi
      · exact Or.inl hi
      · exact Or.inr ⟨by omega,by omega⟩
    · exact Or.inr ⟨by omega,by omega⟩

/-- One store. -/
theorem stored_store {value : ℕ→Half} {v : Half} {i : ℕ} (t : Terminal) (h : v=value i) :
    Stored i 1 value t (t.store i v) where
  buffer j := by
    by_cases hj : j=i
    · rw [hj,if_pos (by omega)]
      exact (Function.update_self i v t.buffer).trans h
    · rw [if_neg (by omega)]
      exact Function.update_of_ne hj v t.buffer
  row := rfl
  column := rfl
  color := rfl
  stores j hj := by
    obtain hj|hj := List.mem_cons.1 hj
    · exact Or.inr ⟨by omega,by omega⟩
    · exact Or.inl hj

/-- A counted loop of which every round stores the next few cells. -/
theorem stored_foldl {first width : ℕ} {value : ℕ→Half} {t : Terminal} {body : Terminal→ℕ→Terminal}
    (rounds : ℕ)
    (h : ∀ k < rounds,∀ u,Stored first (k*width) value t u→
      Stored (first+k*width) width value u (body u k)) :
    Stored first (rounds*width) value t ((List.range rounds).foldl body t) := by
  induction rounds with
  | zero =>
    rw [Nat.zero_mul]
    exact stored_zero first value t
  | succ rounds ih =>
    have hprev := ih fun k hk => h k (by omega)
    rw [List.range_succ,List.foldl_append,Nat.succ_mul]
    exact stored_add hprev (h rounds (by omega) _ hprev)

/-- A loop over one row. -/
theorem rowLoop_stored {first : ℕ} {value : ℕ→Half} {entry : Terminal→ℕ→Half} {t : Terminal}
    (h : ∀ x<vgaWidth,∀ u,Stored first x value t u→ entry u x=value (first+x)) :
    Stored first vgaWidth value t (rowLoop first entry t) := by
  have hround : ∀ x<vgaWidth,∀ u,Stored first (x*1) value t u→
      Stored (first+x*1) 1 value u (u.store (first+x) (entry u x)) := by
    intro x hx u hu
    rw [Nat.mul_one] at hu ⊢
    exact stored_store u (h x hx u hu)
  have hloop := stored_foldl vgaWidth hround
  rw [Nat.mul_one] at hloop
  exact hloop

/-- A loop that fills the first rows with one entry. -/
theorem rowsLoop_filled (rows : ℕ) (entry : Terminal→ℕ→Half) {t : Terminal} {v : Half}
    (h : ∀ u x,u.color=t.color→ entry u x=v) :
    Stored 0 (rows*vgaWidth) (fun _ => v) t
      (rowsLoop rows (fun y => rowLoop (y*vgaWidth) entry) t) := by
  refine stored_foldl rows ?_
  intro y _ u hu
  rw [Nat.zero_add]
  exact rowLoop_stored fun x _ w hw => h w x (hw.color.trans hu.color)

/-- The cells after terminal_scroll: every row has moved up by one, and the
last one is blank. -/
def scrolled (t : Terminal) (i : ℕ) : Half :=
  if i < (vgaHeight-1)*vgaWidth then t.buffer (i+vgaWidth) else vgaEntry blank t.color

/-- terminal_scroll stores every cell of the buffer once, with the cell below
it: the rows are moved from the top down, so that no row is overwritten before
it is read. -/
theorem terminalScroll_stored (t : Terminal) :
    Stored 0 (vgaHeight*vgaWidth) (scrolled t) t (terminalScroll t) := by
  have hmove : Stored 0 ((vgaHeight-1)*vgaWidth) (scrolled t) t
      (rowsLoop (vgaHeight-1) (fun y => rowLoop (y*vgaWidth) (cellBelow y)) t) := by
    refine stored_foldl (vgaHeight-1) ?_
    intro y hy u hu
    rw [Nat.zero_add]
    refine rowLoop_stored ?_
    intro x hx w hw
    dsimp only [vgaWidth,vgaHeight] at hy hx hu hw ⊢
    have hread : w.buffer ((y+1)*80+x)=t.buffer ((y+1)*80+x) := by
      rw [hw.buffer,if_neg (by omega),hu.buffer,if_neg (by omega)]
    have hlt : y*80+x<(25-1)*80 := by omega
    unfold cellBelow scrolled
    rw [hread,if_pos hlt,Nat.succ_mul,Nat.add_right_comm]
  have hlast : Stored (0+(vgaHeight-1)*vgaWidth) vgaWidth (scrolled t)
      (rowsLoop (vgaHeight-1) (fun y => rowLoop (y*vgaWidth) (cellBelow y)) t) (terminalScroll t) := by
    rw [Nat.zero_add]
    refine rowLoop_stored ?_
    intro x _ w hw
    have hlt : ¬(vgaHeight-1)*vgaWidth+x<(vgaHeight-1)*vgaWidth := by omega
    unfold blankEntry scrolled
    rw [if_neg hlt,hw.color,hmove.color]
  have hall : vgaHeight*vgaWidth=(vgaHeight-1)*vgaWidth+vgaWidth := rfl
  rw [hall]
  exact stored_add hmove hlast

/-- A cell holds the character it was made of. -/
theorem charOf_vgaEntry (c color : Byte) : charOf (vgaEntry c color)=c := by
  unfold charOf vgaEntry
  ext i hi
  have h : i < 16 := by omega
  simp only [BitVec.getElem_setWidth,BitVec.getLsbD_or,BitVec.getLsbD_setWidth,BitVec.getLsbD_shiftLeft,
    h,hi,decide_true,Bool.true_and,Bool.not_true,Bool.false_and,Bool.or_false]
  exact BitVec.getLsbD_eq_getElem hi

/-- After a loop over the whole screen every cell has its new value. -/
theorem stored_screen {value : ℕ→Half} {t u : Terminal}
    (h : Stored 0 (vgaHeight*vgaWidth) value t u) {y x : ℕ} (hy : y<vgaHeight) (hx : x<vgaWidth) :
    u.buffer (y*vgaWidth+x)=value (y*vgaWidth+x) := by
  have hin : Within 0 (vgaHeight*vgaWidth) (y*vgaWidth+x) := by
    dsimp only [vgaHeight,vgaWidth] at hy hx ⊢
    omega
  rw [h.buffer,if_pos hin]

/-- A loop over the whole screen stores inside the buffer. -/
theorem stored_screen_stores {value : ℕ→Half} {t u : Terminal}
    (h : Stored 0 (vgaHeight*vgaWidth) value t u) (ht : ∀ i∈t.stores,i < vgaHeight*vgaWidth) :
    ∀ i∈u.stores,i < vgaHeight*vgaWidth := by
  intro i hi
  obtain hi|hi := h.stores i hi
  · exact ht i hi
  · omega

/-- A screen of blanks with the cursor in its first row displays the blank
page. -/
theorem displays_blankPage {t : Terminal} {color : Byte} (hrow : t.row=0)
    (hcells : ∀ y<vgaHeight,∀ x<vgaWidth,t.buffer (y*vgaWidth+x)=vgaEntry blank color)
    (hstores : ∀ i∈t.stores,i < vgaHeight*vgaWidth) : Displays t blankPage where
  row := hrow
  rowLt := by
    rw [hrow]
    decide
  cells y hy x hx := by
    unfold shown
    rw [hcells y hy x hx]
    exact charOf_vgaEntry blank color
  below _ _ _ := rfl
  stores := hstores

/-- terminal_initialize shows the blank page. -/
theorem terminalInitialize_shows (t : Terminal) : Shows (terminalInitialize t) blankPage := by
  have h := rowsLoop_filled vgaHeight blankEntry
    (t := {t with row := 0, column := 0, color := vgaEntryColor 7 0, stores := []})
    (v := vgaEntry blank (vgaEntryColor 7 0)) (by
      intro u _ hu
      unfold blankEntry
      rw [hu])
  have hstores := stored_screen_stores h fun _ hi => absurd hi List.not_mem_nil
  have hblank := displays_blankPage h.row (fun y hy x hx => stored_screen h hy hx) hstores
  exact ⟨hblank,h.column,by decide⟩

/-- terminal_clear shows the blank page. -/
theorem terminalClear_shows {t : Terminal} {p : Page} (h : Displays t p) :
    Shows (terminalClear t) blankPage := by
  have hloop := rowsLoop_filled vgaHeight (fun _ _ => vgaEntry blank (vgaEntryColor 7 0)) (t := t)
    (fun _ _ _ => rfl)
  unfold terminalClear
  dsimp only
  generalize rowsLoop vgaHeight _ t=u at hloop ⊢
  have hstores := stored_screen_stores hloop h.stores
  have hblank := displays_blankPage (t := {u with row := 0, column := 0}) rfl
    (fun y hy x hx => stored_screen hloop hy hx) hstores
  exact ⟨hblank,rfl,by decide⟩

/-- The column does not matter to what is displayed. -/
theorem displays_column {t : Terminal} {p : Page} (h : Displays t p) (k l : ℕ) :
    Displays {t with column := k} {p with column := l} :=
  ⟨h.row,h.rowLt,h.cells,h.below,h.stores⟩

/-- Above the bottom row the next row only moves the cursor. -/
theorem nextRow_above {t : Terminal} {p : Page} (h : Displays t p) (hrow : t.row+1<vgaHeight) :
    nextRow t={t with column := 0, row := t.row+1} ∧ p.newline.top=p.top := by
  have hpage := h.row
  unfold Page.top at hpage
  unfold nextRow Page.newline Page.top
  dsimp only [vgaHeight] at hrow ⊢
  refine ⟨if_neg (by omega),?_⟩
  omega

/-- At the bottom row the screen scrolls, and so does the window on the
page. -/
theorem nextRow_bottom {t : Terminal} {p : Page} (h : Displays t p) (hrow : ¬t.row+1<vgaHeight) :
    nextRow t={terminalScroll {t with column := 0, row := t.row+1} with row := vgaHeight-1} ∧
      p.newline.top=p.top+1 ∧ p.row=p.top+(vgaHeight-1) := by
  have hpage := h.row
  have hlt := h.rowLt
  unfold Page.top at hpage
  unfold nextRow Page.newline Page.top
  dsimp only [vgaHeight] at hrow hlt ⊢
  refine ⟨if_pos (by omega),?_,?_⟩
  · omega
  · omega

/-- After scrolling the screen shows the page one row further down. -/
theorem scrolled_shows {t : Terminal} {p : Page} (h : Displays t p) (hrow : p.row=p.top+(vgaHeight-1))
    {y x : ℕ} (hy : y<vgaHeight) (hx : x<vgaWidth) :
    charOf (scrolled t (y*vgaWidth+x))=p.cell (p.top+1+y) x := by
  unfold scrolled
  by_cases hlast : y+1<vgaHeight
  · have hlt : y*vgaWidth+x<(vgaHeight-1)*vgaWidth := by
      dsimp only [vgaHeight,vgaWidth] at hlast hx ⊢
      omega
    have hbelow := h.cells (y+1) hlast x hx
    unfold shown at hbelow
    rw [Nat.succ_mul,Nat.add_right_comm] at hbelow
    rw [if_pos hlt,hbelow,Nat.add_assoc,Nat.add_comm 1 y]
  · have hge : ¬y*vgaWidth+x<(vgaHeight-1)*vgaWidth := by
      dsimp only [vgaHeight,vgaWidth] at hlast hy ⊢
      omega
    have hdown : p.row<p.top+1+y := by omega
    rw [if_neg hge,charOf_vgaEntry,h.below (p.top+1+y) hdown x]

/-- The next row of the screen is the next row of the page. -/
theorem nextRow_shows {t : Terminal} {p : Page} (h : Displays t p) : Shows (nextRow t) p.newline := by
  have hbelow : ∀ y,p.newline.row<y→∀ x,p.newline.cell y x=blank :=
    fun y hy => h.below y (Nat.lt_of_succ_lt hy)
  by_cases hrow : t.row+1<vgaHeight
  · obtain ⟨hnext,htop⟩ := nextRow_above h hrow
    rw [hnext]
    refine ⟨⟨?_,hrow,?_,hbelow,h.stores⟩,rfl,Nat.zero_lt_succ 79⟩
    · rw [htop]
      exact (Nat.add_right_comm t.row 1 p.top).trans (congrArg (·+1) h.row)
    · rw [htop]
      exact h.cells
  · obtain ⟨hnext,htop,hbottom⟩ := nextRow_bottom h hrow
    have hscroll := terminalScroll_stored {t with column := 0, row := t.row+1}
    rw [hnext]
    generalize terminalScroll {t with column := 0, row := t.row+1}=u at hscroll ⊢
    have hstores := stored_screen_stores hscroll h.stores
    refine ⟨⟨?_,Nat.lt_succ_self 24,?_,hbelow,hstores⟩,hscroll.column,Nat.zero_lt_succ 79⟩
    · rw [htop]
      unfold Page.newline
      dsimp only
      omega
    · intro y hy x hx
      rw [htop]
      exact (congrArg charOf (stored_screen hscroll hy hx)).trans (scrolled_shows h hbottom hy hx)

/-- A cell written in the cursor's row is written on the page. -/
theorem terminalPutentryat_displays {t : Terminal} {p : Page} (h : Displays t p) (c color : Byte)
    {x : ℕ} (hx : x<vgaWidth) :
    Displays (terminalPutentryat t c color x t.row) (p.fill x (x+1) c) where
  row := h.row
  rowLt := h.rowLt
  cells y hy z hz := by
    have hrow := h.row
    have hold := h.cells y hy z hz
    have hat : y=t.row ∧ z=x↔ y*vgaWidth+z=t.row*vgaWidth+x := by
      dsimp only [vgaWidth] at hx hz ⊢
      omega
    have hpage : p.top+y=p.row ∧ x≤z ∧ z<x+1↔ y=t.row ∧ z=x := by omega
    show charOf (Function.update t.buffer (t.row*vgaWidth+x) (vgaEntry c color) (y*vgaWidth+z))=
      if p.top+y=p.row ∧ x≤z ∧ z<x+1 then c else p.cell (p.top+y) z
    by_cases hcell : y=t.row ∧ z=x
    · rw [if_pos (hpage.2 hcell),hat.1 hcell,Function.update_self]
      exact charOf_vgaEntry c color
    · rw [if_neg (fun hc => hcell (hpage.1 hc)),Function.update_of_ne (fun hc => hcell (hat.2 hc))]
      exact hold
  below y hy z := by
    have hne : ¬(y=p.row ∧ x≤z ∧ z<x+1) := by
      rintro ⟨hc,-,-⟩
      exact absurd hc (Nat.ne_of_gt hy)
    exact (if_neg hne).trans (h.below y hy z)
  stores i hi := by
    obtain rfl|hi := List.mem_cons.1 hi
    · have hrow := h.rowLt
      dsimp only [vgaWidth,vgaHeight] at hrow hx ⊢
      omega
    · exact h.stores i hi

/-- Filling some columns one after the other. -/
theorem fill_fill {p : Page} {start stop : ℕ} (c : Byte) (h : start<stop) :
    (p.fill start (start+1) c).fill (start+1) stop c=p.fill start stop c := by
  unfold Page.fill
  congr 1
  funext y x
  dsimp only
  by_cases hrow : y=p.row
  · by_cases hlater : start+1≤x ∧ x<stop
    · rw [if_pos ⟨hrow,hlater⟩,if_pos ⟨hrow,by omega⟩]
    · rw [if_neg (fun hc => hlater hc.2)]
      by_cases hfirst : x=start
      · rw [if_pos ⟨hrow,by omega⟩,if_pos ⟨hrow,by omega⟩]
      · rw [if_neg (by omega),if_neg (by omega)]
  · rw [if_neg (fun hc => hrow hc.1),if_neg (fun hc => hrow hc.1),if_neg (fun hc => hrow hc.1)]

/-- Filling no column. -/
theorem fill_self (p : Page) (start : ℕ) (c : Byte) : p.fill start start c=p := by
  unfold Page.fill
  congr 1
  funext y x
  exact if_neg (by omega)

/-- The loop of a tab fills the columns up to the stop. -/
theorem tabLoop_displays (spaces : ℕ) {t : Terminal} {p : Page} (h : Displays t p)
    (hstop : t.column+spaces≤vgaWidth) :
    Displays (tabLoop spaces t) (p.fill t.column (t.column+spaces) blank) ∧
      (tabLoop spaces t).column=t.column+spaces := by
  induction spaces generalizing t p with
  | zero =>
    rw [Nat.add_zero,fill_self]
    exact ⟨h,rfl⟩
  | succ spaces ih =>
    have hcolumn : t.column<vgaWidth := by omega
    have hput := displays_column (terminalPutentryat_displays h blank t.color hcolumn)
      (t.column+1) p.column
    obtain ⟨hloop,hend⟩ := ih hput (by omega : t.column+1+spaces≤vgaWidth)
    have hstep : tabLoop (spaces+1) t=tabLoop spaces
        {terminalPutentryat t blank t.color t.column t.row with column := t.column+1} :=
      if_pos hcolumn
    have hsum : t.column+1+spaces=t.column+(spaces+1) := by omega
    rw [hstep,←fill_fill blank (by omega : t.column<t.column+(spaces+1)),←hsum]
    exact ⟨hloop,hend⟩

/-- The wrap behind the last column. -/
theorem wrap_shows {t : Terminal} {p : Page} (h : Displays t p) :
    Shows (if vgaWidth≤t.column then nextRow t else t) (p.moveTo t.column) := by
  unfold Page.moveTo
  by_cases hcolumn : t.column<vgaWidth
  · rw [if_neg (Nat.not_le.2 hcolumn),if_pos hcolumn]
    exact ⟨displays_column h t.column t.column,rfl,hcolumn⟩
  · rw [if_pos (Nat.not_lt.1 hcolumn),if_neg hcolumn]
    exact nextRow_shows h

/-- A backspace blanks the column before the cursor. -/
theorem backspace_shows {t : Terminal} {p : Page} (h : Shows t p) (hcolumn : 0<p.column) :
    Shows (terminalPutentryat {t with column := t.column-1} blank t.color (t.column-1) t.row)
      {p.fill (p.column-1) p.column blank with column := p.column-1} := by
  have hlt := h.columnLt
  have hprev : p.column-1<vgaWidth := by omega
  have hsucc : p.column-1+1=p.column := by omega
  have hput := terminalPutentryat_displays h.toDisplays blank t.color hprev
  rw [hsucc] at hput
  rw [h.column]
  exact ⟨displays_column hput (p.column-1) (p.column-1),rfl,hprev⟩

/-- A tab fills the columns up to the next stop. -/
theorem tab_shows {t : Terminal} {p : Page} (h : Shows t p) :
    Shows (if vgaWidth≤(tabLoop (8-t.column%8) t).column then nextRow (tabLoop (8-t.column%8) t)
      else tabLoop (8-t.column%8) t)
      ((p.fill p.column (nextTab p.column) blank).moveTo (nextTab p.column)) := by
  have hcolumn := h.column
  have hlt := h.columnLt
  have hstop : t.column+(8-t.column%8)=nextTab p.column := by
    unfold nextTab
    omega
  have hfits : nextTab p.column≤vgaWidth := by
    unfold nextTab
    dsimp only [vgaWidth] at hlt ⊢
    omega
  obtain ⟨hloop,hend⟩ := tabLoop_displays (8-t.column%8) h.toDisplays (by omega)
  have hwrap := wrap_shows hloop
  rw [hend,hstop,hcolumn] at hwrap
  rw [hend,hstop,hcolumn]
  exact hwrap

/-- One byte on the screen is one byte on the page. -/
theorem terminalPutchar_shows {t : Terminal} {p : Page} (h : Shows t p) (c : Byte) :
    Shows (terminalPutchar t c) (p.putchar c) := by
  have hcolumn := h.column
  unfold terminalPutchar Page.putchar
  by_cases hnewline : c=0x0A
  · rw [if_pos hnewline,if_pos hnewline]
    exact nextRow_shows h.toDisplays
  rw [if_neg hnewline,if_neg hnewline]
  by_cases hback : c=0x08
  · rw [if_pos hback,if_pos hback]
    by_cases hzero : p.column=0
    · rw [if_neg (by omega),if_pos hzero]
      exact h
    · rw [if_pos (by omega),if_neg hzero]
      exact backspace_shows h (Nat.pos_of_ne_zero hzero)
  rw [if_neg hback,if_neg hback]
  by_cases htab : c=0x09
  · rw [if_pos htab,if_pos htab]
    exact tab_shows h
  rw [if_neg htab,if_neg htab]
  have hput := terminalPutentryat_displays h.toDisplays c t.color (hcolumn.trans_lt h.columnLt)
  have hwrap := wrap_shows (displays_column hput (t.column+1) p.column)
  rw [←hcolumn]
  exact hwrap

/-- A string is shown byte by byte. -/
theorem foldl_putchar_shows (data : List Byte) {t : Terminal} {p : Page} (h : Shows t p) :
    Shows (data.foldl terminalPutchar t) (data.foldl Page.putchar p) := by
  induction data generalizing t p with
  | nil => exact h
  | cons c data ih =>
    rw [List.foldl_cons,List.foldl_cons]
    exact ih (terminalPutchar_shows h c)

/-- Every call shows what it does to the page. -/
theorem performTty_shows {t : Terminal} {p : Page} (h : Shows t p) (op : TtyOp) :
    Shows (performTty t op) (p.perform op) := by
  cases op with
  | putchar c => exact terminalPutchar_shows h c
  | writestring data => exact foldl_putchar_shows data.bytes h
  | setcolor color => exact ⟨⟨h.row,h.rowLt,h.cells,h.below,h.stores⟩,h.column,h.columnLt⟩
  | clear => exact terminalClear_shows h.toDisplays

/-- Every run shows what it does to the page. -/
theorem performTty_foldl_shows (ops : List TtyOp) {t : Terminal} {p : Page} (h : Shows t p) :
    Shows (ops.foldl performTty t) (ops.foldl Page.perform p) := by
  induction ops generalizing t p with
  | nil => exact h
  | cons op ops ih =>
    rw [List.foldl_cons,List.foldl_cons]
    exact ih (performTty_shows h op)

/-- After any calls that follow terminal_initialize the cursor is on the
screen, every store was inside the buffer, and the screen shows the rows of
the page from its top on, which is the first row or the one that lies 24 rows
above the cursor. -/
theorem terminal_refines_page (t : Terminal) (ops : List TtyOp) :
    let after := ops.foldl performTty (terminalInitialize t)
    let page := ops.foldl Page.perform blankPage
    after.row<25 ∧ after.column<80 ∧ (∀ i∈after.stores,i < 25*80) ∧
      page.row=page.top+after.row ∧ page.column=after.column ∧
      ∀ y<25,∀ x<80,shown after y x=page.cell (page.top+y) x := by
  intro after page
  have h : Shows after page := performTty_foldl_shows ops (terminalInitialize_shows t)
  have hcolumn : after.column<80 := by
    rw [h.column]
    exact h.columnLt
  exact ⟨h.rowLt,hcolumn,h.stores,by rw [←h.row,Nat.add_comm],h.column.symm,h.cells⟩

end EronKernel.TtyRefinement

import EronKernel.CString

/-!
# The text terminal of tty.c

The terminal keeps a cursor, a colour and the cells of the video memory, which
are addressed by their index from the start of the buffer. Every cell that the
code stores to is also noted, so that stores outside the buffer could be seen.
-/

namespace EronKernel.TtyModel

open ByteMemory CString

/-- Columns of the screen. -/
abbrev vgaWidth : ℕ := 80

/-- Rows of the screen. -/
abbrev vgaHeight : ℕ := 25

/-- A blank. -/
abbrev blank : Byte := 0x20

/-- vga_entry_color. -/
def vgaEntryColor (fg bg : Byte) : Byte := fg|||(bg<<<4)

/-- vga_entry. -/
def vgaEntry (uc color : Byte) : Half := uc.setWidth 16|||(color.setWidth 16<<<8)

/-- The statics of tty.c with the video memory. -/
structure Terminal where
  /-- Row of the cursor. -/
  row : ℕ
  /-- Column of the cursor. -/
  column : ℕ
  /-- Colour of what is written next. -/
  color : Byte
  /-- Cells by index. -/
  buffer : ℕ→Half
  /-- Indices that were stored to, the last one first. -/
  stores : List ℕ

/-- Store to a cell. -/
def Terminal.store (t : Terminal) (i : ℕ) (v : Half) : Terminal :=
  {t with buffer := Function.update t.buffer i v, stores := i::t.stores}

/-- A loop over the columns that stores to one row, with values that may be
read from the buffer. -/
def rowLoop (first : ℕ) (value : Terminal→ℕ→Half) (t : Terminal) : Terminal :=
  (List.range vgaWidth).foldl (fun t x => t.store (first+x) (value t x)) t

/-- A loop over the first rows. -/
def rowsLoop (rows : ℕ) (body : ℕ→Terminal→Terminal) (t : Terminal) : Terminal :=
  (List.range rows).foldl (fun t y => body y t) t

/-- The value a cell has one row further down. -/
def cellBelow (y : ℕ) (t : Terminal) (x : ℕ) : Half := t.buffer ((y+1)*vgaWidth+x)

/-- A blank in the current colour. -/
def blankEntry (t : Terminal) (_ : ℕ) : Half := vgaEntry blank t.color

/-- terminal_scroll. -/
def terminalScroll (t : Terminal) : Terminal :=
  let t := rowsLoop (vgaHeight-1) (fun y => rowLoop (y*vgaWidth) (cellBelow y)) t
  rowLoop ((vgaHeight-1)*vgaWidth) blankEntry t

/-- terminal_initialize; the stores are counted from here. -/
def terminalInitialize (t : Terminal) : Terminal :=
  let t := {t with row := 0, column := 0, color := vgaEntryColor 7 0, stores := []}
  rowsLoop vgaHeight (fun y => rowLoop (y*vgaWidth) blankEntry) t

/-- terminal_setcolor. -/
def terminalSetcolor (t : Terminal) (color : Byte) : Terminal := {t with color := color}

/-- terminal_putentryat. -/
def terminalPutentryat (t : Terminal) (c color : Byte) (x y : ℕ) : Terminal :=
  t.store (y*vgaWidth+x) (vgaEntry c color)

/-- The start of the next row, scrolling at the bottom; terminal_putchar has
this text three times. -/
def nextRow (t : Terminal) : Terminal :=
  let t := {t with column := 0, row := t.row+1}
  if vgaHeight ≤ t.row then {terminalScroll t with row := vgaHeight-1} else t

/-- The loop of a tab. -/
def tabLoop : ℕ→Terminal→Terminal
  | 0,t => t
  | spaces+1,t =>
    if t.column<vgaWidth then
      let u := terminalPutentryat t blank t.color t.column t.row
      tabLoop spaces {u with column := u.column+1}
    else t

/-- terminal_putchar. -/
def terminalPutchar (t : Terminal) (c : Byte) : Terminal :=
  if c=0x0A then nextRow t
  else if c=0x08 then
    if 0<t.column then
      let t := {t with column := t.column-1}
      terminalPutentryat t blank t.color t.column t.row
    else t
  else if c=0x09 then
    let t := tabLoop (8-t.column%8) t
    if vgaWidth ≤ t.column then nextRow t else t
  else
    let t := terminalPutentryat t c t.color t.column t.row
    let t := {t with column := t.column+1}
    if vgaWidth ≤ t.column then nextRow t else t

/-- terminal_writestring. -/
def terminalWritestring (t : Terminal) (data : CStr) : Terminal := data.bytes.foldl terminalPutchar t

/-- terminal_clear. -/
def terminalClear (t : Terminal) : Terminal :=
  let bg := vgaEntryColor 7 0
  let t := rowsLoop vgaHeight (fun y => rowLoop (y*vgaWidth) fun _ _ => vgaEntry blank bg) t
  {t with row := 0, column := 0}

/-- One call of the terminal. -/
inductive TtyOp where
  /-- terminal_putchar. -/
  | putchar (c : Byte)
  /-- terminal_writestring. -/
  | writestring (data : CStr)
  /-- terminal_setcolor. -/
  | setcolor (color : Byte)
  /-- terminal_clear. -/
  | clear

/-- Perform one call. -/
def performTty (t : Terminal) : TtyOp→Terminal
  | .putchar c => terminalPutchar t c
  | .writestring data => terminalWritestring t data
  | .setcolor color => terminalSetcolor t color
  | .clear => terminalClear t

/-- The character of a cell. -/
def charOf (v : Half) : Byte := v.setWidth 8

/-- The character that the screen shows. -/
def shown (t : Terminal) (y x : ℕ) : Byte := charOf (t.buffer (y*vgaWidth+x))

end EronKernel.TtyModel

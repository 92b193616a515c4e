import EronKernel.TtyModel

/-!
# The keyboard of teclado.c

The interrupt handler decodes a scancode and puts the character into a ring
buffer, from which the main loop takes it. The handler runs to completion, but
it may run between any two memory accesses of keyboard_getchar, which is
therefore modelled access by access. The events at the buffer are logged in
order.
-/

namespace EronKernel.KeyboardModel

open ByteMemory CString TtyModel

/-- KB_BUF_SZ. -/
abbrev kbBufSz : ℕ := 128

/-- KB_STATE_SHIFT. -/
abbrev kbStateShift : Word := 0x01

/-- KB_STATE_CTRL. -/
abbrev kbStateCtrl : Word := 0x02

/-- KB_STATE_ALT. -/
abbrev kbStateAlt : Word := 0x04

/-- KB_STATE_CAPS. -/
abbrev kbStateCaps : Word := 0x08

/-- The keys from the keypad on, which do not depend on shift; the rest of
either table is zero. -/
def kbdusKeypad : List Byte :=
  [0,0x20,0]++List.replicate 10 0++[0,0]++[0,0,0,0x2D]++[0,0,0,0x2B]

/-- kbdus_lower up to its last character. -/
def kbdusLower : List Byte :=
  [0,27]++ascii "1234567890-="++[8]++
  [9]++ascii "qwertyuiop[]"++[10]++
  [0]++ascii "asdfghjkl;'`"++[0]++
  ascii "\\zxcvbnm,./"++[0]++ascii "*"++kbdusKeypad

/-- kbdus_upper up to its last character. -/
def kbdusUpper : List Byte :=
  [0,27]++ascii "!@#$%^&*()_+"++[8]++
  [9]++ascii "QWERTYUIOP\x7b\x7d"++[10]++
  [0]++ascii "ASDFGHJKL:\x22~"++[0]++
  ascii "|ZXCVBNM<>?"++[0]++ascii "*"++kbdusKeypad

/-- What happens at the buffer and around it. -/
inductive Note where
  /-- keyboard_irq echoes a character. -/
  | echoed (c : Byte)
  /-- keyboard_irq puts a character into the buffer. -/
  | accepted (c : Byte)
  /-- keyboard_irq finds the buffer full. -/
  | refused (c : Byte)
  /-- keyboard_getchar reads kb_head. -/
  | headRead
  /-- keyboard_getchar writes kb_tail. -/
  | released
  /-- keyboard_getchar returns. -/
  | returned (c : Byte)

/-- The statics of teclado.c, the terminal they echo to and the log. -/
structure Keyboard where
  /-- shift_pressed. -/
  shiftPressed : Bool
  /-- caps_lock. -/
  capsLock : Bool
  /-- ctrl_pressed. -/
  ctrlPressed : Bool
  /-- alt_pressed. -/
  altPressed : Bool
  /-- kb_state. -/
  kbState : Word
  /-- kb_buf. -/
  kbBuf : ℕ→Byte
  /-- kb_head. -/
  kbHead : ℕ
  /-- kb_tail. -/
  kbTail : ℕ
  /-- The terminal. -/
  terminal : Terminal
  /-- What has happened so far, in order. -/
  log : List Note

/-- Log one event. -/
def Keyboard.note (k : Keyboard) (e : Note) : Keyboard := {k with log := k.log++[e]}

/-- The character of a scancode under the current modifiers. -/
def keyChar (k : Keyboard) (scancode : Byte) : Byte :=
  let useUpper :=
    if 0x10 ≤ scancode ∧ scancode≤0x32 then
      if k.capsLock then !k.shiftPressed else k.shiftPressed
    else k.shiftPressed
  if useUpper then kbdusUpper.getD scancode.toNat 0 else kbdusLower.getD scancode.toNat 0

/-- The echo, which newline and backspace do not have. -/
def echo (k : Keyboard) (c : Byte) : Keyboard :=
  if c≠0x0A ∧ c≠0x08 then {k with terminal := terminalPutchar k.terminal c}.note (.echoed c) else k

/-- The end of keyboard_irq: put the character into the buffer if there is
room. -/
def enqueue (k : Keyboard) (c : Byte) : Keyboard :=
  let next := (k.kbHead+1)%kbBufSz
  if next≠k.kbTail then
    {k with kbBuf := Function.update k.kbBuf k.kbHead c, kbHead := next}.note (.accepted c)
  else k.note (.refused c)

/-- keyboard_irq with the scancode it reads from the port. -/
def keyboardIrq (k : Keyboard) (scancode : Byte) : Keyboard :=
  if scancode=0x2A ∨ scancode=0x36 then
    {k with shiftPressed := true, kbState := k.kbState|||kbStateShift}
  else if scancode=0xAA ∨ scancode=0xB6 then
    {k with shiftPressed := false, kbState := k.kbState&&&~~~kbStateShift}
  else if scancode=0x1D then {k with ctrlPressed := true, kbState := k.kbState|||kbStateCtrl}
  else if scancode=0x9D then {k with ctrlPressed := false, kbState := k.kbState&&&~~~kbStateCtrl}
  else if scancode=0x38 then {k with altPressed := true, kbState := k.kbState|||kbStateAlt}
  else if scancode=0xB8 then {k with altPressed := false, kbState := k.kbState&&&~~~kbStateAlt}
  else if scancode=0x3A then
    let k := {k with capsLock := !k.capsLock}
    if k.capsLock then {k with kbState := k.kbState|||kbStateCaps}
    else {k with kbState := k.kbState&&&~~~kbStateCaps}
  else if scancode=0xE0 then k
  else if scancode&&&0x80=0 then
    let c := keyChar k scancode
    if c≠0 then enqueue (echo k c) c else k
  else k

/-- keyboard_getchar without an interrupt. -/
def keyboardGetchar (k : Keyboard) : Byte×Keyboard :=
  if k.kbHead=k.kbTail then (0,k)
  else (k.kbBuf k.kbTail,{k with kbTail := (k.kbTail+1)%kbBufSz})

/-- How far a call of keyboard_getchar has come. -/
inductive Getchar where
  /-- Nothing was read. -/
  | entry
  /-- kb_head was read first. -/
  | headFirst (head : ℕ)
  /-- kb_tail was read first. -/
  | tailFirst (tail : ℕ)
  /-- The buffer was found not to be empty. -/
  | nonempty
  /-- kb_tail was read as the index of the character. -/
  | index (tail : ℕ)
  /-- The character was read. -/
  | char (c : Byte)
  /-- kb_tail was read to be advanced. -/
  | advance (c : Byte) (tail : ℕ)
  /-- The call is about to return. -/
  | done (c : Byte)

/-- The outcome of the comparison. -/
def compared (head tail : ℕ) : Getchar := if head=tail then .done 0 else .nonempty

/-- One memory access of keyboard_getchar, or its return, after which it is
called again. C leaves open which operand of the comparison is read first. -/
def getcharStep (readHead : Bool) (k : Keyboard) : Getchar→Keyboard×Getchar
  | .entry =>
    if readHead then (k.note .headRead,.headFirst k.kbHead) else (k,.tailFirst k.kbTail)
  | .headFirst head => (k,compared head k.kbTail)
  | .tailFirst tail => (k.note .headRead,compared k.kbHead tail)
  | .nonempty => (k,.index k.kbTail)
  | .index tail => (k,.char (k.kbBuf tail))
  | .char c => (k,.advance c k.kbTail)
  | .advance c tail => ({k with kbTail := (tail+1)%kbBufSz}.note .released,.done c)
  | .done c => (k.note (.returned c),.entry)

/-- An interrupt, or the next step of the call. -/
inductive Event where
  /-- keyboard_irq runs. -/
  | irq (scancode : Byte)
  /-- keyboard_getchar makes its next access. -/
  | getchar (readHead : Bool)

/-- The keyboard with the call of the main loop. -/
structure System where
  /-- The statics. -/
  keyboard : Keyboard
  /-- The call. -/
  call : Getchar

/-- One event. -/
def System.step (s : System) : Event→System
  | .irq scancode => {s with keyboard := keyboardIrq s.keyboard scancode}
  | .getchar readHead =>
    let (k,call) := getcharStep readHead s.keyboard s.call
    ⟨k,call⟩

/-- The statics as they are before the first event. -/
def boot (terminal : Terminal) : System where
  keyboard := ⟨false,false,false,false,0,fun _ => 0,0,0,terminal,[]⟩
  call := .entry

/-- The terminal after terminal_initialize. -/
def clearedTerminal : Terminal := terminalInitialize ⟨0,0,0,fun _ => 0,[]⟩

/-- Any number of events. -/
def System.run (s : System) (events : List Event) : System := events.foldl System.step s

/-- The characters accepted by keyboard_irq. -/
def acceptedChars (log : List Note) : List Byte :=
  log.filterMap fun e => match e with
    | .accepted c => some c
    | _ => none

/-- The characters other than zero that keyboard_getchar returned. -/
def returnedChars (log : List Note) : List Byte :=
  log.filterMap fun e => match e with
    | .returned c => if c=0 then none else some c
    | _ => none

/-- How many characters keyboard_getchar has released. -/
def releasedCount (log : List Note) : ℕ :=
  log.countP fun e => match e with
    | .released => true
    | _ => false

end EronKernel.KeyboardModel

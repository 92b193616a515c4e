import EronKernel.KeyboardCodes
import EronKernel.LineEditing

/-!
# The input loop of kernel_main

The main loop takes characters from the keyboard and hands them to shell_input,
which collects them in cmd_buffer and calls execute_command at the end of a
line. keyboard_irq may run between any two steps of the loop and while a command
runs. A command may print anything and write over the line, but it does not
touch the keyboard.
-/

namespace EronKernel.ShellInput

open ByteMemory TtyModel KeyboardModel KeyboardCodes LineEditing

/-- Where the loop is. -/
inductive MainLoop where
  /-- In a call of keyboard_getchar. -/
  | waiting (call : Getchar)
  /-- The call has returned a character for shell_input. -/
  | input (c : Byte)
  /-- In execute_command. -/
  | executing

/-- The keyboard, the loop and the statics of shell_input. -/
structure Console where
  /-- The keyboard and the terminal. -/
  keyboard : Keyboard
  /-- The loop. -/
  loop : MainLoop
  /-- cmd_buffer. -/
  cmdBuffer : ℕ→Byte
  /-- cmd_index. -/
  cmdIndex : ℕ
  /-- The lines that execute_command was called with, in order. -/
  executed : List (List Byte)

/-- The string in cmd_buffer. -/
def commandLine (buf : ℕ→Byte) : List Byte := (cells buf 128).takeWhile fun b => b≠0

/-- shell_input, for a newline up to the call of execute_command. -/
def shellInput (s : Console) (c : Byte) : Console :=
  if c=0x0A then
    let buf := Function.update s.cmdBuffer s.cmdIndex 0
    {s with cmdBuffer := buf, executed := s.executed++[commandLine buf], loop := .executing}
  else
    let s := {s with loop := .waiting .entry}
    if c=0x08 then
      if 0<s.cmdIndex then
        {s with
          cmdIndex := s.cmdIndex-1
          keyboard := {s.keyboard with terminal := terminalPutchar s.keyboard.terminal 0x08}}
      else s
    else if s.cmdIndex<127 then
      {s with cmdBuffer := Function.update s.cmdBuffer s.cmdIndex c, cmdIndex := s.cmdIndex+1}
    else s

/-- The loop after a step of keyboard_getchar: a character other than zero is
handed on when the call returns. -/
def afterStep (next : Getchar) : Getchar→MainLoop
  | .done c => if c=0 then .waiting next else .input c
  | _ => .waiting next

/-- An interrupt, or a step of the main loop. -/
inductive ConsoleEvent where
  /-- keyboard_irq runs. -/
  | irq (scancode : Byte)
  /-- The loop makes its next step; for a call of keyboard_getchar this is one
  access. -/
  | main (readHead : Bool)
  /-- The command has printed something and written to the line. -/
  | command (terminal : Terminal) (buf : ℕ→Byte)

/-- One event. -/
def Console.step (s : Console) : ConsoleEvent→ Console
  | .irq scancode => {s with keyboard := keyboardIrq s.keyboard scancode}
  | .main readHead => match s.loop with
    | .waiting call =>
      let (k,next) := getcharStep readHead s.keyboard call
      {s with keyboard := k, loop := afterStep next call}
    | .input c => shellInput s c
    | .executing => {s with cmdIndex := 0, loop := .waiting .entry}
  | .command terminal buf => match s.loop with
    | .executing => {s with keyboard := {s.keyboard with terminal := terminal}, cmdBuffer := buf}
    | _ => s

/-- Any number of events. -/
def Console.run (s : Console) (events : List ConsoleEvent) : Console := events.foldl Console.step s

/-- The statics as they are when the loop begins. -/
def consoleBoot (terminal : Terminal) : Console :=
  ⟨(boot terminal).keyboard,.waiting .entry,fun _ => 0,0,[]⟩

/-- The lines that the key presses make of what was echoed: an Enter begins a
new line, a backspace deletes the last remaining character, and a line is ended
by the Enter that execute_command will be called for. -/
def typeNote (e : Editor Byte) : Note→Editor Byte
  | .echoed c => {e with current := e.current++[c]}
  | .accepted c =>
    if c=0x0A then ⟨e.lines++[e.current],[]⟩
    else if c=0x08 then {e with current := e.current.dropLast}
    else e
  | .refused c =>
    if c=0x0A then {e with current := []}
    else if c=0x08 then {e with current := e.current.dropLast}
    else e
  | .headRead => e
  | .released => e
  | .returned _ => e

/-- The lines of a log. -/
def typed (log : List Note) : Editor Byte := log.foldl typeNote empty

/-- Every line that execute_command was called with is the one that was echoed
and not erased in front of its Enter. -/
def EchoExact (s : Console) : Prop := s.executed<+:(typed s.keyboard.log).lines

/-- shell_input is handed a character for a line that is full. -/
def Overflows (cmdIndex : ℕ) : MainLoop→Prop
  | .input c => c≠0x0A ∧ c≠0x08 ∧ 127≤cmdIndex
  | .waiting _ => False
  | .executing => False

/-- The event loses a character: a key is pressed while the ring is full, or
shell_input is handed a character for a line that is full. -/
def Loses (s : Console) : ConsoleEvent→Prop
  | .irq scancode => Types s.keyboard scancode ∧ (s.keyboard.kbHead+1)%kbBufSz=s.keyboard.kbTail
  | .main _ => Overflows s.cmdIndex s.loop
  | .command _ _ => False

/-- No event of a run loses a character. -/
def KeepsUp : Console→List ConsoleEvent→Prop
  | _,[] => True
  | s,e::events => ¬Loses s e ∧ KeepsUp (s.step e) events

/-- Whether a code has a character can be computed. -/
instance (k : Keyboard) (scancode : Byte) : Decidable (Types k scancode) :=
  inferInstanceAs (Decidable (_ ∧ _))

/-- So can whether the line overflows. -/
instance (cmdIndex : ℕ) : ∀ loop,Decidable (Overflows cmdIndex loop)
  | .input c => inferInstanceAs (Decidable (c≠0x0A ∧ c≠0x08 ∧ 127≤cmdIndex))
  | .waiting _ => inferInstanceAs (Decidable False)
  | .executing => inferInstanceAs (Decidable False)

/-- So can whether an event loses a character. -/
instance (s : Console) : ∀ e,Decidable (Loses s e)
  | .irq scancode => inferInstanceAs (Decidable (Types s.keyboard scancode ∧ _))
  | .main _ => inferInstanceAs (Decidable (Overflows s.cmdIndex s.loop))
  | .command _ _ => inferInstanceAs (Decidable False)

/-- So can whether any of some events does. -/
def decideKeepsUp : ∀ (s : Console) (events : List ConsoleEvent),Decidable (KeepsUp s events)
  | _,[] => inferInstanceAs (Decidable True)
  | s,e::events => @instDecidableAnd _ _ (inferInstanceAs (Decidable (¬Loses s e)))
      (decideKeepsUp (s.step e) events)

instance (s : Console) (events : List ConsoleEvent) : Decidable (KeepsUp s events) :=
  decideKeepsUp s events

/-- Whether the lines agree can be computed. -/
instance (s : Console) : Decidable (EchoExact s) :=
  inferInstanceAs (Decidable (_<+:_))

end EronKernel.ShellInput

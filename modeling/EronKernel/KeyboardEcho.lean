import EronKernel.KeyboardFifo
import EronKernel.ShellInput

/-!
# What is echoed is what is executed

A character travels from keyboard_irq, which echoes it, through the ring to
shell_input, which stores it. As long as neither the ring nor the line is full,
the accepted characters are those that were echoed, the processed ones are the
first of them, and both sides edit the same lines.
-/

namespace EronKernel.KeyboardEcho

open ByteMemory CString TtyModel KeyboardModel KeyboardCodes KeyboardFifo LineEditing ShellInput

/-- Lines edited by Enter and backspace. -/
abbrev editLine : Editor Byte→Byte→Editor Byte := edit 0x0A 0x08

/-- The lines of some characters. -/
abbrev linesOf (chars : List Byte) : Editor Byte := edited 0x0A 0x08 chars

/-- The log in two parts. -/
theorem typed_append (log more : List Note) : typed (log++more)=more.foldl typeNote (typed log) :=
  List.foldl_append

/-- The echo leaves the ring alone. -/
theorem echo_ring (k : Keyboard) (c : Byte) : (echo k c).kbHead=k.kbHead ∧ (echo k c).kbTail=k.kbTail := by
  unfold echo
  split_ifs <;> exact ⟨rfl,rfl⟩

/-- A character for which there is room is accepted. -/
theorem enqueue_log {k : Keyboard} (hroom : (k.kbHead+1)%kbBufSz≠k.kbTail) (c : Byte) :
    (enqueue k c).log=k.log++[.accepted c] := by
  unfold enqueue
  dsimp only
  rw [if_pos hroom]
  rfl

/-- It is edited by the key presses as it will be by the loop. -/
theorem enqueue_echo {k : Keyboard} (hroom : (k.kbHead+1)%kbBufSz≠k.kbTail) (c : Byte) :
    acceptedChars (enqueue (echo k c) c).log=acceptedChars k.log++[c] ∧
      returnedChars (enqueue (echo k c) c).log=returnedChars k.log ∧
      typed (enqueue (echo k c) c).log=editLine (typed k.log) c := by
  have hring := echo_ring k c
  have hroom' : ((echo k c).kbHead+1)%kbBufSz≠(echo k c).kbTail := by rwa [hring.1,hring.2]
  have hlog := enqueue_log hroom' c
  rw [hlog,acceptedChars_snoc,returnedChars_snoc,typed_append]
  unfold echo editLine edit
  by_cases hecho : c≠0x0A ∧ c≠0x08
  · have htyped : typed (k.log++[.echoed c])=typeNote (typed k.log) (.echoed c) := typed_append k.log _
    rw [if_pos hecho,if_neg hecho.1,if_neg hecho.2]
    dsimp only [Keyboard.note]
    rw [acceptedChars_snoc,returnedChars_snoc,htyped]
    refine ⟨congrArg (fun l => l++[c]) (List.append_nil _),?_,?_⟩
    · exact (List.append_nil _).trans (List.append_nil _)
    · rw [List.foldl_cons,List.foldl_nil,typeNote,typeNote,if_neg hecho.1,if_neg hecho.2]
  · rw [if_neg hecho,List.foldl_cons,List.foldl_nil,typeNote]
    refine ⟨rfl,List.append_nil _,?_⟩
    by_cases hc : c=0x0A
    · rw [if_pos hc,if_pos hc]
    · have hc' : c=0x08 := not_not.mp fun hne => hecho ⟨hc,hne⟩
      rw [if_neg hc,if_neg hc,if_pos hc',if_pos hc']

/-- The call of keyboard_getchar that the loop is in or will make next. -/
def callOf : MainLoop→Getchar
  | .waiting call => call
  | .input _ => .entry
  | .executing => .entry

/-- The character that is handed to shell_input next. -/
def pending : MainLoop→List Byte
  | .input c => [c]
  | _ => []

/-- The line that shell_input has collected. -/
def line (s : Console) : List Byte :=
  match s.loop with
  | .executing => []
  | _ => cells s.cmdBuffer s.cmdIndex

/-- The shell has edited the first of the accepted characters, the next ones are
on their way, and the key presses have edited all of them. -/
structure Synced (s : Console) (processed queue : List Byte) : Prop where
  /-- The keyboard buffer. -/
  queued : Queued s.keyboard (callOf s.loop) queue
  /-- The characters that the loop has taken. -/
  taken : returnedChars s.keyboard.log=processed++pending s.loop
  /-- What the shell has made of them. -/
  lines : linesOf processed=⟨s.executed,line s⟩
  /-- What the key presses have made of all characters. -/
  typed : typed s.keyboard.log=linesOf (acceptedChars s.keyboard.log)
  /-- The line leaves a cell for the terminator. -/
  short : s.loop≠.executing→ s.cmdIndex≤127
  /-- The line has no terminator inside. -/
  nonzero : (0 : Byte)∉line s

/-- Nothing was typed. -/
theorem synced_boot (terminal : Terminal) : Synced (consoleBoot terminal) [] [] where
  queued := boot_queued terminal
  taken := rfl
  lines := rfl
  typed := rfl
  short _ := Nat.zero_le 127
  nonzero := List.not_mem_nil

/-- What is executed was typed. -/
theorem Synced.echoExact {s : Console} {processed queue : List Byte} (h : Synced s processed queue) :
    EchoExact s := by
  have horder := h.queued.log.order
  rw [h.taken,List.append_assoc,List.append_assoc] at horder
  have hprefix : processed<+:acceptedChars s.keyboard.log := ⟨_,horder.symm⟩
  have hlines := lines_prefix_of_prefix 0x0A 0x08 hprefix
  unfold EchoExact
  rw [h.typed]
  have hexecuted : (linesOf processed).lines=s.executed := congrArg Editor.lines h.lines
  rw [←hexecuted]
  exact hlines

/-- What an interrupt whose character is not refused does to the log. -/
theorem keyboardIrq_log (k : Keyboard) (c : Byte) (hroom : Types k c→(k.kbHead+1)%kbBufSz≠k.kbTail)
    (htyped : typed k.log=linesOf (acceptedChars k.log)) :
    returnedChars (keyboardIrq k c).log=returnedChars k.log ∧
      typed (keyboardIrq k c).log=linesOf (acceptedChars (keyboardIrq k c).log) := by
  have hhandled := keyboardIrq_handled k c
  generalize keyboardIrq k c=k' at hhandled ⊢
  cases hhandled with
  | press _ => exact ⟨rfl,htyped⟩
  | release _ => exact ⟨rfl,htyped⟩
  | modifier caps ctrl alt state _ _ => exact ⟨rfl,htyped⟩
  | typed htypes =>
    obtain ⟨haccepted,hreturned,hedited⟩ := enqueue_echo (hroom htypes) (keyChar k c)
    refine ⟨hreturned,?_⟩
    rw [haccepted,hedited,htyped]
    exact (edited_snoc 0x0A 0x08 _ _).symm
  | ignored _ _ _ => exact ⟨rfl,htyped⟩

/-- An interrupt whose character is not refused. -/
theorem Synced.irq {s : Console} {processed queue : List Byte} (h : Synced s processed queue) (c : Byte)
    (hkeeps : ¬Loses s (.irq c)) : ∃ queue',Synced (s.step (.irq c)) processed queue' := by
  obtain ⟨queue',hqueued⟩ := keyboardIrq_queued h.queued c
  obtain ⟨hreturned,htyped⟩ := keyboardIrq_log s.keyboard c (fun htypes hfull => hkeeps ⟨htypes,hfull⟩) h.typed
  exact ⟨queue',hqueued,hreturned.trans h.taken,h.lines,htyped,h.short,h.nonzero⟩

/-- Logging something that is neither typed nor returned. -/
theorem note_silent (k : Keyboard) {e : Note} (hnone : e=.headRead ∨ e=.released) :
    acceptedChars (k.note e).log=acceptedChars k.log ∧ typed (k.note e).log=typed k.log ∧
      returnedChars (k.note e).log=returnedChars k.log++[] := by
  unfold Keyboard.note
  dsimp only
  rw [acceptedChars_snoc,returnedChars_snoc,typed_append]
  obtain rfl|rfl := hnone
  · exact ⟨List.append_nil _,rfl,rfl⟩
  · exact ⟨List.append_nil _,rfl,rfl⟩

/-- An access of keyboard_getchar logs nothing that was typed, and its return
hands the character on. -/
theorem getcharStep_log (readHead : Bool) (k : Keyboard) (call : Getchar) :
    acceptedChars (getcharStep readHead k call).1.log=acceptedChars k.log ∧
      typed (getcharStep readHead k call).1.log=typed k.log ∧
      returnedChars (getcharStep readHead k call).1.log=
        returnedChars k.log++pending (afterStep (getcharStep readHead k call).2 call) := by
  have hstill : returnedChars k.log=returnedChars k.log++[] := (List.append_nil _).symm
  cases call with
  | entry =>
    cases readHead with
    | false => exact ⟨rfl,rfl,hstill⟩
    | true => exact note_silent k (Or.inl rfl)
  | headFirst head => exact ⟨rfl,rfl,hstill⟩
  | tailFirst tail => exact note_silent k (Or.inl rfl)
  | nonempty => exact ⟨rfl,rfl,hstill⟩
  | index tail => exact ⟨rfl,rfl,hstill⟩
  | char c => exact ⟨rfl,rfl,hstill⟩
  | advance c tail => exact note_silent {k with kbTail := (tail+1)%kbBufSz} (Or.inr rfl)
  | done c =>
    refine ⟨(acceptedChars_snoc k.log _).trans (List.append_nil _),typed_append k.log _,?_⟩
    refine (returnedChars_snoc k.log _).trans (congrArg (returnedChars k.log++·) ?_)
    unfold afterStep returnedChars
    rw [List.filterMap_cons,List.filterMap_nil]
    dsimp only
    by_cases hc : c=0
    · rw [if_pos hc,if_pos hc]
      rfl
    · rw [if_neg hc,if_neg hc]
      rfl

/-- Between two characters the loop is in a call, and the next one begins when
the last has returned. -/
theorem callOf_afterStep (readHead : Bool) (k : Keyboard) (call : Getchar) :
    callOf (afterStep (getcharStep readHead k call).2 call)=(getcharStep readHead k call).2 := by
  cases call with
  | done c =>
    unfold afterStep
    dsimp only
    split_ifs <;> rfl
  | entry => rfl
  | headFirst head => rfl
  | tailFirst tail => rfl
  | nonempty => rfl
  | index tail => rfl
  | char c => rfl
  | advance c tail => rfl

/-- A call does not come to a command. -/
theorem afterStep_ne_executing (next call : Getchar) : afterStep next call≠.executing := by
  unfold afterStep
  split
  · split_ifs <;> exact MainLoop.noConfusion
  · exact MainLoop.noConfusion

/-- No line is collected while a command runs. -/
theorem line_executing {s : Console} (h : s.loop=.executing) : line s=[] := by
  unfold line
  rw [h]

/-- The line outside of commands. -/
theorem line_eq {s : Console} (h : s.loop≠.executing) : line s=cells s.cmdBuffer s.cmdIndex := by
  unfold line
  split
  · exact absurd ‹_› h
  · rfl

/-- A step of keyboard_getchar. -/
theorem Synced.getchar {s : Console} {processed queue : List Byte} (h : Synced s processed queue)
    {call : Getchar} (hloop : s.loop=.waiting call) (readHead : Bool) :
    ∃ queue',Synced (s.step (.main readHead)) processed queue' := by
  have hcall : Queued s.keyboard call queue := by
    have hqueued := h.queued
    rwa [hloop] at hqueued
  have hstep : s.step (.main readHead)={s with
      keyboard := (getcharStep readHead s.keyboard call).1
      loop := afterStep (getcharStep readHead s.keyboard call).2 call} := by
    unfold Console.step
    rw [hloop]
  have hbusy : s.loop≠.executing := by
    rw [hloop]
    exact MainLoop.noConfusion
  obtain ⟨queue',hqueued⟩ := getcharStep_queued hcall readHead
  obtain ⟨haccepted,htyped,hreturned⟩ := getcharStep_log readHead s.keyboard call
  have htaken := h.taken
  have hline := line_eq hbusy
  have hline' := line_eq (s := s.step (.main readHead))
  rw [hstep] at hline' ⊢
  have hsame := hline' (afterStep_ne_executing _ call)
  refine ⟨queue',?_,?_,?_,?_,fun _ => h.short hbusy,?_⟩
  · rw [callOf_afterStep]
    exact hqueued
  · rw [hloop] at htaken
    rw [hreturned,htaken]
    exact congrArg (·++_) (List.append_nil processed)
  · rw [hsame,h.lines,hline]
  · rw [htyped,haccepted]
    exact h.typed
  · rw [hsame]
    exact hline▸h.nonzero

/-- The string in cmd_buffer once the line is terminated. -/
theorem commandLine_terminated (buf : ℕ→Byte) {n : ℕ} (hn : n≤127) (h0 : (0 : Byte)∉cells buf n) :
    commandLine (Function.update buf n 0)=cells buf n := by
  obtain ⟨m,hm⟩ : ∃ m,128=n+1+m := Nat.exists_eq_add_of_le (Nat.succ_le_succ hn)
  obtain ⟨rest,hrest⟩ := cells_prefix (Function.update buf n 0) (n+1) m
  have hwhole : (cells buf n).takeWhile (fun b => b≠0)=cells buf n := CStr.ofBytes_bytes h0
  unfold commandLine
  rw [hm,←hrest,cells_push,List.append_assoc,List.singleton_append,takeWhile_terminated,hwhole]

/-- The loop asks for the next character and the line is in the first cells. -/
theorem synced_waiting {k : Keyboard} {processed queue : List Byte} {buf : ℕ→Byte} {n : ℕ}
    {executed : List (List Byte)} (hqueued : Queued k .entry queue)
    (htaken : returnedChars k.log=processed) (hlines : linesOf processed=⟨executed,cells buf n⟩)
    (htyped : typed k.log=linesOf (acceptedChars k.log)) (hn : n≤127) (h0 : (0 : Byte)∉cells buf n) :
    Synced ⟨k,.waiting .entry,buf,n,executed⟩ processed queue where
  queued := hqueued
  taken := htaken.trans (List.append_nil _).symm
  lines := hlines
  typed := htyped
  short _ := hn
  nonzero := h0

/-- A character that has a place in the line. -/
theorem Synced.input {s : Console} {processed queue : List Byte} (h : Synced s processed queue) {c : Byte}
    (hloop : s.loop=.input c) (hkeeps : c≠0x0A→ c≠0x08→ s.cmdIndex<127) :
    Synced (shellInput s c) (processed++[c]) queue := by
  have hbusy : s.loop≠.executing := by
    rw [hloop]
    exact MainLoop.noConfusion
  have hn := h.short hbusy
  have hline := line_eq hbusy
  have hqueued := h.queued
  have htaken := h.taken
  have hlines := h.lines
  have h0 := h.nonzero
  rw [hloop] at hqueued htaken
  rw [hline] at hlines h0
  have hedited : linesOf (processed++[c])=editLine ⟨s.executed,cells s.cmdBuffer s.cmdIndex⟩ c := by
    rw [←hlines]
    exact edited_snoc 0x0A 0x08 processed c
  unfold editLine edit at hedited
  unfold shellInput
  dsimp only at hedited ⊢
  by_cases hc : c=0x0A
  · rw [if_pos hc] at hedited ⊢
    rw [commandLine_terminated s.cmdBuffer hn h0]
    exact ⟨hqueued,htaken.trans (List.append_nil _).symm,hedited,h.typed,fun hne => absurd rfl hne,
      List.not_mem_nil⟩
  · rw [if_neg hc] at hedited ⊢
    by_cases hc' : c=0x08
    · rw [if_pos hc',←cells_pred] at hedited
      rw [if_pos hc']
      have h0' : (0 : Byte)∉cells s.cmdBuffer (s.cmdIndex-1) := by
        rw [cells_pred]
        exact fun hmem => h0 (List.mem_of_mem_dropLast hmem)
      by_cases hpos : 0<s.cmdIndex
      · rw [if_pos hpos]
        exact synced_waiting ⟨hqueued.ring,hqueued.log,hqueued.call⟩ htaken hedited h.typed (by omega) h0'
      · have hzero : s.cmdIndex-1=s.cmdIndex := by omega
        rw [hzero] at hedited
        rw [if_neg hpos]
        exact synced_waiting hqueued htaken hedited h.typed hn h0
    · have hlt := hkeeps hc hc'
      have hchar : c≠0 := by
        refine h.queued.log.events.nonzero c ?_
        rw [h.queued.log.order,htaken]
        simp [pending]
      rw [if_neg hc',←cells_push] at hedited
      rw [if_neg hc',if_pos hlt]
      refine synced_waiting hqueued htaken hedited h.typed hlt ?_
      rw [cells_push,List.mem_append,List.mem_singleton]
      exact fun hmem => hmem.elim h0 fun he => hchar he.symm

/-- The command returns. -/
theorem Synced.executed {s : Console} {processed queue : List Byte} (h : Synced s processed queue)
    (hloop : s.loop=.executing) :
    Synced {s with cmdIndex := 0, loop := .waiting .entry} processed queue := by
  have hqueued := h.queued
  have htaken := h.taken
  have hlines := h.lines
  rw [hloop] at hqueued htaken
  rw [line_executing hloop] at hlines
  exact ⟨hqueued,htaken,hlines,h.typed,fun _ => Nat.zero_le 127,List.not_mem_nil⟩

/-- The command prints and writes to the line. -/
theorem Synced.command {s : Console} {processed queue : List Byte} (h : Synced s processed queue)
    (terminal : Terminal) (buf : ℕ→Byte) : Synced (s.step (.command terminal buf)) processed queue := by
  unfold Console.step
  dsimp only
  split
  · rename_i hloop
    have hlines := h.lines
    rw [line_executing hloop] at hlines
    have hline' : line {s with keyboard := {s.keyboard with terminal := terminal}, cmdBuffer := buf}=[] :=
      line_executing hloop
    refine ⟨⟨h.queued.ring,h.queued.log,h.queued.call⟩,h.taken,?_,h.typed,h.short,?_⟩
    · rw [hline']
      exact hlines
    · rw [hline']
      exact List.not_mem_nil
  · exact h

/-- Every event that loses no character. -/
theorem Synced.step {s : Console} {processed queue : List Byte} (h : Synced s processed queue)
    (e : ConsoleEvent) (hkeeps : ¬Loses s e) : ∃ processed' queue',Synced (s.step e) processed' queue' := by
  cases e with
  | irq scancode => exact ⟨processed,h.irq scancode hkeeps⟩
  | main readHead =>
    cases hloop : s.loop with
    | waiting call => exact ⟨processed,h.getchar hloop readHead⟩
    | input c =>
      have hroom : c≠0x0A→ c≠0x08→ s.cmdIndex<127 := by
        intro hc hc'
        refine Nat.lt_of_not_le fun hfull => hkeeps ?_
        unfold Loses
        rw [hloop]
        exact ⟨hc,hc',hfull⟩
      have hstep : s.step (.main readHead)=shellInput s c := by
        unfold Console.step
        rw [hloop]
      rw [hstep]
      exact ⟨processed++[c],queue,h.input hloop hroom⟩
    | executing =>
      have hstep : s.step (.main readHead)={s with cmdIndex := 0, loop := .waiting .entry} := by
        unfold Console.step
        rw [hloop]
      rw [hstep]
      exact ⟨processed,queue,h.executed hloop⟩
  | command terminal buf => exact ⟨processed,queue,h.command terminal buf⟩

/-- Every run that loses no character, up to any of its states. -/
theorem Synced.run {s : Console} {processed queue : List Byte} (h : Synced s processed queue)
    {events : List ConsoleEvent} (hkeeps : KeepsUp s events) (n : ℕ) :
    ∃ processed' queue',Synced (s.run (events.take n)) processed' queue' := by
  induction events generalizing s processed queue n with
  | nil =>
    rw [List.take_nil]
    exact ⟨processed,queue,h⟩
  | cons e events ih =>
    cases n with
    | zero => exact ⟨processed,queue,h⟩
    | succ n =>
      obtain ⟨processed',queue',h'⟩ := h.step e hkeeps.1
      exact ih h' hkeeps.2 n

/-- In every run of key presses and steps of the main loop in which no key is
pressed while the ring is full, and no character is handed to shell_input for a
line that is full, every line that execute_command was called with is, in every state,
what was echoed and not erased between the Enter before it and its own. -/
theorem echoed_is_executed (terminal : Terminal) (events : List ConsoleEvent)
    (hkeeps : KeepsUp (consoleBoot terminal) events) (n : ℕ) :
    EchoExact ((consoleBoot terminal).run (events.take n)) := by
  obtain ⟨_,_,h⟩ := (synced_boot terminal).run hkeeps n
  exact h.echoExact

/-- Typing a letter and Enter, and the steps of the loop that process both. -/
def letterAndEnter : List ConsoleEvent :=
  [.irq 0x1E,.irq 0x1C]++List.replicate 16 (.main true)

/-- The line is executed as it was echoed. -/
theorem letterAndEnter_executed :
    ((consoleBoot clearedTerminal).run (letterAndEnter.take 18)).executed=[ascii "a"] ∧
      EchoExact ((consoleBoot clearedTerminal).run (letterAndEnter.take 18)) := by
  have hkeeps : KeepsUp (consoleBoot clearedTerminal) letterAndEnter := by decide +kernel
  exact ⟨by decide +kernel,echoed_is_executed clearedTerminal letterAndEnter hkeeps 18⟩

/-- The main loop types nothing. -/
theorem typed_main (s : Console) (readHead : Bool) :
    typed (s.step (.main readHead)).keyboard.log=typed s.keyboard.log := by
  cases hloop : s.loop with
  | waiting call =>
    unfold Console.step
    rw [hloop]
    exact (getcharStep_log readHead s.keyboard call).2.1
  | input c =>
    unfold Console.step shellInput
    rw [hloop]
    dsimp only
    split_ifs <;> rfl
  | executing =>
    unfold Console.step
    rw [hloop]

/-- Neither do many steps. -/
theorem typed_mains (readHead : Bool) (n : ℕ) (s : Console) :
    typed (s.run (List.replicate n (.main readHead))).keyboard.log=typed s.keyboard.log := by
  induction n generalizing s with
  | zero => rfl
  | succ n ih => exact (ih (s.step (.main readHead))).trans (typed_main s readHead)

/-- Typing a letter 128 times, of which two are processed at once, and Enter. -/
def longLine : List ConsoleEvent :=
  .irq 0x1E::.irq 0x1E::(List.replicate 16 (.main true)++(List.replicate 126 (.irq 0x1E)++[.irq 0x1C]))

/-- The steps of the loop that process the rest. -/
def longLineRest : List ConsoleEvent := List.replicate 1016 (.main true)

/-- All 128 letters are echoed, but execute_command is called with 127 of
them. -/
theorem longLine_cut :
    let s := (consoleBoot clearedTerminal).run (longLine++longLineRest)
    s.executed=[List.replicate 127 0x61] ∧ (typed s.keyboard.log).lines=[List.replicate 128 0x61] ∧
      ¬EchoExact s := by
  intro s
  have hexecuted : s.executed=[List.replicate 127 0x61] := by decide +kernel
  have hfront : (typed ((consoleBoot clearedTerminal).run longLine).keyboard.log).lines=
      [List.replicate 128 0x61] := by decide +kernel
  have hrun : s=((consoleBoot clearedTerminal).run longLine).run longLineRest := List.foldl_append
  have htyped : (typed s.keyboard.log).lines=[List.replicate 128 0x61] := by
    rw [hrun,longLineRest,typed_mains]
    exact hfront
  refine ⟨hexecuted,htyped,?_⟩
  unfold EchoExact
  rw [hexecuted,htyped]
  decide

end EronKernel.KeyboardEcho

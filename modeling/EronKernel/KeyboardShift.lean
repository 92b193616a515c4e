import EronKernel.EventTrace
import EronKernel.KeyboardCodes

/-!
# The shift keys and the shift flag

keyboard_irq keeps one flag for both shift keys: either press sets it and
either release clears it. It tells whether a shift key is held, until one of
them is released while the other is held.
-/

namespace EronKernel.KeyboardShift

open ByteMemory EventTrace TtyModel KeyboardModel KeyboardCodes

/-- keyboard_get_state. -/
def keyboardGetState (k : Keyboard) : Word := k.kbState

/-- The scancodes that keyboard_irq reads, in order. -/
def scancodes (events : List Event) : List Byte :=
  events.filterMap fun e => match e with
    | .irq scancode => some scancode
    | .getchar _ => none

/-- The key was pressed and not released since. -/
def Held (key : Byte) (codes : List Byte) : Prop :=
  HeldSince (fun c => c=key) (fun c => c=key|||0x80) codes

/-- A stream that pressing and releasing keys produces: a key sends its code
when it is pressed, or held for long, and the code with the top bit when it is
released; some keys send a prefix first. -/
inductive KeyStream : List Byte→Prop where
  /-- Nothing was pressed. -/
  | nil : KeyStream []
  /-- A key is pressed. -/
  | press {codes : List Byte} {key : Byte} (h : KeyStream codes) (hkey : key&&&0x80=0) :
      KeyStream (codes++[key])
  /-- A key that was pressed is released. -/
  | release {codes : List Byte} {key : Byte} (h : KeyStream codes) (hheld : Held key codes) :
      KeyStream (codes++[key|||0x80])
  /-- The prefix. -/
  | extended {codes : List Byte} (h : KeyStream codes) : KeyStream (codes++[0xE0])

/-- The last code of the shift keys is the release of one of them while the
other is held. -/
def ReleasedUnderOther (codes : List Byte) : Prop :=
  ClosedUnder (fun c => c=(0x2A : Byte)) (fun c => c=0x2A|||0x80) (fun c => c=0x36) (fun c => c=0x36|||0x80)
    codes

/-- The flag and its bit in kb_state after some codes. -/
structure Tracks (k : Keyboard) (codes : List Byte) : Prop where
  /-- The flag was set and not cleared since. -/
  flag : k.shiftPressed=true ↔ HeldSince Presses Releases codes
  /-- The bit is the flag. -/
  bit : k.kbState.getLsbD 0=k.shiftPressed

/-- The echo does not touch the modifiers. -/
theorem echo_modifiers (k : Keyboard) (c : Byte) :
    (echo k c).shiftPressed=k.shiftPressed ∧ (echo k c).kbState=k.kbState := by
  unfold echo
  split_ifs <;> exact ⟨rfl,rfl⟩

/-- Neither does the buffer. -/
theorem enqueue_modifiers (k : Keyboard) (c : Byte) :
    (enqueue k c).shiftPressed=k.shiftPressed ∧ (enqueue k c).kbState=k.kbState := by
  unfold enqueue
  dsimp only
  split_ifs <;> exact ⟨rfl,rfl⟩

/-- The flag after one more code. -/
theorem heldSince_code (codes : List Byte) (c : Byte) :
    HeldSince Presses Releases (codes++[c]) ↔
      Presses c ∨ (HeldSince Presses Releases codes ∧ ¬Releases c) :=
  heldSince_snoc codes c

/-- A code of another key. -/
theorem Tracks.other {k k' : Keyboard} {codes : List Byte} (h : Tracks k codes) {c : Byte} (hp : ¬Presses c)
    (hr : ¬Releases c) (hflag : k'.shiftPressed=k.shiftPressed)
    (hbit : k'.kbState.getLsbD 0=k.kbState.getLsbD 0) : Tracks k' (codes++[c]) where
  flag := by
    rw [hflag,heldSince_code,h.flag]
    exact ⟨fun hheld => Or.inr ⟨hheld,hr⟩,fun hor => hor.elim (fun hpress => absurd hpress hp) And.left⟩
  bit := hbit.trans (h.bit.trans hflag.symm)

/-- The other modifiers have other codes. -/
theorem modifierCodes_other {c : Byte} (h : c∈modifierCodes) : ¬Presses c ∧ ¬Releases c := by
  have hall : ∀ d∈modifierCodes,¬(d=0x2A ∨ d=0x36) ∧ ¬(d=0xAA ∨ d=0xB6) := by decide
  exact hall c h

/-- One more code. -/
theorem Tracks.keyboardIrq {k : Keyboard} {codes : List Byte} (h : Tracks k codes) (c : Byte) :
    Tracks (keyboardIrq k c) (codes++[c]) := by
  have hhandled := keyboardIrq_handled k c
  generalize KeyboardModel.keyboardIrq k c=k' at hhandled ⊢
  cases hhandled with
  | press hp =>
    refine ⟨iff_of_true rfl ((heldSince_code codes c).mpr (Or.inl hp)),?_⟩
    rw [BitVec.getLsbD_or]
    exact Bool.or_true _
  | release hr =>
    refine ⟨iff_of_false Bool.false_ne_true fun hheld => ?_,?_⟩
    · obtain hp|⟨_,hkept⟩ := (heldSince_code codes c).mp hheld
      · obtain rfl|rfl := hp <;> exact absurd hr (by unfold Releases; decide)
      · exact hkept hr
    · rw [BitVec.getLsbD_and]
      exact Bool.and_false _
  | modifier caps ctrl alt state hmem hstate =>
    obtain ⟨hp,hr⟩ := modifierCodes_other hmem
    exact h.other hp hr rfl hstate
  | typed htypes =>
    have hp : ¬Presses c := by
      rintro (rfl|rfl) <;> exact not_types (by decide) k htypes
    have hr : ¬Releases c := by
      rintro (rfl|rfl) <;> exact not_types (by decide) k htypes
    obtain ⟨hflag,hstate⟩ := enqueue_modifiers (echo k (keyChar k c)) (keyChar k c)
    obtain ⟨hflag',hstate'⟩ := echo_modifiers k (keyChar k c)
    exact h.other hp hr (hflag.trans hflag') (by rw [hstate,hstate'])
  | ignored _ hp hr => exact h.other hp hr rfl rfl

/-- The main loop does not touch the modifiers. -/
theorem getcharStep_modifiers (readHead : Bool) (k : Keyboard) (call : Getchar) :
    (getcharStep readHead k call).1.shiftPressed=k.shiftPressed ∧
      (getcharStep readHead k call).1.kbState=k.kbState := by
  cases call with
  | entry => cases readHead <;> exact ⟨rfl,rfl⟩
  | headFirst head => exact ⟨rfl,rfl⟩
  | tailFirst tail => exact ⟨rfl,rfl⟩
  | nonempty => exact ⟨rfl,rfl⟩
  | index tail => exact ⟨rfl,rfl⟩
  | char c => exact ⟨rfl,rfl⟩
  | advance c tail => exact ⟨rfl,rfl⟩
  | done c => exact ⟨rfl,rfl⟩

/-- The flag and its bit over any number of events. -/
theorem run_tracks (terminal : Terminal) (events : List Event) :
    Tracks ((boot terminal).run events).keyboard (scancodes events) := by
  induction events using List.reverseRecOn with
  | nil => exact ⟨iff_of_false Bool.false_ne_true not_heldSince_nil,BitVec.getLsbD_zero⟩
  | append_singleton events e ih =>
    unfold System.run at ih ⊢
    unfold scancodes at ih ⊢
    rw [List.foldl_append,List.filterMap_append]
    cases e with
    | irq scancode => exact ih.keyboardIrq scancode
    | getchar readHead =>
      obtain ⟨hflag,hstate⟩ := getcharStep_modifiers readHead
        (events.foldl System.step (boot terminal)).keyboard (events.foldl System.step (boot terminal)).call
      refine ⟨?_,?_⟩
      · rw [List.filterMap_cons,List.filterMap_nil,List.append_nil]
        exact (Bool.eq_iff_iff.mp hflag).trans ih.flag
      · exact (congrArg (fun state => BitVec.getLsbD state 0) hstate).trans (ih.bit.trans hflag.symm)

/-- The bit of shift as keyboard_get_state's callers test it. -/
theorem and_shift_ne_zero_iff (state : Word) : state&&&kbStateShift≠0 ↔ state.getLsbD 0=true := by
  have hbit : state&&&kbStateShift=(BitVec.ofBool (state.getLsbD 0)).setWidth 32 :=
    BitVec.and_one_eq_setWidth_ofBool_getLsbD
  rw [hbit]
  cases state.getLsbD 0 <;> decide

/-- The shift keys share no code. -/
theorem shift_codes_differ (c : Byte) :
    ((c=0x2A ∨ c=0x36)→¬(c=0x2A|||0x80 ∨ c=0x36|||0x80)) ∧ ¬(c=0x2A|||0x80 ∧ c=0x36|||0x80) := by
  refine ⟨?_,?_⟩
  · rintro (rfl|rfl) <;> decide
  · rintro ⟨rfl,h⟩
    exact absurd h (by decide)

/-- After any stream of scancodes, however the main loop takes characters in
between, the shift flag tells whether a shift key is held, and keyboard_get_state
has the bit of shift exactly when the flag is set, if and only if the last code of the
shift keys is not the release of one of them while the other is held. -/
theorem shift_tracks_keys_iff (terminal : Terminal) (events : List Event) :
    let k := ((boot terminal).run events).keyboard
    let codes := scancodes events
    ((k.shiftPressed=true ↔ Held 0x2A codes ∨ Held 0x36 codes) ∧
        (keyboardGetState k&&&kbStateShift≠0 ↔ k.shiftPressed=true)) ↔ ¬ReleasedUnderOther codes := by
  intro k codes
  have htracks := run_tracks terminal events
  have hstate : keyboardGetState k&&&kbStateShift≠0 ↔ k.shiftPressed=true := by
    rw [and_shift_ne_zero_iff]
    exact Bool.eq_iff_iff.mp htracks.bit
  have hor := heldSince_or_iff (fun c => (shift_codes_differ c).1) (fun c => (shift_codes_differ c).2) codes
  rw [and_iff_left hstate,htracks.flag]
  exact hor

/-- Pressing left shift and right shift and releasing the left one. -/
def bothThenLeft : List Event := [.irq 0x2A,.irq 0x36,.irq 0xAA]

/-- Right shift is still held, but the flag and its bit are cleared. -/
theorem bothThenLeft_flag_cleared :
    let k := ((boot clearedTerminal).run bothThenLeft).keyboard
    KeyStream (scancodes bothThenLeft) ∧ Held 0x36 (scancodes bothThenLeft) ∧
      k.shiftPressed=false ∧ keyboardGetState k&&&kbStateShift=0 := by
  have hleft : Held 0x2A [0x2A,0x36] := by
    refine ⟨[],0x2A,[0x36],rfl,rfl,?_⟩
    decide
  have hright : Held 0x36 [0x2A,0x36,0xAA] := by
    refine ⟨[0x2A],0x36,[0xAA],rfl,rfl,?_⟩
    decide
  have hstate : keyboardGetState ((boot clearedTerminal).run bothThenLeft).keyboard=
      (0|||kbStateShift|||kbStateShift)&&&~~~kbStateShift := rfl
  have hfirst : KeyStream [0x2A] := KeyStream.nil.press (by decide)
  have hboth : KeyStream [0x2A,0x36] := hfirst.press (by decide)
  refine ⟨hboth.release hleft,hright,rfl,?_⟩
  rw [hstate]
  decide

end EronKernel.KeyboardShift

import EronKernel.KeyboardModel

/-!
# What keyboard_irq does with a scancode

A code presses or releases a modifier, or has a character that is echoed and
stored, or is ignored.
-/

namespace EronKernel.KeyboardCodes

open ByteMemory TtyModel KeyboardModel

/-- A code presses a shift key. -/
def Presses (c : Byte) : Prop := c=0x2A ∨ c=0x36

/-- A code releases a shift key. -/
def Releases (c : Byte) : Prop := c=0xAA ∨ c=0xB6

/-- The codes of the other modifiers. -/
def modifierCodes : List Byte := [0x1D,0x9D,0x38,0xB8,0x3A]

/-- The code makes keyboard_irq echo or store a character. -/
def Types (k : Keyboard) (c : Byte) : Prop := c&&&0x80=0 ∧ keyChar k c≠0

/-- The codes of the modifiers and the prefix have no character. -/
theorem not_types {c : Byte} (hc : c∈[(0x2A : Byte),0x36,0xAA,0xB6,0xE0]++modifierCodes) (k : Keyboard) :
    ¬Types k c := by
  have htables : ∀ d∈[(0x2A : Byte),0x36,0xAA,0xB6,0xE0]++modifierCodes,d&&&0x80≠0 ∨
      (kbdusUpper.getD d.toNat 0=0 ∧ kbdusLower.getD d.toNat 0=0) := by decide +kernel
  rintro ⟨hpress,hchar⟩
  obtain htop|⟨hupper,hlower⟩ := htables c hc
  · exact htop hpress
  · refine hchar ?_
    unfold keyChar
    rw [hupper,hlower,ite_self]

/-- The keyboard after one code. -/
inductive Handled (k : Keyboard) (c : Byte) : Keyboard→Prop where
  /-- A shift key was pressed. -/
  | press (h : Presses c) : Handled k c {k with shiftPressed := true, kbState := k.kbState|||kbStateShift}
  /-- A shift key was released. -/
  | release (h : Releases c) :
      Handled k c {k with shiftPressed := false, kbState := k.kbState&&&~~~kbStateShift}
  /-- Another modifier was set or cleared, with its bit in kb_state. -/
  | modifier (caps ctrl alt : Bool) (state : Word) (h : c∈modifierCodes)
      (hstate : state.getLsbD 0=k.kbState.getLsbD 0) :
      Handled k c {k with capsLock := caps, ctrlPressed := ctrl, altPressed := alt, kbState := state}
  /-- A character was echoed and stored. -/
  | typed (h : Types k c) : Handled k c (enqueue (echo k (keyChar k c)) (keyChar k c))
  /-- Nothing happened. -/
  | ignored (h : ¬Types k c) (hp : ¬Presses c) (hr : ¬Releases c) : Handled k c k

/-- Setting or clearing another bit of kb_state keeps the one of shift. -/
theorem getLsbD_zero_other (state : Word) {mask : Word} (hmask : mask.getLsbD 0=false) :
    (state|||mask).getLsbD 0=state.getLsbD 0 ∧ (state&&&~~~mask).getLsbD 0=state.getLsbD 0 := by
  rw [BitVec.getLsbD_or,BitVec.getLsbD_and,BitVec.getLsbD_not,hmask]
  exact ⟨Bool.or_false _,by simp⟩

/-- The character of a code that is no modifier. -/
theorem keyChar_handled {k : Keyboard} {c : Byte} (hp : ¬Presses c) (hr : ¬Releases c) :
    Handled k c (if c&&&0x80=0 then
      let ch := keyChar k c
      if ch≠0 then enqueue (echo k ch) ch else k
    else k) := by
  dsimp only
  by_cases htop : c&&&0x80=0
  · by_cases hchar : keyChar k c≠0
    · rw [if_pos htop,if_pos hchar]
      exact .typed ⟨htop,hchar⟩
    · rw [if_pos htop,if_neg hchar]
      exact .ignored (fun h => hchar h.2) hp hr
  · rw [if_neg htop]
    exact .ignored (fun h => htop h.1) hp hr

/-- keyboard_irq does one of these. -/
theorem keyboardIrq_handled (k : Keyboard) (c : Byte) : Handled k c (keyboardIrq k c) := by
  have hctrl := getLsbD_zero_other k.kbState (show kbStateCtrl.getLsbD 0=false by decide)
  have halt := getLsbD_zero_other k.kbState (show kbStateAlt.getLsbD 0=false by decide)
  have hcaps := getLsbD_zero_other k.kbState (show kbStateCaps.getLsbD 0=false by decide)
  unfold keyboardIrq
  refine iteInduction (fun h => .press h) fun hp => ?_
  refine iteInduction (fun h => .release h) fun hr => ?_
  refine iteInduction (fun h => .modifier _ _ _ _ (by rw [h]; decide) hctrl.1) fun _ => ?_
  refine iteInduction (fun h => .modifier _ _ _ _ (by rw [h]; decide) hctrl.2) fun _ => ?_
  refine iteInduction (fun h => .modifier _ _ _ _ (by rw [h]; decide) halt.1) fun _ => ?_
  refine iteInduction (fun h => .modifier _ _ _ _ (by rw [h]; decide) halt.2) fun _ => ?_
  refine iteInduction (fun h => ?_) fun _ => ?_
  · have hmem : c∈modifierCodes := by
      rw [h]
      decide
    exact iteInduction (fun _ => .modifier _ _ _ _ hmem hcaps.1) fun _ => .modifier _ _ _ _ hmem hcaps.2
  refine iteInduction (fun h => .ignored (not_types (by rw [h]; decide) k) hp hr) fun _ => ?_
  exact keyChar_handled hp hr

end EronKernel.KeyboardCodes

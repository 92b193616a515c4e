import EronKernel.ByteMemory
import Mathlib.Tactic

/-!
# The mouse driver of mouse.c

The handler takes one byte from the controller, keeps it in a packet of three
bytes and decodes the packet when it is complete: the position moves and is
clamped to the screen, and a record of four bytes is stored through a cast
into the byte ring that mouse_get_packet reads. The ring is addressed by the
distance from its start, so that stores behind its end can be seen. Records
that were put in, records that were taken out and the bytes stored to are
noted beside the driver's own variables.
-/

namespace EronKernel.MouseModel

open ByteMemory

/-- MOUSE_BUF_SIZE. -/
abbrev mouseBufSize : ℕ := 128

/-- struct mouse_packet. -/
structure Packet where
  /-- movement_x. -/
  movementX : Byte
  /-- movement_y. -/
  movementY : Byte
  /-- movement_z. -/
  movementZ : Byte
  /-- buttons. -/
  buttons : Byte
  deriving DecidableEq

/-- The bytes of a record in memory. -/
def Packet.byte (pkt : Packet) : ℕ→Byte
  | 0 => pkt.movementX
  | 1 => pkt.movementY
  | 2 => pkt.movementZ
  | _ => pkt.buttons

/-- The record that lies at a distance from the start of the ring. -/
def packetAt (buf : ℕ→Byte) (i : ℕ) : Packet := ⟨buf i,buf (i+1),buf (i+2),buf (i+3)⟩

/-- A store of a record through the cast pointer. -/
def storePacket (buf : ℕ→Byte) (i : ℕ) (pkt : Packet) : ℕ→Byte :=
  fun k => if i ≤ k ∧ k< i+4 then pkt.byte (k-i) else buf k

/-- The statics of mouse.c and of its handler. -/
structure Mouse where
  /-- mouse_buf and the bytes behind it. -/
  mouseBuf : ℕ→Byte
  /-- mouse_head. -/
  mouseHead : ℕ
  /-- mouse_tail. -/
  mouseTail : ℕ
  /-- mouse_x. -/
  mouseX : ℤ
  /-- mouse_y. -/
  mouseY : ℤ
  /-- mouse_buttons. -/
  mouseButtons : Byte
  /-- mouse_packet of the handler. -/
  mousePacket : ℕ→Byte
  /-- packet_idx of the handler. -/
  packetIdx : ℕ
  /-- How often the handler acknowledged its interrupt. -/
  acknowledged : ℕ
  /-- The records that were put into the ring, in order. -/
  accepted : List Packet
  /-- The records that were taken out, in order. -/
  returned : List Packet
  /-- The distances that were stored to. -/
  stores : List ℕ

/-- One coordinate of a movement: a byte and its sign in the status byte. -/
def movement (status mask data : Byte) : ℤ :=
  if status&&&mask≠0 then (data.toNat : ℤ)-256 else data.toNat

/-- The two tests that keep a coordinate on the screen. -/
def clampTo (limit v : ℤ) : ℤ :=
  let v := if v<0 then 0 else v
  if limit<v then limit else v

/-- dx of the complete packet. -/
def Mouse.dx (m : Mouse) : ℤ := movement (m.mousePacket 0) 0x10 (m.mousePacket 1)

/-- dy of the complete packet. -/
def Mouse.dy (m : Mouse) : ℤ := movement (m.mousePacket 0) 0x20 (m.mousePacket 2)

/-- The record of the complete packet. -/
def Mouse.record (m : Mouse) : Packet :=
  ⟨BitVec.ofInt 8 m.dx,BitVec.ofInt 8 m.dy,0,m.mousePacket 0&&&0x07⟩

/-- The part of the handler that moves the pointer. -/
def Mouse.move (m : Mouse) : Mouse :=
  {m with
    mouseX := clampTo 799 (m.mouseX+m.dx)
    mouseY := clampTo 599 (m.mouseY-m.dy)
    mouseButtons := m.mousePacket 0&&&0x07}

/-- The part of the handler that puts the record into the ring. -/
def Mouse.enqueue (m : Mouse) (pkt : Packet) : Mouse :=
  let next := (m.mouseHead+1)%mouseBufSize
  if next≠m.mouseTail then
    {m with
      mouseBuf := storePacket m.mouseBuf m.mouseHead pkt
      mouseHead := next
      accepted := m.accepted++[pkt]
      stores := m.stores++[m.mouseHead,m.mouseHead+1,m.mouseHead+2,m.mouseHead+3]}
  else m

/-- The tests at the start of the handler: an answer of the device starts a
packet. -/
def Mouse.resync (m : Mouse) (data : Byte) : Mouse :=
  if data=0xFA then {m with packetIdx := 0}
  else if data=0xFE then {m with packetIdx := 0}
  else if data=0xFF then {m with packetIdx := 0}
  else m

/-- mouse_packet[packet_idx++] = data. -/
def Mouse.keep (m : Mouse) (data : Byte) : Mouse :=
  {m with
    mousePacket := Function.update m.mousePacket m.packetIdx data
    packetIdx := m.packetIdx+1}

/-- outb(0x20, 0x20). -/
def Mouse.acknowledge (m : Mouse) : Mouse := {m with acknowledged := m.acknowledged+1}

/-- The part of the handler for a complete packet. -/
def Mouse.complete (m : Mouse) : Mouse :=
  let m := {m with packetIdx := 0}
  m.move.enqueue m.record

/-- mouse_handler with the byte it reads from the port. -/
def mouseHandler (m : Mouse) (data : Byte) : Mouse :=
  let m := m.resync data
  if data&&&0x08=0 then m
  else
    let m := m.keep data
    (if 3 ≤ m.packetIdx then m.complete else m).acknowledge

/-- mouse_get_packet with a destination, when no interrupt comes between. -/
def mouseGetPacket (m : Mouse) : Option Packet×Mouse :=
  if m.mouseHead=m.mouseTail then (none,m)
  else
    let pkt := packetAt m.mouseBuf m.mouseTail
    (some pkt,{m with
      mouseTail := (m.mouseTail+1)%mouseBufSize
      returned := m.returned++[pkt]})

/-- The position and the buttons. -/
structure Pointer where
  /-- The column. -/
  x : ℤ
  /-- The row. -/
  y : ℤ
  /-- The buttons. -/
  buttons : Byte
  deriving DecidableEq

/-- What mouse_get_position and mouse_get_buttons report. -/
def Mouse.pointer (m : Mouse) : Pointer := ⟨m.mouseX,m.mouseY,m.mouseButtons⟩

/-- The records do not concern the pointer. -/
theorem pointer_enqueue (m : Mouse) (pkt : Packet) : (m.enqueue pkt).pointer=m.pointer := by
  unfold Mouse.enqueue
  dsimp only
  split_ifs <;> rfl

/-- The records do not concern the packet. -/
theorem packetIdx_enqueue (m : Mouse) (pkt : Packet) : (m.enqueue pkt).packetIdx=m.packetIdx := by
  unfold Mouse.enqueue
  dsimp only
  split_ifs <;> rfl

/-- A byte that is no answer of the device leaves the packet as it is. -/
theorem resync_of_plain (m : Mouse) {data : Byte} (h : data≠0xFA ∧ data≠0xFE ∧ data≠0xFF) :
    m.resync data=m := by
  unfold Mouse.resync
  rw [if_neg h.1,if_neg h.2.1,if_neg h.2.2]

/-- The answers of the device start a packet, other bytes keep it. -/
theorem resync_cases (m : Mouse) (data : Byte) :
    m.resync data=m ∨ m.resync data={m with packetIdx := 0} := by
  unfold Mouse.resync
  split_ifs
  · exact Or.inr rfl
  · exact Or.inr rfl
  · exact Or.inr rfl
  · exact Or.inl rfl

/-- The handler never keeps a complete packet, so its bytes stay inside
mouse_packet. -/
theorem packetIdx_lt (m : Mouse) (data : Byte) (h : m.packetIdx<3) :
    (mouseHandler m data).packetIdx<3 := by
  have hsync : (m.resync data).packetIdx<3 := by
    obtain he|he := resync_cases m data
    · rw [he]
      exact h
    · rw [he]
      exact Nat.zero_lt_succ 2
  unfold mouseHandler
  dsimp only
  split_ifs with hbit hfull
  · exact hsync
  · change ((m.resync data).keep data).complete.packetIdx<3
    unfold Mouse.complete
    dsimp only
    rw [packetIdx_enqueue]
    exact Nat.zero_lt_succ 2
  · exact Nat.lt_of_not_le hfull

/-- Handlers for a sequence of bytes. -/
def Mouse.feed (m : Mouse) (bytes : List Byte) : Mouse := bytes.foldl mouseHandler m

end EronKernel.MouseModel

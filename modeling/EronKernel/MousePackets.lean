import EronKernel.MouseModel

/-!
# Decoding a stream of movement packets

A movement packet has bit 3 of its status byte set; its other two bytes are
any values. The handler asks for bit 3 in every byte, so it also drops the
coordinates that do not have it, and the rest of the packet then counts as the
start of another one. A stream is followed exactly when all coordinates happen
to have the bit.
-/

namespace EronKernel.MousePackets

open ByteMemory MouseModel

/-- A movement packet as the device sends it. -/
structure Movement where
  /-- The buttons, the signs and the bit that marks the first byte. -/
  status : Byte
  /-- The low byte of the movement to the right. -/
  right : Byte
  /-- The low byte of the movement up. -/
  up : Byte
  /-- The first byte is marked. -/
  marked : status&&&0x08≠0
  /-- No byte looks like an answer of the device. -/
  plain : ∀ b∈[status,right,up],b≠0xFA ∧ b≠0xFE ∧ b≠0xFF

/-- The bytes in the order in which they are delivered. -/
def Movement.bytes (p : Movement) : List Byte := [p.status,p.right,p.up]

/-- The movement to the right as a signed number of nine bits. -/
def Movement.dx (p : Movement) : ℤ := (BitVec.cons (p.status.getLsbD 4) p.right).toInt

/-- The movement up as a signed number of nine bits. -/
def Movement.dy (p : Movement) : ℤ := (BitVec.cons (p.status.getLsbD 5) p.up).toInt

/-- Where a packet moves the pointer to, on a screen of 800 by 600. -/
def pointerAfter (q : Pointer) (p : Movement) : Pointer :=
  ⟨max 0 (min 799 (q.x+p.dx)),max 0 (min 599 (q.y-p.dy)),p.status&&&0x07⟩

/-- After every packet the pointer is where the packet moves it, and the next
byte is the first one of a packet. -/
def Follows : Mouse→List Movement→Prop
  | _,[] => True
  | m,p::packets =>
    (m.feed p.bytes).pointer=pointerAfter m.pointer p ∧ (m.feed p.bytes).packetIdx=0 ∧
      Follows (m.feed p.bytes) packets

/-- The byte has the bit that marks a first byte. -/
def Marked (b : Byte) : Prop := b&&&0x08≠0

instance (b : Byte) : Decidable (Marked b) := inferInstanceAs (Decidable (b&&&0x08≠0))

/-- A sign bit and a byte are a number of nine bits. -/
theorem toInt_cons (sign : Bool) (data : Byte) :
    (BitVec.cons sign data).toInt=if sign then (data.toNat : ℤ)-256 else data.toNat := by
  rw [BitVec.toInt_eq_msb_cond,BitVec.msb_cons,BitVec.toNat_cons']
  cases sign with
  | false =>
    rw [if_neg Bool.false_ne_true,if_neg Bool.false_ne_true,Bool.toNat_false,Nat.zero_shiftLeft,Nat.zero_add]
  | true =>
    rw [if_pos rfl,if_pos rfl,Bool.toNat_true]
    change ((1<<<8+data.toNat : ℕ) : ℤ)-2^9=_
    omega

/-- The coordinate that the handler computes is that of the packet. -/
theorem movement_eq_toInt {status mask : Byte} {i : ℕ} (hmask : status&&&mask≠0 ↔ status.getLsbD i=true)
    (data : Byte) : movement status mask data=(BitVec.cons (status.getLsbD i) data).toInt := by
  rw [toInt_cons]
  unfold movement
  by_cases hbit : status.getLsbD i=true
  · rw [if_pos (hmask.mpr hbit),if_pos hbit]
  · rw [if_neg fun h => hbit (hmask.mp h),if_neg hbit]

/-- The sign of the movement to the right. -/
theorem and_right_sign (status : Byte) : status&&&0x10≠0 ↔ status.getLsbD 4=true := by
  revert status
  decide

/-- The sign of the movement up. -/
theorem and_up_sign (status : Byte) : status&&&0x20≠0 ↔ status.getLsbD 5=true := by
  revert status
  decide

/-- Both tests of a coordinate together. -/
theorem clampTo_eq {limit : ℤ} (hlimit : 0 ≤ limit) (v : ℤ) : clampTo limit v=max 0 (min limit v) := by
  unfold clampTo
  dsimp only
  split_ifs <;> omega

/-- The bytes of the packet are no answers of the device. -/
theorem Movement.plain_bytes (p : Movement) :
    (p.status≠0xFA ∧ p.status≠0xFE ∧ p.status≠0xFF) ∧ (p.right≠0xFA ∧ p.right≠0xFE ∧ p.right≠0xFF) ∧
      p.up≠0xFA ∧ p.up≠0xFE ∧ p.up≠0xFF := by
  have h := p.plain
  simp only [List.forall_mem_cons,List.not_mem_nil,IsEmpty.forall_iff,implies_true,and_true] at h
  exact h

/-- A marked byte that does not complete a packet is kept. -/
theorem mouseHandler_keeps {m : Mouse} {data : Byte} (hplain : data≠0xFA ∧ data≠0xFE ∧ data≠0xFF)
    (hmarked : Marked data) (hidx : m.packetIdx<2) :
    mouseHandler m data=(m.keep data).acknowledge := by
  have hfew : ¬3 ≤ (m.keep data).packetIdx := by
    change ¬3 ≤ m.packetIdx+1
    omega
  unfold mouseHandler
  dsimp only
  rw [resync_of_plain m hplain,if_neg hmarked,if_neg hfew]

/-- A byte that is not marked is dropped, and its interrupt is not
acknowledged. -/
theorem mouseHandler_drops {m : Mouse} {data : Byte} (hplain : data≠0xFA ∧ data≠0xFE ∧ data≠0xFF)
    (hmarked : ¬Marked data) : mouseHandler m data=m := by
  unfold mouseHandler
  dsimp only
  rw [resync_of_plain m hplain,if_pos (not_not.mp hmarked)]

/-- A marked third byte completes the packet. -/
theorem mouseHandler_completes {m : Mouse} {data : Byte} (hplain : data≠0xFA ∧ data≠0xFE ∧ data≠0xFF)
    (hmarked : Marked data) (hidx : m.packetIdx=2) :
    mouseHandler m data=(m.keep data).complete.acknowledge := by
  have hfull : 3 ≤ (m.keep data).packetIdx := by
    change 3 ≤ m.packetIdx+1
    omega
  unfold mouseHandler
  dsimp only
  rw [resync_of_plain m hplain,if_neg hmarked,if_pos hfull]

/-- The byte that was kept last. -/
theorem keep_last (m : Mouse) (data : Byte) :
    (m.keep data).acknowledge.mousePacket m.packetIdx=data := by
  unfold Mouse.keep Mouse.acknowledge
  exact Function.update_self _ _ _

/-- The bytes that were kept before. -/
theorem keep_earlier {m : Mouse} {i : ℕ} (hi : i < m.packetIdx) (data : Byte) :
    (m.keep data).acknowledge.mousePacket i=m.mousePacket i := by
  unfold Mouse.keep Mouse.acknowledge
  exact Function.update_of_ne (Nat.ne_of_lt hi) _ _

/-- The handler's packet after three bytes were kept from the start of one. -/
theorem kept_packet {m : Mouse} (hidx : m.packetIdx=0) (p : Movement) :
    let full := ((m.keep p.status).acknowledge.keep p.right).acknowledge.keep p.up
    full.dx=p.dx ∧ full.dy=p.dy ∧ full.mousePacket 0=p.status := by
  intro full
  have hone : (m.keep p.status).acknowledge.packetIdx=1 := congrArg (·+1) hidx
  have htwo : ((m.keep p.status).acknowledge.keep p.right).acknowledge.packetIdx=2 :=
    congrArg (·+1) hone
  have hstatus : full.mousePacket 0=p.status := by
    refine (keep_earlier (htwo▸Nat.zero_lt_two) p.up).trans ?_
    refine (keep_earlier (hone▸Nat.zero_lt_one) p.right).trans ?_
    rw [←hidx]
    exact keep_last m p.status
  have hright : full.mousePacket 1=p.right := by
    refine (keep_earlier (htwo▸Nat.one_lt_two) p.up).trans ?_
    rw [←hone]
    exact keep_last _ p.right
  have hup : full.mousePacket 2=p.up := by
    rw [←htwo]
    exact keep_last _ p.up
  refine ⟨?_,?_,hstatus⟩
  · unfold Mouse.dx Movement.dx
    rw [hstatus,hright,movement_eq_toInt (and_right_sign _)]
  · unfold Mouse.dy Movement.dy
    rw [hstatus,hup,movement_eq_toInt (and_up_sign _)]

/-- A complete packet moves the pointer. -/
theorem complete_pointer (m : Mouse) : m.complete.pointer=
    ⟨max 0 (min 799 (m.mouseX+m.dx)),max 0 (min 599 (m.mouseY-m.dy)),m.mousePacket 0&&&0x07⟩ := by
  unfold Mouse.complete
  dsimp only
  rw [pointer_enqueue,←clampTo_eq (by decide),←clampTo_eq (by decide)]
  rfl

/-- A complete packet is followed by the first byte of another. -/
theorem complete_packetIdx (m : Mouse) : m.complete.packetIdx=0 := by
  unfold Mouse.complete
  dsimp only
  rw [packetIdx_enqueue]
  rfl

/-- A packet whose bytes are all marked is decoded as it was sent. -/
theorem feed_marked {m : Mouse} (p : Movement) (hidx : m.packetIdx=0) (hright : Marked p.right)
    (hup : Marked p.up) :
    (m.feed p.bytes).pointer=pointerAfter m.pointer p ∧ (m.feed p.bytes).packetIdx=0 := by
  obtain ⟨h₁,h₂,h₃⟩ := p.plain_bytes
  obtain ⟨hdx,hdy,hstatus⟩ := kept_packet hidx p
  unfold Mouse.feed Movement.bytes
  rw [List.foldl_cons,List.foldl_cons,List.foldl_cons,List.foldl_nil,
    mouseHandler_keeps h₁ p.marked (by omega),
    mouseHandler_keeps h₂ hright (by change m.packetIdx+1<2; omega),
    mouseHandler_completes h₃ hup (by change m.packetIdx+1+1=2; omega)]
  refine ⟨(complete_pointer _).trans ?_,complete_packetIdx _⟩
  rw [hdx,hdy,hstatus]
  rfl

/-- A packet with a coordinate that is not marked leaves a part of itself as
the start of another. -/
theorem feed_unmarked {m : Mouse} (p : Movement) (hidx : m.packetIdx=0)
    (h : ¬(Marked p.right ∧ Marked p.up)) : (m.feed p.bytes).packetIdx≠0 := by
  obtain ⟨h₁,h₂,h₃⟩ := p.plain_bytes
  unfold Mouse.feed Movement.bytes
  rw [List.foldl_cons,List.foldl_cons,List.foldl_cons,List.foldl_nil,
    mouseHandler_keeps h₁ p.marked (by omega)]
  by_cases hright : Marked p.right
  · rw [mouseHandler_keeps h₂ hright (by change m.packetIdx+1<2; omega),
      mouseHandler_drops h₃ fun hup => h ⟨hright,hup⟩]
    exact Nat.succ_ne_zero _
  · rw [mouseHandler_drops h₂ hright]
    by_cases hup : Marked p.up
    · rw [mouseHandler_keeps h₃ hup (by change m.packetIdx+1<2; omega)]
      exact Nat.succ_ne_zero _
    · rw [mouseHandler_drops h₃ hup]
      exact Nat.succ_ne_zero _

/-- From the start of a packet, a stream of movement packets is followed
exactly when every coordinate byte in it has the bit of a first byte. -/
theorem packets_followed_iff {m : Mouse} (hidx : m.packetIdx=0) (packets : List Movement) :
    Follows m packets ↔ ∀ p∈packets,Marked p.right ∧ Marked p.up := by
  induction packets generalizing m with
  | nil => exact iff_of_true trivial fun p hp => absurd hp List.not_mem_nil
  | cons p packets ih =>
    rw [List.forall_mem_cons]
    by_cases hp : Marked p.right ∧ Marked p.up
    · obtain ⟨hpointer,hnext⟩ := feed_marked p hidx hp.1 hp.2
      rw [←ih hnext]
      exact ⟨fun h => ⟨hp,h.2.2⟩,fun h => ⟨hpointer,hnext,h.2⟩⟩
    · exact iff_of_false (fun h => feed_unmarked p hidx hp h.2.1) fun h => hp h.1

/-- The driver after mouse_init, in front of the first packet. -/
def started : Mouse := ⟨fun _ => 0,0,0,400,300,0,fun _ => 0,0,0,[],[],[]⟩

/-- A movement by eight to the right and eight up. -/
def eightEight : Movement := ⟨0x08,0x08,0x08,by decide,by decide⟩

/-- A movement by one to the right. -/
def oneRight : Movement := ⟨0x08,0x01,0x00,by decide,by decide⟩

/-- Two packets whose coordinates happen to be marked. -/
theorem marked_packets_followed : Follows started [eightEight,eightEight] ↔
    ∀ p∈[eightEight,eightEight],Marked p.right ∧ Marked p.up :=
  packets_followed_iff rfl [eightEight,eightEight]

/-- A movement by one to the right is dropped, and the next packet is read from
its third byte on. -/
theorem one_right_not_followed :
    ¬∀ (m : Mouse) (packets : List Movement),m.packetIdx=0→Follows m packets := by
  intro h
  have hfollows := h started [oneRight] rfl
  exact absurd hfollows.1 (by decide)

end EronKernel.MousePackets

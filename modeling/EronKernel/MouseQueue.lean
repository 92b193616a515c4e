import EronKernel.MouseModel
import EronKernel.RingQueue
import Mathlib.Data.List.GetD

/-!
# The record ring of the mouse

mouse_head and mouse_tail move by one byte for each record of four bytes, so
neighbouring records share three bytes and a record put in near the end of the
ring reaches behind it. mouse_get_packet is split into its accesses, and the
handler may run between any two of them. As long as every record is put in
while no other waits, and ends inside the ring, the ring is a queue. Any other
record that is put in reaches behind the ring or changes the one that waits,
whose third byte is zero where the new one has a byte with bit 3 set.
-/

namespace EronKernel.MouseQueue

open ByteMemory RingQueue MouseModel

/-- How far a call of mouse_get_packet has come. -/
inductive GetPacket where
  /-- No call, or one in front of its comparison. -/
  | idle
  /-- The ring was not empty; these bytes were copied. -/
  | copying (got : List Byte)
  deriving DecidableEq

/-- The next access of mouse_get_packet: the comparison, one byte of the copy,
or the write of mouse_tail. -/
def getStep (m : Mouse) : GetPacket→Mouse×GetPacket
  | .idle => (m,if m.mouseHead=m.mouseTail then .idle else .copying [])
  | .copying got =>
    if got.length<4 then (m,.copying (got++[m.mouseBuf (m.mouseTail+got.length)]))
    else
      ({m with
        mouseTail := (m.mouseTail+1)%mouseBufSize
        returned := m.returned++[packetAt (fun k => got.getD k 0) 0]},.idle)

/-- What can happen next. -/
inductive Event where
  /-- The handler runs and reads this byte. -/
  | irq (data : Byte)
  /-- mouse_get_packet makes its next access. -/
  | get

/-- The driver and the call of mouse_get_packet. -/
structure System where
  /-- The driver. -/
  mouse : Mouse
  /-- The call. -/
  call : GetPacket

/-- One event. -/
def System.step (s : System) : Event→System
  | .irq data => {s with mouse := mouseHandler s.mouse data}
  | .get => ⟨(getStep s.mouse s.call).1,(getStep s.mouse s.call).2⟩

/-- A run. -/
def System.run (s : System) (events : List Event) : System := events.foldl System.step s

/-- The driver after mouse_init, with any bytes in the ring and behind it. -/
def boot (mouseBuf : ℕ→Byte) : System :=
  ⟨⟨mouseBuf,0,0,400,300,0,fun _ => 0,0,0,[],[],[]⟩,.idle⟩

/-- The ring is a queue: records are returned in the order in which they were
put in and with all their fields, none is left out when the ring looks empty,
it looks full only when 127 records wait, and no store was outside. -/
structure Fifo (m : Mouse) : Prop where
  /-- The records come back in order. -/
  inOrder : m.returned<+:m.accepted
  /-- mouse_get_packet finds the ring empty only when no record waits. -/
  empty : m.mouseHead=m.mouseTail→m.returned=m.accepted
  /-- The handler refuses a record only when the ring is full. -/
  full : (m.mouseHead+1)%mouseBufSize=m.mouseTail→m.accepted.length=m.returned.length+127
  /-- The stores are inside mouse_buf. -/
  inBounds : ∀ k∈m.stores,k< mouseBufSize

/-- How many records wait. -/
def pending (m : Mouse) : ℕ := (m.mouseHead+mouseBufSize-m.mouseTail)%mouseBufSize

/-- The handler puts in a record when it reads this byte: the byte is marked
and completes a packet, and the ring is not full. -/
def PutsIn (m : Mouse) (data : Byte) : Prop :=
  data&&&0x08≠0 ∧ 3 ≤ ((m.resync data).keep data).packetIdx ∧ (m.mouseHead+1)%mouseBufSize≠m.mouseTail

instance (m : Mouse) (data : Byte) : Decidable (PutsIn m data) := inferInstanceAs (Decidable (_ ∧ _ ∧ _))

/-- No record waits, and one that is put in ends inside the ring. -/
def HasPlace (m : Mouse) : Prop := m.mouseHead=m.mouseTail ∧ m.mouseHead+3< mouseBufSize

instance (m : Mouse) : Decidable (HasPlace m) := inferInstanceAs (Decidable (_ ∧ _))

/-- An event that puts in no record, or one that has a place. -/
def SafeEvent (m : Mouse) : Event→Prop
  | .irq data => PutsIn m data→HasPlace m
  | .get => True

/-- A run of such events. -/
def SafeRun (s : System) : List Event→Prop
  | [] => True
  | e::events => SafeEvent s.mouse e ∧ SafeRun (s.step e) events

instance (m : Mouse) (e : Event) : Decidable (SafeEvent m e) :=
  match e with
  | .irq _ => inferInstanceAs (Decidable (_→_))
  | .get => isTrue trivial

/-- A run is checked event by event. -/
def decidableSafeRun : ∀ (s : System) (events : List Event),Decidable (SafeRun s events)
  | _,[] => isTrue trivial
  | s,e::events =>
    have := decidableSafeRun (s.step e) events
    inferInstanceAs (Decidable (_ ∧ _))

instance (s : System) (events : List Event) : Decidable (SafeRun s events) := decidableSafeRun s events

/-- Without an interrupt the accesses are the call as a whole. -/
theorem getPacket_uninterrupted (m : Mouse) :
    System.run ⟨m,.idle⟩ (if m.mouseHead=m.mouseTail then [.get] else List.replicate 6 .get)=
      ⟨(mouseGetPacket m).2,.idle⟩ := by
  have hfirst : (getStep m .idle).2=if m.mouseHead=m.mouseTail then .idle else .copying [] := rfl
  unfold mouseGetPacket
  by_cases he : m.mouseHead=m.mouseTail
  · rw [if_pos he] at hfirst
    rw [if_pos he,if_pos he]
    change System.mk m (getStep m .idle).2=_
    rw [hfirst]
  · rw [if_neg he] at hfirst
    rw [if_neg he,if_neg he]
    change System.run ⟨m,(getStep m .idle).2⟩ (List.replicate 5 .get)=_
    rw [hfirst]
    rfl

/-- The bytes of a stored record. -/
theorem storePacket_byte (buf : ℕ→Byte) (i : ℕ) (pkt : Packet) {k : ℕ} (hk : k<4) :
    storePacket buf i pkt (i+k)=pkt.byte k := by
  unfold storePacket
  rw [if_pos ⟨Nat.le_add_right i k,by omega⟩,Nat.add_sub_cancel_left]

/-- A stored record is read back. -/
theorem packetAt_storePacket (buf : ℕ→Byte) (i : ℕ) (pkt : Packet) :
    packetAt (storePacket buf i pkt) i=pkt := by
  have hbyte := fun k => storePacket_byte buf i pkt (k:=k)
  unfold packetAt
  rw [hbyte 1 (by decide),hbyte 2 (by decide),hbyte 3 (by decide),
    show storePacket buf i pkt i=pkt.byte 0 from hbyte 0 (by decide)]
  rfl

/-- A record that is put in ends inside the ring and leaves every waiting record
as it is. -/
def Spares (m : Mouse) (pkt : Packet) : Prop :=
  m.mouseHead+3< mouseBufSize ∧ ∀ i< pending m,
    packetAt (storePacket m.mouseBuf m.mouseHead pkt) ((m.mouseTail+i)%mouseBufSize)=
      packetAt m.mouseBuf ((m.mouseTail+i)%mouseBufSize)

/-- Where no record waits there is none to change. -/
theorem HasPlace.spares {m : Mouse} (h : HasPlace m) (pkt : Packet) : Spares m pkt := by
  refine ⟨h.2,fun i hi => ?_⟩
  have hnone : pending m=0 := by
    unfold pending
    rw [h.1,Nat.add_sub_cancel_left]
    rfl
  rw [hnone] at hi
  exact absurd hi (Nat.not_lt_zero i)

/-- The records as the cells of a ring. -/
def ring (m : Mouse) : RingBuffer Packet := ⟨packetAt m.mouseBuf,m.mouseHead,m.mouseTail⟩

/-- As many records wait as the ring holds. -/
theorem pending_eq {m : Mouse} {queue : List Packet} (h : Holds mouseBufSize (ring m) queue) :
    pending m=queue.length := by
  have htail : m.mouseTail<128 := h.tailLt
  have hlength : queue.length<128 := h.lengthLt
  have hhead : m.mouseHead=(m.mouseTail+queue.length)%128 := h.head
  change (m.mouseHead+128-m.mouseTail)%128=queue.length
  omega

/-- A record that spares the others is appended. -/
theorem enqueue_holds {m : Mouse} {queue : List Packet} (h : Holds mouseBufSize (ring m) queue)
    {pkt : Packet} (hfree : (m.mouseHead+1)%mouseBufSize≠m.mouseTail) (hsafe : Spares m pkt) :
    Holds mouseBufSize (ring (m.enqueue pkt)) (queue++[pkt]) := by
  have hlength := h.lengthLt
  have hkeep := hsafe.2
  rw [pending_eq h] at hkeep
  have hring : ring (m.enqueue pkt)=
      ⟨packetAt (storePacket m.mouseBuf m.mouseHead pkt),next mouseBufSize m.mouseHead,m.mouseTail⟩ := by
    unfold Mouse.enqueue
    dsimp only
    rw [if_pos hfree]
    rfl
  rw [hring]
  refine Holds.congr (holds_push h hfree pkt) rfl rfl ?_
  intro k hk
  rw [List.length_append,List.length_singleton] at hk
  change packetAt (storePacket m.mouseBuf m.mouseHead pkt) ((m.mouseTail+k)%mouseBufSize)=
    Function.update (packetAt m.mouseBuf) m.mouseHead pkt ((m.mouseTail+k)%mouseBufSize)
  have hhead : m.mouseHead=(m.mouseTail+queue.length)%mouseBufSize := h.head
  by_cases hlast : k=queue.length
  · subst hlast
    rw [←hhead,Function.update_self,packetAt_storePacket]
  · have hne : (m.mouseTail+k)%mouseBufSize≠m.mouseHead := by
      intro heq
      exact hlast (offset_inj (by omega) hlength (heq.trans hhead))
    rw [Function.update_of_ne hne]
    exact hkeep k (by omega)

/-- The bytes that a call has copied are those of the record it will return. -/
def CallOk (queue : List Packet) : GetPacket→Prop
  | .idle => True
  | .copying got => got.length≤4 ∧ ∃ p rest,queue=p::rest ∧ ∀ k<got.length,got.getD k 0=p.byte k

/-- The ring holds the records that were put in and not yet taken out. -/
structure Queued (s : System) (queue : List Packet) : Prop where
  /-- The ring. -/
  held : Holds mouseBufSize (ring s.mouse) queue
  /-- The records in order. -/
  order : s.mouse.accepted=s.mouse.returned++queue
  /-- The stores. -/
  inBounds : ∀ k∈s.mouse.stores,k< mouseBufSize
  /-- The call. -/
  call : CallOk queue s.call
  /-- At most one record waits. -/
  few : queue.length≤1
  /-- It has no movement_z and lies inside the ring. -/
  waiting : ∀ p∈queue,p.movementZ=0 ∧ s.mouse.mouseTail+3< mouseBufSize

/-- At the start the ring is empty. -/
theorem boot_queued (mouseBuf : ℕ→Byte) : Queued (boot mouseBuf) [] where
  held := holds_nil (Nat.zero_lt_succ 127) rfl
  order := rfl
  inBounds _ hk := absurd hk List.not_mem_nil
  call := trivial
  few := Nat.zero_le 1
  waiting _ hp := absurd hp List.not_mem_nil

/-- A queue gives the property. -/
theorem Queued.fifo {s : System} {queue : List Packet} (h : Queued s queue) : Fifo s.mouse where
  inOrder := ⟨queue,h.order.symm⟩
  empty he := by
    have hnil : queue=[] := (holds_empty_iff h.held).mp he
    have horder := h.order
    rw [hnil,List.append_nil] at horder
    exact horder.symm
  full he := by
    have hlength : queue.length+1=128 := (holds_full_iff h.held).mp he
    rw [h.order,List.length_append]
    omega
  inBounds := h.inBounds

/-- A call stays right when a record is put in behind the others. -/
theorem CallOk.append {queue : List Packet} {call : GetPacket} (h : CallOk queue call)
    (pkt : Packet) : CallOk (queue++[pkt]) call := by
  cases call with
  | idle => trivial
  | copying got =>
    obtain ⟨hlen,p,rest,rfl,hbytes⟩ := h
    exact ⟨hlen,p,rest++[pkt],rfl,hbytes⟩

/-- A part of the handler that leaves the ring and the notes alone. -/
theorem Queued.of_same {m m' : Mouse} {call : GetPacket} {queue : List Packet}
    (h : Queued ⟨m,call⟩ queue) (hring : ring m'=ring m) (haccepted : m'.accepted=m.accepted)
    (hreturned : m'.returned=m.returned) (hstores : m'.stores=m.stores) : Queued ⟨m',call⟩ queue where
  held := by
    rw [hring]
    exact h.held
  order := by
    rw [haccepted,hreturned]
    exact h.order
  inBounds := by
    rw [hstores]
    exact h.inBounds
  call := h.call
  few := h.few
  waiting := by
    rw [show m'.mouseTail=m.mouseTail from congrArg RingBuffer.tail hring]
    exact h.waiting

/-- Where there is a place the queue is empty. -/
theorem Queued.nil_of_hasPlace {s : System} {queue : List Packet} (h : Queued s queue)
    (hplace : HasPlace s.mouse) : queue=[] := (holds_empty_iff h.held).mp hplace.1

/-- A record is refused, or it has a place and is the only one. -/
theorem enqueue_queued {m : Mouse} {call : GetPacket} {queue : List Packet}
    (h : Queued ⟨m,call⟩ queue) {pkt : Packet} (hz : pkt.movementZ=0)
    (hsafe : (m.mouseHead+1)%mouseBufSize≠m.mouseTail→HasPlace m) :
    ∃ queue',Queued ⟨m.enqueue pkt,call⟩ queue' := by
  by_cases hfree : (m.mouseHead+1)%mouseBufSize≠m.mouseTail
  · have hplace := hsafe hfree
    have hnil : queue=[] := h.nil_of_hasPlace hplace
    subst hnil
    have hnew : m.enqueue pkt={m with
        mouseBuf := storePacket m.mouseBuf m.mouseHead pkt
        mouseHead := (m.mouseHead+1)%mouseBufSize
        accepted := m.accepted++[pkt]
        stores := m.stores++[m.mouseHead,m.mouseHead+1,m.mouseHead+2,m.mouseHead+3]} := if_pos hfree
    have hheld := enqueue_holds h.held hfree (hplace.spares pkt)
    have hend := hplace.2
    rw [hnew] at hheld ⊢
    refine ⟨[pkt],hheld,?_,?_,h.call.append pkt,Nat.le_refl 1,?_⟩
    · dsimp only
      rw [h.order,List.append_nil]
    · intro k hk
      obtain hk|hk := List.mem_append.mp hk
      · exact h.inBounds k hk
      · simp only [List.mem_cons,List.not_mem_nil,or_false] at hk
        omega
    · intro p hp
      rw [List.mem_singleton.mp hp]
      refine ⟨hz,?_⟩
      dsimp only
      rw [←hplace.1]
      exact hend
  · refine ⟨queue,?_⟩
    unfold Mouse.enqueue
    dsimp only
    rw [if_neg hfree]
    exact h

/-- A complete packet keeps the queue when its record has a place. -/
theorem complete_queued {m : Mouse} {call : GetPacket} {queue : List Packet}
    (h : Queued ⟨m,call⟩ queue) (hsafe : (m.mouseHead+1)%mouseBufSize≠m.mouseTail→HasPlace m) :
    ∃ queue',Queued ⟨m.complete,call⟩ queue' := by
  have hmoved : Queued ⟨({m with packetIdx := 0} : Mouse).move,call⟩ queue := h.of_same rfl rfl rfl rfl
  exact enqueue_queued hmoved rfl hsafe

/-- The handler keeps the queue when the record it puts in has a place. -/
theorem mouseHandler_queued {m : Mouse} {call : GetPacket} {queue : List Packet}
    (h : Queued ⟨m,call⟩ queue) {data : Byte} (hsafe : SafeEvent m (.irq data)) :
    ∃ queue',Queued ⟨mouseHandler m data,call⟩ queue' := by
  have hsync : Queued ⟨m.resync data,call⟩ queue := by
    obtain he|he := resync_cases m data
    · rw [he]
      exact h
    · rw [he]
      exact h.of_same rfl rfl rfl rfl
  have hsame : ring (m.resync data)=ring m := by
    obtain he|he := resync_cases m data
    · rw [he]
    · rw [he]
      rfl
  unfold mouseHandler
  dsimp only
  split_ifs with hbit hfull
  · exact ⟨queue,hsync⟩
  · have hkept : Queued ⟨(m.resync data).keep data,call⟩ queue := hsync.of_same rfl rfl rfl rfl
    have hhead : (m.resync data).mouseHead=m.mouseHead := congrArg RingBuffer.head hsame
    have htail : (m.resync data).mouseTail=m.mouseTail := congrArg RingBuffer.tail hsame
    have hplace : ((m.resync data).mouseHead+1)%mouseBufSize≠(m.resync data).mouseTail→
        HasPlace (m.resync data) := by
      intro hfree
      unfold HasPlace
      rw [hhead,htail] at hfree ⊢
      exact hsafe ⟨hbit,hfull,hfree⟩
    obtain ⟨queue',h'⟩ := complete_queued hkept hplace
    exact ⟨queue',h'.of_same rfl rfl rfl rfl⟩
  · exact ⟨queue,hsync.of_same rfl rfl rfl rfl⟩

/-- One more byte of the copy. -/
theorem copied_byte {m : Mouse} {p : Packet} {rest : List Packet}
    (h : Holds mouseBufSize (ring m) (p::rest)) {k : ℕ} (hk : k<4) :
    m.mouseBuf (m.mouseTail+k)=p.byte k := by
  have hfront : packetAt m.mouseBuf m.mouseTail=p := holds_front h
  rw [←hfront]
  obtain _|_|_|_|k := k
  · rfl
  · rfl
  · rfl
  · rfl
  · omega

/-- Every access of mouse_get_packet keeps the queue. -/
theorem getStep_queued {m : Mouse} {call : GetPacket} {queue : List Packet}
    (h : Queued ⟨m,call⟩ queue) :
    ∃ queue',Queued ⟨(getStep m call).1,(getStep m call).2⟩ queue' := by
  cases call with
  | idle =>
    refine ⟨queue,h.held,h.order,h.inBounds,?_,h.few,h.waiting⟩
    unfold getStep
    dsimp only
    split_ifs with hempty
    · trivial
    · obtain ⟨p,rest,hqueue⟩ := List.exists_cons_of_ne_nil
        (fun hnil => hempty ((holds_empty_iff h.held).mpr hnil))
      exact ⟨Nat.zero_le _,p,rest,hqueue,fun k hk => absurd hk (Nat.not_lt_zero k)⟩
  | copying got =>
    obtain ⟨hlen,p,rest,rfl,hbytes⟩ := h.call
    unfold getStep
    dsimp only
    split_ifs with hmore
    · refine ⟨p::rest,h.held,h.order,h.inBounds,⟨?_,p,rest,rfl,?_⟩,h.few,h.waiting⟩
      · rw [List.length_append,List.length_singleton]
        omega
      · intro k hk
        rw [List.length_append,List.length_singleton] at hk
        by_cases hlast : k=got.length
        · subst hlast
          rw [List.getD_append_right _ _ _ _ (Nat.le_refl _),Nat.sub_self]
          exact copied_byte h.held hmore
        · rw [List.getD_append _ _ _ _ (by omega)]
          exact hbytes k (by omega)
    · have hp : packetAt (fun k => got.getD k 0) 0=p := by
        unfold packetAt
        dsimp only
        rw [hbytes 0 (by omega),hbytes (0+1) (by omega),hbytes (0+2) (by omega),
          hbytes (0+3) (by omega)]
        rfl
      have hrest : rest=[] := List.length_eq_zero_iff.mp (Nat.le_zero.mp (Nat.le_of_succ_le_succ h.few))
      subst hrest
      refine ⟨[],holds_pop h.held,?_,h.inBounds,trivial,Nat.zero_le 1,fun _ hq => absurd hq List.not_mem_nil⟩
      dsimp only
      rw [hp,h.order,List.append_assoc]
      rfl

/-- Every safe event keeps a queue. -/
theorem step_queued {s : System} {queue : List Packet} (h : Queued s queue) {e : Event}
    (hsafe : SafeEvent s.mouse e) : ∃ queue',Queued (s.step e) queue' := by
  cases e with
  | irq data => exact mouseHandler_queued h hsafe
  | get => exact getStep_queued h

/-- Every safe run keeps a queue. -/
theorem run_queued (events : List Event) {s : System} {queue : List Packet} (h : Queued s queue)
    (hsafe : SafeRun s events) : ∃ queue',Queued (s.run events) queue' := by
  induction events generalizing s queue with
  | nil => exact ⟨queue,h⟩
  | cons e events ih =>
    obtain ⟨queue',h'⟩ := step_queued h hsafe.1
    exact ih h' hsafe.2

/-- Between two events fewer than three bytes of a packet are kept. -/
theorem run_packetIdx (events : List Event) {s : System} (h : s.mouse.packetIdx<3) :
    (s.run events).mouse.packetIdx<3 := by
  induction events generalizing s with
  | nil => exact h
  | cons e events ih =>
    refine ih ?_
    cases e with
    | irq data => exact packetIdx_lt s.mouse data h
    | get =>
      have hsame : (getStep s.mouse s.call).1.packetIdx=s.mouse.packetIdx := by
        cases s.call with
        | idle => rfl
        | copying got =>
          unfold getStep
          dsimp only
          split_ifs <;> rfl
      exact hsame.trans_lt h

/-- movement_y of a record that is put in is the byte that completed it. -/
theorem record_movementY {m : Mouse} {data : Byte} (hidx : m.packetIdx<3) (h : PutsIn m data) :
    ((m.resync data).keep data).record.movementY=data := by
  have hlast : (m.resync data).packetIdx=2 := by
    have hfull : 3 ≤ (m.resync data).packetIdx+1 := h.2.1
    obtain he|he := resync_cases m data
    · rw [he] at hfull ⊢
      omega
    · rw [he] at hfull
      exact absurd hfull (show ¬3≤0+1 by decide)
  have hthird : ((m.resync data).keep data).mousePacket 2=data := by
    change Function.update (m.resync data).mousePacket (m.resync data).packetIdx data 2=data
    rw [hlast,Function.update_self]
  change BitVec.ofInt 8 ((m.resync data).keep data).dy=data
  unfold Mouse.dy movement
  rw [hthird]
  apply BitVec.eq_of_toNat_eq
  rw [BitVec.toNat_ofInt]
  have hlt := data.isLt
  split_ifs <;> omega

/-- A record that is put in while another one waits changes it: it stores its
movement_y over movement_z. -/
theorem hasPlace_of_spares {s : System} {queue : List Packet} (h : Queued s queue) {pkt : Packet}
    (hy : pkt.movementY≠0) (hspares : Spares s.mouse pkt) : HasPlace s.mouse := by
  refine ⟨?_,hspares.1⟩
  by_contra hne
  obtain ⟨p,rest,rfl⟩ := List.exists_cons_of_ne_nil (fun hnil => hne ((holds_empty_iff h.held).mpr hnil))
  obtain ⟨hz,hend⟩ := h.waiting p List.mem_cons_self
  have hrest : rest=[] := List.length_eq_zero_iff.mp (Nat.le_zero.mp (Nat.le_of_succ_le_succ h.few))
  subst hrest
  have hinside : s.mouse.mouseTail+3<128 := hend
  have htail : s.mouse.mouseTail<128 := h.held.tailLt
  have hhead : s.mouse.mouseHead=(s.mouse.mouseTail+1)%128 := h.held.head
  have hkept := hspares.2 0 (by rw [pending_eq h.held]; exact Nat.zero_lt_one)
  have hfront : packetAt s.mouse.mouseBuf s.mouse.mouseTail=p := holds_front h.held
  rw [Nat.add_zero,Nat.mod_eq_of_lt htail,hfront] at hkept
  have hbyte : storePacket s.mouse.mouseBuf s.mouse.mouseHead pkt (s.mouse.mouseTail+2)=p.movementZ :=
    congrArg Packet.movementZ hkept
  have hat : s.mouse.mouseTail+2=s.mouse.mouseHead+1 := by
    rw [Nat.mod_eq_of_lt (by omega)] at hhead
    omega
  rw [hat,storePacket_byte _ _ _ (by decide : 1<4),hz] at hbyte
  exact hy hbyte

/-- In every run of safe events, the next record has a place exactly when
putting it in stores inside the ring and leaves the waiting records as they are. -/
theorem safeEvent_iff_spares (mouseBuf : ℕ→Byte) {events : List Event}
    (hsafe : SafeRun (boot mouseBuf) events) (data : Byte) :
    let m := ((boot mouseBuf).run events).mouse
    SafeEvent m (.irq data) ↔ (PutsIn m data→Spares m ((m.resync data).keep data).record) := by
  obtain ⟨queue,h⟩ := run_queued events (boot_queued mouseBuf) hsafe
  refine forall_congr' fun hputs => ⟨fun hplace => hplace.spares _,fun hspares => ?_⟩
  have hidx := run_packetIdx events (s:=boot mouseBuf) (Nat.zero_lt_succ 2)
  refine hasPlace_of_spares h ?_ hspares
  rw [record_movementY hidx hputs]
  intro hzero
  exact hputs.1 (by rw [hzero]; rfl)

/-- Whenever the handler runs between the accesses of mouse_get_packet: as long
as every record is put in while no other waits, and ends inside the ring, the
ring is a queue and no store is outside. -/
theorem mouse_queue_fifo (mouseBuf : ℕ→Byte) {events : List Event}
    (hsafe : SafeRun (boot mouseBuf) events) : Fifo ((boot mouseBuf).run events).mouse := by
  obtain ⟨queue,h⟩ := run_queued events (boot_queued mouseBuf) hsafe
  exact h.fifo

/-- Three packets, each taken out before the next one is complete; the handler
also runs between the accesses of mouse_get_packet. -/
def drainedPackets : List Event :=
  [.irq 0x08,.irq 0x08,.irq 0x18,.get,.irq 0x09,.get,.get,.get,.irq 0x28,.get,.get,.irq 0x38,
    .get,.get,.get,.get,.get,.irq 0x3A,.get,.irq 0x0F,.irq 0x0E,.get,.get,.get,.get,.get,.get]

/-- All three of them come back as they were. -/
theorem drained_packets_fifo : Fifo ((boot fun _ => 0).run drainedPackets).mouse ∧
    ((boot fun _ => 0).run drainedPackets).mouse.returned=
      [⟨0x08,0x18,0,0⟩,⟨0x28,0x38,0,1⟩,⟨0x0F,0x0E,0,2⟩] :=
  ⟨mouse_queue_fifo (fun _ => 0) (by decide +kernel),by decide +kernel⟩

/-- Two packets are put in before the first one is taken out. -/
def twoPackets : List Event :=
  [.irq 0x08,.irq 0x08,.irq 0x18,.irq 0x08,.irq 0x28,.irq 0x38,.get,.get,.get,.get,.get,.get]

/-- The second record is stored over three bytes of the first one, which comes
back with the second one's movements. -/
theorem two_packets_not_fifo :
    ¬∀ (mouseBuf : ℕ→Byte) (events : List Event),Fifo ((boot mouseBuf).run events).mouse := by
  intro h
  have horder := (h (fun _ => 0) twoPackets).inOrder
  revert horder
  decide +kernel

end EronKernel.MouseQueue

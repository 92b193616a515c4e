import EronKernel.KeyboardCodes
import EronKernel.RingQueue

/-!
# The keyboard buffer is a queue under interrupts

The ring holds the characters that were accepted and not yet released. This is
kept by the interrupt handler wherever the call of keyboard_getchar has come
to, together with what the call has read so far: an index it has read is still
the current one, because only the call itself moves it, and a character it has
found waiting still waits, because the handler only appends.
-/

namespace EronKernel.KeyboardFifo

open ByteMemory TtyModel KeyboardModel KeyboardCodes RingQueue

/-- The last event of a log is either the one looked for or comes after it. -/
theorem snoc_split {α : Type*} {xs before after : List α} {x e : α} (h : xs++[e]=before++x::after) :
    (before=xs ∧ x=e) ∨ ∃ after',xs=before++x::after' := by
  obtain rfl|⟨after',last,rfl⟩ := List.eq_nil_or_concat after
  · have hlast := List.append_inj' h rfl
    exact Or.inl ⟨hlast.1.symm,(List.singleton_inj.1 hlast.2).symm⟩
  · have hcons : before++x::after'.concat last=(before++x::after')++[last] := by
      rw [List.concat_eq_append,←List.cons_append,←List.append_assoc]
    rw [hcons] at h
    exact Or.inr ⟨after',(List.append_inj' h rfl).1⟩

/-- The characters accepted by one more event. -/
theorem acceptedChars_snoc (log : List Note) (e : Note) :
    acceptedChars (log++[e])=acceptedChars log++acceptedChars [e] := List.filterMap_append

/-- The characters returned by one more event. -/
theorem returnedChars_snoc (log : List Note) (e : Note) :
    returnedChars (log++[e])=returnedChars log++returnedChars [e] := List.filterMap_append

/-- The characters released by one more event. -/
theorem releasedCount_snoc (log : List Note) (e : Note) :
    releasedCount (log++[e])=releasedCount log+releasedCount [e] := List.countP_append

/-- The current call has read kb_head at a moment when every accepted
character was released. -/
def SawEmpty (log : List Note) : Prop :=
  ∃ earlier between,log=earlier++.headRead::between ∧ (∀ c,.returned c∉between) ∧
    (acceptedChars earlier).length=releasedCount earlier

/-- What the log says about single events. -/
structure LogOk (log : List Note) : Prop where
  /-- Accepted characters are not zero. -/
  nonzero : ∀ c∈acceptedChars log,c≠0
  /-- A character is only refused when the buffer is full. -/
  refused : ∀ before c after,log=before++.refused c::after→
    (acceptedChars before).length=releasedCount before+127
  /-- Zero is only returned when the buffer was seen empty. -/
  zero : ∀ before after,log=before++.returned 0::after→ SawEmpty before

/-- One more event of the log. -/
theorem logOk_snoc {log : List Note} (h : LogOk log) {e : Note} (hnonzero : ∀ c,e=.accepted c→ c≠0)
    (hrefused : ∀ c,e=.refused c→(acceptedChars log).length=releasedCount log+127)
    (hzero : e=.returned 0→ SawEmpty log) : LogOk (log++[e]) where
  nonzero c hc := by
    rw [acceptedChars_snoc,List.mem_append] at hc
    obtain hc|hc := hc
    · exact h.nonzero c hc
    · obtain ⟨e',he,hsome⟩ := List.mem_filterMap.1 hc
      rw [List.mem_singleton] at he
      subst he
      cases e' with
      | accepted d =>
        cases hsome
        exact hnonzero c rfl
      | echoed d => cases hsome
      | refused d => cases hsome
      | headRead => cases hsome
      | released => cases hsome
      | returned d => cases hsome
  refused before c after hlog := by
    obtain ⟨rfl,he⟩|⟨after',hold⟩ := snoc_split hlog
    · exact hrefused c he.symm
    · exact h.refused before c after' hold
  zero before after hlog := by
    obtain ⟨rfl,he⟩|⟨after',hold⟩ := snoc_split hlog
    · exact hzero he.symm
    · exact h.zero before after' hold

/-- What the call has seen stays true until it returns. -/
theorem sawEmpty_snoc {log : List Note} (h : SawEmpty log) {e : Note} (he : ∀ c,e≠.returned c) :
    SawEmpty (log++[e]) := by
  obtain ⟨earlier,between,rfl,hnone,hempty⟩ := h
  refine ⟨earlier,between++[e],?_,?_,hempty⟩
  · rw [List.append_assoc,List.cons_append]
  · intro c hc
    obtain hc|hc := List.mem_append.1 hc
    · exact hnone c hc
    · exact he c (List.mem_singleton.1 hc).symm

/-- A call that reads kb_head now sees whether the buffer is empty. -/
theorem sawEmpty_headRead {log : List Note} (h : (acceptedChars log).length=releasedCount log) :
    SawEmpty (log++[.headRead]) :=
  ⟨log,[],rfl,fun _ => List.not_mem_nil,h⟩

/-- The log of a queue: some accepted characters were returned, some are
released and about to be returned, and the others wait. -/
structure Ledger (log : List Note) (flight queue : List Byte) : Prop where
  /-- The accepted characters in order. -/
  order : acceptedChars log=returnedChars log++flight++queue
  /-- As many characters wait as were not released. -/
  count : (acceptedChars log).length=releasedCount log+queue.length
  /-- The single events. -/
  events : LogOk log

/-- An event that moves no character. -/
theorem ledger_still {log : List Note} {flight queue : List Byte} {e : Note} (h : Ledger log flight queue)
    (haccepted : acceptedChars [e]=[]) (hreturned : returnedChars [e]=[]) (hreleased : releasedCount [e]=0)
    (hrefused : ∀ c,e=.refused c→ queue.length=127) (hzero : e=.returned 0→ SawEmpty log) :
    Ledger (log++[e]) flight queue where
  order := by
    rw [acceptedChars_snoc,returnedChars_snoc,haccepted,hreturned,List.append_nil,List.append_nil]
    exact h.order
  count := by
    rw [acceptedChars_snoc,releasedCount_snoc,haccepted,hreleased,List.append_nil]
    exact h.count
  events := by
    refine logOk_snoc h.events ?_ ?_ hzero
    · rintro c rfl
      cases haccepted
    · intro c hc
      rw [h.count,hrefused c hc]

/-- An accepted character waits behind the others. -/
theorem ledger_accepted {log : List Note} {flight queue : List Byte} {c : Byte}
    (h : Ledger log flight queue) (hc : c≠0) :
    Ledger (log++[.accepted c]) flight (queue++[c]) where
  order := by
    rw [acceptedChars_snoc,returnedChars_snoc,h.order]
    show returnedChars log++flight++queue++[c]=returnedChars log++[]++flight++(queue++[c])
    rw [List.append_nil,List.append_assoc _ queue]
  count := by
    rw [acceptedChars_snoc,releasedCount_snoc,List.length_append,List.length_append,h.count]
    exact Nat.add_assoc _ _ _
  events := by
    refine logOk_snoc h.events ?_ (fun _ hd => by cases hd) (fun hd => by cases hd)
    rintro d hd
    cases hd
    exact hc

/-- A released character is about to be returned. -/
theorem ledger_released {log : List Note} {queue : List Byte} {c : Byte} (h : Ledger log [] (c::queue)) :
    Ledger (log++[.released]) [c] queue where
  order := by
    rw [acceptedChars_snoc,returnedChars_snoc,h.order]
    show returnedChars log++[]++c::queue++[]=returnedChars log++[]++[c]++queue
    rw [List.append_nil,List.append_nil,List.append_assoc,List.singleton_append]
  count := by
    rw [acceptedChars_snoc,releasedCount_snoc]
    show (acceptedChars log++[]).length=releasedCount log+1+queue.length
    rw [List.append_nil,h.count,List.length_cons]
    omega
  events := logOk_snoc h.events (fun _ hd => by cases hd) (fun _ hd => by cases hd) (fun hd => by cases hd)

/-- The released character is returned. -/
theorem ledger_returned {log : List Note} {queue : List Byte} {c : Byte} (h : Ledger log [c] queue)
    (hc : c≠0) : Ledger (log++[.returned c]) [] queue where
  order := by
    have hreturned : returnedChars [.returned c]=[c] := by
      unfold returnedChars
      rw [List.filterMap_cons,List.filterMap_nil]
      dsimp only
      rw [if_neg hc]
    rw [acceptedChars_snoc,returnedChars_snoc,h.order,hreturned]
    show returnedChars log++[c]++queue++[]=returnedChars log++[c]++[]++queue
    rw [List.append_nil,List.append_nil]
  count := by
    rw [acceptedChars_snoc,releasedCount_snoc]
    show (acceptedChars log++[]).length=releasedCount log+queue.length
    rw [List.append_nil]
    exact h.count
  events := by
    refine logOk_snoc h.events (fun _ hd => by cases hd) (fun _ hd => by cases hd) ?_
    intro hd
    cases hd
    exact absurd rfl hc

/-- Waiting characters are not zero. -/
theorem ledger_waiting_ne_zero {log : List Note} {flight queue : List Byte} (h : Ledger log flight queue)
    {c : Byte} (hc : c∈queue) : c≠0 := by
  refine h.events.nonzero c ?_
  rw [h.order]
  exact List.mem_append_right _ hc

/-- The buffer with its indices. -/
def ring (k : Keyboard) : RingBuffer Byte := ⟨k.kbBuf,k.kbHead,k.kbTail⟩

/-- What a call has read so far is still true. -/
def CallOk (kbTail : ℕ) (log : List Note) (queue : List Byte) : Getchar→Prop
  | .entry => True
  | .headFirst head => (head=kbTail→ SawEmpty log) ∧ (head≠kbTail→ queue≠[])
  | .tailFirst tail => tail=kbTail
  | .nonempty => queue≠[]
  | .index tail => tail=kbTail ∧ queue≠[]
  | .char c => queue.head?=some c
  | .advance c tail => tail=kbTail ∧ queue.head?=some c
  | .done c => c=0→ SawEmpty log

/-- The character that the call has released and not yet returned. -/
def inFlight : Getchar→List Byte
  | .done c => if c=0 then [] else [c]
  | _ => []

/-- The buffer holds the characters that were accepted and not yet
released. -/
structure Queued (k : Keyboard) (call : Getchar) (queue : List Byte) : Prop where
  /-- The cells of the buffer. -/
  ring : Holds kbBufSz (ring k) queue
  /-- The log so far. -/
  log : Ledger k.log (inFlight call) queue
  /-- The call so far. -/
  call : CallOk k.kbTail k.log queue call

/-- Nothing waits at first. -/
theorem boot_queued (terminal : Terminal) : Queued (boot terminal).keyboard (boot terminal).call [] where
  ring := holds_nil (by decide : 0<128) rfl
  log := by
    refine ⟨rfl,rfl,⟨fun c hc => absurd hc List.not_mem_nil,?_,?_⟩⟩
    · intro before c after h
      exact absurd h.symm (List.append_ne_nil_of_right_ne_nil before (List.cons_ne_nil _ after))
    · intro before after h
      exact absurd h.symm (List.append_ne_nil_of_right_ne_nil before (List.cons_ne_nil _ after))
  call := trivial

/-- The handler's events do not disturb the call: its indices are still
current, and what waits is still in front. -/
theorem callOk_irq {kbTail : ℕ} {log : List Note} {queue : List Byte} {call : Getchar}
    (h : CallOk kbTail log queue call) (more : List Byte) {e : Note} (he : ∀ c,e≠.returned c) :
    CallOk kbTail (log++[e]) (queue++more) call := by
  have hne : queue≠[]→ queue++more≠[] := fun hq hnil => hq (List.append_eq_nil_iff.1 hnil).1
  have hfront : ∀ c,queue.head?=some c→(queue++more).head?=some c := by
    intro c hc
    rw [List.head?_append,hc]
    rfl
  cases call with
  | entry => trivial
  | headFirst head => exact ⟨fun hc => sawEmpty_snoc (h.1 hc) he,fun hc => hne (h.2 hc)⟩
  | tailFirst tail => exact h
  | nonempty => exact hne h
  | index tail => exact ⟨h.1,hne h.2⟩
  | char c => exact hfront c h
  | advance c tail => exact ⟨h.1,hfront c h.2⟩
  | done c => exact fun hc => sawEmpty_snoc (h hc) he

/-- The echo does not touch the queue. -/
theorem echo_queued {k : Keyboard} {call : Getchar} {queue : List Byte} (h : Queued k call queue)
    (c : Byte) : Queued (echo k c) call queue := by
  unfold echo
  by_cases hecho : c≠0x0A ∧ c≠0x08
  · rw [if_pos hecho]
    have hlog := ledger_still (e := .echoed c) h.log rfl rfl rfl (fun _ hd => by cases hd)
      (fun hd => by cases hd)
    have hcall := callOk_irq h.call [] (e := .echoed c) (fun _ hd => by cases hd)
    rw [List.append_nil] at hcall
    exact ⟨h.ring,hlog,hcall⟩
  · rw [if_neg hecho]
    exact h

/-- The handler's character is appended, unless the buffer is full. -/
theorem enqueue_queued {k : Keyboard} {call : Getchar} {queue : List Byte} (h : Queued k call queue)
    {c : Byte} (hc : c≠0) : ∃ queue',Queued (enqueue k c) call queue' := by
  unfold enqueue
  dsimp only
  by_cases hfree : (k.kbHead+1)%kbBufSz≠k.kbTail
  · have hring := holds_push h.ring hfree c
    have hcall := callOk_irq h.call [c] (e := .accepted c) (fun _ hd => by cases hd)
    rw [if_pos hfree]
    exact ⟨queue++[c],hring,ledger_accepted h.log hc,hcall⟩
  · have hfull : queue.length+1=kbBufSz := (holds_full_iff h.ring).1 (not_not.1 hfree)
    have hlog := ledger_still (e := .refused c) h.log rfl rfl rfl
      (fun _ _ => Nat.succ_injective hfull) (fun hd => by cases hd)
    have hcall := callOk_irq h.call [] (e := .refused c) (fun _ hd => by cases hd)
    rw [List.append_nil] at hcall
    rw [if_neg hfree]
    exact ⟨queue,h.ring,hlog,hcall⟩

/-- The handler only sets modifiers. -/
theorem modifiers_queued {k : Keyboard} {call : Getchar} {queue : List Byte} (h : Queued k call queue)
    (shift caps ctrl alt : Bool) (state : Word) :
    ∃ queue',Queued {k with
      shiftPressed := shift, capsLock := caps, ctrlPressed := ctrl, altPressed := alt,
      kbState := state} call queue' :=
  ⟨queue,h.ring,h.log,h.call⟩

/-- keyboard_irq keeps the queue wherever the call has come to. -/
theorem keyboardIrq_queued {k : Keyboard} {call : Getchar} {queue : List Byte} (h : Queued k call queue)
    (scancode : Byte) : ∃ queue',Queued (keyboardIrq k scancode) call queue' := by
  have hset := modifiers_queued h
  have hhandled := keyboardIrq_handled k scancode
  generalize keyboardIrq k scancode=k' at hhandled ⊢
  cases hhandled with
  | press _ => exact hset ..
  | release _ => exact hset ..
  | modifier caps ctrl alt state _ _ => exact hset ..
  | typed htypes => exact enqueue_queued (echo_queued h _) htypes.2
  | ignored _ _ _ => exact ⟨queue,h⟩

/-- Reading kb_head shows whether a character waits. -/
theorem headRead_queued {k : Keyboard} {call : Getchar} {queue : List Byte} (h : Queued k call queue)
    (hflight : inFlight call=[]) :
    Holds kbBufSz (ring (k.note .headRead)) queue ∧ Ledger (k.note .headRead).log [] queue ∧
      (k.kbHead=k.kbTail→ SawEmpty (k.note .headRead).log) ∧ (k.kbHead≠k.kbTail→ queue≠[]) := by
  have hempty := holds_empty_iff h.ring
  have hlog := ledger_still (e := .headRead) h.log rfl rfl rfl (fun _ hd => by cases hd)
    (fun hd => by cases hd)
  rw [hflight] at hlog
  refine ⟨h.ring,hlog,?_,fun hne hnil => hne (hempty.2 hnil)⟩
  intro heq
  have hcount := h.log.count
  rw [hempty.1 heq] at hcount
  exact sawEmpty_headRead hcount

/-- The comparison finds the buffer empty or a character waiting. -/
theorem compared_queued {k : Keyboard} {queue : List Byte} {head : ℕ} (hring : Holds kbBufSz (ring k) queue)
    (hlog : Ledger k.log [] queue) (hempty : head=k.kbTail→ SawEmpty k.log)
    (hwaits : head≠k.kbTail→ queue≠[]) : Queued k (compared head k.kbTail) queue := by
  unfold compared
  by_cases heq : head=k.kbTail
  · rw [if_pos heq]
    exact ⟨hring,hlog,fun _ => hempty heq⟩
  · rw [if_neg heq]
    exact ⟨hring,hlog,hwaits heq⟩

/-- Advancing kb_tail releases the character that was read. -/
theorem advance_queued {k : Keyboard} {queue : List Byte} {c : Byte}
    (h : Queued k (.advance c k.kbTail) queue) :
    ∃ queue',Queued ({k with kbTail := (k.kbTail+1)%kbBufSz}.note .released) (.done c) queue' := by
  obtain ⟨rest,rfl⟩ := List.head?_eq_some_iff.1 h.call.2
  have hc : c≠0 := ledger_waiting_ne_zero h.log List.mem_cons_self
  have hflight : inFlight (.done c)=[c] := if_neg hc
  have hlog := ledger_released h.log
  rw [←hflight] at hlog
  exact ⟨rest,holds_pop h.ring,hlog,fun hzero => absurd hzero hc⟩

/-- The call returns zero or the character it has released. -/
theorem done_queued {k : Keyboard} {queue : List Byte} {c : Byte} (h : Queued k (.done c) queue) :
    Queued (k.note (.returned c)) .entry queue := by
  by_cases hc : c=0
  · subst hc
    have hlog := ledger_still (e := .returned 0) h.log rfl rfl rfl (fun _ hd => by cases hd)
      (fun _ => h.call rfl)
    exact ⟨h.ring,hlog,trivial⟩
  · have hflight : inFlight (.done c)=[c] := if_neg hc
    have hlog := h.log
    rw [hflight] at hlog
    exact ⟨h.ring,ledger_returned hlog hc,trivial⟩

/-- Every access of keyboard_getchar keeps the queue. -/
theorem getcharStep_queued {k : Keyboard} {call : Getchar} {queue : List Byte} (h : Queued k call queue)
    (readHead : Bool) :
    ∃ queue',Queued (getcharStep readHead k call).1 (getcharStep readHead k call).2 queue' := by
  cases call with
  | entry =>
    cases readHead with
    | false => exact ⟨queue,h.ring,h.log,rfl⟩
    | true =>
      obtain ⟨hring,hlog,hempty,hwaits⟩ := headRead_queued h rfl
      exact ⟨queue,hring,hlog,hempty,hwaits⟩
  | headFirst head => exact ⟨queue,compared_queued h.ring h.log h.call.1 h.call.2⟩
  | tailFirst tail =>
    obtain rfl : tail=k.kbTail := h.call
    obtain ⟨hring,hlog,hempty,hwaits⟩ := headRead_queued h rfl
    exact ⟨queue,compared_queued hring hlog hempty hwaits⟩
  | nonempty => exact ⟨queue,h.ring,h.log,rfl,h.call⟩
  | index tail =>
    obtain ⟨rfl,hne⟩ := h.call
    obtain ⟨c,rest,rfl⟩ := List.exists_cons_of_ne_nil hne
    exact ⟨c::rest,h.ring,h.log,congrArg some (holds_front h.ring).symm⟩
  | char c => exact ⟨queue,h.ring,h.log,rfl,h.call⟩
  | advance c tail =>
    obtain rfl : tail=k.kbTail := h.call.1
    exact advance_queued h
  | done c => exact ⟨queue,done_queued h⟩

/-- Every event keeps the queue. -/
theorem step_queued {s : System} {queue : List Byte} (h : Queued s.keyboard s.call queue) (e : Event) :
    ∃ queue',Queued (s.step e).keyboard (s.step e).call queue' := by
  cases e with
  | irq scancode => exact keyboardIrq_queued h scancode
  | getchar readHead => exact getcharStep_queued h readHead

/-- Every run keeps the queue. -/
theorem run_queued (events : List Event) {s : System} {queue : List Byte}
    (h : Queued s.keyboard s.call queue) :
    ∃ queue',Queued (s.run events).keyboard (s.run events).call queue' := by
  induction events generalizing s queue with
  | nil => exact ⟨queue,h⟩
  | cons e events ih =>
    obtain ⟨queue',h'⟩ := step_queued h e
    exact ih h'

/-- The comparison of a call that is not interrupted. -/
theorem compare_uninterrupted (k : Keyboard) (readHead : Bool) :
    System.run ⟨k,.entry⟩ (List.replicate 2 (.getchar readHead))=
      ⟨k.note .headRead,compared k.kbHead k.kbTail⟩ := by
  cases readHead with
  | false => rfl
  | true => rfl

/-- A call that is not interrupted returns what keyboard_getchar returns, and
leaves the buffer as it does. -/
theorem getchar_uninterrupted (k : Keyboard) (readHead : Bool) :
    ∃ n log,System.run ⟨k,.entry⟩ (List.replicate n (.getchar readHead))=
      ⟨{(keyboardGetchar k).2 with log := log++[.returned (keyboardGetchar k).1]},.entry⟩ := by
  have hfrom : ∀ m,System.run ⟨k,.entry⟩ (List.replicate (2+m) (.getchar readHead))=
      System.run ⟨k.note .headRead,compared k.kbHead k.kbTail⟩ (List.replicate m (.getchar readHead)) := by
    intro m
    rw [←compare_uninterrupted k readHead]
    unfold System.run
    rw [List.replicate_add,List.foldl_append]
  unfold keyboardGetchar
  by_cases heq : k.kbHead=k.kbTail
  · refine ⟨2+1,(k.note .headRead).log,?_⟩
    have hdone : compared k.kbHead k.kbTail=.done 0 := if_pos heq
    rw [hfrom,hdone,if_pos heq]
    rfl
  · refine ⟨2+5,((k.note .headRead).note .released).log,?_⟩
    have hwaits : compared k.kbHead k.kbTail=.nonempty := if_neg heq
    rw [hfrom,hwaits,if_neg heq]
    rfl

/-- Whenever keyboard_irq runs between the accesses of keyboard_getchar, the
characters returned are the first of those accepted, in order; a character is
only refused when 127 accepted characters were not yet released; and zero is
only returned by a call that has read kb_head when every accepted character
was released. -/
theorem keyboard_is_fifo (terminal : Terminal) (events : List Event) :
    let log := ((boot terminal).run events).keyboard.log
    returnedChars log<+:acceptedChars log ∧
      (∀ before c after,log=before++.refused c::after→
        (acceptedChars before).length=releasedCount before+127) ∧
      ∀ before after,log=before++.returned 0::after→
        ∃ earlier between,before=earlier++.headRead::between ∧ (∀ c,.returned c∉between) ∧
          (acceptedChars earlier).length=releasedCount earlier := by
  intro log
  obtain ⟨queue,h⟩ := run_queued events (boot_queued terminal)
  have horder := h.log.order
  rw [List.append_assoc] at horder
  exact ⟨⟨_,horder.symm⟩,h.log.events.refused,h.log.events.zero⟩

end EronKernel.KeyboardFifo

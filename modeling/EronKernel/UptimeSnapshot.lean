import EronKernel.DecimalPrinters
import EronKernel.TimerModel

/-!
# The three reads of the uptime command

prog_uptime reads the hours, the minutes and the seconds of the clock one
after the other, and timer interrupts fall in between. A run is a list of
events: ticks and steps of the program. The clock at every moment from the
first read to the last is kept beside the program, so that what is printed can
be compared with it. The printed time is one of these moments exactly when the
later reads did not roll over under the earlier ones.
-/

namespace EronKernel.UptimeSnapshot

open ByteMemory CString ProcFiles TtyModel DecimalPrinters TimerModel

/-- A number below ten is printed behind a zero. -/
def printPadded (tmp buf : Row 12) (val : Word) (t : Terminal) : Option Terminal :=
  printNum tmp buf val (if val<10 then terminalWritestring t (.lit "0") else t)

/-- What prog_uptime prints of its three locals. -/
def printUptime (tmp buf : Row 12) (h m s : Word) (t : Terminal) : Option Terminal :=
  (printNum tmp buf h (terminalWritestring t (.lit "\nup "))).bind fun t =>
    (printPadded tmp buf m (terminalWritestring t (.lit ":"))).bind fun t =>
      printPadded tmp buf s (terminalWritestring t (.lit ":"))

/-- How far prog_uptime has come, with the locals it has read. -/
inductive Progress where
  /-- In front of the read of the hours. -/
  | hours
  /-- In front of the read of the minutes. -/
  | minutes (h : Word)
  /-- In front of the read of the seconds. -/
  | seconds (h m : Word)
  /-- The time was printed. -/
  | printed (h m s : Word)
  /-- The printer left its buffers. -/
  | overrun
  deriving DecidableEq

/-- What can happen next. -/
inductive Event where
  /-- A timer interrupt. -/
  | tick
  /-- The next read of prog_uptime; the last one is followed by the output. -/
  | step
  deriving DecidableEq

/-- The clock, the program and what it was written to. -/
structure System where
  /-- The timer. -/
  timer : Timer
  /-- The program. -/
  progress : Progress
  /-- The terminal. -/
  terminal : Terminal
  /-- The clock at the moments from the first read on, up to the last. -/
  seen : List Word

/-- The first read was made and the last one was not. -/
def Progress.reading : Progress→Bool
  | .minutes _ => true
  | .seconds _ _ => true
  | _ => false

/-- The next read, and the output behind the last one. -/
def System.read (tmp buf : Row 12) (s : System) : System :=
  match s.progress with
  | .hours =>
    {s with progress := .minutes (timerUptimeHours s.timer), seen := [timerSeconds s.timer]}
  | .minutes h => {s with progress := .seconds h (timerUptimeMinutes s.timer)}
  | .seconds h m =>
    let sec := timerUptimeSeconds s.timer
    match printUptime tmp buf h m sec s.terminal with
    | some terminal => {s with progress := .printed h m sec, terminal := terminal}
    | none => {s with progress := .overrun}
  | _ => s

/-- A timer interrupt. -/
def System.tick (s : System) : System :=
  {s with
    timer := s.timer.tick
    seen := if s.progress.reading then s.seen++[timerSeconds s.timer.tick] else s.seen}

/-- One event. -/
def System.step (tmp buf : Row 12) (s : System) : Event→System
  | .tick => s.tick
  | .step => s.read tmp buf

/-- A run. -/
def System.run (tmp buf : Row 12) (s : System) (events : List Event) : System :=
  events.foldl (System.step tmp buf) s

/-- prog_uptime is called. -/
def called (timer : Timer) (terminal : Terminal) : System := ⟨timer,.hours,terminal,[]⟩

/-- The timer at the steps of the program. -/
def reads : Timer→List Event→List Timer
  | _,[] => []
  | t,.tick::events => reads t.tick events
  | t,.step::events => t::reads t events

/-- What is printed is the clock at one of the moments of the reads. -/
def Consistent (s : System) : Prop :=
  ∀ h m sec,s.progress=.printed h m sec→
    ∃ v∈s.seen,v.toNat=3600*h.toNat+60*m.toNat+sec.toNat

/-- The minute of the hour grew up to the second read, or it stayed and the
second of the minute did not fall up to the third. -/
def Steady : List Timer→Prop
  | a::b::c::_ =>
    timerUptimeMinutes a<timerUptimeMinutes b ∨
      (timerUptimeMinutes a=timerUptimeMinutes b ∧ timerUptimeSeconds a≤timerUptimeSeconds c)
  | _ => True

/-- The text of a number below a hundred. -/
def padded (val : Word) : List Byte := (if val<10 then [0x30] else [])++decimal val.toNat

/-- The text that prog_uptime prints. -/
def uptimeText (h m s : Word) : List Byte :=
  ascii "\nup "++decimal h.toNat++ascii ":"++padded m++ascii ":"++padded s

/-- A text is written in pieces. -/
theorem foldl_terminalPutchar_lit (t : Terminal) {text : String} (h0 : (0 : Byte)∉ascii text) :
    terminalWritestring t (.lit text)=(ascii text).foldl terminalPutchar t := by
  unfold terminalWritestring CStr.lit
  rw [CStr.ofBytes_bytes h0]

/-- A padded number is printed whole. -/
theorem printPadded_eq (tmp buf : Row 12) (val : Word) (t : Terminal) :
    printPadded tmp buf val t=some ((padded val).foldl terminalPutchar t) := by
  unfold printPadded padded
  rw [printNum_eq,List.foldl_append]
  split_ifs
  · rfl
  · rfl

/-- prog_uptime prints its three locals and stays inside its buffers. -/
theorem printUptime_eq (tmp buf : Row 12) (h m s : Word) (t : Terminal) :
    printUptime tmp buf h m s t=some ((uptimeText h m s).foldl terminalPutchar t) := by
  unfold printUptime uptimeText
  rw [printNum_eq,Option.bind_some,printPadded_eq,Option.bind_some,printPadded_eq,
    foldl_terminalPutchar_lit _ (by decide),foldl_terminalPutchar_lit _ (by decide),
    foldl_terminalPutchar_lit _ (by decide)]
  simp only [List.foldl_append]
  rfl

/-- The first read begins the window. -/
theorem read_hours (tmp buf : Row 12) {s : System} (hs : s.progress=.hours) :
    s.read tmp buf=
      {s with progress := .minutes (timerUptimeHours s.timer), seen := [timerSeconds s.timer]} := by
  unfold System.read
  rw [hs]

/-- The second read keeps the hour of the first. -/
theorem read_minutes (tmp buf : Row 12) {s : System} {h : Word} (hs : s.progress=.minutes h) :
    s.read tmp buf={s with progress := .seconds h (timerUptimeMinutes s.timer)} := by
  unfold System.read
  rw [hs]

/-- The third read of the clock always prints. -/
theorem read_seconds (tmp buf : Row 12) {s : System} {h m : Word} (hs : s.progress=.seconds h m) :
    s.read tmp buf=
      {s with
        progress := .printed h m (timerUptimeSeconds s.timer)
        terminal := (uptimeText h m (timerUptimeSeconds s.timer)).foldl terminalPutchar s.terminal} := by
  unfold System.read
  rw [hs]
  dsimp only
  rw [printUptime_eq]

/-- The counter does not wrap during a run. -/
def Fits (t : Timer) (events : List Event) : Prop := t.ticks.toNat+events.count .tick<2^32

/-- A run that starts with a tick. -/
theorem Fits.tick {t : Timer} {events : List Event} (h : Fits t (.tick::events)) :
    t.ticks.toNat+1<2^32 ∧ Fits t.tick events := by
  unfold Fits at h ⊢
  rw [List.count_cons_self] at h
  have hone : t.ticks.toNat+1<2^32 := by omega
  rw [toNat_tick hone]
  exact ⟨hone,by omega⟩

/-- A run that starts with a step of the program. -/
theorem Fits.step {t : Timer} {events : List Event} (h : Fits t (.step::events)) : Fits t events := by
  unfold Fits at h ⊢
  rwa [List.count_cons_of_ne (by decide)] at h

/-- The moments that were seen are all from the first to the present one. -/
structure Window (first : Word) (now : Timer) (seen : List Word) : Prop where
  /-- The clock did not go back. -/
  le : first.toNat ≤ (timerSeconds now).toNat
  /-- No moment was left out. -/
  mem : ∀ v : Word,v∈seen ↔ first.toNat ≤ v.toNat ∧ v.toNat ≤ (timerSeconds now).toNat

/-- The first moment. -/
theorem window_first (t : Timer) : Window (timerSeconds t) t [timerSeconds t] where
  le := Nat.le_refl _
  mem v := by
    rw [List.mem_singleton,←Nat.eq_iff_le_and_ge,eq_comm]
    exact BitVec.toNat_inj.symm

/-- The clock skips no second. -/
theorem Window.tick {first : Word} {now : Timer} {seen : List Word} (h : Window first now seen)
    (hfit : now.ticks.toNat+1<2^32) : Window first now.tick (seen++[timerSeconds now.tick]) := by
  have hle := h.le
  have hstep := timerSeconds_tick hfit
  constructor
  · omega
  · intro v
    rw [List.mem_append,List.mem_singleton,h.mem,←BitVec.toNat_inj]
    omega

/-- A tick between two reads is seen. -/
theorem Window.tick_of_reading {first : Word} {s : System} (h : Window first s.timer s.seen)
    (hs : s.progress.reading=true) (hfit : s.timer.ticks.toNat+1<2^32) :
    Window first s.tick.timer s.tick.seen := by
  have hseen : s.tick.seen=s.seen++[timerSeconds s.timer.tick] := if_pos hs
  rw [hseen]
  exact h.tick hfit

/-- Nothing happens to the output once it is there. -/
theorem run_printed (tmp buf : Row 12) {h m sec : Word} (events : List Event) :
    ∀ {s : System},s.progress=.printed h m sec→
      (s.run tmp buf events).progress=.printed h m sec ∧ (s.run tmp buf events).seen=s.seen ∧
        (s.run tmp buf events).terminal=s.terminal := by
  induction events with
  | nil =>
    intro s hs
    exact ⟨hs,rfl,rfl⟩
  | cons e events ih =>
    intro s hs
    have hstep : (s.step tmp buf e).progress=.printed h m sec ∧ (s.step tmp buf e).seen=s.seen ∧
        (s.step tmp buf e).terminal=s.terminal := by
      cases e with
      | tick =>
        refine ⟨hs,?_,rfl⟩
        change (if s.progress.reading then _ else s.seen)=s.seen
        rw [hs]
        rfl
      | step =>
        change (s.read tmp buf).progress=_ ∧ (s.read tmp buf).seen=_ ∧ (s.read tmp buf).terminal=_
        unfold System.read
        rw [hs]
        exact ⟨hs,rfl,rfl⟩
    obtain ⟨hp,hseen,hterm⟩ := ih hstep.1
    exact ⟨hp,hseen.trans hstep.2.1,hterm.trans hstep.2.2⟩

/-- A run from the last read: it is not reached, or it is made at a later
state of the timer and the output follows. -/
theorem run_seconds (tmp buf : Row 12) {h m first : Word} (events : List Event) :
    ∀ {s : System},s.progress=.seconds h m→Window first s.timer s.seen→Fits s.timer events→
      (reads s.timer events=[] ∧ (s.run tmp buf events).progress=.seconds h m) ∨
        ∃ c rest,reads s.timer events=c::rest ∧ Later s.timer c ∧
          Window first c (s.run tmp buf events).seen ∧
          (s.run tmp buf events).progress=.printed h m (timerUptimeSeconds c) ∧
          (s.run tmp buf events).terminal=
            (uptimeText h m (timerUptimeSeconds c)).foldl terminalPutchar s.terminal := by
  induction events with
  | nil =>
    intro s hs _ _
    exact Or.inl ⟨rfl,hs⟩
  | cons e events ih =>
    intro s hs hw hfit
    cases e with
    | tick =>
      obtain ⟨hone,hrest⟩ := hfit.tick
      have hw' : Window first s.tick.timer s.tick.seen := hw.tick_of_reading (by rw [hs]; rfl) hone
      obtain hnone|⟨c,rest,hr,hlater,hout⟩ := ih (s:=s.tick) hs hw' hrest
      · exact Or.inl hnone
      · exact Or.inr ⟨c,rest,hr,(later_tick hone).trans hlater,hout⟩
    | step =>
      have hread := read_seconds tmp buf hs
      obtain ⟨hp,hseen,hterm⟩ := run_printed tmp buf events (s:=s.read tmp buf)
        (by rw [hread])
      refine Or.inr ⟨s.timer,_,rfl,Later.refl _,?_,hp,?_⟩
      · change Window first s.timer ((s.read tmp buf).run tmp buf events).seen
        rw [hseen,hread]
        exact hw
      · change ((s.read tmp buf).run tmp buf events).terminal=_
        rw [hterm,hread]

/-- A run from the second read. -/
theorem run_minutes (tmp buf : Row 12) {h first : Word} (events : List Event) :
    ∀ {s : System},s.progress=.minutes h→Window first s.timer s.seen→Fits s.timer events→
      ((reads s.timer events).length<2 ∧ ∀ h m sec,(s.run tmp buf events).progress≠.printed h m sec) ∨
        ∃ b c rest,reads s.timer events=b::c::rest ∧ Later s.timer b ∧ Later b c ∧
          Window first c (s.run tmp buf events).seen ∧
          (s.run tmp buf events).progress=.printed h (timerUptimeMinutes b) (timerUptimeSeconds c) ∧
          (s.run tmp buf events).terminal=
            (uptimeText h (timerUptimeMinutes b) (timerUptimeSeconds c)).foldl terminalPutchar
              s.terminal := by
  induction events with
  | nil =>
    intro s hs _ _
    refine Or.inl ⟨Nat.zero_lt_two,fun h' m sec hp => ?_⟩
    cases hs.symm.trans hp
  | cons e events ih =>
    intro s hs hw hfit
    cases e with
    | tick =>
      obtain ⟨hone,hrest⟩ := hfit.tick
      have hw' : Window first s.tick.timer s.tick.seen := hw.tick_of_reading (by rw [hs]; rfl) hone
      obtain hnone|⟨b,c,rest,hr,hlater,hout⟩ := ih (s:=s.tick) hs hw' hrest
      · exact Or.inl hnone
      · exact Or.inr ⟨b,c,rest,hr,(later_tick hone).trans hlater,hout⟩
    | step =>
      have hrun : s.run tmp buf (.step::events)=
          System.run tmp buf {s with progress := .seconds h (timerUptimeMinutes s.timer)} events :=
        congrArg (fun t => System.run tmp buf t events) (read_minutes tmp buf hs)
      rw [hrun]
      obtain ⟨hnone,hp⟩|⟨c,rest,hr,hlater,hout⟩ := run_seconds tmp buf events
        (s:={s with progress := .seconds h (timerUptimeMinutes s.timer)}) rfl hw hfit.step
      · refine Or.inl ⟨?_,fun h' m sec hp' => ?_⟩
        · change (s.timer::reads s.timer events).length<2
          rw [show reads s.timer events=[] from hnone]
          exact Nat.one_lt_two
        · cases hp.symm.trans hp'
      · exact Or.inr ⟨s.timer,c,rest,congrArg (s.timer::·) hr,Later.refl _,hlater,hout⟩

/-- A run of the whole command. -/
theorem run_hours (tmp buf : Row 12) (events : List Event) :
    ∀ {s : System},s.progress=.hours→Fits s.timer events→
      ((reads s.timer events).length<3 ∧ ∀ h m sec,(s.run tmp buf events).progress≠.printed h m sec) ∨
        ∃ a b c rest,reads s.timer events=a::b::c::rest ∧ Later a b ∧ Later b c ∧
          Window (timerSeconds a) c (s.run tmp buf events).seen ∧
          (s.run tmp buf events).progress=
            .printed (timerUptimeHours a) (timerUptimeMinutes b) (timerUptimeSeconds c) ∧
          (s.run tmp buf events).terminal=
            (uptimeText (timerUptimeHours a) (timerUptimeMinutes b) (timerUptimeSeconds c)).foldl
              terminalPutchar s.terminal := by
  induction events with
  | nil =>
    intro s hs _
    refine Or.inl ⟨Nat.zero_lt_succ 2,fun h' m sec hp => ?_⟩
    cases hs.symm.trans hp
  | cons e events ih =>
    intro s hs hfit
    cases e with
    | tick => exact ih (s:=s.tick) hs hfit.tick.2
    | step =>
      have hrun : s.run tmp buf (.step::events)=System.run tmp buf {s with
          progress := .minutes (timerUptimeHours s.timer), seen := [timerSeconds s.timer]} events :=
        congrArg (fun t => System.run tmp buf t events) (read_hours tmp buf hs)
      rw [hrun]
      obtain ⟨hfew,hp⟩|⟨b,c,rest,hr,hlater,hout⟩ := run_minutes tmp buf events
        (s:={s with progress := .minutes (timerUptimeHours s.timer), seen := [timerSeconds s.timer]})
        rfl (window_first s.timer) hfit.step
      · exact Or.inl ⟨Nat.succ_lt_succ hfew,hp⟩
      · exact Or.inr ⟨s.timer,b,c,rest,congrArg (s.timer::·) hr,hlater,hout⟩

/-- Fewer than three reads are steady. -/
theorem steady_of_length {ts : List Timer} (h : ts.length<3) : Steady ts := by
  match ts,h with
  | [],_ => trivial
  | [_],_ => trivial
  | [_,_],_ => trivial

/-- What is printed never lies behind the last read; it lies at or behind the
first one exactly when no later field rolled over alone. -/
theorem printed_window {a b c : Timer} (hab : Later a b) (hbc : Later b c) :
    let printed := 3600*(timerUptimeHours a).toNat+60*(timerUptimeMinutes b).toNat+
      (timerUptimeSeconds c).toNat
    printed ≤ (timerSeconds c).toNat ∧
      ((timerSeconds a).toNat ≤ printed ↔
        (timerUptimeMinutes a<timerUptimeMinutes b ∨
          (timerUptimeMinutes a=timerUptimeMinutes b ∧ timerUptimeSeconds a≤timerUptimeSeconds c))) := by
  have h₁ := hab.seconds_le
  have h₂ := hbc.seconds_le
  dsimp only
  rw [BitVec.lt_def,BitVec.le_def,←BitVec.toNat_inj,toNat_timerUptimeHours,toNat_timerUptimeMinutes,
    toNat_timerUptimeMinutes,toNat_timerUptimeSeconds,toNat_timerUptimeSeconds]
  omega

/-- For every start of the clock and every placement of timer interrupts, what
prog_uptime prints is the clock at some moment of its reads exactly when the
minute of the hour went up between the first two reads, or stayed and the
second of the minute did not go down up to the third. -/
theorem uptime_snapshot_iff (tmp buf : Row 12) (timer : Timer) (terminal : Terminal)
    (events : List Event) (hfit : Fits timer events) :
    Consistent ((called timer terminal).run tmp buf events) ↔ Steady (reads timer events) := by
  obtain ⟨hfew,hp⟩|⟨a,b,c,rest,hr,hab,hbc,hw,hp,_⟩ :=
    run_hours tmp buf events (s:=called timer terminal) rfl hfit
  · exact iff_of_true (fun h m sec hdone => absurd hdone (hp h m sec)) (steady_of_length hfew)
  · obtain ⟨hle,hiff⟩ := printed_window hab hbc
    have hr' : reads timer events=a::b::c::rest := hr
    rw [hr']
    refine Iff.trans ?_ hiff
    constructor
    · intro hcons
      obtain ⟨v,hv,heq⟩ := hcons _ _ _ hp
      rw [←heq]
      exact ((hw.mem v).mp hv).1
    · intro hge h m sec hdone
      obtain ⟨rfl,rfl,rfl⟩ := Progress.printed.inj (hp.symm.trans hdone)
      have hlt := Nat.lt_of_le_of_lt hle (timerSeconds c).isLt
      have hval : (BitVec.ofNat 32 (3600*(timerUptimeHours a).toNat+60*(timerUptimeMinutes b).toNat+
          (timerUptimeSeconds c).toNat)).toNat=
          3600*(timerUptimeHours a).toNat+60*(timerUptimeMinutes b).toNat+
            (timerUptimeSeconds c).toNat := by
        rw [BitVec.toNat_ofNat,Nat.mod_eq_of_lt hlt]
      refine ⟨_,(hw.mem _).mpr ?_,hval⟩
      rw [hval]
      exact ⟨hge,hle⟩

/-- A timer at the given number of ticks, a hundred of them per second. -/
def hundredHertz (ticks : Word) : Timer := ⟨ticks,100⟩

/-- An empty screen. -/
def emptyScreen : Terminal := ⟨0,0,0,fun _ => 0,[]⟩

/-- A run whose minute goes up between the first two reads. -/
theorem uptime_snapshot_minute :
    let events := [.step,.tick,.step,.step]
    Fits (hundredHertz 5999) events ∧
      (Consistent ((called (hundredHertz 5999) emptyScreen).run (fun _ => 0) (fun _ => 0) events) ↔
        Steady (reads (hundredHertz 5999) events)) := by
  have hfit : Fits (hundredHertz 5999) [.step,.tick,.step,.step] := by
    unfold Fits
    decide
  exact ⟨hfit,uptime_snapshot_iff _ _ _ _ _ hfit⟩

/-- One tick between the first two reads at the end of an hour: the command
prints 0:00:00 while the clock goes from 3599 to 3600. -/
theorem uptime_snapshot_torn :
    ¬∀ (tmp buf : Row 12) (timer : Timer) (terminal : Terminal) (events : List Event),
      Fits timer events→ Consistent ((called timer terminal).run tmp buf events) := by
  intro h
  have hfit : Fits (hundredHertz 359999) [.step,.tick,.step,.step] := by
    unfold Fits
    decide
  have hcons := h (fun _ => 0) (fun _ => 0) _ emptyScreen _ hfit
  obtain ⟨hfew,_⟩|⟨a,b,c,rest,hr,_,_,hw,hp,_⟩ := run_hours (fun _ => 0) (fun _ => 0)
    [.step,.tick,.step,.step] (s:=called (hundredHertz 359999) emptyScreen) rfl hfit
  · exact absurd hfew (by decide)
  · cases hr
    obtain ⟨v,hv,heq⟩ := hcons _ _ _ hp
    have hge := ((hw.mem v).mp hv).1
    rw [heq] at hge
    exact absurd hge (by decide)

/-- The text on the terminal is that of the printed fields. -/
theorem uptime_printed (tmp buf : Row 12) (timer : Timer) (terminal : Terminal) (events : List Event)
    (hfit : Fits timer events) {h m sec : Word}
    (hdone : ((called timer terminal).run tmp buf events).progress=.printed h m sec) :
    ((called timer terminal).run tmp buf events).terminal=
      (uptimeText h m sec).foldl terminalPutchar terminal := by
  obtain ⟨_,hp⟩|⟨a,b,c,rest,_,_,_,_,hp,hterm⟩ :=
    run_hours tmp buf events (s:=called timer terminal) rfl hfit
  · exact absurd hdone (hp h m sec)
  · obtain ⟨rfl,rfl,rfl⟩ := Progress.printed.inj (hp.symm.trans hdone)
    exact hterm

end EronKernel.UptimeSnapshot

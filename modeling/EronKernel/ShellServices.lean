import EronKernel.EventTrace
import EronKernel.ShellReports

/-!
# The service manager of shell.c

prog_service keeps a static table of four services, each with two flags, and
prints it. A command sets one flag of one service or nothing; the table after
any commands has for every flag the value of the last command that set it, and
the printed status shows these values.
-/

namespace EronKernel.ShellServices

open ByteMemory CString EventTrace TtyModel VfsModel ShellReports

/-- struct service_entry. -/
@[ext] structure ServiceEntry where
  /-- The name. -/
  name : CStr
  /-- The description. -/
  description : CStr
  /-- Whether it is started at boot. -/
  enabled : Byte
  /-- Whether it runs. -/
  running : Byte
  deriving DecidableEq

/-- The table. -/
abbrev Services := Fin 4→ServiceEntry

/-- The table before the first command. -/
def services : Services :=
  ![⟨.lit "netd",.lit "network bootstrap daemon",1,0⟩,⟨.lit "sshd",.lit "remote shell daemon",0,0⟩,
    ⟨.lit "audiod",.lit "audio mixer daemon",0,0⟩,⟨.lit "guid",.lit "graphical session daemon",0,0⟩]

/-- service_find. -/
def serviceFind (t : Services) (name : CStr) : Option (Fin 4) :=
  (List.finRange 4).find? fun i => vfsStrcmp (t i).name.bytes name.bytes==0

/-- service_print_status. -/
def servicePrintStatus (svc : ServiceEntry) : List TtyOp :=
  [str " ",.writestring svc.name,str "  ",str (if svc.running≠0 then "running" else "stopped"),str "  ",
    str (if svc.enabled≠0 then "enabled" else "disabled"),str "  ",.writestring svc.description,str "\n"]

/-- The assignment that prog_service makes for an action. -/
def applyAction (svc : ServiceEntry) (action : CStr) : Option ServiceEntry :=
  if action=.lit "start" then some {svc with running := 1}
  else if action=.lit "stop" then some {svc with running := 0}
  else if action=.lit "enable" then some {svc with enabled := 1}
  else if action=.lit "disable" then some {svc with enabled := 0}
  else none

/-- The table as prog_service prints it. -/
def statusTable (t : Services) : List TtyOp :=
  str "\nSERVICE   STATE    BOOT      DESCRIPTION\n"::
    (List.finRange 4).flatMap fun i => servicePrintStatus (t i)

/-- prog_service behind the test of its first argument. -/
def changeService (t : Services) (action : CStr) : List CStr→Services×ℤ×List TtyOp
  | [] => (t,1,[str "\nservice: usage: service <start|stop|enable|disable|status> <name>"])
  | name::_ => match serviceFind t name with
    | none => (t,1,[str "\nservice: unknown service"])
    | some i => match applyAction (t i) action with
      | none => (t,1,[str "\nservice: invalid action"])
      | some svc => (Function.update t i svc,0,str "\n"::servicePrintStatus svc)

/-- prog_service. -/
def progService (t : Services) : List CStr→Services×ℤ×List TtyOp
  | _::action::args =>
    if action=.lit "status" then (t,0,statusTable t) else changeService t action args
  | _ => (t,0,statusTable t)

/-- The table after commands one after the other. -/
def runServices (t : Services) (argvs : List (List CStr)) : Services :=
  argvs.foldl (fun t argv => (progService t argv).1) t

/-- Names and descriptions are those of the source. -/
def Named (t : Services) : Prop :=
  ∀ i,(t i).name=(services i).name ∧ (t i).description=(services i).description

/-- The service that a name stands for. -/
def serviceOf (name : CStr) : Option (Fin 4) := (List.finRange 4).find? fun i => (services i).name==name

/-- The service, the action and the name of a command that is not a request
for the status. -/
def commandOf : List CStr→Option (Fin 4×CStr)
  | _::action::name::_ => if action=.lit "status" then none else (serviceOf name).map fun i => (i,action)
  | _ => none

/-- The value that a command gives to a flag: that of the first action sets
it, that of the second one clears it. -/
def setsFlag (set clear : String) (i : Fin 4) (argv : List CStr) : Option Byte :=
  match commandOf argv with
  | none => none
  | some (j,action) =>
    if j=i then if action=.lit set then some 1 else if action=.lit clear then some 0 else none else none

/-- While names are kept, service_find finds what the name stands for. -/
theorem serviceFind_eq {t : Services} (h : Named t) (name : CStr) : serviceFind t name=serviceOf name := by
  unfold serviceFind serviceOf
  congr 1
  funext i
  rw [(h i).1,Bool.eq_iff_iff,beq_iff_eq,beq_iff_eq,
    vfsStrcmp_eq_zero_iff (services i).name.nonzero name.nonzero,CStr.ext_iff]

/-- What a command does to the table. -/
theorem progService_table {t : Services} (h : Named t) (argv : List CStr) :
    (progService t argv).1=match commandOf argv with
      | none => t
      | some (i,action) => Function.update t i ((applyAction (t i) action).getD (t i)) := by
  match argv with
  | [] | [_] => rfl
  | [_,action] =>
    unfold progService commandOf
    dsimp only
    split_ifs <;> rfl
  | _::action::name::args =>
    unfold progService commandOf
    dsimp only
    split_ifs with hstatus
    · rfl
    · rw [changeService,serviceFind_eq h]
      cases serviceOf name with
      | none => rfl
      | some i =>
        dsimp only [Option.map_some]
        cases applyAction (t i) action with
        | none => exact (Function.update_eq_self i t).symm
        | some svc => rfl

/-- An action leaves name and description alone. -/
theorem applyAction_names {svc new : ServiceEntry} {action : CStr} (h : applyAction svc action=some new) :
    new.name=svc.name ∧ new.description=svc.description := by
  unfold applyAction at h
  split_ifs at h <;> cases h <;> exact ⟨rfl,rfl⟩

/-- A command keeps the names. -/
theorem Named.command {t : Services} (h : Named t) (argv : List CStr) : Named (progService t argv).1 := by
  rw [progService_table h]
  cases commandOf argv with
  | none => exact h
  | some c =>
    intro j
    dsimp only
    by_cases hj : j=c.1
    · subst hj
      rw [Function.update_self]
      cases ha : applyAction (t c.1) c.2 with
      | none => exact h c.1
      | some new => exact ⟨(applyAction_names ha).1.trans (h c.1).1,(applyAction_names ha).2.trans (h c.1).2⟩
    · rw [Function.update_of_ne hj]
      exact h j

/-- A flag after an action. -/
theorem applyAction_running (svc : ServiceEntry) (action : CStr) :
    ((applyAction svc action).getD svc).running=
      (if action=.lit "start" then some 1 else if action=.lit "stop" then some 0 else none).getD svc.running := by
  unfold applyAction
  split_ifs <;> rfl

/-- The other flag after an action. -/
theorem applyAction_enabled (svc : ServiceEntry) (action : CStr) :
    ((applyAction svc action).getD svc).enabled=
      (if action=.lit "enable" then some 1 else if action=.lit "disable" then some 0 else none).getD
        svc.enabled := by
  have hdistinct : CStr.lit "start"≠.lit "enable" ∧ CStr.lit "start"≠.lit "disable" ∧
      CStr.lit "stop"≠.lit "enable" ∧ CStr.lit "stop"≠.lit "disable" := by decide +kernel
  unfold applyAction
  split_ifs <;> first | rfl | (subst action; exact absurd ‹_› (by tauto))

/-- What a command does to a flag that every action either sets or keeps. -/
theorem progService_flag {flag : ServiceEntry→Byte} {set clear : String}
    (haction : ∀ svc action,flag ((applyAction svc action).getD svc)=
      (if action=.lit set then some 1 else if action=.lit clear then some 0 else none).getD (flag svc))
    {t : Services} (h : Named t) (i : Fin 4) (argv : List CStr) :
    flag ((progService t argv).1 i)=(setsFlag set clear i argv).getD (flag (t i)) := by
  rw [progService_table h]
  unfold setsFlag
  cases commandOf argv with
  | none => rfl
  | some c =>
    dsimp only
    by_cases hi : c.1=i
    · rw [if_pos hi,←hi,Function.update_self]
      exact haction (t c.1) c.2
    · rw [if_neg hi,Function.update_of_ne (Ne.symm hi)]
      rfl

/-- The names of the source. -/
theorem services_named : Named services := fun _ => ⟨rfl,rfl⟩

/-- The table as the last commands for each flag left it. -/
def settled (argvs : List (List CStr)) : Services := fun i =>
  {services i with
    enabled := (lastSet (setsFlag "enable" "disable" i) argvs).getD (services i).enabled
    running := (lastSet (setsFlag "start" "stop" i) argvs).getD (services i).running}

/-- Commands one after the other leave every flag as the last command that set
it. -/
theorem runServices_settled (argvs : List (List CStr)) : runServices services argvs=settled argvs := by
  funext i
  have hnames : ∀ (t : Services) (argv : List CStr),Named t→Named (progService t argv).1 :=
    fun t argv h => h.command argv
  obtain ⟨hnamed,hrunning⟩ := value_foldl (fun t : Services => (t i).running) hnames
    (fun t argv h => progService_flag applyAction_running h i argv) services_named argvs
  have henabled := (value_foldl (fun t : Services => (t i).enabled) hnames
    (fun t argv h => progService_flag applyAction_enabled h i argv) services_named argvs).2
  obtain ⟨hname,hdescription⟩ := hnamed i
  exact ServiceEntry.ext hname hdescription henabled hrunning

end EronKernel.ShellServices

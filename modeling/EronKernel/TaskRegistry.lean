import EronKernel.TaskModel
import EronKernel.VfsTable

/-!
# What the program registry finds

After any sequence of registrations the table holds the first 32 of them, each
under its name cut to 15 bytes, and a search returns the first that matches.
A name leads to the function it was first registered with exactly when that
first match has the same function; the shell registers 34 commands, and the
last two are lost.
-/

namespace EronKernel.TaskRegistry

open ByteMemory CString SlotMap VfsModel VfsTable TaskModel

open ShellModel (parseArgs)

variable {F : Type}

/-- The table holds these registrations, names cut to the stored length. -/
structure Holds (t : Programs F) (rs : List (Registration F)) : Prop where
  /-- As many entries are taken. -/
  count : t.progCount=rs.length
  /-- They fit the table. -/
  bound : rs.length≤32
  /-- Every entry is taken, has the cut name and the function. -/
  entries : ∀ (i : Fin 32) r,rs[i.val]?=some r→(t.progTable i).active=1 ∧
    rowStr (t.progTable i).name=r.name.take 15 ∧ (t.progTable i).entry=some r.entry

/-- programs_init empties the table. -/
theorem holds_programsInit (t : Programs F) : Holds (programsInit t) [] where
  count := rfl
  bound := Nat.zero_le _
  entries := fun _ _ hr => by cases hr

/-- The name that task_strcpy leaves in the table. -/
theorem rowStr_taskStrcpy (dst : Row 16) (p : CStr) :
    rowStr (taskStrcpy dst p.bytes progNameLen)=p.take 15 := by
  have hl : (p.take 15).bytes.length<16 := by
    simp only [CStr.take,List.length_take]
    omega
  exact (rowStr_copyRow dst hl).trans (CStr.ofBytes_self _)

/-- A registration takes the next entry while one is left. -/
theorem programRegister_holds {t : Programs F} {rs : List (Registration F)} (h : Holds t rs)
    (r : Registration F) :
    Holds (programRegister t r.name r.desc r.entry).1 ((rs++[r]).take 32) := by
  have hbound := h.bound
  have hcount := h.count
  unfold programRegister
  by_cases hfull : t.progCount<32
  · have hlen : (rs++[r]).length≤32 := by
      rw [List.length_append,List.length_singleton]
      omega
    rw [dif_pos hfull,List.take_of_length_le hlen]
    refine ⟨?_,hlen,?_⟩
    · rw [List.length_append,List.length_singleton]
      exact congrArg Nat.succ hcount
    intro i q hq
    dsimp only
    by_cases hnew : i.val=t.progCount
    · have hslot : i=⟨t.progCount,hfull⟩ := Fin.ext hnew
      rw [hnew,hcount,List.getElem?_concat_length] at hq
      cases hq
      rw [hslot,Function.update_self]
      exact ⟨rfl,rowStr_taskStrcpy _ _,rfl⟩
    · have hold : i.val < rs.length := by
        have hi := (List.getElem?_eq_some_iff.mp hq).1
        rw [List.length_append,List.length_singleton] at hi
        omega
      have hne : i≠⟨t.progCount,hfull⟩ := fun he => hnew (congrArg Fin.val he)
      rw [List.getElem?_append_left hold] at hq
      rw [Function.update_of_ne hne]
      exact h.entries i q hq
  · rw [dif_neg hfull,List.take_append_of_le_length (by omega),List.take_of_length_le hbound]
    exact h

/-- A list that was cut may be cut again after more was appended. -/
theorem take_take_append {α : Type} (n : ℕ) (xs ys : List α) :
    (xs.take n++ys).take n=(xs++ys).take n := by
  rw [List.take_append,List.take_append,List.take_take,Nat.min_self,List.length_take]
  congr 2
  omega

/-- After any registrations the table holds the first 32 of them. -/
theorem registerAll_holds (rs : List (Registration F)) :
    ∀ {t : Programs F} {ks : List (Registration F)},Holds t ks→
      Holds (registerAll t rs) ((ks++rs).take 32) := by
  induction rs with
  | nil =>
    intro t ks h
    rw [List.append_nil,List.take_of_length_le h.bound]
    exact h
  | cons r rs ih =>
    intro t ks h
    have hnext := ih (programRegister_holds h r)
    rw [take_take_append,List.append_assoc,List.singleton_append] at hnext
    exact hnext

/-- The search returns the first entry whose cut name is the name. -/
theorem programFind_eq_some_iff {t : Programs F} {rs : List (Registration F)} (h : Holds t rs)
    (name : CStr) (i : Fin 32) :
    programFind t name=some i ↔ (∃ r,rs[i.val]?=some r ∧ r.name.take 15=name) ∧
      ∀ j : Fin 32,j < i→∀ r,rs[j.val]?=some r→ r.name.take 15≠name := by
  have hmatch : ∀ j : Fin 32,(decide (j.val<t.progCount) && decide ((t.progTable j).active≠0) &&
      taskStrcmp (rowString (t.progTable j).name) name.bytes==0)=true ↔
      ∃ r,rs[j.val]?=some r ∧ r.name.take 15=name := by
    intro j
    unfold taskStrcmp
    simp only [Bool.and_eq_true,decide_eq_true_eq,beq_iff_eq]
    rw [vfsStrcmp_eq_zero_iff (zero_notMem_rowString _) name.nonzero]
    constructor
    · rintro ⟨⟨hlt,_⟩,hname⟩
      rw [h.count] at hlt
      refine ⟨rs[j.val],List.getElem?_eq_getElem hlt,?_⟩
      rw [←(h.entries j _ (List.getElem?_eq_getElem hlt)).2.1]
      exact CStr.ext hname
    · rintro ⟨r,hr,rfl⟩
      obtain ⟨hactive,hname,_⟩ := h.entries j r hr
      refine ⟨⟨?_,?_⟩,congrArg CStr.bytes hname⟩
      · rw [h.count]
        exact (List.getElem?_eq_some_iff.mp hr).1
      · rw [hactive]
        decide
  unfold programFind
  rw [find?_finRange_iff hmatch]
  refine and_congr_right fun _ => forall₂_congr fun j _ => ?_
  push Not
  rfl

/-- The function found under a name is that of the first registration in the
table whose cut name is the name. -/
theorem programFind_entry {t : Programs F} {rs : List (Registration F)} (h : Holds t rs) (name : CStr)
    (f : F) :
    (∃ i,programFind t name=some i ∧ (t.progTable i).entry=some f) ↔
      ∃ r,rs.find? (fun r => r.name.take 15=name)=some r ∧ r.entry=f := by
  constructor
  · rintro ⟨i,hfind,hentry⟩
    obtain ⟨⟨r,hr,hname⟩,hbefore⟩ := (programFind_eq_some_iff h name i).mp hfind
    obtain ⟨hi,hget⟩ := List.getElem?_eq_some_iff.mp hr
    refine ⟨r,?_,?_⟩
    · rw [List.find?_eq_some_iff_getElem]
      refine ⟨by simpa using hname,i.val,hi,hget,fun j hj => ?_⟩
      have hjl : j < rs.length := hj.trans hi
      have hno := hbefore ⟨j,hj.trans i.isLt⟩ hj rs[j] (List.getElem?_eq_getElem hjl)
      simpa using hno
    · rw [(h.entries i r hr).2.2] at hentry
      exact Option.some.inj hentry
  · rintro ⟨r,hfind,rfl⟩
    obtain ⟨hname,k,hk,hget,hbefore⟩ := List.find?_eq_some_iff_getElem.mp hfind
    have hbound := h.bound
    have hr : rs[k]?=some r := by rw [List.getElem?_eq_getElem hk,hget]
    refine ⟨⟨k,by omega⟩,(programFind_eq_some_iff h name _).mpr ⟨⟨r,hr,by simpa using hname⟩,?_⟩,
      (h.entries ⟨k,by omega⟩ r hr).2.2⟩
    intro j hj q hq
    obtain ⟨hjl,hjget⟩ := List.getElem?_eq_some_iff.mp hq
    have hno := hbefore j.val hj
    rw [hjget] at hno
    simpa using hno

/-- After programs_init and the registrations, the search under a name returns
an entry with the function of the first registration under that name. -/
def FindsFirst (t : Programs F) (rs : List (Registration F)) (name : CStr) : Prop :=
  ∃ r i,rs.find? (fun r => r.name=name)=some r ∧
    programFind (registerAll (programsInit t) rs) name=some i ∧
    ((registerAll (programsInit t) rs).progTable i).entry=some r.entry

/-- Among the first 32 registrations there is one whose name, cut to 15 bytes,
is the name, and the first such one has the function of the first registration
under the name. -/
def FirstKept (rs : List (Registration F)) (name : CStr) : Prop :=
  ∃ r q,rs.find? (fun r => r.name=name)=some r ∧
    (rs.take 32).find? (fun r => r.name.take 15=name)=some q ∧ q.entry=r.entry

/-- The registry finds the first function of a name exactly when it was kept. -/
theorem findsFirst_iff (t : Programs F) (rs : List (Registration F)) (name : CStr) :
    FindsFirst t rs name ↔ FirstKept rs name := by
  have h := registerAll_holds rs (holds_programsInit t)
  rw [List.nil_append] at h
  constructor
  · rintro ⟨r,i,hr,hfind,hentry⟩
    obtain ⟨q,hq,he⟩ := (programFind_entry h name r.entry).mp ⟨i,hfind,hentry⟩
    exact ⟨r,q,hr,hq,he⟩
  · rintro ⟨r,q,hr,hq,he⟩
    obtain ⟨i,hfind,hentry⟩ := (programFind_entry h name r.entry).mpr ⟨q,hq,he⟩
    exact ⟨r,i,hr,hfind,hentry⟩

/-- The statics of task.c after the shell registered its commands. -/
def shellPrograms (t : Programs ShellProgram) : Programs ShellProgram :=
  registerAll (programsInit t) shellRegisterPrograms

/-- The table after the boot sequence holds all commands but the last two. -/
theorem shellPrograms_holds (t : Programs ShellProgram) :
    Holds (shellPrograms t) (shellRegisterPrograms.take 32) :=
  registerAll_holds shellRegisterPrograms (holds_programsInit t)

/-- Among the kept commands each name leads to its own function; reboot and
halt are not kept. -/
theorem shellRegisterPrograms_kept : ∀ r∈shellRegisterPrograms,
    (shellRegisterPrograms.take 32).find? (fun q => q.name.take 15=r.name)=
      if r.entry=.reboot ∨ r.entry=.halt then none else some r := by
  decide +kernel

/-- The names that execute_command treats on its own. -/
theorem shellRegisterPrograms_names : ∀ r∈shellRegisterPrograms,
    (r.name=.lit "clear"→ r.entry=.clear) ∧ (r.entry=.reboot ∨ r.entry=.halt→
      ¬r.name=.lit "clear" ∧ ¬r.name=.lit "exit" ∧
        ¬(r.name=.lit "shutdown" ∨ r.name=.lit "poweroff")) := by
  decide +kernel

/-- A command that was kept is called. -/
theorem executeCommand_kept {t : Programs ShellProgram} {r : Registration ShellProgram}
    (hr : r∈shellRegisterPrograms) (hkept : ¬(r.entry=.reboot ∨ r.entry=.halt)) {cmd : CStr}
    {args : List CStr} (hparse : parseArgs cmd.bytes 16=r.name::args) :
    executeCommand (shellPrograms t) cmd=.call (some r.entry) (r.name::args) := by
  have hfind := shellRegisterPrograms_kept r hr
  rw [if_neg hkept] at hfind
  obtain ⟨i,hi,he⟩ := (programFind_entry (shellPrograms_holds t) r.name r.entry).mpr ⟨r,hfind,rfl⟩
  have hclear := (shellRegisterPrograms_names r hr).1
  unfold executeCommand
  rw [hparse]
  dsimp only
  by_cases hname : r.name=.lit "clear"
  · rw [if_pos hname,hclear hname]
  · rw [if_neg hname,hi]
    dsimp only
    rw [he]

/-- The registered function of a program that changes files. -/
def fileEntry : ShellModel.FileProgram→ShellProgram
  | .touch => .touch
  | .write => .write
  | .rm => .rm
  | .mv => .mv
  | .mkdir => .mkdir
  | .chmod => .chmod
  | .cp => .cp
  | .append => .append

/-- The programs that change files are registered and kept. -/
theorem fileProgram_registered (prog : ShellModel.FileProgram) :
    ∃ r∈shellRegisterPrograms,r.name=prog.name ∧ r.entry=fileEntry prog ∧
      ¬(r.entry=.reboot ∨ r.entry=.halt) := by
  cases prog <;> decide +kernel

/-- A line on which the search among the programs that change files succeeds
calls the function registered for that program. -/
theorem executeCommand_fileProgram {t : Programs ShellProgram} {prog : ShellModel.FileProgram}
    {name : CStr} (hfind : ShellModel.programFind name=some prog) {cmd : CStr} {args : List CStr}
    (hparse : parseArgs cmd.bytes 16=name::args) :
    executeCommand (shellPrograms t) cmd=.call (some (fileEntry prog)) (name::args) := by
  obtain ⟨r,hr,hname,hentry,hkept⟩ := fileProgram_registered prog
  have hmatch := List.find?_some hfind
  rw [beq_iff_eq,vfsStrcmp_eq_zero_iff prog.name.nonzero name.nonzero] at hmatch
  have heq : r.name=name := hname.trans (CStr.ext hmatch)
  rw [←heq] at hparse ⊢
  rw [←hentry]
  exact executeCommand_kept hr hkept hparse

/-- A command that was not kept is reported as not found. -/
theorem executeCommand_lost {t : Programs ShellProgram} {r : Registration ShellProgram}
    (hr : r∈shellRegisterPrograms) (hlost : r.entry=.reboot ∨ r.entry=.halt) {cmd : CStr}
    {args : List CStr} (hparse : parseArgs cmd.bytes 16=r.name::args) :
    programFind (shellPrograms t) r.name=none ∧ executeCommand (shellPrograms t) cmd=
      .message (ascii "\neron: "++r.name.bytes++ascii ": not found") := by
  have hfind := shellRegisterPrograms_kept r hr
  rw [if_pos hlost] at hfind
  have hnone : programFind (shellPrograms t) r.name=none := by
    cases hi : programFind (shellPrograms t) r.name with
    | none => rfl
    | some i =>
      obtain ⟨⟨q,hq,_⟩,_⟩ := (programFind_eq_some_iff (shellPrograms_holds t) r.name i).mp hi
      obtain ⟨_,hq',_⟩ := (programFind_entry (shellPrograms_holds t) r.name q.entry).mp
        ⟨i,hi,((shellPrograms_holds t).entries i q hq).2.2⟩
      rw [hfind] at hq'
      cases hq'
  have hplain := (shellRegisterPrograms_names r hr).2 hlost
  refine ⟨hnone,?_⟩
  unfold executeCommand
  rw [hparse]
  dsimp only
  rw [if_neg hplain.1,hnone]
  dsimp only
  rw [if_neg hplain.2.1,if_neg hplain.2.2]

/-- After any registrations, a name leads to the function of its first
registration exactly when that function was kept; after those of the shell,
execute_command calls exactly the commands other than reboot and halt. -/
theorem program_registry_complete_iff (t : Programs F) (rs : List (Registration F)) (name : CStr) :
    (FindsFirst t rs name ↔ FirstKept rs name) ∧
    ∀ (t : Programs ShellProgram),∀ r∈shellRegisterPrograms,∀ (cmd : CStr) (args : List CStr),
      parseArgs cmd.bytes 16=r.name::args→
      (executeCommand (registerAll (programsInit t) shellRegisterPrograms) cmd=
        .call (some r.entry) (r.name::args) ↔ r.entry≠.reboot ∧ r.entry≠.halt) := by
  refine ⟨findsFirst_iff t rs name,?_⟩
  intro t r hr cmd args hparse
  rw [←not_or]
  constructor
  · intro hcall hlost
    have hmessage := (executeCommand_lost (t := t) hr hlost hparse).2
    unfold shellPrograms at hmessage
    rw [hmessage] at hcall
    cases hcall
  · intro hkept
    exact executeCommand_kept hr hkept hparse

/-- An empty program table. -/
def noPrograms : Programs ShellProgram := ⟨fun _ => ⟨fun _ => 0,fun _ => 0,none,0⟩,0⟩

/-- The command ls is found after the boot sequence. -/
theorem ls_found :
    FindsFirst noPrograms shellRegisterPrograms (.lit "ls") ∧
      executeCommand (registerAll (programsInit noPrograms) shellRegisterPrograms) (.lit "ls /etc")=
        .call (some .ls) [.lit "ls",.lit "/etc"] := by
  have hreg : (⟨.lit "ls",.lit "list files",.ls⟩ : Registration ShellProgram)∈shellRegisterPrograms := by
    simp [shellRegisterPrograms]
  obtain ⟨hfinds,hcalls⟩ :=
    program_registry_complete_iff noPrograms shellRegisterPrograms (.lit "ls")
  constructor
  · refine hfinds.mpr ⟨⟨.lit "ls",.lit "list files",.ls⟩,⟨.lit "ls",.lit "list files",.ls⟩,?_,?_,rfl⟩
    · decide +kernel
    · decide +kernel
  · exact (hcalls noPrograms _ hreg (.lit "ls /etc") [.lit "/etc"]
      (by decide +kernel)).mpr ⟨by decide,by decide⟩

/-- The command halt is registered at boot, is not found, and execute_command
reports so. -/
theorem halt_not_found :
    (∃ r∈shellRegisterPrograms,r.name=.lit "halt") ∧
      ¬FindsFirst noPrograms shellRegisterPrograms (.lit "halt") ∧
      executeCommand (registerAll (programsInit noPrograms) shellRegisterPrograms) (.lit "halt")=
        .message (ascii "\neron: halt: not found") := by
  have hreg : (⟨.lit "halt",.lit "power off",.halt⟩ : Registration ShellProgram)∈
      shellRegisterPrograms := by
    simp [shellRegisterPrograms]
  have hparse : parseArgs (CStr.lit "halt").bytes 16=[.lit "halt"] := by decide +kernel
  have hlost := executeCommand_lost (t := noPrograms) hreg (Or.inr rfl) hparse
  refine ⟨⟨_,hreg,rfl⟩,?_,hlost.2.trans (by decide +kernel)⟩
  rintro ⟨_,i,_,hfind,_⟩
  exact absurd (hlost.1.symm.trans hfind) (by simp)

end EronKernel.TaskRegistry

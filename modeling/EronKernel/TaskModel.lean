import EronKernel.ShellModel
import EronKernel.SlotMap

/-!
# The program registry of task.c

Commands are registered in a static array and found by name. Registration
copies the name and the description into fixed arrays, so long ones are cut,
and fails without a trace when the array is full. The shell registers its
commands once and selects by the first word of a line what to call. Program
functions are values of an arbitrary type.
-/

namespace EronKernel.TaskModel

open ByteMemory CString VfsModel ShellModel

/-- Bytes of a stored name, terminator included. -/
abbrev progNameLen : ℕ := 16

/-- Bytes of a stored description, terminator included. -/
abbrev progDescLen : ℕ := 48

/-- struct program. -/
structure Program (F : Type) where
  /-- The stored name. -/
  name : Row 16
  /-- The stored description. -/
  desc : Row 48
  /-- NULL, or the program's function. -/
  entry : Option F
  /-- Whether the entry is taken. -/
  active : Byte

/-- The statics of task.c. -/
structure Programs (F : Type) where
  /-- The program table. -/
  progTable : Fin 32→Program F
  /-- Entries taken so far. -/
  progCount : ℕ

variable {F : Type}

/-- task_strcpy, the same loop as vfs_strcpy. -/
def taskStrcpy {n : ℕ} (dst : Row n) (src : List Byte) (max : ℕ) : Row n := vfsStrcpy dst src max

/-- task_strcmp, the same loop as vfs_strcmp. -/
def taskStrcmp (a b : List Byte) : ℤ := vfsStrcmp a b

/-- programs_init. -/
def programsInit (t : Programs F) : Programs F :=
  ⟨fun i => {t.progTable i with active := 0},0⟩

/-- program_register. -/
def programRegister (t : Programs F) (name desc : CStr) (entry : F) : Programs F×ℤ :=
  if h : t.progCount<32 then
    let i : Fin 32 := ⟨t.progCount,h⟩
    let p := t.progTable i
    let q : Program F := ⟨taskStrcpy p.name name.bytes progNameLen,
      taskStrcpy p.desc desc.bytes progDescLen,some entry,1⟩
    (⟨Function.update t.progTable i q,t.progCount+1⟩,0)
  else (t,-1)

/-- program_find: the index of the entry, or NULL. -/
def programFind (t : Programs F) (name : CStr) : Option (Fin 32) :=
  (List.finRange 32).find? fun i =>
    decide (i.val<t.progCount) && decide ((t.progTable i).active≠0) &&
      taskStrcmp (rowString (t.progTable i).name) name.bytes==0

/-- The arguments of one program_register call. -/
structure Registration (F : Type) where
  /-- The name. -/
  name : CStr
  /-- The description. -/
  desc : CStr
  /-- The program's function. -/
  entry : F
  deriving DecidableEq

/-- program_register calls one after the other, their results ignored. -/
def registerAll (t : Programs F) (rs : List (Registration F)) : Programs F :=
  rs.foldl (fun t r => (programRegister t r.name r.desc r.entry).1) t

/-- The functions that shell.c registers. -/
inductive ShellProgram where
  | help | about | fastfetch | roadmap | service | touch | write | rm | mv | mkdir | chmod |
  stat | cp | append | clear | uname | uptime | date | free | cpuid | whoami | hostname |
  pwd | ls | cat | echo | ps | id | arch | exec | display | mallocTest | reboot | halt
  deriving DecidableEq,Repr

/-- The calls of shell_register_programs. -/
def shellRegisterPrograms : List (Registration ShellProgram) :=
  [⟨.lit "help",.lit "show commands",.help⟩,⟨.lit "about",.lit "system information",.about⟩,
    ⟨.lit "fastfetch",.lit "quick system summary",.fastfetch⟩,
    ⟨.lit "roadmap",.lit "next-level OS plan",.roadmap⟩,
    ⟨.lit "service",.lit "service manager",.service⟩,
    ⟨.lit "touch",.lit "create empty file",.touch⟩,
    ⟨.lit "write",.lit "write text to file",.write⟩,⟨.lit "rm",.lit "remove file or node",.rm⟩,
    ⟨.lit "mv",.lit "rename file or node",.mv⟩,⟨.lit "mkdir",.lit "create directory",.mkdir⟩,
    ⟨.lit "chmod",.lit "change permissions",.chmod⟩,⟨.lit "stat",.lit "file metadata",.stat⟩,
    ⟨.lit "cp",.lit "copy file",.cp⟩,⟨.lit "append",.lit "append text to file",.append⟩,
    ⟨.lit "clear",.lit "clear terminal",.clear⟩,
    ⟨.lit "uname",.lit "kernel identification",.uname⟩,
    ⟨.lit "uptime",.lit "system uptime",.uptime⟩,⟨.lit "date",.lit "current date/time",.date⟩,
    ⟨.lit "free",.lit "memory usage",.free⟩,⟨.lit "cpuid",.lit "CPU information",.cpuid⟩,
    ⟨.lit "whoami",.lit "current user",.whoami⟩,
    ⟨.lit "hostname",.lit "system hostname",.hostname⟩,⟨.lit "pwd",.lit "current directory",.pwd⟩,
    ⟨.lit "ls",.lit "list files",.ls⟩,⟨.lit "cat",.lit "read file",.cat⟩,
    ⟨.lit "echo",.lit "print text",.echo⟩,⟨.lit "ps",.lit "process list",.ps⟩,
    ⟨.lit "id",.lit "user/group info",.id⟩,⟨.lit "arch",.lit "architecture",.arch⟩,
    ⟨.lit "exec",.lit "run user program",.exec⟩,⟨.lit "display",.lit "display info",.display⟩,
    ⟨.lit "memtest",.lit "test heap allocator",.mallocTest⟩,
    ⟨.lit "reboot",.lit "restart system",.reboot⟩,⟨.lit "halt",.lit "power off",.halt⟩]

/-- What execute_command does with a line. -/
inductive Selected where
  /-- Nothing, the line has no word. -/
  | nothing
  /-- Call a function, or NULL, with an argument vector. -/
  | call (entry : Option ShellProgram) (argv : List CStr)
  /-- Write a message. -/
  | message (text : List Byte)
  deriving DecidableEq

/-- The selection of execute_command. -/
def executeCommand (t : Programs ShellProgram) (cmd : CStr) : Selected :=
  match parseArgs cmd.bytes 16 with
  | [] => .nothing
  | name::args =>
    if name=.lit "clear" then .call (some .clear) (name::args)
    else match programFind t name with
      | some i => .call (t.progTable i).entry (name::args)
      | none =>
        if name=.lit "exit" then .message (ascii "\neron: no parent process")
        else if name=.lit "shutdown" ∨ name=.lit "poweroff" then .call (some .halt) (name::args)
        else .message (ascii "\neron: "++name.bytes++ascii ": not found")

end EronKernel.TaskModel

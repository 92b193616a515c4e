import EronKernel.ProcFiles

/-!
# The file commands of shell.c

A command line is split at blanks into at most sixteen words and the first
word selects a program. The programs that change files are modelled with
their messages; an argument vector is the list of its strings, and the arrays
on a program's stack start with arbitrary bytes. vfs_populate builds the files
that the shell starts with.
-/

namespace EronKernel.ShellModel

open ByteMemory CString VfsModel ProcFiles

variable {F : Type}

/-- What a program leaves behind. -/
structure Outcome (F : Type) where
  /-- The statics of the file system. -/
  vfs : Vfs F
  /-- The return value. -/
  code : ℤ
  /-- What it wrote on the terminal. -/
  out : List Byte

/-- Return 0 without a message. -/
def succeed (s : Vfs F) : Outcome F := ⟨s,0,[]⟩

/-- Write a message and return 1. -/
def complain (s : Vfs F) (message : String) : Outcome F := ⟨s,1,ascii message⟩

/-- Return 1 with a message when the last call of the program failed. -/
def orComplain (r : Vfs F×ℤ) (message : String) : Outcome F :=
  if r.2<0 then complain r.1 message else succeed r.1

/-- prog_touch. -/
def progTouch (s : Vfs F) : List CStr→Outcome F
  | _::file::_ =>
    if (vfsLookup s (some file)).isSome then succeed s
    else orComplain (vfsMkfile s (some file) (some .empty)) "\ntouch: cannot create file"
  | _ => complain s "\ntouch: usage: touch <file>"

/-- Store a byte in a text of limited length. -/
def pushByte (max : ℕ) (out : List Byte) (b : Byte) : List Byte :=
  if out.length < max then out++[b] else out

/-- Store the bytes of a word. -/
def pushWord (max : ℕ) (out : List Byte) (w : CStr) : List Byte := w.bytes.foldl (pushByte max) out

/-- Store words with a blank in front of all but the first. -/
def pushWords (max : ℕ) (out : List Byte) : List CStr→List Byte
  | [] => out
  | w::ws => ws.foldl (fun out w => pushWord max (pushByte max out 0x20) w) (pushWord max out w)

/-- vfs_write of a text that stands at the start of an array, followed by a
terminator. -/
def writeText (s : Vfs F) (path : CStr) (stack : Buf) (out : List Byte) : Vfs F×ℤ :=
  vfsWrite s (some path) (some (fillBuf stack out)) (BitVec.ofNat 32 out.length)

/-- Create an empty file unless the path leads to a node, as prog_write and
prog_cp do. -/
def ensureFile (s : Vfs F) (path : CStr) : Vfs F×ℤ :=
  if (vfsLookup s (some path)).isSome then (s,0) else vfsMkfile s (some path) (some .empty)

/-- prog_write. -/
def progWrite (stack : Buf) (s : Vfs F) : List CStr→Outcome F
  | _::file::w::ws =>
    let r := ensureFile s file
    if r.2<0 then complain r.1 "\nwrite: cannot create file"
    else orComplain (writeText r.1 file stack (pushWords 511 [] (w::ws))) "\nwrite: failed"
  | _ => complain s "\nwrite: usage: write <file> <text>"

/-- prog_rm. -/
def progRm (s : Vfs F) : List CStr→Outcome F
  | _::path::_ => orComplain (vfsRemove s (some path)) "\nrm: cannot remove"
  | _ => complain s "\nrm: usage: rm <path>"

/-- prog_mv. -/
def progMv (s : Vfs F) : List CStr→Outcome F
  | _::src::dst::_ => orComplain (vfsRename s (some src) (some dst)) "\nmv: failed"
  | _ => complain s "\nmv: usage: mv <src> <dst>"

/-- prog_mkdir. -/
def progMkdir (s : Vfs F) : List CStr→Outcome F
  | _::dir::_ => orComplain (vfsMkdir s (some dir)) "\nmkdir: failed"
  | _ => complain s "\nmkdir: usage: mkdir <dir>"

/-- The buffer behind the pointer that was passed to vfs_read. -/
def readBuf (stack : Buf) (r : ℤ×Option Buf) : Buf := r.2.getD stack

/-- prog_cp. -/
def progCp (call : F→Buf→Word→ℤ×Buf) (stack : Buf) (s : Vfs F) : List CStr→Outcome F
  | _::src::dst::_ =>
    let len := vfsRead call s (some src) (some stack) 1024
    if len.1<0 then complain s "\ncp: source read failed"
    else
      let r := ensureFile s dst
      if r.2<0 then complain r.1 "\ncp: cannot create destination"
      else orComplain (vfsWrite r.1 (some dst) (some (readBuf stack len)) (BitVec.ofInt 32 len.1))
        "\ncp: destination write failed"
  | _ => complain s "\ncp: usage: cp <src> <dst>"

/-- The text that prog_append writes: what it read, a blank if there is any,
and the words. -/
def appendedText (current : List Byte) (words : List CStr) : List Byte :=
  let out := current.foldl (pushByte 1023) []
  pushWords 1023 (if 0<out.length then pushByte 1023 out 0x20 else out) words

/-- prog_append. -/
def progAppend (call : F→Buf→Word→ℤ×Buf) (stack : Buf) (s : Vfs F) : List CStr→Outcome F
  | _::file::w::ws =>
    let len := vfsRead call s (some file) (some stack) 1024
    if len.1<0 then
      let r := vfsMkfile s (some file) (some .empty)
      if r.2<0 then complain r.1 "\nappend: cannot create file"
      else orComplain (writeText r.1 file stack (appendedText [] (w::ws))) "\nappend: write failed"
    else
      let current := (List.range len.1.toNat).map (readBuf stack len)
      orComplain (writeText s file stack (appendedText current (w::ws))) "\nappend: write failed"
  | _ => complain s "\nappend: usage: append <file> <text>"

/-- The permission bits for a mode digit. -/
def modePerm (digit : Byte) : Half :=
  let mode := digit-0x30
  (if mode&&&4≠0 then vfsPermRead else 0)|||(if mode&&&2≠0 then vfsPermWrite else 0)|||
    (if mode&&&1≠0 then 4 else 0)

/-- prog_chmod. -/
def progChmod (s : Vfs F) : List CStr→Outcome F
  | _::mode::path::_ =>
    match mode.bytes with
    | [digit] =>
      if digit<0x30 ∨ 0x37<digit then complain s "\nchmod: invalid mode"
      else orComplain (vfsChmod s (some path) (modePerm digit)) "\nchmod: failed"
    | _ => complain s "\nchmod: invalid mode"
  | _ => complain s "\nchmod: usage: chmod <0-7> <path>"

/-- The programs that change files. -/
inductive FileProgram where
  /-- touch. -/
  | touch
  /-- write. -/
  | write
  /-- rm. -/
  | rm
  /-- mv. -/
  | mv
  /-- mkdir. -/
  | mkdir
  /-- chmod. -/
  | chmod
  /-- cp. -/
  | cp
  /-- append. -/
  | append
  deriving DecidableEq,Repr

/-- The name under which a program is registered. -/
def FileProgram.name : FileProgram→CStr
  | .touch => .lit "touch"
  | .write => .lit "write"
  | .rm => .lit "rm"
  | .mv => .lit "mv"
  | .mkdir => .lit "mkdir"
  | .chmod => .lit "chmod"
  | .cp => .lit "cp"
  | .append => .lit "append"

/-- Run a program on an argument vector. -/
def runProgram (call : F→Buf→Word→ℤ×Buf) (stack : Buf) (prog : FileProgram) (s : Vfs F)
    (argv : List CStr) : Outcome F :=
  match prog with
  | .touch => progTouch s argv
  | .write => progWrite stack s argv
  | .rm => progRm s argv
  | .mv => progMv s argv
  | .mkdir => progMkdir s argv
  | .chmod => progChmod s argv
  | .cp => progCp call stack s argv
  | .append => progAppend call stack s argv

/-- program_find among the programs that change files. -/
def programFind (name : CStr) : Option FileProgram :=
  [FileProgram.touch,.write,.rm,.mv,.mkdir,.chmod,.cp,.append].find? fun prog =>
    vfsStrcmp prog.name.bytes name.bytes==0

/-- parse_args: words between blanks, at most max of them. -/
def parseArgs (input : List Byte) : ℕ→List CStr
  | 0 => []
  | max+1 =>
    let p := input.dropWhile fun b => b=0x20
    if p.isEmpty then []
    else
      let word := p.takeWhile fun b => b≠0x20
      .ofBytes word::parseArgs (p.drop (word.length+1)) max

/-- A command line, with the state of the machine and of the stack when it is
executed. -/
structure CommandLine where
  /-- The text that was entered. -/
  text : CStr
  /-- What the proc files report. -/
  machine : Machine
  /-- What the program's arrays hold at first. -/
  stack : Buf

/-- The effect of execute_command on the files, for the lines that name one of
the programs above; other lines are not considered. -/
def executeCommand (s : Vfs ProcFile) (line : CommandLine) : Vfs ProcFile :=
  match parseArgs line.text.bytes 16 with
  | [] => s
  | name::args =>
    match programFind name with
    | none => s
    | some prog => (runProgram (procCall line.machine) line.stack prog s (name::args)).vfs

/-- The calls of vfs_populate. -/
def populateCalls : List (VfsCall ProcFile) :=
  [.mkdir (some (.lit "/")),.mkdir (some (.lit "/bin")),.mkdir (some (.lit "/dev")),
    .mkdir (some (.lit "/etc")),.mkdir (some (.lit "/home")),.mkdir (some (.lit "/proc")),
    .mkdir (some (.lit "/tmp")),.mkdir (some (.lit "/var")),
    .mkfile (some (.lit "/etc/hostname")) (some (.lit "eron")),
    .mkfile (some (.lit "/etc/version")) (some (.lit "Eron OS 0.3.0 (Nova)")),
    .mkfile (some (.lit "/etc/motd")) (some (.lit "Welcome to Eron OS.\nType 'help' for commands.")),
    .mkfile (some (.lit "/etc/init.rc")) (some (.lit
      "mkdir /var/log\ntouch /var/log/boot.log\nappend /var/log/boot.log boot sequence complete\nservice start netd")),
    .mkfile (some (.lit "/etc/os-release")) (some (.lit
      "NAME=EronOS\nVERSION=0.3.0\nCODENAME=Nova\nARCH=i386\nAUTHOR=Llucs")),
    .mkproc (some (.lit "/proc/cpuinfo")) (some .cpuinfo),
    .mkproc (some (.lit "/proc/meminfo")) (some .meminfo),
    .mkproc (some (.lit "/proc/uptime")) (some .uptime),
    .mkfile (some (.lit "/proc/version")) (some (.lit "Eron 0.3.0 (i386)")),
    .mkdev (some (.lit "/dev/tty0")),.mkdev (some (.lit "/dev/kbd0")),
    .mkdev (some (.lit "/dev/null")),.mkdev (some (.lit "/dev/vga0")),
    .mkfile (some (.lit "/bin/hello")) (some (.lit "[elf32-i386] user-mode hello")),
    .mkfile (some (.lit "/bin/loop")) (some (.lit "[elf32-i386] user-mode loop test")),
    .mkfile (some (.lit "/bin/crash")) (some (.lit "[elf32-i386] user-mode fault test"))]

/-- vfs_init and vfs_populate, as kernel_main calls them. -/
def vfsPopulate : Vfs ProcFile :=
  performOps (vfsInit zeroed) (populateCalls.map .call)

/-- The files after command lines were executed one after the other. -/
def shellRun (lines : List CommandLine) : Vfs ProcFile := lines.foldl executeCommand vfsPopulate

/-- The programs inside the kernel that prog_exec knows by name. -/
inductive Builtin where
  /-- user_hello. -/
  | hello
  /-- user_loop. -/
  | loop
  /-- user_crash. -/
  | crash
  deriving DecidableEq,Repr

/-- Where prog_exec takes a program from. -/
inductive ExecSource where
  /-- A program inside the kernel. -/
  | builtin (b : Builtin)
  /-- The arguments of elf_load. -/
  | image (data : Buf) (size : Word)
  /-- Nothing to execute. -/
  | missing

/-- The comparisons of prog_exec with the names inside the kernel. -/
def execBuiltin (path : CStr) : Option Builtin :=
  if path=.lit "/bin/hello" ∨ path=.lit "hello" then some .hello
  else if path=.lit "/bin/loop" ∨ path=.lit "loop" then some .loop
  else if path=.lit "/bin/crash" ∨ path=.lit "crash" then some .crash
  else none

/-- How prog_exec gets hold of its program. -/
def progExecSource (call : F→Buf→Word→ℤ×Buf) (stack : Buf) (s : Vfs F) (path : CStr) : ExecSource :=
  match execBuiltin path with
  | some b => .builtin b
  | none =>
    let len := vfsRead call s (some path) (some stack) 4096
    if 0<len.1 then .image (readBuf stack len) (BitVec.ofInt 32 len.1) else .missing

end EronKernel.ShellModel

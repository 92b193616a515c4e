import EronKernel.DecimalPrinters
import EronKernel.ShellListing
import EronKernel.TaskModel
import EronKernel.TimerModel

/-!
# The commands that only report

Most commands of shell.c look at the kernel and write what they find. Such a
command is modelled as its return value and the calls of the terminal that it
makes, from a view of everything that the commands look at. Numbers are
written by print_num, whose digits are those of uint_to_str.
-/

namespace EronKernel.ShellReports

open ByteMemory CString TtyModel TimerModel ProcFiles ProcModel VfsModel ShellModel ShellListing TaskModel
  DecimalPrinters

/-- VGA_COLOR_DARK_GREY. -/
abbrev vgaColorDarkGrey : Byte := 8

/-- VGA_COLOR_WHITE. -/
abbrev vgaColorWhite : Byte := 15

/-- What a command finds when it is called. -/
structure View where
  /-- cpuid for a leaf. -/
  cpuid : Word→Cpuid
  /-- What the registers of the real-time clock read. -/
  readCmos : Byte→Byte
  /-- mm_total. -/
  mmTotal : Word
  /-- mm_used. -/
  mmUsed : Word
  /-- mm_free. -/
  mmFree : Word
  /-- The clock. -/
  clock : Timer
  /-- The program table. -/
  programs : Programs ShellProgram
  /-- The process table. -/
  procs : Procs
  /-- The file system. -/
  files : Vfs ProcFile
  /-- What the arrays on the stack happen to hold. -/
  stack : Buf

/-- What the proc files report. -/
def View.machine (v : View) : ProcFiles.Machine :=
  ⟨v.cpuid,v.mmTotal,v.mmUsed,v.mmFree,timerSeconds v.clock⟩

/-- terminal_writestring of a literal. -/
def str (text : String) : TtyOp := .writestring (.lit text)

/-- terminal_setcolor with a colour on black. -/
def color (fg : Byte) : TtyOp := .setcolor (vgaEntryColor fg 0)

/-- print_num. -/
def num (val : Word) : TtyOp := .writestring (decimalStr val.toNat)

/-- print_num writes the digits of the number, whatever its arrays hold. -/
theorem printNum_perform (tmp buf : Row 12) (val : Word) (t : Terminal) :
    printNum tmp buf val t=some (performTty t (num val)) := printNum_eq tmp buf val t

/-- print_num_padded. -/
def numPadded (val : Word) (width : ℕ) : List TtyOp :=
  List.replicate (width-(decimal val.toNat).length) (str " ")++[num val]

/-- A number below ten is written behind a zero. -/
def twoDigits (val : Word) : List TtyOp := (if val<10 then [str "0"] else [])++[num val]

/-- print_prompt. -/
def printPrompt : List TtyOp :=
  [color vgaColorLightCyan,str "root",color vgaColorLightGreen,str "@",color vgaColorLightCyan,str "eron",
    color vgaColorLightGrey,str ":/ ",color vgaColorLightGreen,str "$ "]

/-- What prog_help writes for an entry of the program table. -/
def helpEntry (p : Program ShellProgram) : List TtyOp :=
  if p.active=0 then []
  else [color vgaColorLightCyan,str " ",.writestring (rowStr p.name),color vgaColorLightGrey]++
    List.replicate (14-(rowString p.name).length) (str " ")++[.writestring (rowStr p.desc),str "\n"]

/-- prog_help. -/
def progHelp (v : View) : ℤ×List TtyOp :=
  (0,[color vgaColorWhite,str "\nEron Shell (esh 1.0)\n\n"]++
    ((List.finRange 32).filter fun i => decide (i.val<v.programs.progCount)).flatMap fun i =>
      helpEntry (v.programs.progTable i))

/-- The rule under the title of prog_about, in the bytes of its encoding. -/
def aboutRule : CStr := .ofBytes ((List.replicate 29 [0xE2,0x94,0x80]).flatten++[0x0A])

/-- proc_active_count. -/
def procActiveCount (s : Procs) : Word :=
  BitVec.ofNat 32 ((List.finRange 16).countP fun k => decide ((s.procs k).state≠.unused))

/-- timer_uptime_hours and timer_uptime_minutes as prog_fastfetch writes
them. -/
def hoursAndMinutes (v : View) : List TtyOp :=
  [num (timerUptimeHours v.clock),str "h ",num (timerUptimeMinutes v.clock),str "m\n"]

/-- A line of prog_about: its label and its value. -/
def aboutLine (label : String) (value : List TtyOp) : List TtyOp :=
  [color vgaColorWhite,str label,color vgaColorLightGrey]++value

/-- prog_about. -/
def progAbout (v : View) : ℤ×List TtyOp :=
  (0,aboutLine "\nEron OS " [str "0.3.0 (Nova)\n"]++[color vgaColorDarkGrey,.writestring aboutRule]++
    aboutLine " Kernel    " [str "eron-i386\n"]++
    aboutLine " Arch      " [str "i386 (32-bit)\n"]++
    aboutLine " CPU       " [.writestring (vendor (v.cpuid 0)),str "\n"]++
    aboutLine " Memory    " [num (v.mmTotal/1024),str " kB heap (",num (v.mmFree/1024),str " kB free)\n"]++
    aboutLine " Uptime    " [num (timerUptimeMinutes v.clock),str "m ",num (timerUptimeSeconds v.clock),
      str "s\n"]++
    aboutLine " Shell     " [str "esh 1.0\n"]++
    aboutLine " Display   " [str "VGA 80x25\n"]++
    aboutLine " Processes " [num (procActiveCount v.procs),str " active\n"]++
    aboutLine " Syscall   " [str "INT 0x80\n"]++
    [color vgaColorDarkGrey,str " Author    Llucs\n"])

/-- A line of prog_fastfetch behind its part of the logo. -/
def fetchLine (key : String) (value : List TtyOp) : List TtyOp :=
  [color vgaColorWhite,str key,color vgaColorLightGrey]++value

/-- prog_fastfetch. -/
def progFastfetch (v : View) : ℤ×List TtyOp :=
  (0,[color vgaColorLightCyan,str "\n      /\\\n",str "     /  \\    "]++
    fetchLine "OS:      " [str "EronOS\n"]++[color vgaColorLightCyan,str "    / /\\ \\   "]++
    fetchLine "Host:    " [str "eron\n"]++[color vgaColorLightCyan,str "   / ____ \\  "]++
    fetchLine "Kernel:  " [str "0.3.0-Nova\n"]++[color vgaColorLightCyan,str "  /_/    \\_\\ "]++
    fetchLine "Shell:   " [str "esh 1.0\n"]++
    fetchLine "              Uptime:  " (hoursAndMinutes v)++
    fetchLine "              Memory:  " [num (v.mmUsed/1024),str "/",num (v.mmTotal/1024),str " kB\n"]++
    fetchLine "              Procs:   " [num (procActiveCount v.procs),str "\n"])

/-- prog_roadmap. -/
def progRoadmap : ℤ×List TtyOp :=
  (0,[str "\nEronOS next-level roadmap:",str "\n [1] Stable userland ABI + libc subset",
    str "\n [2] ELF loader hardening + per-process VM",str "\n [3] Storage stack: initrd + ext2 driver",
    str "\n [4] Networking: PCI probe + e1000 + TCP/IP",str "\n [5] Graphics: VBE framebuffer + compositor",
    str "\n [6] Package manager + signed repos"])

/-- The word that prog_stat writes for a type. -/
def statType : VfsType→String
  | .dir => "dir"
  | .file => "file"
  | .dev => "dev"
  | _ => "other"

/-- A letter of a permission, or a dash. -/
def permLetter (perm bit : Half) (letter : String) : TtyOp :=
  str (if perm&&&bit≠0 then letter else "-")

/-- prog_stat. -/
def progStat (v : View) : List CStr→ℤ×List TtyOp
  | _::path::_ => match vfsLookup v.files (some path) with
    | none => (1,[str "\nstat: not found"])
    | some i =>
      let n := v.files.nodes i
      (0,[str "\nPath: ",.writestring (rowStr n.path),str "\nType: ",str (statType n.type),
        str "\nSize: ",num n.size,str "\nPerm: ",permLetter n.perm vfsPermRead "r",
        permLetter n.perm vfsPermWrite "w",permLetter n.perm 4 "x"])
  | _ => (1,[str "\nstat: usage: stat <path>"])

/-- prog_uname. -/
def progUname : List CStr→ℤ×List TtyOp
  | _::option::_ =>
    if option=.lit "-a" then (0,[str "\nEron eron 0.3.0-Nova i386 EronOS"])
    else if option=.lit "-r" then (0,[str "\n0.3.0"])
    else (0,[str "\nEron"])
  | _ => (0,[str "\nEron"])

/-- prog_uptime, when the clock stands still meanwhile. -/
def progUptime (v : View) : ℤ×List TtyOp :=
  (0,[str "\nup ",num (timerUptimeHours v.clock),str ":"]++twoDigits (timerUptimeMinutes v.clock)++
    [str ":"]++twoDigits (timerUptimeSeconds v.clock))

/-- bcd_to_bin. -/
def bcdToBin (bcd : Byte) : Byte := (bcd>>>4)*10+(bcd&&&0x0F)

/-- A register of the real-time clock as prog_date uses it. -/
def clockField (v : View) (reg : Byte) : Word := (bcdToBin (v.readCmos reg)).setWidth 32

/-- The names of the months. -/
def months : List String :=
  ["Jan","Feb","Mar","Apr","May","Jun","Jul","Aug","Sep","Oct","Nov","Dec"]

/-- The name of a month, or a mark where there is none. -/
def monthName (month : Word) : String :=
  if 1≤ month.toNat ∧ month.toNat≤12 then months.getD (month.toNat-1) "" else "???"

/-- prog_date. -/
def progDate (v : View) : ℤ×List TtyOp :=
  (0,[str "\n",str (monthName (clockField v 8)),str " "]++twoDigits (clockField v 7)++[str " "]++
    twoDigits (clockField v 4)++[str ":"]++twoDigits (clockField v 2)++[str ":"]++
    twoDigits (clockField v 0)++[str " UTC 20"]++twoDigits (clockField v 9))

/-- prog_free. -/
def progFree (v : View) : ℤ×List TtyOp :=
  (0,[color vgaColorWhite,str "\n            total       used       free\n",color vgaColorLightGrey,
      str "Heap   "]++
    numPadded (v.mmTotal/1024) 8++[str " kB "]++numPadded (v.mmUsed/1024) 8++[str " kB "]++
    numPadded (v.mmFree/1024) 8++[str " kB"])

/-- The string at the start of an array. -/
def bufferStr (size : ℕ) (buf : Buf) : CStr := .ofBytes ((List.range size).map buf)

/-- Read a file into an array on the stack, as the commands that show files
do: the return value of vfs_read and the array. -/
def readInto (v : View) (path : CStr) (size : Word) : ℤ×Buf :=
  let r := vfsRead (procCall v.machine) v.files (some path) (some v.stack) size
  (r.1,readBuf v.stack r)

/-- prog_cpuid. -/
def progCpuid (v : View) : ℤ×List TtyOp :=
  let r := readInto v (.lit "/proc/cpuinfo") 256
  (0,if 0<r.1 then [str "\n",.writestring (bufferStr 256 r.2)] else [])

/-- The word that prog_ps writes for a state. -/
def stateWord : ProcState→String
  | .running => "  run      "
  | .ready => "  ready    "
  | .zombie => "  zombie   "
  | .unused => "  ?        "

/-- What prog_ps writes for a slot. -/
def psEntry (p : Process) : List TtyOp :=
  if p.state=.unused then []
  else [str "   ",num p.pid,str (stateWord p.state),.writestring (rowStr p.name),str "\n"]

/-- prog_ps. -/
def progPs (v : View) : ℤ×List TtyOp :=
  (0,[color vgaColorWhite,str "\n PID  STATE    NAME\n",color vgaColorLightGrey]++
    (List.finRange 16).flatMap fun k => psEntry (v.procs.procs k))

/-- prog_cat. -/
def progCat (v : View) : List CStr→ℤ×List TtyOp
  | _::path::_ => match vfsLookup v.files (some path) with
    | none =>
      (1,[color vgaColorLightRed,str "\ncat: ",.writestring path,str ": not found"])
    | some i =>
      if (v.files.nodes i).type=.dir then
        (1,[color vgaColorLightRed,str "\ncat: ",.writestring path,str ": is a directory"])
      else
        let r := readInto v path 512
        (0,if 0≤ r.1 then [str "\n",.writestring (bufferStr 512 r.2)] else [])
  | _ => (1,[color vgaColorLightRed,str "\ncat: missing file argument"])

/-- prog_echo. -/
def progEcho (argv : List CStr) : ℤ×List TtyOp :=
  (0,str "\n"::((argv.drop 1).map TtyOp.writestring).intersperse (str " "))

/-- prog_clear. -/
def progClear : ℤ×List TtyOp := (0,[.clear,color vgaColorLightGrey])

/-- The fields of struct display_info that prog_display writes. -/
structure DisplayInfo where
  /-- The mode is DISPLAY_TEXT. -/
  text : Bool
  /-- Width of the screen. -/
  width : Word
  /-- Height of the screen. -/
  height : Word
  /-- Bits of a cell. -/
  bpp : Word
  /-- Address of the screen. -/
  framebuffer : Word

/-- display_get_info. -/
def displayGetInfo : DisplayInfo := ⟨true,80,25,4,0xB8000⟩

/-- The digits that prog_display writes for an address. -/
def hexWord (w : Word) : List Byte :=
  (List.range 8).map fun i => (ascii "0123456789ABCDEF").getD (w.toNat/16^(7-i)%16) 0

/-- prog_display. -/
def progDisplay : ℤ×List TtyOp :=
  let info := displayGetInfo
  (0,[color vgaColorWhite,str "\nDisplay:\n",color vgaColorLightGrey,str " Mode      ",
    str (if info.text then "text\n" else "framebuffer\n"),str " Size      ",num info.width,str "x",
    num info.height,str "\n Depth     ",num info.bpp,str " bpp\n",str " Buffer    0x",
    .writestring (.ofBytes (hexWord info.framebuffer))])

/-- The commands that only report, with the arguments that they are called
with. -/
def report (v : View) (argv : List CStr) : ShellProgram→Option (ℤ×List TtyOp)
  | .help => some (progHelp v)
  | .about => some (progAbout v)
  | .fastfetch => some (progFastfetch v)
  | .roadmap => some progRoadmap
  | .stat => some (progStat v argv)
  | .clear => some progClear
  | .uname => some (progUname argv)
  | .uptime => some (progUptime v)
  | .date => some (progDate v)
  | .free => some (progFree v)
  | .cpuid => some (progCpuid v)
  | .whoami => some (0,[str "\nroot"])
  | .hostname => some (0,[str "\neron"])
  | .pwd => some (0,[str "\n/"])
  | .ls => some (progLs v.files argv)
  | .cat => some (progCat v argv)
  | .echo => some (progEcho argv)
  | .ps => some (progPs v)
  | .id => some (0,[str "\nuid=0(root) gid=0(root)"])
  | .arch => some (0,[str "\ni386"])
  | .display => some progDisplay
  | .service | .touch | .write | .rm | .mv | .mkdir | .chmod | .cp | .append | .exec | .mallocTest
  | .reboot | .halt => none

end EronKernel.ShellReports

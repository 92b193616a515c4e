import EronKernel.ShellParse
import EronKernel.VfsReadContract

/-!
# Scripts

shell_run_script reads a file into an array of 1024 bytes, turns each newline
into a terminator and hands every line that is not empty to execute_command,
which in turn cuts the line in place. The array is checked: a result means
that every access was inside. What a command does to the rest of the machine,
the script file included, is arbitrary; it only sees the argument vector.
-/

namespace EronKernel.ShellScript

open ByteMemory CString WordSplit CellScan VfsModel VfsContents ProcFiles VfsReadContract ShellModel
open ShellWrite ShellParse

variable {σ : Type}

/-- The machine as far as scripts are concerned. -/
structure Shell (σ : Type) where
  /-- Everything that a command may change. -/
  machine : σ
  /-- shell_batch_mode. -/
  shellBatchMode : ℤ
  /-- The strings that execute_command was called with, in order. -/
  called : List (List Byte)

/-- What the shell finds in the machine. -/
structure Kernel (σ : Type) where
  /-- The statics of the file system. -/
  files : σ→Vfs ProcFile
  /-- What the proc files report. -/
  report : σ→Machine
  /-- What execute_command does once the line is cut, by the batch mode and
  the argument vector; it returns. -/
  command : ℤ→List (List Byte)→σ→σ

/-- Run the command of a line that was cut. -/
def Kernel.runLine (K : Kernel σ) (s : Shell σ) (text : List Byte) (argv : List (List Byte)) : Shell σ :=
  {s with machine := K.command s.shellBatchMode argv s.machine, called := s.called++[text]}

/-- execute_command on the string at an index of an array. -/
def executeCommandAt (K : Kernel σ) (input : List Byte) (start : ℕ) (s : Shell σ) :
    Option (List Byte×Shell σ) :=
  (input[start]?).bind fun c =>
    if c=0 then some (input,K.runLine s [] [])
    else (parseArgsAt input start 16).map fun (out,argv) =>
      (out,K.runLine s (stringFrom 0 input start) (stringsAt out argv))

/-- A turn of the loop of shell_run_script: the array, the start of the line
and the shell. -/
def scriptTurn (K : Kernel σ) : List Byte×ℕ×Shell σ→ℕ→Option (List Byte×ℕ×Shell σ)
  | (script,start,s),i => (script[i]?).bind fun c =>
    if c=0x0A ∨ c=0 then
      let script := script.set i 0
      (script[start]?).bind fun d =>
        (if d≠0 then executeCommandAt K script start s else some (script,s)).map fun (script,s) =>
          (script,i+1,s)
    else some (script,start,s)

/-- The array of shell_run_script after vfs_read. -/
def scriptArray (stack : Buf) (r : ℤ×Option Buf) : List Byte := (List.range 1024).map (bufferAfter stack r)

/-- shell_run_script; the array is on the stack. -/
def shellRunScript (K : Kernel σ) (stack : Buf) (path : Option CStr) (s : Shell σ) : Option (Shell σ) :=
  let r := vfsRead (procCall (K.report s.machine)) (K.files s.machine) path (some stack) 1024
  if r.1≤0 then some s
  else ((List.range (r.1.toNat+1)).foldlM (scriptTurn K)
      (scriptArray stack r,0,{s with shellBatchMode := 1})).map fun (_,_,s) =>
    {s with shellBatchMode := 0}

/-- The shells that the kernel comes to: scripts are run, and in between
anything else happens to the machine. -/
inductive Reached (K : Kernel σ) : Shell σ→Prop where
  /-- The static is zero and no command was executed. -/
  | boot (machine : σ) : Reached K ⟨machine,0,[]⟩
  /-- The machine changes. -/
  | step {s : Shell σ} (machine : σ) : Reached K s→Reached K {s with machine := machine}
  /-- A script is run. -/
  | script {s t : Shell σ} (stack : Buf) (path : Option CStr) : Reached K s→
    shellRunScript K stack path s=some t→Reached K t

/-- The batch mode is only set while a script is run. -/
theorem Reached.batchMode {K : Kernel σ} {s : Shell σ} (h : Reached K s) : s.shellBatchMode=0 := by
  induction h with
  | boot => rfl
  | step _ _ ih => exact ih
  | script stack path _ hrun ih =>
    unfold shellRunScript at hrun
    dsimp only at hrun
    split_ifs at hrun
    · rw [←Option.some.inj hrun]
      exact ih
    · obtain ⟨_,_,rfl⟩ := Option.map_eq_some_iff.mp hrun
      rfl

/-- What a line does to the shell: it is cut into its first sixteen words. -/
def Kernel.execLine (K : Kernel σ) (s : Shell σ) (text : List Byte) : Shell σ :=
  K.runLine s text ((wordsOf 0x20 text).take 16)

/-- execute_command on a line that is not empty calls the command with its
words and writes over blanks of the line only. -/
theorem executeCommandAt_line (K : Kernel σ) (pre : List Byte) {text : List Byte} (hne : text≠[])
    (h0 : (0 : Byte)∉text) (rest : List Byte) (s : Shell σ) :
    ∃ text',executeCommandAt K (line pre text rest) pre.length s=
      some (line pre text' rest,K.execLine s text) ∧ text'.length=text.length := by
  obtain ⟨out,argv,hrun,hparsed⟩ := parseFrom_parsed 16 pre h0 rest
  obtain ⟨text',rfl,hreplaced⟩ := hparsed.written
  refine ⟨text',?_,hreplaced.length_eq⟩
  have hhead : text.headD 0≠0 := by
    obtain ⟨c,tail,rfl⟩ := List.exists_cons_of_ne_nil hne
    exact fun he => h0 (he▸List.mem_cons_self)
  have htext : stringFrom 0 (line pre text rest) pre.length=text := stringFrom_append pre h0 rest
  unfold executeCommandAt parseArgsAt
  rw [getElem?_line,Option.bind_some,if_neg hhead,hrun,Option.map_some,htext]
  dsimp only
  rw [hparsed.words]
  rfl

/-- The array between two turns: the line begins at the start, and the rest of
the text follows what was read of it. -/
def between (pre current text rest : List Byte) : List Byte := pre++(current++(text++0::rest))

/-- The cell of the next turn. -/
theorem getElem?_between (pre current text rest : List Byte) :
    (between pre current text rest)[(pre++current).length]?=some (text.headD 0) := by
  have hline : between pre current text rest=line (pre++current) text rest := (List.append_assoc _ _ _).symm
  rw [hline]
  exact getElem?_line (pre++current) text rest

/-- A cell that ends no line is added to the current one. -/
theorem scriptTurn_inside (K : Kernel σ) (pre current : List Byte) {c : Byte} (hc : c≠0x0A) (hc0 : c≠0)
    (text rest : List Byte) (s : Shell σ) :
    scriptTurn K (between pre current (c::text) rest,pre.length,s) (pre++current).length=
      some (between pre (current++[c]) text rest,pre.length,s) := by
  have hnext : between pre (current++[c]) text rest=between pre current (c::text) rest := by
    unfold between
    rw [List.append_assoc,List.singleton_append,List.cons_append]
  rw [scriptTurn,getElem?_between,Option.bind_some,hnext,List.headD_cons,if_neg (not_or.mpr ⟨hc,hc0⟩)]

/-- What a turn does at the end of a line. -/
def Kernel.endLine (K : Kernel σ) (s : Shell σ) (text : List Byte) : Shell σ :=
  if text=[] then s else K.execLine s text

/-- A cell that ends a line becomes a terminator, and a line that is not empty
is executed. -/
theorem scriptTurn_end (K : Kernel σ) (pre : List Byte) {current : List Byte} (h0 : (0 : Byte)∉current)
    {c : Byte} (hc : c=0x0A ∨ c=0) (rest : List Byte) (s : Shell σ) :
    ∃ current',current'.length=current.length ∧
      scriptTurn K (pre++(current++c::rest),pre.length,s) (pre++current).length=
        some (pre++(current'++0::rest),(pre++current).length+1,K.endLine s current) := by
  have hcell : (pre++(current++c::rest))[(pre++current).length]?=some c := by
    rw [←List.append_assoc]
    exact getElem?_append_cons (pre++current) c rest
  have hset : (pre++(current++c::rest)).set (pre++current).length 0=line pre current rest := by
    rw [←List.append_assoc,set_append_cons,List.append_assoc]
    rfl
  rw [scriptTurn,hcell,Option.bind_some,if_pos hc,hset]
  dsimp only
  rw [getElem?_line,Option.bind_some]
  unfold Kernel.endLine
  by_cases hne : current=[]
  · refine ⟨current,rfl,?_⟩
    rw [if_pos hne,hne]
    rfl
  · obtain ⟨current',hrun,hlength⟩ := executeCommandAt_line K pre hne h0 rest s
    have hhead : current.headD 0≠0 := by
      obtain ⟨d,tail,rfl⟩ := List.exists_cons_of_ne_nil hne
      exact fun he => h0 (he▸List.mem_cons_self)
    refine ⟨current',hlength,?_⟩
    rw [if_neg hne,if_pos hhead,hrun]
    rfl

/-- The last line. -/
theorem Kernel.foldl_lastLine (K : Kernel σ) (s : Shell σ) {current : List Byte}
    (hnl : (0x0A : Byte)∉current) : (wordsOf 0x0A current).foldl K.execLine s=K.endLine s current := by
  unfold Kernel.endLine
  by_cases hne : current=[]
  · rw [if_pos hne,hne,wordsOf_nil]
    rfl
  · rw [if_neg hne,wordsOf_word hne hnl]
    rfl

/-- A line and the lines behind it. -/
theorem Kernel.foldl_line (K : Kernel σ) (s : Shell σ) {current : List Byte} (hnl : (0x0A : Byte)∉current)
    (text : List Byte) : (wordsOf 0x0A (current++0x0A::text)).foldl K.execLine s=
      (wordsOf 0x0A text).foldl K.execLine (K.endLine s current) := by
  unfold Kernel.endLine
  by_cases hne : current=[]
  · rw [if_pos hne,hne,List.nil_append,wordsOf_sep]
  · rw [if_neg hne,wordsOf_word_sep hne hnl]
    rfl

/-- The loop of shell_run_script from a place in the text on executes the rest
of the current line and the lines behind it. -/
theorem scriptLoop_lines (K : Kernel σ) (rest : List Byte) (text : List Byte) :
    ∀ pre current : List Byte,(0 : Byte)∉current++text→(0x0A : Byte)∉current→∀ s : Shell σ,
      ∃ state : List Byte×ℕ,(List.range' (pre++current).length (text.length+1)).foldlM (scriptTurn K)
        (between pre current text rest,pre.length,s)=
          some (state.1,state.2,(wordsOf 0x0A (current++text)).foldl K.execLine s) := by
  induction text with
  | nil =>
    intro pre current h0 hnl s
    rw [List.append_nil] at h0 ⊢
    obtain ⟨current',_,hturn⟩ := scriptTurn_end K pre h0 (Or.inr rfl) rest s
    refine ⟨(pre++(current'++0::rest),(pre++current).length+1),?_⟩
    rw [List.length_nil,List.range'_one,List.foldlM_cons,between,List.nil_append,hturn,
      K.foldl_lastLine s hnl]
    rfl
  | cons c text ih =>
    intro pre current h0 hnl s
    have hmem : ∀ b∈current++c::text,b≠0 := fun b hb he => h0 (he▸hb)
    have h0c : (0 : Byte)∉current := fun hb => hmem 0 (List.mem_append_left _ hb) rfl
    have h0t : (0 : Byte)∉text := fun hb =>
      hmem 0 (List.mem_append_right _ (List.mem_cons_of_mem c hb)) rfl
    rw [List.length_cons,List.range'_succ,List.foldlM_cons]
    by_cases hc : c=0x0A
    · subst hc
      obtain ⟨current',hlength,hturn⟩ := scriptTurn_end K pre h0c (Or.inl rfl) (text++0::rest) s
      obtain ⟨state,hrun⟩ := ih (pre++current'++[0]) [] h0t List.not_mem_nil (K.endLine s current)
      have hstart : (pre++current'++[0]).length=(pre++current).length+1 := by
        simp only [List.length_append,List.length_singleton,hlength]
      have hcells : between (pre++current'++[0]) [] text rest=pre++(current'++0::(text++0::rest)) := by
        unfold between
        simp only [List.append_assoc,List.nil_append,List.singleton_append]
      rw [List.append_nil,hstart,hcells,List.nil_append] at hrun
      refine ⟨state,?_⟩
      rw [between,List.cons_append,hturn,K.foldl_line s hnl text]
      exact hrun
    · have hc0 : c≠0 := hmem c (List.mem_append_right _ List.mem_cons_self)
      have hturn := scriptTurn_inside K pre current hc hc0 text rest s
      have hnext : (0x0A : Byte)∉current++[c] := by
        rw [List.mem_append,List.mem_singleton]
        exact not_or.mpr ⟨hnl,fun he => hc he.symm⟩
      have hsplit : current++c::text=current++[c]++text := by
        rw [List.append_assoc,List.singleton_append]
      rw [hsplit] at h0
      obtain ⟨state,hrun⟩ := ih pre (current++[c]) h0 hnext s
      rw [←List.append_assoc,List.length_append,List.length_singleton] at hrun
      refine ⟨state,?_⟩
      rw [hturn,hsplit]
      exact hrun

/-- What a read of a file delivers: the report of a proc file or the
content. -/
def fileText (mach : Machine) (s : Vfs ProcFile) (i : Slot) : List Byte :=
  match (s.nodes i).read with
  | some f => report mach f
  | none => (nodeContent s (s.nodes i)).bytes

/-- A file that may be read delivers its text and nothing else. -/
theorem vfsRead_fileText {mach : Machine} {s : Vfs ProcFile} {p : CStr} {i : Slot}
    (hi : vfsLookup s (some p)=some i) (hok : ¬Unreadable (s.nodes i)) (b : Buf) {size : Word}
    (hsize : size≠0) :
    (0 : Byte)∉fileText mach s i ∧ Delivers mach s (some p) (fileText mach s i) b size := by
  unfold fileText
  cases hr : (s.nodes i).read with
  | some f => exact ⟨zero_notMem_report mach f,vfsRead_report hi hok hr b hsize⟩
  | none => exact ⟨CStr.nonzero _,vfsRead_content hi hok hr b hsize⟩

/-- An array of so many bytes after a read holds the text and a terminator. -/
theorem map_range_delivered {stack out : Buf} {n : ℕ} {text : List Byte} (h : Delivered stack n text out) :
    ∃ rest,(List.range n).map out=text++0::rest := by
  have hfits := h.fits
  refine ⟨((List.range n).map out).drop (text.length+1),?_⟩
  apply List.ext_getElem
  · simp only [List.length_map,List.length_range,List.length_append,List.length_cons,List.length_drop]
    omega
  · intro k hk hk'
    rw [List.getElem_map,List.getElem_range]
    by_cases hlt : k<text.length
    · rw [List.getElem_append_left hlt]
      exact h.bytes k hlt
    · by_cases heq : k=text.length
      · subst heq
        rw [List.getElem_append_right (Nat.le_refl _)]
        simpa using h.terminated
      · obtain ⟨j,rfl⟩ : ∃ j,k=text.length+(j+1) := ⟨k-text.length-1,by omega⟩
        rw [List.getElem_append_right (by omega)]
        simp [Nat.add_assoc,Nat.add_comm 1 j]

/-- A read of a file whose text has at most 1023 bytes delivers all of it. -/
theorem vfsRead_script {mach : Machine} {s : Vfs ProcFile} {p : CStr} {i : Slot}
    (hi : vfsLookup s (some p)=some i) (hok : ¬Unreadable (s.nodes i))
    (hlength : (fileText mach s i).length≤1023) (stack : Buf) :
    (0 : Byte)∉fileText mach s i ∧ ∃ out,Delivered stack 1024 (fileText mach s i) out ∧
      vfsRead (procCall mach) s (some p) (some stack) 1024=(((fileText mach s i).length : ℤ),some out) := by
  obtain ⟨h0,out,hread,hout⟩ := vfsRead_fileText hi hok stack (by decide : (1024 : Word)≠0)
  have hlimit : readLimit 1024=1024 := by decide
  have hwhole : (fileText mach s i).take (readLimit 1024-1)=fileText mach s i := by
    rw [hlimit]
    exact List.take_of_length_le hlength
  rw [hwhole] at hread
  rw [hwhole,hlimit] at hout
  exact ⟨h0,out,hout,hread⟩

/-- Executing lines logs them. -/
theorem Kernel.foldl_execLine_called (K : Kernel σ) (lines : List (List Byte)) (s : Shell σ) :
    (lines.foldl K.execLine s).called=s.called++lines := by
  induction lines generalizing s with
  | nil => exact (List.append_nil _).symm
  | cons text lines ih =>
    rw [List.foldl_cons,ih]
    exact List.append_assoc _ _ _

/-- In every shell that the kernel comes to, for every file that may be read
and whose text has at most 1023 bytes, shell_run_script returns with every
access inside its array, has called execute_command on the non-empty lines of
the text, once each and in order, whatever the commands did to the machine in
between, and leaves shell_batch_mode zero; vfs_read wrote nothing behind the
array. -/
theorem shell_run_script_line_exact (K : Kernel σ) {s : Shell σ} (hs : Reached K s) {path : CStr} {i : Slot}
    (hi : vfsLookup (K.files s.machine) (some path)=some i)
    (hok : ¬Unreadable ((K.files s.machine).nodes i))
    (hlength : (fileText (K.report s.machine) (K.files s.machine) i).length≤1023) (stack : Buf) :
    let text := fileText (K.report s.machine) (K.files s.machine) i
    let r := vfsRead (procCall (K.report s.machine)) (K.files s.machine) (some path) (some stack) 1024
    (∀ k,1024≤k→ bufferAfter stack r k=stack k) ∧
      ∃ t,shellRunScript K stack (some path) s=some t ∧ t.called=s.called++wordsOf 0x0A text ∧
        t.machine=((wordsOf 0x0A text).foldl K.execLine {s with shellBatchMode := 1}).machine ∧
        t.shellBatchMode=0 := by
  intro text r
  obtain ⟨h0,out,hout,hread⟩ := vfsRead_script hi hok hlength stack
  have hr : r=((text.length : ℤ),some out) := hread
  have hafter : bufferAfter stack r=out := by
    rw [hr]
    rfl
  refine ⟨fun k hk => by rw [hafter,hout.outside k hk],?_⟩
  unfold shellRunScript
  dsimp only
  rw [show vfsRead (procCall (K.report s.machine)) (K.files s.machine) (some path) (some stack) 1024=r from rfl]
  by_cases hempty : text=[]
  · have hzero : r.1≤0 := by
      rw [hr,hempty]
      exact le_refl _
    rw [if_pos hzero,hempty,wordsOf_nil,List.append_nil]
    exact ⟨s,rfl,rfl,rfl,hs.batchMode⟩
  · have hpos : ¬r.1≤0 := by
      have hlen := List.length_pos_iff.mpr hempty
      rw [hr]
      dsimp only
      omega
    obtain ⟨rest,harray⟩ := map_range_delivered hout
    obtain ⟨state,hloop⟩ := scriptLoop_lines K rest text [] [] h0 List.not_mem_nil {s with shellBatchMode := 1}
    have hcells : scriptArray stack r=between [] [] text rest := by
      unfold scriptArray
      rw [hafter]
      exact harray
    have hturns : r.1.toNat=text.length := by
      rw [hr]
      rfl
    rw [if_neg hpos,hcells,hturns,List.range_eq_range']
    rw [List.append_nil,List.length_nil,List.nil_append] at hloop
    rw [hloop]
    exact ⟨_,rfl,K.foldl_execLine_called _ _,rfl,rfl⟩

/-- The kernel as far as the programs that change files are concerned, with
fixed reports of the proc files. -/
def fileKernel (mach : Machine) (stack : Buf) : Kernel (Vfs ProcFile) where
  files s := s
  report _ := mach
  command _ argv s := match argv.map CStr.ofBytes with
    | [] => s
    | name::args => match programFind name with
      | none => s
      | some prog => (runProgram (procCall mach) stack prog s (name::args)).vfs

/-- A line of a script does to the files what execute_command does. -/
theorem fileKernel_execLine (mach : Machine) (stack : Buf) (s : Shell (Vfs ProcFile)) (text : CStr) :
    ((fileKernel mach stack).execLine s text.bytes).machine=executeCommand s.machine ⟨text,mach,stack⟩ := by
  have hparse := parseArgs_eq 16 text.nonzero
  have hargv : ((wordsOf 0x20 text.bytes).take 16).map CStr.ofBytes=parseArgs text.bytes 16 := by
    rw [←hparse,List.map_map]
    exact List.map_id'' CStr.ofBytes_self _
  unfold Kernel.execLine Kernel.runLine fileKernel executeCommand
  dsimp only
  rewrite [hargv]
  rfl

/-- A kernel whose proc files report zeros. -/
def quietKernel : Kernel (Vfs ProcFile) := fileKernel ⟨fun _ => ⟨0,0,0,0⟩,0,0,0,0⟩ fun _ => 0

/-- A file system with one script, which has an empty line and removes
itself. -/
def scriptFiles : Vfs ProcFile :=
  (vfsMkfile (vfsInit zeroed) (some (.lit "/s")) (some (.lit "rm /s\n\ntouch /b\n"))).1

/-- The script may be read. -/
theorem scriptFiles_readable :
    vfsLookup (quietKernel.files scriptFiles) (some (.lit "/s"))=some 0 ∧
      ¬Unreadable ((quietKernel.files scriptFiles).nodes 0) := by
  have htype : ((quietKernel.files scriptFiles).nodes 0).type=.file := by decide +kernel
  have hperm : ((quietKernel.files scriptFiles).nodes 0).perm=3 := by decide +kernel
  refine ⟨by decide +kernel,?_⟩
  unfold Unreadable
  rw [htype,hperm]
  rintro (h|⟨h,_⟩)
  · cases h
  · exact absurd h (by decide)

/-- The text of the script. -/
theorem scriptFiles_lines :
    wordsOf 0x0A (fileText (quietKernel.report scriptFiles) (quietKernel.files scriptFiles) 0)=
        [ascii "rm /s",ascii "touch /b"] ∧
      (fileText (quietKernel.report scriptFiles) (quietKernel.files scriptFiles) 0).length≤1023 := by
  decide +kernel

/-- The script is executed line by line. -/
theorem scriptFiles_line_exact :
    ∃ t,shellRunScript quietKernel (fun _ => 0x2A) (some (.lit "/s")) ⟨scriptFiles,0,[]⟩=some t ∧
      t.called=[ascii "rm /s",ascii "touch /b"] ∧ t.shellBatchMode=0 := by
  obtain ⟨hlookup,hreadable⟩ := scriptFiles_readable
  obtain ⟨hlines,hlength⟩ := scriptFiles_lines
  generalize scriptFiles=files at *
  generalize (0 : Slot)=i at *
  obtain ⟨_,t,hrun,hcalled,_,hmode⟩ := shell_run_script_line_exact quietKernel (Reached.boot files) hlookup
    hreadable hlength fun _ => 0x2A
  exact ⟨t,hrun,hcalled.trans hlines,hmode⟩

end EronKernel.ShellScript

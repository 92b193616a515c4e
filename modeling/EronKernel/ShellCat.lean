import EronKernel.ShellScript
import EronKernel.ShellSessions
import EronKernel.ShellWrite

/-!
# What write stores, cat shows

prog_write joins its words in an array of 512 bytes, vfs_write stores them, and
prog_cat reads them back into an array of the same length. So a text that was
written is shown as it was written, byte for byte, whatever else the session
does in between, as long as the path still leads to a file like that.
-/

namespace EronKernel.ShellCat

open ByteMemory CString TtyModel VfsModel VfsContents VfsReadContract ProcFiles ShellModel ShellListing ShellAppend
  ShellScript TaskModel TaskRegistry SystemModel ShellReports ShellMachine ShellEffects ShellSessions

/-- The string in an array that holds a text. -/
theorem bufferStr_delivered {stack out : Buf} {n : ℕ} {text : List Byte} (h0 : (0 : Byte)∉text)
    (h : Delivered stack n text out) : bufferStr n out=.ofBytes text := by
  obtain ⟨rest,hcells⟩ := map_range_delivered h
  have hall : ∀ b∈text,decide (b≠0)=true := fun b hb => decide_eq_true fun he => h0 (he▸hb)
  unfold bufferStr
  rw [hcells]
  apply CStr.ext
  change (text++0::rest).takeWhile _=text.takeWhile _
  rw [List.takeWhile_append_of_pos hall,List.takeWhile_eq_self_iff.mpr hall]
  simp

/-- prog_cat shows the first 511 bytes of what a read delivers. -/
theorem progCat_text {v : View} {path : CStr} {i : Slot} (hi : vfsLookup v.files (some path)=some i)
    (hok : ¬Unreadable (v.files.nodes i)) (c : CStr) (rest : List CStr) :
    progCat v (c::path::rest)=
      (0,[str "\n",.writestring (.ofBytes ((fileText v.machine v.files i).take 511))]) := by
  obtain ⟨h0,out,hrun,hout⟩ := vfsRead_fileText hi hok v.stack (by decide : (512 : Word)≠0)
  have hlimit : readLimit 512=512 := by decide
  rw [hlimit] at hrun hout
  have hdir : (v.files.nodes i).type≠.dir := fun hd => hok (Or.inl hd)
  have hnone : (0 : Byte)∉(fileText v.machine v.files i).take 511 := fun hm => h0 (List.mem_of_mem_take hm)
  unfold progCat
  dsimp only
  rw [hi]
  dsimp only
  rw [if_neg hdir]
  unfold readInto readBuf
  rw [hrun]
  dsimp only [Option.getD_some]
  rw [if_pos (Int.natCast_nonneg _),bufferStr_delivered hnone hout]

/-- A file that may not be read is not shown. -/
theorem progCat_hidden {v : View} {path : CStr} {i : Slot} (hi : vfsLookup v.files (some path)=some i)
    (hdir : (v.files.nodes i).type≠.dir) (hhidden : Unreadable (v.files.nodes i)) (c : CStr)
    (rest : List CStr) : progCat v (c::path::rest)=(0,[]) := by
  have hrun : vfsRead (procCall v.machine) v.files (some path) (some v.stack) 512=(-1,some v.stack) := by
    refine vfsRead_fails ?_ v.stack (by decide)
    rintro ⟨p,j,hp,hj,hok⟩
    cases hp
    cases hi.symm.trans hj
    exact hok hhidden
  unfold progCat
  dsimp only
  rw [hi]
  dsimp only
  rw [if_neg hdir]
  unfold readInto
  rw [hrun]
  rfl

/-- The file under a path, as a caller of vfs_lookup sees it. -/
def fileAt {F : Type} (s : Vfs F) (path : CStr) : Option (NodeView F) :=
  (vfsLookup s (some path)).map fun i => viewNode s (s.nodes i)

/-- A write that succeeds leaves its text in a file. -/
theorem progWrite_leaves {F : Type} {stack : Buf} {s : Vfs F} {name file w : CStr} {ws : List CStr}
    (hcode : (progWrite stack s (name::file::w::ws)).code=0) :
    ∃ t j,(progWrite stack s (name::file::w::ws)).vfs=afterWrite t j ((joinWords (w::ws)).take 511) ∧
      vfsLookup t (some file)=some j ∧ WritableNode (t.nodes j) := by
  have hpush : pushWords 511 [] (w::ws)=(joinWords (w::ws)).take 511 := pushWords_eq (Nat.zero_le 511) _
  have htext : ((joinWords (w::ws)).take 511).length≤1023 := by
    rw [List.length_take]
    omega
  unfold progWrite at hcode ⊢
  dsimp only at hcode ⊢
  rw [hpush] at hcode ⊢
  by_cases hneg : (ensureFile s file).2<0
  · rw [if_pos hneg] at hcode
    exact absurd hcode (by decide : (1 : ℤ)≠0)
  · rw [if_neg hneg] at hcode ⊢
    rw [ShellFiles.orComplain_vfs]
    by_cases hat : ShellCommands.WritableAt (ensureFile s file).1 file
    · obtain ⟨j,hj,hw⟩ := hat
      rw [writeText_run hj hw stack htext]
      exact ⟨_,j,rfl,hj,hw⟩
    · rw [ShellCommands.orComplain_code_eq_zero,writeText_refused fun i hi hw => hat ⟨i,hi,hw⟩] at hcode
      exact absurd (show (-1 : ℤ)<0 by decide) hcode

/-- Afterwards the path leads to a plain file with that text. -/
theorem fileAt_written {F : Type} {stack : Buf} {s : Vfs F} {name file w : CStr} {ws : List CStr}
    (hcode : (progWrite stack s (name::file::w::ws)).code=0) :
    ∃ n,fileAt (progWrite stack s (name::file::w::ws)).vfs file=some n ∧ n.type=.file ∧ n.read=none ∧
      n.content=.ofBytes ((joinWords (w::ws)).take 511) := by
  obtain ⟨t,j,hleft,hj,hw⟩ := progWrite_leaves hcode
  have hlength : ((joinWords (w::ws)).take 511).length≤511 := List.length_take_le _ _
  have hnode := nodes_afterWrite t j ((joinWords (w::ws)).take 511)
  refine ⟨viewNode _ ((afterWrite t j ((joinWords (w::ws)).take 511)).nodes j),?_,?_,?_,
    nodeContent_afterWrite t j (by omega)⟩
  · unfold fileAt
    rw [hleft,vfsLookup_afterWrite,hj]
    rfl
  · change ((afterWrite t j _).nodes j).type=_
    rw [hnode]
    exact hw.type
  · change ((afterWrite t j _).nodes j).read=_
    rw [hnode]
    exact hw.read

/-- What prog_cat shows of a file that was written. -/
def catText (v : View) (j : Slot) (text : List Byte) : List TtyOp :=
  if (v.files.nodes j).perm&&&vfsPermRead=0 then [] else [str "\n",.writestring (.ofBytes text)]

/-- Of a plain file with a short text prog_cat shows the text, unless the file
may not be read. -/
theorem progCat_file {v : View} {file : CStr} {n : NodeView ProcFile} (h : fileAt v.files file=some n)
    (htype : n.type=.file) (hnone : n.read=none) {text : List Byte} (hcontent : n.content=.ofBytes text)
    (hlength : text.length≤511) (c : CStr) (rest : List CStr) :
    ∃ j,vfsLookup v.files (some file)=some j ∧ progCat v (c::file::rest)=(0,catText v j text) := by
  obtain ⟨j,hlookup,rfl⟩ := Option.map_eq_some_iff.mp h
  have hread : (v.files.nodes j).read=none := hnone
  have hdir : (v.files.nodes j).type≠.dir := by
    rw [show (v.files.nodes j).type=.file from htype]
    decide
  refine ⟨j,hlookup,?_⟩
  unfold catText
  split_ifs with hperm
  · exact progCat_hidden hlookup hdir (Or.inr ⟨hperm,hread⟩) c rest
  · have hok : ¬Unreadable (v.files.nodes j) := fun h => h.elim hdir fun hp => hperm hp.1
    have htext : fileText v.machine v.files j=(CStr.ofBytes text).bytes := by
      unfold fileText
      rw [hread]
      exact congrArg CStr.bytes hcontent
    have hshort : (CStr.ofBytes text).bytes.length≤511 := (List.takeWhile_sublist _).length_le.trans hlength
    rw [progCat_text hlookup hok,htext,List.take_of_length_le hshort,CStr.ofBytes_self]

variable {L : Layout} {fuel : ℕ}

/-- The write command changes files as prog_write does. -/
theorem executeCommand_write {X : ExecLayout L} {s t : Shell} {table : Programs ShellProgram}
    (htable : s.programs=shellPrograms table) {inp : Input} {cmd : CStr} {args : List CStr}
    (hcmd : parseArgs cmd.bytes 16=.lit "write"::args) (h : s.executeCommand fuel X inp cmd=some t) :
    t.files=(progWrite inp.stack s.files (.lit "write"::args)).vfs := by
  have hmem : (⟨.lit "write",.lit "write text to file",.write⟩ : Registration ShellProgram)∈
      shellRegisterPrograms := by simp [shellRegisterPrograms]
  have hkept : ¬(ShellProgram.write=.reboot ∨ ShellProgram.write=.halt) := by decide
  obtain ⟨u,hcall,rfl⟩ := executeCommand_listed htable hmem hkept hcmd h
  obtain ⟨v,hv,hrun⟩ := Option.bind_eq_some_iff.mp hcall
  obtain ⟨_,_,hv⟩ := Option.bind_eq_some_iff.mp hv
  obtain ⟨_,_,rfl⟩ := Option.map_eq_some_iff.mp hv
  obtain ⟨ops,hops⟩ := returned_eq u (.lit "write"::args)
  rw [hops,←Option.some.inj hrun]
  rfl

/-- The cat command shows what prog_cat writes, and changes nothing else. -/
theorem executeCommand_cat {X : ExecLayout L} {s t : Shell} {table : Programs ShellProgram}
    (htable : s.programs=shellPrograms table) (hidle : s.mode=.idle) {inp : Input} {cmd : CStr}
    {args : List CStr} (hcmd : parseArgs cmd.bytes 16=.lit "cat"::args)
    (h : s.executeCommand fuel X inp cmd=some t) :
    ∃ v : View,v.files=s.files ∧ t=s.write (lineText s.batch (progCat v (.lit "cat"::args)).2) := by
  have hmem : (⟨.lit "cat",.lit "read file",.cat⟩ : Registration ShellProgram)∈
      shellRegisterPrograms := by simp [shellRegisterPrograms]
  have hkept : ¬(ShellProgram.cat=.reboot ∨ ShellProgram.cat=.halt) := by decide
  have hdistinct : CStr.lit "cat"≠.lit "clear" := by decide +kernel
  obtain ⟨u,hcall,rfl⟩ := executeCommand_listed htable hmem hkept hcmd h
  obtain ⟨v,hv,hrun⟩ := Option.bind_eq_some_iff.mp hcall
  obtain ⟨_,_,hv⟩ := Option.bind_eq_some_iff.mp hv
  obtain ⟨_,_,hv⟩ := Option.map_eq_some_iff.mp hv
  have hfiles : v.files=s.files := by
    rw [←hv]
    rfl
  exact ⟨v,hfiles,returned_lineText hidle (fun hc => hdistinct (Option.some.inj hc)) (Option.some.inj hrun).symm⟩

/-- In every session: after a write command that succeeded, and anything after
it that leaves the file under the path as it is, the cat command for the path
shows the text that was written, up to the 511 bytes that the command takes,
unless the file may not be read; then it shows nothing. -/
theorem written_text_is_shown {X : ExecLayout L} {es es' : List ShellEvent} {boot s t t' u : Shell}
    (hboot : ShellBoot L boot) (h : Session fuel X boot es s) {inp inp' : Input} {cmd cmd' file w : CStr}
    {ws rest : List CStr} (hwrite : parseArgs cmd.bytes 16=.lit "write"::file::w::ws)
    (hcat : parseArgs cmd'.bytes 16=.lit "cat"::file::rest)
    (hcode : (progWrite inp.stack s.files (.lit "write"::file::w::ws)).code=0)
    (hfirst : s.step fuel X (.line inp cmd)=some t) (hbetween : Session fuel X t es' t')
    (hkept : fileAt t'.files file=fileAt t.files file) (hsecond : t'.step fuel X (.line inp' cmd')=some u) :
    ∃ j,vfsLookup t'.files (some file)=some j ∧
      u=t'.write (lineText t'.batch (if (t'.files.nodes j).perm&&&vfsPermRead=0 then []
        else [str "\n",.writestring (.ofBytes ((joinWords (w::ws)).take 511))])) := by
  obtain ⟨hinv,_⟩ := session_inv h (shellBoot_inv hboot)
  obtain ⟨hafter,_⟩ := hinv.step hfirst
  obtain ⟨hinv',_⟩ := session_inv hbetween hafter
  obtain ⟨table,htable⟩ := hinv.programs
  obtain ⟨table',htable'⟩ := hinv'.programs
  simp only [Shell.step] at hfirst hsecond
  split_ifs at hfirst
  split_ifs at hsecond with hguard
  obtain ⟨v,hv,hu⟩ := executeCommand_cat htable' hguard.1 hcat hsecond
  obtain ⟨n,hn,htype,hread,hcontent⟩ := fileAt_written hcode
  rw [←executeCommand_write htable hwrite hfirst,←hkept,←hv] at hn
  obtain ⟨j,hj,hshown⟩ := progCat_file hn htype hread hcontent (List.length_take_le _ _) (.lit "cat") rest
  rw [hv] at hj
  refine ⟨j,hj,?_⟩
  rw [hu,hshown]
  unfold catText
  rw [hv]

/-- A line that stops nothing comes to its end, and the next one may follow. -/
theorem line_goes_on {X : ExecLayout L} {s : Shell} (h : ShellInv L s) (hf : 2^32≤fuel)
    (hidle : s.mode=.idle) (hrun : s.machine.system.halted=false) (inp : Input) {cmd : CStr}
    (hstop : ¬StopWord (parseArgs cmd.bytes 16)) :
    ∃ t,s.step fuel X (.line inp cmd)=some t ∧ ShellInv L t ∧ t.mode=.idle ∧
      t.machine.system.halted=false := by
  obtain ⟨t,ht⟩ := h.line_returns hf X hidle hrun inp cmd
  obtain ⟨hinv,_,_,hmode⟩ := h.line ht
  rw [if_neg hstop] at hmode
  have hline := ht
  simp only [Shell.step] at hline
  split_ifs at hline
  exact ⟨t,ht,hinv,hmode,(executeCommand_effect hidle hline).halted.trans hrun⟩

/-- The files after a write command. -/
theorem files_after_write {X : ExecLayout L} {s t : Shell} (h : ShellInv L s) {inp : Input} {cmd : CStr}
    {args : List CStr} (hcmd : parseArgs cmd.bytes 16=.lit "write"::args)
    (hstep : s.step fuel X (.line inp cmd)=some t) :
    t.files=(progWrite inp.stack s.files (.lit "write"::args)).vfs := by
  obtain ⟨table,htable⟩ := h.programs
  simp only [Shell.step] at hstep
  split_ifs at hstep
  exact executeCommand_write htable hcmd hstep

/-- Two files are written at boot, and the first one is shown. -/
theorem written_text_at_boot :
    ∃ t t' u j,sampleShell.step (2^32) sampleExec (.line sampleInput (.lit "write /a hi"))=some t ∧
      t.step (2^32) sampleExec (.line sampleInput (.lit "write /b there"))=some t' ∧
      t'.step (2^32) sampleExec (.line sampleInput (.lit "cat /a"))=some u ∧
      vfsLookup t'.files (some (.lit "/a"))=some j ∧
      u=t'.write (lineText t'.batch [str "\n",.writestring (.lit "hi")]) := by
  have hf := Nat.le_refl (2^32)
  have hfirst : parseArgs (CStr.lit "write /a hi").bytes 16=.lit "write"::.lit "/a"::.lit "hi"::[] := by
    decide +kernel
  have hsecond : parseArgs (CStr.lit "write /b there").bytes 16=.lit "write"::.lit "/b"::.lit "there"::[] := by
    decide +kernel
  have hcat : parseArgs (CStr.lit "cat /a").bytes 16=.lit "cat"::.lit "/a"::[] := by decide +kernel
  have hinv := shellBoot_inv sampleShell_boot
  obtain ⟨t,ht,hinvt,hidle,hrun⟩ := line_goes_on (X := sampleExec) hinv hf rfl rfl sampleInput
    (by decide +kernel : ¬StopWord (parseArgs (CStr.lit "write /a hi").bytes 16))
  obtain ⟨t',ht',hinvt',hidle',hrun'⟩ := line_goes_on (X := sampleExec) hinvt hf hidle hrun sampleInput
    (by decide +kernel : ¬StopWord (parseArgs (CStr.lit "write /b there").bytes 16))
  obtain ⟨u,hu,_⟩ := line_goes_on (X := sampleExec) hinvt' hf hidle' hrun' sampleInput
    (by decide +kernel : ¬StopWord (parseArgs (CStr.lit "cat /a").bytes 16))
  have hfiles := files_after_write hinv hfirst ht
  have hfiles' := files_after_write hinvt hsecond ht'
  rw [hfiles] at hfiles'
  obtain ⟨j,hj,hshown⟩ := written_text_is_shown sampleShell_boot .refl hfirst hcat (by decide +kernel) ht
    (.step _ .refl ht') (by rw [hfiles',hfiles]; decide +kernel) hu
  have hperm : ∀ i,vfsLookup t'.files (some (.lit "/a"))=some i→
      (t'.files.nodes i).perm&&&vfsPermRead≠0 := by
    rw [hfiles']
    decide +kernel
  rw [if_neg (hperm j hj)] at hshown
  have hword : CStr.ofBytes ((joinWords [.lit "hi"]).take 511)=.lit "hi" := by decide +kernel
  rw [hword] at hshown
  exact ⟨t,t',u,j,ht,ht',hu,hj,hshown⟩

end EronKernel.ShellCat

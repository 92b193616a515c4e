import EronKernel.ShellModel
import EronKernel.VfsContents
import EronKernel.VfsEffects

/-!
# Files that the shell leaves behind

The shell's programs write texts of at most 1023 bytes without NUL. Every
regular file therefore keeps such a content, whatever lines are entered, and
the 1024 bytes that prog_cp reads at once are always the whole file.
-/

namespace EronKernel.ShellFiles

open ByteMemory CString VfsModel VfsTable VfsShape VfsContents VfsEffects ProcFiles ShellModel

variable {F : Type}

/-- A regular file whose content has no NUL and at most 1023 bytes. -/
def FileSmall (v : NodeView F) : Prop :=
  v.type=.file→ v.read=none→ v.content.bytes.length=v.size.toNat ∧ v.size.toNat≤1023

/-- The node array with small files only. -/
structure FilesOk (s : Vfs F) : Prop extends TableOk s where
  /-- Every regular file is small. -/
  small : ∀ i v,table s i=some v→FileSmall v

/-- A call that stores at most 1023 bytes, none of them NUL. -/
def SmallCall : VfsCall F→Prop
  | .mkfile _ content => (argBytes content).length≤1023
  | .write _ (some d) size => writtenSize size≤1023 ∧ ∀ k<writtenSize size,d k≠0
  | _ => True

/-- A text of limited length without NUL. -/
structure Small (max : ℕ) (out : List Byte) : Prop where
  /-- The limit. -/
  length : out.length ≤ max
  /-- No NUL. -/
  nonzero : (0 : Byte)∉out

/-- The length field of a small content. -/
theorem toNat_small {n : ℕ} (h : n≤1023) : (BitVec.ofNat 32 n).toNat=n := by
  rw [BitVec.toNat_ofNat,Nat.mod_eq_of_lt (by omega)]

/-- A call with a small content creates a small file. -/
theorem fileSmall_of_newView {c : VfsCall F} {v : NodeView F} (hc : SmallCall c) (h : NewView c v) :
    FileSmall v := by
  intro ht hr
  cases h with
  | mkdir | mkdev => cases ht
  | refused | mkproc => exact ⟨rfl,Nat.zero_le 1023⟩
  | @mkfile _ content _ _ =>
    have hlen : (argStr content).bytes.length≤1023 := by
      cases content with
      | none => decide
      | some c => exact hc
    dsimp only
    rw [toNat_small hlen]
    exact ⟨rfl,hlen⟩

/-- A call with a small content leaves a small file small. -/
theorem fileSmall_of_editedView {c : VfsCall F} {v w : NodeView F} (hc : SmallCall c)
    (h : EditedView c v w) (hv : FileSmall v) : FileSmall w := by
  cases h with
  | @write _ d size _ _ =>
    intro _ _
    obtain ⟨hlen,hd⟩ := hc
    have h0 : (0 : Byte)∉(List.range (writtenSize size)).map d := by simpa using hd
    dsimp only
    rw [toNat_small hlen,CStr.ofBytes_bytes h0,List.length_map,List.length_range]
    exact ⟨rfl,hlen⟩
  | rename | chmod => exact hv

/-- Updating one slot with a small file. -/
theorem FilesOk.puts {s t : Vfs F} (h : FilesOk s) (ht : TableOk t) {i : Slot}
    {w : Option (NodeView F)} (hput : Puts s t i w) (hw : ∀ v,w=some v→FileSmall v) : FilesOk t where
  toTableOk := ht
  small := by
    intro j v hv
    rw [hput.table_eq] at hv
    by_cases hj : j=i
    · subst hj
      rw [Function.update_self] at hv
      exact hw v hv
    · rw [Function.update_of_ne hj] at hv
      exact h.small j v hv

/-- How a step with a small content goes. -/
theorem FilesOk.step {s t : Vfs F} {c : VfsCall F} (h : FilesOk s) (hc : SmallCall c)
    (hs : TableStep s c t) : FilesOk t := by
  have ht := hs.tableOk h.toTableOk
  cases hs with
  | same => exact h
  | add _ _ hnew hadd =>
    obtain ⟨_,_,_,hput⟩ := hadd
    exact h.puts ht hput fun v hv => Option.some.inj hv▸fileSmall_of_newView hc hnew
  | edit _ _ hv hedit hch =>
    exact h.puts ht hch.2 fun v hw =>
      Option.some.inj hw▸fileSmall_of_editedView hc hedit (h.small _ _ hv)
  | clear _ _ _ hch => exact h.puts ht hch.2 fun v hv => by cases hv

/-- A call with a small content keeps files small. -/
theorem FilesOk.call {s : Vfs F} (h : FilesOk s) (c : VfsCall F) (hc : SmallCall c) :
    FilesOk (performCall s c).1 :=
  h.step hc (performCall_tableStep h.shape c)

/-- Creating an empty file. -/
theorem FilesOk.mkfileEmpty {s : Vfs F} (h : FilesOk s) (p : CStr) :
    FilesOk (vfsMkfile s (some p) (some .empty)).1 := by
  have hc : SmallCall (.mkfile (some p) (some .empty) : VfsCall F) := by
    change (0 : ℕ)≤1023
    decide
  exact h.call _ hc

/-- Storing a byte keeps a text small. -/
theorem Small.pushByte {max : ℕ} {out : List Byte} (h : Small max out) {b : Byte} (hb : b≠0) :
    Small max (pushByte max out b) := by
  unfold ShellModel.pushByte
  split_ifs with hlt
  · refine ⟨by simp only [List.length_append,List.length_singleton]; omega,?_⟩
    rw [List.mem_append,List.mem_singleton]
    rintro (h0|h0)
    · exact h.nonzero h0
    · exact hb h0.symm
  · exact h

/-- Storing bytes keeps a text small. -/
theorem Small.pushBytes {max : ℕ} (bytes : List Byte) :
    ∀ {out : List Byte},Small max out→(0 : Byte)∉bytes→Small max (bytes.foldl (ShellModel.pushByte max) out) := by
  induction bytes with
  | nil => exact fun h _ => h
  | cons b bytes ih =>
    intro out h h0
    obtain ⟨hb,hbytes⟩ := not_or.mp (List.mem_cons.not.mp h0)
    exact ih (h.pushByte fun he => hb he.symm) hbytes

/-- Storing words with a blank in front of each keeps a text small. -/
theorem Small.pushBlankWords {max : ℕ} (ws : List CStr) :
    ∀ {out : List Byte},Small max out→
      Small max (ws.foldl (fun out w => pushWord max (ShellModel.pushByte max out 0x20) w) out) := by
  induction ws with
  | nil => exact fun h => h
  | cons w ws ih =>
    intro out h
    have hblank : Small max (ShellModel.pushByte max out 0x20) := h.pushByte (by decide)
    exact ih (Small.pushBytes w.bytes hblank w.nonzero)

/-- Storing words with blanks between them keeps a text small. -/
theorem Small.pushWords {max : ℕ} {out : List Byte} (h : Small max out) (ws : List CStr) :
    Small max (pushWords max out ws) := by
  cases ws with
  | nil => exact h
  | cons w ws => exact Small.pushBlankWords ws (Small.pushBytes w.bytes h w.nonzero)

/-- The empty text. -/
theorem small_nil (max : ℕ) : Small max [] := ⟨Nat.zero_le max,List.not_mem_nil⟩

/-- What prog_append writes. -/
theorem small_appendedText {current : List Byte} (h0 : (0 : Byte)∉current) (words : List CStr) :
    Small 1023 (appendedText current words) := by
  have hcur := Small.pushBytes current (small_nil 1023) h0
  refine Small.pushWords ?_ words
  split_ifs with hpos
  · exact hcur.pushByte (by decide)
  · exact hcur

/-- A small request is stored whole. -/
theorem writtenSize_small {n : ℕ} (hn : n≤1023) : writtenSize (BitVec.ofNat 32 n)=n := by
  unfold writtenSize
  rw [toNat_small hn,if_neg (fun hge : 4096≤n => by omega)]

/-- Writing a small number of bytes that are not NUL. -/
theorem FilesOk.writeSmall {s : Vfs F} (h : FilesOk s) (p : CStr) {d : Buf} {n : ℕ} (hn : n≤1023)
    (hd : ∀ k<n,d k≠0) : FilesOk (vfsWrite s (some p) (some d) (BitVec.ofNat 32 n)).1 := by
  have hsize := writtenSize_small hn
  have hc : SmallCall (.write (some p) (some d) (BitVec.ofNat 32 n) : VfsCall F) := by
    change writtenSize _≤1023 ∧ ∀ k<writtenSize _,d k≠0
    rw [hsize]
    exact ⟨hn,hd⟩
  exact h.call _ hc

/-- Writing a small text. -/
theorem FilesOk.writeText {s : Vfs F} (h : FilesOk s) (p : CStr) (stack : Buf) {out : List Byte}
    (hout : Small 1023 out) : FilesOk (writeText s p stack out).1 := by
  refine h.writeSmall p hout.length fun k hk => ?_
  unfold fillBuf
  rw [dif_pos hk]
  exact fun he => hout.nonzero (he▸List.getElem_mem hk)

/-- What a program leaves behind is what its last call left behind. -/
theorem orComplain_vfs (r : Vfs F×ℤ) (message : String) : (orComplain r message).vfs=r.1 := by
  unfold orComplain
  split_ifs <;> rfl

/-- Read functions that write a text without NUL in front of the buffer's
end. -/
def ReadersOk (call : F→Buf→Word→ℤ×Buf) : Prop :=
  ∀ f b (size : Word),size≠0→∃ n : ℕ,(call f b size).1=n ∧ n<size.toNat ∧ ∀ k<n,(call f b size).2 k≠0

/-- What is read at once is small. -/
theorem vfsRead_small {call : F→Buf→Word→ℤ×Buf} (hcall : ReadersOk call) (s : Vfs F) (p : CStr)
    (stack : Buf) (hok : ¬(vfsRead call s (some p) (some stack) 1024).1<0) :
    ∃ n : ℕ,(vfsRead call s (some p) (some stack) 1024).1=n ∧ n≤1023 ∧
      ∀ k<n,readBuf stack (vfsRead call s (some p) (some stack) 1024) k≠0 := by
  rcases vfsRead_cases call s p stack (by decide : (1024 : Word)≠0) (by decide) with
    ⟨hfail,_⟩|⟨i,_,_,⟨f,_,hrun⟩|⟨_,hrun⟩⟩
  · rw [hfail] at hok
    exact absurd (show (-1 : ℤ)<0 by decide) hok
  · obtain ⟨n,hn,hlt,hd⟩ := hcall f stack 1024 (by decide)
    rw [hrun]
    exact ⟨n,hn,Nat.le_of_lt_succ hlt,hd⟩
  · rw [hrun]
    refine ⟨_,rfl,?_,fun k hk => ?_⟩
    · exact List.length_take_le _ _
    · change fillBuf stack _ k≠0
      unfold fillBuf
      rw [dif_pos hk]
      exact fun he => CStr.nonzero _ (he▸List.getElem_mem hk)

/-- The file that a program writes next, created if its path led nowhere. -/
theorem FilesOk.ensure {s : Vfs F} (h : FilesOk s) (p : CStr) :
    FilesOk (ensureFile s p).1 := by
  unfold ensureFile
  split_ifs with hl
  · exact h
  · exact h.mkfileEmpty p

/-- prog_touch. -/
theorem progTouch_filesOk {s : Vfs F} (h : FilesOk s) (argv : List CStr) : FilesOk (progTouch s argv).vfs := by
  unfold progTouch
  split
  · split_ifs with hl
    · exact h
    · rw [orComplain_vfs]
      exact h.mkfileEmpty _
  · exact h

/-- prog_write. -/
theorem progWrite_filesOk (stack : Buf) {s : Vfs F} (h : FilesOk s) (argv : List CStr) :
    FilesOk (progWrite stack s argv).vfs := by
  unfold progWrite
  split
  · rename_i file w ws
    have hensure := h.ensure file
    have hsmall := Small.pushWords (small_nil 511) (w::ws)
    dsimp only
    split_ifs with hr
    · exact hensure
    · rw [orComplain_vfs]
      exact hensure.writeText _ stack ⟨hsmall.length.trans (by decide),hsmall.nonzero⟩
  · exact h

/-- prog_rm. -/
theorem progRm_filesOk {s : Vfs F} (h : FilesOk s) (argv : List CStr) : FilesOk (progRm s argv).vfs := by
  unfold progRm
  split
  · rename_i path _
    rw [orComplain_vfs]
    exact h.call (.remove (some path)) trivial
  · exact h

/-- prog_mv. -/
theorem progMv_filesOk {s : Vfs F} (h : FilesOk s) (argv : List CStr) : FilesOk (progMv s argv).vfs := by
  unfold progMv
  split
  · rename_i src dst _
    rw [orComplain_vfs]
    exact h.call (.rename (some src) (some dst)) trivial
  · exact h

/-- prog_mkdir. -/
theorem progMkdir_filesOk {s : Vfs F} (h : FilesOk s) (argv : List CStr) : FilesOk (progMkdir s argv).vfs := by
  unfold progMkdir
  split
  · rename_i dir _
    rw [orComplain_vfs]
    exact h.call (.mkdir (some dir)) trivial
  · exact h

/-- prog_chmod. -/
theorem progChmod_filesOk {s : Vfs F} (h : FilesOk s) (argv : List CStr) : FilesOk (progChmod s argv).vfs := by
  unfold progChmod
  split
  · rename_i path _
    split
    · rename_i digit _
      split_ifs with hd
      · exact h
      · rw [orComplain_vfs]
        exact h.call (.chmod (some path) (modePerm digit)) trivial
    · exact h
  · exact h

/-- prog_cp. -/
theorem progCp_filesOk {call : F→Buf→Word→ℤ×Buf} (hcall : ReadersOk call) (stack : Buf) {s : Vfs F}
    (h : FilesOk s) (argv : List CStr) : FilesOk (progCp call stack s argv).vfs := by
  unfold progCp
  split
  · rename_i src dst _
    dsimp only
    by_cases hread : (vfsRead call s (some src) (some stack) 1024).1<0
    · rw [if_pos hread]
      exact h
    · rw [if_neg hread]
      obtain ⟨n,hn,hle,hd⟩ := vfsRead_small hcall s src stack hread
      have hensure := h.ensure dst
      split_ifs with hr
      · exact hensure
      · rw [orComplain_vfs,hn,BitVec.ofInt_natCast]
        exact hensure.writeSmall _ hle hd
  · exact h

/-- prog_append. -/
theorem progAppend_filesOk {call : F→Buf→Word→ℤ×Buf} (hcall : ReadersOk call) (stack : Buf) {s : Vfs F}
    (h : FilesOk s) (argv : List CStr) : FilesOk (progAppend call stack s argv).vfs := by
  unfold progAppend
  split
  · rename_i file w ws
    dsimp only
    by_cases hread : (vfsRead call s (some file) (some stack) 1024).1<0
    · rw [if_pos hread]
      split_ifs with hr
      · exact h.mkfileEmpty _
      · rw [orComplain_vfs]
        exact (h.mkfileEmpty _).writeText _ stack (small_appendedText List.not_mem_nil _)
    · rw [if_neg hread,orComplain_vfs]
      obtain ⟨n,hn,_,hd⟩ := vfsRead_small hcall s file stack hread
      refine h.writeText _ stack (small_appendedText ?_ _)
      rw [hn,Int.toNat_natCast]
      simpa using hd
  · exact h

/-- A program leaves small files small. -/
theorem runProgram_filesOk {call : F→Buf→Word→ℤ×Buf} (hcall : ReadersOk call) (stack : Buf)
    (prog : FileProgram) {s : Vfs F} (h : FilesOk s) (argv : List CStr) :
    FilesOk (runProgram call stack prog s argv).vfs := by
  cases prog with
  | touch => exact progTouch_filesOk h argv
  | write => exact progWrite_filesOk stack h argv
  | rm => exact progRm_filesOk h argv
  | mv => exact progMv_filesOk h argv
  | mkdir => exact progMkdir_filesOk h argv
  | chmod => exact progChmod_filesOk h argv
  | cp => exact progCp_filesOk hcall stack h argv
  | append => exact progAppend_filesOk hcall stack h argv

/-- The calls of vfs_populate create small files. -/
theorem smallCall_populate : ∀ c∈populateCalls,SmallCall c := by
  simp only [populateCalls,List.forall_mem_cons]
  refine ⟨trivial,trivial,trivial,trivial,trivial,trivial,trivial,trivial,?_,?_,?_,?_,?_,
    trivial,trivial,trivial,?_,trivial,trivial,trivial,trivial,?_,?_,?_,List.forall_mem_nil _⟩
  all_goals simp only [SmallCall,argBytes]
  all_goals decide

/-- Calls with small contents one after the other. -/
theorem performOps_filesOk (cs : List (VfsCall F)) :
    ∀ {s : Vfs F},FilesOk s→(∀ c∈cs,SmallCall c)→FilesOk (performOps s (cs.map .call)) := by
  induction cs with
  | nil => exact fun h _ => h
  | cons c cs ih =>
    intro s h hc
    exact ih (h.call c (hc c List.mem_cons_self)) fun d hd => hc d (List.mem_cons_of_mem c hd)

/-- The files that the shell starts with are small. -/
theorem vfsPopulate_filesOk : FilesOk vfsPopulate := by
  refine performOps_filesOk populateCalls ⟨tableOk_init,?_⟩ smallCall_populate
  intro i v hv
  rw [table_init] at hv
  cases hv

/-- A command line leaves small files small. -/
theorem executeCommand_filesOk {s : Vfs ProcFile} (h : FilesOk s) (line : CommandLine) :
    FilesOk (executeCommand s line) := by
  unfold executeCommand
  split
  · exact h
  · split
    · exact h
    · exact runProgram_filesOk (procCall_ok line.machine) line.stack _ h _

/-- Files stay small whatever lines are entered. -/
theorem shellRun_filesOk (lines : List CommandLine) : FilesOk (shellRun lines) := by
  have hrun : ∀ {s : Vfs ProcFile},FilesOk s→FilesOk (lines.foldl executeCommand s) := by
    induction lines with
    | nil => exact fun h => h
    | cons line lines ih => exact fun h => ih (executeCommand_filesOk h line)
  exact hrun vfsPopulate_filesOk

end EronKernel.ShellFiles

import EronKernel.ShellAppend
import EronKernel.WordSplit

/-!
# A write command from the line to the file

parse_args cuts a line into its words but keeps at most sixteen of them, and
prog_write joins again what is left behind the name of the file. A line has at
most 127 characters, so neither the array of prog_write nor vfs_write drops
anything.
-/

namespace EronKernel.ShellWrite

open ByteMemory CString WordSplit BoundedText VfsModel VfsTable VfsShape VfsContents VfsEffects ProcFiles
open ShellModel ShellFiles ShellCommands ShellAppend

variable {F : Type}

/-- A run of a string without NUL is a whole string. -/
theorem ofBytes_takeWhile {bytes : List Byte} (h0 : (0 : Byte)∉bytes) :
    (CStr.ofBytes (bytes.takeWhile fun b => b≠0x20)).bytes=bytes.takeWhile fun b => b≠0x20 :=
  CStr.ofBytes_bytes fun hmem => h0 (List.takeWhile_sublist _ |>.mem hmem)

/-- parse_args keeps the first words of the line. -/
theorem parseArgs_eq (max : ℕ) :
    ∀ {input : List Byte},(0 : Byte)∉input→
      (parseArgs input max).map CStr.bytes=(wordsOf 0x20 input).take max := by
  induction max with
  | zero => exact fun _ => List.take_zero.symm
  | succ max ih =>
    intro input h0
    have hrest : (0 : Byte)∉input.dropWhile fun b => b=0x20 := fun hmem =>
      h0 ((List.dropWhile_sublist _).mem hmem)
    unfold parseArgs
    dsimp only
    rw [←wordsOf_dropWhile]
    cases hp : input.dropWhile fun b => b=0x20 with
    | nil => simp
    | cons b p =>
      rw [hp] at hrest
      have hb : b≠0x20 := by
        have hhead := List.head?_dropWhile_not (fun b : Byte => decide (b=0x20)) input
        rw [hp] at hhead
        simpa using hhead
      have htail : (0 : Byte)∉(b::p).drop (((b::p).takeWhile fun b => b≠0x20).length+1) := fun hmem =>
        hrest (List.mem_of_mem_drop hmem)
      rw [if_neg (by simp),List.map_cons,ofBytes_takeWhile hrest,ih htail,wordsOf_takeWhile hb,
        List.take_succ_cons]

/-- A line whose words are the name of prog_write, a file and a text. -/
def WriteLine (line file : CStr) (text : List CStr) : Prop :=
  wordsOf 0x20 line.bytes=(CStr.lit "write"::file::text).map CStr.bytes

/-- Whether a line is such a line can be computed. -/
instance (line file : CStr) (text : List CStr) : Decidable (WriteLine line file text) :=
  inferInstanceAs (Decidable (_=_))

/-- The argument vector of such a line has room for fourteen words of the
text. -/
theorem parseArgs_writeLine {line file : CStr} {text : List CStr} (h : WriteLine line file text) :
    parseArgs line.bytes 16=.lit "write"::file::text.take 14 := by
  have hinj : Function.Injective (List.map CStr.bytes) :=
    List.map_injective_iff.mpr fun _ _ he => CStr.ext he
  have hparse := parseArgs_eq 16 line.nonzero
  rw [show wordsOf 0x20 line.bytes=_ from h,←List.map_take] at hparse
  exact hinj hparse

/-- execute_command calls prog_write on such a line. -/
theorem executeCommand_writeLine (s : Vfs ProcFile) {line : CommandLine} {file : CStr} {text : List CStr}
    (h : WriteLine line.text file text) :
    executeCommand s line=(progWrite line.stack s (parseArgs line.text.bytes 16)).vfs := by
  have hfind : programFind (.lit "write")=some .write := by decide +kernel
  unfold executeCommand
  rw [parseArgs_writeLine h]
  dsimp only
  rw [hfind]
  rfl

/-- Joined words, cut between two of them. -/
theorem joinWords_append {vs ws : List CStr} (hv : vs≠[]) (hw : ws≠[]) :
    joinWords (vs++ws)=joinWords vs++0x20::joinWords ws := by
  obtain ⟨v,vs,rfl⟩ := List.exists_cons_of_ne_nil hv
  obtain ⟨w,ws,rfl⟩ := List.exists_cons_of_ne_nil hw
  rw [List.cons_append,joinWords_cons,joinWords_cons,joinWords_cons,List.flatMap_append,List.flatMap_cons]
  simp

/-- The text of a line is no longer than the line. -/
theorem length_text_le {line file : CStr} {text : List CStr} (h : WriteLine line file text) :
    (joinWords text).length ≤ line.bytes.length := by
  have hall : (joinWords (.lit "write"::file::text)).length ≤ line.bytes.length := by
    unfold joinWords
    rw [←show wordsOf 0x20 line.bytes=_ from h]
    exact length_intercalate_wordsOf_le 0x20 line.bytes
  cases text with
  | nil => exact Nat.zero_le _
  | cons w ws =>
    have hcut : joinWords ([.lit "write",file]++w::ws)=_ :=
      joinWords_append (List.cons_ne_nil _ _) (List.cons_ne_nil w ws)
    rw [List.cons_append,List.cons_append,List.nil_append] at hcut
    rw [hcut,List.length_append,List.length_cons] at hall
    omega

/-- Words that are left out are missing from the text. -/
theorem length_joinWords_take (text : List CStr) {n : ℕ} (hn : n≠0) (hlong : n<text.length) :
    (joinWords (text.take n)).length<(joinWords text).length := by
  have htake : text.take n≠[] := by
    intro he
    have hlen := congrArg List.length he
    rw [List.length_take,List.length_nil] at hlen
    omega
  have hdrop : text.drop n≠[] := by
    intro he
    have hlen := congrArg List.length he
    rw [List.length_drop,List.length_nil] at hlen
    omega
  have hcut := joinWords_append htake hdrop
  rw [List.take_append_drop] at hcut
  rw [hcut,List.length_append,List.length_cons]
  omega

/-- prog_write gets through to its write: the path leads to a file that may be
written, or nowhere and a file that is found again can be created under it. -/
def WriteGoesThrough (s : Vfs F) (file : CStr) : Prop :=
  (∃ i,vfsLookup s (some file)=some i ∧ WritableNode (s.nodes i)) ∨
  vfsLookup s (some file)=none ∧ Creatable s (some file) ∧ file.bytes.length<128

/-- prog_write with words returns 0 exactly when it gets through to its write,
and then it has written the start of the joined words. -/
theorem progWrite_cases {s : Vfs F} (h : Shape s) (stack : Buf) (name file w : CStr) (ws : List CStr) :
    (¬WriteGoesThrough s file ∧ (progWrite stack s (name::file::w::ws)).code≠0) ∨
    WriteGoesThrough s file ∧ (progWrite stack s (name::file::w::ws)).code=0 ∧
      Holds s (progWrite stack s (name::file::w::ws)).vfs file ((joinWords (w::ws)).take 511) := by
  have hpush : pushWords 511 [] (w::ws)=(joinWords (w::ws)).take 511 := pushWords_eq (Nat.zero_le 511) _
  have htext : ((joinWords (w::ws)).take 511).length≤1023 := by
    rw [List.length_take]
    omega
  unfold progWrite
  dsimp only
  rw [hpush]
  rcases ensureFile_cases h file with ⟨⟨i,hi⟩,hrun⟩|⟨hl,hno,hrun⟩|⟨hl,hyes,hcode,hadd⟩
  · have hgo : WritableAt s file ↔ WriteGoesThrough s file := by
      refine ⟨Or.inl,fun hor => hor.elim id fun hnone => ?_⟩
      rw [hi] at hnone
      cases hnone.1
    rw [hrun,if_neg (lt_irrefl 0),←hgo]
    exact writeText_cases (fun _ hj => hj) stack htext _
  · rw [hrun,if_pos (show (-1 : ℤ)<0 by decide)]
    refine Or.inl ⟨?_,(by decide : (1 : ℤ)≠0)⟩
    rintro (⟨j,hj,_⟩|⟨_,hyes,_⟩)
    · rw [hl] at hj
      cases hj
    · exact hno hyes
  · have hnowhere : ∀ (i : Slot) (q : Prop),vfsLookup s (some file)=some i→ q := by
      intro i q hi
      rw [hl] at hi
      cases hi
    have hgo : WritableAt (ensureFile s file).1 file ↔ WriteGoesThrough s file := by
      rw [writableAt_created hyes hadd fun i hi => hnowhere i _ hi]
      exact or_congr_right (and_congr_right fun _ => ⟨fun hlen => ⟨hyes,hlen⟩,fun hlen => hlen.2⟩)
    rw [hcode,if_neg (lt_irrefl 0),←hgo]
    exact writeText_cases (fun i hi => hnowhere i _ hi) stack htext _

/-- A write command that returns 0 has stored its whole text. -/
def WritesAll (s : Vfs ProcFile) (line : CommandLine) (file : CStr) (text : List CStr) : Prop :=
  (progWrite line.stack s (parseArgs line.text.bytes 16)).code=0→
    ∃ j,vfsLookup (executeCommand s line) (some file)=some j ∧
      fileBytes (executeCommand s line) j=joinWords text

/-- A write command on a well-formed node array. -/
theorem executeCommand_writesAll_iff {s : Vfs ProcFile} (h : Shape s) {line : CommandLine} {file : CStr}
    {text : List CStr} (hlen : line.text.bytes.length≤127) (hline : WriteLine line.text file text) :
    WritesAll s line file text ↔ text.length≤14 ∨ ¬WriteGoesThrough s file := by
  unfold WritesAll
  rw [executeCommand_writeLine s hline,parseArgs_writeLine hline]
  cases text with
  | nil => exact iff_of_true (fun hcode => absurd hcode (by decide : (1 : ℤ)≠0)) (Or.inl (Nat.zero_le 14))
  | cons w ws =>
    have htext := length_text_le hline
    rw [List.take_succ_cons]
    rcases progWrite_cases h line.stack (.lit "write") file w (ws.take 13) with
      ⟨hno,hcode⟩|⟨hgo,hcode,j,hj,hbytes,_⟩
    · exact iff_of_true (fun hzero => absurd hzero hcode) (Or.inr hno)
    · by_cases hshort : (w::ws).length≤14
      · have hall : ws.take 13=ws := List.take_of_length_le (Nat.le_of_succ_le_succ hshort)
        refine iff_of_true (fun _ => ⟨j,hj,?_⟩) (Or.inl hshort)
        rw [hbytes,hall]
        exact List.take_of_length_le (by omega)
      · refine iff_of_false (fun hexact => ?_) fun hcond => hcond.elim hshort fun hno => hno hgo
        obtain ⟨k,hk,hkbytes⟩ := hexact hcode
        cases hj.symm.trans hk
        have hmissing := length_joinWords_take (w::ws) (by decide : 14≠0) (Nat.lt_of_not_le hshort)
        rw [List.take_succ_cons] at hmissing
        have hstored := congrArg List.length (hbytes.symm.trans hkbytes)
        rw [List.length_take] at hstored
        omega

/-- Whatever lines were entered, a write command of at most 127 characters
that returns 0 has stored its whole text, exactly when the text has at most
fourteen words or the command cannot return 0. -/
theorem shell_write_line_iff (lines : List CommandLine) (line : CommandLine) (file : CStr)
    (text : List CStr) (hlen : line.text.bytes.length≤127) (hline : WriteLine line.text file text) :
    WritesAll (shellRun lines) line file text ↔
      text.length≤14 ∨ ¬WriteGoesThrough (shellRun lines) file :=
  executeCommand_writesAll_iff (shellRun_filesOk lines).shape hlen hline

/-- A line with two words of text. -/
def greetingLine : CommandLine := ⟨.lit "write /tmp/a  good  day ",silentMachine,fun _ => 0⟩

/-- A line of two words right after the start. -/
theorem shell_write_greeting :
    WritesAll (shellRun []) greetingLine (.lit "/tmp/a") [.lit "good",.lit "day"] :=
  (shell_write_line_iff [] greetingLine (.lit "/tmp/a") [.lit "good",.lit "day"]
    (by decide +kernel) (by decide +kernel)).mpr (Or.inl (by decide))

/-- Fifteen words of one letter. -/
def letterWords : List CStr :=
  [.lit "a",.lit "b",.lit "c",.lit "d",.lit "e",.lit "f",.lit "g",.lit "h",.lit "i",.lit "j",
    .lit "k",.lit "l",.lit "m",.lit "n",.lit "o"]

/-- The line that writes them. -/
def lettersLine : CommandLine := ⟨.lit "write /tmp/a a b c d e f g h i j k l m n o",silentMachine,fun _ => 0⟩

/-- The fifteenth word of a line is not stored. -/
theorem shell_write_letters_lost :
    lettersLine.text.bytes.length≤127 ∧ WriteLine lettersLine.text (.lit "/tmp/a") letterWords ∧
      ¬WritesAll (shellRun []) lettersLine (.lit "/tmp/a") letterWords := by
  have hlen : lettersLine.text.bytes.length≤127 := by decide +kernel
  have hline : WriteLine lettersLine.text (.lit "/tmp/a") letterWords := by decide +kernel
  have hgo : vfsLookup (shellRun []) (some (.lit "/tmp/a"))=none ∧
      Creatable (shellRun []) (some (.lit "/tmp/a")) ∧ (CStr.lit "/tmp/a").bytes.length<128 := by
    decide +kernel
  refine ⟨hlen,hline,fun hall => ?_⟩
  rcases (executeCommand_writesAll_iff (shellRun_filesOk []).shape hlen hline).mp hall with hshort|hno
  · exact absurd hshort (by decide)
  · exact hno (Or.inr hgo)

end EronKernel.ShellWrite

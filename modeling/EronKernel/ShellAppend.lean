import EronKernel.BoundedText
import EronKernel.ShellCommands

/-!
# prog_append

prog_append reads a file into one array, puts the old content, a blank and the
words together in another and writes that back. Its texts are cut at 1023
bytes, and a file that cannot be read counts as one that does not exist.
-/

namespace EronKernel.ShellAppend

open ByteMemory CString BoundedText VfsModel VfsTable VfsShape VfsContents VfsEffects ProcFiles ShellModel
open ShellFiles ShellCommands

variable {F : Type}

/-- The bytes of words with one blank between each two. -/
def joinWords (ws : List CStr) : List Byte := [0x20].intercalate (ws.map CStr.bytes)

/-- Words behind an old content, with a blank between them and it. -/
def appended (old : List Byte) (words : List CStr) : List Byte :=
  old++(if old=[] then [] else [0x20])++joinWords words

/-- What the file under a path holds; nothing when the path leads nowhere. -/
def contentAt (s : Vfs F) (p : CStr) : List Byte := ((vfsLookup s (some p)).map (fileBytes s)).getD []

/-- Storing a byte. -/
theorem pushByte_eq {max : ℕ} {out : List Byte} (h : out.length ≤ max) (b : Byte) :
    pushByte max out b=addWithin max out [b] := by
  unfold pushByte
  split_ifs with hlt
  · rw [addWithin_of_length_le (by rw [List.length_append,List.length_singleton]; omega)]
  · rw [addWithin_of_full (by omega)]

/-- Storing bytes. -/
theorem pushBytes_eq {max : ℕ} {out : List Byte} (h : out.length ≤ max) (bytes : List Byte) :
    bytes.foldl (pushByte max) out=addWithin max out bytes := by
  rw [foldl_addWithin (fun _ b hout => pushByte_eq hout b) bytes h,List.flatMap_singleton']

/-- Storing a word. -/
theorem pushWord_eq {max : ℕ} {out : List Byte} (h : out.length ≤ max) (w : CStr) :
    pushWord max out w=addWithin max out w.bytes :=
  pushBytes_eq h w.bytes

/-- Joined words start with the first and go on with a blank in front of each
other. -/
theorem joinWords_cons (w : CStr) (ws : List CStr) :
    joinWords (w::ws)=w.bytes++ws.flatMap fun v => 0x20::v.bytes := by
  induction ws generalizing w with
  | nil => simp [joinWords]
  | cons v ws ih =>
    have hcons : joinWords (w::v::ws)=w.bytes++[0x20]++joinWords (v::ws) := List.intercalate_cons_cons
    rw [hcons,ih v,List.flatMap_cons]
    simp

/-- Storing words with blanks between them. -/
theorem pushWords_eq {max : ℕ} {out : List Byte} (h : out.length ≤ max) (ws : List CStr) :
    pushWords max out ws=addWithin max out (joinWords ws) := by
  cases ws with
  | nil => exact (addWithin_nil h).symm
  | cons w ws =>
    have hstep : ∀ (t : List Byte) (v : CStr),t.length ≤ max→
        pushWord max (pushByte max t 0x20) v=addWithin max t (0x20::v.bytes) := by
      intro t v ht
      rw [pushByte_eq ht,pushWord_eq (length_addWithin_le max t [0x20]),addWithin_addWithin,
        List.singleton_append]
    unfold pushWords
    dsimp only
    rw [pushWord_eq h,foldl_addWithin hstep ws (length_addWithin_le max out w.bytes),
      addWithin_addWithin,joinWords_cons]

/-- What prog_append writes is the start of what it should write. -/
theorem appendedText_eq {current : List Byte} (h : current.length≤1023) (words : List CStr) :
    appendedText current words=(appended current words).take 1023 := by
  have hcur : current.foldl (pushByte 1023) []=current := by
    rw [pushBytes_eq (Nat.zero_le 1023)]
    exact addWithin_of_length_le h
  have hblank : (if 0<current.length then pushByte 1023 current 0x20 else current)=
      addWithin 1023 current (if current=[] then [] else [0x20]) := by
    cases current with
    | nil => rfl
    | cons b bs => exact pushByte_eq h 0x20
  unfold appendedText
  dsimp only
  rw [hcur,hblank,pushWords_eq (length_addWithin_le _ _ _),addWithin_addWithin,appended,List.append_assoc]
  rfl

/-- Appending words to a content makes it longer by all of them. -/
theorem length_appended_of_ne_nil {old : List Byte} (h : old≠[]) (words : List CStr) :
    (appended old words).length=old.length+1+(joinWords words).length := by
  unfold appended
  rw [if_neg h]
  simp only [List.length_append,List.length_singleton]

/-- A write of a short text to a file that accepts it. -/
theorem writeText_run {s : Vfs F} {p : CStr} {i : Slot} (hl : vfsLookup s (some p)=some i)
    (hw : WritableNode (s.nodes i)) (stack : Buf) {out : List Byte} (hlen : out.length≤1023) :
    writeText s p stack out=(afterWrite s i out,(out.length : ℤ)) := by
  have hstored : stored (fillBuf stack out) (BitVec.ofNat 32 out.length)=out := by
    rw [stored,writtenSize_small hlen,map_fillBuf]
  unfold writeText
  rw [vfsWrite_run hl hw,hstored,writtenSize_small hlen]

/-- A write under a path that leads to no file that accepts it. -/
theorem writeText_refused {s : Vfs F} {p : CStr}
    (h : ∀ i,vfsLookup s (some p)=some i→¬WritableNode (s.nodes i)) (stack : Buf) (out : List Byte) :
    writeText s p stack out=(s,-1) := by
  rcases vfsWrite_cases s p (fillBuf stack out) (BitVec.ofNat 32 out.length) with ⟨hrun,_⟩|⟨i,hi,hw,_⟩
  · exact hrun
  · exact absurd hw (h i hi)

/-- The path leads to a file with these bytes, the one it led to before if it
led to any. -/
def Holds (s t : Vfs F) (p : CStr) (bytes : List Byte) : Prop :=
  ∃ j,vfsLookup t (some p)=some j ∧ fileBytes t j=bytes ∧ ∀ i,vfsLookup s (some p)=some i→ j=i

/-- A program whose last call writes a short text under a path that still
leads where it led before: the file holds the text, or there was none that may
be written and the program complains. -/
theorem writeText_cases {s t : Vfs F} {p : CStr}
    (hkeep : ∀ i,vfsLookup s (some p)=some i→vfsLookup t (some p)=some i) (stack : Buf) {out : List Byte}
    (hlen : out.length≤1023) (message : String) :
    (¬WritableAt t p ∧ (orComplain (writeText t p stack out) message).code≠0) ∨
    WritableAt t p ∧ (orComplain (writeText t p stack out) message).code=0 ∧
      Holds s (orComplain (writeText t p stack out) message).vfs p out := by
  rw [Ne,orComplain_code_eq_zero,orComplain_vfs]
  by_cases hat : WritableAt t p
  · obtain ⟨j,hj,hw⟩ := hat
    rw [writeText_run hj hw stack hlen]
    refine Or.inr ⟨⟨j,hj,hw⟩,by dsimp only; omega,j,?_,fileBytes_afterWrite t j (by omega),fun i hi => ?_⟩
    · rw [vfsLookup_afterWrite]
      exact hj
    · exact Option.some.inj (hj.symm.trans (hkeep i hi))
  · rw [writeText_refused fun i hi hw => hat ⟨i,hi,hw⟩]
    exact Or.inl ⟨hat,not_not.mpr (show (-1 : ℤ)<0 by decide)⟩

/-- prog_append gets through to its write: the path leads to a file that may
be written, and a new node can be had if it may not be read; or it leads
nowhere and a file that is found again can be created under it. -/
def AppendGoesThrough (s : Vfs F) (file : CStr) : Prop :=
  (∃ i,vfsLookup s (some file)=some i ∧ WritableNode (s.nodes i) ∧
    (Unreadable (s.nodes i)→Creatable s (some file))) ∨
  vfsLookup s (some file)=none ∧ Creatable s (some file) ∧ file.bytes.length<128

/-- What prog_append takes for the old content: that of the file if it can be
read, and nothing otherwise. -/
def ContentRead (s : Vfs F) (file : CStr) (old : List Byte) : Prop :=
  (∀ i,vfsLookup s (some file)=some i→¬Unreadable (s.nodes i)→ old=fileBytes s i) ∧
  ((∀ i,vfsLookup s (some file)=some i→Unreadable (s.nodes i))→ old=[])

/-- prog_append when it can read the file. -/
theorem progAppend_readable {s : Vfs F} (h : FilesOk s) {call : F→Buf→Word→ℤ×Buf} {stack : Buf}
    {file : CStr} (name w : CStr) (ws : List CStr) {i : Slot} (hi : vfsLookup s (some file)=some i)
    (hread : ¬(vfsRead call s (some file) (some stack) 1024).1<0) :
    (¬WritableAt s file ∧ (progAppend call stack s (name::file::w::ws)).code≠0) ∨
    WritableAt s file ∧ (progAppend call stack s (name::file::w::ws)).code=0 ∧
      Holds s (progAppend call stack s (name::file::w::ws)).vfs file
        ((appended (fileBytes s i) (w::ws)).take 1023) := by
  unfold progAppend
  dsimp only
  rw [if_neg hread]
  by_cases hat : WritableAt s file
  · obtain ⟨j,hj,hw⟩ := hat
    cases hi.symm.trans hj
    obtain ⟨hlen,hwhole⟩ := vfsRead_whole h hi hw.type hw.read hread
    have hcur : (List.range (vfsRead call s (some file) (some stack) 1024).1.toNat).map
        (readBuf stack (vfsRead call s (some file) (some stack) 1024))=fileBytes s i := by
      rw [hwhole,Int.toNat_natCast]
      exact map_fillBuf stack (fileBytes s i)
    rw [hcur,appendedText_eq hlen]
    exact writeText_cases (fun _ hk => hk) stack (List.length_take_le _ _) _
  · refine Or.inl ⟨hat,?_⟩
    rw [Ne,orComplain_code_eq_zero,writeText_refused fun k hk hw => hat ⟨k,hk,hw⟩]
    exact not_not.mpr (show (-1 : ℤ)<0 by decide)

/-- prog_append when it cannot read the file. -/
theorem progAppend_unreadable {s : Vfs F} (h : Shape s) {call : F→Buf→Word→ℤ×Buf} {stack : Buf}
    {file : CStr} (name w : CStr) (ws : List CStr)
    (hread : (vfsRead call s (some file) (some stack) 1024).1<0)
    (hun : ∀ i,vfsLookup s (some file)=some i→Unreadable (s.nodes i)) :
    (¬AppendGoesThrough s file ∧ (progAppend call stack s (name::file::w::ws)).code≠0) ∨
    AppendGoesThrough s file ∧ (progAppend call stack s (name::file::w::ws)).code=0 ∧
      Holds s (progAppend call stack s (name::file::w::ws)).vfs file ((appended [] (w::ws)).take 1023) := by
  have hstart : appendedText [] (w::ws)=(appended [] (w::ws)).take 1023 :=
    appendedText_eq (by decide) (w::ws)
  unfold progAppend
  dsimp only
  rw [if_pos hread,hstart]
  rcases vfsMkfile_empty h file with ⟨hno,hrun⟩|⟨q,hq,hyes,hcode,hadd⟩
  · rw [hrun,if_pos (show (-1 : ℤ)<0 by decide)]
    refine Or.inl ⟨?_,(by decide : (1 : ℤ)≠0)⟩
    rintro (⟨i,hi,_,hc⟩|⟨_,hc,_⟩)
    · exact hno (hc (hun i hi))
    · exact hno hc
  · cases hq
    rw [hcode,if_neg (lt_irrefl 0)]
    have hgo : WritableAt (vfsMkfile s (some file) (some .empty)).1 file ↔ AppendGoesThrough s file := by
      rw [writableAt_created hyes hadd fun i hi => vfsMkfile_node (some .empty) hi]
      refine or_congr (exists_congr fun i => ?_) (and_congr_right fun _ => ?_)
      · exact and_congr_right fun _ => ⟨fun hw => ⟨hw,fun _ => hyes⟩,fun hw => hw.1⟩
      · exact ⟨fun hlen => ⟨hyes,hlen⟩,fun hlen => hlen.2⟩
    rw [←hgo]
    exact writeText_cases (fun _ hi => vfsLookup_adds hadd hi) stack (List.length_take_le _ _) _

/-- prog_append with words returns 0 exactly when it gets through to its
write, and then it has written the start of what it read with the words
appended. -/
theorem progAppend_cases {s : Vfs F} (h : FilesOk s) {call : F→Buf→Word→ℤ×Buf} (hcall : ReadersOk call)
    (stack : Buf) (name file w : CStr) (ws : List CStr) :
    (¬AppendGoesThrough s file ∧ (progAppend call stack s (name::file::w::ws)).code≠0) ∨
    AppendGoesThrough s file ∧ (progAppend call stack s (name::file::w::ws)).code=0 ∧
      ∃ old,ContentRead s file old ∧
        Holds s (progAppend call stack s (name::file::w::ws)).vfs file ((appended old (w::ws)).take 1023) := by
  by_cases hread : (vfsRead call s (some file) (some stack) 1024).1<0
  · have hun := (vfsRead_negative_iff hcall s file stack).mp hread
    rcases progAppend_unreadable h.shape name w ws hread hun with hfail|⟨hgo,hcode,hholds⟩
    · exact Or.inl hfail
    · exact Or.inr ⟨hgo,hcode,[],⟨fun i hi hok => absurd (hun i hi) hok,fun _ => rfl⟩,hholds⟩
  · have hok : ∃ i,vfsLookup s (some file)=some i ∧ ¬Unreadable (s.nodes i) := by
      rw [vfsRead_negative_iff hcall] at hread
      obtain ⟨i,hi⟩ := not_forall.mp hread
      exact ⟨i,Classical.not_imp.mp hi⟩
    obtain ⟨i,hi,hreadable⟩ := hok
    rcases progAppend_readable h name w ws hi hread with ⟨hno,hcode⟩|⟨⟨j,hj,hw⟩,hcode,hholds⟩
    · refine Or.inl ⟨?_,hcode⟩
      rintro (⟨j,hj,hw,_⟩|⟨hnone,_⟩)
      · exact hno ⟨j,hj,hw⟩
      · rw [hi] at hnone
        cases hnone
    · cases hi.symm.trans hj
      refine Or.inr ⟨Or.inl ⟨i,hi,hw,fun hun => absurd hun hreadable⟩,hcode,fileBytes s i,⟨?_,?_⟩,hholds⟩
      · intro k hk _
        cases hi.symm.trans hk
        rfl
      · exact fun hun => absurd (hun i hi) hreadable

/-- What prog_append reads is the old content, unless the file cannot be
read. -/
theorem contentRead_eq {s : Vfs F} {file : CStr} {old : List Byte} (h : ContentRead s file old) :
    (old=contentAt s file ∧
      ∀ i,vfsLookup s (some file)=some i→Unreadable (s.nodes i)→contentAt s file=[]) ∨
    old=[] ∧ contentAt s file≠[] ∧ ∃ i,vfsLookup s (some file)=some i ∧ Unreadable (s.nodes i) := by
  unfold contentAt
  cases hl : vfsLookup s (some file) with
  | none =>
    refine Or.inl ⟨h.2 fun i hi => ?_,fun i hi => ?_⟩
    · rw [hl] at hi
      cases hi
    · cases hi
  | some i =>
    by_cases hun : Unreadable (s.nodes i)
    · have hold : old=[] := h.2 fun j hj => by
        cases hl.symm.trans hj
        exact hun
      by_cases hempty : fileBytes s i=[]
      · exact Or.inl ⟨hold.trans hempty.symm,fun _ _ _ => hempty⟩
      · exact Or.inr ⟨hold,hempty,i,rfl,hun⟩
    · refine Or.inl ⟨h.1 i hl hun,fun j hj hunj => ?_⟩
      cases hj
      exact absurd hunj hun

/-- What is stored is the start of what was read with the words appended; it
is the old content with the words appended exactly when that fits the array
and what was read is the old content. -/
theorem take_appended_eq_iff {s : Vfs F} {file : CStr} {old : List Byte} (h : ContentRead s file old)
    (words : List CStr) : (appended old words).take 1023=appended (contentAt s file) words ↔
      (appended (contentAt s file) words).length≤1023 ∧
        ∀ i,vfsLookup s (some file)=some i→Unreadable (s.nodes i)→contentAt s file=[] := by
  rcases contentRead_eq h with ⟨hold,hread⟩|⟨hold,hne,i,hi,hun⟩
  · rw [hold,List.take_eq_self_iff]
    exact ⟨fun hle => ⟨hle,hread⟩,fun hle => hle.1⟩
  · refine iff_of_false (fun he => ?_) fun hall => hne (hall.2 i hi hun)
    have hlen := congrArg List.length he
    rw [length_appended_of_ne_nil hne,hold,List.length_take] at hlen
    change min 1023 (joinWords words).length=_ at hlen
    omega

/-- A program that returned 0 has appended the words to the file: the path
leads to the node it led to before, or to a new one, whose content is the old
one, a blank if it is not empty, and the words. -/
def AppendExact (s : Vfs F) (o : Outcome F) (file : CStr) (words : List CStr) : Prop :=
  o.code=0→Holds s o.vfs file (appended (contentAt s file) words)

/-- prog_append on small files. -/
theorem progAppend_exact_iff {s : Vfs F} (h : FilesOk s) {call : F→Buf→Word→ℤ×Buf} (hcall : ReadersOk call)
    (stack : Buf) (name file : CStr) (words : List CStr) :
    AppendExact s (progAppend call stack s (name::file::words)) file words ↔
      words=[] ∨ (AppendGoesThrough s file→(appended (contentAt s file) words).length≤1023 ∧
        ∀ i,vfsLookup s (some file)=some i→Unreadable (s.nodes i)→contentAt s file=[]) := by
  cases words with
  | nil => exact iff_of_true (fun hcode => absurd hcode (by decide : (1 : ℤ)≠0)) (Or.inl rfl)
  | cons w ws =>
    rcases progAppend_cases h hcall stack name file w ws with ⟨hno,hcode⟩|⟨hgo,hcode,old,hold,hholds⟩
    · exact iff_of_true (fun hzero => absurd hzero hcode) (Or.inr fun hgo => absurd hgo hno)
    · have hiff := take_appended_eq_iff hold (w::ws)
      obtain ⟨j,hj,hbytes,hsame⟩ := hholds
      constructor
      · intro hexact
        obtain ⟨k,hk,hkbytes,_⟩ := hexact hcode
        cases hj.symm.trans hk
        exact Or.inr fun _ => hiff.mp (hbytes.symm.trans hkbytes)
      · rintro (hnil|hcond)
        · cases hnil
        · exact fun _ => ⟨j,hj,hbytes.trans (hiff.mpr (hcond hgo)),hsame⟩

/-- Whatever lines were entered, prog_append on any file with any words
appends them to the file when it returns 0, exactly where the new content fits
its array and the file's old content is empty if it cannot be read. -/
theorem shell_append_exact_iff (lines : List CommandLine) (mach : Machine) (stack : Buf)
    (name file : CStr) (words : List CStr) :
    AppendExact (shellRun lines) (progAppend (procCall mach) stack (shellRun lines) (name::file::words))
        file words ↔
      words=[] ∨ (AppendGoesThrough (shellRun lines) file→
        (appended (contentAt (shellRun lines) file) words).length≤1023 ∧
        ∀ i,vfsLookup (shellRun lines) (some file)=some i→Unreadable ((shellRun lines).nodes i)→
          contentAt (shellRun lines) file=[]) :=
  progAppend_exact_iff (shellRun_filesOk lines) (procCall_ok mach) stack name file words

/-- The host name after its reading permission was taken away. -/
def hideHostname : CommandLine := ⟨.lit "chmod 2 /etc/hostname",silentMachine,fun _ => 0⟩

/-- The hidden host name is still there and may be written, and a file could
be created under its path. -/
theorem shellRun_hideHostname :
    vfsLookup (shellRun [hideHostname]) (some (.lit "/etc/hostname"))=some 8 ∧
    ((shellRun [hideHostname]).nodes 8).type=.file ∧ ((shellRun [hideHostname]).nodes 8).read=none ∧
    ((shellRun [hideHostname]).nodes 8).perm=2 ∧ ((shellRun [hideHostname]).nodes 8).size=4 ∧
    Creatable (shellRun [hideHostname]) (some (.lit "/etc/hostname")) := by
  decide +kernel

/-- append x to the hidden host name replaces it. -/
theorem append_hidden_not_exact :
    ¬AppendExact (shellRun [hideHostname])
      (progAppend (procCall silentMachine) (fun _ => 0) (shellRun [hideHostname])
        [.lit "append",.lit "/etc/hostname",.lit "x"]) (.lit "/etc/hostname") [.lit "x"] := by
  obtain ⟨hl,ht,hr,hp,hsize,hc⟩ := shellRun_hideHostname
  intro hexact
  have hw : WritableNode ((shellRun [hideHostname]).nodes 8) := ⟨ht,hr,by rw [hp]; decide⟩
  have hun : Unreadable ((shellRun [hideHostname]).nodes 8) := Or.inr ⟨by rw [hp]; decide,hr⟩
  rcases (progAppend_exact_iff (shellRun_filesOk _) (procCall_ok _) _ _ _ _).mp hexact with hnil|hcond
  · cases hnil
  · have hempty := (hcond (Or.inl ⟨8,hl,hw,fun _ => hc⟩)).2 8 hl hun
    unfold contentAt at hempty
    rw [hl] at hempty
    rw [Option.map_some,Option.getD_some,fileBytes,hsize] at hempty
    have hlen := congrArg List.length hempty
    rw [List.length_map,List.length_range] at hlen
    exact absurd hlen (by decide)

end EronKernel.ShellAppend

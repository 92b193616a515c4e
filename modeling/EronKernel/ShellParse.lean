import EronKernel.CellScan
import EronKernel.ShellWrite

/-!
# How parse_args cuts the line in place

The words that parse_args finds are pointers into the line, and it ends each of
them by a terminator over the blank behind it. The line is a checked array
here, a pointer an index into it, so that a result means that every access was
inside the array. The strings at the pointers are read in the array as it is
at the end, when all terminators were written.
-/

namespace EronKernel.ShellParse

open ByteMemory CString WordSplit CellScan VfsModel ShellModel ShellWrite

/-- The test of the loop that skips blanks. -/
def isBlank (b : Byte) : Bool := b=0x20

/-- The test of the loop over a word. -/
def inWord (b : Byte) : Bool := b≠0 && b≠0x20

/-- The loop of parse_args from a pointer on, with room for so many more
words: the array and the pointers to the words. -/
def parseFrom : ℕ→List Byte→ℕ→Option (List Byte×List ℕ)
  | 0,input,p => (input[p]?).map fun _ => (input,[])
  | room+1,input,p => (input[p]?).bind fun c =>
    if c=0 then some (input,[])
    else (scanFrom isBlank input p).bind fun p => (input[p]?).bind fun c =>
      if c=0 then some (input,[])
      else (scanFrom inWord input p).bind fun q => (input[q]?).bind fun c =>
        let r := if c≠0 then parseFrom room (input.set q 0) (q+1) else parseFrom room input q
        r.map fun (out,argv) => (out,p::argv)

/-- parse_args on the string at an index; the number of pointers is what it
returns. -/
def parseArgsAt (input : List Byte) (start max : ℕ) : Option (List Byte×List ℕ) :=
  parseFrom max input start

/-- The array from a pointer on holds some cells and then a terminated text. -/
def line (pre text rest : List Byte) : List Byte := pre++(text++0::rest)

/-- Cells in front of the text count as cells in front of the pointer. -/
theorem line_append (pre xs text rest : List Byte) :
    line pre (xs++text) rest=line (pre++xs) text rest := by
  unfold line
  rw [List.append_assoc,List.append_assoc]

/-- The first cell of the text or its terminator. -/
theorem getElem?_line (pre text rest : List Byte) :
    (line pre text rest)[pre.length]?=some (text.headD 0) := by
  unfold line
  cases text with
  | nil => exact getElem?_append_cons pre 0 rest
  | cons c text => exact getElem?_append_cons pre c (text++0::rest)

/-- Blanks are skipped up to a cell that is not blank. -/
theorem scanFrom_blanks (pre : List Byte) (n : ℕ) {text : List Byte} (htext : text.headD 0≠0x20)
    (rest : List Byte) :
    scanFrom isBlank (line pre (List.replicate n 0x20++text) rest) pre.length=
      some (pre++List.replicate n 0x20).length := by
  have hblank : ∀ b∈List.replicate n (0x20 : Byte),isBlank b=true := by
    intro b hb
    rw [List.eq_of_mem_replicate hb]
    rfl
  rw [List.length_append]
  unfold line
  cases text with
  | nil =>
    rw [List.append_nil]
    exact scanFrom_append pre hblank (by decide) rest
  | cons c text =>
    rw [List.append_assoc,List.cons_append]
    have hc : isBlank c=false := by simpa [isBlank] using htext
    exact scanFrom_append pre hblank hc (text++0::rest)

/-- A word is passed up to a blank or the terminator. -/
theorem scanFrom_word (pre : List Byte) {w : List Byte} (h0 : (0 : Byte)∉w) (hw : (0x20 : Byte)∉w)
    {text : List Byte} (htext : inWord (text.headD 0)=false) (rest : List Byte) :
    scanFrom inWord (line pre (w++text) rest) pre.length=some (pre++w).length := by
  have hword : ∀ b∈w,inWord b=true := by
    intro b hb
    have hne : b≠0 := fun he => h0 (he▸hb)
    have hne' : b≠0x20 := fun he => hw (he▸hb)
    simpa [inWord] using And.intro hne hne'
  rw [List.length_append]
  unfold line
  cases text with
  | nil =>
    rw [List.append_nil]
    exact scanFrom_append pre hword htext rest
  | cons c text =>
    rw [List.append_assoc,List.cons_append]
    exact scanFrom_append pre hword htext (text++0::rest)

/-- A turn of the loop at a text of blanks finds no word. -/
theorem parseFrom_blanks (room : ℕ) (pre : List Byte) (n : ℕ) (rest : List Byte) :
    parseFrom room (line pre (List.replicate n 0x20) rest) pre.length=
      some (line pre (List.replicate n 0x20) rest,[]) := by
  cases room with
  | zero => rw [parseFrom,getElem?_line,Option.map_some]
  | succ room =>
    have hnil : ([] : List Byte).headD 0≠0x20 := by decide
    have hscan := scanFrom_blanks pre n hnil rest
    rw [List.append_nil] at hscan
    have hend := getElem?_line (pre++List.replicate n 0x20) [] rest
    rw [←line_append,List.append_nil] at hend
    rw [parseFrom,getElem?_line,Option.bind_some,hscan,Option.bind_some,hend,Option.bind_some]
    by_cases hfirst : (List.replicate n (0x20 : Byte)).headD 0=0
    · rw [if_pos hfirst]
    · rw [if_neg hfirst,if_pos (show ([] : List Byte).headD 0=0 from rfl)]

/-- A turn of the loop at blanks and a word comes to the cell behind the word
and goes on from there. -/
theorem parseFrom_atWord (room : ℕ) (pre : List Byte) (n : ℕ) {w : List Byte} (hne : w≠[])
    (h0 : (0 : Byte)∉w) (hw : (0x20 : Byte)∉w) {text : List Byte} (htext : inWord (text.headD 0)=false)
    (rest : List Byte) :
    let front := pre++List.replicate n 0x20
    let input := line (front++w) text rest
    let q := (front++w).length
    parseFrom (room+1) (line pre (List.replicate n 0x20++(w++text)) rest) pre.length=
      (if text.headD 0≠0 then parseFrom room (input.set q 0) (q+1) else parseFrom room input q).map
        fun (out,argv) => (out,front.length::argv) := by
  intro front input q
  obtain ⟨c,w',hcons⟩ := List.exists_cons_of_ne_nil hne
  have hhead : (w++text).headD 0=c := by
    rw [hcons]
    rfl
  have hc : c≠0x20 := fun he => hw (hcons▸he▸List.mem_cons_self)
  have hc0 : c≠0 := fun he => h0 (hcons▸he▸List.mem_cons_self)
  have hfirst : (List.replicate n (0x20 : Byte)++(w++text)).headD 0≠0 := by
    cases n with
    | zero =>
      rw [List.replicate_zero,List.nil_append,hhead]
      exact hc0
    | succ n =>
      rw [List.replicate_succ]
      exact (by decide : (0x20 : Byte)≠0)
  have hblanks := scanFrom_blanks pre n (hhead.symm▸hc) rest
  have hstart := getElem?_line front (w++text) rest
  have hword := scanFrom_word front h0 hw htext rest
  have hend : input[q]?=some (text.headD 0) := getElem?_line (front++w) text rest
  rw [parseFrom,getElem?_line,Option.bind_some,if_neg hfirst,hblanks,line_append,Option.bind_some,hstart,
    Option.bind_some,hhead,if_neg hc0,hword,Option.bind_some,line_append,hend]
  rfl

/-- A turn of the loop at the last word. -/
theorem parseFrom_lastWord (room : ℕ) (pre : List Byte) (n : ℕ) {w : List Byte} (hne : w≠[])
    (h0 : (0 : Byte)∉w) (hw : (0x20 : Byte)∉w) (rest : List Byte) :
    parseFrom (room+1) (line pre (List.replicate n 0x20++w) rest) pre.length=
      some (line pre (List.replicate n 0x20++w) rest,[(pre++List.replicate n 0x20).length]) := by
  have hnil : inWord (([] : List Byte).headD 0)=false := by decide
  have hturn := parseFrom_atWord room pre n hne h0 hw hnil rest
  dsimp only at hturn
  rw [List.append_nil] at hturn
  rw [hturn,if_neg (show ¬([] : List Byte).headD 0≠0 from not_not.mpr rfl)]
  have hdone := parseFrom_blanks room (pre++List.replicate n 0x20++w) 0 rest
  rw [List.replicate_zero] at hdone
  rw [hdone,Option.map_some]
  dsimp only
  rw [←line_append,←line_append,List.append_nil]

/-- A turn of the loop at a word with a blank behind it ends the word and goes
on behind the blank. -/
theorem parseFrom_word (room : ℕ) (pre : List Byte) (n : ℕ) {w : List Byte} (hne : w≠[])
    (h0 : (0 : Byte)∉w) (hw : (0x20 : Byte)∉w) (text rest : List Byte) :
    let front := pre++List.replicate n 0x20
    parseFrom (room+1) (line pre (List.replicate n 0x20++(w++0x20::text)) rest) pre.length=
      (parseFrom room (line (front++w++[0]) text rest) (front++w++[0]).length).map
        fun (out,argv) => (out,front.length::argv) := by
  intro front
  have htext : inWord ((0x20::text).headD 0)=false := by
    rw [List.headD_cons]
    decide
  have hturn := parseFrom_atWord room pre n hne h0 hw htext rest
  dsimp only at hturn
  have hset : (line (front++w) (0x20::text) rest).set (front++w).length 0=line (front++w++[0]) text rest := by
    unfold line
    rw [List.cons_append,set_append_cons,List.append_assoc (front++w)]
    rfl
  have hblank : (0x20::text).headD 0≠0 := by
    rw [List.headD_cons]
    decide
  rw [hturn,if_pos hblank,hset,@List.length_append Byte (front++w)]
  rfl

/-- The strings at some pointers. -/
def stringsAt (input : List Byte) (argv : List ℕ) : List (List Byte) := argv.map (stringFrom 0 input)

/-- What the loop makes of a text with room for so many words. -/
structure Parsed (room : ℕ) (pre text rest out : List Byte) (argv : List ℕ) : Prop where
  /-- Only the text is written, and only over blanks. -/
  written : ∃ text',out=line pre text' rest ∧ Replaced 0x20 0 text text'
  /-- The pointers lead into the text. -/
  inside : ∀ p∈argv,pre.length≤p ∧ p<pre.length+text.length
  /-- The strings at the pointers are the first words. -/
  words : stringsAt out argv=(wordsOf 0x20 text).take room

/-- Nothing is left to be done. -/
theorem parsed_done {room : ℕ} {text : List Byte} (h : (wordsOf 0x20 text).take room=[])
    (pre rest : List Byte) : Parsed room pre text rest (line pre text rest) [] where
  written := ⟨text,rfl,Replaced.refl 0x20 0 text⟩
  inside _ hp := absurd hp List.not_mem_nil
  words := h.symm

/-- The words behind one that was ended are parsed behind it. -/
theorem Parsed.cons {room : ℕ} {pre w text rest out : List Byte} {n : ℕ} {argv : List ℕ}
    (h : Parsed room (pre++List.replicate n 0x20++w++[0]) text rest out argv) (hne : w≠[])
    (h0 : (0 : Byte)∉w) (hw : (0x20 : Byte)∉w) :
    Parsed (room+1) pre (List.replicate n 0x20++(w++0x20::text)) rest out
      ((pre++List.replicate n 0x20).length::argv) := by
  obtain ⟨text',rfl,hreplaced⟩ := h.written
  have hlength := hreplaced.length_eq
  refine ⟨⟨List.replicate n 0x20++(w++0::text'),?_,?_⟩,?_,?_⟩
  · unfold line
    simp only [List.append_assoc,List.cons_append,List.nil_append]
  · exact (Replaced.refl 0x20 0 _).append ((Replaced.refl 0x20 0 w).append hreplaced.replace)
  · intro p hp
    simp only [List.length_append,List.length_replicate,List.length_cons]
    obtain rfl|hp := List.mem_cons.mp hp
    · have hpos := List.length_pos_iff.mpr hne
      simp only [List.length_append,List.length_replicate]
      omega
    · have hbounds := h.inside p hp
      simp only [List.length_append,List.length_replicate,List.length_singleton] at hbounds
      omega
  · have hfirst := stringFrom_append (pre++List.replicate n 0x20) h0 (text'++0::rest)
    have hout : line (pre++List.replicate n 0x20++w++[0]) text' rest=
        pre++List.replicate n 0x20++(w++0::(text'++0::rest)) := by
      unfold line
      simp only [List.append_assoc,List.cons_append,List.nil_append]
    have hrest := h.words
    unfold stringsAt at hrest ⊢
    rw [List.map_cons,hrest,hout,hfirst,wordsOf_replicate,wordsOf_word_sep hne hw,List.take_succ_cons]

/-- The loop parses every text. -/
theorem parseFrom_parsed (room : ℕ) :
    ∀ (pre : List Byte) {text : List Byte},(0 : Byte)∉text→∀ rest,
      ∃ out argv,parseFrom room (line pre text rest) pre.length=some (out,argv) ∧
        Parsed room pre text rest out argv := by
  induction room with
  | zero =>
    intro pre text _ rest
    refine ⟨line pre text rest,[],?_,parsed_done List.take_zero pre rest⟩
    rw [parseFrom,getElem?_line,Option.map_some]
  | succ room ih =>
    intro pre text h0 rest
    obtain ⟨n,rfl⟩|⟨n,w,hne,hw,rfl⟩|⟨n,w,text,hne,hw,rfl⟩ := words_cases 0x20 text
    · have hnone : wordsOf (0x20 : Byte) (List.replicate n 0x20)=[] := by
        have hblanks := wordsOf_replicate (0x20 : Byte) n []
        rwa [List.append_nil,wordsOf_nil] at hblanks
      refine ⟨_,_,parseFrom_blanks (room+1) pre n rest,parsed_done ?_ pre rest⟩
      rw [hnone,List.take_nil]
    · have h0w : (0 : Byte)∉w := fun hmem => h0 (List.mem_append_right _ hmem)
      refine ⟨_,_,parseFrom_lastWord room pre n hne h0w hw rest,⟨_,rfl,Replaced.refl 0x20 0 _⟩,?_,?_⟩
      · intro p hp
        obtain rfl := List.mem_singleton.mp hp
        have hpos := List.length_pos_iff.mpr hne
        simp only [List.length_append,List.length_replicate]
        omega
      · have hfirst := stringFrom_append (pre++List.replicate n 0x20) h0w rest
        have hout : line pre (List.replicate n 0x20++w) rest=
            pre++List.replicate n 0x20++(w++0::rest) := line_append pre _ w rest
        unfold stringsAt
        rw [List.map_singleton,hout,hfirst,wordsOf_replicate,wordsOf_word hne hw,List.take_succ_cons,
          List.take_nil]
    · have hmem : ∀ b∈w++0x20::text,b≠0 := fun b hb he => h0 (he▸List.mem_append_right _ hb)
      have h0w : (0 : Byte)∉w := fun hb => hmem 0 (List.mem_append_left _ hb) rfl
      have h0t : (0 : Byte)∉text := fun hb =>
        hmem 0 (List.mem_append_right _ (List.mem_cons_of_mem _ hb)) rfl
      obtain ⟨out,argv,hrun,hparsed⟩ := ih (pre++List.replicate n 0x20++w++[0]) h0t rest
      refine ⟨out,_,?_,hparsed.cons hne h0w hw⟩
      rw [parseFrom_word room pre n hne h0w hw text rest,hrun,Option.map_some]

/-- For every string in memory and every bound, parse_args accesses only the
string with its terminator and returns the smaller of the bound and the number
of words; the string at the i-th pointer in the memory it leaves is the i-th
word of the original; and only bytes in front of the terminator are written,
all of them blanks. -/
theorem parse_args_splits_exactly (pre : List Byte) (text : CStr) (rest : List Byte) (max : ℕ) :
    ∃ text' argv,
      parseArgsAt (pre++(text.bytes++0::rest)) pre.length max=some (pre++(text'++0::rest),argv) ∧
        argv.length=min max (wordsOf 0x20 text.bytes).length ∧
        (∀ i (h : i<argv.length),(wordsOf 0x20 text.bytes)[i]?=
          some (stringFrom 0 (pre++(text'++0::rest)) argv[i])) ∧
        (∀ p∈argv,pre.length≤p ∧ p<pre.length+text.bytes.length) ∧
        Replaced 0x20 0 text.bytes text' := by
  obtain ⟨out,argv,hrun,hparsed⟩ := parseFrom_parsed max pre text.nonzero rest
  obtain ⟨text',rfl,hreplaced⟩ := hparsed.written
  have hwords := hparsed.words
  have hlength : argv.length=min max (wordsOf 0x20 text.bytes).length := by
    have hcount := congrArg List.length hwords
    rwa [stringsAt,List.length_map,List.length_take] at hcount
  refine ⟨text',argv,hrun,hlength,?_,hparsed.inside,hreplaced⟩
  intro i hi
  have hword := congrArg (fun ws => ws[i]?) hwords
  rw [stringsAt,List.getElem?_map,List.getElem?_eq_getElem hi,Option.map_some,List.getElem?_take_of_lt
    (by omega)] at hword
  exact hword.symm

/-- The strings at the pointers are the argument vector that the model of
execute_command works with. -/
theorem parseArgsAt_eq_parseArgs (pre : List Byte) (text : CStr) (rest : List Byte) (max : ℕ) :
    ∃ out argv,parseArgsAt (line pre text.bytes rest) pre.length max=some (out,argv) ∧
      stringsAt out argv=(parseArgs text.bytes max).map CStr.bytes := by
  obtain ⟨out,argv,hrun,hparsed⟩ := parseFrom_parsed max pre text.nonzero rest
  exact ⟨out,argv,hrun,hparsed.words.trans (parseArgs_eq max text.nonzero).symm⟩

end EronKernel.ShellParse

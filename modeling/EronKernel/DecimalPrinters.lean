import EronKernel.BoundedCells
import EronKernel.ProcFiles
import EronKernel.TtyModel
import Mathlib.Data.Nat.Digits.Lemmas

/-!
# The three decimal printers

uint_to_str of the shell, print_dec of the fault report and num_append of the
proc files each divide by ten, collect the digits in a temporary of twelve
bytes and copy them out in reverse. Accesses outside a temporary or outside a
buffer of known size have no result. The buffer of num_append is that of the
proc files; its loop stops one byte before the end.
-/

namespace EronKernel.DecimalPrinters

open ByteMemory CString BoundedCells ProcFiles TtyModel

/-- '0'+val%10, stored as a char. -/
def digitChar (val : Word) : Byte := (0x30+val%10).setWidth 8

/-- while (val > 0) { tmp[i++] = '0' + val % 10; val /= 10; }. -/
def collect (tmp : Row 12) (i : ℕ) (val : Word) : Option (Row 12×ℕ) :=
  if _h : val=0 then some (tmp,i)
  else (put tmp i (digitChar val)).bind fun tmp => collect tmp (i+1) (val/10)
termination_by val.toNat
decreasing_by
  have hv : val.toNat≠0 := fun he => _h (BitVec.eq_of_toNat_eq he)
  rw [BitVec.toNat_udiv]
  exact Nat.div_lt_self (Nat.pos_of_ne_zero hv) (by decide)

/-- The copy loop of uint_to_str and print_dec, with the terminator. -/
def copyReversed {n : ℕ} (tmp : Row 12) (i : ℕ) (buf : Row n) : Option (Row n) :=
  (copyLoop (fun j => get tmp (i-1-j)) i buf).bind fun buf => put buf i 0

/-- uint_to_str, with what the temporary happens to hold. -/
def uintToStr {n : ℕ} (tmp : Row 12) (val : Word) (buf : Row n) : Option (Row n) :=
  if val=0 then (put buf 0 0x30).bind fun buf => put buf 1 0
  else (collect tmp 0 val).bind fun r => copyReversed r.1 r.2 buf

/-- print_num. -/
def printNum (tmp buf : Row 12) (val : Word) (t : Terminal) : Option Terminal :=
  (uintToStr tmp val buf).map fun buf => terminalWritestring t (rowStr buf)

/-- print_dec. -/
def printDec (tmp buf : Row 12) (v : Word) (t : Terminal) : Option Terminal :=
  if v=0 then some (terminalWritestring t (.lit "0"))
  else (collect tmp 0 v).bind fun r =>
    (copyReversed r.1 r.2 buf).map fun buf => terminalWritestring t (rowStr buf)

/-- The copy loop of num_append, from tmp[j-1] down to tmp[0]. -/
def appendDown (max : Word) (tmp : Row 12) : ℕ→Text→Option Text
  | 0,t => some t
  | j+1,t =>
    if t.pos<(max-1).toNat then
      (get tmp j).bind fun c => appendDown max tmp j ⟨Function.update t.buf t.pos c,t.pos+1⟩
    else some t

/-- num_append. -/
def numAppend (tmp : Row 12) (max : Word) (t : Text) (val : Word) : Option Text :=
  let digits := if val=0 then (put tmp 0 0x30).map fun tmp => (tmp,1) else collect tmp 0 val
  digits.bind fun r =>
    (appendDown max r.1 r.2 t).map fun t => {t with buf := Function.update t.buf t.pos 0}

/-- The digits of a number in the order in which they are collected. -/
def digitBytes (val : ℕ) : List Byte := (Nat.digits 10 val).map fun d => BitVec.ofNat 8 (0x30+d)

/-- A stored digit is the byte of the last digit. -/
theorem digitChar_eq (val : Word) : digitChar val=BitVec.ofNat 8 (0x30+val.toNat%10) := by
  apply BitVec.eq_of_toNat_eq
  unfold digitChar
  rw [BitVec.toNat_setWidth,BitVec.toNat_add,BitVec.toNat_umod,BitVec.toNat_ofNat]
  change (48+val.toNat%10)%2^32%2^8=(48+val.toNat%10)%2^8
  omega

/-- One more digit is collected as long as the number is not zero. -/
theorem digitBytes_of_ne_zero {val : Word} (h : val≠0) :
    digitBytes val.toNat=digitChar val::digitBytes (val/10).toNat := by
  have hv : 0<val.toNat := Nat.pos_of_ne_zero fun he => h (BitVec.eq_of_toNat_eq he)
  unfold digitBytes
  rw [Nat.digits_def' (by decide) hv,List.map_cons,digitChar_eq,BitVec.toNat_udiv]
  rfl

/-- A 32-bit number has at most ten digits. -/
theorem digitBytes_length_le (val : Word) : (digitBytes val.toNat).length≤10 := by
  have hlt := val.isLt
  unfold digitBytes
  rw [List.length_map,Nat.digits_length_le_iff (by decide)]
  omega

/-- The loop collects all digits behind those that are there, as long as the
temporary has room for them. -/
theorem collect_digits (val : Word) :
    ∀ {tmp : Row 12} {xs : List Byte},Starts tmp xs→xs.length+(digitBytes val.toNat).length≤12→
      ∃ tmp',collect tmp xs.length val=some (tmp',(xs++digitBytes val.toNat).length) ∧
        Starts tmp' (xs++digitBytes val.toNat) := by
  induction hn : val.toNat using Nat.strong_induction_on generalizing val with
  | _ n ih =>
    subst hn
    intro tmp xs hstart hroom
    unfold collect
    split_ifs with hz
    · subst hz
      have hnil : digitBytes (0 : Word).toNat=[] := rfl
      rw [hnil,List.append_nil]
      exact ⟨tmp,rfl,hstart⟩
    · rw [digitBytes_of_ne_zero hz,List.length_cons] at hroom
      obtain ⟨tmp₁,hput,hstart₁⟩ := hstart.push (by omega) (digitChar val)
      have hv : val.toNat≠0 := fun he => hz (BitVec.eq_of_toNat_eq he)
      have hlt : (val/10).toNat<val.toNat := by
        rw [BitVec.toNat_udiv]
        exact Nat.div_lt_self (Nat.pos_of_ne_zero hv) (by decide)
      obtain ⟨tmp',hrun,hstart'⟩ := ih _ hlt (val/10) rfl hstart₁
        (by rw [List.length_append,List.length_singleton]; omega)
      rw [List.length_append,List.length_singleton] at hrun
      rw [List.append_assoc,List.singleton_append,←digitBytes_of_ne_zero hz] at hrun hstart'
      rw [hput,Option.bind_some,hrun]
      exact ⟨tmp',rfl,hstart'⟩

/-- The digits of zero. -/
theorem decimal_zero : decimal (0 : Word).toNat=[0x30] := rfl

/-- The digits of a number that is not zero, in the order in which they are
printed. -/
theorem decimal_of_ne_zero {val : Word} (h : val≠0) :
    decimal val.toNat=(digitBytes val.toNat).reverse := by
  have hv : val.toNat≠0 := fun he => h (BitVec.eq_of_toNat_eq he)
  unfold decimal
  rw [if_neg hv]
  rfl

/-- The temporary holds the decimal text backwards. -/
theorem collect_all (tmp : Row 12) {val : Word} (h : val≠0) :
    ∃ tmp',collect tmp 0 val=some (tmp',(decimal val.toNat).length) ∧
      Starts tmp' (decimal val.toNat).reverse := by
  have hlen := digitBytes_length_le val
  rw [decimal_of_ne_zero h,List.reverse_reverse,List.length_reverse]
  exact collect_digits val (starts_nil tmp) (by rw [List.length_nil]; omega)

/-- The copy loop writes the list backwards and terminates it. -/
theorem copyReversed_eq {n : ℕ} {tmp : Row 12} {ys : List Byte} (hstart : Starts tmp ys.reverse)
    {buf : Row n} (hroom : ys.length<n) : copyReversed tmp ys.length buf=some (copyRow buf ys) := by
  have hread : ∀ j<ys.length,get tmp (ys.length-1-j)=some (ys.getD j 0) := by
    intro j hj
    apply hstart
    rw [List.getElem?_reverse (by omega),List.getD_eq_getElem?_getD,
      show ys.length-1-(ys.length-1-j)=j by omega,List.getElem?_eq_getElem hj]
    rfl
  unfold copyReversed
  rw [copyLoop_eq buf (Nat.le_of_lt hroom) hread,Option.bind_some,put_of_lt _ hroom]
  congr 1
  funext i
  unfold copyRow
  by_cases hi : i=⟨ys.length,hroom⟩
  · subst hi
    rw [Function.update_self,dif_neg (Nat.lt_irrefl _),if_pos rfl]
  · have hne : i.val≠ys.length := fun he => hi (Fin.ext he)
    rw [Function.update_of_ne hi,if_neg hne]
    split_ifs with hlt
    · rw [List.getD_eq_getElem?_getD,List.getElem?_eq_getElem hlt]
      rfl
    · rfl

/-- uint_to_str writes the decimal text over the start of any buffer that has
room for it. -/
theorem uintToStr_eq {n : ℕ} (tmp : Row 12) (val : Word) {buf : Row n}
    (hroom : (decimal val.toNat).length<n) :
    uintToStr tmp val buf=some (copyRow buf (decimal val.toNat)) := by
  unfold uintToStr
  split_ifs with hz
  · subst hz
    rw [decimal_zero] at hroom ⊢
    have h1 : 1<n := hroom
    rw [put_of_lt buf (Nat.zero_lt_of_lt h1),Option.bind_some,put_of_lt _ h1]
    congr 1
    funext i
    obtain ⟨k,hk⟩ := i
    obtain _|_|k := k
    · rfl
    · rfl
    · rfl
  · obtain ⟨tmp',hrun,hstart⟩ := collect_all tmp hz
    rw [hrun]
    exact copyReversed_eq hstart hroom

/-- A 32-bit number has at most ten decimal digits. -/
theorem decimal_length_le (val : Word) : (decimal val.toNat).length≤10 := by
  by_cases hz : val=0
  · subst hz
    decide
  · rw [decimal_of_ne_zero hz,List.length_reverse]
    exact digitBytes_length_le val

/-- The decimal text as a string. -/
def decimalStr (val : ℕ) : CStr := ⟨decimal val,zero_notMem_decimal val⟩

/-- What is printed of a temporary that holds the decimal text. -/
theorem rowStr_decimal (val : Word) (buf : Row 12) :
    rowStr (copyRow buf (decimal val.toNat))=decimalStr val.toNat := by
  have hlen := decimal_length_le val
  rw [rowStr_copyRow buf (show (decimal val.toNat).length<12 by omega)]
  exact CStr.ofBytes_self (decimalStr val.toNat)

/-- print_num writes the decimal text. -/
theorem printNum_eq (tmp buf : Row 12) (val : Word) (t : Terminal) :
    printNum tmp buf val t=some (terminalWritestring t (decimalStr val.toNat)) := by
  have hlen := decimal_length_le val
  unfold printNum
  rw [uintToStr_eq tmp val (by omega),Option.map_some,rowStr_decimal]

/-- print_dec writes the decimal text. -/
theorem printDec_eq (tmp buf : Row 12) (v : Word) (t : Terminal) :
    printDec tmp buf v t=some (terminalWritestring t (decimalStr v.toNat)) := by
  unfold printDec
  split_ifs with hz
  · subst hz
    rfl
  · have hlen := decimal_length_le v
    obtain ⟨tmp',hrun,hstart⟩ := collect_all tmp hz
    rw [hrun,Option.bind_some,copyReversed_eq hstart (by omega),Option.map_some,rowStr_decimal]

/-- The copy loop of num_append is that of str_append on the printed digits. -/
theorem appendDown_eq (max : Word) {tmp : Row 12} (ys : List Byte) :
    ∀ t : Text,Starts tmp ys.reverse→
      ((appendDown max tmp ys.length t).map fun t => {t with buf := Function.update t.buf t.pos 0})=
        some (strAppend ((max-1).toNat+1) t ys) := by
  induction ys with
  | nil =>
    intro t _
    rfl
  | cons c ys ih =>
    intro t hstart
    rw [List.reverse_cons] at hstart
    have hget : get tmp ys.length=some c := by
      apply hstart
      rw [←List.length_reverse,List.getElem?_concat_length]
    have hrest : Starts tmp ys.reverse := by
      intro k d hd
      apply hstart
      rw [List.getElem?_append_left (List.getElem?_eq_some_iff.mp hd).1]
      exact hd
    rw [List.length_cons]
    unfold appendDown strAppend
    rw [Nat.add_sub_cancel]
    split_ifs with hroom
    · rw [hget,Option.bind_some]
      exact ih _ hrest
    · rfl

/-- num_append appends the decimal text, whatever its temporary holds; with a
size of zero its bound is the largest word. -/
theorem numAppend_eq (tmp : Row 12) (max : Word) (t : Text) (val : Word) :
    numAppend tmp max t val=some (ProcFiles.numAppend ((max-1).toNat+1) t val.toNat) := by
  unfold numAppend ProcFiles.numAppend
  split_ifs with hz
  · subst hz
    obtain ⟨tmp',hput,hstart⟩ := (starts_nil tmp).push (by decide) 0x30
    rw [show put tmp 0 0x30=some tmp' from hput,Option.map_some,Option.bind_some]
    exact appendDown_eq max [0x30] t hstart
  · obtain ⟨tmp',hrun,hstart⟩ := collect_all tmp hz
    rw [hrun,Option.bind_some]
    exact appendDown_eq max _ t hstart

/-- In a buffer of nonzero size the loop is that of the proc files. -/
theorem numAppend_eq_procFiles (tmp : Row 12) {max : Word} (hmax : max≠0) (t : Text) (val : Word) :
    numAppend tmp max t val=some (ProcFiles.numAppend max.toNat t val.toNat) := by
  have hpos : 0< max.toNat := Nat.pos_of_ne_zero fun he => hmax (BitVec.eq_of_toNat_eq he)
  have hlast : (max-1).toNat+1=max.toNat := by bv_omega
  rw [numAppend_eq,hlast]

/-- A text appended whole: its bytes behind the position, a terminator behind
it, and every other byte as it was. -/
structure Appended (t : Text) (ys : List Byte) (t' : Text) : Prop where
  /-- The position moves over the text. -/
  pos : t'.pos=t.pos+ys.length
  /-- The bytes of the text. -/
  bytes : ∀ k (h : k<ys.length),t'.buf (t.pos+k)=ys[k]
  /-- The terminator. -/
  terminated : t'.buf (t.pos+ys.length)=0
  /-- The bytes in front and behind. -/
  elsewhere : ∀ k,k<t.pos ∨ t.pos+ys.length<k→t'.buf k=t.buf k

/-- A text for which there is room is appended whole. -/
theorem strAppend_appended {max : ℕ} (ys : List Byte) :
    ∀ t : Text,t.pos+ys.length< max→Appended t ys (strAppend max t ys) := by
  induction ys with
  | nil =>
    intro t _
    refine ⟨rfl,fun k h => absurd h (Nat.not_lt_zero k),Function.update_self _ _ _,?_⟩
    intro k hk
    apply Function.update_of_ne
    rw [List.length_nil] at hk
    omega
  | cons c ys ih =>
    intro t hroom
    rw [List.length_cons] at hroom
    unfold strAppend
    rw [if_pos (by omega)]
    have h := ih ⟨Function.update t.buf t.pos c,t.pos+1⟩ (by dsimp only; omega)
    have hpos := h.pos
    have hterm := h.terminated
    have helse := h.elsewhere
    dsimp only at hpos hterm helse
    constructor
    · rw [hpos,List.length_cons]
      omega
    · intro k hk
      obtain _|k := k
      · exact (helse t.pos (Or.inl (Nat.lt_succ_self _))).trans (Function.update_self _ _ _)
      · have hb := h.bytes k (by rw [List.length_cons] at hk; omega)
        dsimp only at hb
        rw [show t.pos+(k+1)=t.pos+1+k by omega,hb]
        rfl
    · rw [List.length_cons,show t.pos+(ys.length+1)=t.pos+1+ys.length by omega]
      exact hterm
    · intro k hk
      rw [List.length_cons] at hk
      rw [helse k (by omega),Function.update_of_ne (by omega)]

/-- The number that a text of digits denotes. -/
def decimalValue (text : List Byte) : ℕ := text.foldl (fun v b => 10*v+(b.toNat-0x30)) 0

/-- A text is a number in base ten. -/
structure Denotes (text : List Byte) (v : ℕ) : Prop where
  /-- Every byte is a digit. -/
  digits : ∀ b∈text,0x30≤b.toNat ∧ b.toNat≤0x39
  /-- The value of the digits. -/
  value : decimalValue text=v
  /-- There is a digit. -/
  nonempty : text≠[]
  /-- Only zero starts with a zero. -/
  leading : text.head?=some 0x30→text=[0x30]

/-- The byte of a digit. -/
theorem toNat_digit {d : ℕ} (hd : d<10) : (BitVec.ofNat 8 (0x30+d)).toNat=0x30+d := by
  rw [BitVec.toNat_ofNat,Nat.mod_eq_of_lt (by omega)]

/-- Digits that were collected from the last one on are read from the first. -/
theorem decimalValue_reverse {ds : List ℕ} (hds : ∀ d∈ds,d<10) :
    decimalValue (ds.map fun d => BitVec.ofNat 8 (0x30+d)).reverse=Nat.ofDigits 10 ds := by
  induction ds with
  | nil => rfl
  | cons d ds ih =>
    have hd := toNat_digit (hds d List.mem_cons_self)
    have hrest := ih fun e he => hds e (List.mem_cons_of_mem d he)
    unfold decimalValue at hrest ⊢
    rw [List.map_cons,List.reverse_cons,List.foldl_append,hrest,List.foldl_cons,List.foldl_nil,hd,
      Nat.ofDigits_cons]
    omega

/-- The decimal text of a number denotes it. -/
theorem denotes_decimal (v : ℕ) : Denotes (decimal v) v := by
  by_cases hz : v=0
  · subst hz
    exact ⟨by decide,rfl,by decide,fun _ => rfl⟩
  · have hlt : ∀ d∈Nat.digits 10 v,d<10 := fun d hd => Nat.digits_lt_base (by decide) hd
    have hne : Nat.digits 10 v≠[] := Nat.digits_ne_nil_iff_ne_zero.mpr hz
    have htext : decimal v=((Nat.digits 10 v).map fun d => BitVec.ofNat 8 (0x30+d)).reverse := if_neg hz
    rw [htext]
    constructor
    · intro b hb
      rw [List.mem_reverse,List.mem_map] at hb
      obtain ⟨d,hd,rfl⟩ := hb
      have hd10 := hlt d hd
      rw [toNat_digit hd10]
      omega
    · rw [decimalValue_reverse hlt,Nat.ofDigits_digits]
    · rw [ne_eq,List.reverse_eq_nil_iff,List.map_eq_nil_iff]
      exact hne
    · intro hhead
      rw [List.head?_reverse,List.getLast?_map,List.getLast?_eq_some_getLast hne,Option.map_some,
        Option.some.injEq] at hhead
      have hv := congrArg BitVec.toNat hhead
      rw [toNat_digit (hlt _ (List.getLast_mem hne))] at hv
      change 0x30+_=0x30 at hv
      exact absurd (Nat.add_left_cancel hv) (Nat.getLast_digit_ne_zero 10 hz)

/-- The three printers produce one text for every number: at most ten digits
that denote it, without a leading zero. No printer accesses a byte outside its
temporaries, whatever these hold. -/
theorem decimal_printers_agree (v : Word) :
    ∃ text : CStr,Denotes text.bytes v.toNat ∧ text.bytes.length≤10 ∧
      (∀ (n : ℕ) (tmp : Row 12) (buf : Row n),text.bytes.length<n→
        uintToStr tmp v buf=some (copyRow buf text.bytes)) ∧
      (∀ (tmp buf : Row 12) (t : Terminal),printDec tmp buf v t=some (terminalWritestring t text)) ∧
      (∀ (tmp : Row 12) (max : Word) (t : Text),(numAppend tmp max t v).isSome) ∧
      ∀ (tmp : Row 12) (max : Word) (t : Text),t.pos+text.bytes.length< max.toNat→
        ∃ t',numAppend tmp max t v=some t' ∧ Appended t text.bytes t' := by
  refine ⟨decimalStr v.toNat,denotes_decimal v.toNat,decimal_length_le v,?_,?_,?_,?_⟩
  · intro n tmp buf hroom
    exact uintToStr_eq tmp v hroom
  · intro tmp buf t
    exact printDec_eq tmp buf v t
  · intro tmp max t
    rw [numAppend_eq,Option.isSome_some]
  · intro tmp max t hroom
    have hmax : max≠0 := by
      intro he
      subst he
      exact Nat.not_lt_zero _ hroom
    exact ⟨_,numAppend_eq_procFiles tmp hmax t v,strAppend_appended _ t hroom⟩

end EronKernel.DecimalPrinters

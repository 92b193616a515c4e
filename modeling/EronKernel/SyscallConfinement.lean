import EronKernel.SyscallHeap
import EronKernel.VfsShape

/-!
# What SYS_WRITE, SYS_OPEN and SYS_MKDIR read

The three calls check one byte, or the byte count, of a string argument and
then read up to its terminator. Two runs over memories that agree on user
space show the same outcome exactly when the string ends in user space, or
when no way of going on behind user space could change the answer. The bytes
that hold the kernel itself, an arbitrary set of addresses below user space,
may be taken to agree as well.
-/

namespace EronKernel.SyscallConfinement

open ByteMemory CString StringScan VfsModel VfsTable VfsShape SyscallModel

variable {F : Type}

/-- The address belongs to user space. -/
def UserSpace (x : Word) : Prop := userSpaceStart≤x ∧ x<userSpaceEnd

/-- Two memories agree on user space and on the addresses kept for the kernel. -/
def Agree (kept : Word→Prop) (m n : Mem) : Prop := ∀ x,UserSpace x ∨ kept x→ n x=m x

/-- The part of an outcome that is compared: the result, the terminal output
and the file system. -/
def visible (o : Outcome F) : Word×List Byte×Vfs F := (o.tf.eax,o.kernel.output,o.kernel.vfs)

/-- No memory that agrees with the kernel's own changes what is visible. -/
def Confined (kept : Word→Prop) (resume : ℕ→Kernel F→Kernel F) (fuel : ℕ) (k : Kernel F)
    (tf : Trapframe) : Prop :=
  ∀ n,Agree kept k.mem n→
    (syscallHandle resume fuel (k.withMem n) tf).map visible=(syscallHandle resume fuel k tf).map visible

/-- The string at an address ends in user space. -/
def EndsInside (m : Mem) (a : Word) : Prop := ∃ x,a≤x ∧ x<userSpaceEnd ∧ m x=0

/-- Some byte on which the memories agree is a NUL. -/
def SomeNul (kept : Word→Prop) (m : Mem) : Prop := ∃ x,(UserSpace x ∨ kept x) ∧ m x=0

/-- The bytes from an address to the end of user space. -/
def userRest (m : Mem) (a : Word) : List Byte := bytesAt m a (userSpaceEnd.toNat-a.toNat)

/-- No path that starts with the bytes is found by vfs_lookup. -/
def NeverFound (s : Vfs F) (b : List Byte) : Prop :=
  ∀ i v,table s i=some v→hasDotDot v.path.bytes=false→¬b<+:v.path.bytes

/-- No path that starts with the bytes is accepted by vfs_mkdir. -/
def NeverMade (s : Vfs F) (b : List Byte) : Prop :=
  hasDotDot b=true ∨ vfsMaxPathLen≤b.length ∨ vfsMaxNodes ≤ s.nodeCount

/-- The inputs on which the call does not depend on bytes behind user space. -/
def Contained (kept : Word→Prop) (k : Kernel F) (tf : Trapframe) : Prop :=
  match Syscall.ofNumber tf.eax with
  | some .sysWrite => ¬(tf.ebx=1 ∨ tf.ebx=2) ∨ validateUserPtr tf.ecx tf.edx=false ∨
      EndsInside k.mem tf.ecx
  | some .sysOpen => ptrAccepted tf=false ∨ EndsInside k.mem tf.ebx ∨
      SomeNul kept k.mem ∧ NeverFound k.vfs (userRest k.mem tf.ebx)
  | some .sysMkdir => ptrAccepted tf=false ∨ EndsInside k.mem tf.ebx ∨
      SomeNul kept k.mem ∧ NeverMade k.vfs (userRest k.mem tf.ebx)
  | _ => True

/-- The scan of a string and any use of the string are confined. -/
def ScanConfined (kept : Word→Prop) {α : Type} (use : CStr→α) (m : Mem) (a : Word) : Prop :=
  ∀ n,Agree kept m n→(stringAt n a).map use=(stringAt m a).map use

/-- A use of a string has the same value on short continuations of bytes. -/
def SameOnContinuations {α : Type} (use : CStr→α) (b : List Byte) : Prop :=
  ∀ t u,(0 : Byte)∉t→(0 : Byte)∉u→ t.length<2^30→ u.length<2^30→
    ∃ s r : CStr,s.bytes=b++t ∧ r.bytes=b++u ∧ use s=use r

/-- Memories that agree have the same bytes up to the end of user space. -/
theorem Agree.offset {kept : Word→Prop} {m n : Mem} (h : Agree kept m n) {a : Word}
    (ha : userSpaceStart≤a) {k : ℕ} (hk : a.toNat+k<userSpaceEnd.toNat) :
    n (a+BitVec.ofNat 32 k)=m (a+BitVec.ofNat 32 k) := by
  have hlt : a.toNat+k<2^32 := lt_trans hk (by decide)
  have hk' := toNat_offset hlt
  have ha' : userSpaceStart.toNat≤a.toNat := ha
  refine h _ (Or.inl ⟨?_,?_⟩)
  · rw [BitVec.le_def,hk']
    omega
  · rw [BitVec.lt_def,hk']
    exact hk

/-- A string that does not end in user space has no NUL there. -/
theorem nonzero_of_not_endsInside {m : Mem} {a : Word} (h : ¬EndsInside m a) :
    ∀ k<userSpaceEnd.toNat-a.toNat,m (a+BitVec.ofNat 32 k)≠0 := by
  intro k hk h0
  have hlt : a.toNat+k<2^32 := lt_trans (show a.toNat+k<userSpaceEnd.toNat by omega) (by decide)
  have hk' := toNat_offset hlt
  refine h ⟨_,?_,?_,h0⟩
  · rw [BitVec.le_def,hk']
    omega
  · rw [BitVec.lt_def,hk']
    omega

/-- A string that ends in user space is the same in both memories. -/
theorem stringAt_of_endsInside {kept : Word→Prop} {m n : Mem} (h : Agree kept m n) {a : Word}
    (ha : userSpaceStart≤a) (he : EndsInside m a) : stringAt n a=stringAt m a := by
  obtain ⟨x,hax,hx,h0⟩ := he
  have hle : a.toNat≤x.toNat := hax
  have hlt : x.toNat<userSpaceEnd.toNat := hx
  have hoff : a+BitVec.ofNat 32 (x.toNat-a.toNat)=x := by
    apply BitVec.eq_of_toNat_eq
    rw [toNat_offset (by omega)]
    omega
  rcases stringAt_cases m a with ⟨hno,_⟩|⟨s,hs,hsome⟩
  · exact absurd h0 (hno x)
  · have hlen := hs.length_le (hoff.symm▸h0)
    rw [hsome]
    exact (hs.congr fun k hk => h.offset ha (by omega)).stringAt_eq

/-- When the string goes on behind user space, both memories still start it
with the same bytes, and the scan ends if they share a NUL. -/
theorem stringAt_of_not_endsInside {kept : Word→Prop} {m n : Mem} (h : Agree kept m n) {a : Word}
    (ha : userSpaceStart≤a) (he : ¬EndsInside m a) (hz : SomeNul kept m) :
    ∃ s,stringAt n a=some s ∧ userRest m a<+:s.bytes := by
  obtain ⟨x,hx,h0⟩ := hz
  have heq : ∀ k<userSpaceEnd.toNat-a.toNat,n (a+BitVec.ofNat 32 k)=m (a+BitVec.ofNat 32 k) :=
    fun k hk => h.offset ha (by omega)
  rcases stringAt_cases n a with ⟨hno,_⟩|⟨s,hs,hsome⟩
  · exact absurd ((h x hx).trans h0) (hno x)
  · refine ⟨s,hsome,?_⟩
    rw [userRest,←bytesAt_congr heq]
    apply hs.bytesAt_prefix
    intro k hk
    rw [heq k hk]
    exact nonzero_of_not_endsInside he k hk

/-- Any use of a string that ends in user space is confined; of any other
string, a use that cannot tell its continuations apart. -/
theorem scanConfined_of {kept : Word→Prop} {α : Type} {use : CStr→α} {m : Mem} {a : Word}
    (ha : userSpaceStart≤a)
    (h : EndsInside m a ∨ SomeNul kept m ∧ ∃ v,∀ s : CStr,userRest m a<+:s.bytes→use s=v) :
    ScanConfined kept use m a := by
  intro n hn
  by_cases he : EndsInside m a
  · rw [stringAt_of_endsInside hn ha he]
  · obtain ⟨hz,v,hv⟩ := h.resolve_left he
    obtain ⟨s,hs,hp⟩ := stringAt_of_not_endsInside hn ha he hz
    obtain ⟨t,ht,hq⟩ := stringAt_of_not_endsInside (fun _ _ => rfl) ha he hz
    rw [hs,ht,Option.map_some,Option.map_some,hv s hp,hv t hq]

/-- Every continuation of less than 1 GB behind user space is possible. -/
theorem exists_continuation {kept : Word→Prop} (hk : ∀ x,kept x→ x<userSpaceStart) {m : Mem} {a : Word}
    (ha : a≤userSpaceEnd) (he : ¬EndsInside m a) {t : List Byte} (ht : (0 : Byte)∉t)
    (hlen : t.length<2^30) :
    ∃ n s,Agree kept m n ∧ stringAt n a=some s ∧ s.bytes=userRest m a++t := by
  have hfit : userSpaceEnd.toNat+t.length<2^32 := by
    have hend : userSpaceEnd.toNat=0xC0000000 := rfl
    omega
  obtain ⟨s,hb,hs⟩ := holdsString_continueAt ha (nonzero_of_not_endsInside he) ht hfit
  refine ⟨continueAt m userSpaceEnd t,s,?_,hs.stringAt_eq,hb⟩
  intro x hx
  have hlt : x<userSpaceEnd := by
    rcases hx with hu|hkept
    · exact hu.2
    · have hs := hk x hkept
      unfold userSpaceStart at hs
      unfold userSpaceEnd
      bv_omega
  exact if_pos hlt

/-- A confined use of a string that goes on behind user space gives the same
value on all its short continuations, and the scan is certain to end. -/
theorem ScanConfined.continuations {kept : Word→Prop} (hk : ∀ x,kept x→ x<userSpaceStart) {α : Type}
    {use : CStr→α} {m : Mem} {a : Word} (ha : a≤userSpaceEnd) (h : ScanConfined kept use m a)
    (he : ¬EndsInside m a) :
    SomeNul kept m ∧ SameOnContinuations use (userRest m a) := by
  constructor
  · by_contra hz
    have hfill : Agree kept m fun x => if m x=0 then 1 else m x :=
      fun x hx => if_neg fun h0 => hz ⟨x,hx,h0⟩
    obtain ⟨n,s,hn,hs,_⟩ := exists_continuation hk ha he List.not_mem_nil (by decide)
    have hnone : stringAt (fun x => if m x=0 then 1 else m x) a=none := by
      rcases stringAt_cases (fun x => if m x=0 then 1 else m x) a with ⟨_,hno⟩|⟨s,hs,_⟩
      · exact hno
      · have h0 := hs.terminated
        split at h0
        · cases h0
        · exact absurd h0 ‹_›
    have hsame := (h n hn).trans (h _ hfill).symm
    rw [hs,hnone] at hsame
    cases hsame
  · intro t u ht hu htl hul
    obtain ⟨n,s,hn,hs,hsb⟩ := exists_continuation hk ha he ht htl
    obtain ⟨n',r,hn',hr,hrb⟩ := exists_continuation hk ha he hu hul
    have hsame := (h n hn).trans (h n' hn').symm
    rw [hs,hr,Option.map_some,Option.map_some,Option.some.injEq] at hsame
    exact ⟨s,r,hsb,hrb,hsame⟩

/-- A stored path is no longer than its array. -/
theorem length_path_le {s : Vfs F} {i : Slot} {v : NodeView F} (h : table s i=some v) :
    v.path.bytes.length≤128 := by
  obtain ⟨_,rfl⟩ := table_eq_some_iff.mp h
  have hle := (List.takeWhile_prefix (fun b : Byte => b≠0) (l := List.ofFn (s.nodes i).path)).length_le
  rw [List.length_ofFn] at hle
  exact hle

/-- A path that starts with bytes of no stored path is not found. -/
theorem NeverFound.vfsLookup_eq {s : Vfs F} {b : List Byte} (h : NeverFound s b) {p : CStr}
    (hp : b<+:p.bytes) : vfsLookup s (some p)=none := by
  rcases vfsLookup_cases s (some p) with ⟨q,i,v,hq,hvalid,_,_,hv,rfl⟩|⟨hn,_⟩
  · cases hq
    simp only [isValidPath,Bool.and_eq_true,Bool.not_eq_true'] at hvalid
    exact absurd hp (h i v hv hvalid.2)
  · exact hn

/-- A stored path without two dots is found. -/
theorem vfsLookup_stored {s : Vfs F} {i : Slot} {v : NodeView F} (hv : table s i=some v)
    (hd : hasDotDot v.path.bytes=false) (hne : v.path.bytes≠[]) :
    vfsLookup s (some v.path)≠none := by
  have hvalid : isValidPath (some v.path)=true := by simp [isValidPath,hd,hne]
  rcases vfsLookup_cases s (some v.path) with ⟨_,j,_,_,_,_,hj,_,_⟩|⟨_,hno⟩
  · rw [hj]
    exact Option.some_ne_none j
  · exact absurd rfl ((hno v.path rfl hvalid).2 i v hv)

/-- A path that is longer than the array is not found. -/
theorem vfsLookup_long {s : Vfs F} {p : CStr} (hp : 128<p.bytes.length) :
    vfsLookup s (some p)=none := by
  rcases vfsLookup_cases s (some p) with ⟨q,i,v,hq,_,_,_,hv,rfl⟩|⟨hn,_⟩
  · cases hq
    have hle := length_path_le hv
    omega
  · exact hn

/-- vfs_mkdir answers zero exactly when it creates the node. -/
theorem vfsMkdir_cases (s : Vfs F) (p : CStr) :
    (¬Creatable s (some p) ∧ vfsMkdir s (some p)=(s,-1)) ∨
      (Creatable s (some p) ∧ (vfsMkdir s (some p)).2=0) := by
  rcases makeNode_cases s (some p) .dir (fun _ s => (s,0)) with hno|⟨_,_,hc,_,_,hrun⟩
  · exact Or.inl hno
  · refine Or.inr ⟨hc,?_⟩
    unfold vfsMkdir
    rw [hrun]

/-- When a path can be created. -/
theorem creatable_iff (s : Vfs F) (p : CStr) :
    Creatable s (some p) ↔ p.bytes≠[] ∧ hasDotDot p.bytes=false ∧ p.bytes.length<256 ∧
      s.nodeCount<128 := by
  have hz : p.bytes.length=0 ↔ p.bytes=[] := List.length_eq_zero_iff
  simp only [Creatable,isValidPath,isValidPathLen,vfsMaxPathLen,Bool.and_eq_true,Bool.not_eq_true',
    Bool.or_eq_false_iff,decide_eq_false_iff_not,beq_eq_false_iff_ne,List.isEmpty_eq_false_iff,ne_eq,hz,not_le]
  tauto

/-- A path that starts with bytes vfs_mkdir never accepts is refused. -/
theorem NeverMade.vfsMkdir_eq {s : Vfs F} {b : List Byte} (h : NeverMade s b) {p : CStr}
    (hp : b<+:p.bytes) : vfsMkdir s (some p)=(s,-1) := by
  rcases vfsMkdir_cases s p with ⟨_,hno⟩|⟨hc,_⟩
  · exact hno
  · obtain ⟨_,hd,hlen,hcount⟩ := (creatable_iff s p).mp hc
    have hle := hp.length_le
    rcases h with hdot|hlong|hfull
    · obtain ⟨t,ht⟩ := hp
      rw [←ht,hasDotDot_append t hdot] at hd
      cases hd
    · have hmax : vfsMaxPathLen=256 := rfl
      omega
    · have hmax : vfsMaxNodes=128 := rfl
      omega

section Calls

variable {kept : Word→Prop} {resume : ℕ→Kernel F→Kernel F} {fuel : ℕ} {k : Kernel F} {tf : Trapframe}

/-- A call that only uses the string at an address is confined when the scan
and that use are. -/
theorem confined_iff_scanConfined {use : CStr→Word×List Byte×Vfs F} {a : Word}
    (h : ∀ l : Kernel F,l.vfs=k.vfs→ l.output=k.output→
      (syscallHandle resume fuel l tf).map visible=(stringAt l.mem a).map use) :
    Confined kept resume fuel k tf ↔ ScanConfined kept use k.mem a := by
  unfold Confined ScanConfined
  rw [h k rfl rfl]
  refine forall_congr' fun n => ?_
  rw [h (k.withMem n) rfl rfl]
  exact Iff.rfl

/-- A call whose visible outcome does not depend on memory is confined. -/
theorem confined_of_constant {v : Option (Word×List Byte×Vfs F)}
    (h : ∀ l : Kernel F,l.vfs=k.vfs→ l.output=k.output→
      (syscallHandle resume fuel l tf).map visible=v) : Confined kept resume fuel k tf := by
  intro n _
  rw [h k rfl rfl,h (k.withMem n) rfl rfl]

/-- SYS_WRITE is confined exactly when its string ends in user space or is
not read at all. -/
theorem confined_write_iff (hk : ∀ x,kept x→ x<userSpaceStart) (he : tf.eax=Syscall.sysWrite.number) :
    Confined kept resume fuel k tf ↔ Contained kept k tf := by
  rw [Contained,he,Syscall.ofNumber_number]
  dsimp only
  by_cases hfd : tf.ebx=1 ∨ tf.ebx=2
  · cases hv : validateUserPtr tf.ecx tf.edx with
    | false =>
      refine iff_of_true ?_ (Or.inr (Or.inl rfl))
      refine confined_of_constant (v := some (tf.edx,k.output,k.vfs)) fun l hl ho => ?_
      rw [syscallHandle_write he,doWrite,if_pos hfd,hv,←hl,←ho]
      rfl
    | true =>
      obtain ⟨hlo,hhi⟩ := (validateUserPtr_iff _ _).mp hv
      have hstart : userSpaceStart≤tf.ecx := hlo
      have hend : tf.ecx≤userSpaceEnd := by
        unfold userSpaceEnd
        bv_omega
      have hscan := @confined_iff_scanConfined F kept resume fuel k tf
        (fun s => (tf.edx,k.output++s.bytes,k.vfs)) tf.ecx fun l hl ho => by
          rw [syscallHandle_write he,doWrite,if_pos hfd,hv,if_pos rfl,terminalWritestring,←hl,←ho]
          cases stringAt l.mem tf.ecx <;> rfl
      rw [hscan]
      simp only [hfd,not_true_eq_false,Bool.true_eq_false,false_or]
      constructor
      · intro hc
        by_contra hno
        obtain ⟨_,hall⟩ := hc.continuations hk hend hno
        obtain ⟨s,r,hs,hr,hsame⟩ := hall [] [1] List.not_mem_nil (by decide) (by decide) (by decide)
        simp only [hs,hr,Prod.mk.injEq,List.append_cancel_left_eq] at hsame
        simp at hsame
      · exact fun hin => scanConfined_of hstart (Or.inl hin)
  · refine iff_of_true ?_ (Or.inl hfd)
    refine confined_of_constant (v := some (-1,k.output,k.vfs)) fun l hl ho => ?_
    rw [syscallHandle_write he,doWrite,if_neg hfd,←hl,←ho]
    rfl

/-- What SYS_OPEN answers for a path. -/
def openAnswer (s : Vfs F) (p : CStr) : Word :=
  match vfsLookup s (some p) with
  | some _ => 0
  | none => -1

/-- An accepted path argument has bytes in user space. -/
theorem userRest_ne_nil {m : Mem} {a : Word} (ha : a.toNat<0xC0000000) : userRest m a≠[] := by
  intro h
  have hlen := congrArg List.length h
  rw [userRest,length_bytesAt,List.length_nil] at hlen
  have hend : userSpaceEnd.toNat=0xC0000000 := rfl
  omega

/-- Filler bytes are a possible continuation. -/
theorem replicate_continues {n : ℕ} (hn : n≤256) :
    (0 : Byte)∉List.replicate n (1 : Byte) ∧ (List.replicate n (1 : Byte)).length<2^30 := by
  refine ⟨fun h => ?_,?_⟩
  · exact absurd (List.eq_of_mem_replicate h) (by decide)
  · rw [List.length_replicate]
    omega

/-- When the answers of SYS_OPEN agree on all continuations, none is found: a
stored path would be answered differently from one that is too long. -/
theorem neverFound_of_same {s : Vfs F} {b : List Byte} (hne : b≠[])
    (hsame : SameOnContinuations (openAnswer s) b) : NeverFound s b := by
  intro i v hi hd hp
  obtain ⟨t,ht⟩ := hp
  have hlen := length_path_le hi
  have htlen := congrArg List.length ht
  rw [List.length_append] at htlen
  have htz : (0 : Byte)∉t := fun h0 => v.path.nonzero (ht▸List.mem_append_right _ h0)
  obtain ⟨hfz,hfl⟩ := @replicate_continues 129 (by omega)
  obtain ⟨q,r,hq,hr,heq⟩ := hsame t _ htz hfz (by omega) hfl
  have hpath : q=v.path := CStr.ext (hq.trans ht)
  have hbytes : v.path.bytes≠[] := by
    intro h0
    rw [h0,List.append_eq_nil_iff] at ht
    exact hne ht.1
  have hfound := vfsLookup_stored hi hd hbytes
  have hlost : vfsLookup s (some r)=none := by
    apply vfsLookup_long
    rw [hr,List.length_append,List.length_replicate]
    omega
  rw [hpath,openAnswer,openAnswer,hlost] at heq
  cases hlook : vfsLookup s (some v.path) with
  | none => exact hfound hlook
  | some j =>
    rw [hlook] at heq
    cases heq

/-- A call that follows a path argument and only uses the path is confined
exactly when it refuses the pointer, the path ends in user space, or the scan
ends and the use cannot tell the continuations of the path apart. -/
theorem confined_path_iff (hk : ∀ x,kept x→ x<userSpaceStart) {use : CStr→Word×List Byte×Vfs F}
    {v : Option (Word×List Byte×Vfs F)} {Never : Prop}
    (hskip : ptrAccepted tf=false→∀ l : Kernel F,l.vfs=k.vfs→ l.output=k.output→
      (syscallHandle resume fuel l tf).map visible=v)
    (hfollow : ptrAccepted tf=true→∀ l : Kernel F,l.vfs=k.vfs→ l.output=k.output→
      (syscallHandle resume fuel l tf).map visible=(stringAt l.mem tf.ebx).map use)
    (hnever : Never→∃ v,∀ s : CStr,userRest k.mem tf.ebx<+:s.bytes→ use s=v)
    (hsame : userRest k.mem tf.ebx≠[]→SameOnContinuations use (userRest k.mem tf.ebx)→Never) :
    Confined kept resume fuel k tf ↔ ptrAccepted tf=false ∨ EndsInside k.mem tf.ebx ∨
      SomeNul kept k.mem ∧ Never := by
  cases hv : ptrAccepted tf with
  | false => exact iff_of_true (confined_of_constant (hskip hv)) (Or.inl rfl)
  | true =>
    obtain ⟨hlo,hhi⟩ := (ptrAccepted_iff tf).mp hv
    rw [confined_iff_scanConfined (hfollow hv)]
    simp only [Bool.true_eq_false,false_or]
    constructor
    · intro hc
      by_contra hno
      rw [not_or] at hno
      obtain ⟨hz,hall⟩ := hc.continuations hk hhi.le hno.1
      exact hno.2 ⟨hz,hsame (userRest_ne_nil hhi) hall⟩
    · exact fun h => scanConfined_of hlo (h.imp id fun hn => ⟨hn.1,hnever hn.2⟩)

/-- SYS_OPEN is confined exactly when its path ends in user space or no
continuation of it could be found. -/
theorem confined_open_iff (hk : ∀ x,kept x→ x<userSpaceStart) (he : tf.eax=Syscall.sysOpen.number) :
    Confined kept resume fuel k tf ↔ Contained kept k tf := by
  rw [Contained,he,Syscall.ofNumber_number]
  refine @confined_path_iff F kept resume fuel k tf hk (fun s => (openAnswer k.vfs s,k.output,k.vfs))
    (some (-1,k.output,k.vfs)) _ ?_ ?_ ?_ ?_
  · intro hv l hl ho
    rw [syscallHandle_open he,hv,←hl,←ho]
    rfl
  · intro hv l hl ho
    rw [syscallHandle_open he,hv,if_pos rfl,←hl,←ho]
    cases stringAt l.mem tf.ebx with
    | none => rfl
    | some s =>
      rw [Option.bind_some,Option.map_some,openAnswer]
      cases vfsLookup l.vfs (some s) <;> rfl
  · intro hnever
    refine ⟨(-1,k.output,k.vfs),fun s hs => ?_⟩
    simp only [openAnswer,hnever.vfsLookup_eq hs]
  · intro hne hsame
    refine neverFound_of_same hne fun t u ht hu htl hul => ?_
    obtain ⟨s,r,hs,hr,heq⟩ := hsame t u ht hu htl hul
    exact ⟨s,r,hs,hr,congrArg Prod.fst heq⟩

/-- SYS_MKDIR is confined exactly when its path ends in user space or no
continuation of it could be created. -/
theorem confined_mkdir_iff (hk : ∀ x,kept x→ x<userSpaceStart) (he : tf.eax=Syscall.sysMkdir.number) :
    Confined kept resume fuel k tf ↔ Contained kept k tf := by
  rw [Contained,he,Syscall.ofNumber_number]
  refine @confined_path_iff F kept resume fuel k tf hk
    (fun s => (BitVec.ofInt 32 (vfsMkdir k.vfs (some s)).2,k.output,(vfsMkdir k.vfs (some s)).1))
    (some (-1,k.output,k.vfs)) _ ?_ ?_ ?_ ?_
  · intro hv l hl ho
    rw [syscallHandle_mkdir he,hv,←hl,←ho]
    rfl
  · intro hv l hl ho
    rw [syscallHandle_mkdir he,hv,if_pos rfl,←hl,←ho]
    cases stringAt l.mem tf.ebx <;> rfl
  · intro hnever
    refine ⟨(BitVec.ofInt 32 (-1),k.output,k.vfs),fun s hs => ?_⟩
    simp only [hnever.vfsMkdir_eq hs]
  · intro hne hsame
    by_contra hmade
    simp only [NeverMade,vfsMaxPathLen,vfsMaxNodes,not_or,Bool.not_eq_true,not_le] at hmade
    obtain ⟨hfz,hfl⟩ := @replicate_continues 256 le_rfl
    obtain ⟨s,r,hs,hr,heq⟩ := hsame [] _ List.not_mem_nil hfz (by decide) hfl
    rw [List.append_nil] at hs
    have hcreate : Creatable k.vfs (some s) := by
      rw [creatable_iff,hs]
      exact ⟨hne,hmade⟩
    have hrefuse : ¬Creatable k.vfs (some r) := by
      rw [creatable_iff,hr,List.length_append,List.length_replicate]
      omega
    have hmake := (vfsMkdir_cases k.vfs s).resolve_left fun h => h.1 hcreate
    have hdeny := (vfsMkdir_cases k.vfs r).resolve_right fun h => hrefuse h.1
    rw [Prod.mk.injEq,hmake.2,hdeny.2] at heq
    cases heq.1

end Calls

/-- Two runs of SYS_WRITE, SYS_OPEN or SYS_MKDIR over memories that agree on
user space show the same result, output and file system exactly when the
argument is contained. -/
theorem syscall_confined_iff {kept : Word→Prop} (hk : ∀ x,kept x→ x<userSpaceStart)
    (resume : ℕ→Kernel F→Kernel F) (fuel : ℕ) (k : Kernel F) {tf : Trapframe}
    (he : tf.eax∈[Syscall.sysWrite.number,Syscall.sysOpen.number,Syscall.sysMkdir.number]) :
    Confined kept resume fuel k tf ↔ Contained kept k tf := by
  simp only [List.mem_cons,List.not_mem_nil,or_false] at he
  rcases he with hw|ho|hm
  · exact confined_write_iff hk hw
  · exact confined_open_iff hk ho
  · exact confined_mkdir_iff hk hm

/-- A kernel whose memory holds one letter at the address and NULs elsewhere. -/
def letterKernel (a : Word) : Kernel Unit :=
  SyscallHeap.megabyteKernel.withMem fun x => if x=a then 0x41 else 0

/-- A letter whose terminator is the last byte of user space is written
without looking further. -/
theorem write_letter_confined :
    Confined (fun _ => False) (fun _ k => k) 0 (letterKernel 0xBFFFFFFE) ⟨1,1,0xBFFFFFFE,1⟩ :=
  (syscall_confined_iff (fun _ h => h.elim) _ _ _ (by decide)).mpr
    (Or.inr (Or.inr ⟨0xBFFFFFFF,by decide,by decide,by decide⟩))

/-- A letter in the last byte of user space is written together with whatever
follows behind user space. -/
theorem write_last_letter_not_confined :
    ¬Confined (fun _ => False) (fun _ k => k) 0 (letterKernel 0xBFFFFFFF) ⟨1,1,0xBFFFFFFF,1⟩ := by
  rw [confined_write_iff (fun _ h => h.elim) rfl]
  rintro (hfd|hv|⟨x,hx,hend,h0⟩)
  · exact hfd (Or.inl rfl)
  · exact absurd hv (by decide)
  · have hlast : x=0xBFFFFFFF := by
      unfold userSpaceEnd at hend
      dsimp only at hx
      bv_omega
    subst hlast
    exact absurd h0 (by decide)

end EronKernel.SyscallConfinement

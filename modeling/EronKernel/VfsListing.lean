import EronKernel.VfsUniqueness
import EronKernel.VfsShape

/-!
# What lies in a directory

A directory has no list of its contents: a node lies in it when its stored
path is the directory's path, a slash and a name. Three scans over the two
strings decide this, with the root as a special case. vfs_list goes through
the slots and stops at the last one handed out or when its array is full.
-/

namespace EronKernel.VfsListing

open ByteMemory CString VfsModel VfsTable VfsShape VfsUniqueness

variable {F : Type}

/-- What the paths of a directory's nodes begin with. -/
def dirPrefix (dir : List Byte) : List Byte := if dir=[0x2F] then [0x2F] else dir++[0x2F]

/-- The loop of vfs_list over the slots, with the nodes stored so far. -/
def listLoop (s : Vfs F) (dir : CStr) (max : ℤ) (out : List Slot) : List Slot→List Slot
  | [] => out
  | i::slots =>
    if ¬(i.val<s.nodeCount ∧ (out.length : ℤ)< max) then out
    else if (s.nodes i).type=.unused then listLoop s dir max out slots
    else if isDirectChild dir.bytes (rowString (s.nodes i).path) then listLoop s dir max (out++[i]) slots
    else listLoop s dir max out slots

/-- The bounded comparison with a whole string looks for it at the front. -/
theorem vfsStrncmp_eq_zero_iff {b : List Byte} (hb : (0 : Byte)∉b) (a : List Byte) :
    vfsStrncmp a b b.length=0 ↔ b<+:a := by
  induction b generalizing a with
  | nil => exact iff_of_true (by rw [List.length_nil,vfsStrncmp]) List.nil_prefix
  | cons y b ih =>
    have hy : y≠0 := fun he => hb (he▸List.mem_cons_self)
    have htail := ih fun hmem => hb (List.mem_cons_of_mem y hmem)
    rw [List.length_cons,vfsStrncmp]
    by_cases hne : a.headD 0≠y
    · have hdiff : (a.headD 0).toNat≠y.toNat := fun he => hne (BitVec.eq_of_toNat_eq he)
      rw [List.headD_cons,if_pos (Or.inl hne)]
      refine iff_of_false (by omega) ?_
      rintro ⟨rest,rfl⟩
      exact hne rfl
    · have heq : a.headD 0=y := not_not.mp hne
      obtain ⟨x,a',rfl⟩ : ∃ x a',a=x::a' := by
        cases a with
        | nil => exact absurd heq.symm hy
        | cons x a' => exact ⟨x,a',rfl⟩
      have hx : x=y := heq
      subst hx
      rw [List.headD_cons,List.headD_cons,if_neg (fun hc => hc.elim (fun h => h rfl) hy),
        List.tail_cons,List.tail_cons,htail,List.cons_prefix_cons]
      exact ⟨fun h => ⟨rfl,h⟩,And.right⟩

/-- The rest of a path behind the directory is a slash and a name. -/
theorem slash_name_iff (t : List Byte) :
    (t.headD 0=0x2F ∧ (0x2F : Byte)∉t.drop 1 ∧ t.drop 1≠[]) ↔
      ∃ name,name≠[] ∧ (0x2F : Byte)∉name ∧ t=0x2F::name := by
  cases t with
  | nil => simp
  | cons x t =>
    constructor
    · rintro ⟨hx,hslash,hne⟩
      exact ⟨t,hne,hslash,congrArg (· :: t) hx⟩
    · rintro ⟨name,hne,hslash,heq⟩
      cases heq
      exact ⟨rfl,hslash,hne⟩

/-- A path lies directly in the root when it is a slash and a name. -/
theorem isDirectChild_root (c : List Byte) :
    isDirectChild [0x2F] c=true ↔ ∃ name,name≠[] ∧ (0x2F : Byte)∉name ∧ c=0x2F::name := by
  have hroot : vfsStrcmp [0x2F] [0x2F]=0 := by decide
  rw [←slash_name_iff]
  unfold isDirectChild
  dsimp only
  rw [if_pos hroot]
  cases c with
  | nil => decide
  | cons x c =>
    have hlength : (x::c).length<2 ↔ c=[] := by
      rw [List.length_cons,←List.length_eq_zero_iff]
      omega
    by_cases hx : (x::c).headD 0≠0x2F ∨ (x::c).length<2
    · rw [if_pos hx]
      exact iff_of_false Bool.false_ne_true fun h => hx.elim (fun hne => hne h.1) fun hc => h.2.2 (hlength.mp hc)
    · rw [if_neg hx,Bool.not_eq_true',List.contains_eq_mem,decide_eq_false_iff_not]
      rw [not_or,not_not,hlength] at hx
      exact ⟨fun h => ⟨hx.1,h,hx.2⟩,fun h => h.2.1⟩

/-- A path lies directly in another directory when it is the directory's
path, a slash and a name. -/
theorem isDirectChild_dir {d : List Byte} (h0 : (0 : Byte)∉d) (hroot : d≠[0x2F]) (c : List Byte) :
    isDirectChild d c=true ↔ ∃ name,name≠[] ∧ (0x2F : Byte)∉name ∧ c=d++0x2F::name := by
  have hcmp : vfsStrcmp d [0x2F]≠0 := fun he => hroot ((vfsStrcmp_eq_zero_iff h0 (by decide)).mp he)
  unfold isDirectChild
  dsimp only
  rw [if_neg hcmp]
  by_cases hpre : vfsStrncmp c d d.length≠0
  · rw [if_pos hpre]
    refine iff_of_false Bool.false_ne_true ?_
    rintro ⟨name,_,_,rfl⟩
    exact hpre ((vfsStrncmp_eq_zero_iff h0 _).mpr (List.prefix_append d _))
  · obtain ⟨t,rfl⟩ := (vfsStrncmp_eq_zero_iff h0 c).mp (not_not.mp hpre)
    have hname : (∃ name,name≠[] ∧ (0x2F : Byte)∉name ∧ d++t=d++0x2F::name) ↔
        ∃ name,name≠[] ∧ (0x2F : Byte)∉name ∧ t=0x2F::name := by
      simp only [List.append_cancel_left_eq]
    rw [if_neg hpre,hname,←slash_name_iff,←List.drop_drop,List.drop_left]
    by_cases hslash : t.headD 0≠0x2F
    · rw [if_pos hslash]
      exact iff_of_false Bool.false_ne_true fun h => hslash h.1
    · rw [if_neg hslash]
      rw [not_not] at hslash
      by_cases hin : (0x2F : Byte)∈t.drop 1
      · rw [if_pos (List.contains_iff_mem.mpr hin)]
        exact iff_of_false Bool.false_ne_true fun h => h.2.1 hin
      · rw [if_neg (fun hc => hin (List.contains_iff_mem.mp hc))]
        rw [Bool.not_eq_true',List.isEmpty_eq_false_iff]
        exact ⟨fun hne => ⟨hslash,hin,hne⟩,fun h => h.2.2⟩

/-- A path lies directly in a directory when it is the directory's prefix and
a name. -/
theorem isDirectChild_iff (d c : CStr) :
    isDirectChild d.bytes c.bytes=true ↔
      ∃ name,name≠[] ∧ (0x2F : Byte)∉name ∧ c.bytes=dirPrefix d.bytes++name := by
  unfold dirPrefix
  by_cases hroot : d.bytes=[0x2F]
  · rw [if_pos hroot,hroot]
    exact isDirectChild_root c.bytes
  · rw [if_neg hroot,isDirectChild_dir d.nonzero hroot]
    simp only [List.append_assoc,List.singleton_append]

/-- The directory's prefix ends with a slash. -/
theorem dirPrefix_slash (dir : List Byte) : ∃ front,dirPrefix dir=front++[0x2F] := by
  unfold dirPrefix
  split_ifs
  · exact ⟨[],rfl⟩
  · exact ⟨dir,rfl⟩

/-- The node is in use and lies directly in the directory. -/
def Lies (s : Vfs F) (dir : CStr) (i : Slot) : Prop :=
  (s.nodes i).type≠.unused ∧
    ∃ name,name≠[] ∧ (0x2F : Byte)∉name ∧ rowString (s.nodes i).path=dirPrefix dir.bytes++name

/-- Whether a node lies in a directory is computed by is_direct_child. -/
instance (s : Vfs F) (dir : CStr) : DecidablePred (Lies s dir) := fun i =>
  decidable_of_iff ((s.nodes i).type≠.unused ∧ isDirectChild dir.bytes (rowStr (s.nodes i).path).bytes=true)
    (and_congr_right fun _ => isDirectChild_iff dir _)

/-- The nodes that lie in a directory, in the order of their slots. -/
def contents (s : Vfs F) (dir : CStr) : List Slot := (List.finRange 128).filter fun i => Lies s dir i

/-- The loop stores the next nodes that lie in the directory. -/
theorem listLoop_eq {s : Vfs F} (h : Shape s) (dir : CStr) {max : ℤ} (slots : List Slot)
    (hsorted : slots.Pairwise (· < ·)) :
    ∀ out : List Slot,(out.length : ℤ)≤ max→ listLoop s dir max out slots=
      out++(slots.filter fun i => Lies s dir i).take (max.toNat-out.length) := by
  induction slots with
  | nil =>
    intro out _
    rw [List.filter_nil,List.take_nil,List.append_nil]
    rfl
  | cons i slots ih =>
    intro out hout
    obtain ⟨hlater,htail⟩ := List.pairwise_cons.mp hsorted
    have hfree : ∀ j : Slot,s.nodeCount ≤ j.val→¬Lies s dir j := fun j hj hl => hl.1 (h.fresh j hj).1
    unfold listLoop
    by_cases hturn : i.val<s.nodeCount ∧ (out.length : ℤ)< max
    · rw [if_neg (not_not.mpr hturn)]
      by_cases hl : Lies s dir i
      · have hchild : isDirectChild dir.bytes (rowString (s.nodes i).path)=true :=
          (isDirectChild_iff dir (rowStr (s.nodes i).path)).mpr hl.2
        have hroom : max.toNat-out.length=max.toNat-(out++[i]).length+1 := by
          rw [List.length_append,List.length_singleton]
          omega
        rw [if_neg hl.1,if_pos hchild,ih htail _ (by rw [List.length_append,List.length_singleton]; omega),
          List.filter_cons_of_pos (by simpa using hl),hroom,List.take_succ_cons,List.append_assoc,
          List.singleton_append]
      · rw [List.filter_cons_of_neg (by simpa using hl)]
        by_cases hused : (s.nodes i).type=.unused
        · rw [if_pos hused,ih htail out hout]
        · have hchild : ¬isDirectChild dir.bytes (rowString (s.nodes i).path)=true := fun hc =>
            hl ⟨hused,(isDirectChild_iff dir (rowStr (s.nodes i).path)).mp hc⟩
          rw [if_neg hused,if_neg hchild,ih htail out hout]
    · rw [if_pos hturn]
      have hnothing : ((i::slots).filter fun j => Lies s dir j).take (max.toNat-out.length)=[] := by
        by_cases hi : i.val<s.nodeCount
        · have hfull : max.toNat-out.length=0 := by omega
          rw [hfull,List.take_zero]
        · rw [List.filter_eq_nil_iff.mpr,List.take_nil]
          intro j hj
          have hle : i.val≤j.val := by
            obtain rfl|hj := List.mem_cons.mp hj
            · exact Nat.le_refl _
            · exact Nat.le_of_lt (hlater j hj)
          simpa using hfree j (by omega)
      rw [hnothing,List.append_nil]

/-- vfs_list stores the first nodes that lie in the directory. -/
theorem listLoop_contents {s : Vfs F} (h : Shape s) (dir : CStr) {max : ℤ} (hmax : 0≤ max) :
    listLoop s dir max [] (List.finRange 128)=(contents s dir).take max.toNat := by
  rw [listLoop_eq h dir _ (List.sortedLT_finRange 128).pairwise [] hmax,List.nil_append,List.length_nil,
    Nat.sub_zero]
  rfl

/-- The nodes of a directory are listed once. -/
theorem nodup_contents (s : Vfs F) (dir : CStr) : (contents s dir).Nodup :=
  (List.nodup_finRange 128).filter _

/-- The nodes of a directory are those that lie in it. -/
theorem mem_contents {s : Vfs F} {dir : CStr} {i : Slot} : i∈contents s dir ↔ Lies s dir i := by
  unfold contents
  rw [List.mem_filter,decide_eq_true_eq]
  exact and_iff_right (List.mem_finRange i)

end EronKernel.VfsListing

import EronKernel.VfsListing
import EronKernel.VfsContents

/-!
# Renaming a directory

vfs_rename writes the new path into one node. The nodes in a directory have
the directory's path in their own paths, so they stay behind: after the call
they are found and listed under the old path, and what was already stored
under the new path appears there. A directory is moved with its contents
exactly when there are none on either side.
-/

namespace EronKernel.VfsRename

open ByteMemory CString VfsModel VfsTable VfsShape VfsListing VfsUniqueness

variable {F : Type}

/-- The path of something in a directory. -/
def inDir (dir suffix : CStr) : CStr where
  bytes := dir.bytes++0x2F::suffix.bytes
  nonzero := by
    rw [List.mem_append,List.mem_cons]
    rintro (h|h|h)
    · exact dir.nonzero h
    · exact absurd h (by decide)
    · exact suffix.nonzero h

/-- What was found and listed in the old directory before is found and listed
in the new one afterwards. -/
structure Carries (s t : Vfs F) (d e : CStr) : Prop where
  /-- Lookups of everything in the directory. -/
  found : ∀ suffix : CStr,suffix.bytes≠[]→
    vfsLookup t (some (inDir e suffix))=vfsLookup s (some (inDir d suffix))
  /-- Listings of any size. -/
  listed : ∀ max : ℤ,0≤ max→
    listLoop t e max [] (List.finRange 128)=listLoop s d max [] (List.finRange 128)

/-- The path is the directory's path, a slash and more, or a direct child of
the directory. -/
def Below (dir path : CStr) : Prop :=
  (∃ suffix : CStr,suffix.bytes≠[] ∧ path=inDir dir suffix) ∨ isDirectChild dir.bytes path.bytes=true

/-- No node in use lies below the directory, and none but the renamed one
below its new path. -/
def NothingBelow (s : Vfs F) (d e : CStr) (i : Slot) : Prop :=
  ∀ j,(s.nodes j).type≠.unused→¬Below d (rowStr (s.nodes j).path) ∧
    (j≠i→¬Below e (rowStr (s.nodes j).path))

/-- A node was given another path and nothing else changed. -/
structure Moved (s t : Vfs F) (i : Slot) (d e : CStr) : Prop where
  /-- The state before. -/
  before : TableOk s
  /-- The state after. -/
  after : TableOk t
  /-- The node had the old path. -/
  old : ∃ v,table s i=some v ∧ v.path=d
  /-- It has the new path. -/
  new : ∃ v,table t i=some v ∧ v.path=e
  /-- The other nodes are the same. -/
  others : ∀ j,j≠i→table t j=table s j
  /-- The paths are different. -/
  ne : d≠e

/-- No path that is stored leads nowhere. -/
theorem vfsLookup_none_iff {s : Vfs F} (h : TableOk s) (p : CStr) :
    vfsLookup s (some p)=none ↔ ∀ j v,table s j=some v→ v.path≠p := by
  rcases vfsLookup_cases s (some p) with ⟨q,i,v,hq,_,_,hi,hv,hp⟩|⟨hn,hno⟩
  · cases hq
    rw [hi]
    exact iff_of_false (Option.some_ne_none i) fun hall => hall i v hv hp
  · refine iff_of_true hn ?_
    rintro j v hv rfl
    have hok := h.views j v hv
    have hvalid := (isValidPath_iff v.path).mpr ⟨hok.pathNonempty,hok.pathDots⟩
    exact (hno v.path rfl hvalid).2 j v hv rfl

/-- A path that differs from the renamed node's own paths leads to the same
node afterwards as another one did before exactly when both lead nowhere. -/
theorem Moved.lookup_iff {s t : Vfs F} {i : Slot} {d e : CStr} (h : Moved s t i d e) {p q : CStr}
    (hpq : p≠q) (hq : q≠e) :
    vfsLookup t (some q)=vfsLookup s (some p) ↔
      (∀ j v,table s j=some v→ v.path≠p) ∧ ∀ j v,j≠i→table s j=some v→ v.path≠q := by
  have hafter : (∀ j v,table t j=some v→ v.path≠q) ↔ ∀ j v,j≠i→table s j=some v→ v.path≠q := by
    constructor
    · intro hall j v hj hv
      exact hall j v ((h.others j hj).trans hv)
    · intro hall j v hv
      by_cases hj : j=i
      · obtain ⟨w,hw,hwe⟩ := h.new
        rw [hj,hw] at hv
        cases hv
        exact fun he => hq (he.symm.trans hwe)
      · exact hall j v hj ((h.others j hj).symm.trans hv)
  rw [←hafter,←vfsLookup_none_iff h.before,←vfsLookup_none_iff h.after]
  constructor
  · intro heq
    cases hs : vfsLookup s (some p) with
    | none => exact ⟨rfl,heq.trans hs⟩
    | some j =>
      obtain ⟨_,⟨v,hv,hvp⟩,_⟩ := VfsContents.vfsLookup_eq_some_iff.mp hs
      obtain ⟨_,⟨w,hw,hwq⟩,_⟩ := VfsContents.vfsLookup_eq_some_iff.mp (heq.trans hs)
      by_cases hj : j=i
      · obtain ⟨u,hu,hue⟩ := h.new
        rw [hj,hu] at hw
        cases hw
        exact absurd (hwq.symm.trans hue) hq
      · rw [h.others j hj,hv] at hw
        cases hw
        exact absurd (hvp.symm.trans hwq) hpq
  · rintro ⟨hs,ht⟩
    rw [hs,ht]

/-- What stands behind the last slash determines what is in front of it. -/
theorem slash_append_inj {p q a b : List Byte} (ha : (0x2F : Byte)∉a) (hb : (0x2F : Byte)∉b)
    (h : p++0x2F::a=q++0x2F::b) : p=q := by
  obtain ⟨l,rfl,hl⟩|⟨l,rfl,hl⟩ := List.append_eq_append_iff.mp h
  · cases l with
    | nil => exact (List.append_nil p).symm
    | cons x l =>
      rw [List.cons_append,List.cons.injEq] at hl
      exact absurd (hl.2▸List.mem_append_right l List.mem_cons_self) ha
  · cases l with
    | nil => exact List.append_nil q
    | cons x l =>
      rw [List.cons_append,List.cons.injEq] at hl
      exact absurd (hl.2▸List.mem_append_right l List.mem_cons_self) hb

/-- Directories with the same prefix are the same. -/
theorem dirPrefix_inj {d e : List Byte} (hd : d≠[]) (he : e≠[]) (h : dirPrefix d=dirPrefix e) : d=e := by
  unfold dirPrefix at h
  split_ifs at h with h1 h2 h2
  · exact h1.trans h2.symm
  · have hnil : ([] : List Byte)=e := (List.append_inj' (h : []++[0x2F]=e++[0x2F]) rfl).1
    exact absurd hnil.symm he
  · have hnil : d=([] : List Byte) := (List.append_inj' (h : d++[0x2F]=[]++[0x2F]) rfl).1
    exact absurd hnil hd
  · exact (List.append_inj' h rfl).1

/-- A path lies directly in one directory only. -/
theorem isDirectChild_inj {d e c : CStr} (hd : d.bytes≠[]) (he : e.bytes≠[])
    (h : isDirectChild d.bytes c.bytes=true) (h' : isDirectChild e.bytes c.bytes=true) : d=e := by
  obtain ⟨a,_,ha,hca⟩ := (isDirectChild_iff d c).mp h
  obtain ⟨b,_,hb,hcb⟩ := (isDirectChild_iff e c).mp h'
  obtain ⟨p,hp⟩ := dirPrefix_slash d.bytes
  obtain ⟨q,hq⟩ := dirPrefix_slash e.bytes
  have heq := hca.symm.trans hcb
  rw [hp,hq,List.append_assoc,List.append_assoc] at heq
  have hpq := slash_append_inj ha hb heq
  exact CStr.ext (dirPrefix_inj hd he (by rw [hp,hq,hpq]))

/-- No directory lies directly in itself. -/
theorem not_isDirectChild_self (d : CStr) : ¬isDirectChild d.bytes d.bytes=true := by
  intro h
  obtain ⟨name,hne,_,hd⟩ := (isDirectChild_iff d d).mp h
  have hlength := congrArg List.length hd
  have hpos := List.length_pos_iff.mpr hne
  unfold dirPrefix at hlength
  split_ifs at hlength with hroot
  · rw [hroot,List.length_append] at hlength
    omega
  · rw [List.length_append,List.length_append] at hlength
    omega

/-- A directory is not the path of something in it. -/
theorem ne_inDir (d suffix : CStr) : d≠inDir d suffix := by
  intro h
  have hlength := congrArg (fun p => p.bytes.length) h
  simp only [inDir,List.length_append,List.length_cons] at hlength
  omega

/-- Different directories have different paths of the same name. -/
theorem inDir_ne {d e : CStr} (h : d≠e) (suffix : CStr) : inDir d suffix≠inDir e suffix := by
  intro heq
  have hbytes := congrArg CStr.bytes heq
  exact h (CStr.ext (List.append_cancel_right hbytes))

/-- A node in use is visible with its path. -/
theorem lies_iff {s : Vfs F} (h : Shape s) (dir : CStr) (j : Slot) :
    Lies s dir j ↔ ∃ v,table s j=some v ∧ isDirectChild dir.bytes v.path.bytes=true := by
  unfold Lies
  constructor
  · rintro ⟨hused,hname⟩
    exact ⟨_,table_of_live h hused,(isDirectChild_iff dir (rowStr (s.nodes j).path)).mpr hname⟩
  · rintro ⟨v,hv,hchild⟩
    obtain ⟨hlive,rfl⟩ := table_eq_some_iff.mp hv
    exact ⟨hlive.2,(isDirectChild_iff dir (rowStr (s.nodes j).path)).mp hchild⟩

/-- All listings agree when the contents do. -/
theorem listed_iff {s t : Vfs F} (hs : Shape s) (ht : Shape t) (d e : CStr) :
    (∀ max : ℤ,0≤ max→ listLoop t e max [] (List.finRange 128)=listLoop s d max [] (List.finRange 128)) ↔
      contents t e=contents s d := by
  constructor
  · intro h
    have hall := h 128 (by decide)
    have hfew : ∀ (u : Vfs F) (dir : CStr),(contents u dir).take (128 : ℤ).toNat=contents u dir := by
      intro u dir
      refine List.take_of_length_le ((List.length_filter_le _ _).trans ?_)
      rw [List.length_finRange]
      decide
    rwa [listLoop_contents ht e (by decide),listLoop_contents hs d (by decide),hfew,hfew] at hall
  · intro h max hmax
    rw [listLoop_contents ht e hmax,listLoop_contents hs d hmax,h]

/-- The new directory has the contents of the old one exactly when neither has
any. -/
theorem Moved.contents_iff {s t : Vfs F} {i : Slot} {d e : CStr} (h : Moved s t i d e)
    (hd : d.bytes≠[]) (he : e.bytes≠[]) :
    contents t e=contents s d ↔ (∀ j,¬Lies s d j) ∧ ∀ j,j≠i→¬Lies s e j := by
  have hafter : ∀ j,Lies t e j ↔ j≠i ∧ Lies s e j := by
    intro j
    rw [lies_iff h.after.shape,lies_iff h.before.shape]
    by_cases hj : j=i
    · obtain ⟨v,hv,hve⟩ := h.new
      refine iff_of_false ?_ fun hc => hc.1 hj
      rintro ⟨w,hw,hchild⟩
      rw [hj,hv] at hw
      cases hw
      rw [hve] at hchild
      exact not_isDirectChild_self e hchild
    · rw [h.others j hj]
      exact (and_iff_right hj).symm
  constructor
  · intro heq
    have hnone : ∀ j,¬Lies s d j := by
      intro j hj
      have hj' := (hafter j).mp (mem_contents.mp (heq.symm▸mem_contents.mpr hj))
      obtain ⟨v,hv,hchild⟩ := (lies_iff h.before.shape d j).mp hj
      obtain ⟨w,hw,hchild'⟩ := (lies_iff h.before.shape e j).mp hj'.2
      rw [hv] at hw
      cases hw
      exact h.ne (isDirectChild_inj hd he hchild hchild')
    refine ⟨hnone,fun j hj hl => hnone j ?_⟩
    exact mem_contents.mp (heq▸mem_contents.mpr ((hafter j).mpr ⟨hj,hl⟩))
  · rintro ⟨hs,ht⟩
    have hempty : contents t e=[] := List.eq_nil_iff_forall_not_mem.mpr fun j hj =>
      ht j ((hafter j).mp (mem_contents.mp hj)).1 ((hafter j).mp (mem_contents.mp hj)).2
    have hempty' : contents s d=[] := List.eq_nil_iff_forall_not_mem.mpr fun j hj => hs j (mem_contents.mp hj)
    rw [hempty,hempty']

/-- A node in use by its path. -/
theorem live_iff {s : Vfs F} (h : Shape s) (P : CStr→Prop) (j : Slot) :
    ((s.nodes j).type≠.unused→P (rowStr (s.nodes j).path)) ↔ ∀ v,table s j=some v→P v.path := by
  constructor
  · intro hall v hv
    obtain ⟨hlive,rfl⟩ := table_eq_some_iff.mp hv
    exact hall hlive.2
  · exact fun hall hused => hall _ (table_of_live h hused)

/-- A renamed directory carries its contents exactly when there are none on
either side. -/
theorem Moved.carries_iff {s t : Vfs F} {i : Slot} {d e : CStr} (h : Moved s t i d e)
    (hd : d.bytes≠[]) (he : e.bytes≠[]) : Carries s t d e ↔ NothingBelow s d e i := by
  have hfound := fun suffix : CStr => h.lookup_iff (inDir_ne h.ne suffix) (ne_inDir e suffix).symm
  have hlisted := (listed_iff h.before.shape h.after.shape d e).trans (h.contents_iff hd he)
  constructor
  · rintro ⟨hc,hl⟩ j hused
    have hv := table_of_live h.before.shape hused
    obtain ⟨hnone,hnone'⟩ := hlisted.mp hl
    refine ⟨?_,?_⟩
    · rintro (⟨suffix,hne,hpath⟩|hchild)
      · exact ((hfound suffix).mp (hc suffix hne)).1 j _ hv hpath
      · exact hnone j ((lies_iff h.before.shape d j).mpr ⟨_,hv,hchild⟩)
    · rintro hj (⟨suffix,hne,hpath⟩|hchild)
      · exact ((hfound suffix).mp (hc suffix hne)).2 j _ hj hv hpath
      · exact hnone' j hj ((lies_iff h.before.shape e j).mpr ⟨_,hv,hchild⟩)
  · intro hn
    have hold : ∀ j v,table s j=some v→¬Below d v.path := fun j =>
      (live_iff h.before.shape (fun p => ¬Below d p) j).mp fun hused => (hn j hused).1
    have hnew : ∀ j v,j≠i→table s j=some v→¬Below e v.path := fun j v hj =>
      (live_iff h.before.shape (fun p => ¬Below e p) j).mp (fun hused => (hn j hused).2 hj) v
    refine ⟨fun suffix hne => (hfound suffix).mpr ⟨?_,?_⟩,hlisted.mpr ⟨?_,?_⟩⟩
    · exact fun j v hv hpath => hold j v hv (Or.inl ⟨suffix,hne,hpath⟩)
    · exact fun j v hj hv hpath => hnew j v hj hv (Or.inl ⟨suffix,hne,hpath⟩)
    · intro j hl
      obtain ⟨v,hv,hchild⟩ := (lies_iff h.before.shape d j).mp hl
      exact hold j v hv (Or.inr hchild)
    · intro j hj hl
      obtain ⟨v,hv,hchild⟩ := (lies_iff h.before.shape e j).mp hl
      exact hnew j v hj hv (Or.inr hchild)

/-- A renaming that returns zero moves the node it finds, under a path that is
not cut. -/
theorem vfsRename_moved {s : Vfs F} (h : TableOk s) {d e : CStr} {i : Slot}
    (hi : vfsLookup s (some d)=some i) (hlength : e.bytes.length≤127)
    (hzero : (vfsRename s (some d) (some e)).2=0) :
    Moved s (vfsRename s (some d) (some e)).1 i d e ∧ d.bytes≠[] ∧ e.bytes≠[] := by
  obtain ⟨hvalid,⟨v,hv,hvd⟩,_⟩ := VfsContents.vfsLookup_eq_some_iff.mp hi
  rcases vfsRename_found h.shape hvalid hi hv (some e) with ⟨_,hrun⟩|⟨q,hq,hyes,_,hch⟩
  · rw [hrun] at hzero
    cases hzero
  · cases hq
    have htable := hch.2.table_eq
    have hok : TableOk (vfsRename s (some d) (some e)).1 :=
      (vfsRename_tableStep h.shape (some d) (some e)).tableOk h
    have hcut : e.take 127=e := CStr.take_of_length_le hlength
    refine ⟨⟨h,hok,⟨v,hv,hvd⟩,⟨{v with path := e.take 127},?_,hcut⟩,?_,?_⟩,
      ((isValidPath_iff d).mp hvalid).1,((isValidPath_iff e).mp hyes.1).1⟩
    · rw [htable,Function.update_self]
    · intro j hj
      rw [htable,Function.update_of_ne hj]
    · rintro rfl
      have hnone := hyes.2.2.2
      rw [hi] at hnone
      cases hnone

/-- In every state that operations of the file system reach, a node that is
renamed, under a path that is not cut, takes what lies below it along exactly
when no node in use lies below it and none but itself below its new path. -/
theorem rename_carries_contents_iff (os : List (VfsOp F)) {d e : CStr} {i : Slot}
    (hi : vfsLookup (performOps (vfsInit zeroed) os) (some d)=some i) (hlength : e.bytes.length≤127)
    (hzero : (vfsRename (performOps (vfsInit zeroed) os) (some d) (some e)).2=0) :
    Carries (performOps (vfsInit zeroed) os)
        (vfsRename (performOps (vfsInit zeroed) os) (some d) (some e)).1 d e ↔
      NothingBelow (performOps (vfsInit zeroed) os) d e i := by
  have hok : TableOk (performOps (vfsInit zeroed) os) := performOps_tableOk os tableOk_init
  obtain ⟨hmoved,hd,he⟩ := vfsRename_moved hok hi hlength hzero
  exact hmoved.carries_iff hd he

/-- Making the directory "/d". -/
def oneDirectory : List (VfsOp Unit) := [.call (.mkdir (some (.lit "/d")))]

/-- Making the directory "/d" and the file "/d/f" in it. -/
def directoryWithFile : List (VfsOp Unit) :=
  [.call (.mkdir (some (.lit "/d"))),.call (.mkfile (some (.lit "/d/f")) none)]

/-- An empty directory is carried to its new path. -/
theorem oneDirectory_carried :
    let s := performOps (vfsInit zeroed) oneDirectory
    Carries s (vfsRename s (some (.lit "/d")) (some (.lit "/e"))).1 (.lit "/d") (.lit "/e") := by
  intro s
  have hshape : Shape s := (performOps_tableOk oneDirectory tableOk_init).shape
  have hcount : s.nodeCount=1 := by decide +kernel
  have hpath : rowStr (s.nodes 0).path=.lit "/d" := CStr.ext (by decide +kernel)
  have hlookup : vfsLookup s (some (.lit "/d"))=some 0 := by decide +kernel
  have hzero : (vfsRename s (some (.lit "/d")) (some (.lit "/e"))).2=0 := by decide +kernel
  refine (rename_carries_contents_iff oneDirectory hlookup (by decide) hzero).mpr ?_
  intro j hused
  have hj : j=0 := by
    have hlt : j.val<s.nodeCount := Nat.lt_of_not_le fun hge => hused (hshape.fresh j hge).1
    exact Fin.ext (show j.val=0 by omega)
  subst hj
  refine ⟨?_,fun hne => absurd rfl hne⟩
  rw [hpath]
  rintro (⟨suffix,_,hsuffix⟩|hchild)
  · exact ne_inDir _ suffix hsuffix
  · exact not_isDirectChild_self _ hchild

/-- Two nodes with different paths have unique paths. -/
theorem pathsUnique_two {s : Vfs F} (h : Shape s) (hcount : s.nodeCount=2)
    (hne : rowString (s.nodes 0).path≠rowString (s.nodes 1).path) : PathsUnique s := by
  have hslots : ∀ i : Slot,(s.nodes i).type≠.unused→ i=0 ∨ i=1 := by
    intro i hused
    have hlt : i.val<s.nodeCount := Nat.lt_of_not_le fun hge => hused (h.fresh i hge).1
    have hcases : i.val=0 ∨ i.val=1 := by omega
    exact hcases.imp Fin.ext Fin.ext
  intro i j hi hj hpaths
  rcases hslots i hi with rfl|rfl <;> rcases hslots j hj with rfl|rfl
  · rfl
  · exact absurd hpaths hne
  · exact absurd hpaths.symm hne
  · rfl

/-- "/d" is a directory with the file "/d/f" in a reachable state with unique
paths. Renaming it to "/e" returns zero, but afterwards there is no "/e/f" and
"/e" is listed as empty. -/
theorem directoryWithFile_left_behind :
    let s := performOps (vfsInit zeroed) directoryWithFile
    let out := vfsRename s (some (.lit "/d")) (some (.lit "/e"))
    PathsUnique s ∧ (s.nodes 0).type=.dir ∧ out.2=0 ∧
      vfsLookup s (some (inDir (.lit "/d") (.lit "f")))=some 1 ∧
      vfsLookup out.1 (some (inDir (.lit "/e") (.lit "f")))=none ∧
      listLoop s (.lit "/d") 1 [] (List.finRange 128)=[1] ∧
      listLoop out.1 (.lit "/e") 1 [] (List.finRange 128)=[] ∧
      ¬Carries s out.1 (.lit "/d") (.lit "/e") := by
  intro s out
  have hshape : Shape s := (performOps_tableOk directoryWithFile tableOk_init).shape
  have hbefore : vfsLookup s (some (inDir (.lit "/d") (.lit "f")))=some 1 := by decide +kernel
  have hafter : vfsLookup out.1 (some (inDir (.lit "/e") (.lit "f")))=none := by decide +kernel
  refine ⟨pathsUnique_two hshape (by decide +kernel) (by decide +kernel),by decide +kernel,by decide +kernel,
    hbefore,hafter,by decide +kernel,by decide +kernel,?_⟩
  intro hc
  have hsame := hc.found (.lit "f") (by decide)
  rw [hbefore,hafter] at hsame
  cases hsame

end EronKernel.VfsRename

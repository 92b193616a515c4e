import EronKernel.ShellExec
import EronKernel.TtyModel
import EronKernel.VfsListing

/-!
# Directory listings of the shell

prog_ls asks vfs_list for at most 32 nodes and writes the basename of each
stored path. The basename of a path that lies in a directory is the name
behind the directory's prefix, so that prefix and name lead back to the node's
path.
-/

namespace EronKernel.ShellListing

open ByteMemory CString VfsModel VfsTable VfsShape VfsListing ShellExec TtyModel

variable {F : Type}

/-- VGA_COLOR_LIGHT_GREY. -/
abbrev vgaColorLightGrey : Byte := 7

/-- VGA_COLOR_LIGHT_GREEN. -/
abbrev vgaColorLightGreen : Byte := 10

/-- VGA_COLOR_LIGHT_CYAN. -/
abbrev vgaColorLightCyan : Byte := 11

/-- VGA_COLOR_LIGHT_RED. -/
abbrev vgaColorLightRed : Byte := 12

/-- VGA_COLOR_LIGHT_BROWN. -/
abbrev vgaColorLightBrown : Byte := 14

/-- The colour in which prog_ls writes a node. -/
def lsColor (n : VfsNode F) : Byte :=
  if n.type=.dir then vgaEntryColor vgaColorLightCyan 0
  else if n.type=.dev then vgaEntryColor vgaColorLightBrown 0
  else if vfsStrncmp (rowString n.path) (ascii "/bin/") 5=0 then vgaEntryColor vgaColorLightGreen 0
  else vgaEntryColor vgaColorLightGrey 0

/-- What prog_ls writes for a node. -/
def lsEntry (n : VfsNode F) : List TtyOp :=
  [.setcolor (lsColor n),.writestring (vfsBasename (rowStr n.path))]++
    (if n.type=.dir then [.writestring (.lit "/")] else [])++[.writestring (.lit "  ")]

/-- The directory that prog_ls lists. -/
def lsDir : List CStr→ CStr
  | _::dir::_ => dir
  | _ => .lit "/"

/-- The nodes that prog_ls lists. -/
def lsEntries (s : Vfs F) (dir : CStr) : List Slot := listLoop s dir 32 [] (List.finRange 128)

/-- prog_ls: the return value and the calls of the terminal. -/
def progLs (s : Vfs F) (argv : List CStr) : ℤ×List TtyOp :=
  let dir := lsDir argv
  let entries := lsEntries s dir
  if entries.length=0 then
    (1,[.setcolor (vgaEntryColor vgaColorLightRed 0),.writestring (.lit "\nls: "),.writestring dir,
      .writestring (.lit ": not found")])
  else (0,.writestring (.lit "\n")::entries.flatMap fun i => lsEntry (s.nodes i))

/-- A string without a slash that is not at the end is its own basename. -/
theorem basenameFrom_name (last : List Byte) {name : List Byte} (h : (0x2F : Byte)∉name) :
    basenameFrom last name=last := by
  induction name with
  | nil => rfl
  | cons b name ih =>
    have hb : b≠0x2F := fun he => h (he▸List.mem_cons_self)
    rw [basenameFrom,if_neg fun hc => hb hc.1]
    exact ih fun hmem => h (List.mem_cons_of_mem b hmem)

/-- The basename is the name behind the last slash in front of a name. -/
theorem basenameFrom_append {name : List Byte} (hne : name≠[]) (h : (0x2F : Byte)∉name)
    (dir : List Byte) : ∀ last,basenameFrom last (dir++0x2F::name)=name := by
  induction dir with
  | nil =>
    intro last
    rw [List.nil_append,basenameFrom,if_pos ⟨rfl,hne⟩]
    exact basenameFrom_name name h
  | cons b dir ih =>
    intro last
    rw [List.cons_append,basenameFrom]
    exact ih _

/-- The basename of a path in a directory is the name. -/
theorem vfsBasename_child {dir name : List Byte} (hne : name≠[]) (h : (0x2F : Byte)∉name) {c : CStr}
    (hc : c.bytes=dirPrefix dir++name) : (vfsBasename c).bytes=name := by
  obtain ⟨front,hfront⟩ := dirPrefix_slash dir
  have h0 : (0 : Byte)∉name := fun hmem => c.nonzero (hc▸List.mem_append_right _ hmem)
  unfold vfsBasename
  rw [hc,hfront,List.append_assoc,List.singleton_append,basenameFrom_append hne h,
    CStr.ofBytes_bytes h0]

/-- A directory's prefix and a name. -/
def joined (dir name : CStr) : CStr := .ofBytes (dirPrefix dir.bytes++name.bytes)

/-- Joining the prefix and the basename of a node's path gives the path. -/
theorem joined_basename {s : Vfs F} {dir : CStr} {i : Slot} (h : Lies s dir i) :
    joined dir (vfsBasename (rowStr (s.nodes i).path))=rowStr (s.nodes i).path := by
  obtain ⟨_,name,hne,hslash,hpath⟩ := h
  have hbase := vfsBasename_child hne hslash (c := rowStr (s.nodes i).path) hpath
  unfold joined
  rw [hbase,←hpath]
  exact CStr.ofBytes_self (rowStr (s.nodes i).path)

/-- The path of a node in use leads to a node with this path. -/
theorem vfsLookup_own_path {s : Vfs F} (h : TableOk s) {i : Slot} (hi : (s.nodes i).type≠.unused) :
    ∃ j,vfsLookup s (some (rowStr (s.nodes i).path))=some j ∧
      rowStr (s.nodes j).path=rowStr (s.nodes i).path := by
  have hv := table_of_live h.shape hi
  have hok := h.views i _ hv
  have hvalid := (isValidPath_iff (rowStr (s.nodes i).path)).mpr ⟨hok.pathNonempty,hok.pathDots⟩
  rcases vfsLookup_cases s (some (rowStr (s.nodes i).path)) with ⟨p,j,w,hp,_,_,hj,hw,hpath⟩|⟨_,hno⟩
  · cases hp
    obtain ⟨_,rfl⟩ := table_eq_some_iff.mp hw
    exact ⟨j,hj,hpath⟩
  · exact absurd rfl ((hno _ rfl hvalid).2 i _ hv)

/-- is_direct_child, basename, vfs_list and prog_ls agree on what lies in a
directory. -/
structure ListingExact (s : Vfs F) (dir : CStr) : Prop where
  /-- is_direct_child looks for the directory's prefix and a name. -/
  child : ∀ c : CStr,isDirectChild dir.bytes c.bytes=true ↔
    ∃ name,name≠[] ∧ (0x2F : Byte)∉name ∧ c.bytes=dirPrefix dir.bytes++name
  /-- The basename is that name. -/
  base : ∀ c : CStr,∀ name,name≠[]→(0x2F : Byte)∉name→ c.bytes=dirPrefix dir.bytes++name→
    (vfsBasename c).bytes=name
  /-- vfs_list stores the first nodes in use whose paths are direct children. -/
  listed : ∀ max : ℤ,0≤ max→ listLoop s dir max [] (List.finRange 128)=
    ((List.finRange 128).filter fun i => (s.nodes i).type≠.unused ∧
      isDirectChild dir.bytes (rowString (s.nodes i).path)=true).take max.toNat
  /-- No node is listed twice. -/
  once : ∀ max : ℤ,0≤ max→(listLoop s dir max [] (List.finRange 128)).Nodup
  /-- prog_ls writes the basename of every node it lists. -/
  written : ∀ argv,lsDir argv=dir→∀ i∈lsEntries s dir,
    .writestring (vfsBasename (rowStr (s.nodes i).path))∈(progLs s argv).2
  /-- The prefix and the basename lead to a node with the listed path. -/
  resolves : ∀ max : ℤ,0≤ max→∀ i∈listLoop s dir max [] (List.finRange 128),
    ∃ j,vfsLookup s (some (joined dir (vfsBasename (rowStr (s.nodes i).path))))=some j ∧
      rowStr (s.nodes j).path=rowStr (s.nodes i).path

/-- prog_ls writes the basename of every node it lists. -/
theorem progLs_writes (s : Vfs F) (argv : List CStr) {i : Slot} (hi : i∈lsEntries s (lsDir argv)) :
    .writestring (vfsBasename (rowStr (s.nodes i).path))∈(progLs s argv).2 := by
  have hsome : (lsEntries s (lsDir argv)).length≠0 := fun hc =>
    List.ne_nil_of_mem hi (List.length_eq_zero_iff.mp hc)
  unfold progLs
  dsimp only
  rw [if_neg hsome]
  refine List.mem_cons_of_mem _ (List.mem_flatMap.mpr ⟨i,hi,?_⟩)
  unfold lsEntry
  exact List.mem_append_left _ (List.mem_append_left _ (List.mem_cons_of_mem _ List.mem_cons_self))

/-- In every state that operations of the file system reach, for every
directory, listing, basename and lookup agree. -/
theorem listing_exact (os : List (VfsOp F)) (dir : CStr) :
    ListingExact (performOps (vfsInit zeroed) os) dir := by
  obtain ⟨s,hs⟩ : ∃ s : Vfs F,s=performOps (vfsInit zeroed) os := ⟨_,rfl⟩
  have hok : TableOk s := hs▸performOps_tableOk os tableOk_init
  rw [←hs]
  refine ⟨isDirectChild_iff dir,?_,?_,?_,?_,?_⟩
  · exact fun c name hne hslash hc => vfsBasename_child hne hslash hc
  · intro max hmax
    rw [listLoop_contents hok.shape dir hmax]
    unfold contents Lies
    refine congrArg (List.take max.toNat) (List.filter_congr fun i _ => decide_eq_decide.mpr ?_)
    exact and_congr_right fun _ => (isDirectChild_iff dir (rowStr (s.nodes i).path)).symm
  · intro max hmax
    rw [listLoop_contents hok.shape dir hmax]
    exact (nodup_contents s dir).sublist (List.take_sublist _ _)
  · rintro argv rfl i hi
    exact progLs_writes s argv hi
  · intro max hmax i hi
    rw [listLoop_contents hok.shape dir hmax] at hi
    have hlies := mem_contents.mp (List.mem_of_mem_take hi)
    rw [joined_basename hlies]
    exact vfsLookup_own_path hok hlies.1

end EronKernel.ShellListing

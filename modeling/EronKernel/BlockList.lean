import Mathlib.Tactic

/-!
# Tiled block lists of a header-prefixed heap

An abstract heap is a list of blocks laid out one behind the other, each
preceded by a header of a fixed size. First fit, carving a chosen block and
merging neighbouring free blocks are list operations; their effect on the
covered extent, on the placed used blocks and on the separation of free
blocks is settled here once, with the header size as a parameter.
-/

namespace EronKernel.BlockList

/-- One block of the tiling. -/
structure Block where
  /-- Payload bytes behind the header. -/
  size : ℕ
  /-- Whether the payload is handed out. -/
  used : Bool
  deriving DecidableEq

/-- Bytes covered by the blocks, headers included. -/
def extent (header : ℕ) : List Block→ℕ
  | [] => 0
  | b::bs => header+b.size+extent header bs

/-- Header addresses of the blocks when the first one lies at the base. -/
def placed (header : ℕ) : ℕ→List Block→List (ℕ×Block)
  | _,[] => []
  | base,b::bs => (base,b)::placed header (base+header+b.size) bs

/-- The placed blocks whose payload is handed out. -/
def usedPlaced (header base : ℕ) (bs : List Block) : List (ℕ×Block) :=
  (placed header base bs).filter fun p => p.2.used

/-- No two neighbouring blocks are both free. -/
def Separated (bs : List Block) : Prop := bs.IsChain fun b c => b.used=true ∨ c.used=true

/-- A free block that can hold the wanted payload. -/
def Fits (wanted : ℕ) (b : Block) : Prop := b.used=false ∧ wanted≤b.size

instance (wanted : ℕ) (b : Block) : Decidable (Fits wanted b) :=
  inferInstanceAs (Decidable (_ ∧ _))

/-- Blocks that replace a chosen free block of the given size: the wanted
part and a free rest when the rest exceeds a header and the slack. -/
def carve (header slack wanted size : ℕ) : List Block :=
  if header+slack<size-wanted then [⟨wanted,true⟩,⟨size-wanted-header,false⟩] else [⟨size,true⟩]

/-- Merge every run of neighbouring free blocks, carrying the open block. -/
def coalesceFrom (header : ℕ) : Block→List Block→List Block
  | open_,[] => [open_]
  | open_,b::bs =>
    if open_.used=false ∧ b.used=false then
      coalesceFrom header ⟨open_.size+header+b.size,false⟩ bs
    else open_::coalesceFrom header b bs

/-- Merge every run of neighbouring free blocks. -/
def coalesce (header : ℕ) : List Block→List Block
  | [] => []
  | b::bs => coalesceFrom header b bs

variable {header : ℕ}

/-- The extent of a concatenation. -/
@[simp] theorem extent_append (xs ys : List Block) :
    extent header (xs++ys)=extent header xs+extent header ys := by
  induction xs with
  | nil => simp only [List.nil_append,extent,Nat.zero_add]
  | cons b xs ih => simp only [List.cons_append,extent,ih]; omega

/-- The placement of a concatenation continues behind the first part. -/
theorem placed_append (base : ℕ) (xs ys : List Block) :
    placed header base (xs++ys)=
      placed header base xs++placed header (base+extent header xs) ys := by
  induction xs generalizing base with
  | nil => rfl
  | cons b xs ih =>
    simp only [List.cons_append,placed,extent,ih]
    rw [show base+header+b.size+extent header xs=base+(header+b.size+extent header xs) by omega]

/-- Every block is placed once. -/
@[simp] theorem length_placed (base : ℕ) (bs : List Block) :
    (placed header base bs).length=bs.length := by
  induction bs generalizing base with
  | nil => rfl
  | cons b bs ih => simp only [placed,List.length_cons,ih]

/-- Used placements of a concatenation. -/
theorem usedPlaced_append (base : ℕ) (xs ys : List Block) :
    usedPlaced header base (xs++ys)=
      usedPlaced header base xs++usedPlaced header (base+extent header xs) ys := by
  simp only [usedPlaced,placed_append,List.filter_append]

/-- Used placements from the first block on. -/
theorem usedPlaced_cons (base : ℕ) (b : Block) (bs : List Block) :
    usedPlaced header base (b::bs)=
      (if b.used then [(base,b)] else [])++usedPlaced header (base+header+b.size) bs := by
  cases hb : b.used <;> simp [usedPlaced,placed,hb]

/-- Every placed block lies inside the extent. -/
theorem placed_bounds {base : ℕ} {bs : List Block} {p : ℕ×Block}
    (hp : p∈placed header base bs) :
    base≤p.1 ∧ p.1+header+p.2.size≤base+extent header bs := by
  induction bs generalizing base with
  | nil => cases hp
  | cons b bs ih =>
    rcases List.mem_cons.mp hp with rfl|hp
    · simp only [extent]
      omega
    · have hb := ih hp
      simp only [extent]
      omega

/-- Placed blocks follow each other without overlap. -/
theorem placed_pairwise (base : ℕ) (bs : List Block) :
    (placed header base bs).Pairwise fun p q => p.1+header+p.2.size≤q.1 := by
  induction bs generalizing base with
  | nil => exact List.Pairwise.nil
  | cons b bs ih =>
    refine List.Pairwise.cons ?_ (ih _)
    intro q hq
    exact (placed_bounds hq).1

/-- A placed block splits the list around itself. -/
theorem exists_split_of_mem_placed {base : ℕ} {bs : List Block} {p : ℕ×Block}
    (hp : p∈placed header base bs) :
    ∃ l r,bs=l++p.2::r ∧ p.1=base+extent header l := by
  induction bs generalizing base with
  | nil => cases hp
  | cons b bs ih =>
    rcases List.mem_cons.mp hp with rfl|hp
    · exact ⟨[],bs,rfl,rfl⟩
    · obtain ⟨l,r,hl,ha⟩ := ih hp
      refine ⟨b::l,r,by rw [hl]; rfl,?_⟩
      simp only [extent]
      omega

/-- Two placed blocks whose byte ranges meet are the same block. -/
theorem placed_eq_of_overlap {base : ℕ} {bs : List Block} {p q : ℕ×Block}
    (hp : p∈placed header base bs) (hq : q∈placed header base bs)
    (ho : p.1<q.1+header+q.2.size) (ho' : q.1<p.1+header+p.2.size) : p=q := by
  induction bs generalizing base with
  | nil => cases hp
  | cons b bs ih =>
    rcases List.mem_cons.mp hp with rfl|hp <;> rcases List.mem_cons.mp hq with rfl|hq
    · rfl
    · have hb := (placed_bounds hq).1
      dsimp only at ho ho'
      omega
    · have hb := (placed_bounds hp).1
      dsimp only at ho ho'
      omega
    · exact ih hp hq

/-- The first free block that can hold the wanted payload, with the address of
its header. -/
def firstFit (header wanted base : ℕ) (bs : List Block) : Option (ℕ×Block) :=
  (placed header base bs).find? fun p => decide (Fits wanted p.2)

/-- Without a fitting block there is no first one. -/
theorem firstFit_eq_none {wanted : ℕ} {bs : List Block} (h : ∀ b∈bs,¬Fits wanted b) (base : ℕ) :
    firstFit header wanted base bs=none := by
  refine List.find?_eq_none.mpr ?_
  intro p hp
  obtain ⟨l,r,hbs,_⟩ := exists_split_of_mem_placed hp
  have hno := h p.2 (hbs ▸ List.mem_append_right l List.mem_cons_self)
  exact fun hyes => hno (of_decide_eq_true hyes)

/-- A fitting block behind blocks that do not fit is the first one. -/
theorem firstFit_split {wanted : ℕ} {l r : List Block} {b : Block} (hl : ∀ c∈l,¬Fits wanted c)
    (hb : Fits wanted b) (base : ℕ) :
    firstFit header wanted base (l++b::r)=some (base+extent header l,b) := by
  have hnone : firstFit header wanted base l=none := firstFit_eq_none hl base
  unfold firstFit at hnone ⊢
  rw [placed_append,List.find?_append,hnone,Option.none_or]
  exact List.find?_cons_of_pos (decide_eq_true hb)

/-- The first fitting block splits the list in one way. -/
theorem split_unique {wanted : ℕ} {l l' r r' : List Block} {b b' : Block} (hl : ∀ c∈l,¬Fits wanted c)
    (hb : Fits wanted b) (hl' : ∀ c∈l',¬Fits wanted c) (hb' : Fits wanted b')
    (h : l++b::r=l'++b'::r') : l=l' ∧ b=b' ∧ r=r' := by
  induction l generalizing l' with
  | nil =>
    cases l' with
    | nil =>
      obtain ⟨hhead,htail⟩ := List.cons.inj h
      exact ⟨rfl,hhead,htail⟩
    | cons c l' =>
      obtain ⟨rfl,_⟩ := List.cons.inj h
      exact absurd hb (hl' b List.mem_cons_self)
  | cons c l ih =>
    cases l' with
    | nil =>
      obtain ⟨rfl,_⟩ := List.cons.inj h
      exact absurd hb' (hl c List.mem_cons_self)
    | cons c' l' =>
      obtain ⟨rfl,htail⟩ := List.cons.inj h
      obtain ⟨rfl,hrest⟩ := ih (fun d hd => hl d (List.mem_cons_of_mem c hd))
        (fun d hd => hl' d (List.mem_cons_of_mem c hd)) htail
      exact ⟨rfl,hrest⟩

/-- Carving keeps the extent of the chosen block. -/
theorem extent_carve {slack wanted size : ℕ} (hw : wanted ≤ size) :
    extent header (carve header slack wanted size)=header+size := by
  unfold carve
  split <;> simp only [extent] <;> omega

/-- Carving hands out exactly one block, at the address of the chosen one. -/
theorem usedPlaced_carve (base slack wanted size : ℕ) :
    usedPlaced header base (carve header slack wanted size)=
      [(base,⟨if header+slack<size-wanted then wanted else size,true⟩)] := by
  unfold carve
  split <;> simp [usedPlaced,placed]

/-- Handing out a free block keeps free blocks separated. -/
theorem separated_carve {slack wanted size : ℕ} {l r : List Block}
    (hs : Separated (l++⟨size,false⟩::r)) :
    Separated (l++carve header slack wanted size++r) := by
  have hr : Separated (⟨size,false⟩::r) := (List.isChain_append.mp hs).2.1
  have hl : Separated l := (List.isChain_append.mp hs).1
  unfold carve Separated at *
  split
  · simp only [List.append_assoc,List.cons_append,List.nil_append]
    refine List.isChain_append.mpr ⟨hl,?_,?_⟩
    · refine List.isChain_cons_cons.mpr ⟨Or.inl rfl,?_⟩
      cases r with
      | nil => exact List.isChain_singleton _
      | cons c r =>
        obtain ⟨hc,hr⟩ := List.isChain_cons_cons.mp hr
        exact List.isChain_cons_cons.mpr ⟨Or.inr (by simpa using hc),hr⟩
    · intro x _ y hy
      simp only [List.head?_cons,Option.mem_def,Option.some.injEq] at hy
      exact Or.inr (by rw [←hy])
  · simp only [List.append_assoc,List.cons_append,List.nil_append]
    refine List.isChain_append.mpr ⟨hl,?_,?_⟩
    · cases r with
      | nil => exact List.isChain_singleton _
      | cons c r => exact List.isChain_cons_cons.mpr ⟨Or.inl rfl,(List.isChain_cons_cons.mp hr).2⟩
    · intro x _ y hy
      simp only [List.head?_cons,Option.mem_def,Option.some.injEq] at hy
      exact Or.inr (by rw [←hy])

/-- Merging keeps every used block at its address. -/
theorem usedPlaced_coalesceFrom (base : ℕ) (b : Block) (bs : List Block) :
    usedPlaced header base (coalesceFrom header b bs)=usedPlaced header base (b::bs) := by
  induction bs generalizing base b with
  | nil => rfl
  | cons c bs ih =>
    unfold coalesceFrom
    split
    · next hc =>
      rw [ih]
      simp only [usedPlaced_cons,hc.1,hc.2,Bool.false_eq_true,if_false,List.nil_append]
      rw [show base+header+(b.size+header+c.size)=base+header+b.size+header+c.size by omega]
    · rw [usedPlaced_cons,ih,usedPlaced_cons base b]

/-- Merging places no block at a new address. -/
theorem placed_coalesceFrom (base : ℕ) (b : Block) (bs : List Block) :
    ∀ p∈placed header base (coalesceFrom header b bs),∃ q∈placed header base (b::bs),q.1=p.1 := by
  induction bs generalizing base b with
  | nil => exact fun p hp => ⟨p,hp,rfl⟩
  | cons c bs ih =>
    intro p hp
    unfold coalesceFrom at hp
    split at hp
    · obtain ⟨q,hq,he⟩ := ih base _ p hp
      rcases List.mem_cons.mp hq with rfl|hq
      · exact ⟨(base,b),List.mem_cons_self,he⟩
      · refine ⟨q,?_,he⟩
        simp only [placed,List.mem_cons]
        rw [show base+header+b.size+header+c.size=base+header+(b.size+header+c.size) by omega]
        exact Or.inr (Or.inr hq)
    · rcases List.mem_cons.mp hp with rfl|hp
      · exact ⟨(base,b),List.mem_cons_self,rfl⟩
      · obtain ⟨q,hq,he⟩ := ih _ c p hp
        exact ⟨q,List.mem_cons_of_mem _ hq,he⟩

/-- The first merged block keeps the use of the open block. -/
theorem head_coalesceFrom (b : Block) (bs : List Block) :
    ∃ c cs,coalesceFrom header b bs=c::cs ∧ c.used=b.used := by
  induction bs generalizing b with
  | nil => exact ⟨b,[],rfl,rfl⟩
  | cons c bs ih =>
    unfold coalesceFrom
    split
    · next hc =>
      obtain ⟨d,ds,hd,hu⟩ := ih ⟨b.size+header+c.size,false⟩
      exact ⟨d,ds,hd,hu.trans hc.1.symm⟩
    · exact ⟨b,_,rfl,rfl⟩

/-- After merging, free blocks are separated. -/
theorem separated_coalesceFrom (b : Block) (bs : List Block) :
    Separated (coalesceFrom header b bs) := by
  induction bs generalizing b with
  | nil => exact List.isChain_singleton _
  | cons c bs ih =>
    unfold coalesceFrom
    split
    · exact ih _
    · next hc =>
      have ht := ih c
      obtain ⟨d,ds,hd,hu⟩ := @head_coalesceFrom header c bs
      rw [hd] at ht ⊢
      refine List.isChain_cons_cons.mpr ⟨?_,ht⟩
      rw [hu]
      cases hb : b.used <;> cases hd : c.used <;> simp_all

/-- A free block followed by the given blocks, merged with the next one when
that is free. -/
def absorbRight (header sz : ℕ) : List Block→List Block
  | [] => [⟨sz,false⟩]
  | b::bs => if b.used then ⟨sz,false⟩::b::bs else ⟨sz+header+b.size,false⟩::bs

/-- The blocks after a block between two parts was released: it is merged with
a free neighbour on either side and nothing else moves. -/
def releaseIn (header : ℕ) : List Block→ℕ→List Block→List Block
  | [],sz,r => absorbRight header sz r
  | [b],sz,r => if b.used then b::absorbRight header sz r
    else absorbRight header (b.size+header+sz) r
  | b::c::l,sz,r => b::releaseIn header (c::l) sz r

/-- Merging leaves separated blocks alone. -/
theorem coalesceFrom_of_separated (b : Block) (bs : List Block) (hs : Separated (b::bs)) :
    coalesceFrom header b bs=b::bs := by
  induction bs generalizing b with
  | nil => rfl
  | cons c bs ih =>
    obtain ⟨hbc,hrest⟩ := List.isChain_cons_cons.mp hs
    have hnot : ¬(b.used=false ∧ c.used=false) := by
      rintro ⟨hb,hc⟩
      rw [hb,hc] at hbc
      simp at hbc
    rw [coalesceFrom,if_neg hnot,ih c hrest]

/-- Merging from a free block in front of separated blocks absorbs at most the
next one. -/
theorem coalesceFrom_free (sz : ℕ) {r : List Block} (hs : Separated r) :
    coalesceFrom header ⟨sz,false⟩ r=absorbRight header sz r := by
  cases r with
  | nil => rfl
  | cons c r =>
    cases hc : c.used with
    | true =>
      rw [absorbRight,if_pos hc]
      exact coalesceFrom_of_separated _ _ (List.isChain_cons_cons.mpr ⟨Or.inr hc,hs⟩)
    | false =>
      rw [coalesceFrom,if_pos ⟨rfl,hc⟩,absorbRight,if_neg (by rw [hc]; exact Bool.false_ne_true)]
      apply coalesceFrom_of_separated
      cases r with
      | nil => exact List.isChain_singleton _
      | cons d r =>
        obtain ⟨hcd,hrest⟩ := List.isChain_cons_cons.mp hs
        rw [hc] at hcd
        exact List.isChain_cons_cons.mpr ⟨Or.inr (hcd.resolve_left Bool.false_ne_true),hrest⟩

/-- Merging after the release of one block of a separated list touches only the
released block and its free neighbours. -/
theorem coalesce_release {sz : ℕ} {l r : List Block} (hs : Separated (l++⟨sz,true⟩::r)) :
    coalesce header (l++⟨sz,false⟩::r)=releaseIn header l sz r := by
  have hr : Separated r := by
    have htail : Separated (⟨sz,true⟩::r) := (List.isChain_append.mp hs).2.1
    exact htail.tail
  cases l with
  | nil => exact coalesceFrom_free sz hr
  | cons b l =>
    have hl : Separated (b::l) := (List.isChain_append.mp hs).1
    clear hs
    change coalesceFrom header b (l++⟨sz,false⟩::r)=_
    induction l generalizing b with
    | nil =>
      cases hb : b.used with
      | true =>
        rw [releaseIn,if_pos hb,List.nil_append,coalesceFrom,if_neg (by simp [hb]),coalesceFrom_free sz hr]
      | false =>
        rw [releaseIn,if_neg (by rw [hb]; exact Bool.false_ne_true),List.nil_append,coalesceFrom,
          if_pos ⟨hb,rfl⟩,coalesceFrom_free _ hr]
    | cons c l ih =>
      obtain ⟨hbc,hrest⟩ := List.isChain_cons_cons.mp hl
      have hnot : ¬(b.used=false ∧ c.used=false) := by
        rintro ⟨hb,hc⟩
        rw [hb,hc] at hbc
        simp at hbc
      rw [List.cons_append,coalesceFrom,if_neg hnot,releaseIn,ih c hrest]

/-- Every block covers its header, so a list is not longer than its extent. -/
theorem length_mul_le_extent (bs : List Block) : header*bs.length≤extent header bs := by
  induction bs with
  | nil => exact Nat.zero_le _
  | cons b bs ih =>
    simp only [List.length_cons,extent,Nat.mul_add,Nat.mul_one]
    omega

/-- Total payload of the blocks with the given use. -/
def payload (used : Bool) : List Block→ℕ
  | [] => 0
  | b::bs => (if b.used=used then b.size else 0)+payload used bs

/-- The payload of a concatenation. -/
@[simp] theorem payload_append (used : Bool) (xs ys : List Block) :
    payload used (xs++ys)=payload used xs+payload used ys := by
  induction xs with
  | nil => simp only [List.nil_append,payload,Nat.zero_add]
  | cons b xs ih => simp only [List.cons_append,payload,ih]; omega

/-- Payloads lie inside the extent. -/
theorem payload_le_extent (used : Bool) (bs : List Block) :
    payload used bs≤extent header bs := by
  induction bs with
  | nil => exact Nat.zero_le _
  | cons b bs ih =>
    simp only [payload,extent]
    split <;> omega

/-- The extent is made of the two payloads and one header for each block. -/
theorem extent_eq_payloads (bs : List Block) :
    extent header bs=payload true bs+payload false bs+header*bs.length := by
  induction bs with
  | nil => rfl
  | cons b bs ih =>
    simp only [extent,payload,List.length_cons,Nat.mul_add,Nat.mul_one,ih]
    cases b.used <;> simp <;> omega

/-- The used payload is the sum over the used placements. -/
theorem sum_usedPlaced (base : ℕ) (bs : List Block) :
    ((usedPlaced header base bs).map fun q => q.2.size).sum=payload true bs := by
  induction bs generalizing base with
  | nil => rfl
  | cons b bs ih =>
    rw [usedPlaced_cons,List.map_append,List.sum_append,ih,payload]
    cases b.used <;> simp

/-- Merging free blocks keeps the used payload. -/
theorem payload_coalesceFrom (b : Block) (bs : List Block) :
    payload true (coalesceFrom header b bs)=payload true (b::bs) := by
  induction bs generalizing b with
  | nil => rfl
  | cons c bs ih =>
    unfold coalesceFrom
    split
    · next hc =>
      rw [ih]
      simp [payload,hc.1,hc.2]
    · simp only [payload,ih]

/-- Every block but the last has a payload of a multiple of the given number. -/
def InnerDvd (k : ℕ) (bs : List Block) : Prop := ∀ b∈bs.dropLast,k∣b.size

/-- The inner blocks of a concatenation with a nonempty second part. -/
theorem innerDvd_append {k : ℕ} (l : List Block) {x : List Block} (hx : x≠[]) :
    InnerDvd k (l++x) ↔ (∀ b∈l,k∣b.size) ∧ InnerDvd k x := by
  unfold InnerDvd
  rw [List.dropLast_append_of_ne_nil hx]
  simp only [List.mem_append]
  constructor
  · exact fun h => ⟨fun b hb => h b (Or.inl hb),fun b hb => h b (Or.inr hb)⟩
  · rintro ⟨hl,hx⟩ b (hb|hb)
    · exact hl b hb
    · exact hx b hb

/-- The inner blocks from the first of two on. -/
theorem innerDvd_cons_cons {k : ℕ} (b c : Block) (bs : List Block) :
    InnerDvd k (b::c::bs) ↔ k∣b.size ∧ InnerDvd k (c::bs) := by
  unfold InnerDvd
  rw [List.dropLast_cons_cons,List.forall_mem_cons]

/-- The mark of a block does not matter for the inner payloads. -/
theorem innerDvd_mark {k sz : ℕ} {u : Bool} (v : Bool) {l r : List Block}
    (h : InnerDvd k (l++⟨sz,u⟩::r)) : InnerDvd k (l++⟨sz,v⟩::r) := by
  obtain ⟨hl,hr⟩ := (innerDvd_append l (List.cons_ne_nil _ _)).mp h
  refine (innerDvd_append l (List.cons_ne_nil _ _)).mpr ⟨hl,?_⟩
  cases r with
  | nil => exact fun b hb => absurd hb List.not_mem_nil
  | cons c r =>
    obtain ⟨hsz,hrest⟩ := (innerDvd_cons_cons _ _ _).mp hr
    exact (innerDvd_cons_cons _ _ _).mpr ⟨hsz,hrest⟩

/-- Carving a multiple keeps the inner payloads multiples. -/
theorem innerDvd_carve {k slack wanted size : ℕ} (hk : k∣header) (hw : k∣wanted) {l r : List Block}
    (h : InnerDvd k (l++⟨size,false⟩::r)) : InnerDvd k (l++carve header slack wanted size++r) := by
  obtain ⟨hl,hr⟩ := (innerDvd_append l (List.cons_ne_nil _ _)).mp h
  unfold carve
  split
  · rw [List.append_assoc,innerDvd_append l (by simp)]
    refine ⟨hl,?_⟩
    cases r with
    | nil => exact (innerDvd_cons_cons _ _ _).mpr ⟨hw,fun b hb => absurd hb List.not_mem_nil⟩
    | cons c r =>
      obtain ⟨hsize,hrest⟩ := (innerDvd_cons_cons _ _ _).mp hr
      refine (innerDvd_cons_cons _ _ _).mpr ⟨hw,(innerDvd_cons_cons _ _ _).mpr ⟨?_,hrest⟩⟩
      exact Nat.dvd_sub (Nat.dvd_sub hsize hw) hk
  · rw [List.append_assoc]
    exact innerDvd_mark true h

/-- Merging keeps the inner payloads multiples. -/
theorem innerDvd_coalesceFrom {k : ℕ} (hk : k∣header) (b : Block) (bs : List Block)
    (h : InnerDvd k (b::bs)) : InnerDvd k (coalesceFrom header b bs) := by
  induction bs generalizing b with
  | nil => exact h
  | cons c bs ih =>
    obtain ⟨hb,hc⟩ := (innerDvd_cons_cons _ _ _).mp h
    unfold coalesceFrom
    split
    · apply ih
      cases bs with
      | nil => exact fun d hd => absurd hd List.not_mem_nil
      | cons d bs =>
        obtain ⟨hc,hrest⟩ := (innerDvd_cons_cons _ _ _).mp hc
        exact (innerDvd_cons_cons _ _ _).mpr ⟨Nat.dvd_add (Nat.dvd_add hb hk) hc,hrest⟩
    · obtain ⟨d,ds,hd,_⟩ := @head_coalesceFrom header c bs
      have hrest := ih c hc
      rw [hd] at hrest ⊢
      exact (innerDvd_cons_cons _ _ _).mpr ⟨hb,hrest⟩

/-- Releasing a block of a separated list keeps the inner payloads multiples. -/
theorem innerDvd_releaseIn {k sz : ℕ} (hk : k∣header) {l r : List Block}
    (hs : Separated (l++⟨sz,true⟩::r)) (h : InnerDvd k (l++⟨sz,true⟩::r)) :
    InnerDvd k (releaseIn header l sz r) := by
  have hfree : InnerDvd k (l++⟨sz,false⟩::r) := innerDvd_mark false h
  rw [←coalesce_release hs]
  cases l with
  | nil => exact innerDvd_coalesceFrom hk _ _ hfree
  | cons b l => exact innerDvd_coalesceFrom hk _ _ hfree

/-- A separated list with no used block has at most one block. -/
theorem length_le_one_of_separated {bs : List Block} (hs : Separated bs)
    (hf : ∀ b∈bs,b.used=false) : bs.length≤1 := by
  match bs,hs,hf with
  | [],_,_ => exact Nat.zero_le _
  | [_],_,_ => exact Nat.le_refl _
  | b::c::bs,hs,hf =>
    have hbc := (List.isChain_cons_cons.mp hs).1
    rw [hf b (by simp),hf c (by simp)] at hbc
    simp at hbc

end EronKernel.BlockList

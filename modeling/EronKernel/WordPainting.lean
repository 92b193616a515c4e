import EronKernel.ByteMemory

/-!
# One word stored at many places

An array of words starts at a base address; its elements are four bytes apart
and their indices stay below a quarter of the address space, so every address
has one index and one place inside a word. Storing one value at a list of
indices changes exactly the bytes with an index in the list, whatever the
order of the stores and however often an index occurs.
-/

namespace EronKernel.WordPainting

open ByteMemory

/-- The address of an element. -/
def element (base : Word) (i : ℕ) : Word := base+BitVec.ofNat 32 (4*i)

/-- The index of the element that an address belongs to. -/
def indexOf (base x : Word) : ℕ := (x-base).toNat/4

/-- Store a value at every index of a list. -/
def paintWords (m : Mem) (base v : Word) (indices : List ℕ) : Mem :=
  indices.foldl (fun m i => store32 m (element base i) v) m

/-- An address by its index and its place in the word. -/
theorem eq_element_add (base x : Word) :
    x=element base (indexOf base x)+BitVec.ofNat 32 ((x-base).toNat%4) := by
  have hsplit := Nat.div_add_mod (x-base).toNat 4
  unfold element indexOf
  rw [BitVec.add_assoc,←BitVec.ofNat_add,hsplit,BitVec.ofNat_toNat,BitVec.setWidth_eq]
  bv_omega

/-- The addresses of an element have its index. -/
theorem inRange_element_iff {base x : Word} {i : ℕ} (hi : i<2^30) :
    InRange (element base i) 4 x ↔ indexOf base x=i := by
  unfold InRange indexOf element
  constructor
  · intro h
    have hlow : (BitVec.ofNat 32 (4*i)).toNat=4*i := by
      rw [BitVec.toNat_ofNat,Nat.mod_eq_of_lt (by omega)]
    generalize hd : x-base=d
    have hx : x-(base+BitVec.ofNat 32 (4*i))=d-BitVec.ofNat 32 (4*i) := by
      rw [←hd]
      bv_omega
    rw [hx] at h
    have hlt := d.isLt
    rw [BitVec.toNat_sub,hlow] at h
    omega
  · intro h
    have hlow : (BitVec.ofNat 32 (4*i)).toNat=4*i := by
      rw [BitVec.toNat_ofNat,Nat.mod_eq_of_lt (by omega)]
    generalize hd : x-base=d at h
    have hx : x-(base+BitVec.ofNat 32 (4*i))=d-BitVec.ofNat 32 (4*i) := by
      rw [←hd]
      bv_omega
    have hlt := d.isLt
    rw [hx,BitVec.toNat_sub,hlow]
    omega

/-- What one store leaves at every address. -/
theorem store32_element (m : Mem) (base v : Word) {i : ℕ} (hi : i<2^30) (x : Word) :
    store32 m (element base i) v x=
      if indexOf base x=i then byteOf v ((x-base).toNat%4) else m x := by
  split_ifs with hin
  · obtain ⟨h0,h1,h2,h3⟩ := store32_bytes m (element base i) v
    have hx := eq_element_add base x
    rw [hin] at hx
    have hlt : (x-base).toNat%4<4 := Nat.mod_lt _ (by decide)
    generalize (x-base).toNat%4=k at hx hlt
    subst hx
    obtain _|_|_|_|k := k
    · rw [show element base i+BitVec.ofNat 32 0=element base i from BitVec.add_zero _]
      exact h0
    · exact h1
    · exact h2
    · exact h3
    · omega
  · exact store32_of_not_inRange v fun h => hin ((inRange_element_iff hi).mp h)

/-- What all stores together leave at every address. -/
theorem paintWords_apply (base v : Word) {indices : List ℕ} (hi : ∀ i∈indices,i<2^30) (m : Mem)
    (x : Word) : paintWords m base v indices x=
      if indexOf base x∈indices then byteOf v ((x-base).toNat%4) else m x := by
  induction indices generalizing m with
  | nil => rfl
  | cons i indices ih =>
    unfold paintWords at ih ⊢
    rw [List.foldl_cons,ih (fun j hj => hi j (List.mem_cons_of_mem i hj)),
      store32_element m base v (hi i List.mem_cons_self)]
    by_cases htail : indexOf base x∈indices
    · rw [if_pos htail,if_pos (List.mem_cons_of_mem i htail)]
    · rw [if_neg htail]
      exact ite_congr (by rw [List.mem_cons]; simp only [htail,or_false]) (fun _ => rfl) fun _ => rfl

/-- Only the set of indices counts. -/
theorem paintWords_congr (m : Mem) (base v : Word) {indices others : List ℕ}
    (hi : ∀ i∈indices,i<2^30) (h : ∀ i,i∈indices ↔ i∈others) :
    paintWords m base v indices=paintWords m base v others := by
  funext x
  rw [paintWords_apply base v hi,paintWords_apply base v fun i ho => hi i ((h i).mpr ho)]
  exact ite_congr (propext (h _)) (fun _ => rfl) fun _ => rfl

/-- A painted element has the value. -/
theorem load32_paintWords (m : Mem) (base v : Word) {indices : List ℕ} (hi : ∀ i∈indices,i<2^30)
    {i : ℕ} (hmem : i∈indices) : load32 (paintWords m base v indices) (element base i)=v := by
  rw [←load32_store32 m (element base i) v]
  apply load32_congr
  intro x hx
  have hindex := (inRange_element_iff (hi i hmem)).mp hx
  rw [load32_store32,paintWords_apply base v hi,store32_element m base v (hi i hmem),hindex,if_pos hmem,
    if_pos rfl]

/-- Every other element is as before. -/
theorem load32_paintWords_of_notMem (m : Mem) (base v : Word) {indices : List ℕ}
    (hi : ∀ i∈indices,i<2^30) {i : ℕ} (hlt : i<2^30) (hmem : i∉indices) :
    load32 (paintWords m base v indices) (element base i)=load32 m (element base i) := by
  apply load32_congr
  intro x hx
  have hindex := (inRange_element_iff hlt).mp hx
  rw [paintWords_apply base v hi,hindex,if_neg hmem]

end EronKernel.WordPainting

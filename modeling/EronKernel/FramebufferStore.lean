import EronKernel.FramebufferModel

/-!
# Storing and reading one pixel

A pixel takes four bytes in every mode, but only with 32 bits per pixel is the
row pitch four bytes for each column. There the pixels are the elements of an
array of words inside the buffer. In a narrower mode that has a pixel at all,
the last one reaches behind the end of the buffer.
-/

namespace EronKernel.FramebufferStore

open ByteMemory WordPainting FramebufferModel

/-- The pixel is in the mode's range. -/
def Visible (fb : Fb) (x y : ℤ) : Prop :=
  (0 ≤ x ∧ x<fb.fbInfo.width.toNat) ∧ 0 ≤ y ∧ y<fb.fbInfo.height.toNat

/-- What a store of one pixel does: it stays inside the buffer, it is read
back, and it leaves all other pixels alone. -/
structure PixelLaw (fb : Fb) (x y : ℤ) (color : Word) : Prop where
  /-- The addresses that are stored to are in the buffer. -/
  inside : ∀ a∈(fbPutpixel fb x y color).touched.drop fb.touched.length,
    InRange fb.fbInfo.buffer fb.fbInfo.size.toNat a
  /-- The pixel is read back. -/
  read : fbGetpixel (fbPutpixel fb x y color) x y=color
  /-- The other pixels are as before. -/
  others : ∀ x' y',Visible fb x' y'→(x',y')≠(x,y)→
    fbGetpixel (fbPutpixel fb x y color) x' y'=fbGetpixel fb x' y'

/-- The law holds for every pixel and colour. -/
def StoreLaw (fb : Fb) : Prop := ∀ x y color,Visible fb x y→PixelLaw fb x y color

/-- The bytes of the mode's rows fit an int. -/
def SizeFits (width height bpp : Word) : Prop := width.toNat*(bpp.toNat/8)*height.toNat<2^31

/-- The pitch of a mode whose size fits, when it has a row. -/
theorem toNat_pitch {width height bpp : Word} (hfit : SizeFits width height bpp)
    (hh : 0<height.toNat) : (width*(bpp/8)).toNat=width.toNat*(bpp.toNat/8) := by
  have hle : width.toNat*(bpp.toNat/8) ≤ width.toNat*(bpp.toNat/8)*height.toNat :=
    Nat.le_mul_of_pos_right _ hh
  unfold SizeFits at hfit
  rw [BitVec.toNat_mul,BitVec.toNat_udiv]
  exact Nat.mod_eq_of_lt (by change width.toNat*(bpp.toNat/8)<2^32; omega)

/-- The size of a mode whose size fits. -/
theorem toNat_size {width height bpp : Word} (hfit : SizeFits width height bpp) :
    (width*(bpp/8)*height).toNat=width.toNat*(bpp.toNat/8)*height.toNat := by
  by_cases hh : height.toNat=0
  · rw [BitVec.toNat_mul,hh,Nat.mul_zero,Nat.mul_zero,Nat.zero_mod]
  · rw [BitVec.toNat_mul,toNat_pitch hfit (Nat.pos_of_ne_zero hh)]
    unfold SizeFits at hfit
    exact Nat.mod_eq_of_lt (by omega)

/-- The address of a pixel by its distance from the buffer. -/
theorem pixelAddress_natCast (info : FbInfo) (i j : ℕ) :
    pixelAddress info i j=info.buffer+BitVec.ofNat 32 (j*info.pitch.toNat+4*i) := by
  have hrow : BitVec.ofInt 32 (j : ℤ)*info.pitch=BitVec.ofNat 32 (j*info.pitch.toNat) := by
    apply BitVec.eq_of_toNat_eq
    rw [BitVec.ofInt_natCast,BitVec.toNat_mul,BitVec.toNat_ofNat,BitVec.toNat_ofNat,Nat.mod_mul_mod]
  have hcolumn : BitVec.ofInt 32 ((i : ℤ)*4)=BitVec.ofNat 32 (4*i) := by
    rw [show (i : ℤ)*4=((4*i : ℕ) : ℤ) by push_cast; ring,BitVec.ofInt_natCast]
  unfold pixelAddress
  rw [hrow,hcolumn,BitVec.add_assoc,←BitVec.ofNat_add]

/-- A word below the sign bit is the same number as an int. -/
theorem toInt_of_lt {v : Word} (h : v.toNat<2^31) : v.toInt=v.toNat := by
  rw [BitVec.toInt_eq_toNat_cond,if_pos (by omega)]

/-- A store reaches the four bytes of a word. -/
theorem mem_touched_store (fb : Fb) (p color a : Word) :
    a∈(fb.store p color).touched.drop fb.touched.length ↔ InRange p 4 a := by
  unfold Fb.store
  dsimp only
  rw [List.drop_left,inRange_iff (by decide)]
  simp only [List.mem_cons,List.not_mem_nil,or_false]
  constructor
  · rintro (rfl|rfl|rfl|rfl)
    · exact ⟨0,by decide,(BitVec.add_zero _).symm⟩
    · exact ⟨1,by decide,rfl⟩
    · exact ⟨2,by decide,rfl⟩
    · exact ⟨3,by decide,rfl⟩
  · rintro ⟨k,hk,rfl⟩
    obtain _|_|_|_|k := k
    · exact Or.inl (BitVec.add_zero _)
    · exact Or.inr (Or.inl rfl)
    · exact Or.inr (Or.inr (Or.inl rfl))
    · exact Or.inr (Or.inr (Or.inr rfl))
    · omega

section Mode

variable {fb : Fb} {width height bpp buffer : Word}

/-- A visible pixel has a column and a row. -/
theorem Visible.exists_nat {x y : ℤ} (h : Visible (inMode fb width height bpp buffer) x y) :
    ∃ i j : ℕ,x=i ∧ y=j ∧ i<width.toNat ∧ j<height.toNat := by
  unfold Visible at h
  rw [inMode_fbInfo] at h
  dsimp only at h
  exact ⟨x.toNat,y.toNat,by omega,by omega,by omega,by omega⟩

/-- Columns and rows of a mode are small. -/
theorem sides_lt (hfit : SizeFits width height bpp) (hbpp : 16 ≤ bpp.toNat) (hw : 0<width.toNat)
    (hh : 0<height.toNat) : width.toNat<2^30 ∧ height.toNat<2^30 := by
  have hbytes : 2≤bpp.toNat/8 := by omega
  have hwidth : width.toNat*2*1 ≤ width.toNat*(bpp.toNat/8)*height.toNat :=
    Nat.mul_le_mul (Nat.mul_le_mul_left _ hbytes) hh
  have hheight : 1*2*height.toNat ≤ width.toNat*(bpp.toNat/8)*height.toNat :=
    Nat.mul_le_mul_right _ (Nat.mul_le_mul hw hbytes)
  unfold SizeFits at hfit
  omega

/-- The visible pixels pass the test of the drawing functions. -/
theorem offScreen_natCast (hfit : SizeFits width height bpp) (hbpp : 16 ≤ bpp.toNat) {i j : ℕ}
    (hi : i<width.toNat) (hj : j<height.toNat) :
    offScreen (inMode fb width height bpp buffer).fbInfo i j=false := by
  obtain ⟨hw,hh⟩ := sides_lt hfit hbpp (Nat.zero_lt_of_lt hi) (Nat.zero_lt_of_lt hj)
  rw [inMode_fbInfo]
  unfold offScreen
  dsimp only
  rw [toInt_of_lt (by omega),toInt_of_lt (by omega)]
  simp only [Bool.or_eq_false_iff,decide_eq_false_iff_not]
  omega

/-- A mode keeps the buffer it was given. -/
theorem inMode_buffer_ne (hb : buffer≠0) : (inMode fb width height bpp buffer).fbInfo.buffer≠0 := by
  rw [inMode_fbInfo]
  exact hb

/-- The address of a visible pixel by its distance from the buffer. -/
theorem pixelAddress_inMode (hfit : SizeFits width height bpp) (i : ℕ) {j : ℕ} (hj : j<height.toNat) :
    pixelAddress (inMode fb width height bpp buffer).fbInfo i j=
      buffer+BitVec.ofNat 32 (j*(width.toNat*(bpp.toNat/8))+4*i) := by
  rw [pixelAddress_natCast,inMode_fbInfo]
  dsimp only
  rw [toNat_pitch hfit (Nat.zero_lt_of_lt hj)]

/-- A visible pixel stores to four bytes from its address on. -/
theorem mem_touched_iff (hfit : SizeFits width height bpp) (hbpp : 16 ≤ bpp.toNat) (hb : buffer≠0)
    {i j : ℕ} (hi : i<width.toNat) (hj : j<height.toNat) (color a : Word) :
    a∈(fbPutpixel (inMode fb width height bpp buffer) i j color).touched.drop
        (inMode fb width height bpp buffer).touched.length ↔
      InRange (buffer+BitVec.ofNat 32 (j*(width.toNat*(bpp.toNat/8))+4*i)) 4 a := by
  rw [fbPutpixel_onScreen color (offScreen_natCast hfit hbpp hi hj) (inMode_buffer_ne hb),
    pixelAddress_inMode hfit i hj]
  exact mem_touched_store _ _ _ a

/-- The pixel's last byte by its distance from the buffer. -/
theorem lastByte_inRange (p : Word) : InRange p 4 (p+BitVec.ofNat 32 3) :=
  (inRange_iff (by decide)).mpr ⟨3,by decide,rfl⟩

/-- A byte at a distance is in a range when the distance is below its length. -/
theorem inRange_distance {n d : ℕ} (p : Word) (hd : d<2^32) :
    InRange p n (p+BitVec.ofNat 32 d) ↔ d<n := by
  unfold InRange
  have he : p+BitVec.ofNat 32 d-p=BitVec.ofNat 32 d := by bv_omega
  rw [he,BitVec.toNat_ofNat,Nat.mod_eq_of_lt hd]

/-- With two or three bytes per pixel the last pixel of the last row reaches
behind the buffer. -/
theorem not_storeLaw_of_narrow (hfit : SizeFits width height bpp) (hbpp : bpp=16 ∨ bpp=24)
    (hb : buffer≠0) (hw : 0<width.toNat) (hh : 0<height.toNat) :
    ¬StoreLaw (inMode fb width height bpp buffer) := by
  intro hlaw
  have hbytes : bpp.toNat/8=2 ∨ bpp.toNat/8=3 := by
    obtain rfl|rfl := hbpp
    · exact Or.inl rfl
    · exact Or.inr rfl
  have hlow : 16 ≤ bpp.toNat := by omega
  obtain ⟨hw30,_⟩ := sides_lt hfit hlow hw hh
  obtain ⟨i,hi⟩ : ∃ i,width.toNat=i+1 := ⟨width.toNat-1,by omega⟩
  obtain ⟨j,hj⟩ : ∃ j,height.toNat=j+1 := ⟨height.toNat-1,by omega⟩
  have hvisible : Visible (inMode fb width height bpp buffer) i j := by
    unfold Visible
    rw [inMode_fbInfo]
    dsimp only
    omega
  have hlast := (hlaw i j 0 hvisible).inside _
    ((mem_touched_iff hfit hlow hb (by omega) (by omega) 0 _).mpr (lastByte_inRange _))
  rw [inMode_fbInfo] at hlast
  dsimp only at hlast
  rw [toNat_size hfit,BitVec.add_assoc,←BitVec.ofNat_add] at hlast
  unfold SizeFits at hfit
  have hsize : width.toNat*(bpp.toNat/8)*height.toNat=
      j*(width.toNat*(bpp.toNat/8))+width.toNat*(bpp.toNat/8) := by
    rw [hj]
    ring
  rw [hsize] at hlast hfit
  generalize j*(width.toNat*(bpp.toNat/8))=rows at hlast hfit
  rw [inRange_distance buffer (by obtain h|h := hbytes <;> rw [h] at hfit <;> omega)] at hlast
  obtain h|h := hbytes
  · rw [h] at hlast
    omega
  · rw [h] at hlast
    omega

end Mode

/-- The index of a pixel in an array of words. -/
def pixelIndex (width : Word) (i j : ℕ) : ℕ := width.toNat*j+i

/-- The pixels of a screen are numbered row by row. -/
theorem pixelIndex_lt {width height : Word} {i j : ℕ} (hi : i<width.toNat) (hj : j<height.toNat) :
    pixelIndex width i j<width.toNat*height.toNat := by
  have hrow : width.toNat*(j+1) ≤ width.toNat*height.toNat := Nat.mul_le_mul_left _ hj
  rw [Nat.mul_succ] at hrow
  unfold pixelIndex
  omega

/-- A pixel's number tells its column and its row. -/
theorem pixelIndex_inj {width : Word} {i j i' j' : ℕ} (hi : i<width.toNat) (hi' : i'<width.toNat)
    (h : pixelIndex width i j=pixelIndex width i' j') : i=i' ∧ j=j' := by
  unfold pixelIndex at h
  have hcolumn := congrArg (fun n => n%width.toNat) h
  have hrow := congrArg (fun n => n/width.toNat) h
  rw [Nat.mul_add_mod,Nat.mul_add_mod,Nat.mod_eq_of_lt hi,Nat.mod_eq_of_lt hi'] at hcolumn
  rw [Nat.mul_add_div (Nat.zero_lt_of_lt hi),Nat.mul_add_div (Nat.zero_lt_of_lt hi),
    Nat.div_eq_of_lt hi,Nat.div_eq_of_lt hi'] at hrow
  exact ⟨hcolumn,hrow⟩

/-- One stored element is one painted element. -/
theorem store_element_mem (fb : Fb) (base color : Word) (i : ℕ) :
    (fb.store (element base i) color).mem=paintWords fb.mem base color [i] := rfl

section Words

variable {fb : Fb} {width height buffer : Word}

/-- With 32 bits per pixel the pixels are the elements of an array of words. -/
theorem pixelAddress_words (hfit : SizeFits width height 32) (i : ℕ) {j : ℕ} (hj : j<height.toNat) :
    pixelAddress (inMode fb width height 32 buffer).fbInfo i j=element buffer (pixelIndex width i j) := by
  rw [pixelAddress_inMode hfit i hj]
  unfold element pixelIndex
  rw [show j*(width.toNat*((32 : Word).toNat/8))+4*i=4*(width.toNat*j+i) by
    change j*(width.toNat*4)+4*i=_
    ring]

/-- The indices of the pixels are those of words. -/
theorem pixelIndex_small (hfit : SizeFits width height 32) {i j : ℕ} (hi : i<width.toNat)
    (hj : j<height.toNat) : pixelIndex width i j<2^30 := by
  have hlt := pixelIndex_lt hi hj
  have hsize : width.toNat*4*height.toNat<2^31 := hfit
  have hfour : width.toNat*4*height.toNat=4*(width.toNat*height.toNat) := by ring
  omega

/-- With 32 bits per pixel one pixel is one word. -/
theorem storeLaw_words (hfit : SizeFits width height 32) (hb : buffer≠0) :
    StoreLaw (inMode fb width height 32 buffer) := by
  intro x y color hvisible
  obtain ⟨i,j,rfl,rfl,hi,hj⟩ := hvisible.exists_nat
  have hb' : (inMode fb width height 32 buffer).fbInfo.buffer≠0 := inMode_buffer_ne hb
  have hin : offScreen (inMode fb width height 32 buffer).fbInfo i j=false :=
    offScreen_natCast hfit (by decide) hi hj
  have hput := fbPutpixel_onScreen color hin hb'
  have hsmall := pixelIndex_small hfit hi hj
  rw [pixelAddress_words hfit i hj] at hput
  constructor
  · intro a ha
    obtain ⟨k,hk,rfl⟩ := (inRange_iff (by decide)).mp ((mem_touched_iff hfit (by decide) hb hi hj color a).mp ha)
    have hlt := pixelIndex_lt hi hj
    have hsize : width.toNat*4*height.toNat<2^31 := hfit
    have hfour : width.toNat*4*height.toNat=4*(width.toNat*height.toNat) := by ring
    have hoffset : j*(width.toNat*((32 : Word).toNat/8))+4*i=4*pixelIndex width i j := by
      change j*(width.toNat*4)+4*i=4*(width.toNat*j+i)
      ring
    rw [inMode_fbInfo]
    dsimp only
    rw [toNat_size hfit,hoffset,BitVec.add_assoc,←BitVec.ofNat_add,inRange_distance buffer (by omega)]
    change 4*pixelIndex width i j+k<width.toNat*4*height.toNat
    omega
  · rw [fbGetpixel_onScreen (by rw [fbPutpixel_fbInfo]; exact hin) (by rw [fbPutpixel_fbInfo]; exact hb'),
      fbPutpixel_fbInfo,pixelAddress_words hfit i hj,hput]
    exact load32_store32 _ _ _
  · intro x' y' hvisible' hne
    obtain ⟨i',j',rfl,rfl,hi',hj'⟩ := hvisible'.exists_nat
    have hin' : offScreen (inMode fb width height 32 buffer).fbInfo i' j'=false :=
      offScreen_natCast hfit (by decide) hi' hj'
    have hindex : pixelIndex width i' j'∉[pixelIndex width i j] := by
      intro hmem
      obtain ⟨rfl,rfl⟩ := pixelIndex_inj hi' hi (List.mem_singleton.mp hmem)
      exact hne rfl
    rw [fbGetpixel_onScreen (by rw [fbPutpixel_fbInfo]; exact hin') (by rw [fbPutpixel_fbInfo]; exact hb'),
      fbGetpixel_onScreen hin' hb',fbPutpixel_fbInfo,pixelAddress_words hfit i' hj',hput,
      store_element_mem]
    exact load32_paintWords_of_notMem _ buffer color
      (fun k hk => by rw [List.mem_singleton.mp hk]; exact hsmall) (pixelIndex_small hfit hi' hj') hindex

end Words

/-- After fb_set_mode with any width and height whose size fits and 16, 24 or
32 bits per pixel, every pixel is stored inside the buffer, read back and kept
apart from the others exactly when there are 32 bits per pixel or no pixel at
all. -/
theorem store_law_iff (fb : Fb) {width height bpp buffer : Word}
    (hbpp : bpp=16 ∨ bpp=24 ∨ bpp=32) (hfit : SizeFits width height bpp) (hb : buffer≠0) :
    StoreLaw (inMode fb width height bpp buffer) ↔ bpp=32 ∨ width=0 ∨ height=0 := by
  constructor
  · intro hlaw
    by_contra hnot
    rw [not_or,not_or] at hnot
    obtain ⟨hnarrow,hw,hh⟩ := hnot
    refine not_storeLaw_of_narrow hfit ?_ hb (Nat.pos_of_ne_zero fun he => hw (BitVec.eq_of_toNat_eq he))
      (Nat.pos_of_ne_zero fun he => hh (BitVec.eq_of_toNat_eq he)) hlaw
    tauto
  · rintro (rfl|rfl|rfl)
    · exact storeLaw_words hfit hb
    · intro x y color hvisible
      obtain ⟨i,_,_,_,hi,_⟩ := hvisible.exists_nat
      exact absurd hi (Nat.not_lt_zero i)
    · intro x y color hvisible
      obtain ⟨_,j,_,_,_,hj⟩ := hvisible.exists_nat
      exact absurd hj (Nat.not_lt_zero j)

/-- A screen of 800 by 600 with 32 bits keeps the law, one with 16 bits does
not. -/
theorem words_screen_store_law : StoreLaw (inMode blankFb 800 600 32 0xE0000000) ∧
    ¬StoreLaw (inMode blankFb 800 600 16 0xE0000000) :=
  ⟨(store_law_iff blankFb (Or.inr (Or.inr rfl)) (by unfold SizeFits; decide) (by decide)).mpr (Or.inl rfl),
    fun h => absurd ((store_law_iff blankFb (Or.inl rfl) (by unfold SizeFits; decide) (by decide)).mp h)
      (by decide)⟩

/-- A mode of one pixel with 16 bits has a buffer of two bytes, and the pixel
is stored to four. -/
theorem one_halfword_no_store_law :
    ¬∀ (fb : Fb) (width height bpp buffer : Word),bpp=16 ∨ bpp=24 ∨ bpp=32→
      SizeFits width height bpp→ buffer≠0→StoreLaw (inMode fb width height bpp buffer) := by
  intro h
  have hlaw := h blankFb 1 1 16 0x1000 (Or.inl rfl) (by unfold SizeFits; decide) (by decide)
  have hvisible : Visible (inMode blankFb 1 1 16 0x1000) 0 0 := by
    unfold Visible
    decide
  have hlast := (hlaw 0 0 0 hvisible).inside 0x1003 (by decide)
  exact absurd hlast (by unfold InRange; decide)

end EronKernel.FramebufferStore

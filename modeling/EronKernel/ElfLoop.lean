import EronKernel.ElfHeaders

/-!
# The states of the loop over the program headers

The loop finds each header in the memory that the segments in front of it have
left. Every call that gets to the loop ends in one of these states, and what it
read and wrote there it has read and written at the end.
-/

namespace EronKernel.ElfLoop

open ByteMemory FuelLoop ElfModel ElfRuns ElfSegments ElfHeaders

/-- The loader gets to its loop over the program headers. -/
def Loads (m : Mem) (data size : Word) : Prop :=
  elfValidate m data size=0 ∧ ¬(ePhoff m data=0 ∨ ePhnum m data=0) ∧ ¬16<ePhnum m data

instance (m : Mem) (data size : Word) : Decidable (Loads m data size) :=
  inferInstanceAs (Decidable (_ ∧ ¬(_ ∨ _) ∧ ¬_))

/-- The trace with which the loop over the headers starts. -/
def startTrace (m : Mem) (data : Word) : Trace := ⟨m,[(data,52)],[]⟩

/-- A file that gets to the loop has room for the ELF header. -/
theorem Loads.size_ge {m : Mem} {data size : Word} (h : Loads m data size) : 52 ≤ size.toNat := by
  have hv := h.1
  unfold elfValidate at hv
  by_contra hn
  rw [if_pos (by bv_omega)] at hv
  cases hv

/-- The table has at most sixteen headers. -/
theorem Loads.phnum_le {m : Mem} {data size : Word} (h : Loads m data size) :
    (ePhnum m data).toNat≤16 := by
  have hn := h.2.2
  bv_omega

/-- elf_load is its loop over the headers. -/
theorem elfLoad_loads {m : Mem} {data size : Word} (h : Loads m data size) :
    elfLoad m data size=loadHeaders data size (2^16) 0 (startTrace m data) := by
  have hs := h.size_ge
  have hlt : ¬size<ehdrSize := by bv_omega
  unfold elfLoad
  simp only [if_neg hlt]
  rw [if_neg (not_not.mpr h.1),if_neg h.2.1,if_neg h.2.2]
  rfl

/-- elf_load returns zero before the loop and reads at most the ELF header. -/
theorem elfLoad_not_loads {m : Mem} {data size : Word} (h : ¬Loads m data size) :
    ∃ rs,elfLoad m data size=some (⟨m,rs,[]⟩,0) ∧ ∀ r∈rs,r=(data,52) ∧ 52 ≤ size.toNat := by
  refine ⟨if size<ehdrSize then [] else [(data,52)],?_,?_⟩
  · unfold elfLoad
    dsimp only
    by_cases h1 : elfValidate m data size=0
    · rw [if_neg (not_not.mpr h1)]
      by_cases h2 : ePhoff m data=0 ∨ ePhnum m data=0
      · rw [if_pos h2]
      · rw [if_neg h2]
        have h3 : 16<ePhnum m data := by
          by_contra h3
          exact h ⟨h1,h2,h3⟩
        rw [if_pos h3]
    · rw [if_pos h1]
  · intro r hr
    split_ifs at hr with hs
    · cases hr
    · refine ⟨List.mem_singleton.mp hr,?_⟩
      bv_omega

/-- The loop over the headers gets to a header with a trace. -/
inductive LoopAt (m : Mem) (data size : Word) : ℕ→Trace→Prop where
  /-- The loop starts. -/
  | start : LoopAt m data size 0 (startTrace m data)
  /-- A header was passed over. -/
  | skip {i : ℕ} {tr : Trace} : LoopAt m data size i tr→ i<(ePhnum tr.mem data).toNat→
    classify tr.mem data size i=.skip→
    LoopAt m data size (i+1) (tr.note (inspected tr.mem data size i))
  /-- A header's segment was copied. -/
  | copy {i : ℕ} {tr t : Trace} : LoopAt m data size i tr→ i<(ePhnum tr.mem data).toNat→
    classify tr.mem data size i=.copy→
    copySegment data (phAddr tr.mem data i) (tr.note (inspected tr.mem data size i))=some t→
    LoopAt m data size (i+1) t

/-- The call goes on from where the loop is. -/
theorem loopAt_run {m : Mem} {data size : Word} (hl : Loads m data size) {n : ℕ} {tr : Trace}
    (h : LoopAt m data size n tr) :
    n≤65535 ∧ elfLoad m data size=loadHeaders data size (2^16-n) n tr := by
  induction h with
  | start => exact ⟨by omega,elfLoad_loads hl⟩
  | @skip i tr _ hi hc ih =>
    have hlt := (ePhnum tr.mem data).isLt
    refine ⟨by omega,?_⟩
    rw [ih.2,show 2^16-i=(2^16-(i+1))+1 by omega,loadHeaders_turn hi,hc]
  | @copy i tr t _ hi hc ht ih =>
    have hlt := (ePhnum tr.mem data).isLt
    refine ⟨by omega,?_⟩
    rw [ih.2,show 2^16-i=(2^16-(i+1))+1 by omega,loadHeaders_turn hi,hc]
    dsimp only
    rw [ht,Option.bind_some]

/-- At a header that is rejected the call returns zero. -/
theorem elfLoad_of_loopAt {m : Mem} {data size : Word} (hl : Loads m data size) {n : ℕ} {tr : Trace}
    (h : LoopAt m data size n tr) (hn : n<(ePhnum tr.mem data).toNat)
    (hc : classify tr.mem data size n=.reject) :
    elfLoad m data size=some (tr.note (inspected tr.mem data size n),0) := by
  obtain ⟨hle,hrun⟩ := loopAt_run hl h
  rw [hrun,show 2^16-n=(2^16-(n+1))+1 by omega,loadHeaders_turn hn,hc]

/-- There is one way to get to a header. -/
theorem loopAt_unique {m : Mem} {data size : Word} {n : ℕ} {tr tr' : Trace} (h : LoopAt m data size n tr)
    (h' : LoopAt m data size n tr') : tr=tr' := by
  induction h generalizing tr' with
  | start => cases h' with | start => rfl
  | @skip i tr _ hi hc ih =>
    cases h' with
    | skip h' _ _ => rw [ih h']
    | copy h' _ hc' _ =>
      rw [ih h'] at hc
      cases hc.symm.trans hc'
  | @copy i tr t _ hi hc ht ih =>
    cases h' with
    | skip h' _ hc' =>
      rw [ih h'] at hc
      cases hc.symm.trans hc'
    | copy h' _ _ ht' =>
      rw [ih h'] at ht
      exact Option.some.inj (ht.symm.trans ht')

/-- The accesses made so far are accesses of the call. -/
theorem loopAt_extends {m : Mem} {data size : Word} (hl : Loads m data size) {n : ℕ} {tr : Trace}
    (h : LoopAt m data size n tr) : ∃ r,elfLoad m data size=some r ∧ Extends r.1 tr := by
  obtain ⟨hle,hrun⟩ := loopAt_run hl h
  obtain ⟨r,hr,hext⟩ := @loadHeaders_total data size (2^16-n) n tr (by omega) (by omega)
  exact ⟨r,hrun.trans hr,hext⟩

/-- What a header reads is read. -/
theorem loopAt_inspects {m : Mem} {data size : Word} (hl : Loads m data size) {n : ℕ} {tr : Trace}
    (h : LoopAt m data size n tr) (hn : n<(ePhnum tr.mem data).toNat) :
    ∃ r,elfLoad m data size=some r ∧ ∀ x∈inspected tr.mem data size n,x∈r.1.reads := by
  have hhead : ∀ x∈inspected tr.mem data size n,x∈(tr.note (inspected tr.mem data size n)).reads :=
    fun x hx => List.mem_append_left _ hx
  cases hc : classify tr.mem data size n with
  | skip =>
    obtain ⟨r,hr,hext⟩ := loopAt_extends hl (h.skip hn hc)
    exact ⟨r,hr,fun x hx => hext.2 x (hhead x hx)⟩
  | reject => exact ⟨_,elfLoad_of_loopAt hl h hn hc,hhead⟩
  | copy =>
    obtain ⟨t,ht,hadds⟩ := copySegment_total data (phAddr tr.mem data n)
      (tr.note (inspected tr.mem data size n))
    obtain ⟨r,hr,hext⟩ := loopAt_extends hl (h.copy hn hc ht)
    exact ⟨r,hr,fun x hx => hext.2 x (hadds.2 x (hhead x hx))⟩

/-- The loop ends at the end of the table or at a header that is rejected. -/
theorem elfLoad_last {m : Mem} {data size : Word} (hl : Loads m data size) :
    ∃ n tr,LoopAt m data size n tr ∧
      ((¬n<(ePhnum tr.mem data).toNat ∧ elfLoad m data size=some (tr,eEntry tr.mem data)) ∨
      (n<(ePhnum tr.mem data).toNat ∧ classify tr.mem data size n=.reject ∧
        elfLoad m data size=some (tr.note (inspected tr.mem data size n),0))) := by
  have hfrom : ∀ k n tr,LoopAt m data size n tr→65535≤n+k→ ∃ n tr,LoopAt m data size n tr ∧
      (¬n<(ePhnum tr.mem data).toNat ∨
        (n<(ePhnum tr.mem data).toNat ∧ classify tr.mem data size n=.reject)) := by
    intro k
    induction k with
    | zero =>
      intro n tr h hk
      have hlt := (ePhnum tr.mem data).isLt
      exact ⟨n,tr,h,Or.inl (by omega)⟩
    | succ k ih =>
      intro n tr h hk
      by_cases hn : n<(ePhnum tr.mem data).toNat
      · cases hc : classify tr.mem data size n with
        | skip => exact ih _ _ (h.skip hn hc) (by omega)
        | reject => exact ⟨n,tr,h,Or.inr ⟨hn,hc⟩⟩
        | copy =>
          obtain ⟨t,ht,_⟩ := copySegment_total data (phAddr tr.mem data n)
            (tr.note (inspected tr.mem data size n))
          exact ih _ _ (h.copy hn hc ht) (by omega)
      · exact ⟨n,tr,h,Or.inl hn⟩
  obtain ⟨n,tr,h,hend⟩ := hfrom 65535 0 _ .start (Nat.le_refl _)
  refine ⟨n,tr,h,hend.imp (fun hn => ⟨hn,?_⟩) fun hr => ⟨hr.1,hr.2,elfLoad_of_loopAt hl h hr.1 hr.2⟩⟩
  obtain ⟨hle,hrun⟩ := loopAt_run hl h
  rw [hrun,show 2^16-n=(2^16-(n+1))+1 by omega,loadHeaders_end hn]

/-- A header that passes all checks is copied in as many turns as its loops
need. -/
theorem loopAt_copied {m : Mem} {data size : Word} {i n c : ℕ} {tr : Trace} (h : LoopAt m data size i tr)
    (hi : i<(ePhnum tr.mem data).toNat) (hc : classify tr.mem data size i=.copy)
    (hends : Ends tr.mem data (phAddr tr.mem data i) n c) :
    LoopAt m data size (i+1)
      (endsTrace data (phAddr tr.mem data i) n c (tr.note (inspected tr.mem data size i))) :=
  h.copy hi hc (copySegment_ends hends)

/-- Whatever each header that is passed over and each segment that is copied
keeps holds in all states. -/
theorem loopAt_invariant {m : Mem} {data size : Word} (P : Trace→Prop) (hstart : P (startTrace m data))
    (hnote : ∀ i tr,LoopAt m data size i tr→ i<(ePhnum tr.mem data).toNat→P tr→
      P (tr.note (inspected tr.mem data size i)))
    (hcopy : ∀ i tr n c,LoopAt m data size i tr→ i<(ePhnum tr.mem data).toNat→
      classify tr.mem data size i=.copy→Ends tr.mem data (phAddr tr.mem data i) n c→
      P (tr.note (inspected tr.mem data size i))→
      P (endsTrace data (phAddr tr.mem data i) n c (tr.note (inspected tr.mem data size i))))
    {i : ℕ} {tr : Trace} (h : LoopAt m data size i tr) : P tr := by
  induction h with
  | start => exact hstart
  | @skip i tr h hi _ ih => exact hnote i tr h hi ih
  | @copy i tr t h hi hc ht ih =>
    obtain ⟨n,c,hends⟩ := exists_ends tr.mem data (phAddr tr.mem data i)
    have hrun := @copySegment_ends data _ (tr.note (inspected tr.mem data size i)) n c hends
    rw [Option.some.inj (ht.symm.trans hrun)]
    exact hcopy i tr n c h hi hc hends (hnote i tr h hi ih)

end EronKernel.ElfLoop

import Xv6.Kernel.Failures
import Xv6.Kernel.Steps

/-!
# `sbrk`

`growproc` computes the new size as an unsigned number and passes it to `allocuvm` or
`deallocuvm`, for which 0 is the error.  A process that gives back all its memory loses its
pages and is told that the call failed; one that gives back more than it has is told that
the call succeeded.  Otherwise the call does what it says or nothing.

When memory runs out `allocuvm` releases the range it was asked for, not the part of it it
has filled.  A request that ends among the mappings of `wmap` takes them away.
-/

namespace Xv6

open Prog

/-- The page `v` of the directory `d` has the same entry and the same bytes. -/
def SamePage (d v : Nat) (m m' : Mem) : Prop :=
  m'.entry d v = m.entry d v ∧
    (flag (m.entry d v) pteP = true → m'.page (frame (m.entry d v)) = m.page (frame (m.entry d v)))

variable [Link] {A A' B : Space} {x : Bool} {m m' : Mem} {c p d v sz : Nat} {s s' : Kernel}
  {n : Int}

/-! ## Pages outside the range -/

/-- The frame of a page outside the released range is not released. -/
theorem Released.data_of_not_mem {vs : List Nat} (h : Released A A' d vs) (hmap : Mapped A)
    (hwf : A.WF) (hwf' : A'.WF) (hd : A.role d = .dir) (hvs : ∀ u ∈ vs, u < userPages)
    (hv : v < userPages) (hout : v ∉ vs) (hp : flag (A.pte d v) pteP = true) :
    A'.role (Xv6.frame (A.pte d v)) = .data := by
  have hdata := hmap.not_kernel hwf hd hv hp
  rcases h.stay (Xv6.frame (A.pte d v)) with hr | ⟨hr, u, hu, hn⟩
  · rw [hr, hdata]
  · have hne := (hwf'.managed _ (by rw [hr]; nofun)).pos.ne'
    obtain ⟨hpu, hfu⟩ := names_iff.mp hn
    exact absurd (hmap.same d v d u hd hd hv (hvs u hu) hp hpu hfu hne ▸ hu) hout

section

variable {oldsz newsz r : Nat}

omit [Link] in
theorem lt_userPages_of_mem (hsz : newsz ≤ kernbase) (hv : v ∈ pagesBetween oldsz newsz) :
    v < userPages :=
  lt_of_lt_of_le (mem_pagesBetween.mp hv).2 (npages_le_userPages hsz)

section

variable (hf : Filling A m d oldsz newsz (pagesBetween oldsz newsz) r A' m') (h : Rep m A)
include hf h

/-- What filling or releasing a range leaves of the rest. -/
theorem Filling.outside (hd : A.role d = .dir) (hs : Sane A x) (hsz : newsz < kernbase) :
    A'.role d = .dir ∧ ∀ v, v ∉ pagesBetween oldsz newsz → A'.pte d v = A.pte d v := by
  have hrange : ∀ u ∈ pagesBetween oldsz newsz, u < userPages := fun u hu =>
    lt_userPages_of_mem (le_of_lt hsz) hu
  cases hf with
  | done hfills _ _ =>
    obtain ⟨-, hext⟩ := hfills.extends h.wf hd hrange perm_wu
    exact ⟨hext.role_dir hd, fun v hout => hext.pte d v fun hc => hout hc.2⟩
  | @gaveUp _ B _ us hpre _ hfills hrel _ =>
    have hus : ∀ u ∈ us, u < userPages := fun u hu => hrange u (hpre.subset hu)
    obtain ⟨hwfB, hext⟩ := hfills.extends h.wf hd hus perm_wu
    have hdB := hext.role_dir hd
    refine ⟨?_, fun v hout => ?_⟩
    · rw [hrel.role_of_ne_data (hfills.sane h.wf hd hus perm_wu hs).mapped hwfB hdB hrange
        (by rw [hdB]; nofun), hdB]
    · rw [hrel.pte_ne d v fun hc => hout hc.2, hext.pte d v fun hc => hout (hpre.subset hc.2)]

/-- A page outside the range that `allocuvm` fills or releases stays as it was. -/
theorem Filling.samePage (hs : Sane A x) (h' : Rep m' A') (hd : A.role d = .dir) (hsz : newsz < kernbase)
    (hv : v < userPages) (hout : v ∉ pagesBetween oldsz newsz) : SamePage d v m m' := by
  have hlt := userPages_lt hv
  obtain ⟨hd', hpte⟩ := hf.outside h hd hs hsz
  unfold SamePage
  rw [h.entry hd hlt, h'.entry hd' hlt]
  refine ⟨hpte v hout, fun hp => ?_⟩
  have hdata := hs.mapped.not_kernel h.wf hd hv hp
  cases hf with
  | done _ hkeep _ => exact hkeep _ hdata
  | @gaveUp _ B _ us hpre _ hfills hrel hkeep =>
    have hrange : ∀ u ∈ pagesBetween oldsz newsz, u < userPages := fun u hu =>
      lt_userPages_of_mem (le_of_lt hsz) hu
    have hus : ∀ u ∈ us, u < userPages := fun u hu => hrange u (hpre.subset hu)
    obtain ⟨hwfB, hext⟩ := hfills.extends h.wf hd hus perm_wu
    have hpteB := hext.pte d v fun hc => hout (hpre.subset hc.2)
    refine hkeep _ hdata ?_
    rw [← hpteB]
    exact hrel.data_of_not_mem (hfills.sane h.wf hd hus perm_wu hs).mapped hwfB h'.wf
      (hext.role_dir hd) hrange hv hout (by rw [hpteB]; exact hp)

end

end

theorem Rep.samePage_unmapAll {vs : List Nat} (h : Rep m A) (hs : Sane A x) (hd : A.role d = .dir)
    (h' : Rep m' (A.unmapAll d vs)) (hkeep : KeepData (A.unmapAll d vs) m m')
    (hvs : ∀ u ∈ vs, u < userPages) (hv : v < userPages) (hout : v ∉ vs) : SamePage d v m m' := by
  have hlt := userPages_lt hv
  have hpte : (A.unmapAll d vs).pte d v = A.pte d v := A.unmapAll_pte_ne fun hc => hout hc.2
  have hd' := hs.mapped.unmapAll_dir h.wf hd hvs hd
  unfold SamePage
  rw [h.entry hd hlt, h'.entry hd' hlt]
  exact ⟨hpte, fun hp => hkeep _ ((A.released d vs).data_of_not_mem hs.mapped h.wf h'.wf hd hvs hv hout hp)⟩

/-! ## The call -/

/-- The process has its new size and CR3 is loaded again. -/
def Kernel.resize (s : Kernel) (c p sz : Nat) : Kernel :=
  (s.setProc p fun pr => { pr with sz := sz }).setCpu c fun u => { u with cr3 := (s.proc p).pgdir }

omit [Link] in
theorem Kernel.resize_proc (s : Kernel) (c p sz : Nat) :
    (s.resize c p sz).proc p = { s.proc p with sz := sz } :=
  Kernel.setProc_self s p fun pr => { pr with sz := sz }

omit [Link] in
theorem Kernel.resize_cpu (s : Kernel) (c p sz : Nat) :
    (s.resize c p sz).cpu c = { s.cpu c with cr3 := (s.proc p).pgdir } := Kernel.setCpu_self ..

omit [Link] in
theorem wp_switchuvm {Q : Unit → Kernel → Prop} {F : Fault → Prop}
    (hk : F (.panic "switchuvm: no kstack") ∨ (s.proc p).kstack ≠ 0) (hd : (s.proc p).pgdir ≠ 0)
    (h : Q () (s.setCpu c fun u => { u with cr3 := (s.proc p).pgdir })) : wp (switchuvm c p) Q F s := by
  unfold switchuvm
  rw [wp_bind, wp_getProc, if_neg hd, wp_ite]
  split
  · rename_i h0
    rw [wp_panic]
    exact hk.resolve_right fun hne => hne h0
  · rw [wp_lcr3]
    exact h

theorem wp_growproc {Q : Int → Kernel → Prop} {F : Fault → Prop}
    (hcur : (s.cpu c).proc = some p) (hk : F (.panic "switchuvm: no kstack") ∨ (s.proc p).kstack ≠ 0)
    (hd : (s.proc p).pgdir ≠ 0)
    (h : let done := fun r m' => if r = 0 then Q (-1) { s with mem := m' }
          else Q 0 ({ s with mem := m' }.resize c p r)
      if 0 < n then wp (allocuvm (s.proc p).pgdir (s.proc p).sz (uadd (s.proc p).sz n)) done F s.mem
      else if n < 0 then
        wp (deallocuvm (s.proc p).pgdir (s.proc p).sz (uadd (s.proc p).sz n)) done F s.mem
      else Q 0 (s.resize c p (s.proc p).sz)) :
    wp (growproc c n) Q F s := by
  have hdone : ∀ r m', (if r = 0 then Q (-1) { s with mem := m' }
      else Q 0 ({ s with mem := m' }.resize c p r)) →
      wp (if r = 0 then pure (-1) else do
        setProc p fun pr => { pr with sz := r }
        switchuvm c p
        pure 0 : K Int) Q F { s with mem := m' } := by
    intro r m' hr
    rw [wp_ite]
    split at hr
    · rename_i h0
      rw [if_pos h0, wp_pure]
      exact hr
    · rename_i h0
      rw [if_neg h0, wp_bind, wp_setProc, wp_bind]
      refine wp_switchuvm ?_ ?_ ?_
      · rw [Kernel.setProc_self]
        exact hk
      · rw [Kernel.setProc_self]
        exact hd
      · rw [wp_pure, Kernel.setProc_self]
        exact hr
  unfold growproc
  rw [wp_bind, wp_myproc, hcur]
  dsimp only at h ⊢
  rw [wp_bind, wp_getProc, wp_ite]
  split at h
  · rename_i hn
    rw [if_pos hn, wp_bind, wp_onMem]
    exact wp_post h hdone
  · rename_i hn
    rw [if_neg hn, wp_ite]
    split at h
    · rename_i hneg
      rw [if_pos hneg, wp_bind, wp_onMem]
      exact wp_post h hdone
    · rename_i hneg
      rw [if_neg hneg, wp_bind]
      refine wp_switchuvm hk hd ?_
      rw [wp_pure]
      have hself : s.setProc p (fun pr => { pr with sz := (s.proc p).sz }) = s := by
        unfold Kernel.setProc
        rw [Function.update_eq_self]
      rwa [Kernel.resize, hself] at h

/-! ## Exact or without effect -/

/-- A process whose pages are those of its size. -/
structure Imaged (p : Nat) (s : Kernel) : Prop where
  paged : Paged p s
  kstack : (s.proc p).kstack ≠ 0
  sz : (s.proc p).sz ≤ kernbase
  pages : ∀ v < npages (s.proc p).sz, flag (s.mem.entry (s.proc p).pgdir v) pteP = true ∧
    frame (s.mem.entry (s.proc p).pgdir v) ≠ 0
  rest : ∀ v, npages (s.proc p).sz ≤ v → v < userPages →
    flag (s.mem.entry (s.proc p).pgdir v) pteP = false

/-- The process has grown by `n` bytes, with zeros in the new pages. -/
structure Resized (p : Nat) (n : Int) (s s' : Kernel) : Prop where
  sz : ((s'.proc p).sz : Int) = (s.proc p).sz + n
  pages : ∀ v < userPages,
    flag (s'.mem.entry (s.proc p).pgdir v) pteP = true ↔ v < npages (s'.proc p).sz
  old : ∀ v < npages (min (s.proc p).sz (s'.proc p).sz), SamePage (s.proc p).pgdir v s.mem s'.mem
  new : ∀ v, npages (s.proc p).sz ≤ v → v < npages (s'.proc p).sz →
    s'.mem.page (frame (s'.mem.entry (s.proc p).pgdir v)) = fill 0#8

/-- The process has its size, its entries and its bytes as before. -/
structure Untouched (p : Nat) (s s' : Kernel) : Prop where
  sz : (s'.proc p).sz = (s.proc p).sz
  table : ∀ v < npdentries * npdentries,
    s'.mem.entry (s.proc p).pgdir v = s.mem.entry (s.proc p).pgdir v
  bytes : ∀ v < userPages, SamePage (s.proc p).pgdir v s.mem s'.mem

/-- `growproc` does what it returns. -/
def Exact (c p : Nat) (n : Int) (s : Kernel) : Prop :=
  wp (growproc c n) (fun r s' => r = 0 ∧ Resized p n s s' ∨ r = -1 ∧ Untouched p s s')
    (fun _ => False) s

section

omit [Link]

theorem uadd_of_nonneg {k : Nat} (h : (sz : Int) + n = k) (hlt : k < uintSize) :
    uadd sz n = k := by
  unfold uadd
  rw [h, Int.emod_eq_of_lt (by omega) (by omega), Int.toNat_natCast]

/-- A size below zero comes out above every size. -/
theorem le_uadd_of_neg (hneg : (sz : Int) + n < 0) (hlo : -2 ^ 31 ≤ n) : sz ≤ uadd sz n := by
  have hu : (uintSize : Int) = 4294967296 := by decide
  unfold uadd
  rw [hu]
  omega

theorem Untouched.refl (p : Nat) (s : Kernel) : Untouched p s s :=
  ⟨rfl, fun _ _ => rfl, fun _ _ => ⟨rfl, fun _ => rfl⟩⟩

@[simp] theorem Kernel.resize_sz (s : Kernel) (c p sz : Nat) : ((s.resize c p sz).proc p).sz = sz := by
  rw [Kernel.resize_proc]

theorem npages_mono {a b : Nat} (h : a ≤ b) : npages a ≤ npages b := by
  rw [npages, npages, pgsize_eq]
  omega

end

section

variable (h : Imaged p s)
include h

theorem Imaged.grow (hcur : (s.cpu c).proc = some p) (hpos : 0 < n)
    (hlt : n < 2 ^ 31) : Exact c p n s := by
  obtain ⟨A, x, hrep, hs, hd⟩ := h.paged.mem
  have hsz := h.sz
  obtain ⟨new, hnew⟩ : ∃ new : Nat, ((s.proc p).sz : Int) + n = new :=
    ⟨((s.proc p).sz + n).toNat, by omega⟩
  have hkern := kernbase_eq
  have hu : uintSize = 4294967296 := by decide
  have habsent : new < kernbase → ∀ v ∈ pagesBetween (s.proc p).sz new,
      flag (A.pte (s.proc p).pgdir v) pteP = false := by
    intro hlt v hv
    have hvu := lt_userPages_of_mem (le_of_lt hlt) hv
    rw [← hrep.entry hd (userPages_lt hvu)]
    exact h.rest v (mem_pagesBetween.mp hv).1 hvu
  refine wp_growproc hcur (.inr h.kstack) (hrep.wf.managed _ (by rw [hd]; nofun)).pos.ne' ?_
  dsimp only
  rw [if_pos hpos, uadd_of_nonneg hnew (by omega)]
  refine wp_post (hrep.grows hs hd _ new (.inr fun hlt => ⟨.of_absent (habsent hlt), fun v hv =>
    habsent hlt v (List.mem_of_mem_take hv)⟩)) ?_
  rintro r m' ⟨A', h', hs', hgrows, -⟩
  cases hgrows with
  | refused =>
    rw [if_pos rfl]
    exact .inr ⟨rfl, .refl p s⟩
  | smaller => omega
  | filling hsz' hle hfill =>
    have hsame := fun v hv hout => hfill.samePage hrep hs h' hd hsz' (v := v) hv hout
    obtain ⟨hd', hout⟩ := hfill.outside hrep hd hs hsz'
    cases hfill with
    | done hfills hkeep hzero =>
      rw [if_neg (by omega)]
      have hrange : ∀ u ∈ pagesBetween (s.proc p).sz new, u < userPages := fun u hu =>
        lt_userPages_of_mem (le_of_lt hsz') hu
      refine .inl ⟨rfl, by rw [Kernel.resize_sz, hnew], fun v hv => ?_, fun v hv => ?_,
        fun v hlo hhi => ?_⟩
      · rw [Kernel.resize_sz]
        by_cases hmem : v ∈ pagesBetween (s.proc p).sz new
        · obtain ⟨f, hn, -⟩ := hfills.fresh hrep.wf hd hrange perm_wu hmem
          refine iff_of_true ?_ (mem_pagesBetween.mp hmem).2
          show flag (m'.entry _ v) pteP = true
          rw [h'.entry hd' (userPages_lt hv)]
          exact (names_iff.mp hn).1
        · show flag (m'.entry _ v) pteP = true ↔ _
          rw [(hsame v hv hmem).1]
          rw [mem_pagesBetween] at hmem
          by_cases hlo : v < npages (s.proc p).sz
          · exact iff_of_true (h.pages v hlo).1 (lt_of_lt_of_le hlo (npages_mono hle))
          · refine iff_of_false ?_ fun hc => hmem ⟨by omega, hc⟩
            rw [h.rest v (by omega) hv]
            nofun
      · rw [Kernel.resize_sz, Nat.min_eq_left hle] at hv
        refine hsame v (lt_of_lt_of_le hv (npages_le_userPages hsz)) fun hc => ?_
        have := (mem_pagesBetween.mp hc).1
        omega
      · rw [Kernel.resize_sz] at hhi
        have hmem := mem_pagesBetween.mpr ⟨hlo, hhi⟩
        show m'.page (frame (m'.entry _ v)) = _
        rw [h'.entry hd' (userPages_lt (hrange v hmem))]
        exact hzero v hmem
    | gaveUp hpre _ hfills hrel hkeep =>
      rw [if_pos rfl]
      have hin : ∀ v ∈ pagesBetween (s.proc p).sz new, m'.entry (s.proc p).pgdir v =
          s.mem.entry (s.proc p).pgdir v := by
        intro v hv
        have hvu := lt_userPages_of_mem (le_of_lt hsz') hv
        rw [h'.entry hd' (userPages_lt hvu), hrep.entry hd (userPages_lt hvu),
          hs.mapped.absent _ v hd hvu (habsent hsz' v hv),
          hs'.mapped.absent _ v hd' hvu (hrel.pte_mem v hv)]
      refine .inr ⟨rfl, rfl, fun v hv => ?_, fun v hv => ?_⟩
      · by_cases hmem : v ∈ pagesBetween (s.proc p).sz new
        · exact hin v hmem
        · show m'.entry _ v = _
          rw [h'.entry hd' hv, hrep.entry hd hv, hout v hmem]
      · by_cases hmem : v ∈ pagesBetween (s.proc p).sz new
        · refine ⟨hin v hmem, fun hp => ?_⟩
          rw [hrep.entry hd (userPages_lt hv), habsent hsz' v hmem] at hp
          cases hp
        · exact hsame v hv hmem

/-- `deallocuvm` to a smaller size. -/
theorem Imaged.dealloc {new : Nat} (hlt : new < (s.proc p).sz) :
    wp (deallocuvm (s.proc p).pgdir (s.proc p).sz new) (fun r m' => r = new ∧
      (∀ v < userPages, flag (m'.entry (s.proc p).pgdir v) pteP = true ↔ v < npages new) ∧
      ∀ v < npages new, SamePage (s.proc p).pgdir v s.mem m') (fun _ => False) s.mem := by
  obtain ⟨A, x, hrep, hs, hd⟩ := h.paged.mem
  have hrange : ∀ v ∈ pagesBetween new (s.proc p).sz, v < userPages := fun v hv =>
    lt_userPages_of_mem h.sz hv
  have hnz : NonZero A (s.proc p).pgdir (pagesBetween new (s.proc p).sz) := by
    intro v hv _
    rw [← hrep.entry hd (userPages_lt (hrange v hv))]
    exact (h.pages v (mem_pagesBetween.mp hv).2).2
  refine wp_post (hrep.deallocuvm hd h.sz hlt (hs.mapped.clean hd hrange) (.inr hnz)) ?_
  rintro r m' ⟨hr, h', -, hkeep⟩
  have hsame := fun v hv hout => hrep.samePage_unmapAll hs hd h' hkeep hrange (v := v) hv hout
  refine ⟨hr, fun v hv => ?_, fun v hv => ?_⟩
  · by_cases hmem : v ∈ pagesBetween new (s.proc p).sz
    · have hd' := hs.mapped.unmapAll_dir hrep.wf hd hrange hd
      rw [h'.entry hd' (userPages_lt hv), A.unmapAll_pte_mem hmem]
      have := (mem_pagesBetween.mp hmem).1
      exact iff_of_false nofun (by omega)
    · rw [(hsame v hv hmem).1]
      rw [mem_pagesBetween] at hmem
      by_cases hlo : v < npages (s.proc p).sz
      · exact iff_of_true (h.pages v hlo).1 (by omega)
      · have := npages_mono (le_of_lt hlt)
        refine iff_of_false ?_ (by omega)
        rw [h.rest v (by omega) hv]
        nofun
  · have hle := npages_mono (le_of_lt hlt)
    refine hsame v (lt_of_lt_of_le (lt_of_lt_of_le hv hle) (npages_le_userPages h.sz)) fun hc => ?_
    have := (mem_pagesBetween.mp hc).1
    omega

section

variable (hcur : (s.cpu c).proc = some p)
include hcur

theorem Imaged.shrink (hneg : n < 0)
    (hpos : 0 < (s.proc p).sz + n) : Exact c p n s := by
  obtain ⟨A, x, hrep, hs, hd⟩ := h.paged.mem
  have hsz := h.sz
  have hkern := kernbase_eq
  have hu : uintSize = 4294967296 := by decide
  obtain ⟨new, hnew⟩ : ∃ new : Nat, ((s.proc p).sz : Int) + n = new :=
    ⟨((s.proc p).sz + n).toNat, by omega⟩
  refine wp_growproc hcur (.inr h.kstack) (hrep.wf.managed _ (by rw [hd]; nofun)).pos.ne' ?_
  dsimp only
  rw [if_neg (by omega), if_pos hneg, uadd_of_nonneg hnew (by omega)]
  refine wp_post (h.dealloc (by omega)) ?_
  rintro r m' ⟨rfl, hpages, hold⟩
  rw [if_neg (by omega)]
  refine .inl ⟨rfl, by rw [Kernel.resize_sz, hnew], ?_, ?_, fun v hlo hhi => ?_⟩
  · rw [Kernel.resize_sz]
    exact hpages
  · rw [Kernel.resize_sz, Nat.min_eq_right (by omega)]
    exact hold
  · rw [Kernel.resize_sz] at hhi
    have := npages_mono (a := r) (b := (s.proc p).sz) (by omega)
    omega

/-- A size below zero is taken for a larger one: nothing happens and the call succeeds,
unless the size was 0. -/
theorem Imaged.wrap (hneg : n < 0)
    (hlo : -2 ^ 31 ≤ n) (hwrap : (s.proc p).sz + n < 0) :
    wp (growproc c n) (fun r s' => Untouched p s s' ∧ r = if (s.proc p).sz = 0 then -1 else 0)
      (fun _ => False) s := by
  obtain ⟨A, x, hrep, -, hd⟩ := h.paged.mem
  refine wp_growproc hcur (.inr h.kstack) (hrep.wf.managed _ (by rw [hd]; nofun)).pos.ne' ?_
  dsimp only
  rw [if_neg (by omega), if_pos hneg, deallocuvm, wp_ite, if_pos (le_uadd_of_neg hwrap hlo), wp_pure]
  split
  · exact ⟨.refl p s, rfl⟩
  · exact ⟨⟨Kernel.resize_sz .., fun _ _ => rfl, fun _ _ => ⟨rfl, fun _ => rfl⟩⟩, rfl⟩

/-- A process that gives back all its memory loses its pages and is told of a failure. -/
theorem Imaged.empty (hpos : 0 < (s.proc p).sz)
    (hzero : (s.proc p).sz + n = 0) :
    wp (growproc c n) (fun r s' => r = -1 ∧ flag (s'.mem.entry (s.proc p).pgdir 0) pteP = false)
      (fun _ => False) s := by
  obtain ⟨A, x, hrep, -, hd⟩ := h.paged.mem
  refine wp_growproc hcur (.inr h.kstack) (hrep.wf.managed _ (by rw [hd]; nofun)).pos.ne' ?_
  dsimp only
  rw [if_neg (by omega), if_pos (by omega), uadd_of_nonneg (k := 0) hzero (by decide)]
  refine wp_post (h.dealloc hpos) ?_
  rintro r m' ⟨rfl, hpages, -⟩
  rw [if_pos rfl]
  refine ⟨rfl, Bool.eq_false_iff.mpr fun hp => ?_⟩
  have := (hpages 0 (by decide)).mp hp
  rw [show npages 0 = 0 by decide] at this
  omega

theorem Imaged.not_exact (hneg : n < 0)
    (hlo : -2 ^ 31 ≤ n) (hpos : 0 < (s.proc p).sz) (hall : (s.proc p).sz + n ≤ 0) :
    ¬ Exact c p n s := by
  intro hex
  by_cases hzero : (s.proc p).sz + n = 0
  · obtain ⟨r, s', hrun, rfl, hp⟩ := wp_total (h.empty hcur hpos hzero)
    rcases wp_ok hex hrun with ⟨hr, -⟩ | ⟨-, hsame⟩
    · cases hr
    · have hpage := (h.pages 0 ((lt_npages_iff 0 _).mpr (by omega))).1
      rw [← hsame.table 0 (by decide), hp] at hpage
      cases hpage
  · obtain ⟨r, s', hrun, hsame, hr⟩ := wp_total (h.wrap hcur hneg hlo (by omega))
    rw [if_neg (by omega)] at hr
    rcases wp_ok hex hrun with ⟨-, hres⟩ | ⟨hr', -⟩
    · have := hres.sz
      rw [hsame.sz] at this
      omega
    · rw [hr] at hr'
      cases hr'

end

end

/-- `sbrk` is exact or without effect unless it gives back all the memory or more. -/
theorem growproc_exact (hcur : (s.cpu c).proc = some p) (himg : Imaged p s) (n : Word) :
    Exact c p n.toInt s ↔ ¬ (n.toInt < 0 ∧ 0 < (s.proc p).sz ∧ (s.proc p).sz + n.toInt ≤ 0) := by
  have hlo : -2 ^ 31 ≤ n.toInt := n.le_toInt
  have hhi : n.toInt < 2 ^ 31 := n.toInt_lt
  obtain ⟨A, x, hrep, -, hd⟩ := himg.paged.mem
  rcases lt_trichotomy n.toInt 0 with hneg | hn0 | hpos
  · by_cases hsmall : 0 < (s.proc p).sz + n.toInt
    · exact iff_of_true (himg.shrink hcur hneg hsmall) (by omega)
    by_cases hsz : (s.proc p).sz = 0
    · refine iff_of_true (wp_post (himg.wrap hcur hneg hlo (by omega)) ?_) (by omega)
      rintro r s' ⟨hsame, hr⟩
      rw [if_pos hsz] at hr
      exact .inr ⟨hr, hsame⟩
    · exact iff_of_false (himg.not_exact hcur hneg hlo (by omega) (by omega)) (by omega)
  · refine iff_of_true ?_ (by omega)
    refine wp_growproc hcur (.inr himg.kstack) (hrep.wf.managed _ (by rw [hd]; nofun)).pos.ne' ?_
    dsimp only
    rw [if_neg (by omega), if_neg (by omega)]
    refine .inl ⟨rfl, by rw [Kernel.resize_sz, hn0, Int.add_zero], fun v hv => ?_,
      fun _ _ => ⟨rfl, fun _ => rfl⟩, fun v hlo hhi => ?_⟩
    · rw [Kernel.resize_sz]
      by_cases hlo : v < npages (s.proc p).sz
      · exact iff_of_true (himg.pages v hlo).1 hlo
      · refine iff_of_false (fun hp => ?_) hlo
        have := himg.rest v (by omega) hv
        exact Bool.false_ne_true (this.symm.trans hp)
    · rw [Kernel.resize_sz] at hhi
      omega
  · exact iff_of_true (himg.grow hcur hpos hhi) (by omega)

theorem Booted.imaged {f g : Nat} (h : Booted s A d f g) : Imaged 0 (s.dispatch 0 0) := by
  have hpr := h.dispatched
  have hpgdir : ((s.dispatch 0 0).proc 0).pgdir = d := by rw [hpr]
  have hsz : ((s.dispatch 0 0).proc 0).sz = pgsize := by rw [hpr]
  have hrep : Rep (s.dispatch 0 0).mem A := h.rep
  refine ⟨⟨A, true, hrep, h.sane true, by rw [hpgdir]; exact h.dir⟩, ?_, ?_, fun v hv => ?_,
    fun v hlo hv => ?_⟩
  · rw [hpr]
    exact (h.rep.wf.managed f (by rw [h.stack]; nofun)).pos.ne'
  · rw [hsz]
    decide
  · rw [hsz] at hv
    obtain rfl : v = 0 := by
      have : npages pgsize = 1 := by decide
      omega
    rw [hpgdir, hrep.entry h.dir (by decide), h.page]
    refine ⟨flag_mkPte_pteP .., ?_⟩
    rw [frame_mkPte h.frame.1.lt_frames perm_wu]
    exact h.frame.1.pos.ne'
  · rw [hsz] at hlo
    rw [hpgdir, hrep.entry h.dir (userPages_lt hv), h.rest v hv (by
      have : npages pgsize = 1 := by decide
      omega)]
    exact flag_zero _

omit [Link] in
/-- The first process has one page.  It gives it back and is told that it could not; it
gives back two and is told that it did. -/
theorem growproc_not_exact : ∃ s0 s s1 s2, @Boot sampleLink 2 s0 ∧
    Trace.Run (@Step sampleLink 2) s0 [.sched 0 0] s ∧ (s.proc 0).sz = 4096 ∧
    @growproc sampleLink 0 (-4096) s = .ok (-1, s1) ∧
    flag (s.mem.entry (s.proc 0).pgdir 0) pteP = true ∧
    flag (s1.mem.entry (s.proc 0).pgdir 0) pteP = false ∧
    @growproc sampleLink 0 (-8192) s = .ok (0, s2) ∧ (s2.proc 0).sz = 4096 ∧
    ¬ @Exact sampleLink 0 0 (-4096) s ∧ ¬ @Exact sampleLink 0 0 (-8192) s := by
  let : Link := sampleLink
  obtain ⟨s0, A, d, f, g, hboot, hb⟩ := sample_boot
  have himg := hb.imaged
  have hcur := (at_dispatch s0 0 0).cur
  have hsz : ((s0.dispatch 0 0).proc 0).sz = 4096 := by rw [hb.dispatched]; rfl
  obtain ⟨r1, s1, hrun1, rfl, hp⟩ := wp_total (himg.empty (n := -4096) hcur (by omega) (by omega))
  obtain ⟨r2, s2, hrun2, hsame, rfl⟩ :=
    wp_total (himg.wrap (n := -8192) hcur (by decide) (by decide) (by omega))
  rw [if_neg (by omega)] at hrun2
  exact ⟨s0, _, s1, s2, hboot, .single (hb.sched (by decide)), hsz, hrun1,
    (himg.pages 0 ((lt_npages_iff 0 _).mpr (by omega))).1, hp, hrun2, hsame.sz.trans hsz,
    himg.not_exact hcur (by decide) (by decide) (by omega) (by omega),
    himg.not_exact hcur (by decide) (by decide) (by omega) (by omega)⟩

omit [Link] in
/-- Growing it by a page is exact. -/
theorem growproc_exact_first : ∃ s0 s, @Boot sampleLink 2 s0 ∧
    Trace.Run (@Step sampleLink 2) s0 [.sched 0 0] s ∧ @Exact sampleLink 0 0 4096 s := by
  let : Link := sampleLink
  obtain ⟨s0, A, d, f, g, hboot, hb⟩ := sample_boot
  refine ⟨s0, _, hboot, .single (hb.sched (by decide)), ?_⟩
  exact (growproc_exact (at_dispatch s0 0 0).cur hb.imaged 4096#32).mpr fun h =>
    absurd h.1 (by decide)

/-! ## Mappings above -/

/-- The frames for the pages from `lo` to `hi`: one for each page, and one for each page
table that is missing. -/
def Mem.demand (m : Mem) (d lo hi : Nat) : Nat :=
  (hi - lo) + (((Finset.Ico lo hi).image (· / npdentries)).filter
    fun i => flag (word (m.page d) i) pteP = false).card

/-- The pages filled, and the page tables made for them, were free frames. -/
theorem Fills.frames {perm : Word} {us : List Nat} {S : Finset Nat} (h : Fills d perm A us B)
    (hwf : A.WF) (hs : Sane A x) (hd : A.role d = .dir) (hus : ∀ u ∈ us, u < userPages)
    (hperm : Perm perm) (hnodup : us.Nodup)
    (hS : ∀ i ∈ S, A.tab d i = none ∧ ∃ u ∈ us, u / npdentries = i) :
    us.length + S.card ≤ A.free.length := by
  obtain ⟨hwfB, hext⟩ := h.extends hwf hd hus hperm
  have hmapB := (h.sane hwf hd hus hperm hs).mapped
  have hdB := hext.role_dir hd
  have hpage : ∀ u ∈ us, flag (B.pte d u) pteP = true ∧ A.role (frame (B.pte d u)) = .free := by
    intro u hu
    obtain ⟨f, hn, hf, -⟩ := h.fresh hwf hd hus hperm hu
    obtain ⟨hp, rfl⟩ := names_iff.mp hn
    exact ⟨hp, hf⟩
  have hdata : ∀ u ∈ us, B.role (frame (B.pte d u)) = .data := fun u hu =>
    hmapB.not_kernel hwfB hdB (hus u hu) (hpage u hu).1
  have hinj : Set.InjOn (fun u => frame (B.pte d u)) us.toFinset := by
    intro u hu w hw hf
    have hu := List.mem_toFinset.mp hu
    have hw := List.mem_toFinset.mp hw
    have hne := (hwf.managed _ (by rw [(hpage w hw).2]; nofun)).pos.ne'
    exact hmapB.same d w d u hdB hdB (hus w hw) (hus u hu) (hpage w hw).1 (hpage u hu).1 hf hne
  have htab : ∀ i ∈ S, ∃ t, B.role t = .table d i ∧ A.role t = .free := by
    intro i hi
    obtain ⟨hnone, u, hu, rfl⟩ := hS i hi
    have hlt := userPages_lt (hus u hu)
    obtain ⟨t, ht⟩ := Mapped.table_of_present hwfB hdB hlt (hpage u hu).1
    have hrole := hwfB.tab_role d _ t hdB (div_lt_npdentries hlt) ht
    refine ⟨t, hrole, ?_⟩
    by_contra hne
    have hold := (hext.grow.role t hne).symm.trans hrole
    rw [(hwf.role_tab _ _ _ hold).2.2] at hnone
    cases hnone
  choose! t htB htA using htab
  have hinjT : Set.InjOn t S := by
    intro i hi j hj hij
    have := (htB i hi).symm.trans ((congrArg B.role hij).trans (htB j hj))
    cases this
    rfl
  have hdisj : Disjoint (us.toFinset.image fun u => frame (B.pte d u)) (S.image t) := by
    rw [Finset.disjoint_left]
    intro f hf hf'
    obtain ⟨u, hu, rfl⟩ := Finset.mem_image.mp hf
    obtain ⟨i, hi, hti⟩ := Finset.mem_image.mp hf'
    have := (htB i hi).symm.trans ((congrArg B.role hti).trans (hdata u (List.mem_toFinset.mp hu)))
    cases this
  have hcard := hwf.card_le (T := (us.toFinset.image fun u => frame (B.pte d u)) ∪ S.image t) (by
    intro f hf
    rcases Finset.mem_union.mp hf with hf | hf
    · obtain ⟨u, hu, rfl⟩ := Finset.mem_image.mp hf
      exact (hpage u (List.mem_toFinset.mp hu)).2
    · obtain ⟨i, hi, rfl⟩ := Finset.mem_image.mp hf
      exact htA i hi)
  rwa [Finset.card_union_of_disjoint hdisj, Finset.card_image_of_injOn hinj,
    Finset.card_image_of_injOn hinjT, List.toFinset_card_of_nodup hnodup] at hcard

/-- With too few free frames a range is not filled. -/
theorem Fills.demand_le {a b k : Nat} (h : Fills d (pteW ||| pteU) A (List.range' a k) B)
    (hrep : Rep m A) (hs : Sane A x) (hd : A.role d = .dir) (hk : b ≤ a + k) (hlo : a ≤ b)
    (hlt : a + k ≤ userPages) : m.demand d a b ≤ m.freelist.length := by
  have hcount := h.frames (S := ((Finset.Ico a b).image (· / npdentries)).filter
    fun i => flag (word (m.page d) i) pteP = false) hrep.wf hs hd ?_ perm_wu List.nodup_range' ?_
  · rw [List.length_range'] at hcount
    rw [Mem.demand, hrep.free]
    omega
  · intro u hu
    have := List.mem_range'_1.mp hu
    omega
  · intro i hi'
    obtain ⟨hmem, habs⟩ := Finset.mem_filter.mp hi'
    obtain ⟨u, hu, rfl⟩ := Finset.mem_image.mp hmem
    rw [Finset.mem_Ico] at hu
    refine ⟨?_, u, List.mem_range'_1.mpr (by omega), rfl⟩
    have hpde := hrep.pde d (u / npdentries) hd (div_lt_npdentries (userPages_lt (by omega)))
    cases ht : A.tab d (u / npdentries) with
    | none => rfl
    | some t =>
      rw [hpde, ht, flag_pdeWord_some] at habs
      cases habs

/-- The pages from the first address for mappings on keep their entries, and those of the
user their bytes. -/
def SameAbove (d : Nat) (m m' : Mem) : Prop :=
  ∀ v < npdentries * npdentries, mmapBase ≤ v * pgsize →
    m'.entry d v = m.entry d v ∧ (v < userPages → SamePage d v m m')

omit [Link] in
theorem SameAbove.refl (d : Nat) (m : Mem) : SameAbove d m m :=
  fun _ _ _ => ⟨rfl, fun _ => ⟨rfl, fun _ => rfl⟩⟩

omit [Link] in
/-- Pages above a range that ends below the mappings are out of it. -/
theorem not_mem_pagesBetween {a b : Nat} (hb : b ≤ mmapBase) (hv : mmapBase ≤ v * pgsize) :
    v ∉ pagesBetween a b := by
  intro hmem
  have := (lt_npages_iff v b).mp (mem_pagesBetween.mp hmem).2
  omega

/-- A range that ends among the mappings is not filled for want of memory, and is then
released. -/
theorem Filling.sameAbove_iff {oldsz newsz r : Nat}
    (hf : Filling A m d oldsz newsz (pagesBetween oldsz newsz) r A' m') (h : Rep m A)
    (hs : Sane A x) (h' : Rep m' A') (hs' : Sane A' x) (hd : A.role d = .dir)
    (hsz : newsz < kernbase) (hold : oldsz < mmapBase)
    (hfew : m.freelist.length < m.demand d (npages oldsz) (npages mmapBase)) :
    SameAbove d m m' ↔
      ∀ v, mmapBase ≤ v * pgsize → v * pgsize < newsz → flag (m.entry d v) pteP = false := by
  obtain ⟨hd', hout⟩ := hf.outside h hd hs hsz
  have hsame := fun v hv hnot => hf.samePage h hs h' hd hsz (v := v) hv hnot
  have houtside : ∀ v < npdentries * npdentries, v ∉ pagesBetween oldsz newsz →
      m'.entry d v = m.entry d v ∧ (v < userPages → SamePage d v m m') := by
    intro v hv hnot
    refine ⟨?_, fun hvu => hsame v hvu hnot⟩
    rw [h'.entry hd' hv, h.entry hd hv, hout v hnot]
  by_cases hbelow : newsz ≤ mmapBase
  · exact iff_of_true (fun v hv hbase => houtside v hv (not_mem_pagesBetween hbelow hbase))
      fun v _ _ => by omega
  cases hf with
  | done hfills _ _ =>
    have hlo := npages_mono (le_of_lt hold)
    have hhi := npages_mono (a := mmapBase) (b := newsz) (by omega)
    have := hfills.demand_le (b := npages mmapBase) h hs hd (by omega) hlo (by
      have := npages_le_userPages (le_of_lt hsz)
      omega)
    omega
  | gaveUp _ _ _ hrel _ =>
    have hgone : ∀ v ∈ pagesBetween oldsz newsz, flag (m'.entry d v) pteP = false := by
      intro v hv
      rw [h'.entry hd' (userPages_lt (lt_userPages_of_mem (le_of_lt hsz) hv))]
      exact hrel.pte_mem v hv
    have hmem : ∀ v, mmapBase ≤ v * pgsize → v * pgsize < newsz → v ∈ pagesBetween oldsz newsz := by
      intro v hlo hhi
      refine mem_pagesBetween.mpr ⟨?_, (lt_npages_iff v newsz).mpr hhi⟩
      by_contra hc
      have := (lt_npages_iff v oldsz).mp (by omega)
      omega
    constructor
    · intro hsame v hlo hhi
      have hin := hmem v hlo hhi
      have hvu := lt_userPages_of_mem (le_of_lt hsz) hin
      rw [← (hsame v (userPages_lt hvu) hlo).1]
      exact hgone v hin
    · intro habs v hv hlo
      by_cases hin : v ∈ pagesBetween oldsz newsz
      · have hvu := lt_userPages_of_mem (le_of_lt hsz) hin
        have hv0 := habs v hlo ((lt_npages_iff v newsz).mp (mem_pagesBetween.mp hin).2)
        have heq : m'.entry d v = m.entry d v := by
          have hv1 := hgone v hin
          rw [h'.entry hd' hv] at hv1 ⊢
          rw [h.entry hd hv] at hv0 ⊢
          rw [hs'.mapped.absent d v hd' hvu hv1, hs.mapped.absent d v hd hvu hv0]
        refine ⟨heq, fun _ => ⟨heq, fun hp => ?_⟩⟩
        rw [hv0] at hp
        cases hp
      · exact houtside v hv hin

/-- The size asked for is one a process can have and ends above a page that is mapped. -/
def Overruns (s : Kernel) (p : Nat) (n : Int) : Prop :=
  (s.proc p).sz + n < kernbase ∧ ∃ v : Nat, mmapBase ≤ v * pgsize ∧
    (v * pgsize : Nat) < (s.proc p).sz + n ∧ flag (s.mem.entry (s.proc p).pgdir v) pteP = true

theorem wp_growproc_above (hcur : (s.cpu c).proc = some p) (hpaged : Paged p s)
    (hsz : (s.proc p).sz < mmapBase) (hlo : -2 ^ 31 ≤ n) (hhi : n < 2 ^ 31)
    (hfew : s.mem.freelist.length <
      s.mem.demand (s.proc p).pgdir (npages (s.proc p).sz) (npages mmapBase)) :
    wp (growproc c n) (fun _ s' => SameAbove (s.proc p).pgdir s.mem s'.mem ↔ ¬ Overruns s p n)
      (fun _ => True) s := by
  have hbase := mmapBase_eq
  have hkern := kernbase_eq
  have hu : uintSize = 4294967296 := by decide
  obtain ⟨A, x, hrep, hs, hd⟩ := hpaged.mem
  have hsmall : n ≤ 0 → ¬ Overruns s p n := by
    rintro hn ⟨-, v, hv, hlt, -⟩
    omega
  refine wp_growproc hcur (.inl trivial) (hrep.wf.managed _ (by rw [hd]; nofun)).pos.ne' ?_
  dsimp only
  rcases lt_trichotomy n 0 with hneg | hn0 | hpos
  · rw [if_neg (by omega), if_pos hneg]
    by_cases hwrap : (s.proc p).sz + n < 0
    · rw [deallocuvm, wp_ite, if_pos (le_uadd_of_neg hwrap hlo), wp_pure]
      split <;> exact iff_of_true (.refl _ _) (hsmall (by omega))
    · obtain ⟨new, hnew⟩ : ∃ new : Nat, ((s.proc p).sz : Int) + n = new :=
        ⟨((s.proc p).sz + n).toNat, by omega⟩
      have hrange : ∀ v ∈ pagesBetween new (s.proc p).sz, v < userPages := fun v hv =>
        lt_userPages_of_mem (by omega) hv
      rw [uadd_of_nonneg hnew (by omega)]
      refine wp_post (hrep.deallocuvm hd (by omega) (by omega) (hs.mapped.clean hd hrange)
        (.inl trivial)) ?_
      rintro _ m' ⟨-, h', -, hkeep⟩
      have hsame : SameAbove (s.proc p).pgdir s.mem m' := by
        intro v hv hbase
        have hnot := not_mem_pagesBetween (a := new) (le_of_lt hsz) hbase
        have hd' := hs.mapped.unmapAll_dir hrep.wf hd hrange hd
        refine ⟨?_, fun hvu => hrep.samePage_unmapAll hs hd h' hkeep hrange hvu hnot⟩
        rw [h'.entry hd' hv, hrep.entry hd hv, A.unmapAll_pte_ne fun hc => hnot hc.2]
      split <;> exact iff_of_true hsame (hsmall (by omega))
  · rw [if_neg (by omega), if_neg (by omega)]
    exact iff_of_true (.refl _ _) (hsmall (by omega))
  · obtain ⟨new, hnew⟩ : ∃ new : Nat, ((s.proc p).sz : Int) + n = new :=
      ⟨((s.proc p).sz + n).toNat, by omega⟩
    rw [if_pos hpos, uadd_of_nonneg hnew (by omega)]
    refine wp_post (hrep.grows hs hd _ new (.inl ⟨trivial, trivial⟩)) ?_
    rintro r m' ⟨A', h', hs', hgrows, -⟩
    have hiff : SameAbove (s.proc p).pgdir s.mem m' ↔ ¬ Overruns s p n := by
      unfold Overruns
      rw [hnew]
      cases hgrows with
      | refused hk => exact iff_of_true (.refl _ _) fun h => by omega
      | smaller => omega
      | filling hsz' _ hfill =>
        rw [hfill.sameAbove_iff hrep hs h' hs' hd hsz' hsz hfew]
        constructor
        · rintro habs ⟨-, v, hv, hlt, hp⟩
          rw [habs v hv (by omega)] at hp
          cases hp
        · intro hno v hv hlt
          by_contra hp
          exact hno ⟨by omega, v, hv, by omega, Bool.not_eq_false _ ▸ hp⟩
    split <;> exact hiff

/-- `sbrk` leaves the mappings alone unless the size asked for ends above a page that is
mapped. -/
theorem growproc_mappings {r : Int} (hcur : (s.cpu c).proc = some p) (hpaged : Paged p s)
    (hsz : (s.proc p).sz < mmapBase) (n : Word)
    (hfew : s.mem.freelist.length <
      s.mem.demand (s.proc p).pgdir (npages (s.proc p).sz) (npages mmapBase))
    (hrun : growproc c n.toInt s = .ok (r, s')) :
    SameAbove (s.proc p).pgdir s.mem s'.mem ↔ ¬ Overruns s p n.toInt := by
  have hlo : -2 ^ 31 ≤ n.toInt := n.le_toInt
  have hhi : n.toInt < 2 ^ 31 := n.toInt_lt
  have habove := wp_ok (wp_growproc_above hcur hpaged hsz hlo hhi hfew) hrun
  exact habove

/-- There are fewer frames than pages below the mappings. -/
theorem Space.WF.free_le (hwf : A.WF) : A.free.length ≤ topFrame := by
  have hsub : A.free.toFinset ⊆ Finset.range topFrame := fun f hf =>
    Finset.mem_range.mpr (hwf.free_managed (List.mem_toFinset.mp hf)).lt
  have := Finset.card_le_card hsub
  rwa [List.toFinset_card_of_nodup hwf.nodup, Finset.card_range] at this

omit [Link] in
/-- The first process has a page mapped at the first address for mappings.  It asks for
more memory than there is, up to the end of that page, and the page is gone. -/
theorem growproc_unmaps : ∃ s0 s s' es, @Boot sampleLink 2 s0 ∧
    Trace.Run (@Step sampleLink 2) s0 es s ∧ (s.proc 0).sz = 4096 ∧
    @growproc sampleLink 0 0x60000000 s = .ok (-1, s') ∧
    flag (s.mem.entry (s.proc 0).pgdir 0x60000) pteP = true ∧
    flag (s'.mem.entry (s.proc 0).pgdir 0x60000) pteP = false ∧
    ¬ SameAbove (s.proc 0).pgdir s.mem s'.mem := by
  let : Link := sampleLink
  obtain ⟨s0, A0, d, f, g, hboot, hb⟩ := sample_boot
  obtain ⟨s, f', A, hrun, hfill, hrep, hat, hsz, hk⟩ := hb.touch (by decide : 0 < 2)
  have hext := hfill.extends hb.rep.wf (by decide) perm_wu
  have hs := hfill.sane hb.rep.wf hb.dir (by decide) perm_wu (hb.sane true)
  have hd := hext.role_dir hb.dir
  have hpage := names_iff.mp (hfill.names_self hb.rep.wf perm_wu)
  have hfree := hrep.wf.free_le
  rw [topFrame_eq] at hfree
  have habsent : ∀ v ∈ pagesBetween 4096 0x60001000, v ≠ 0x60000 → flag (A.pte d v) pteP = false := by
    intro v hv hne
    have hlo := (mem_pagesBetween.mp hv).1
    rw [show npages 4096 = 1 by decide] at hlo
    rw [hext.pte d v fun hc => hne hc.2,
      hb.rest v (lt_userPages_of_mem (by decide) hv) (by omega)]
    exact flag_zero _
  have hgrow : wp (growproc 0 0x60000000) (fun r s' => r = -1 ∧
      flag (s'.mem.entry (s.proc 0).pgdir 0x60000) pteP = false) (fun _ => False) s := by
    refine wp_growproc hat.cur (.inr ?_) ?_ ?_
    · rw [hk]
      exact (hb.rep.wf.managed f (by rw [hb.stack]; decide)).pos.ne'
    · rw [hat.pgdir]
      exact (hrep.wf.managed d (by rw [hd]; decide)).pos.ne'
    · dsimp only
      rw [if_pos (by decide), hat.pgdir, hsz, show uadd pgsize 0x60000000 = 0x60001000 by decide]
      refine wp_post (hrep.grows hs hd pgsize 0x60001000 (.inr fun _ => ⟨?_, ?_⟩)) ?_
      · intro v hv hp
        by_cases hv0 : v = 0x60000
        · rw [hv0, hpage.2]
          exact (hb.rep.wf.managed f' (by rw [hfill.fresh hb.rep.wf]; decide)).pos.ne'
        · rw [habsent v hv hv0] at hp
          cases hp
      · intro v hv
        refine habsent v (List.mem_of_mem_take hv) ?_
        obtain ⟨i, hi, hvi⟩ := List.mem_take_iff_getElem.mp hv
        simp only [pagesBetween, List.getElem_range', show npages pgsize = 1 by decide] at hvi
        omega
      · rintro r m' ⟨A', h', hs', hgrows, -⟩
        cases hgrows with
        | refused hk => exact absurd hk (by decide)
        | smaller _ hlt => exact absurd hlt (by decide)
        | filling _ _ hfilling =>
          obtain ⟨hd', -⟩ := hfilling.outside hrep hd hs (by decide)
          have hmem : 0x60000 ∈ pagesBetween pgsize 0x60001000 := mem_pagesBetween.mpr (by decide)
          cases hfilling with
          | done hfills _ _ =>
            have hlen := hfills.frames (S := ∅) hrep.wf hs hd
              (fun u hu => lt_userPages_of_mem (by decide) hu) perm_wu List.nodup_range'
              fun i hi => absurd hi (Finset.notMem_empty i)
            rw [pagesBetween, List.length_range', show npages 0x60001000 - npages pgsize = 393216
              by decide] at hlen
            omega
          | gaveUp _ _ _ hrel _ =>
            rw [if_pos rfl]
            refine ⟨rfl, ?_⟩
            show flag (m'.entry d 0x60000) pteP = false
            rw [h'.entry hd' (by decide)]
            exact hrel.pte_mem _ hmem
  obtain ⟨r, s', hcall, rfl, hgone⟩ := wp_total hgrow
  have hthere : flag (s.mem.entry (s.proc 0).pgdir 0x60000) pteP = true := by
    rw [hat.pgdir, hrep.entry hd (by decide)]
    exact hpage.1
  refine ⟨s0, s, s', _, hboot, hrun, hsz, hcall, hthere, hgone, fun hsame => ?_⟩
  rw [(hsame 0x60000 (by decide) (by decide)).1, hthere] at hgone
  cases hgone

omit [Link] in
/-- Growing by a page leaves the mappings alone. -/
theorem growproc_mappings_first : ∃ s0 s r s', @Boot sampleLink 2 s0 ∧
    Trace.Run (@Step sampleLink 2) s0 [.sched 0 0] s ∧
    @growproc sampleLink 0 4096 s = .ok (r, s') ∧ SameAbove (s.proc 0).pgdir s.mem s'.mem := by
  let : Link := sampleLink
  obtain ⟨s0, A, d, f, g, hboot, hb⟩ := sample_boot
  have hcur := (at_dispatch s0 0 0).cur
  have himg := hb.imaged
  have hsz : ((s0.dispatch 0 0).proc 0).sz = 4096 := by rw [hb.dispatched]; rfl
  obtain ⟨r, s', hrun, -⟩ := wp_total (himg.grow (n := 4096) hcur (by decide) (by decide))
  refine ⟨s0, _, r, s', hboot, .single (hb.sched (by decide)), hrun, ?_⟩
  refine (growproc_mappings hcur himg.paged (by rw [hsz]; decide) 4096#32 ?_ hrun).mpr ?_
  · have hfree := hb.rep.wf.free_le
    rw [topFrame_eq] at hfree
    rw [hsz, show (s0.dispatch 0 0).mem.freelist = A.free from hb.rep.free, Mem.demand,
      show npages mmapBase - npages 4096 = 393215 by decide]
    omega
  · rintro ⟨-, v, hv, hlt, -⟩
    rw [hsz, show BitVec.toInt 4096#32 = 4096 by decide] at hlt
    rw [mmapBase_eq] at hv
    omega

end Xv6

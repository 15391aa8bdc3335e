import Xv6.Kernel.Steps
import Xv6.Kernel.Syscall

/-!
# What `getwmapinfo` reports (`sysproc.c`)

`getwmapinfo` stores the entry of a used slot at the slot's own index and leaves
the entries of the other slots alone.  A caller reads the first `total_mmaps`
entries.  The two agree just when the used slots come first in the table.

The bytes of the caller's memory are a function of the address, and addresses wrap
as 32-bit words do.
-/

namespace Xv6

open Prog

variable {info n i : Nat} {pr : Proc}

/-! ## The caller's memory -/

/-- Memory after a store. -/
def UserStore.apply (st : UserStore) (mem : Nat → Byte) : Nat → Byte := fun a =>
  st.bytes.getD ((a + uintSize - st.addr % uintSize) % uintSize) (mem a)

/-- Memory after some stores, in order. -/
def storeAll (mem : Nat → Byte) (sts : List UserStore) : Nat → Byte :=
  sts.foldl (fun mem st => st.apply mem) mem

/-- The word at an address. -/
def wordAt (mem : Nat → Byte) (a : Nat) : Word := word (fun o => mem ((a + o) % uintSize)) 0

theorem storeAll_append (mem : Nat → Byte) (sts sts' : List UserStore) :
    storeAll mem (sts ++ sts') = storeAll (storeAll mem sts) sts' := List.foldl_append

theorem word_zero_congr {pg pg' : Page} (h : ∀ o < 4, pg o = pg' o) : word pg 0 = word pg' 0 := by
  unfold word
  rw [h _ (by omega), h _ (by omega), h _ (by omega), h _ (by omega)]

theorem uintBytes_getD (n : Nat) (b : Byte) {k : Nat} (hk : k < 4) :
    (uintBytes n).getD k b = (BitVec.ofNat 32 n).extractLsb' (8 * k) 8 := by
  apply BitVec.eq_of_toNat_eq
  rw [BitVec.extractLsb'_toNat, BitVec.toNat_ofNat, Nat.shiftRight_eq_div_pow]
  obtain rfl | rfl | rfl | rfl : k = 0 ∨ k = 1 ∨ k = 2 ∨ k = 3 := by omega
  all_goals
    simp [uintBytes]
    try omega

/-- The word that is stored. -/
theorem wordAt_self (mem : Nat → Byte) (a n : Nat) :
    wordAt ((⟨a, uintBytes n⟩ : UserStore).apply mem) a = BitVec.ofNat 32 n := by
  refine (word_zero_congr (fun o ho => ?_)).trans
    (word_setWord_self (fill 0#8) 0 (BitVec.ofNat 32 n))
  have hidx : ((a + o) % uintSize + uintSize - a % uintSize) % uintSize = o := by
    rw [uintSize_eq]
    omega
  unfold UserStore.apply setWord
  dsimp only
  rw [hidx, uintBytes_getD n _ ho, if_pos (by omega), Nat.mod_eq_of_lt ho]

/-- Another word of the same structure. -/
theorem wordAt_other (mem : Nat → Byte) {o q : Nat} (ho : o % 4 = 0) (hq : q % 4 = 0)
    (hlt : o < 200) (hlt' : q < 200) (hne : o ≠ q) :
    wordAt ((⟨info + q, uintBytes n⟩ : UserStore).apply mem) (info + o) = wordAt mem (info + o) := by
  refine word_zero_congr fun k hk => ?_
  unfold UserStore.apply
  dsimp only
  rw [List.getD_eq_default]
  rw [uintBytes_length, uintSize_eq]
  omega

/-! ## Entries -/

/-- `addr[i]`, `length[i]` and `n_loaded_pages[i]` of a `struct wmapinfo`. -/
abbrev InfoEntry := Word × Word × Word

/-- The entry of a region. -/
def MmapRegion.entry (r : MmapRegion) : InfoEntry :=
  (BitVec.ofNat 32 r.addr, BitVec.ofInt 32 r.length, BitVec.ofInt 32 r.nLoadedPages)

/-- The entries of the regions that are mapped. -/
def Proc.entries (pr : Proc) : List InfoEntry :=
  ((List.range maxMmaps).filter fun i => (pr.mmap i).used).map fun i => (pr.mmap i).entry

/-- Entry `i` of the `struct wmapinfo` at `info`. -/
def infoEntry (mem : Nat → Byte) (info i : Nat) : InfoEntry :=
  (wordAt mem (info + (4 + 4 * i)), wordAt mem (info + (68 + 4 * i)),
    wordAt mem (info + (132 + 4 * i)))

/-- The entries a caller reads: as many as `total_mmaps` says. -/
def infoEntries (mem : Nat → Byte) (info : Nat) : List InfoEntry :=
  (List.range (wordAt mem info).toInt.toNat).map (infoEntry mem info)

/-- The stores for the first `n` slots. -/
def slotsStores (pr : Proc) (info n : Nat) : List UserStore :=
  (List.range n).flatMap fun i =>
    if (pr.mmap i).used then slotStores (pr.mmap i) info i else []

theorem ofNat_emod (n : Int) : BitVec.ofNat 32 (n % uintSize).toNat = BitVec.ofInt 32 n := by
  apply BitVec.eq_of_toNat_eq
  rw [BitVec.toNat_ofNat, BitVec.toNat_ofInt]
  unfold uintSize
  omega

theorem infoEntry_slot (mem : Nat → Byte) (r : MmapRegion) (hi : i < maxMmaps) (hn : n < maxMmaps) :
    infoEntry (storeAll mem (slotStores r info n)) info i =
      if i = n then r.entry else infoEntry mem info i := by
  have hmax : maxMmaps = 16 := rfl
  unfold slotStores storeAll infoEntry
  simp only [List.foldl_cons, List.foldl_nil, Nat.add_assoc, intBytes]
  split
  next h =>
    subst h
    rw [wordAt_other _ (by omega) (by omega) (by omega) (by omega) (by omega),
      wordAt_other _ (by omega) (by omega) (by omega) (by omega) (by omega), wordAt_self,
      wordAt_other _ (by omega) (by omega) (by omega) (by omega) (by omega), wordAt_self,
      wordAt_self, ofNat_emod, ofNat_emod]
    rfl
  next h =>
    refine Prod.ext ?_ (Prod.ext ?_ ?_)
    all_goals
      dsimp only
      rw [wordAt_other _ (by omega) (by omega) (by omega) (by omega) (by omega),
        wordAt_other _ (by omega) (by omega) (by omega) (by omega) (by omega),
        wordAt_other _ (by omega) (by omega) (by omega) (by omega) (by omega)]

/-- A used slot has its own entry, the others what was there. -/
theorem infoEntry_slots (mem : Nat → Byte) (pr : Proc) (hi : i < maxMmaps) (hn : n ≤ maxMmaps) :
    infoEntry (storeAll mem (slotsStores pr info n)) info i =
      if i < n ∧ (pr.mmap i).used = true then (pr.mmap i).entry else infoEntry mem info i := by
  induction n with
  | zero => rfl
  | succ n ih =>
    have hstep : slotsStores pr info (n + 1) = slotsStores pr info n ++
        if (pr.mmap n).used then slotStores (pr.mmap n) info n else [] := by
      unfold slotsStores
      rw [List.range_succ, List.flatMap_append, List.flatMap_singleton]
    rw [hstep, storeAll_append]
    cases hu : (pr.mmap n).used with
    | true =>
      rw [if_pos rfl, infoEntry_slot _ _ hi hn, ih (by omega)]
      by_cases hin : i = n
      · subst hin
        rw [if_pos rfl, if_pos ⟨by omega, hu⟩]
      · rw [if_neg hin]
        exact if_congr (and_congr_left fun _ => by omega) rfl rfl
    | false =>
      rw [if_neg (by decide)]
      refine (ih (by omega)).trans (if_congr ?_ rfl rfl)
      constructor
      · exact fun h => ⟨by omega, h.2⟩
      · rintro ⟨hlt, hui⟩
        refine ⟨?_, hui⟩
        have : i ≠ n := by
          rintro rfl
          rw [hu] at hui
          cases hui
        omega

/-! ## The report -/

/-- What `getwmapinfo` needs of a table: the counter is right, and a used region has
an address in the range for mappings or above. -/
structure Listed (pr : Proc) : Prop where
  total : pr.totalMmaps = usedSlots pr.mmap
  base : ∀ i < maxMmaps, (pr.mmap i).used = true → mmapBase ≤ (pr.mmap i).addr ∧
    (pr.mmap i).addr < uintSize

/-- The used slots come first. -/
def Packed (pr : Proc) : Prop := ∀ i < maxMmaps, (i : Int) < pr.totalMmaps → (pr.mmap i).used = true

instance (pr : Proc) : Decidable (Packed pr) := Nat.decidableBallLT ..

/-- The stores of a call that succeeds. -/
def infoStores (pr : Proc) (info : Nat) : List UserStore :=
  slotsStores pr info maxMmaps ++ [⟨info, intBytes pr.totalMmaps⟩]

section

theorem usedSlots_le (mmap : Nat → MmapRegion) : usedSlots mmap ≤ maxMmaps := by
  unfold usedSlots Count.refs
  exact (Finset.card_filter_le _ _).trans_eq (Finset.card_range _)

theorem infoEntry_stores (mem : Nat → Byte) (hi : i < maxMmaps) :
    infoEntry (storeAll mem (infoStores pr info)) info i =
      if (pr.mmap i).used = true then (pr.mmap i).entry else infoEntry mem info i := by
  have hmax : maxMmaps = 16 := rfl
  have hlast : ∀ mem' : Nat → Byte, infoEntry (storeAll mem' [⟨info, intBytes pr.totalMmaps⟩]) info i =
      infoEntry mem' info i := by
    intro mem'
    have hword : ∀ o, o % 4 = 0 → o < 200 → o ≠ 0 →
        wordAt (storeAll mem' [⟨info, intBytes pr.totalMmaps⟩]) (info + o) = wordAt mem' (info + o) :=
      fun o ho hlt hne => wordAt_other mem' (q := 0) ho rfl hlt (by decide) hne
    unfold infoEntry
    rw [hword _ (by omega) (by omega) (by omega), hword _ (by omega) (by omega) (by omega),
      hword _ (by omega) (by omega) (by omega)]
  unfold infoStores
  rw [storeAll_append, hlast, infoEntry_slots mem pr hi (Nat.le_refl _)]
  exact if_congr (and_iff_right hi) rfl rfl

theorem infoEntries_stores (h : Listed pr) (mem : Nat → Byte) :
    infoEntries (storeAll mem (infoStores pr info)) info =
      (List.range (usedSlots pr.mmap)).map fun i =>
        if (pr.mmap i).used = true then (pr.mmap i).entry else infoEntry mem info i := by
  have hle := usedSlots_le pr.mmap
  have hmax : maxMmaps = 16 := rfl
  have htotal : (wordAt (storeAll mem (infoStores pr info)) info).toInt.toNat =
      usedSlots pr.mmap := by
    unfold infoStores
    rw [storeAll_append]
    show (wordAt (UserStore.apply ⟨info, uintBytes _⟩ _) info).toInt.toNat = _
    rw [wordAt_self, ofNat_emod, h.total, BitVec.toInt_ofInt,
      Int.bmod_eq_of_le (by omega) (by omega)]
    rfl
  unfold infoEntries
  rw [htotal]
  refine List.map_congr_left fun i hi => ?_
  have hlt := List.mem_range.mp hi
  exact infoEntry_stores mem (by omega)

/-- A packed table's used slots are the first ones. -/
theorem Packed.perm (h : Listed pr) (hp : Packed pr) :
    (List.range (usedSlots pr.mmap)).Perm
      ((List.range maxMmaps).filter fun i => (pr.mmap i).used) := by
  have hle := usedSlots_le pr.mmap
  have hused : ∀ i < usedSlots pr.mmap, (pr.mmap i).used = true := by
    intro i hi
    exact hp i (by omega) (by rw [h.total]; exact_mod_cast hi)
  refine List.perm_of_nodup_nodup_toFinset_eq List.nodup_range (List.nodup_range.filter _) ?_
  have hsub : (List.range (usedSlots pr.mmap)).toFinset ⊆
      ((List.range maxMmaps).filter fun i => (pr.mmap i).used).toFinset := by
    intro i hi
    rw [List.mem_toFinset, List.mem_range] at hi
    rw [List.mem_toFinset, List.mem_filter, List.mem_range]
    exact ⟨by omega, hused i hi⟩
  refine Finset.eq_of_subset_of_card_le hsub ?_
  rw [List.toFinset_card_of_nodup List.nodup_range, List.length_range, List.toFinset_filter]
  unfold usedSlots Count.refs
  rw [List.toFinset_range]

/-- The entries a caller reads are those of the mapped regions, whatever its buffer
held, just when the used slots come first. -/
theorem reports_iff (h : Listed pr) :
    (∀ mem, (infoEntries (storeAll mem (infoStores pr info)) info).Perm pr.entries) ↔ Packed pr := by
  have hle := usedSlots_le pr.mmap
  constructor
  · intro hperm i hi htotal
    rw [h.total] at htotal
    by_contra hfree
    -- in a buffer of zeroes the entry of a free slot is zero, which no region has
    have hzero : infoEntry (fun _ => 0#8) info i = (0#32, 0#32, 0#32) := by
      unfold infoEntry wordAt
      exact Prod.ext (word_fill_zero 0) (Prod.ext (word_fill_zero 0) (word_fill_zero 0))
    have hmem := (hperm fun _ => 0#8).mem_iff (a := (0#32, 0#32, 0#32))
    rw [infoEntries_stores h] at hmem
    have hin := hmem.mp (List.mem_map.mpr ⟨i, List.mem_range.mpr (by omega), by
      rw [if_neg hfree, hzero]⟩)
    obtain ⟨j, hj, hentry⟩ := List.mem_map.mp hin
    rw [List.mem_filter, List.mem_range] at hj
    obtain ⟨hlo, hhi⟩ := h.base j hj.1 hj.2
    have haddr := congrArg BitVec.toNat (congrArg Prod.fst hentry)
    simp only [MmapRegion.entry, BitVec.toNat_ofNat] at haddr
    rw [mmapBase_eq] at hlo
    rw [uintSize_eq] at hhi
    omega
  · intro hp mem
    rw [infoEntries_stores h]
    unfold Proc.entries
    have hmap : ((List.range (usedSlots pr.mmap)).map fun i =>
        if (pr.mmap i).used = true then (pr.mmap i).entry else infoEntry mem info i) =
        (List.range (usedSlots pr.mmap)).map fun i => (pr.mmap i).entry := by
      refine List.map_congr_left fun i hi => if_pos ?_
      have hlt := List.mem_range.mp hi
      exact hp i (by omega) (by rw [h.total]; exact_mod_cast hlt)
    rw [hmap]
    exact (hp.perm h).map _

end

/-! ## Runs -/

/-- What `Listed` is about. -/
def Proc.places (pr : Proc) : (Nat → Bool × Nat) × Int :=
  (fun i => ((pr.mmap i).used, (pr.mmap i).addr), pr.totalMmaps)

theorem Listed.congr {pr' : Proc} (h : Listed pr) (hp : pr'.places = pr.places) : Listed pr' := by
  have hslot : ∀ i, (pr'.mmap i).used = (pr.mmap i).used ∧ (pr'.mmap i).addr = (pr.mmap i).addr :=
    fun i => Prod.mk.inj (congrFun (congrArg Prod.fst hp) i)
  refine ⟨?_, fun i hi hu => ?_⟩
  · rw [show pr'.totalMmaps = pr.totalMmaps from congrArg Prod.snd hp, h.total, usedSlots, usedSlots,
      Count.refs_congr fun i _ => ((hslot i).1).symm]
  · rw [(hslot i).2]
    exact h.base i hi (by rw [← (hslot i).1]; exact hu)

theorem Listed.empty (hmmap : ∀ i < maxMmaps, pr.mmap i = .zero) (htotal : pr.totalMmaps = 0) :
    Listed pr := by
  have hno : ∀ i < maxMmaps, (pr.mmap i).used = false := fun i hi => by rw [hmmap i hi]; rfl
  refine ⟨?_, fun i hi hu => ?_⟩
  · rw [htotal, usedSlots, Count.refs_eq_zero.mpr fun i hi => hno i (Finset.mem_range.mp hi)]
    rfl
  · rw [hno i hi] at hu
    cases hu

theorem listed_ofTables : OfTables Listed := by
  intro pr pr' ht h
  refine h.congr (Prod.ext (funext fun i => ?_) (congrArg (fun t => t.2.2.2) ht))
  exact Prod.ext (congrArg (fun t => (t.2.2.1 i).used) ht) (congrArg (fun t => (t.2.2.1 i).addr) ht)

section

variable {s : Kernel} {c p : Nat}

/-- The file-backed part of `wmap` leaves the places of regions. -/
theorem keeps_wmapFile (addr : Nat) (fd : Int) :
    Keeps (fun s : Kernel => (s.proc p).places) (wmapFile p i addr fd) := by
  have hset : ∀ f : Proc → Proc, (∀ pr, (f pr).places = pr.places) →
      Keeps (fun s : Kernel => (s.proc p).places) (setProc p f) := by
    intro f hf
    refine .modify fun s => ?_
    rw [Kernel.setProc_self]
    exact hf _
  have hdup : ∀ f, Keeps (fun s : Kernel => (s.proc p).places) (filedup f) := by
    intro f s
    refine wp_post (keeps_filedup f s) (fun _ _ h => ?_)
    dsimp only at h ⊢
    rw [(Prod.mk.inj h).1]
  have hget : Keeps (fun s : Kernel => (s.proc p).places) (getProc p) := by
    intro s
    rw [wp_getProc]
  refine .bind hget fun pr => .bind (.ite (fun _ => .pure _) fun _ => .throw _) fun o => ?_
  cases o with
  | none => exact .pure _
  | some f =>
    refine .bind (hdup f) fun _ => ?_
    cases (List.range nofile).find? fun j => (pr.ofile j).isNone with
    | none => exact .pure _
    | some j =>
      refine .bind (hdup f) fun _ => .bind (hset _ fun _ => rfl) fun _ =>
        .bind (hset _ fun pr => ?_) fun _ => .pure _
      refine Prod.ext (funext fun k => ?_) rfl
      show (((Function.update pr.mmap i _) k).used, ((Function.update pr.mmap i _) k).addr) = _
      by_cases hk : k = i
      · subst hk
        rw [Function.update_self]
        rfl
      · rw [Function.update_of_ne hk]
        rfl

theorem Listed.addRegion {addr length flags fd : Word} (h : Listed pr)
    (hslot : wmapSlot pr.mmap addr length flags = some i) :
    Listed (pr.addRegion i addr length flags fd) := by
  obtain ⟨hi, hfree⟩ := wmapSlot_spec hslot
  obtain ⟨hgood, -⟩ := wmapSlot_good hslot (pr.mmap i)
  refine ⟨addRegion_total h.total hi hfree, fun j hj hu => ?_⟩
  by_cases hji : j = i
  · rw [hji, addRegion_self]
    exact ⟨hgood.base, hgood.addr⟩
  · rw [addRegion_ne pr _ _ _ _ hji] at hu ⊢
    exact h.base j hj hu

theorem Listed.wmap (h : Listed (s.proc p)) (hcur : (s.cpu c).proc = some p)
    (addr length flags fd : Word) :
    wp (wmap c addr length flags fd) (fun _ s' => Listed (s'.proc p)) (fun _ => True) s := by
  rw [wp_wmap hcur]
  cases hslot : wmapSlot (s.proc p).mmap addr length flags with
  | none => exact h
  | some i =>
    have h1 : Listed ((s.setProc p fun pr => pr.addRegion i addr length flags fd).proc p) := by
      rw [Kernel.setProc_self]
      exact h.addRegion hslot
    dsimp only
    split
    · exact h1
    · exact wp_post (keeps_wmapFile _ _ _) (fun _ _ hp => h1.congr hp)

theorem Listed.dropRegion (h : Listed pr) (hi : i < maxMmaps) (hused : (pr.mmap i).used = true) :
    Listed (pr.dropRegion i) := by
  refine ⟨dropRegion_total h.total hi hused, fun j hj hu => ?_⟩
  have hji : j ≠ i := by
    rintro rfl
    rw [dropRegion_self] at hu
    cases hu
  rw [dropRegion_ne pr hji] at hu ⊢
  exact h.base j hj hu

theorem Listed.wunmap [Link] (h : Listed (s.proc p)) (hcur : (s.cpu c).proc = some p) (addr : Nat) :
    wp (wunmap c addr) (fun _ s' => Listed (s'.proc p)) (fun _ => True) s := by
  unfold Xv6.wunmap
  rw [wp_bind, wp_myproc, hcur]
  dsimp only
  rw [wp_bind, wp_getProc]
  cases hf : findRegion (s.proc p).mmap addr with
  | none => exact (wp_pure ..).mpr h
  | some i =>
    dsimp only
    rw [wp_bind]
    refine wp_post (inert_unmapLoop p _ _ s) ?_
    intro _ s1 hv
    have ht := (view_iff.mp hv).2.1 p
    obtain ⟨hi, hused, -, -⟩ := findRegion_spec hf
    rw [wp_bind, wp_setProc, wp_pure, Kernel.setProc_self]
    exact (listed_ofTables ht h).dropRegion hi
      ((congrArg (fun t => (t.2.2.1 i).used) ht).trans hused)

end

section

variable [Link] {ncpu c p : Nat} {s0 s : Os} {es : List OsEvent}

/-- The steps after which `p` lives. -/
def StepLive (ncpu p : Nat) (s : Os) (e : OsEvent) (s' : Os) : Prop :=
  OsStep ncpu s e s' ∧ (s'.kernel.proc p).state.dead = false

theorem Listed.osPreserved {e : OsEvent} (h : Listed (s.kernel.proc p))
    (hlive : (s.kernel.proc p).state.dead = false) : OsPreserved (WhileLive p Listed) e s where
  kernel := by
    rintro e' rfl
    exact listed_ofTables.preserved hlive h
      (fun addr length flags fd hcur => h.wmap hcur addr length flags fd)
      fun addr hcur => h.wunmap hcur addr
  exit hat hp hj := listed_ofTables.tabled.exit (hat.curProc hp) hj
  file := by
    rintro c q call rfl hat hq hk
    refine wp_post (filing_body c call s) ?_
    intro _ s' hb _
    rw [bare_proc hb p]
    exact h.congr rfl

theorem Listed.run (hok : CpuOk s0.kernel) (hlive : (s0.kernel.proc p).state.dead = false)
    (h : Listed (s0.kernel.proc p)) (hrun : Trace.Run (StepLive ncpu p) s0 es s) :
    Listed (s.kernel.proc p) := by
  have hinv : CpuOk s.kernel ∧ (s.kernel.proc p).state.dead = false ∧ Listed (s.kernel.proc p) := by
    refine hrun.invariant (I := fun s => CpuOk s.kernel ∧ (s.kernel.proc p).state.dead = false ∧
      Listed (s.kernel.proc p)) ⟨hok, hlive, h⟩ ?_
    rintro s1 e s2 ⟨hok1, hlive1, h1⟩ ⟨hstep, hlive2⟩
    exact ⟨hok1.osStep hstep, hlive2, (h1.osPreserved hlive1).step hok1 (fun _ => h1) hstep hlive2⟩
  exact hinv.2.2

omit [Link] in
/-- A call with a pointer that is accepted. -/
theorem getwmapinfo_run {u : Caller} (hcur : (s.kernel.cpu c).proc = some p)
    (hinfo : argptr (s.kernel.proc p) u 0 infoPtrSize = some info) :
    getwmapinfo c u s = .ok ((success, infoStores (s.kernel.proc p) info), s) := by
  obtain ⟨_, _, hrun, rfl, rfl⟩ := wp_total (x := getwmapinfo c u) (s := s)
    (Q := fun r s' => r = (success, infoStores (s.kernel.proc p) info) ∧ s' = s) (by
      unfold getwmapinfo
      rw [wp_bind, wp_curproc hcur, hinfo]
      exact (wp_pure ..).mpr ⟨rfl, rfl⟩)
  exact hrun

/-- For a process that started with an empty table, after any run in which it lives:
a call of `getwmapinfo` that succeeds reports its mapped regions, whatever the buffer
held, just when the used slots come first. -/
theorem getwmapinfo_reports {u : Caller} {info : Nat} {stores : List UserStore} {s' : Os}
    (hok : CpuOk s0.kernel) (hlive : (s0.kernel.proc p).state.dead = false)
    (hmmap : ∀ i < maxMmaps, (s0.kernel.proc p).mmap i = .zero)
    (htotal : (s0.kernel.proc p).totalMmaps = 0)
    (hrun : Trace.Run (StepLive ncpu p) s0 es s) (hcur : (s.kernel.cpu c).proc = some p)
    (hinfo : argptr (s.kernel.proc p) u 0 infoPtrSize = some info)
    (hcall : getwmapinfo c u s = .ok ((success, stores), s')) :
    (∀ mem, (infoEntries (storeAll mem stores) info).Perm (s.kernel.proc p).entries) ↔
      Packed (s.kernel.proc p) := by
  rw [getwmapinfo_run hcur hinfo] at hcall
  obtain ⟨⟩ := hcall
  exact reports_iff ((Listed.empty hmmap htotal).run hok hlive hrun)

end

/-! ### A free slot below a used one -/

/-- Flags of an anonymous mapping. -/
def anonFlags : Word := mapShared ||| mapAnonymous ||| mapFixed

/-- The first process with two mappings of a page, in slots 0 and 1. -/
def Kernel.mapTwo (k : Kernel) : Kernel :=
  (k.setProc 0 fun pr => pr.addRegion 0 0x60000000#32 0x1000#32 anonFlags 0#32).setProc 0 fun pr =>
    pr.addRegion 1 0x60001000#32 0x1000#32 anonFlags 0#32

theorem Booted.mapTwo [Link] {k : Kernel} {A : Space} {d f g ncpu : Nat} (hb : Booted k A d f g)
    (hn : 0 < ncpu) (fs : Files) : ∃ k1, StepLive ncpu 0 ⟨k.dispatch 0 0, fs⟩
        (.kernel (.syscall 0 (.wmap 0x60000000#32 0x1000#32 anonFlags 0#32))) ⟨k1, fs⟩ ∧
      StepLive ncpu 0 ⟨k1, fs⟩
        (.kernel (.syscall 0 (.wmap 0x60001000#32 0x1000#32 anonFlags 0#32)))
        ⟨(k.dispatch 0 0).mapTwo, fs⟩ := by
  have hat := at_dispatch k 0 0
  have hproc := hb.dispatched
  have hat1 := hat.setProc (f := fun pr => pr.addRegion 0 0x60000000#32 0x1000#32 anonFlags 0#32)
    rfl rfl
  have hat2 := hat1.setProc (f := fun pr => pr.addRegion 1 0x60001000#32 0x1000#32 anonFlags 0#32)
    rfl rfl
  have hslot1 : wmapSlot ((k.dispatch 0 0).proc 0).mmap 0x60000000#32 0x1000#32 anonFlags = some 0 := by
    rw [hproc]
    exact (by decide : wmapSlot (fun _ => .zero) 0x60000000#32 0x1000#32 anonFlags = some 0)
  refine ⟨_, ⟨osStep_of_step (s := ⟨k.dispatch 0 0, fs⟩)
      (step_wmap hn hat (by rw [hproc]; rfl) hslot1 (by decide)) trivial rfl,
      by rw [hat1.state]; rfl⟩,
    osStep_of_step (s := ⟨_, fs⟩) (step_wmap hn hat1 ?_ ?_ (by decide)) trivial rfl,
    (congrArg ProcState.dead hat2.state).trans rfl⟩
  · rw [Kernel.setProc_self, hproc]
    rfl
  · rw [Kernel.setProc_self, hproc]
    exact (by decide : wmapSlot (Function.update (fun _ => .zero) 0
      ⟨0x60000000, 0x1000, anonFlags, true, 0, 0⟩) 0x60001000#32 0x1000#32 anonFlags = some 1)

theorem Booted.mapTwo_proc [Link] {k : Kernel} {A : Space} {d f g : Nat} (hb : Booted k A d f g) :
    (k.dispatch 0 0).mapTwo.proc 0 =
      ({ Proc.zero with
        sz := pgsize, pgdir := d, kstack := f, state := .running, pid := 1 }.addRegion
          0 0x60000000#32 0x1000#32 anonFlags 0#32).addRegion
          1 0x60001000#32 0x1000#32 anonFlags 0#32 := by
  unfold Kernel.mapTwo
  rw [Kernel.setProc_self, Kernel.setProc_self, hb.dispatched]

/-- Two mappings, of which the first is removed: the report is one entry, that of the
free slot, with what the buffer held. -/
theorem getwmapinfo_stale_entry : ∃ s0 s es info stores s', @Boot sampleLink 2 s0.kernel ∧
    Trace.Run (@StepLive sampleLink 2 0) s0 es s ∧
    argptr (s.kernel.proc 0) (callWith 1024) 0 infoPtrSize = some info ∧
    getwmapinfo 0 (callWith 1024) s = .ok ((success, stores), s') ∧
    ¬ ∀ mem, (infoEntries (storeAll mem stores) info).Perm (s.kernel.proc 0).entries := by
  let : Link := sampleLink
  obtain ⟨k, A, d, f, g, hboot, hb⟩ := sample_boot
  obtain ⟨k1, hstep1, hstep2⟩ := hb.mapTwo (by decide : 0 < 2) sampleFiles
  have hproc2 := hb.mapTwo_proc
  have hmmap2 : ((k.dispatch 0 0).mapTwo.proc 0).mmap = Function.update (Function.update
      (fun _ => .zero) 0 ⟨0x60000000, 0x1000, anonFlags, true, 0, 0⟩) 1
      ⟨0x60001000, 0x1000, anonFlags, true, 0, 0⟩ := by
    rw [hproc2]
    rfl
  have hat2 : At 0 0 d (k.dispatch 0 0).mapTwo :=
    ⟨(at_dispatch k 0 0).cur, by rw [hproc2]; rfl, by rw [hproc2]; rfl⟩
  have hpages : (((k.dispatch 0 0).mapTwo.proc 0).mmap 0).pages = [0x60000] := by
    rw [hmmap2]
    decide
  have hanon : flag (((k.dispatch 0 0).mapTwo.proc 0).mmap 0).flags mapAnonymous = true := by
    rw [hmmap2]
    decide
  obtain ⟨s1, h1, hstep3⟩ := Rep.step_wunmap 0x60000000#32 (i := 0) (s := (k.dispatch 0 0).mapTwo)
    hb.rep (hb.sane true) (by decide : 0 < 2) hat2 (by rw [hproc2]; rfl) hb.dir
    (by decide) (by decide) (by rw [hmmap2]; decide)
    (by rw [hmmap2]; exact ⟨by decide, by decide⟩)
    (by
      rw [hpages]
      refine NonZero.of_absent fun v hv => ?_
      obtain rfl := List.mem_singleton.mp hv
      rw [hb.rest _ (by decide) (by decide)]
      exact flag_zero _)
    (.inl hanon)
  have hproc1 : s1.proc = (k.dispatch 0 0).mapTwo.proc := by rw [h1.eq]
  have hproc3 : (s1.setProc 0 fun pr => pr.dropRegion 0).proc 0 =
      ((k.dispatch 0 0).mapTwo.proc 0).dropRegion 0 := by
    rw [Kernel.setProc_self, hproc1]
  have hw1 : s1.filewrites = (k.dispatch 0 0).mapTwo.filewrites := by
    rw [h1.eq]
    dsimp only
    rw [writes_anonymous _ hanon, List.append_nil]
  have hlisted : Listed ((s1.setProc 0 fun pr => pr.dropRegion 0).proc 0) := by
    rw [hproc3]
    refine Listed.dropRegion ?_ (by decide) (by rw [hmmap2]; decide)
    rw [hproc2]
    refine ((Listed.empty (fun _ _ => rfl) rfl).addRegion ?_).addRegion ?_
    · exact (by decide : wmapSlot (fun _ => .zero) 0x60000000#32 0x1000#32 anonFlags = some 0)
    · exact (by decide : wmapSlot (Function.update (fun _ => .zero) 0
        ⟨0x60000000, 0x1000, anonFlags, true, 0, 0⟩) 0x60001000#32 0x1000#32 anonFlags = some 1)
  have hdead3 : ((s1.setProc 0 fun pr => pr.dropRegion 0).proc 0).state.dead = false := by
    rw [hproc3, hproc2]
    rfl
  have hcur3 : ((s1.setProc 0 fun pr => pr.dropRegion 0).cpu 0).proc = some 0 := by
    show (s1.cpu 0).proc = some 0
    rw [h1.eq]
    exact hat2.cur
  have hinfo : argptr ((s1.setProc 0 fun pr => pr.dropRegion 0).proc 0) (callWith 1024) 0
      infoPtrSize = some 1024 := by
    rw [hproc3, hproc2]
    rfl
  have hstart : StepLive 2 0 ⟨k, sampleFiles⟩ (.kernel (.sched 0 0)) ⟨k.dispatch 0 0, sampleFiles⟩ :=
    ⟨osStep_of_step (hb.sched (by decide)) trivial rfl,
      (congrArg ProcState.dead (at_dispatch k 0 0).state).trans rfl⟩
  refine ⟨⟨k, sampleFiles⟩, ⟨_, sampleFiles⟩, _, 1024, _, _, hboot,
    .snoc (.snoc (.snoc (.single hstart) hstep1) hstep2)
      ⟨osStep_of_step (s := ⟨_, sampleFiles⟩) hstep3 trivial hw1, hdead3⟩,
    hinfo, getwmapinfo_run hcur3 hinfo, ?_⟩
  rw [reports_iff hlisted, hproc3, hproc2]
  intro hpacked
  have hused := hpacked 0 (by decide) (by exact (by decide : (0 : Int) < 1))
  rw [dropRegion_self] at hused
  cases hused

/-- With both mappings the used slots come first, and the report is right. -/
theorem getwmapinfo_reports_two : ∃ s0 s es info stores s', @Boot sampleLink 2 s0.kernel ∧
    Trace.Run (@StepLive sampleLink 2 0) s0 es s ∧ Packed (s.kernel.proc 0) ∧
    (s.kernel.proc 0).totalMmaps = 2 ∧
    getwmapinfo 0 (callWith 1024) s = .ok ((success, stores), s') ∧
    ∀ mem, (infoEntries (storeAll mem stores) info).Perm (s.kernel.proc 0).entries := by
  let : Link := sampleLink
  obtain ⟨k, A, d, f, g, hboot, hb⟩ := sample_boot
  obtain ⟨k1, hstep1, hstep2⟩ := hb.mapTwo (by decide : 0 < 2) sampleFiles
  have hproc2 := hb.mapTwo_proc
  have hcur2 : ((k.dispatch 0 0).mapTwo.cpu 0).proc = some 0 := (at_dispatch k 0 0).cur
  have hinfo : argptr ((k.dispatch 0 0).mapTwo.proc 0) (callWith 1024) 0 infoPtrSize = some 1024 := by
    rw [hproc2]
    rfl
  have hstart : StepLive 2 0 ⟨k, sampleFiles⟩ (.kernel (.sched 0 0)) ⟨k.dispatch 0 0, sampleFiles⟩ :=
    ⟨osStep_of_step (hb.sched (by decide)) trivial rfl,
      (congrArg ProcState.dead (at_dispatch k 0 0).state).trans rfl⟩
  have hpacked : Packed ((k.dispatch 0 0).mapTwo.proc 0) := by
    intro i _ hlt
    have hi : i < 2 := by
      rw [hproc2] at hlt
      exact Int.ofNat_lt.mp hlt
    obtain rfl | rfl : i = 0 ∨ i = 1 := by omega
    · rw [hproc2]
      rfl
    · rw [hproc2]
      rfl
  have hrun : Trace.Run (StepLive 2 0) ⟨k, sampleFiles⟩ _ ⟨(k.dispatch 0 0).mapTwo, sampleFiles⟩ :=
    .snoc (.snoc (.single hstart) hstep1) hstep2
  have hcall := getwmapinfo_run (s := ⟨(k.dispatch 0 0).mapTwo, sampleFiles⟩) hcur2 hinfo
  refine ⟨_, _, _, 1024, _, _, hboot, hrun, hpacked, by rw [hproc2]; rfl, hcall, ?_⟩
  refine (getwmapinfo_reports hb.cpuOk ?_ ?_ ?_ hrun hcur2 hinfo hcall).mpr hpacked
  · rw [hb.init]
    rfl
  · intro i _
    rw [hb.init]
    rfl
  · rw [hb.init]
    rfl

end Xv6

import Xv6.Lib.Run
import Xv6.User.FreeList

/-!
# Runs of a program on the heap

A program that calls `malloc` and `free` and writes to the blocks it holds, from the
state in which it starts.  It frees only pointers that it holds, and asks only for sizes
that are positive as an `int` once rounded up to whole units with a header.  Each call of
`malloc` says whether `sbrk` would succeed.

The invariant `Held` is a tiling of the heap whose blocks that were handed out are the
ones that the program holds.
-/

namespace Xv6.Umalloc

open Prog Chain Tiling Trace

variable {nbytes a n : Nat} {grant : Bool}

/-! ## The system -/

/-- A program and what it has got from `malloc` and not freed: pointers, with the sizes
it asked for. -/
structure Client where
  heap : Heap
  live : List (Nat × Nat)

inductive Call where
  | malloc (nbytes : Nat) (grant : Bool)
  | free (p : Nat)
  /-- Write a unit of a block. -/
  | write (a : Nat) (h : Header)
deriving DecidableEq, Repr

/-- Bytes of the units for `nbytes` bytes and a header. -/
def rounded (nbytes : Nat) : Nat := 8 * ((nbytes + 7) / 8 + 1)

/-- The program when it starts. -/
def init (L : Layout) (mem : Nat → Header) : Client :=
  { heap := { mem, freep := 0, brk := L.start, sbrks := [] }, live := [] }

inductive Step (L : Layout) : Client → Call → Client → Prop where
  | malloc {c : Client} {nbytes p : Nat} {grant : Bool} {heap : Heap}
      (hsize : rounded nbytes < 2 ^ 31)
      (hrun : malloc L grant nbytes c.heap = .ok (some p, heap)) :
      Step L c (.malloc nbytes grant) { heap, live := (p, nbytes) :: c.live }
  | mallocNull {c : Client} {nbytes : Nat} {grant : Bool} {heap : Heap}
      (hsize : rounded nbytes < 2 ^ 31)
      (hrun : malloc L grant nbytes c.heap = .ok (none, heap)) :
      Step L c (.malloc nbytes grant) { c with heap }
  | free {c : Client} {p : Nat} {heap : Heap} (hlive : p ∈ c.live.map Prod.fst)
      (hrun : free L p c.heap = .ok ((), heap)) :
      Step L c (.free p) { heap, live := c.live.filter fun x => x.1 ≠ p }
  | write {c : Client} {p nbytes a : Nat} {h : Header} (hlive : (p, nbytes) ∈ c.live)
      (hlo : p ≤ a) (hhi : a < p + nbytes) (hunit : (a - p) % 8 = 0) :
      Step L c (.write a h) { c with heap := c.heap.put a h }

/-! ## The invariant -/

variable {L : Layout} {s : Heap} {T : List Block}

/-- The heap is not yet set up, or its headers describe the tiling. -/
def Ready (L : Layout) (s : Heap) (T : List Block) : Prop :=
  s.freep = 0 ∧ s.brk = L.start ∧ T = [] ∨ Rep L s T

structure Held (L : Layout) (c : Client) (T : List Block) : Prop where
  ready : Ready L c.heap T
  nodup : (c.live.map Prod.fst).Nodup
  live : ∀ x ∈ c.live, ∃ a u, ⟨a, u, false⟩ ∈ T ∧ x.1 = a + 8 ∧ x.2 + 8 ≤ 8 * u
  used : ∀ b ∈ T, b.free = false → b.addr + 8 ∈ c.live.map Prod.fst

theorem Rep.freep_ne_zero (h : Rep L s T) : s.freep ≠ 0 := by
  have hpos := L.base_pos
  rcases List.mem_cons.mp h.freep with heq | hmem
  · omega
  · obtain ⟨v, hv⟩ := mem_frees.mp hmem
    have := h.base_lt hv
    simp only at this
    omega

/-- `malloc` sets the heap up if need be, and searches. -/
theorem Ready.wp_malloc (h : Ready L s T) (grant : Bool) (nbytes : Nat) :
    ∃ s0, Rep L s0 T ∧ s0.brk = s.brk ∧ s0.sbrks = s.sbrks ∧
      ∀ (Q : Option Nat → Heap → Prop) (F : Stop → Prop), wp (malloc L grant nbytes) Q F s ↔
        wp (mallocLoop L grant (nunits nbytes) (2 * rounds) s0.freep (s0.next s0.freep)) Q F s0 := by
  rcases h with ⟨hfreep, hbrk, rfl⟩ | h
  · have hbase : L.Owned s.brk L.base := .inl rfl
    refine ⟨{ s.put L.base ⟨L.base, 0⟩ with freep := L.base }, ?_, rfl, rfl, fun Q F => ?_⟩
    · refine ⟨hbrk.symm, hbrk ▸ L.start_lt, by simp, ?_, ?_, by simp, by simp [Apart]⟩
      · exact congrArg Header.size (put_self _)
      · exact ⟨rfl, congrArg Header.ptr (put_self _)⟩
    · simp [malloc, hfreep, hbase, Heap.next]
  · refine ⟨s, h, rfl, rfl, fun Q F => ?_⟩
    simp [malloc, h.freep_ne_zero, h.owned h.freep, Heap.next]

theorem nunits_pos (nbytes : Nat) : 0 < nunits nbytes := Nat.succ_pos _

/-- A size that does not wrap when it is rounded up. -/
theorem nunits_eq (h : nbytes + 7 < uintSize) :
    8 * nunits nbytes = rounded nbytes ∧ nbytes + 8 ≤ 8 * nunits nbytes := by
  have heq : nunits nbytes = (nbytes + 7) / 8 + 1 := by rw [nunits.eq_def, Nat.mod_eq_of_lt h]
  rw [rounded, heq]
  omega

theorem lt_of_rounded (h : rounded nbytes < 2 ^ 31) : nbytes + 7 < uintSize := by
  rw [rounded] at h
  rw [uintSize_eq]
  omega

/-- `malloc` of such a size: a block that the program does not hold, or nothing. -/
theorem Ready.wp_malloc_small (h : Ready L s T) (grant : Bool) (hsize : rounded nbytes < 2 ^ 31)
    {F : Stop → Prop} :
    wp (malloc L grant nbytes) (fun r s' =>
      (∃ a T', r = some (a + 8) ∧ Rep L s' T' ∧ Grants T (nunits nbytes) a T') ∨
        r = none ∧ Rep L s' T) F s := by
  obtain ⟨s0, hrep, -, -, heq⟩ := h.wp_malloc grant nbytes
  rw [heq]
  have hlt : 8 * nunits nbytes < 2 ^ 31 := by rwa [(nunits_eq (lt_of_rounded hsize)).1]
  refine wp_post (hrep.wp_serve grant (nunits_pos nbytes) hlt) ?_
  rintro r s' ⟨-, ⟨hserved, -⟩ | ⟨rfl, hrep', -⟩⟩
  · exact .inl hserved
  · exact .inr ⟨rfl, hrep'⟩

/-- A write inside a block leaves the headers alone. -/
theorem Rep.write (h : Rep L s T) {b : Block} (hb : b ∈ T) (hlo : b.addr < a)
    (hhi : a < b.addr + b.bytes) (x : Header) : Rep L (s.put a x) T := by
  have hne {d : Block} (hd : d ∈ T) : d.addr ≠ a := by
    intro heq
    obtain ⟨_, -, huniq⟩ := h.tiles.existsUnique (i := a)
      (by have := (h.tiles.bounds hb).1; omega) (by have := (h.tiles.bounds hb).2.2; omega)
    have hbd : b = d := (huniq b ⟨hb, Nat.le_of_lt hlo, hhi⟩).trans
      (huniq d ⟨hd, Nat.le_of_eq heq, by have := (h.tiles.bounds hd).2.1; omega⟩).symm
    rw [hbd] at hlo
    omega
  have hbase : L.base ≠ a := by
    have := h.base_lt hb
    omega
  refine ⟨h.tiles, h.top, fun d hd => ?_, ?_, ?_, h.freep, h.apart⟩
  · rw [put_of_ne (hne hd)]
    exact h.size d hd
  · rw [put_of_ne hbase]
    exact h.base
  · refine (Seg.congr fun y hy => congrArg Header.ptr (put_of_ne ?_ _)).mpr h.cycle
    rcases List.mem_cons.mp hy with rfl | hy
    · exact hbase
    · obtain ⟨v, hv⟩ := mem_frees.mp hy
      exact hne hv

namespace Held

variable {c : Client}

/-- A heap that is not set up has no blocks. -/
theorem rep_of_mem (h : Held L c T) {b : Block} (hb : b ∈ T) : Rep L c.heap T := by
  rcases h.ready with ⟨-, -, rfl⟩ | hrep
  · simp at hb
  · exact hrep

theorem malloc_step {heap : Heap} {T' : List Block} (h : Held L c T)
    (hsize : rounded nbytes < 2 ^ 31) (hrep : Rep L heap T')
    (hgrants : Grants T (nunits nbytes) a T') :
    Held L { heap, live := (a + 8, nbytes) :: c.live } T' := by
  obtain ⟨hnew, hused⟩ := hgrants
  have hmem : (⟨a, nunits nbytes, false⟩ : Block) ∈ T' := (hused _ rfl).mpr (.inr rfl)
  refine ⟨.inr hrep, List.nodup_cons.mpr ⟨fun hold => ?_, h.nodup⟩, fun x hx => ?_,
    fun b hb hfree => ?_⟩
  · obtain ⟨x, hx, heq⟩ := List.mem_map.mp hold
    obtain ⟨a', u, hb, haddr, -⟩ := h.live x hx
    obtain rfl : a' = a := by
      simp only at heq
      omega
    have := hrep.tiles.eq_of_start_eq ((hused _ rfl).mpr (.inl hb)) hmem rfl
    exact hnew (this ▸ hb)
  · rcases List.mem_cons.mp hx with rfl | hx
    · exact ⟨a, _, hmem, rfl, (nunits_eq (lt_of_rounded hsize)).2⟩
    · obtain ⟨a', u, hb, hrest⟩ := h.live x hx
      exact ⟨a', u, (hused _ rfl).mpr (.inl hb), hrest⟩
  · rcases (hused b hfree).mp hb with hb | rfl
    · exact List.mem_cons_of_mem _ (h.used b hb hfree)
    · exact List.mem_cons_self

theorem free_step {heap : Heap} {u : Nat} {X Y : List Block}
    (h : Held L c (X ++ ⟨a, u, false⟩ :: Y)) (hrep : Rep L heap (release X a u Y)) :
    Held L { heap, live := c.live.filter fun x => x.1 ≠ a + 8 } (release X a u Y) := by
  have hold : Rep L c.heap (X ++ ⟨a, u, false⟩ :: Y) := h.rep_of_mem (b := ⟨a, u, false⟩) (by simp)
  refine ⟨.inr hrep, ?_, fun x hx => ?_, fun b hb hfree => ?_⟩
  · exact h.nodup.sublist (List.filter_sublist.map _)
  · obtain ⟨hx, hne⟩ := List.mem_filter.mp hx
    obtain ⟨a', u', hb, haddr, hle⟩ := h.live x hx
    refine ⟨a', u', (mem_release_used rfl).mpr ?_, haddr, hle⟩
    simp only [List.mem_append, List.mem_cons, Block.mk.injEq] at hb ⊢
    have : a' ≠ a := by
      rintro rfl
      simp [haddr] at hne
    tauto
  · have hb' := (mem_release_used hfree).mp hb
    have hmem : b ∈ X ++ ⟨a, u, false⟩ :: Y := by
      simp only [List.mem_append, List.mem_cons] at hb' ⊢
      tauto
    have hne : b.addr ≠ a := by
      rcases List.mem_append.mp hb' with hX | hY
      · exact Nat.ne_of_lt (hold.around.1 b hX)
      · have := hold.around.2 b hY
        have := hold.units_pos
        omega
    obtain ⟨x, hx, heq⟩ := List.mem_map.mp (h.used b hmem hfree)
    exact List.mem_map.mpr ⟨x, List.mem_filter.mpr ⟨hx, by simp [heq, hne]⟩, heq⟩

/-- Every call keeps the invariant. -/
theorem step {c' : Client} {e : Call} (h : Held L c T) (hstep : Step L c e c') :
    ∃ T', Held L c' T' := by
  cases hstep with
  | malloc hsize hrun =>
    rcases wp_ok (h.ready.wp_malloc_small _ hsize (F := fun _ => False)) hrun with
      ⟨a, T', heq, hrep, hgrants⟩ | ⟨hnone, -⟩
    · obtain rfl := Option.some.inj heq
      exact ⟨T', h.malloc_step hsize hrep hgrants⟩
    · cases hnone
  | mallocNull hsize hrun =>
    rcases wp_ok (h.ready.wp_malloc_small _ hsize (F := fun _ => False)) hrun with
      ⟨a, T', heq, -⟩ | ⟨-, hrep⟩
    · cases heq
    · exact ⟨T, .inr hrep, h.nodup, h.live, h.used⟩
  | free hlive hrun =>
    obtain ⟨x, hx, rfl⟩ := List.mem_map.mp hlive
    obtain ⟨a, u, hb, haddr, -⟩ := h.live x hx
    have hrep := h.rep_of_mem hb
    obtain ⟨X, Y, rfl⟩ := List.append_of_mem hb
    rw [haddr] at hrun ⊢
    exact ⟨_, h.free_step (wp_ok (hrep.free (F := fun _ => False)) hrun).1⟩
  | write hlive hlo hhi hunit =>
    obtain ⟨a, u, hb, haddr, hle⟩ := h.live _ hlive
    simp only at haddr hle
    refine ⟨T, .inr ((h.rep_of_mem hb).write hb ?_ ?_ _), h.nodup, h.live, h.used⟩
    · simp only
      omega
    · simp only [Block.bytes]
      omega

theorem run {mem : Nat → Header} {es : List Call} (hrun : Run (Step L) (init L mem) es c) :
    ∃ T, Held L c T := by
  refine hrun.invariant (I := fun c => ∃ T, Held L c T) ?_ fun c e c' ⟨T, h⟩ hstep => h.step hstep
  exact ⟨[], .inl ⟨rfl, rfl, rfl⟩, by simp [init], by simp [init], by simp⟩

end Held

/-! ## The heap of a run -/

/-- The free list in memory: `base` and the blocks `F`, addresses with units. -/
structure FreeList (L : Layout) (s : Heap) (F : List (Nat × Nat)) : Prop where
  cycle : Seg s.next L.base (L.base :: F.map Prod.fst) L.base
  freep : s.freep ∈ L.base :: F.map Prod.fst
  sorted : (L.base :: F.map Prod.fst).Pairwise (· < ·)
  size : ∀ x ∈ F, (s.mem x.1).size = x.2
  apart : ∀ x ∈ F, ∀ y ∈ F, x.1 + 8 * x.2 ≠ y.1

/-- A block that the program holds, with its header: address and length. -/
def Client.extent (c : Client) (x : Nat × Nat) : Nat × Nat :=
  (x.1 - 8, 8 * (c.heap.mem (x.1 - 8)).size)

/-- The blocks that the program holds and the free ones. -/
def Client.blocks (c : Client) (F : List (Nat × Nat)) : List (Nat × Nat) :=
  c.live.map c.extent ++ F.map fun x => (x.1, 8 * x.2)

/-- The free blocks `F` and the blocks of the program share the heap. -/
structure Safe (L : Layout) (c : Client) (F : List (Nat × Nat)) : Prop where
  freeList : c.heap.freep = 0 ∧ F = [] ∨ FreeList L c.heap F
  /-- A block of the program has room for its header and the bytes asked for. -/
  room : ∀ x ∈ c.live, 8 ≤ x.1 ∧ x.2 + 8 ≤ (c.extent x).2
  disjoint : (c.blocks F).Pairwise fun x y => x.1 + x.2 ≤ y.1 ∨ y.1 + y.2 ≤ x.1
  /-- No block has the header `base` in it. -/
  bounds : ∀ x ∈ c.blocks F, L.base + 8 ≤ x.1 ∧ x.1 + x.2 ≤ c.heap.brk
  cover : ∀ i, L.start ≤ i → i < c.heap.brk → ∃! x, x ∈ c.blocks F ∧ x.1 ≤ i ∧ i < x.1 + x.2

/-- The free blocks of a tiling, with their units. -/
def freeBlocks (T : List Block) : List (Nat × Nat) :=
  (T.filter Block.free).map fun b => (b.addr, b.units)

theorem freeBlocks_fst (T : List Block) : (freeBlocks T).map Prod.fst = frees T := by
  simp [freeBlocks, frees]

theorem mem_freeBlocks {x : Nat × Nat} : x ∈ freeBlocks T ↔ ⟨x.1, x.2, true⟩ ∈ T := by
  simp only [freeBlocks, List.mem_map, List.mem_filter]
  constructor
  · rintro ⟨⟨a, u, f⟩, ⟨hb, rfl⟩, rfl⟩
    exact hb
  · intro hb
    exact ⟨_, ⟨hb, rfl⟩, rfl⟩

/-- Two free blocks next to each other in the heap would be next to each other in the
tiling. -/
theorem Apart.not_adjacent (h : Apart T) {b : Nat} (ht : Tiles Block.addr Block.bytes a T b)
    {x y : Block} (hx : x ∈ T) (hy : y ∈ T) (hxf : x.free = true) (hyf : y.free = true) :
    x.addr + x.bytes ≠ y.addr := by
  intro heq
  obtain ⟨X, Y, rfl⟩ := List.append_of_mem hx
  obtain ⟨c, -, rfl, -, hY⟩ := tiles_append.mp ht
  rcases Y with _ | ⟨z, Y⟩
  · obtain ⟨-, -, hend⟩ := ht.bounds hy
    have hpos := (ht.bounds hy).2.1
    have := tiles_nil.mp hY
    omega
  · have hz : z = y := ht.eq_of_start_eq (by simp) hy (hY.1.trans heq)
    have hhead := (apart_cons.mp (apart_append.mp h).2.1).1 hxf z (by simp)
    rw [hz, hyf] at hhead
    cases hhead

theorem Rep.freeList (h : Rep L s T) : FreeList L s (freeBlocks T) := by
  refine ⟨?_, ?_, ?_, fun x hx => ?_, fun x hx y hy => ?_⟩
  · rw [freeBlocks_fst]
    exact h.cycle
  · rw [freeBlocks_fst]
    exact h.freep
  · rw [freeBlocks_fst]
    exact h.sorted
  · exact h.size _ (mem_freeBlocks.mp hx)
  · exact h.apart.not_adjacent h.tiles (mem_freeBlocks.mp hx) (mem_freeBlocks.mp hy) rfl rfl

theorem Ready.tiles (h : Ready L s T) : L.Tiled T s.brk := by
  rcases h with ⟨-, hbrk, rfl⟩ | h
  · exact hbrk.symm
  · exact h.tiles

namespace Held

variable {c : Client}

/-- The blocks that the program holds are those of the tiling that were handed out. -/
theorem live_perm (h : Held L c T) :
    (c.live.map c.extent).Perm
      ((T.filter fun b => !b.free).map fun b => (b.addr, b.bytes)) := by
  have hext {x : Nat × Nat} (hx : x ∈ c.live) :
      ∃ b ∈ T, b.free = false ∧ x.1 = b.addr + 8 ∧ c.extent x = (b.addr, b.bytes) := by
    obtain ⟨a, u, hb, haddr, -⟩ := h.live x hx
    have hsize : (c.heap.mem a).size = u := (h.rep_of_mem hb).size _ hb
    exact ⟨_, hb, rfl, haddr, by simp [Client.extent, haddr, hsize, Block.bytes]⟩
  refine (List.perm_ext_iff_of_nodup ?_ ?_).mpr fun y => ?_
  · refine (h.nodup.of_map _).map_on fun x hx y hy heq => ?_
    obtain ⟨b, -, -, hxb, hxe⟩ := hext hx
    obtain ⟨d, -, -, hyd, hye⟩ := hext hy
    have : b.addr = d.addr := congrArg Prod.fst (hxe.symm.trans (heq.trans hye))
    exact List.inj_on_of_nodup_map h.nodup hx hy (by omega)
  · refine List.Nodup.map_on (fun x hx y hy heq => ?_) (h.ready.tiles.nodup.filter _)
    exact h.ready.tiles.eq_of_start_eq (List.mem_of_mem_filter hx) (List.mem_of_mem_filter hy)
      (congrArg Prod.fst heq)
  · simp only [List.mem_map, List.mem_filter]
    constructor
    · rintro ⟨x, hx, rfl⟩
      obtain ⟨b, hb, hfree, -, hxe⟩ := hext hx
      exact ⟨b, ⟨hb, by simp [hfree]⟩, hxe.symm⟩
    · rintro ⟨b, ⟨hb, hfree⟩, rfl⟩
      obtain ⟨x, hx, heq⟩ := List.mem_map.mp (h.used b hb (by simpa using hfree))
      obtain ⟨d, hd, -, haddr, hxe⟩ := hext hx
      have : b = d := h.ready.tiles.eq_of_start_eq hb hd (by omega)
      exact ⟨x, hx, this ▸ hxe⟩

/-- All blocks, held or free, are the blocks of the tiling. -/
theorem blocks_perm (h : Held L c T) :
    (c.blocks (freeBlocks T)).Perm (T.map fun b => (b.addr, b.bytes)) := by
  have hsplit : (T.map fun b => (b.addr, b.bytes)).Perm
      ((T.filter fun b => !b.free).map (fun b => (b.addr, b.bytes)) ++
        (T.filter Block.free).map fun b => (b.addr, b.bytes)) := by
    rw [← List.map_append]
    exact ((List.filter_append_perm _ T).symm.trans List.perm_append_comm).map _
  refine (List.Perm.trans ?_ hsplit.symm)
  refine (h.live_perm).append (List.Perm.of_eq ?_)
  simp [freeBlocks, Block.bytes]

theorem safe (h : Held L c T) : Safe L c (freeBlocks T) := by
  have hperm := h.blocks_perm
  have hmem {x : Nat × Nat} : x ∈ c.blocks (freeBlocks T) ↔ ∃ b ∈ T, (b.addr, b.bytes) = x := by
    rw [hperm.mem_iff, List.mem_map]
  refine ⟨?_, fun x hx => ?_, ?_, fun x hx => ?_, fun i hlo hhi => ?_⟩
  · rcases h.ready with ⟨hfreep, -, rfl⟩ | hrep
    · exact .inl ⟨hfreep, rfl⟩
    · exact .inr hrep.freeList
  · obtain ⟨a, u, hb, haddr, hle⟩ := h.live x hx
    have hsize : (c.heap.mem a).size = u := (h.rep_of_mem hb).size _ hb
    exact ⟨by omega, by simpa [Client.extent, haddr, hsize] using hle⟩
  · refine (hperm.pairwise_iff fun hxy => hxy.symm).mpr (List.pairwise_map.mpr ?_)
    exact h.ready.tiles.pairwise.imp .inl
  · obtain ⟨b, hb, rfl⟩ := hmem.mp hx
    have := h.ready.tiles.bounds hb
    have := L.base_lt
    simp only
    omega
  · obtain ⟨b, ⟨hb, hin⟩, huniq⟩ := h.ready.tiles.existsUnique hlo hhi
    refine ⟨(b.addr, b.bytes), ⟨hmem.mpr ⟨b, hb, rfl⟩, hin⟩, ?_⟩
    rintro y ⟨hy, hyin⟩
    obtain ⟨d, hd, rfl⟩ := hmem.mp hy
    rw [huniq d ⟨hd, hyin⟩]

end Held

/-- **Heap safety.**  In every run of a program on the heap the blocks that it holds and
the free ones, with their headers, are disjoint and cover what `sbrk` gave, and the free
list is a cycle in the order of addresses without adjacent blocks.  Every further call
returns. -/
theorem heap_safe {mem : Nat → Header} {es : List Call} {c : Client}
    (hrun : Run (Step L) (init L mem) es c) :
    (∃ F, Safe L c F) ∧
      (∀ nbytes grant, rounded nbytes < 2 ^ 31 → ∃ c', Step L c (.malloc nbytes grant) c') ∧
      ∀ p ∈ c.live.map Prod.fst, ∃ c', Step L c (.free p) c' := by
  obtain ⟨T, h⟩ := Held.run hrun
  refine ⟨⟨_, h.safe⟩, fun nbytes grant hsize => ?_, fun p hp => ?_⟩
  · obtain ⟨r, heap, hok, -⟩ := wp_total (h.ready.wp_malloc_small grant hsize)
    cases r with
    | none => exact ⟨_, .mallocNull hsize hok⟩
    | some p => exact ⟨_, .malloc hsize hok⟩
  · obtain ⟨x, hx, rfl⟩ := List.mem_map.mp hp
    obtain ⟨a, u, hb, haddr, -⟩ := h.live x hx
    have hrep := h.rep_of_mem hb
    obtain ⟨X, Y, rfl⟩ := List.append_of_mem hb
    obtain ⟨_, heap, hok, -⟩ := wp_total hrep.free
    exact ⟨_, .free hp (haddr ▸ hok)⟩

/-- A program whose heap starts at the second page. -/
def small : Layout := ⟨8, 4096, by decide, by decide, by decide⟩

theorem heap_safe_small : ∃ c, c.live = [(36848, 16)] ∧
    Run (Step small) (init small fun _ => ⟨0, 0⟩) [.malloc 16 true] c ∧ (∃ F, Safe small c F) ∧
    ∃ c', Step small c (.free 36848) c' := by
  obtain ⟨heap, hok⟩ : ∃ heap, malloc small true 16 (init small fun _ => ⟨0, 0⟩).heap =
      .ok (some 36848, heap) := by
    have hret : ((malloc small true 16 (init small fun _ => ⟨0, 0⟩).heap).map Prod.fst).toOption =
        some (some 36848) := by decide +kernel
    cases hx : malloc small true 16 (init small fun _ => ⟨0, 0⟩).heap with
    | error e => simp [hx, Except.map, Except.toOption] at hret
    | ok x => exact ⟨x.2, by simpa [hx, Except.map, Except.toOption, Prod.ext_iff] using hret⟩
  have hrun := Run.single (Step.malloc (L := small) (by decide) hok)
  obtain ⟨hsafe, -, hfree⟩ := heap_safe hrun
  exact ⟨_, rfl, hrun, hsafe, hfree 36848 (by simp)⟩

/-! ## Sizes -/

/-- What `malloc(nbytes)` may do from `s`: call `sbrk` with amounts that are not negative,
and return nothing or a block inside the heap with `nbytes` bytes after its header. -/
def Good (s : Heap) (nbytes : Nat) (r : Option Nat) (s' : Heap) : Prop :=
  (∃ new, s'.sbrks = s.sbrks ++ new ∧ ∀ i ∈ new, 0 ≤ i) ∧
    ∀ p ∈ r, 8 ≤ p ∧ nbytes + 8 ≤ 8 * (s'.mem (p - 8)).size ∧
      p - 8 + 8 * (s'.mem (p - 8)).size ≤ s'.brk

/-- `malloc(nbytes)` returns, and does what it may. -/
def Serves (L : Layout) (s : Heap) (grant : Bool) (nbytes : Nat) : Prop :=
  ∃ r s', malloc L grant nbytes s = .ok (r, s') ∧ Good s nbytes r s'

/-- Some block on the free list has `n` units. -/
def Heap.Fits (L : Layout) (s : Heap) (n : Nat) : Prop :=
  s.freep ≠ 0 ∧ ∃ xs a, Seg s.next L.base xs a ∧ n ≤ (s.mem a).size

/-- The sizes for which `malloc` does well.  A size that does not wrap when it is rounded
up must be positive as an `int`, or be served by the free list; or be 2^32, with the break
where `sbrk(0)` is taken for a failure.  A size that wraps is taken for one unit, and
nothing may be left to serve that. -/
def Sized (L : Layout) (s : Heap) (nbytes : Nat) : Prop :=
  if nbytes + 7 < uintSize then
    rounded nbytes < 2 ^ 31 ∨ s.Fits L (nunits nbytes) ∨ rounded nbytes = uintSize ∧ s.brk = failed
  else ¬ s.Fits L 1 ∧ uintSize ≤ s.brk + 8 * 4096

theorem serves_iff_wp :
    Serves L s grant nbytes ↔ wp (malloc L grant nbytes) (Good s nbytes) (fun _ => False) s := by
  constructor
  · rintro ⟨r, s', hrun, hgood⟩
    exact wp_of_run hrun hgood
  · intro h
    exact wp_total h

theorem Ready.fits_iff (h : Ready L s T) (hn : 0 < n) : s.Fits L n ↔ Has T n := by
  rcases h with ⟨hfreep, -, rfl⟩ | h
  · simp [Heap.Fits, hfreep, Has]
  · constructor
    · rintro ⟨-, xs, a, hseg, hle⟩
      rcases List.mem_cons.mp (h.cycle.mem_of_closed (by simp) hseg) with rfl | ha
      · rw [h.base] at hle
        omega
      · obtain ⟨u, hu⟩ := mem_frees.mp ha
        exact ⟨_, hu, rfl, h.size _ hu ▸ hle⟩
    · rintro ⟨b, hb, hfree, hle⟩
      have hmem : b.addr ∈ L.base :: frees T :=
        List.mem_cons_of_mem _ (List.mem_map_of_mem (List.mem_filter.mpr ⟨hb, hfree⟩))
      obtain ⟨xs, hseg, -⟩ := h.cycle.path (x := L.base) (by simp) hmem
      exact ⟨h.freep_ne_zero, xs, b.addr, hseg, by rwa [h.size b hb]⟩

/-- A new block of `n` units is good for so many bytes and no more. -/
theorem Rep.good_iff {s' : Heap} {T' : List Block} (h : Rep L s' T') (hgrants : Grants T n a T')
    (hnew : ∃ new, s'.sbrks = s.sbrks ++ new ∧ ∀ i ∈ new, 0 ≤ i) :
    Good s nbytes (some (a + 8)) s' ↔ nbytes + 8 ≤ 8 * n := by
  have hmem : (⟨a, n, false⟩ : Block) ∈ T' := (hgrants.2 _ rfl).mpr (.inr rfl)
  have hsize : (s'.mem (a + 8 - 8)).size = n := h.size _ hmem
  have hend : a + 8 * n ≤ s'.brk := (h.tiles.bounds hmem).2.2
  simp only [Good, hnew, true_and, Option.mem_def, Option.some.injEq, forall_eq', hsize]
  omega

theorem good_none {s' : Heap} (hnew : ∃ new, s'.sbrks = s.sbrks ++ new ∧ ∀ i ∈ new, 0 ≤ i) :
    Good s nbytes none s' :=
  ⟨hnew, by simp⟩

/-! ### A block that is there -/

theorem Ready.serves_fit (h : Ready L s T) (hwrap : nbytes + 7 < uintSize)
    (hfit : Has T (nunits nbytes)) : Serves L s grant nbytes := by
  obtain ⟨s0, hrep, -, hsbrks0, heq⟩ := h.wp_malloc grant nbytes
  rw [serves_iff_wp, heq]
  refine wp_post (hrep.wp_fit (nunits_pos nbytes) (by omega) hfit) ?_
  rintro r s' ⟨a, T', rfl, hrep', hgrants, hsbrks⟩
  exact (hrep'.good_iff hgrants ⟨[], by simp [hsbrks, hsbrks0], by simp⟩).mpr (nunits_eq hwrap).2

/-! ### Sizes that are positive as an `int` -/

/-- A number of units that is positive as an `int`, whether the size wrapped or not: a block
of so many units is returned if there is one or `sbrk` succeeds. -/
theorem Ready.serves_small_iff (h : Ready L s T) (grant : Bool) (hlt : 8 * nunits nbytes < 2 ^ 31) :
    Serves L s grant nbytes ↔
      (Has T (nunits nbytes) ∨ grant ∧ s.brk + 8 * coreUnits (nunits nbytes) < uintSize →
        nbytes + 8 ≤ 8 * nunits nbytes) := by
  obtain ⟨s0, hrep, hbrk, hsbrks, heq⟩ := h.wp_malloc grant nbytes
  obtain ⟨r, s', hok, hnew, hcase⟩ :=
    wp_total (hrep.wp_serve grant (nunits_pos nbytes) hlt)
  rw [hsbrks] at hnew
  rw [hbrk] at hcase
  have hwp : Serves L s grant nbytes ↔ Good s nbytes r s' := by
    rw [serves_iff_wp, heq]
    exact ⟨fun h => wp_ok h hok, wp_of_run hok⟩
  rw [hwp]
  rcases hcase with ⟨⟨a, T', rfl, hrep', hgrants⟩, hserved⟩ | ⟨rfl, -, hnone, hroom⟩
  · rw [hrep'.good_iff hgrants hnew]
    exact ⟨fun h _ => h, fun h => h hserved⟩
  · exact ⟨fun _ hserved => (hserved.elim hnone hroom).elim, fun _ => good_none hnew⟩

/-! ### Sizes that are not -/

/-- What `sbrk` was called with is kept. -/
def Recorded (s s' : Heap) : Prop := s.sbrks <+: s'.sbrks

instance : IsPreorder Heap Recorded where
  refl _ := List.prefix_rfl
  trans _ _ _ h h' := h.trans h'

theorem along_load (a : Nat) : Along Recorded (load L a) :=
  .bind .get fun _ => .ite (.pure _) (.throw _)

theorem along_store (a : Nat) (x : Header) : Along Recorded (store L a x) := by
  intro s
  by_cases howned : L.Owned s.brk a
  · exact (wp_store howned ..).mpr List.prefix_rfl
  · simp [store, howned]

theorem along_freeLoop (bp n p : Nat) : Along Recorded (freeLoop L bp n p) := by
  induction n generalizing p with
  | zero => exact .throw _
  | succ n ih => exact .bind (along_load p) fun _ => .ite (.pure _) (.ite (.pure _) (ih _))

theorem along_joinUpper (bp next : Nat) : Along Recorded (joinUpper L bp next) :=
  .bind (along_load _) fun _ =>
    .ite (.bind (along_load _) fun _ => along_store _ _) (along_store _ _)

theorem along_joinLower (p bp : Nat) : Along Recorded (joinLower L p bp) :=
  .bind (along_load _) fun _ =>
    .ite (.bind (along_load _) fun _ => along_store _ _) (along_store _ _)

theorem along_free (ap : Nat) : Along Recorded (free L ap) :=
  .bind .get fun _ => .bind (along_freeLoop _ _ _) fun _ => .bind (along_load _) fun _ =>
    .bind (along_joinUpper _ _) fun _ => .bind (along_joinLower _ _) fun _ =>
      .modify fun _ => List.prefix_rfl

/-- `sbrk` records its argument. -/
theorem wp_sbrk_recorded (grant : Bool) (n : Int) (F : Stop → Prop) :
    wp (sbrk grant n) (fun _ s' => s'.sbrks = s.sbrks ++ [n]) F s := by
  simp only [sbrk, wp_bind, wp_get, wp_ite, wp_set, wp_pure]
  split_ifs

/-- The part of `morecore` after the call of `sbrk`. -/
theorem along_addCore (hp nu : Nat) :
    Along Recorded (if hp = failed then pure none else do
      let h ← load L hp
      store L hp { h with size := nu }
      free L (hp + 8)
      let s ← get
      pure (some s.freep)) :=
  .ite (.pure _) (.bind (along_load _) fun _ => .bind (along_store _ _) fun _ =>
    .bind (along_free _) fun _ => .bind .get fun _ => .pure _)

theorem along_morecore (grant : Bool) (nu : Nat) : Along Recorded (morecore L grant nu) :=
  .bind (fun _ => wp_post (wp_sbrk_recorded grant _ _) fun _ _ h => ⟨_, h.symm⟩) fun _ =>
    along_addCore _ _

theorem along_take (n q p : Nat) (x : Header) : Along Recorded (take L n q p x) :=
  .ite
    (.bind (along_load _) fun _ => .bind (along_store _ _) fun _ => .bind (.pure _) fun _ =>
      .bind (.modify fun _ => List.prefix_rfl) fun _ => .pure _)
    (.bind (along_store _ _) fun _ => .bind (along_load _) fun _ => .bind (along_store _ _) fun _ =>
      .bind (.pure _) fun _ => .bind (.modify fun _ => List.prefix_rfl) fun _ => .pure _)

theorem along_mallocLoop (grant : Bool) (n fuel q p : Nat) :
    Along Recorded (mallocLoop L grant n fuel q p) := by
  induction fuel generalizing q p with
  | zero => exact .throw _
  | succ fuel ih =>
    refine .bind (along_load _) fun _ => .ite (.bind (along_take _ _ _ _) fun _ => .pure _)
      (.bind .get fun _ => .ite (.bind (along_morecore _ _) fun r => ?_) (ih _ _))
    cases r with
    | none => exact .pure _
    | some p => exact .bind (along_load _) fun _ => ih _ _

/-- A request that no free block can serve passes its size to `sbrk`. -/
theorem Rep.wp_asks (h : Rep L s T) (grant : Bool) (hn : 0 < n) (hnone : ¬ Has T n) :
    wp (mallocLoop L grant n (2 * rounds) s.freep (s.next s.freep))
      (fun _ s' => s.sbrks ++ [toInt (coreUnits n * 8 % uintSize)] <+: s'.sbrks)
      (fun _ => True) s := by
  obtain ⟨fuel, -, heq⟩ := h.wp_no_fit grant hn (show rounds ≤ 2 * rounds by omega) hnone
  rw [heq, morecore, wp_bind]
  refine wp_post (wp_sbrk_recorded grant _ _) fun hp s1 h1 => ?_
  rw [← h1]
  refine wp_post (along_addCore hp (coreUnits n) s1) fun r s2 h2 => ?_
  cases r with
  | none => exact h2
  | some p =>
    exact wp_post (along_load p s2) fun x s3 h3 =>
      wp_post (along_mallocLoop grant n fuel p x.ptr s3) fun _ _ h4 => h2.trans (h3.trans h4)

/-- A size that is negative as an `int`. -/
theorem Ready.not_serves_negative (h : Ready L s T) (grant : Bool)
    (hlo : 2 ^ 31 ≤ 8 * nunits nbytes) (hhi : 8 * nunits nbytes < uintSize)
    (hnone : ¬ Has T (nunits nbytes)) : ¬ Serves L s grant nbytes := by
  obtain ⟨s0, hrep, -, hsbrks, heq⟩ := h.wp_malloc grant nbytes
  have hneg : toInt (coreUnits (nunits nbytes) * 8 % uintSize) < 0 := by
    rw [coreUnits, if_neg (by omega), Nat.mul_comm, Nat.mod_eq_of_lt hhi, toInt,
      if_neg (by omega)]
    omega
  rw [serves_iff_wp, heq]
  intro hserves
  obtain ⟨r, s', hok, ⟨new, hnew, hpos⟩, -⟩ := wp_total hserves
  obtain ⟨rest, hasks⟩ := wp_ok (hrep.wp_asks grant (nunits_pos nbytes) hnone) hok
  rw [hnew, hsbrks, List.append_assoc, List.append_cancel_left_eq] at hasks
  have := hpos _ (by rw [← hasks]; exact List.mem_append_left _ (List.mem_singleton_self _))
  omega

/-- A size of 2^32, for which `sbrk` is called with 0. -/
theorem Ready.serves_zero_iff (h : Ready L s T) (hzero : 8 * nunits nbytes = uintSize)
    (hnone : ¬ Has T (nunits nbytes)) : Serves L s grant nbytes ↔ s.brk = failed := by
  obtain ⟨s0, hrep, hbrk, hsbrks, heq⟩ := h.wp_malloc grant nbytes
  obtain ⟨fuel, -, heq'⟩ :=
    hrep.wp_no_fit grant (nunits_pos nbytes) (show rounds ≤ 2 * rounds by omega) hnone
  have hint : toInt (coreUnits (nunits nbytes) * 8 % uintSize) = 0 := by
    rw [coreUnits, if_neg (by rw [uintSize_eq] at hzero; omega), Nat.mul_comm, hzero, Nat.mod_self]
    rfl
  have hnew : ((s0.brk + (0 : Int)) % uintSize).toNat = s0.brk := by
    rw [Int.add_zero, ← Int.natCast_mod, Int.toNat_natCast, Nat.mod_eq_of_lt hrep.top]
  have howned : ¬ L.Owned s0.brk s0.brk := by
    have := L.base_lt
    have := hrep.tiles.le
    rintro (hbase | ⟨-, hend, -⟩) <;> omega
  rw [serves_iff_wp, heq, heq', morecore, hint, ← hbrk]
  simp only [sbrk, wp_bind, wp_get, wp_ite, wp_set, wp_pure, hnew]
  rw [if_neg (by omega), if_pos (Nat.le_refl _)]
  by_cases hfailed : s0.brk = failed
  · simp only [hfailed, if_true, iff_true]
    exact good_none ⟨[0], by simp [hsbrks], by simp⟩
  · simp [hfailed, load, howned]

/-- `malloc` does well for exactly the sizes `Sized`, in every state that a program
reaches. -/
theorem malloc_serves_iff {mem : Nat → Header} {es : List Call} {c : Client} {nbytes : Nat}
    (hrun : Run (Step L) (init L mem) es c) (hbytes : nbytes < uintSize) :
    (∀ grant, Serves L c.heap grant nbytes) ↔ Sized L c.heap nbytes := by
  obtain ⟨T, hheld⟩ := Held.run hrun
  have h := hheld.ready
  rw [Sized, h.fits_iff (nunits_pos nbytes), h.fits_iff Nat.one_pos]
  split
  · next hwrap =>
    obtain ⟨hunits, hroom⟩ := nunits_eq hwrap
    by_cases hsmall : rounded nbytes < 2 ^ 31
    · simp only [hsmall, true_or, iff_true]
      exact fun grant => (h.serves_small_iff grant (by omega)).mpr fun _ => hroom
    by_cases hfit : Has T (nunits nbytes)
    · simp only [hfit, true_or, or_true, iff_true]
      exact fun grant => h.serves_fit hwrap hfit
    simp only [hsmall, hfit, false_or]
    have hle : rounded nbytes ≤ uintSize := by
      rw [rounded]
      rw [uintSize_eq] at *
      omega
    rcases Nat.lt_or_eq_of_le hle with hlt | heq
    · have hno := h.not_serves_negative true (by omega) (by omega) hfit
      simp only [Nat.ne_of_lt hlt, false_and, iff_false]
      exact fun hall => hno (hall true)
    · simp only [heq, true_and]
      exact ⟨fun hall => (h.serves_zero_iff (by omega) hfit).mp (hall true),
        fun hfailed grant => (h.serves_zero_iff (by omega) hfit).mpr hfailed⟩
  · next hwrap =>
    -- the sum wraps to less than 8, so that one unit is asked for
    have hone : nunits nbytes = 1 := by
      rw [nunits.eq_def, uintSize_eq]
      rw [uintSize_eq] at hwrap hbytes
      omega
    have hcore : coreUnits 1 = 4096 := rfl
    have hserves (grant : Bool) :=
      h.serves_small_iff grant (show 8 * nunits nbytes < 2 ^ 31 by rw [hone]; decide)
    have hno : ¬ nbytes + 8 ≤ 8 * 1 := by
      rw [uintSize_eq] at hwrap
      omega
    simp only [hone, hcore, hno, imp_false, not_or, not_and] at hserves
    simp only [hserves, ← Nat.not_lt]
    exact ⟨fun hall => ⟨(hall true).1, (hall true).2 rfl⟩, fun hall _ => ⟨hall.1, fun _ => hall.2⟩⟩

theorem malloc_serves_hundred :
    Sized small (init small fun _ => ⟨0, 0⟩).heap 100 ∧
      ∀ grant, Serves small (init small fun _ => ⟨0, 0⟩).heap grant 100 := by
  have hsized : Sized small (init small fun _ => ⟨0, 0⟩).heap 100 := .inl (by decide)
  exact ⟨hsized, (malloc_serves_iff .nil (by decide)).mpr hsized⟩

/-- At the start of a program `malloc(4294967295)` returns a block of one unit, its header. -/
theorem malloc_wraps :
    ((malloc small true 4294967295 (init small fun _ => ⟨0, 0⟩).heap).map fun x =>
      (x.1, (x.2.mem (36864 - 8)).size)).toOption = some (some 36864, 1) := by
  decide +kernel

end Xv6.Umalloc

import Xv6.User.Memmove

/-!
# The multiprocessor tables (`mp.c`)

The firmware leaves a floating pointer structure in low memory.  It points to a
configuration table: a header, and entries that have their type in their first byte.
`mpinit` walks the entries with a raw pointer.  An entry of a known type advances the
pointer by its size.  For any other type `break` leaves the `switch` only, and the
loop comes back to the same entry.

The bytes are the firmware's, so the loop runs with a bound on its rounds: `none` is
a loop that has not ended yet.  `Laid` is a table made of known entries, and `Meets`
a table with another entry behind known ones.
-/

namespace Xv6.Mp

/-! ## Finding the table -/

/-- `P2V` of a pointer. -/
def kernel (a : Word) : Word := a + BitVec.ofNat 32 kernbase

/-- `n` bytes at a pointer. -/
def bytes (m : Ram) (p : Word) (n : Nat) : List Byte := (List.range n).map fun i => m (ptr p i)

/-- The `ushort` at a pointer. -/
def ushort (m : Ram) (p : Word) : BitVec 16 := m (ptr p 1) ++ m p

/-- The `uint` at a pointer. -/
def uint (m : Ram) (p : Word) : Word := ushort m (ptr p 2) ++ ushort m p

/-- `sum`, in the `uchar` it returns. -/
def sum (m : Ram) (p : Word) (n : Nat) : Byte := (bytes m p n).foldl (· + ·) 0#8

/-- `memcmp(p, s, strlen(s)) == 0` -/
def isText (m : Ram) (p : Word) (s : String) : Bool :=
  bytes m p s.length == s.toList.map fun c => BitVec.ofNat 8 c.toNat

/-- `sizeof(struct mp)` -/
def mpSize : Nat := 16

/-- The loop of `mpsearch1`, for `n` structures at most. -/
def searchLoop (m : Ram) (e : Word) : Nat → Word → Option Word
  | 0, _ => none
  | n + 1, p =>
    if p < e then
      if isText m p "_MP_" && sum m p mpSize == 0#8 then some p
      else searchLoop m e n (ptr p mpSize)
    else none

/-- Look for an MP structure in the `len` bytes at `a`. -/
def mpsearch1 (m : Ram) (a : Word) (len : Nat) : Option Word :=
  searchLoop m (ptr (kernel a) len) (len / mpSize + 1) (kernel a)

/-- The EBDA or the end of base memory, then the BIOS ROM. -/
def mpsearch (m : Ram) : Option Word :=
  let bda := kernel 0x400#32
  let ebda := (ushort m (ptr bda 0x0E)).setWidth 32 <<< 4
  let base := (ushort m (ptr bda 0x13)).setWidth 32 * 1024#32
  (if ebda ≠ 0#32 then mpsearch1 m ebda 1024 else mpsearch1 m (base - 1024#32) 1024) <|>
    mpsearch1 m 0xF0000#32 0x10000

/-- `conf->length` -/
def confLength (m : Ram) (conf : Word) : Nat := (ushort m (ptr conf 4)).toNat

/-- The MP structure and the configuration table, if its signature, version and
checksum are right. -/
def mpconfig (m : Ram) : Option (Word × Word) := do
  let mp ← mpsearch m
  if uint m (ptr mp 4) = 0#32 then none
  else
    let conf := kernel (uint m (ptr mp 4))
    if !isText m conf "PCMP" then none
    else if m (ptr conf 6) ≠ 1#8 ∧ m (ptr conf 6) ≠ 4#8 then none
    else if sum m conf (confLength m conf) ≠ 0#8 then none
    else some (mp, conf)

/-! ## Walking the entries -/

/-- The entry types of `mp.h`. -/
inductive Kind where
  | proc
  | bus
  | ioapic
  | iointr
  | lintr
deriving DecidableEq, Repr

/-- The type in a byte. -/
def kind (b : Byte) : Option Kind :=
  [.proc, .bus, .ioapic, .iointr, .lintr][b.toNat]?

/-- The bytes of an entry. -/
def Kind.size : Kind → Nat
  | .proc => 20
  | .ioapic => 8
  | .bus | .iointr | .lintr => 8

/-- `NCPU`. -/
def maxCpus : Nat := 8

/-- The globals that `mpinit` sets. -/
structure Globals where
  ncpu : Nat
  /-- `cpus[i].apicid` -/
  apicid : Nat → Byte
  ioapicid : Byte
  lapic : Word

/-- The variables of the loop. -/
structure Scan where
  p : Word
  ismp : Bool
  globals : Globals

/-- `if(ncpu < NCPU) { cpus[ncpu].apicid = apicid; ncpu++; }` -/
def Globals.addCpu (g : Globals) (apicid : Byte) : Globals :=
  if g.ncpu < maxCpus then
    { g with apicid := Function.update g.apicid g.ncpu apicid, ncpu := g.ncpu + 1 }
  else g

/-- What an entry of a known type at `p` tells. -/
def Globals.record (g : Globals) (m : Ram) (p : Word) : Kind → Globals
  | .proc => g.addCpu (m (ptr p 1))
  | .ioapic => { g with ioapicid := m (ptr p 1) }
  | .bus | .iointr | .lintr => g

/-- The `switch`. -/
def scanStep (m : Ram) (s : Scan) : Scan :=
  match kind (m s.p) with
  | some k => { s with p := ptr s.p k.size, globals := s.globals.record m s.p k }
  | none => { s with ismp := false }

/-- The loop of `mpinit`, for fewer than `fuel` rounds. -/
def scanLoop (m : Ram) (e : Word) : Nat → Scan → Option Scan
  | 0, _ => none
  | fuel + 1, s => if s.p < e then scanLoop m e fuel (scanStep m s) else some s

/-- The first entry, after the header. -/
def entries (conf : Word) : Word := ptr conf 44

/-- The end of the table. -/
def tableEnd (m : Ram) (conf : Word) : Word := ptr conf (confLength m conf)

/-- `mpinit`, which reads `imcr` from port 0x23.  Leaves the globals, and a panic or
what it wrote to ports. -/
def mpinit (m : Ram) (g : Globals) (imcr : Byte) (fuel : Nat) :
    Option (Globals × Except String (List (Nat × Byte))) :=
  match mpconfig m with
  | none => some (g, .error "Expect to run on an SMP")
  | some (mp, conf) => do
    let s ← scanLoop m (tableEnd m conf) fuel
      ⟨entries conf, true, { g with lapic := uint m (ptr conf 36) }⟩
    some (s.globals,
      if !s.ismp then .error "Didn't find a suitable machine"
      else if m (ptr mp 12) ≠ 0#8 then .ok [(0x22, 0x70#8), (0x23, imcr ||| 1#8)]
      else .ok [])

/-! ## Tables -/

variable {m : Ram} {e : Word}

/-- From `p` to `e` there are entries of known types, one behind the other. -/
inductive Laid (m : Ram) (e : Word) : Word → List Kind → Prop where
  | nil {p : Word} : ¬ p < e → Laid m e p []
  | cons {p : Word} {k : Kind} {ks : List Kind} : p < e → kind (m p) = some k →
      Laid m e (ptr p k.size) ks → Laid m e p (k :: ks)

/-- Behind known entries there is one of an unknown type. -/
inductive Meets (m : Ram) (e : Word) : Word → Prop where
  | here {p : Word} : p < e → kind (m p) = none → Meets m e p
  | next {p : Word} {k : Kind} : p < e → kind (m p) = some k → Meets m e (ptr p k.size) → Meets m e p

theorem Laid.not_meets {p : Word} {ks : List Kind} (h : Laid m e p ks) : ¬ Meets m e p := by
  induction h with
  | nil hp =>
    intro hm
    cases hm with
    | here hlt => exact hp hlt
    | next hlt => exact hp hlt
  | cons hp hk _ ih =>
    intro hm
    cases hm with
    | here _ hk' => rw [hk] at hk'; cases hk'
    | next _ hk' hm =>
      rw [hk] at hk'
      cases hk'
      exact ih hm

/-- A table that does not reach the end of the address space is one or the other. -/
theorem laid_iff (he : e.toNat + Kind.proc.size ≤ 2 ^ 32) (p : Word) :
    (∃ ks, Laid m e p ks) ↔ ¬ Meets m e p := by
  refine ⟨fun ⟨_, h⟩ => h.not_meets, ?_⟩
  induction hn : e.toNat - p.toNat using Nat.strong_induction_on generalizing p with
  | _ n ih =>
    intro hnot
    by_cases hp : p < e
    · cases hk : kind (m p) with
      | none => exact absurd (.here hp hk) hnot
      | some k =>
        have hsize : 0 < k.size ∧ k.size ≤ Kind.proc.size := by cases k <;> decide
        have hlt : p.toNat < e.toNat := hp
        have hnext : (ptr p k.size).toNat = p.toNat + k.size := ptr_toNat (by omega)
        obtain ⟨ks, hks⟩ := ih _ (by omega) (ptr p k.size) rfl fun h => hnot (.next hp hk h)
        exact ⟨k :: ks, .cons hp hk hks⟩
    · exact ⟨[], .nil hp⟩

/-! ## The loop -/

theorem record_ncpu_le {g : Globals} (h : g.ncpu ≤ maxCpus) (p : Word) (k : Kind) :
    (g.record m p k).ncpu ≤ maxCpus := by
  cases k with
  | proc =>
    rw [Globals.record, Globals.addCpu]
    split
    · assumption
    · exact h
  | _ => exact h

/-- Known entries are left behind one by one. -/
theorem Laid.scanLoop {p : Word} {ks : List Kind} (h : Laid m e p ks) (ismp : Bool) (g : Globals)
    (hg : g.ncpu ≤ maxCpus) : ∃ g' p', g'.ncpu ≤ maxCpus ∧
      Mp.scanLoop m e (ks.length + 1) ⟨p, ismp, g⟩ = some ⟨p', ismp, g'⟩ := by
  induction h generalizing g with
  | nil hp => exact ⟨g, _, hg, if_neg hp⟩
  | @cons p k ks hp hk _ ih =>
    have hstep : scanStep m ⟨p, ismp, g⟩ = ⟨ptr p k.size, ismp, g.record m p k⟩ := by
      rw [scanStep, hk]
    obtain ⟨g', p', hg', hrun⟩ := ih (g.record m p k) (record_ncpu_le hg p k)
    exact ⟨g', p', hg', (if_pos hp).trans (by rw [hstep]; exact hrun)⟩

/-- At an unknown entry the loop stays. -/
theorem scanLoop_unknown {s : Scan} (hp : s.p < e) (hk : kind (m s.p) = none) (fuel : Nat) :
    scanLoop m e fuel s = none := by
  induction fuel generalizing s with
  | zero => rfl
  | succ fuel ih =>
    have hstep : scanStep m s = { s with ismp := false } := by rw [scanStep, hk]
    rw [scanLoop, if_pos hp, hstep]
    exact ih hp hk

/-- A loop that ended has passed known entries only. -/
theorem laid_of_scanLoop {fuel : Nat} {s s' : Scan} (h : scanLoop m e fuel s = some s') :
    ∃ ks, Laid m e s.p ks := by
  induction fuel generalizing s with
  | zero => cases h
  | succ fuel ih =>
    by_cases hp : s.p < e
    · cases hk : kind (m s.p) with
      | none => rw [scanLoop_unknown hp hk] at h; cases h
      | some k =>
        rw [scanLoop, if_pos hp, scanStep, hk] at h
        obtain ⟨ks, hks⟩ := ih h
        exact ⟨k :: ks, .cons hp hk hks⟩
    · exact ⟨[], .nil hp⟩

/-- For every table that `mpconfig` accepts: the scan ends, with at most `NCPU`
processors and the panic about the machine if there is an unknown entry, if and only
if the table is made of known entries. -/
theorem mpinit_ends_iff (m : Ram) (g : Globals) (imcr : Byte) (hg : g.ncpu ≤ maxCpus)
    (mp conf : Word) (hconf : mpconfig m = some (mp, conf)) :
    (∃ fuel g' r, mpinit m g imcr fuel = some (g', r) ∧ g'.ncpu ≤ maxCpus ∧
      (Meets m (tableEnd m conf) (entries conf) → r = .error "Didn't find a suitable machine")) ↔
      ∃ ks, Laid m (tableEnd m conf) (entries conf) ks := by
  simp only [mpinit, hconf]
  constructor
  · rintro ⟨fuel, g', r, hrun, -⟩
    obtain ⟨s, hs, -⟩ := Option.bind_eq_some_iff.mp hrun
    exact laid_of_scanLoop hs
  · rintro ⟨ks, h⟩
    obtain ⟨g', p', hg', hrun⟩ :=
      h.scanLoop true { g with lapic := uint m (ptr conf 36) } hg
    exact ⟨ks.length + 1, g', _, Option.bind_eq_some_iff.mpr ⟨_, hrun, rfl⟩, hg',
      fun hm => absurd hm h.not_meets⟩

/-! ## A table of one entry -/

/-- The bytes `bs` at `p`. -/
def put (p : Word) (bs : List Byte) (m : Ram) : Ram := fun a => bs.getD (a - p).toNat (m a)

/-- The EBDA at 0x90000 holds an MP structure.  The table at 0x91000 has one entry, of
the type `t`. -/
def sampleRam (check t : Byte) : Ram :=
  put 0x8000040F#32 [0x90#8] <|
  put 0x80090000#32 [0x5F#8, 0x4D#8, 0x50#8, 0x5F#8, 0#8, 0x10#8, 9#8, 0#8, 1#8, 4#8, 0x87#8] <|
  put 0x80091000#32 ([0x50#8, 0x43#8, 0x4D#8, 0x50#8, 45#8, 0#8, 4#8, check] ++
    List.replicate 36 0#8 ++ [t]) fun _ => 0#8

/-- Before `mpinit`. -/
def noCpus : Globals := ⟨0, fun _ => 0#8, 0#8, 0#32⟩

theorem mpinit_ends_bus :
    mpconfig (sampleRam 0x9E#8 1#8) = some (0x80090000#32, 0x80091000#32) ∧
      ∃ fuel g' r, mpinit (sampleRam 0x9E#8 1#8) noCpus 0#8 fuel = some (g', r) ∧
        g'.ncpu ≤ maxCpus ∧
        (Meets (sampleRam 0x9E#8 1#8) (tableEnd (sampleRam 0x9E#8 1#8) 0x80091000#32)
          (entries 0x80091000#32) → r = .error "Didn't find a suitable machine") := by
  have hconf : mpconfig (sampleRam 0x9E#8 1#8) = some (0x80090000#32, 0x80091000#32) := by
    decide +kernel
  refine ⟨hconf, (mpinit_ends_iff _ noCpus 0#8 (by decide) _ _ hconf).mpr ⟨[.bus], ?_⟩⟩
  exact .cons (by decide +kernel) (by decide +kernel) (.nil (by decide +kernel))

/-- An entry of type 5. -/
theorem mpinit_endless :
    mpconfig (sampleRam 0x9A#8 5#8) = some (0x80090000#32, 0x80091000#32) ∧
      Meets (sampleRam 0x9A#8 5#8) (tableEnd (sampleRam 0x9A#8 5#8) 0x80091000#32)
        (entries 0x80091000#32) ∧
      ∀ fuel, mpinit (sampleRam 0x9A#8 5#8) noCpus 0#8 fuel = none := by
  have hconf : mpconfig (sampleRam 0x9A#8 5#8) = some (0x80090000#32, 0x80091000#32) := by
    decide +kernel
  have hlt : entries 0x80091000#32 < tableEnd (sampleRam 0x9A#8 5#8) 0x80091000#32 := by
    decide +kernel
  have hk : kind (sampleRam 0x9A#8 5#8 (entries 0x80091000#32)) = none := by decide +kernel
  refine ⟨hconf, .here hlt hk, fun fuel => ?_⟩
  rw [mpinit, hconf]
  exact Option.bind_eq_none_iff.mpr fun s hs => by
    rw [scanLoop_unknown hlt hk] at hs
    cases hs

end Xv6.Mp

import Challenges.Slab.Disjoint

/-!
# Accounting — the counters of the two versions

Every block of every region is live, free, or still to be cut, and the three
counters say how many of each there are. The C version hands out the pointer
behind the block it cuts: its blocks are those of regions that lie one block
further up, and the books are kept on these.
-/

namespace Challenges.Slab

open Challenges.Lib

/-- The counters agree with the blocks. -/
structure Exact (a : Sys) : Prop where
  inuse : a.world.f.inuse.toNat = a.live.length * a.world.f.size.toNat
  total : ∃ fl, Chain a.world.mem.load64 nil a.world.f.list fl ∧
    (a.live.length + fl.length) * a.world.f.size.toNat + a.world.f.nchunk.toNat
      = a.world.regions.length * a.world.f.nalloc.toNat
  dvd : a.world.f.size.toNat ∣ a.world.f.nchunk.toNat

/-- Nothing is subtracted from a counter that is smaller, and a chunk is asked
for only when no block is left. -/
structure Thrifty (rt : Runtime) (a : Sys) (op : Op) (b : Sys) : Prop where
  inuse : ∀ p, op = .free p → a.world.f.size ≤ a.world.f.inuse
  nchunk : op = .alloc → a.world.f.list = nil →
    a.world.f.size.toNat ≤ (a.world.refilled rt).f.nchunk.toNat
  region : b.world.regions ≠ a.world.regions → a.world.f.list = nil ∧ a.world.f.nchunk = 0

/-- The memory of a process lies in the lower half of the address space. -/
def UserSpace (rs : List Region) : Prop := ∀ r ∈ rs, r.stop ≤ 2 ^ 63

instance (rs : List Region) : Decidable (UserSpace rs) :=
  inferInstanceAs (Decidable (∀ r ∈ rs, r.stop ≤ 2 ^ 63))

/-! ## Regions further up -/

def Region.shifted (d : UInt64) (r : Region) : Region := ⟨r.addr + d, r.size⟩

/-- The world with its regions, and the rest of its chunk, `d` bytes further
up. -/
def World.shifted (d : UInt64) (w : World) : World :=
  { w with
    f := { w.f with chunk := w.f.chunk + d }
    regions := w.regions.map (Region.shifted d) }

section Shifted

variable {d : UInt64} {rs : List Region} {r : Region}

theorem Region.shifted_addr (hsize : 0 < r.size.toNat) (hroom : r.stop + d.toNat ≤ 2 ^ 64) :
    (r.shifted d).addr.toNat = r.addr.toNat + d.toNat := by
  rw [Region.stop] at hroom
  rw [Region.shifted, UInt64.toNat_add, Nat.mod_eq_of_lt (by omega)]

theorem Region.shifted_stop (hsize : 0 < r.size.toNat) (hroom : r.stop + d.toNat ≤ 2 ^ 64) :
    (r.shifted d).stop = r.stop + d.toNat := by
  rw [Region.stop, Region.shifted_addr hsize hroom, Region.stop, Nat.add_right_comm]
  rfl

/-- Regions stay apart when all are moved alike. -/
theorem Fresh.shifted (h : Fresh rs)
    (hroom : ∀ r ∈ rs, 0 < r.size.toNat ∧ r.stop + d.toNat ≤ 2 ^ 64) :
    Fresh (rs.map (Region.shifted d)) := by
  constructor
  · intro s hs
    obtain ⟨r, hr, rfl⟩ := List.mem_map.mp hs
    have hbound := h.bound hr
    obtain ⟨hsize, hstop⟩ := hroom r hr
    have haddr := Region.shifted_addr hsize hstop
    refine ⟨fun hnil => ?_, ?_⟩
    · rw [hnil, UInt64.toNat_zero] at haddr
      omega
    · rw [Region.shifted_stop hsize hstop]
      exact hstop
  · rw [List.pairwise_map]
    refine h.2.imp_of_mem fun {r s} hr hs hapart => ?_
    obtain ⟨hr, hr'⟩ := hroom r hr
    obtain ⟨hs, hs'⟩ := hroom s hs
    rw [Region.Apart] at hapart ⊢
    rw [Region.shifted_stop hr hr', Region.shifted_stop hs hs', Region.shifted_addr hr hr',
      Region.shifted_addr hs hs']
    omega

variable (w : World) (rt : Runtime)

theorem World.shifted_recycled :
    (w.recycled rt).shifted d = (w.shifted d).recycled rt := by
  simp only [World.shifted, World.recycled]
  rfl

theorem World.shifted_bumped : w.bumped.shifted d = (w.shifted d).bumped := by
  have hchunk : w.f.chunk + w.f.size + d = w.f.chunk + d + w.f.size := by
    rw [UInt64.add_assoc, UInt64.add_comm w.f.size, ← UInt64.add_assoc]
  simp only [World.shifted, World.bumped, hchunk]

end Shifted

/-- The live blocks are in the address space side by side, so that their sizes
add up to less than it has. -/
theorem Go.Owns.live_lt {n k : Nat} {a : Sys} {P : Pool (SlotsApart n)} (h : Go.Owns n k a P) :
    a.live.length * n < 2 ^ 64 := by
  have hle := @length_mul_le n 1 (2 ^ 64) P.live P.live_pairwise fun b hb => by
    have hbound := h.bound (Pool.mem_all.mpr (.inl hb))
    exact ⟨hbound.1, hbound.2⟩
  rw [h.live, List.length_map] at hle
  exact Nat.lt_of_le_of_lt hle (by decide)

/-! ## The books -/

/-- With its regions `d` bytes further up, the system has the blocks of the Go
version, and as many as its regions hold. -/
structure Books (d : UInt64) (n k : Nat) (a : Sys) (P : Pool (SlotsApart n)) : Prop where
  owns : Go.Owns n k ⟨a.world.shifted d, a.live⟩ P
  count : P.all.length = a.world.regions.length * perChunk n
  inuse : a.world.f.inuse.toNat = a.live.length * n

namespace Books

variable {d : UInt64} {n k : Nat} {a b : Sys} {P : Pool (SlotsApart n)} {rt : Runtime}

theorem size (h : Books d n k a P) : a.world.f.size.toNat = n := h.owns.sized.size

/-- After `init` there is nothing to count. -/
theorem start {w : World} (h : Sized n w) (hw : w.regions = []) (hlist : w.f.list = nil)
    (hnchunk : w.f.nchunk = 0) (hinuse : w.f.inuse = 0) : Books d n 0 ⟨w, []⟩ .empty where
  owns := by
    refine .start (h.congr rfl rfl ?_) ?_ hlist hnchunk <;> simp [World.shifted, hw]
  count := by simp [Pool.empty, Pool.all, hw]
  inuse := by simp [hinuse]

theorem exact (h : Books d n k a P) : Exact a := by
  obtain ⟨fl, hc, hfree⟩ := h.owns.free
  have hleft := h.owns.left
  have hcount := h.count
  have hnalloc := h.owns.sized.nalloc
  have hlength : P.all.length = a.live.length + fl.length + k := by
    rw [Pool.all, h.owns.live, hfree, h.owns.reserve, List.length_append, List.length_append,
      List.length_map, List.length_map, List.length_range', Nat.add_assoc]
  rw [hlength] at hcount
  constructor
  · rw [h.inuse, h.size]
  · refine ⟨fl, hc, ?_⟩
    have hleft' : a.world.f.nchunk.toNat = k * n := hleft
    have hnalloc' : a.world.f.nalloc.toNat = perChunk n * n := hnalloc
    rw [h.size, hleft', hnalloc', ← Nat.add_mul, hcount, Nat.mul_assoc]
  · rw [h.size]
    exact ⟨k, by rw [Nat.mul_comm]; exact hleft⟩

/-- One more block in use. -/
theorem take_inuse (h : Books d n k a P) (hlt : (a.live.length + 1) * n < 2 ^ 64) :
    (a.world.f.inuse + a.world.f.size).toNat = (a.live.length + 1) * n := by
  rw [Nat.add_mul, Nat.one_mul] at hlt ⊢
  rw [UInt64.toNat_add, h.inuse, h.size, Nat.mod_eq_of_lt hlt]

theorem size_le_inuse (h : Books d n k a P) {p : UInt64} (hp : p ∈ a.live) :
    a.world.f.size ≤ a.world.f.inuse := by
  rw [UInt64.le_iff_toNat_le, h.inuse, h.size]
  exact Nat.le_mul_of_pos_left n (List.length_pos_of_mem hp)

theorem recycle (h : Books d n k a P) (hclears : Clears rt) (hlist : a.world.f.list ≠ nil) :
    ∃ P', Books d n k ⟨a.world.recycled rt, a.world.f.list :: a.live⟩ P' := by
  obtain ⟨P', howns, hperm⟩ := h.owns.recycle hclears hlist
  have hlt := howns.live_lt
  have hf := a.world.recycled_f rt
  have hregions := a.world.recycled_regions rt
  refine ⟨P', ?_, ?_, ?_⟩
  · rw [World.shifted_recycled]
    exact howns
  · rw [hperm.length_eq, h.count, hregions]
  · simp only [hf]
    exact h.take_inuse hlt

theorem refill (h : Books d n k a P) (hlist : a.world.f.list = nil)
    (hfresh : Fresh (a.world.refilled rt).regions)
    (hroom : ∀ r ∈ (a.world.refilled rt).regions, r.stop + d.toNat ≤ 2 ^ 64) :
    ∃ k' P', Books d n (k' + 1) ⟨a.world.refilled rt, a.live⟩ P' := by
  have hempty := h.owns.sized.empty_iff h.owns.left
  by_cases hlt : a.world.f.nchunk.toUInt64 < a.world.f.size
  · obtain ⟨hregions, _, hf⟩ := World.refilled_of_lt rt hlt
    obtain rfl : k = 0 := hempty.mp hlt
    have hnext : (a.world.next rt).size.toNat = perChunk n * n := by
      have hnalloc := h.owns.sized.nalloc
      rw [World.next, UInt32.toNat_toUInt64]
      exact hnalloc
    have hpos : 0 < perChunk n * n := by
      obtain ⟨k', hk'⟩ := h.owns.sized.exists_perChunk
      have hlink := h.owns.sized.link
      exact Nat.mul_pos (by omega) (by omega)
    have hsizes : ∀ r ∈ (a.world.refilled rt).regions, 0 < r.size.toNat := by
      intro r hr
      rw [hregions, List.mem_append, List.mem_singleton] at hr
      rcases hr with hr | rfl
      · have hsize : r.size.toNat = _ :=
          h.owns.sized.region (r.shifted d) (List.mem_map_of_mem hr)
        rw [hsize]
        exact hpos
      · rw [hnext]
        exact hpos
    obtain ⟨k', P', howns, hlength⟩ := h.owns.grow (w := (a.world.refilled rt).shifted d)
      (r := (a.world.next rt).shifted d) hlist
      (by simp [World.shifted, hregions]) hnext (by simp [World.shifted, hf, Region.shifted])
      (hfresh.shifted fun r hr => ⟨hsizes r hr, hroom r hr⟩)
    refine ⟨k', P', howns, ?_, ?_⟩
    · rw [hlength, h.count, hregions, List.length_append, List.length_singleton, Nat.add_mul,
        Nat.one_mul]
    · simp only [hf]
      exact h.inuse
  · rw [World.refilled_of_not_lt rt hlt]
    obtain ⟨k', rfl⟩ := Nat.exists_eq_add_one_of_ne_zero (mt hempty.mpr hlt)
    exact ⟨k', P, h⟩

theorem bump (h : Books d n (k + 1) a P) :
    ∃ P', Books d n k ⟨a.world.bumped, (a.world.f.chunk + d) :: a.live⟩ P' := by
  obtain ⟨P', howns, hperm⟩ := h.owns.bump
  have hlt := howns.live_lt
  refine ⟨P', ?_, ?_, h.take_inuse hlt⟩
  · rw [World.shifted_bumped]
    exact howns
  · rw [hperm.length_eq, h.count]
    rfl

theorem release (h : Books d n k a P) {p : UInt64} (hp : p ∈ a.live) :
    ∃ P', Books d n k ⟨a.world.freed p, a.live.erase p⟩ P' := by
  obtain ⟨P', howns, hperm⟩ := h.owns.release hp
  refine ⟨P', howns, ?_, ?_⟩
  · rw [hperm.length_eq, h.count]
    rfl
  · have hinuse : (a.world.f.inuse - a.world.f.size).toNat = a.live.length * n - n := by
      rw [UInt64.toNat_sub_of_le _ _ (h.size_le_inuse hp), h.inuse, h.size]
    have hlength := List.length_erase_of_mem hp
    simp only [World.freed]
    rw [hinuse, hlength, Nat.sub_mul, Nat.one_mul]

section Step

variable {V : Version} {out : World → UInt64} {l : Op × UInt64}

/-- A step keeps the books. -/
theorem step (hV : V.Cuts out) (hout : ∀ w : World, w.f.size.toNat = n → out w = w.f.chunk + d)
    (h : Books d n k a P) (hclears : Clears rt) (hstep : V.Step rt Matched a l b)
    (hroom : ∀ r ∈ b.world.regions, r.stop + d.toNat ≤ 2 ^ 64) :
    ∃ k' P', Books d n k' b P' := by
  obtain ⟨hmatched, hperform, hfresh⟩ := hstep
  obtain ⟨op, r⟩ := l
  cases hV.effect (a := a) h.owns.sized.size_ne_zero hperform with
  | recycle hlist =>
      obtain ⟨P', hbooks⟩ := h.recycle hclears hlist
      exact ⟨k, P', hbooks⟩
  | bump hlist =>
      obtain ⟨k', P', hfull⟩ := h.refill hlist hfresh hroom
      rw [hout _ hfull.size]
      exact ⟨k', hfull.bump⟩
  | free p =>
      obtain ⟨P', hbooks⟩ := h.release hmatched
      exact ⟨k, P', hbooks⟩
  | write p off byte =>
      exact ⟨k, P, h.owns.write hmatched.1 hmatched.2 byte, h.count, h.inuse⟩

theorem thrifty (hV : V.Cuts out) (h : Books d n k a P) (hstep : V.Step rt Matched a l b) :
    Thrifty rt a l.1 b := by
  obtain ⟨hmatched, hperform, _⟩ := hstep
  obtain ⟨op, r⟩ := l
  have hempty := h.owns.sized.empty_iff h.owns.left
  constructor
  case inuse =>
    intro p hop
    cases hop
    exact h.size_le_inuse hmatched
  case nchunk =>
    intro _ _
    by_cases hlt : a.world.f.nchunk.toUInt64 < a.world.f.size
    · obtain ⟨k', hk'⟩ := h.owns.sized.exists_perChunk
      have hnalloc : a.world.f.nalloc.toNat = perChunk n * n := h.owns.sized.nalloc
      simp only [(World.refilled_of_lt rt hlt).2.2]
      rw [h.size, hnalloc, hk', Nat.add_mul, Nat.one_mul]
      exact Nat.le_add_left _ _
    · rw [World.refilled_of_not_lt rt hlt]
      rwa [UInt64.not_lt, UInt64.le_iff_toNat_le, UInt32.toNat_toUInt64] at hlt
  case region =>
    intro hregions
    cases hV.effect (a := a) h.owns.sized.size_ne_zero hperform with
    | recycle hlist => exact absurd (a.world.recycled_regions rt) hregions
    | bump hlist =>
        by_cases hlt : a.world.f.nchunk.toUInt64 < a.world.f.size
        · have hleft : a.world.f.nchunk.toNat = k * n := h.owns.left
          rw [hempty.mp hlt, Nat.zero_mul] at hleft
          exact ⟨hlist, UInt32.toNat_inj.mp hleft⟩
        · rw [World.refilled_of_not_lt rt hlt] at hregions
          exact absurd rfl hregions
    | free p => exact absurd rfl hregions
    | write p off byte => exact absurd rfl hregions

end Step

end Books

section Runs

variable {d : UInt64} {n : Nat} {rt : Runtime} {V : Version} {out : World → UInt64} {w : World}
  {tr : List ((Op × UInt64) × Sys)} {a : Sys}

/-- Every state of a run whose regions leave room has books. -/
theorem books_run (hV : V.Cuts out)
    (hout : ∀ w : World, w.f.size.toNat = n → out w = w.f.chunk + d) (hclears : Clears rt)
    (hbooks : Books d n 0 ⟨w, []⟩ .empty)
    (hrun : Run (fun a l b => V.Step rt Matched a l b ∧
      ∀ r ∈ b.world.regions, r.stop + d.toNat ≤ 2 ^ 64) ⟨w, []⟩ tr a) :
    ∃ k P, Books d n k a P := by
  refine hrun.invariant (I := fun a => ∃ k P, Books d n k a P) ⟨0, _, hbooks⟩ ?_
  intro a l b hex hstep
  obtain ⟨k, P, h⟩ := hex
  exact h.step hV hout hclears hstep.1 hstep.2

end Runs

/-- **The counters are exact** in both versions, for every size that `init`
takes and in every state of a run of allocations, matched frees and stores
inside live blocks; and each call that goes on from there keeps its
subtractions in range, and asks for a chunk only when there is no block left.
The C version, whose last block of a chunk lies behind the chunk, is taken to
be given memory in the lower half of the address space. -/
theorem accounting {rt : Runtime} (hclears : Clears rt) {size : UInt64}
    (hsize : size ≤ fixAllocChunk) {w : World} (hw : w.regions = []) :
    ∃ w₀, (Go.init size).run w = .ok ((), w₀) ∧ (C.init size).run w = .ok ((), w₀) ∧
      (∀ tr a, Run (Go.version.Step rt Matched) ⟨w₀, []⟩ tr a →
        Exact a ∧ ∀ l b, Go.version.Step rt Matched a l b → Thrifty rt a l.1 b) ∧
      ∀ tr a, Run (fun a l b => C.version.Step rt Matched a l b ∧ UserSpace b.world.regions)
          ⟨w₀, []⟩ tr a →
        Exact a ∧ ∀ l b, C.version.Step rt Matched a l b → Thrifty rt a l.1 b := by
  obtain ⟨n, hsized, hn⟩ := Sized.prepared hsize hw
  refine ⟨w.prepared size, Go.run_init hsize, C.run_init hsize, fun tr a hrun => ?_,
    fun tr a hrun => ?_⟩
  · have hroomy : Run (fun a l b => Go.version.Step rt Matched a l b ∧
        ∀ r ∈ b.world.regions, r.stop + (0 : UInt64).toNat ≤ 2 ^ 64) _ tr a :=
      (hrun.mono (I := fun _ => True) trivial fun a l b _ hstep =>
        ⟨⟨hstep, fun r hr => (hstep.2.2.bound hr).2⟩, trivial⟩).1
    obtain ⟨k, P, hbooks⟩ := books_run Go.cuts (fun w _ => (UInt64.add_zero _).symm) hclears
      (.start hsized hw rfl rfl rfl) hroomy
    exact ⟨hbooks.exact, fun l b hstep => hbooks.thrifty Go.cuts hstep⟩
  · have hfits := hsized.fits
    have hchunk : fixAllocChunk.toNat = 16384 := by decide
    have hroomy : Run (fun a l b => C.version.Step rt Matched a l b ∧
        ∀ r ∈ b.world.regions, r.stop + (w.prepared size).f.size.toNat ≤ 2 ^ 64) _ tr a :=
      (hrun.mono (I := fun _ => True) trivial fun a l b _ hstep => by
        refine ⟨⟨hstep.1, fun r hr => ?_⟩, trivial⟩
        have hstop := hstep.2 r hr
        rw [hsized.size]
        omega).1
    have hout : ∀ v : World, v.f.size.toNat = n → C.out v = v.f.chunk + (w.prepared size).f.size := by
      intro v hv
      rw [← UInt64.toNat_inj.mp (hv.trans hsized.size.symm)]
      rfl
    obtain ⟨k, P, hbooks⟩ := books_run C.cuts hout hclears (.start hsized hw rfl rfl rfl) hroomy
    exact ⟨hbooks.exact, fun l b hstep => hbooks.thrifty C.cuts hstep⟩

/-- Two blocks of 6000 bytes a chunk: the third allocation recycles, and the
fourth asks for a second chunk. -/
theorem accounting_two_chunks : ∃ tr a,
    Run (fun a l b => C.version.Step (regionsFrom 0x10000 0x4000) Matched a l b ∧
        UserSpace b.world.regions) ⟨World.blank.prepared 6000, []⟩ tr a ∧
    labels tr = [(.alloc, 0x11770), (.alloc, 0x12ee0), (.free 0x11770, nil), (.alloc, 0x11770),
      (.alloc, 0x15770)] ∧
    a.world.regions.length = 2 ∧ Exact a := by
  obtain ⟨tr, a, hrun, hlabels, hregions⟩ := Version.exists_run C.version
    (regionsFrom 0x10000 0x4000)
    (fun a op => Matched a op ∧
      ∀ p ∈ (C.version.perform (regionsFrom 0x10000 0x4000) a op).toOption,
        UserSpace p.2.world.regions)
    ⟨World.blank.prepared 6000, []⟩ [.alloc, .alloc, .free 0x11770, .alloc, .alloc]
    [0x11770, 0x12ee0, nil, 0x11770, 0x15770] (fun a => a.world.regions.length) 2
    (by decide +kernel)
  have hspace : Run (fun a l b => C.version.Step (regionsFrom 0x10000 0x4000) Matched a l b ∧
      UserSpace b.world.regions) ⟨World.blank.prepared 6000, []⟩ tr a :=
    (hrun.mono (I := fun _ => True) trivial fun a l b _ hstep => by
      obtain ⟨hallowed, hperform, hfresh⟩ := hstep
      refine ⟨⟨⟨hallowed.1, hperform, hfresh⟩, hallowed.2 (l.2, b) ?_⟩, trivial⟩
      rw [hperform]
      rfl).1
  obtain ⟨w₀, hinit, _, _, hall⟩ := accounting (regionsFrom_clears 0x10000 0x4000)
    (show 6000 ≤ fixAllocChunk by decide) (show World.blank.regions = [] from rfl)
  rw [Go.run_init (by decide)] at hinit
  cases hinit
  exact ⟨tr, a, hspace, hlabels, hregions, (hall tr a hspace).1⟩

end Challenges.Slab

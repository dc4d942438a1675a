import Challenges.Slab.Refinement

/-!
# Twice — a free block that is freed again

Neither version looks at the block it is given. When a free block is freed
again, its link leads back to the head of the list, and the list is a cycle.
The block is handed out, its holder stores a word in it, and once the blocks
that were before it on the list are handed out as well, so is the block itself;
what the allocator takes for the rest of the list is then the word.
-/

namespace Challenges.Slab

open Challenges.Lib

/-- The calls and answers of some run, with no discipline, from `a` to `b`. -/
def Version.Leads (V : Version) (rt : Runtime) (a : Sys) (ls : List (Op × UInt64)) (b : Sys) :
    Prop :=
  ∃ tr, Run (V.Step rt fun _ _ => True) a tr b ∧ labels tr = ls

/-- The stores that put the first `k` bytes of a word at `p`. -/
def pokes (p v : UInt64) (k : Nat) : List (Op × UInt64) :=
  (List.range k).map fun i => (.write p (UInt64.ofNat i) (Mem64.byteOf v i), nil)

/-- What freeing a free block again leads to, whatever word `v` its holder
stores in it: the block is handed out a second time, and then `v` is. -/
def Version.Loops (V : Version) (rt : Runtime) (a : Sys) : Prop :=
  ∀ pre p post v, Chain a.world.mem.load64 nil a.world.f.list (pre ++ p :: post) →
    ∃ b, V.Leads rt a
        ((.free p, nil) :: (.alloc, p) ::
          (pokes p v 8 ++ (pre.map (fun q => (.alloc, q)) ++ [(.alloc, p)]))) b ∧
      b.world.f.list = v ∧ (v ≠ nil → ∃ c, V.Leads rt b [(.alloc, v)] c)

/-- The links before a node of a list end at the node. -/
theorem chain_upto {α : Type} {next : α → α} {null h p : α} {pre post : List α}
    (hc : Chain next null h (pre ++ p :: post)) : Chain next p h pre := by
  induction pre generalizing h with
  | nil =>
      rw [hc.head_cons]
      exact .nil
  | cons q pre ih =>
      have hnodup := hc.nodup
      rw [List.cons_append, List.nodup_cons] at hnodup
      have htail := ih hc.tail
      rw [hc.head_cons]
      refine .cons (fun heq => hnodup.1 ?_) htail
      rw [heq]
      exact List.mem_append_right _ List.mem_cons_self

section Steps

variable {V : Version} {out : World → UInt64} {rt : Runtime} {a b c : Sys} {l : Op × UInt64}
  {ls ls' : List (Op × UInt64)}

theorem Version.Leads.nil : V.Leads rt a [] a := ⟨[], .nil, rfl⟩

theorem Version.Leads.cons (hs : V.Step rt (fun _ _ => True) a l b) (h : V.Leads rt b ls c) :
    V.Leads rt a (l :: ls) c := by
  obtain ⟨tr, hrun, rfl⟩ := h
  exact ⟨_, hrun.cons hs, rfl⟩

theorem Version.Leads.append (h : V.Leads rt a ls b) (h' : V.Leads rt b ls' c) :
    V.Leads rt a (ls ++ ls') c := by
  obtain ⟨tr, hrun, rfl⟩ := h
  induction hrun generalizing ls' with
  | nil => exact h'
  | snoc _ hs ih =>
      rw [labels_snoc, List.append_assoc]
      exact ih (h'.cons hs)

variable (rt) in
/-- The head of the list is handed out. -/
theorem Version.Cuts.step_recycled (hV : V.Cuts out) (hsize : a.world.f.size ≠ 0)
    (hlist : a.world.f.list ≠ Slab.nil) (hfresh : Fresh a.world.regions) :
    V.Step rt (fun _ _ => True) a (.alloc, a.world.f.list)
      ⟨a.world.recycled rt, a.world.f.list :: a.live⟩ := by
  refine ⟨trivial, ?_, ?_⟩
  · simp only [perform, hV.recycled rt _ hsize hlist, ok_bind]
    rfl
  · rw [a.world.recycled_regions rt]
    exact hfresh

variable (rt) in
theorem Version.Cuts.step_freed (hV : V.Cuts out) (hfresh : Fresh a.world.regions) (p : UInt64) :
    V.Step rt (fun _ _ => True) a (.free p, Slab.nil) ⟨a.world.freed p, a.live.erase p⟩ := by
  refine ⟨trivial, ?_, hfresh⟩
  simp only [perform, hV.freed, ok_bind]
  rfl

variable (V rt) in
theorem Version.step_write (hfresh : Fresh a.world.regions) (p off : UInt64) (byte : UInt8) :
    V.Step rt (fun _ _ => True) a (.write p off byte, Slab.nil)
      ⟨{ a.world with mem := a.world.mem.store8 (p + off) byte }, a.live⟩ :=
  ⟨trivial, rfl, hfresh⟩

end Steps

/-! ## The cycle -/

/-- The list goes through the blocks `pre` to the block `p`, and none of them
overlap. -/
structure Looped (n : Nat) (p : UInt64) (pre : List UInt64) (w : World) : Prop where
  size : w.f.size.toNat = n
  link : 8 ≤ n
  fresh : Fresh w.regions
  path : Chain w.mem.load64 p w.f.list pre
  apart : ((p :: pre).map UInt64.toNat).Pairwise (SlotsApart n)
  bound : ∀ q ∈ p :: pre, 0 < q.toNat ∧ q.toNat + n ≤ 2 ^ 64

namespace Looped

variable {n : Nat} {p q v : UInt64} {pre : List UInt64} {w : World} {rt : Runtime}
  {V : Version} {out : World → UInt64} {a : Sys}

theorem ne_nil (h : Looped n p pre w) (hq : q ∈ p :: pre) : q ≠ nil := by
  intro hnil
  have hbound := h.bound q hq
  rw [hnil, UInt64.toNat_zero] at hbound
  omega

theorem size_ne_zero (h : Looped n p pre w) : w.f.size ≠ 0 := by
  have hsize := h.size
  have hlink := h.link
  intro hzero
  rw [hzero, UInt64.toNat_zero] at hsize
  omega

/-- What changes in `p` leaves the links of the others. -/
theorem frame (h : Looped n p pre w) {w' : World} (hsize : w'.f.size = w.f.size)
    (hlist : w'.f.list = w.f.list) (hregions : w'.regions = w.regions) {lo len : Nat}
    (hsame : Mem64.SameOutside w.mem w'.mem lo len) (hlo : p.toNat ≤ lo)
    (hlen : lo + len ≤ p.toNat + n) : Looped n p pre w' := by
  refine ⟨hsize ▸ h.size, h.link, hregions ▸ h.fresh, ?_, h.apart, h.bound⟩
  rw [hlist]
  refine h.path.congr fun q hq => ?_
  have hbound := h.bound q (List.mem_cons_of_mem _ hq)
  have hlink := h.link
  have hapart := (List.pairwise_cons.mp h.apart).1 q.toNat (List.mem_map_of_mem hq)
  rw [SlotsApart] at hapart
  exact hsame.load64 (by omega) (by omega)

/-- The next block of the cycle is handed out, and `p` keeps its word. -/
theorem recycle (h : Looped n p (q :: pre) w) (hclears : Clears rt) :
    w.f.list = q ∧ Looped n p pre (w.recycled rt) ∧
      (w.recycled rt).mem.load64 p = w.mem.load64 p := by
  have hlist := h.path.head_cons
  have hq := h.bound q (by simp)
  have hp := h.bound p (by simp)
  have hlink := h.link
  have hsize := h.size
  have hsame : Mem64.SameOutside w.mem (w.recycled rt).mem q.toNat n := by
    have hcleared := World.recycled_same (w := w) hclears (by rw [hlist]; omega)
    rwa [hlist, hsize] at hcleared
  have hswap : ((q :: p :: pre).map UInt64.toNat).Pairwise (SlotsApart n) := by
    have hperm : ((p :: q :: pre).map UInt64.toNat).Perm ((q :: p :: pre).map UInt64.toNat) :=
      (List.Perm.swap q p pre).map UInt64.toNat
    exact hperm.pairwise h.apart fun {x y} => Std.Symm.symm x y
  obtain ⟨happart, hrest⟩ := List.pairwise_cons.mp hswap
  -- what is read of a block other than `q` stays
  have hkeep : ∀ r ∈ p :: pre, (w.recycled rt).mem.load64 r = w.mem.load64 r := by
    intro r hr
    have hapart := happart r.toNat (List.mem_map_of_mem hr)
    have hbound : 0 < r.toNat ∧ r.toNat + n ≤ 2 ^ 64 := by
      rcases List.mem_cons.mp hr with rfl | hr
      · exact hp
      · exact h.bound r (by simp [hr])
    rw [SlotsApart] at hapart
    exact hsame.load64 (by omega) (by omega)
  refine ⟨hlist, ⟨?_, hlink, ?_, ?_, hrest, ?_⟩, hkeep p List.mem_cons_self⟩
  · rw [w.recycled_f rt]
    exact hsize
  · rw [w.recycled_regions rt]
    exact h.fresh
  · rw [w.recycled_f rt, hlist]
    exact h.path.tail.congr fun r hr => hkeep r (List.mem_cons_of_mem _ hr)
  · intro r hr
    rcases List.mem_cons.mp hr with rfl | hr
    · exact hp
    · exact h.bound r (by simp [hr])

/-- All blocks before `p` are handed out. -/
theorem drain (hV : V.Cuts out) (hclears : Clears rt) (h : Looped n p pre a.world) :
    ∃ b, V.Leads rt a (pre.map fun q => (.alloc, q)) b ∧ Looped n p [] b.world ∧
      b.world.mem.load64 p = a.world.mem.load64 p := by
  induction pre generalizing a with
  | nil => exact ⟨a, .nil, h, rfl⟩
  | cons q pre ih =>
      obtain ⟨hlist, hnext, hword⟩ := h.recycle hclears
      have hne : a.world.f.list ≠ nil := hlist ▸ h.ne_nil (by simp)
      have hstep := hV.step_recycled rt h.size_ne_zero hne h.fresh
      obtain ⟨b, hleads, hdone, hword'⟩ :=
        ih (a := ⟨a.world.recycled rt, a.world.f.list :: a.live⟩) hnext
      rw [hlist] at hstep hleads
      exact ⟨b, hleads.cons hstep, hdone, hword'.trans hword⟩

variable (V rt) in
/-- The word is stored byte by byte. -/
theorem poke (h : Looped n p pre a.world) (v : UInt64) {k : Nat} (hk : k ≤ 8) :
    ∃ b, V.Leads rt a (pokes p v k) b ∧ Looped n p pre b.world ∧
      ∀ i < k, b.world.mem (p + UInt64.ofNat i) = Mem64.byteOf v i := by
  induction k with
  | zero => exact ⟨a, .nil, h, fun i hi => by omega⟩
  | succ k ih =>
      obtain ⟨b, hleads, hlooped, hbytes⟩ := ih (by omega)
      have hp := hlooped.bound p List.mem_cons_self
      have hlink := hlooped.link
      have haddr : ∀ i < 8, (p + UInt64.ofNat i).toNat = p.toNat + i :=
        fun i hi => Mem64.toNat_add_ofNat (by omega)
      have hstep := Version.step_write V rt (a := b) hlooped.fresh p (UInt64.ofNat k)
        (Mem64.byteOf v k)
      have hstored := Mem64.store8_same b.world.mem (p + UInt64.ofNat k) (Mem64.byteOf v k)
      have hplace := haddr k (by omega)
      have hnext : Looped n p pre { b.world with
          mem := b.world.mem.store8 (p + UInt64.ofNat k) (Mem64.byteOf v k) } :=
        hlooped.frame rfl rfl rfl hstored (by omega) (by omega)
      refine ⟨⟨_, b.live⟩, ?_, hnext, fun i hi => ?_⟩
      · rw [pokes, List.range_succ, List.map_append]
        exact hleads.append (.cons hstep .nil)
      · by_cases hik : i = k
        · rw [hik]
          exact Function.update_self ..
        · rw [← hbytes i (by omega)]
          refine hstored _ ?_
          rw [haddr i (by omega), haddr k (by omega)]
          omega

/-- **The cycle**: once `p` heads the list, its holder chooses what is handed out
after it. -/
theorem spin (hV : V.Cuts out) (hclears : Clears rt) (h : Looped n p pre a.world) (v : UInt64) :
    ∃ b, V.Leads rt a (pokes p v 8 ++ (pre.map (fun q => (.alloc, q)) ++ [(.alloc, p)])) b ∧
      b.world.f.list = v ∧ (v ≠ nil → ∃ c, V.Leads rt b [(.alloc, v)] c) := by
  obtain ⟨b, hpoked, hlooped, hbytes⟩ := h.poke rt V v (Nat.le_refl 8)
  obtain ⟨c, hdrained, hdone, hword⟩ := hlooped.drain hV hclears
  have hlist : c.world.f.list = p := hdone.path.eq_null_iff.mpr rfl
  have hne : c.world.f.list ≠ nil := hlist ▸ hdone.ne_nil List.mem_cons_self
  have hstep := hV.step_recycled rt hdone.size_ne_zero hne hdone.fresh
  rw [hlist] at hstep
  have hhead : (c.world.recycled rt).f.list = v := by
    rw [c.world.recycled_f rt]
    dsimp only
    rw [hlist, hword, Mem64.load64_of_bytes hbytes]
  refine ⟨_, hpoked.append (hdrained.append (.cons hstep .nil)), hhead, fun hv => ?_⟩
  have hsize : (c.world.recycled rt).f.size ≠ 0 := by
    rw [c.world.recycled_f rt]
    exact hdone.size_ne_zero
  have hregions : Fresh (c.world.recycled rt).regions := by
    rw [c.world.recycled_regions rt]
    exact hdone.fresh
  have hlast := hV.step_recycled rt (a := ⟨c.world.recycled rt, p :: c.live⟩) hsize
    (hhead ▸ hv) hregions
  rw [hhead] at hlast
  exact ⟨_, .cons hlast .nil⟩

end Looped

/-! ## Freeing again -/

section Again

variable {V : Version} {out : World → UInt64} {rt : Runtime} {d : UInt64} {n k : Nat} {a : Sys}
  {P : Pool (SlotsApart n)}

/-- The list up to a free block. -/
theorem Books.looped (h : Books d n k a P) {pre post : List UInt64} {p : UInt64}
    (hc : Chain a.world.mem.load64 nil a.world.f.list (pre ++ p :: post))
    (hfresh : Fresh a.world.regions) :
    Looped n p pre a.world := by
  obtain ⟨fl, hc', hfree⟩ := h.owns.free
  obtain rfl := hc.unique hc'
  have hperm : ((pre ++ p :: post).map UInt64.toNat).Perm ((p :: (pre ++ post)).map UInt64.toNat) :=
    List.perm_middle.map UInt64.toNat
  have hpairwise := P.free_pairwise
  rw [hfree] at hpairwise
  have happart := hperm.pairwise hpairwise fun {x y} => Std.Symm.symm x y
  refine ⟨h.size, h.owns.sized.link, hfresh, chain_upto hc, happart.sublist ?_, fun q hq => ?_⟩
  · exact ((List.sublist_append_left pre post).cons_cons p).map UInt64.toNat
  · refine h.owns.bound (Pool.mem_all.mpr (.inr (.inl ?_)))
    rw [hfree]
    refine List.mem_map_of_mem ?_
    rcases List.mem_cons.mp hq with rfl | hq
    · exact List.mem_append_right _ List.mem_cons_self
    · exact List.mem_append_left _ hq

theorem Books.loops (h : Books d n k a P) (hfresh : Fresh a.world.regions) (hV : V.Cuts out)
    (hclears : Clears rt) : V.Loops rt a := by
  intro pre p post v hc
  have hlooped := h.looped hc hfresh
  have hp := hlooped.bound p List.mem_cons_self
  have hlink := hlooped.link
  have hne := hlooped.ne_nil List.mem_cons_self
  have hfree := hV.step_freed rt hfresh p
  have hhead : (a.world.freed p).f.list = p := rfl
  have halloc := hV.step_recycled rt (a := ⟨a.world.freed p, a.live.erase p⟩)
    hlooped.size_ne_zero hne hfresh
  -- its link leads back to the old head
  have hback : ((a.world.freed p).recycled rt).f.list = a.world.f.list := by
    rw [(a.world.freed p).recycled_f rt]
    exact Mem64.store64_load64 ..
  have hsame : Mem64.SameOutside a.world.mem ((a.world.freed p).recycled rt).mem p.toNat n := by
    have hstored : Mem64.SameOutside a.world.mem (a.world.freed p).mem p.toNat 8 :=
      Mem64.store64_same _ _ (by omega)
    have hcleared : Mem64.SameOutside (a.world.freed p).mem ((a.world.freed p).recycled rt).mem
        p.toNat n := by
      rw [← hlooped.size]
      have hfit : p.toNat + a.world.f.size.toNat ≤ 2 ^ 64 := by
        rw [hlooped.size]
        exact hp.2
      exact World.recycled_same (w := a.world.freed p) hclears hfit
    intro x hx
    rw [hcleared x hx, hstored x (by omega)]
  have hnext : Looped n p pre ((a.world.freed p).recycled rt) := by
    refine hlooped.frame ?_ hback ?_ hsame (Nat.le_refl _) (Nat.le_refl _)
    · rw [(a.world.freed p).recycled_f rt]
      rfl
    · rw [(a.world.freed p).recycled_regions rt]
      rfl
  obtain ⟨b, hspin, hlist, hlast⟩ := Looped.spin
    (a := ⟨(a.world.freed p).recycled rt, p :: a.live.erase p⟩) hV hclears hnext v
  exact ⟨b, .cons hfree (.cons halloc hspin), hlist, hlast⟩

/-- The regions are fresh after every run. -/
theorem fresh_run {Allowed : Sys → Op → Prop} {tr : List ((Op × UInt64) × Sys)} {b : Sys}
    (ha : Fresh a.world.regions) (hrun : Run (V.Step rt Allowed) a tr b) :
    Fresh b.world.regions :=
  hrun.invariant (I := fun a => Fresh a.world.regions) ha fun _ _ _ _ hs => hs.2.2

end Again

/-- **A block that is freed twice is handed out twice**, in both versions, in
every state that a disciplined client can reach, wherever the block is on the
list; and its first holder decides which address is handed out after that. -/
theorem freed_twice {rt : Runtime} (hclears : Clears rt) {size : UInt64}
    (hsize : size ≤ fixAllocChunk) {w : World} (hw : w.regions = []) :
    ∃ w₀, (Go.init size).run w = .ok ((), w₀) ∧ (C.init size).run w = .ok ((), w₀) ∧
      (∀ tr a, Run (Go.version.Step rt Matched) ⟨w₀, []⟩ tr a → Go.version.Loops rt a) ∧
      ∀ tr a, Run (C.version.UserStep rt) ⟨w₀, []⟩ tr a → C.version.Loops rt a := by
  obtain ⟨n, hsized, _⟩ := Sized.prepared hsize hw
  have hfresh : Fresh (w.prepared size).regions := by
    rw [World.prepared, hw]
    exact ⟨by simp, .nil⟩
  refine ⟨w.prepared size, Go.run_init hsize, C.run_init hsize, fun tr a hrun => ?_,
    fun tr a hrun => ?_⟩
  · obtain ⟨k, P, hbooks⟩ := books_run Go.cuts Go.out_eq hclears
      (.start hsized hw rfl rfl rfl) (Version.roomy hrun)
    exact hbooks.loops (fresh_run hfresh hrun) Go.cuts hclears
  · obtain ⟨_, _, _, _, hrelated⟩ :=
      (Related.user_runs C.cuts (C.out_eq hsized.size) hclears hsized hw hsized.size_le).1 tr a hrun
    obtain ⟨k, P, hbooks⟩ := hrelated.books
    have hsteps : Run (C.version.Step rt Matched) ⟨w.prepared size, []⟩ tr a :=
      (hrun.mono (I := fun _ => True) trivial fun a l b _ hstep => ⟨hstep.1, trivial⟩).1
    exact hbooks.loops (fresh_run hfresh hsteps) C.cuts hclears

/-- The second of two free blocks is freed again, and `0x1234` is stored in it. -/
theorem freed_twice_second : ∃ tr a b,
    Run (Go.version.Step (regionsFrom 0x10000 0x4000) Matched)
      ⟨World.blank.prepared 24, []⟩ tr a ∧
    labels tr = [(.alloc, 0x10000), (.alloc, 0x10018), (.free 0x10000, nil),
      (.free 0x10018, nil)] ∧
    Go.version.Leads (regionsFrom 0x10000 0x4000) a
      ((.free 0x10000, nil) :: (.alloc, 0x10000) ::
        (pokes 0x10000 0x1234 8 ++ [(.alloc, 0x10018), (.alloc, 0x10000)])) b ∧
    ∃ c, Go.version.Leads (regionsFrom 0x10000 0x4000) b [(.alloc, 0x1234)] c := by
  obtain ⟨w₀, hinit, _, hall, _⟩ := freed_twice (regionsFrom_clears 0x10000 0x4000)
    (show 24 ≤ fixAllocChunk by decide) (show World.blank.regions = [] from rfl)
  rw [Go.run_init (by decide)] at hinit
  cases hinit
  obtain ⟨tr, a, hrun, hlabels, hobs⟩ := Version.exists_run Go.version
    (regionsFrom 0x10000 0x4000) Matched ⟨World.blank.prepared 24, []⟩
    [.alloc, .alloc, .free 0x10000, .free 0x10018] [0x10000, 0x10018, nil, nil]
    (fun a => (a.world.f.list, a.world.mem.load64 0x10018, a.world.mem.load64 0x10000))
    (0x10018, 0x10000, nil) (by decide +kernel)
  obtain ⟨hlist, hlinks⟩ := Prod.ext_iff.mp hobs
  obtain ⟨hfirst, hsecond⟩ := Prod.ext_iff.mp hlinks
  have hchain : Chain a.world.mem.load64 nil a.world.f.list ([0x10018] ++ 0x10000 :: []) := by
    have hlist : a.world.f.list = 0x10018 := hlist
    have hfirst : a.world.mem.load64 0x10018 = 0x10000 := hfirst
    have hsecond : a.world.mem.load64 0x10000 = nil := hsecond
    rw [hlist]
    refine .cons (by decide) ?_
    rw [hfirst]
    refine .cons (by decide) ?_
    rw [hsecond]
    exact .nil
  obtain ⟨b, hleads, _, hlast⟩ := hall tr a hrun [0x10018] 0x10000 [] 0x1234 hchain
  exact ⟨tr, a, b, hrun, hlabels, hleads, hlast (by decide)⟩

end Challenges.Slab

import Challenges.Kmalloc.Contents
import Challenges.Kmalloc.Ideal
import Challenges.Kmalloc.Simulation

/-!
# Refinement — the programs against the ideal allocator

A heap and an ideal state are in step when they have the same lists, the same
blocks in use and the same log, and when every byte that the client has stored
is in its block. One call of a disciplined client does the same to both, and
returns the same pointer; so the port has just the runs of the ideal allocator,
and through the simulation so has the original. In the ideal allocator no call
looks at a byte, so in the programs no pointer depends on one.
-/

namespace Challenges.Kmalloc

open Challenges.Lib Challenges.Kmalloc.Port

variable {os : Nat → UInt32} {I : Ideal}

/-! ## The stock and the ideal state -/

theorem eq_of_map_eq {α β : Type} {f : α → β} {l l' : List α}
    (hf : ∀ x ∈ l, ∀ y ∈ l', f x = f y → x = y) (h : l.map f = l'.map f) : l = l' := by
  induction l generalizing l' with
  | nil => exact (List.map_eq_nil_iff.mp h.symm).symm
  | cons x l ih =>
      cases l' with
      | nil => cases h
      | cons y l' =>
          obtain ⟨hhead, htail⟩ := List.cons.inj h
          have hxy : x = y := hf x List.mem_cons_self y List.mem_cons_self hhead
          have hrest : l = l' := ih (fun a ha b hb => hf a (List.mem_cons_of_mem _ ha) b
            (List.mem_cons_of_mem _ hb)) htail
          rw [hxy, hrest]

section Unique

variable {s : Machine Statics} {live : List Handle} {S : Stock Block.bucket}

/-- The machine determines the free lists of its stock. -/
theorem Owns.parked_eq (h : Owns s live S) {parked : Fin nbuckets → List Block}
    (hhas : ∀ b, ∀ x ∈ parked b, S.Has x)
    (hchain : ∀ b, Chain s.mem.load32 null (s.vars.nextf b) ((parked b).map Block.addr)) :
    S.parked = parked := by
  funext b
  refine eq_of_map_eq (fun _ hx y hy heq => ?_) ((h.chain b).unique (hchain b))
  exact h.ptr_inj (Stock.has_of_parked hx) (hhas b y hy) (congrArg (· + overheadSize) heq)

/-- The client's pointers determine the blocks in use. -/
theorem Owns.held_eq (h : Owns s live S) {held : List Block} (hhas : ∀ x ∈ held, S.Has x)
    (hptr : live.map Handle.ptr = held.map Block.ptr) : S.held = held :=
  eq_of_map_eq (fun _ hx y hy heq => h.ptr_inj (.inl hx) (hhas y hy) heq)
    (h.held.symm.trans hptr)

theorem Owns.stock_eq {S' : Stock Block.bucket} (h : Owns s live S) (h' : Owns s live S') :
    S'.parked = S.parked ∧ S'.held = S.held := by
  have hhas : ∀ x, S.Has x → S'.Has x := fun x hx => (h'.has x).mpr ((h.has x).mp hx)
  exact ⟨h'.parked_eq (fun _ x hx => hhas x (Stock.has_of_parked hx)) h.chain,
    h'.held_eq (fun x hx => hhas x (.inl hx)) h.held⟩

end Unique

/-- The heap and the ideal state have the same lists and blocks in use. -/
structure Matches (os : Nat → UInt32) (s : Machine Statics) (live : List Handle)
    (S : Stock Block.bucket) (I : Ideal) : Prop where
  os : s.os = os
  log : s.log = I.log
  parked : S.parked = I.parked
  held : S.held = I.objects.map Object.block
  live : live = I.objects.map Object.handle
  /-- the first call leaves its mark in the log -/
  first : s.log = [] → s.vars.pageSz = 0

section Served

variable {s t : Machine Statics} {live : List Handle} {S S' : Stock Block.bucket}
  {n r : UInt32} {data : Nat → Option UInt8}

theorem Matches.congr (h : Matches os s live S I) (hparked : S'.parked = S.parked)
    (hheld : S'.held = S.held) : Matches os s live S' I where
  os := h.os
  log := h.log
  parked := hparked.trans h.parked
  held := hheld.trans h.held
  live := h.live
  first := h.first

theorem Matches.log_ne (h : Matches os s live S I) (hpage : s.vars.pageSz = 4096) :
    I.log ≠ [] := by
  intro hnil
  have hzero := h.first (h.log.trans hnil)
  rw [hpage] at hzero
  cases hzero

theorem Ideal.serve_cons {b : Fin nbuckets} {x : Block} {rest : List Block}
    (h : I.parked b = x :: rest) : I.serve b n data = (x.ptr, { I with
      parked := Function.update I.parked b rest, objects := ⟨x, n, data⟩ :: I.objects }) := by
  rw [Ideal.serve, h]

theorem Ideal.refill_of_ne {b : Fin nbuckets} (h : I.parked b ≠ []) : I.refill os b = I :=
  if_neg h

/-- There is no memory for the empty list. -/
theorem Ideal.refill_refused {b : Fin nbuckets} (h : I.parked b = [])
    (hret : os I.log.length = sbrkFailed) :
    I.refill os b = { I with log := I.log ++ [growCall b sbrkFailed] } := by
  simp [Ideal.refill, h, hret]

/-- The empty list gets the blocks of a region. -/
theorem Ideal.refill_granted {b : Fin nbuckets} (h : I.parked b = [])
    (hret : os I.log.length ≠ sbrkFailed) :
    I.refill os b = { I with
      log := I.log ++ [growCall b (os I.log.length)]
      parked := Function.update I.parked b (newBlocks b (os I.log.length)) } := by
  simp [Ideal.refill, h, hret]

/-- **Serving** a request from bucket `b` does to the heap what it does to the
ideal state. -/
theorem Owns.served (h : Owns s live S) (hmatch : Matches os s live S I) {b : Fin nbuckets}
    (hb : b.val < 29) (hfresh : Fresh (Port.taken s b).2.log) (n : UInt32)
    (data : Nat → Option UInt8) :
    ∃ S', Owns (Port.taken s b).2 (handOut (Port.taken s b).1 n live) S' ∧
      ((I.refill os b).serve b n data).1 = (Port.taken s b).1 ∧
      Matches os (Port.taken s b).2 (handOut (Port.taken s b).1 n live) S'
        ((I.refill os b).serve b n data).2 := by
  obtain ⟨hos, hlog, hparked, hheld, hlive, hfirst⟩ := hmatch
  have hpage := (taken_statics s b).1
  have hmore := (log_taken b).trans (log_refilled s b)
  replace hfirst : (Port.taken s b).2.log = [] → (Port.taken s b).2.vars.pageSz = 0 := by
    intro hnil
    rw [hmore, List.append_eq_nil_iff] at hnil
    exact hpage.trans (hfirst hnil.1)
  cases h.taking hb hfresh with
  | @hit x rest hp hne htaken =>
      have hI : I.parked b = x :: rest := hparked ▸ hp
      have hptr := h.ptr_ne_null (Stock.has_of_parked (hp ▸ List.mem_cons_self))
      rw [htaken] at hfirst ⊢
      rw [Ideal.refill_of_ne (by rw [hI]; simp), Ideal.serve_cons hI, handOut_ne hptr]
      refine ⟨_, h.unlinked hp n, rfl, hos, hlog, ?_, ?_, ?_, hfirst⟩
      · simp [Stock.take, hparked]
      · simp [hheld]
      · simp [hlive, Object.handle]
  | refuse hp hrefused _ howns htaken =>
      have hI : I.parked b = [] := hparked ▸ hp
      have hret : os I.log.length = sbrkFailed := by
        rw [← hos, ← hlog]
        exact hrefused.2
      have hrefill := Ideal.refill_refused hI hret
      have hserve : (I.refill os b).serve b n data = (null, I.refill os b) := by
        rw [Ideal.serve, hrefill]
        simp [hI]
      rw [htaken] at hfirst ⊢
      rw [hserve, handOut_null, hrefill]
      refine ⟨S, howns, rfl, ?_, ?_, hparked, hheld, hlive, hfirst⟩
      · rw [afterMorecore_refused hrefused.2]
        exact hos
      · rw [log_afterMorecore, hos, hlog, hret]
  | @refill x rest hp hnull hret hlog' hblocks hcls hnd hnew howns htaken =>
      have hI : I.parked b = [] := hparked ▸ hp
      rw [hos, hlog] at hret hblocks
      have hrefill := Ideal.refill_granted hI hret
      rw [hblocks] at hrefill
      have htop : (I.refill os b).parked b = x :: rest := by
        rw [hrefill]
        exact Function.update_self _ _ _
      have hfill := Stock.fill_parked hcls hnd hnew
      have hptr := howns.ptr_ne_null (Stock.has_of_parked (hfill ▸ List.mem_cons_self))
      have hkeep : (afterMorecore s b).os = s.os := by
        rw [afterMorecore]
        split <;> rfl
      rw [htaken] at hfirst ⊢
      rw [Ideal.serve_cons htop, handOut_ne hptr, hrefill]
      refine ⟨_, howns.unlinked hfill n, rfl, hkeep.trans hos, ?_, ?_, ?_, ?_, hfirst⟩
      · exact (log_afterMorecore s b).trans (by rw [hos, hlog])
      · simp [Stock.take, Stock.fill, hparked]
      · simp [Stock.fill, hheld]
      · simp [hlive, Object.handle]

theorem initialised_log (s : Machine Statics) :
    (initialised s).2.log = s.log ++ ⟨.query, 0, s.os s.log.length⟩ ::
      if 0 < alignBy (s.os s.log.length)
      then [⟨.align, alignBy (s.os s.log.length), s.os (s.log.length + 1)⟩] else [] := by
  by_cases hn : 0 < alignBy (s.os s.log.length)
  · by_cases hret : s.os (s.log.length + 1) = sbrkFailed <;>
      simp [initialised, aligned, queried, Machine.afterSbrk, ready, hn, hret]
  · simp [initialised, aligned, queried, Machine.afterSbrk, ready, hn]

/-- The first call's own calls of `sbrk`. -/
theorem Matches.started (h : Matches os s live S I) (hmode : Mode s) :
    Matches os (started s) live S (I.begin os) := by
  obtain ⟨hos, hlog, hparked, hheld, hlive, hfirst⟩ := h
  by_cases hpage : s.vars.pageSz = 0
  · cases hmode with
    | ready hpage' _ => rw [hpage] at hpage'; simp at hpage'
    | failed hpage' _ _ => rw [hpage] at hpage'; simp at hpage'
    | unset _ _ hnil =>
        have hI : I.log = [] := hlog ▸ hnil
        obtain ⟨_, _, hos', _⟩ := initialised_cases s
        have hlog' : (initialised s).2.log = (I.begin os).log := by
          rw [initialised_log, Ideal.begin, if_pos hI, hos, hnil]
          rfl
        have hparked' : (I.begin os).parked = I.parked := by rw [Ideal.begin, if_pos hI]
        have hobjects : (I.begin os).objects = I.objects := by rw [Ideal.begin, if_pos hI]
        rw [Kmalloc.started, if_pos hpage]
        refine ⟨hos'.trans hos, hlog', by rw [hparked', hparked], by rw [hobjects, hheld],
          by rw [hobjects, hlive], fun hnone => ?_⟩
        rw [hlog', Ideal.begin, if_pos hI] at hnone
        cases hnone
  · have hne : I.log ≠ [] := by
      rw [← hlog]
      exact fun hnil => hpage (hfirst hnil)
    rw [Kmalloc.started, if_neg hpage, Ideal.begin, if_neg hne]
    exact ⟨hos, hlog, hparked, hheld, hlive, hfirst⟩

theorem classOf_eq_some {b : Fin nbuckets} (h : sizeClass n.toNat = some b.val) :
    classOf n = some b := by
  rw [classOf, h, Option.map_some]
  exact congrArg some (Fin.ofNat_val_eq_self b)

/-- **`kmalloc`** and the ideal allocator serve a request alike. -/
theorem Repr.kmalloc_matches (h : Repr ⟨s, live⟩ S) (hmatch : Matches os s live S I)
    (hrun : (Port.kmalloc release n).run s = .ok (r, t)) (hfresh : Fresh t.log)
    (hok : InitOk t.log) (data : Nat → Option UInt8) :
    ∃ S', Repr ⟨t, handOut r n live⟩ S' ∧ Obtains (Kmalloc.started s) S n r S' ∧
      (I.obtain os n data).1 = r ∧
      Matches os t (handOut r n live) S' (I.obtain os n data).2 := by
  obtain ⟨S', hrepr, hobtains⟩ := h.kmalloc hrun hfresh
  refine ⟨S', hrepr, hobtains, ?_⟩
  have hready := kmalloc_ready h.mode hrun hok
  have hmatch' := hmatch.started h.mode
  rcases kmalloc_cases h.mode hrun with ⟨rfl, rfl, hclass⟩ | ⟨b, hb, htaken, hclass⟩
  · have hnone : classOf n = none := by rw [classOf, hclass hready]; rfl
    rw [Ideal.obtain, hnone, handOut_null]
    rw [handOut_null] at hrepr
    obtain ⟨hparked, hheld⟩ := (h.owns.started h.mode hfresh).stock_eq hrepr.owns
    exact ⟨rfl, hmatch'.congr hparked hheld⟩
  · have hsome : classOf n = some b := classOf_eq_some (hclass hready)
    have heq : (r, t) = taken (Kmalloc.started s) b := htaken
    obtain ⟨rfl, rfl⟩ := Prod.ext_iff.mp heq
    have howns : Owns (Kmalloc.started s) live S := h.owns.started_of_taken h.mode hfresh
    obtain ⟨S'', howns', hret, hserved⟩ := howns.served hmatch' hb hfresh n data
    obtain ⟨hparked, hheld⟩ := howns'.stock_eq hrepr.owns
    rw [Ideal.obtain, hsome]
    exact ⟨hret, hserved.congr hparked hheld⟩

/-! ## Giving a block back -/

/-- A block in use is that of one object. -/
theorem Matches.find (h : Matches os s live S I) (howns : Owns s live S) {x : Block}
    (hx : x ∈ S.held) : ∃ o ∈ I.objects, I.find x.ptr = some o ∧ o.block = x := by
  have hblock : ∃ o ∈ I.objects, o.block = x := by
    rw [h.held] at hx
    exact List.mem_map.mp hx
  have hfound : (I.find x.ptr).isSome := by
    obtain ⟨o, ho, hox⟩ := hblock
    rw [Ideal.find, List.find?_isSome]
    exact ⟨o, ho, by simp [hox]⟩
  obtain ⟨o, hfind⟩ := Option.isSome_iff_exists.mp hfound
  have hmem := List.mem_of_find?_eq_some hfind
  have hptr : o.block.ptr = x.ptr := by simpa using List.find?_some hfind
  have hheld : o.block ∈ S.held := by
    rw [h.held]
    exact List.mem_map_of_mem hmem
  exact ⟨o, hmem, hfind, howns.ptr_inj (.inl hheld) (.inl hx) hptr⟩

theorem Matches.find_null (h : Matches os s live S I) (howns : Owns s live S) :
    I.find null = none := by
  rw [Ideal.find, List.find?_eq_none]
  intro o ho
  have hheld : o.block ∈ S.held := by
    rw [h.held]
    exact List.mem_map_of_mem ho
  simpa using howns.ptr_ne_null (.inl hheld)

theorem Matches.call_obtain (h : Matches os s live S I) (howns : Owns s live S) {c : Call}
    (hcall : c = .kmalloc n ∨ c = .realloc null n) :
    I.call os c = I.obtain os n fun _ => none := by
  rcases hcall with rfl | rfl
  · rfl
  · rw [Ideal.call, h.find_null howns]

theorem Ideal.call_release {cp : UInt32} {o : Object} {c : Call} (hfind : I.find cp = some o)
    (hcall : c = .kfree cp ∨ c = .realloc cp 0) : I.call os c = (null, I.release o) := by
  rcases hcall with rfl | rfl
  · rw [Ideal.call, hfind]
    rfl
  · rw [Ideal.call, hfind]
    rfl

theorem Ideal.call_realloc {cp : UInt32} {o : Object} (hfind : I.find cp = some o) (hn : n ≠ 0) :
    I.call os (.realloc cp n) = (I.release o).obtain os n (resize n o.data) := by
  rw [Ideal.call, hfind]
  exact if_neg hn

/-- A store of the client changes no block and no request. -/
theorem Matches.write {cp off : UInt32} (byte : UInt8) (h : Matches os s live S I) (mem : Mem) :
    Matches os { s with mem := mem } live S (I.call os (.write cp off byte)).2 := by
  have hkeep {β : Type} (f : Object → β)
      (hf : ∀ o : Object, f { o with data := Function.update o.data off.toNat (some byte) } = f o) :
      (I.call os (.write cp off byte)).2.objects.map f = I.objects.map f := by
    rw [Ideal.call, List.map_map]
    apply List.map_congr_left
    intro o _
    rw [Function.comp_apply]
    split
    · exact hf o
    · rfl
  exact ⟨h.os, h.log, h.parked, h.held.trans (hkeep Object.block fun _ => rfl).symm,
    h.live.trans (hkeep Object.handle fun _ => rfl).symm, h.first⟩

/-- **`kfree`** and the ideal allocator take a block back alike. -/
theorem Matches.release (h : Matches os s live S I) (howns : Owns s live S) {x : Block}
    (hx : x ∈ S.held) {o : Object} (ho : o.block = x) :
    Matches os (pushed s x.bucket x.addr) (takeBack x.ptr live) (S.give hx) (I.release o) := by
  obtain ⟨hos, hlog, hparked, hheld, hlive, hfirst⟩ := h
  refine ⟨hos, hlog, ?_, ?_, ?_, hfirst⟩
  · simp [Stock.give, Ideal.release, ho, hparked]
  · have hptr : S.held.filter (· ≠ x) = S.held.filter fun y => y.ptr ≠ x.ptr := by
      apply List.filter_congr
      intro y hy
      have hinj : y = x ↔ y.ptr = x.ptr :=
        ⟨congrArg Block.ptr, howns.ptr_inj (.inl hy) (.inl hx)⟩
      simp [hinj]
    rw [Stock.give_held, hptr, hheld, List.filter_map, Ideal.release, ho]
    rfl
  · rw [takeBack, hlive, List.filter_map, Ideal.release, ho]
    rfl

/-! ## `realloc` -/

theorem Ideal.begin_of_ne (h : I.log ≠ []) : I.begin os = I := if_neg h

/-- A block of the class of the request is handed out again. -/
theorem Ideal.obtain_release {o : Object} (hlog : I.log ≠ [])
    (hclass : classOf n = some o.block.bucket) :
    (I.release o).obtain os n data = (o.block.ptr, { I with
      objects := ⟨o.block, n, data⟩ :: (I.release o).objects }) := by
  have htop : (I.release o).parked o.block.bucket = o.block :: I.parked o.block.bucket :=
    Function.update_self ..
  have hlog' : (I.release o).log ≠ [] := hlog
  rw [Ideal.obtain, hclass]
  dsimp only
  rw [Ideal.begin_of_ne hlog', Ideal.refill_of_ne (by rw [htop]; simp), Ideal.serve_cons htop]
  simp [Ideal.release]

/-- The calls of `sbrk` that a request makes. -/
theorem Ideal.obtain_log (os : Nat → UInt32) (n : UInt32) (data : Nat → Option UInt8)
    (I : Ideal) : (I.obtain os n data).2.log = (I.begin os).log ++
      match classOf n with
      | none => []
      | some b =>
          if (I.begin os).parked b = [] then [growCall b (os (I.begin os).log.length)] else [] := by
  rw [Ideal.obtain]
  cases classOf n with
  | none => simp
  | some b =>
      have hserve : (((I.begin os).refill os b).serve b n data).2.log
          = ((I.begin os).refill os b).log := by
        rw [Ideal.serve]
        split <;> rfl
      dsimp only
      rw [hserve, Ideal.refill]
      split <;> simp

/-- The two make the same calls of `sbrk`, whatever it answers. -/
theorem Repr.kmalloc_log (h : Repr ⟨s, live⟩ S) (hmatch : Matches os s live S I)
    (hrun : (Port.kmalloc release n).run s = .ok (r, t))
    (hok : InitOk (I.obtain os n data).2.log) : t.log = (I.obtain os n data).2.log := by
  have hmatch' := hmatch.started h.mode
  rw [Ideal.obtain_log] at hok ⊢
  rw [← hmatch'.log] at hok ⊢
  have hready := h.mode.started.1.bucket h.mode.started.2 hok.of_append
  rcases kmalloc_cases h.mode hrun with ⟨_, rfl, hclass⟩ | ⟨b, _, htaken, hclass⟩
  · have hnone : classOf n = none := by rw [classOf, hclass hready]; rfl
    rw [hnone, List.append_nil]
  · obtain ⟨_, rfl⟩ := Prod.ext_iff.mp htaken
    have hempty : (Kmalloc.started s).vars.nextf b = null ↔ (I.begin os).parked b = [] := by
      rw [started_nextf, h.owns.nextf_null, hmatch'.parked]
    have hlog := (log_taken b).trans (log_refilled (Kmalloc.started s) b)
    rw [hmatch'.os, if_congr hempty rfl rfl] at hlog
    rw [classOf_eq_some (hclass hready)]
    exact hlog

/-- **`realloc`** does what `kfree` and `kmalloc` do to the ideal state, also
when it keeps the block. -/
theorem Repr.realloc_matches {fuel : Nat} {x : Block} {o : Object} (h : Repr ⟨s, live⟩ S)
    (hmatch : Matches os s live S I) (hx : x ∈ S.held) (ho : o.block = x)
    (hbelow : x.bucket.val < 28) (hpage : s.vars.pageSz = 4096) (hready : s.vars.pageBucket = 9)
    (hn : n ≠ 0) (hle : n.toNat ≤ maxReq)
    (hrun : (Port.realloc release fuel x.ptr n).run s = .ok (r, t)) (hfresh : Fresh t.log)
    (hok : InitOk t.log) :
    ∃ S', Repr ⟨t, handOut r n (takeBack x.ptr live)⟩ S' ∧
      Obtains (pushed s x.bucket x.addr) (S.give hx) n r S' ∧
      ((I.release o).obtain os n data).1 = r ∧
      Matches os t (handOut r n (takeBack x.ptr live)) S' ((I.release o).obtain os n data).2 := by
  have hrelease := hmatch.release h.owns hx ho
  rcases h.owns.realloc_cases hx hpage hrun with
    ⟨h0, _⟩ | ⟨_, hclass, rfl, rfl⟩ | ⟨_, hclass, u, hmalloc, rfl⟩
  · exact absurd h0 hn
  · obtain ⟨S', hrepr, hobtains⟩ := h.kept hx hclass
    subst ho
    have hlog : I.log ≠ [] := hmatch.log_ne hpage
    have hptr := h.owns.ptr_ne_null (.inl hx)
    have hmono (y : Block) (hy : S.Has y) : S'.Has y :=
      hobtains.move.1.has_mono ((Stock.has_give hx).mpr hy)
    have hparked : S'.parked = S.parked :=
      hrepr.owns.parked_eq (fun _ y hy => hmono y (Stock.has_of_parked hy)) h.owns.chain
    have hheld : S'.held = o.block :: (S.give hx).held := by
      apply hrepr.owns.held_eq
      · intro y hy
        rcases List.mem_cons.mp hy with rfl | hy
        · exact hmono _ (.inl hx)
        · exact hmono y ((Stock.has_give hx).mp (.inl hy))
      · rw [handOut_ne hptr, List.map_cons, List.map_cons, h.owns.takeBack_held hx]
    rw [Ideal.obtain_release hlog (classOf_eq_some hclass)]
    refine ⟨S', hrepr, hobtains, rfl, hmatch.os, hmatch.log, hparked.trans hmatch.parked, ?_, ?_,
      hmatch.first⟩
    · rw [hheld, hrelease.held, List.map_cons]
    · rw [handOut_ne hptr, hrelease.live, List.map_cons]
      rfl
  · have hlog : (if r = null ∨ x.ptr = r then u
        else copied u r x.ptr n (UInt32.ofNat (cap x.bucket))).log = u.log := by
      split <;> rfl
    rw [hlog] at hfresh hok
    have hstarted := started_eq (show (pushed s x.bucket x.addr).vars.pageSz = 4096 from hpage)
    obtain ⟨S', hrepr, hobtains, hret, hserved⟩ :=
      (h.kfree hx).kmalloc_matches hrelease hmalloc hfresh hok data
    rw [hstarted] at hobtains
    have hrepr' := hrepr.copy_obtained hobtains hready (.inl hle) hbelow x.ptr
    refine ⟨S', hrepr', hobtains, hret, ?_, hlog.trans hserved.log, hserved.parked, hserved.held,
      hserved.live, fun hnil => ?_⟩
    · split <;> exact hserved.os
    · rw [hlog] at hnil
      split <;> exact hserved.first hnil

end Served

/-! ## The bytes of the objects -/

/-- What is stored in the object is in the memory. -/
def Object.In (m : Mem) (o : Object) : Prop :=
  ∀ k v, o.data k = some v → k < o.req.toNat ∧ m (o.block.ptr + UInt32.ofNat k) = v

/-- The bytes that the client has stored are in its blocks. -/
def Holds (m : Mem) (I : Ideal) : Prop := ∀ o ∈ I.objects, o.In m

theorem Object.In.frame {m m' : Mem} {o : Object} (h : o.In m)
    (hreq : o.req.toNat ≤ o.block.usable) (hfit : o.block.ptr.toNat + o.block.usable ≤ 2 ^ 32)
    (hm : Mem.SameInside m m' o.block.ptr.toNat o.block.usable) : o.In m' := by
  intro k v hk
  obtain ⟨hlt, hbyte⟩ := h k v hk
  exact ⟨hlt, (hm.byte rfl (by omega) hfit).trans hbyte⟩

theorem Ideal.obtain_objects (os : Nat → UInt32) (n : UInt32) (data : Nat → Option UInt8)
    (I : Ideal) :
    ((I.obtain os n data).1 = null ∧ (I.obtain os n data).2.objects = I.objects) ∨
      ∃ x : Block, (I.obtain os n data).1 = x.ptr ∧
        (I.obtain os n data).2.objects = ⟨x, n, data⟩ :: I.objects := by
  have hbegin : (I.begin os).objects = I.objects := by
    rw [Ideal.begin]
    split <;> rfl
  rw [Ideal.obtain]
  cases classOf n with
  | none => exact .inl ⟨rfl, hbegin⟩
  | some b =>
      have hrefill : ((I.begin os).refill os b).objects = I.objects := by
        rw [Ideal.refill]
        split <;> exact hbegin
      dsimp only
      cases hparked : ((I.begin os).refill os b).parked b with
      | nil =>
          rw [Ideal.serve, hparked]
          exact .inl ⟨rfl, hrefill⟩
      | cons x rest =>
          rw [Ideal.serve_cons hparked, hrefill]
          exact .inr ⟨x, rfl, rfl⟩

section Tracks

variable {fuel : Nat} {s t : Machine Statics} {live : List Handle} {S S' : Stock Block.bucket}
  {n r : UInt32} {x : Block}

/-- The block of an object has room for it. -/
theorem Sound.object (h : Sound ⟨s, live⟩ S) (hmatch : Matches os s live S I) {o : Object}
    (ho : o ∈ I.objects) : o.block ∈ S.held ∧ o.req.toNat ≤ o.block.usable ∧
      o.block.ptr.toNat + o.block.usable ≤ 2 ^ 32 := by
  have hheld : o.block ∈ S.held := by
    rw [hmatch.held]
    exact List.mem_map_of_mem ho
  have hlive : o.handle ∈ live := by
    rw [hmatch.live]
    exact List.mem_map_of_mem ho
  have hfits := h.2.1.fits o.handle hlive o.block hheld rfl
  have hin := h.1.owns.inside (.inl hheld)
  have hptr := h.1.owns.ptr_toNat (.inl hheld)
  change o.req.toNat + 4 ≤ o.block.size at hfits
  rw [Block.usable]
  exact ⟨hheld, by omega, by omega⟩

/-- A call that leaves the payloads of the blocks in use leaves the objects. -/
theorem Holds.frame (h : Holds s.mem I) (hsound : Sound ⟨s, live⟩ S)
    (hmatch : Matches os s live S I) {m : Mem}
    (hm : ∀ z ∈ S.held, Mem.SameInside s.mem m z.ptr.toNat z.usable) : Holds m I := by
  intro o ho
  obtain ⟨hheld, hreq, hfit⟩ := hsound.object hmatch ho
  exact (h o ho).frame hreq hfit (hm _ hheld)

theorem Holds.kmalloc (h : Holds s.mem I) (hsound : Sound ⟨s, live⟩ S)
    (hmatch : Matches os s live S I) (hrun : (Port.kmalloc release n).run s = .ok (r, t))
    (hfresh : Fresh t.log) : Holds t.mem (I.obtain os n fun _ => none).2 := by
  have hold : Holds t.mem I :=
    h.frame hsound hmatch fun z hz => (hsound.1.kmalloc_frame hrun hfresh (.inl hz)).1
  rcases I.obtain_objects os n (fun _ => none) with ⟨_, hobjects⟩ | ⟨x, _, hobjects⟩
  · rwa [Holds, hobjects]
  · rw [Holds, hobjects]
    intro o ho
    rcases List.mem_cons.mp ho with rfl | ho
    · intro k v hk
      cases hk
    · exact hold o ho

theorem Holds.giveBack (h : Holds s.mem I) (hsound : Sound ⟨s, live⟩ S)
    (hmatch : Matches os s live S I) (hx : x ∈ S.held) (o : Object) :
    Holds (pushed s x.bucket x.addr).mem (I.release o) := by
  have hin := hsound.1.owns.inside (.inl hx)
  have hsize := hsound.1.owns.size_ge (.inl hx)
  have hheader : Mem.SameOutside s.mem (pushed s x.bucket x.addr).mem x.addr.toNat 4 :=
    Mem.store32_same _ _ (by omega)
  have hold : Holds (pushed s x.bucket x.addr).mem I :=
    h.frame hsound hmatch fun z hz =>
      (hsound.1.owns.header_frame (.inl hx) (.inl hz) hheader).1
  exact fun p hp => hold p (List.mem_filter.mp hp).1

/-- A call that leaves the payloads of the other blocks leaves the other objects. -/
theorem Holds.release_frame {o : Object} (h : Holds s.mem I) (hsound : Sound ⟨s, live⟩ S)
    (hmatch : Matches os s live S I) (hox : o.block = x) {m : Mem}
    (hm : ∀ z ∈ S.held, z ≠ x → Mem.SameInside s.mem m z.ptr.toNat z.usable) :
    Holds m (I.release o) := by
  intro p hp
  obtain ⟨hp, hne⟩ := List.mem_filter.mp hp
  obtain ⟨hheld, hreq, hroom⟩ := hsound.object hmatch hp
  apply (h p hp).frame hreq hroom (hm _ hheld _)
  rintro rfl
  rw [hox] at hne
  simp at hne

/-- The objects after a `realloc`: the moved one has the bytes that fit. -/
theorem Holds.realloc {o : Object} (h : Holds s.mem I) (hsound : Sound ⟨s, live⟩ S)
    (hmatch : Matches os s live S I) (hx : x ∈ S.held) (ho : o ∈ I.objects) (hox : o.block = x)
    (hn : n ≠ 0) (hle : n.toNat ≤ maxReq)
    (hrun : (Port.realloc release fuel x.ptr n).run s = .ok (r, t)) (hfresh : Fresh t.log)
    (hrepr : Repr ⟨t, handOut r n (takeBack x.ptr live)⟩ S')
    (hobtains : Obtains (pushed s x.bucket x.addr) (S.give hx) n r S')
    (hret : ((I.release o).obtain os n (resize n o.data)).1 = r)
    (hmatch' : Matches os t (handOut r n (takeBack x.ptr live)) S'
      ((I.release o).obtain os n (resize n o.data)).2) :
    Holds t.mem ((I.release o).obtain os n (resize n o.data)).2 := by
  obtain ⟨hbefore, hfit, hok⟩ := hsound
  have hpage := hbefore.mode.page hbefore.owns hx
  have hready := hbefore.mode.bucket hpage hok
  rcases (I.release o).obtain_objects os n (resize n o.data) with
    ⟨hnull, hobjects⟩ | ⟨y, hptr, hobjects⟩
  · rw [Holds, hobjects]
    refine h.release_frame ⟨hbefore, hfit, hok⟩ hmatch hox fun z hz _ => ?_
    have hr : r = null := by rw [← hret, hnull]
    rcases hbefore.owns.realloc_cases hx hpage hrun with
      ⟨h0, _⟩ | ⟨_, _, hkept, _⟩ | ⟨_, _, u, hmalloc, rfl⟩
    · exact absurd h0 hn
    · exact absurd (hkept.symm.trans hr) (hbefore.owns.ptr_ne_null (.inl hx))
    · rw [if_pos (.inl hr)] at hfresh ⊢
      exact (hbefore.moved_frame hx hmalloc hfresh (.inl hz)).1
  · have hr : r = y.ptr := by rw [← hret, hptr]
    have hy : y ∈ S'.held := by
      rw [hmatch'.held, hobjects]
      exact List.mem_cons_self
    have hnull : r ≠ null := hr ▸ hrepr.owns.ptr_ne_null (.inl hy)
    have hclear : Clear (pushed s x.bucket x.addr) n := .inl hle
    obtain ⟨z, hz, hrz, hroom, _⟩ := hobtains.fits hready hclear hrepr.owns hnull
    obtain ⟨hbytes, hframe⟩ := hbefore.realloc_frame hx (hfit.below x (.inl hx)) hpage hready hn
      hrun hfresh hrepr hobtains hz hrz hroom
    rw [Holds, hobjects]
    intro p hp
    rcases List.mem_cons.mp hp with rfl | hp
    · -- the bytes of the old object that fit in the new one
      intro k v hk
      obtain ⟨hkn, hk⟩ := resize_eq_some.mp hk
      obtain ⟨hlt, hbyte⟩ := h o ho k v hk
      have hreq := (Sound.object ⟨hbefore, hfit, hok⟩ hmatch ho).2.1
      rw [hox] at hbyte hreq
      have hmoved := hbytes k (by omega)
      rw [hr, hbyte] at hmoved
      exact ⟨hkn, hmoved⟩
    · refine h.release_frame ⟨hbefore, hfit, hok⟩ hmatch hox (fun z hz hne a hlo hhi => ?_) p hp
      have hzgive : z ∈ (S.give hx).held := by
        rw [Stock.give_held]
        exact List.mem_filter.mpr ⟨hz, by simpa using hne⟩
      have hzptr := hbefore.owns.ptr_toNat (.inl hz)
      have hzsize := hbefore.owns.size_ge (.inl hz)
      rw [Block.usable] at hhi
      exact hframe z (.inl hz) hne (hobtains.ptr_ne hrepr.owns hzgive) a (by omega) (by omega)

/-- The objects after a store of the client. -/
theorem Holds.write {off : UInt32} {byte : UInt8} (h : Holds s.mem I)
    (hsound : Sound ⟨s, live⟩ S) (hmatch : Matches os s live S I) (hx : S.Has x)
    (hoff : off.toNat + 4 < x.size) :
    Holds (s.mem.store8 (x.ptr + off) byte) (I.call os (.write x.ptr off byte)).2 := by
  have hin := hsound.1.owns.inside hx
  have hptr := hsound.1.owns.ptr_toNat hx
  have haddr : (x.ptr + off).toNat = x.ptr.toNat + off.toNat := by
    rw [UInt32.toNat_add, Nat.mod_eq_of_lt (by omega)]
  intro p hp
  obtain ⟨o, ho, rfl⟩ := List.mem_map.mp hp
  obtain ⟨hheld, hreq, hfit⟩ := hsound.object hmatch ho
  have hoptr := hsound.1.owns.ptr_toNat (.inl hheld)
  -- a byte that is stored elsewhere stays
  have hold (k : Nat) (v : UInt8) (hk : o.data k = some v)
      (hne : o.block.ptr = x.ptr → k ≠ off.toNat) : k < o.req.toNat ∧
        s.mem.store8 (x.ptr + off) byte (o.block.ptr + UInt32.ofNat k) = v := by
    obtain ⟨hlt, hbyte⟩ := h o ho k v hk
    have hkaddr : (o.block.ptr + UInt32.ofNat k).toNat = o.block.ptr.toNat + k :=
      Mem.toNat_add_ofNat (by omega)
    refine ⟨hlt, (Mem.store8_same _ _ _ _ ?_).trans hbyte⟩
    rw [haddr, hkaddr]
    by_cases hblock : o.block = x
    · have := hne (congrArg Block.ptr hblock)
      rw [hblock]
      omega
    · have hapart := hsound.1.owns.apart (.inl hheld) hx hblock
      rw [Block.Apart] at hapart
      rw [Block.usable] at hreq hfit
      omega
  split
  · rename_i hstore
    intro k v hk
    by_cases hkoff : k = off.toNat
    · subst hkoff
      have hv : byte = v := by simpa using hk
      have hlt : off.toNat < o.req.toNat := hstore.2
      refine ⟨hlt, ?_⟩
      dsimp only
      rw [hstore.1, UInt32.ofNat_toNat, Mem.store8, Function.update_self, hv]
    · have hk' : o.data k = some v := by simpa [Function.update_of_ne hkoff] using hk
      exact hold k v hk' fun _ => hkoff
  · rename_i hstore
    intro k v hk
    have hlt := (h o ho k v hk).1
    apply hold k v hk
    intro hptr hkoff
    apply hstore ⟨hptr, _⟩
    rw [UInt32.lt_iff_toNat_lt]
    omega

/-- A disciplined call does to the heap what it does to the ideal state. -/
theorem Sound.performs {c : Call} {b : Sys Statics} (h : Sound ⟨s, live⟩ S)
    (hmatch : Matches os s live S I) (hholds : Holds s.mem I) (hc : Disciplined ⟨s, live⟩ c)
    (hperforms : Performs fuel s live S c r b) (hfresh : Fresh b.machine.log)
    (hok : InitOk b.machine.log) :
    (I.call os c).1 = r ∧ Holds b.machine.mem (I.call os c).2 ∧
      ∃ S', Repr b S' ∧ Matches os b.machine b.live S' (I.call os c).2 := by
  have howns := h.1.owns
  cases hperforms with
  | @kmalloc _ n _ t hcall hrun =>
      rw [hmatch.call_obtain howns hcall]
      obtain ⟨S', hrepr, _, hret, hmatch'⟩ :=
        h.1.kmalloc_matches hmatch hrun hfresh hok fun _ => none
      exact ⟨hret, hholds.kmalloc h hmatch hrun hfresh, S', hrepr, hmatch'⟩
  | kfreeNull =>
      rw [Ideal.call, hmatch.find_null howns]
      exact ⟨rfl, hholds, S, h.1, hmatch⟩
  | @kfree _ x hx hcall =>
      obtain ⟨o, ho, hfind, hox⟩ := hmatch.find howns hx
      rw [Ideal.call_release hfind hcall]
      exact ⟨rfl, hholds.giveBack h hmatch hx o, _, h.1.kfree hx, hmatch.release howns hx hox⟩
  | @realloc x n _ t hx hpage hready hn _ hrun =>
      obtain ⟨o, ho, hfind, hox⟩ := hmatch.find howns hx
      rw [Ideal.call_realloc hfind hn]
      obtain ⟨S', hrepr, hobtains, hret, hmatch'⟩ := h.1.realloc_matches hmatch hx hox
        (h.2.1.below x (.inl hx)) hpage hready hn hc.1 hrun hfresh hok
      exact ⟨hret, hholds.realloc h hmatch hx ho hox hn hc.1 hrun hfresh hrepr hobtains hret
        hmatch', S', hrepr, hmatch'⟩
  | @write x off byte hx hoff =>
      have hhas := (howns.has x).mpr hx
      exact ⟨rfl, hholds.write h hmatch hhas hoff, S, h.1.write hx hoff byte,
        hmatch.write byte _⟩

/-- A disciplined call makes the calls of `sbrk` that the ideal allocator makes. -/
theorem Sound.performs_log {c : Call} {b : Sys Statics} (h : Sound ⟨s, live⟩ S)
    (hmatch : Matches os s live S I) (hperforms : Performs fuel s live S c r b)
    (hok : InitOk (I.call os c).2.log) : b.machine.log = (I.call os c).2.log := by
  have howns := h.1.owns
  cases hperforms with
  | @kmalloc _ n _ t hcall hrun =>
      rw [hmatch.call_obtain howns hcall] at hok ⊢
      exact h.1.kmalloc_log hmatch hrun hok
  | kfreeNull =>
      rw [Ideal.call, hmatch.find_null howns]
      exact hmatch.log
  | @kfree _ x hx hcall =>
      obtain ⟨o, _, hfind, _⟩ := hmatch.find howns hx
      rw [Ideal.call_release hfind hcall]
      exact hmatch.log
  | @realloc x n _ t hx hpage _ hn _ hrun =>
      obtain ⟨o, _, hfind, hox⟩ := hmatch.find howns hx
      rw [Ideal.call_realloc hfind hn] at hok ⊢
      rcases howns.realloc_cases hx hpage hrun with
        ⟨h0, _⟩ | ⟨_, hclass, _, rfl⟩ | ⟨_, _, u, hmalloc, rfl⟩
      · exact absurd h0 hn
      · subst hox
        rw [Ideal.obtain_release (hmatch.log_ne hpage) (classOf_eq_some hclass)]
        exact hmatch.log
      · have hlog : (if r = null ∨ x.ptr = r then u
            else copied u r x.ptr n (UInt32.ofNat (cap x.bucket))).log = u.log := by
          split <;> rfl
        exact hlog.trans
          ((h.1.kfree hx).kmalloc_log (hmatch.release howns hx hox) hmalloc hok)
  | write byte hx hoff => exact hmatch.log

end Tracks

/-- The invariant of the refinement. -/
def Tracks (os : Nat → UInt32) (a : Sys Statics) (I : Ideal) : Prop :=
  ∃ S, Sound a S ∧ Matches os a.machine a.live S I ∧ Holds a.machine.mem I

section Runs

variable {fuel : Nat} {a b : Sys Statics} {l : Call × UInt32}

theorem Tracks.start (mem : Mem) (os : Nat → UInt32) :
    Tracks os (Sys.start Statics.initial mem os) .empty :=
  ⟨_, .start mem os, ⟨rfl, rfl, rfl, rfl, rfl, fun _ => rfl⟩, fun _ ho => by cases ho⟩

theorem Tracks.allowed (h : Tracks os a I) (c : Call) : I.Allowed c ↔ Disciplined a c := by
  obtain ⟨S, _, hmatch, _⟩ := h
  cases c <;> simp only [Ideal.Allowed, Disciplined, hmatch.live]

/-- **The step lemma.** -/
theorem Tracks.step (h : Tracks os a I)
    (hs : (Port.allocator fuel).Step Disciplined SbrkOk a l b) :
    ∃ J, I.Step os SbrkOk l J ∧ Tracks os b J := by
  have hallowed := (h.allowed l.1).mpr hs.1
  obtain ⟨S, hsound, hmatch, hholds⟩ := h
  obtain ⟨hc, hperform, hfresh, hok⟩ := hs
  have htame := hsound.1.tame hsound.2.1 hsound.2.2 (.of_disciplined hc)
  obtain ⟨hret, hholds', S', hrepr, hmatch'⟩ :=
    hsound.performs hmatch hholds hc (hsound.1.performs htame hperform) hfresh hok
  obtain ⟨S'', hsound', _⟩ := hsound.step ⟨.of_disciplined hc, hperform, hfresh, hok⟩
  obtain ⟨hparked, hheld⟩ := hrepr.owns.stock_eq hsound'.1.owns
  refine ⟨_, ⟨hallowed, Prod.ext hret rfl, ?_⟩, S'', hsound', hmatch'.congr hparked hheld,
    hholds'⟩
  rw [← hmatch'.log]
  exact ⟨hfresh, hok⟩

/-- Every step of the ideal allocator is one of the port: no call faults. -/
theorem Tracks.step_back {J : Ideal} (h : Tracks os a I) (hs : I.Step os SbrkOk l J) :
    ∃ b, (Port.allocator fuel).Step Disciplined SbrkOk a l b ∧ Tracks os b J := by
  obtain ⟨c, r⟩ := l
  obtain ⟨hallowed, hcall, hfresh, hok⟩ := hs
  have hc := (h.allowed c).mp hallowed
  obtain ⟨S, hsound, hmatch, hholds⟩ := h
  have hreturns : ∃ r b, (Port.allocator fuel).perform a c = .ok (r, b) :=
    hsound.returns (.of_disciplined hc)
  obtain ⟨r', b, hperform⟩ := hreturns
  have htame := hsound.1.tame hsound.2.1 hsound.2.2 (.of_disciplined hc)
  have hok' : InitOk (I.call os c).2.log := by
    rw [hcall]
    exact hok
  have hlog := hsound.performs_log hmatch (hsound.1.performs htame hperform) hok'
  rw [hcall] at hlog
  rw [← hlog] at hfresh hok
  obtain ⟨J', ⟨_, hcall', _⟩, htracks⟩ :=
    Tracks.step ⟨S, hsound, hmatch, hholds⟩ (l := (c, r')) ⟨hc, hperform, hfresh, hok⟩
  obtain ⟨rfl, rfl⟩ := Prod.ext_iff.mp (hcall'.symm.trans hcall)
  exact ⟨b, ⟨hc, hperform, hfresh, hok⟩, htracks⟩

end Runs

/-! ## The theorem -/

/-- The machine holds the ideal state: the same calls of `sbrk`, the free lists
block for block, the client's pointers, and every byte the client has stored. -/
structure Refines {σ : Type} (nextf : σ → Fin nbuckets → UInt32) (sys : Sys σ) (I : Ideal) :
    Prop where
  log : sys.machine.log = I.log
  lists : ∀ b, Chain sys.machine.mem.load32 null (nextf sys.machine.vars b)
    ((I.parked b).map Block.addr)
  live : sys.live = I.objects.map Object.handle
  bytes : Holds sys.machine.mem I

/-- The runs of an allocator, from any memory, are the runs of the ideal one: call
by call it returns the same pointers, and it ends in a state that holds the
ideal state. -/
def Implements {σ : Type} (A : Allocator σ) (vars : σ) (nextf : σ → Fin nbuckets → UInt32) :
    Prop :=
  ∀ (mem : Mem) (os : Nat → UInt32),
    (∀ tr sys, Run (A.Step Disciplined SbrkOk) (Sys.start vars mem os) tr sys →
      ∃ trI I, Run (Ideal.Step os SbrkOk) .empty trI I ∧ labels trI = labels tr ∧
        Refines nextf sys I) ∧
    ∀ trI I, Run (Ideal.Step os SbrkOk) .empty trI I →
      ∃ tr sys, Run (A.Step Disciplined SbrkOk) (Sys.start vars mem os) tr sys ∧
        labels tr = labels trI ∧ Refines nextf sys I

theorem Tracks.refines {a : Sys Statics} (h : Tracks os a I) : Refines Statics.nextf a I := by
  obtain ⟨S, hsound, hmatch, hholds⟩ := h
  refine ⟨hmatch.log, ?_, hmatch.live, hholds⟩
  rw [← hmatch.parked]
  exact hsound.1.owns.chain

theorem implements_port (fuel : Nat) :
    Implements (Port.allocator fuel) Statics.initial Statics.nextf := by
  intro mem os
  constructor
  · intro tr a hrun
    have hstep : ∀ a l b I, Tracks os a I → (Port.allocator fuel).Step Disciplined SbrkOk a l b →
        ∃ J, I.Step os SbrkOk l J ∧ Tracks os b J := fun _ _ _ _ h hs => h.step hs
    obtain ⟨trI, I, hrunI, hlabels, htracks⟩ := hrun.simulation (.start mem os) hstep
    exact ⟨trI, I, hrunI, hlabels, htracks.refines⟩
  · intro trI I hrunI
    have hstep : ∀ I l J a, Tracks os a I → I.Step os SbrkOk l J →
        ∃ b, (Port.allocator fuel).Step Disciplined SbrkOk a l b ∧ Tracks os b J :=
      fun _ _ _ _ h hs => h.step_back hs
    obtain ⟨tr, a, hrun, hlabels, htracks⟩ :=
      hrunI.simulation (R := fun I a => Tracks os a I) (.start mem os) hstep
    exact ⟨tr, a, hrun, hlabels, htracks.refines⟩

/-- A system of the original that a system of the port is in step with. -/
def Follows (os : Nat → UInt32) (u : Sys Original.Statics) (I : Ideal) : Prop :=
  ∃ a, Joint a u ∧ Tracks os a I

theorem Follows.refines {u : Sys Original.Statics} (h : Follows os u I) :
    Refines Original.Statics.nextf u I := by
  obtain ⟨a, hjoint, htracks⟩ := h
  obtain ⟨hlog, hlists, hlive, hbytes⟩ := htracks.refines
  obtain ⟨hlog', hnextf, hmem⟩ := hjoint.agree
  refine ⟨hlog'.trans hlog, ?_, hjoint.1.live.trans hlive, ?_⟩
  · rw [hmem, hnextf]
    exact hlists
  · rwa [hmem]

theorem implements_original (fuel : Nat) :
    Implements (Original.allocator 4096 fuel) Original.Statics.initial Original.Statics.nextf := by
  intro mem os
  have hstart : Follows os (Sys.start Original.Statics.initial mem os) .empty :=
    ⟨_, .start mem os, .start mem os⟩
  constructor
  · intro tr u hrun
    have hstep : ∀ u l v I, Follows os u I →
        (Original.allocator 4096 fuel).Step Disciplined SbrkOk u l v →
        ∃ J, I.Step os SbrkOk l J ∧ Follows os v J := by
      intro u l v I h hs
      obtain ⟨a, hjoint, htracks⟩ := h
      obtain ⟨b, hport, hjoint'⟩ :=
        (hjoint.step_back hs : ∃ b, (Port.allocator 0).Step Disciplined SbrkOk a l b ∧ Joint b v)
      obtain ⟨J, hideal, htracks'⟩ := htracks.step hport
      exact ⟨J, hideal, b, hjoint', htracks'⟩
    obtain ⟨trI, I, hrunI, hlabels, hfollows⟩ := hrun.simulation hstart hstep
    exact ⟨trI, I, hrunI, hlabels, hfollows.refines⟩
  · intro trI I hrunI
    have hstep : ∀ I l J u, Follows os u I → I.Step os SbrkOk l J →
        ∃ v, (Original.allocator 4096 fuel).Step Disciplined SbrkOk u l v ∧ Follows os v J := by
      intro I l J u h hs
      obtain ⟨a, hjoint, htracks⟩ := h
      obtain ⟨b, hport, htracks'⟩ :=
        (htracks.step_back hs :
          ∃ b, (Port.allocator 0).Step Disciplined SbrkOk a l b ∧ Tracks os b J)
      obtain ⟨v, horiginal, hjoint'⟩ := hjoint.step hport
      exact ⟨v, horiginal, b, hjoint', htracks'⟩
    obtain ⟨tr, u, hrun, hlabels, hfollows⟩ :=
      hrunI.simulation (R := fun I u => Follows os u I) hstart hstep
    exact ⟨tr, u, hrun, hlabels, hfollows.refines⟩

/-- **Refinement**: the port and the original are both implementations of the
ideal allocator. -/
theorem refines_ideal (fuel fuel' : Nat) :
    Implements (Port.allocator fuel) Statics.initial Statics.nextf ∧
      Implements (Original.allocator 4096 fuel') Original.Statics.initial
        Original.Statics.nextf :=
  ⟨implements_port fuel, implements_original fuel'⟩

theorem refines_ideal_moved : ∃ tr a trI I tr' u,
    Run ((Port.allocator 0).Step Disciplined SbrkOk) (boot twoPages) tr a ∧
    labels tr = [(.kmalloc 16, 4096), (.write 4096 2 7, null), (.realloc 4096 100, 8192),
      (.kmalloc 5000, null)] ∧
    Run (Ideal.Step twoPages SbrkOk) .empty trI I ∧ labels trI = labels tr ∧
    Refines Statics.nextf a I ∧
    Run ((Original.allocator 4096 0).Step Disciplined SbrkOk)
      (Sys.start Original.Statics.initial (fun _ => 0) twoPages) tr' u ∧
    labels tr' = labels trI ∧ Refines Original.Statics.nextf u I := by
  obtain ⟨hport, horiginal⟩ := refines_ideal 0 0
  obtain ⟨tr, a, hrun, hlabels, _⟩ := exists_moving_run
  obtain ⟨trI, I, hrunI, hsame, hrefines⟩ := (hport (fun _ => 0) twoPages).1 tr a hrun
  obtain ⟨tr', u, hrun', hsame', hrefines'⟩ := (horiginal (fun _ => 0) twoPages).2 trI I hrunI
  exact ⟨tr, a, trI, I, tr', u, hrun, hlabels, hrunI, hsame, hrefines, hrun', hsame', hrefines'⟩

example : (Ideal.play twoRegions [.kmalloc 16, .write 4096 2 7, .realloc 4096 100]).1
    = [4096, 0, 8192] := by decide +kernel

/-! ## What the placement depends on -/

/-- Where the blocks are does not depend on what is in the memory: on the same
answers of `sbrk`, two runs of the same calls, up to the bytes that are stored,
return the same pointers, call `sbrk` alike and end with the same lists. -/
def Oblivious {σ : Type} (A : Allocator σ) (vars : σ) (nextf : σ → Fin nbuckets → UInt32) :
    Prop :=
  ∀ (mem mem' : Mem) (os : Nat → UInt32) tr sys tr' sys',
    Run (A.Step Disciplined SbrkOk) (Sys.start vars mem os) tr sys →
    Run (A.Step Disciplined SbrkOk) (Sys.start vars mem' os) tr' sys' →
    (labels tr).map (fun l => l.1.blank) = (labels tr').map (fun l => l.1.blank) →
      (labels tr).map Prod.snd = (labels tr').map Prod.snd ∧
      sys.machine.log = sys'.machine.log ∧ sys.live = sys'.live ∧
      ∀ b l, Chain sys.machine.mem.load32 null (nextf sys.machine.vars b) l ↔
        Chain sys'.machine.mem.load32 null (nextf sys'.machine.vars b) l

theorem Implements.ignores_bytes {σ : Type} {A : Allocator σ} {vars : σ}
    {nextf : σ → Fin nbuckets → UInt32} (h : Implements A vars nextf) :
    Oblivious A vars nextf := by
  intro mem mem' os tr sys tr' sys' hrun hrun' hcalls
  obtain ⟨trI, I, hrunI, hlabels, hrefines⟩ := (h mem os).1 tr sys hrun
  obtain ⟨trJ, J, hrunJ, hlabels', hrefines'⟩ := (h mem' os).1 tr' sys' hrun'
  have hplay := Ideal.play_of_run os hrunI
  have hplay' := Ideal.play_of_run os hrunJ
  rw [hlabels] at hplay
  rw [hlabels'] at hplay'
  have hblank : ((labels tr).map Prod.fst).map Call.blank
      = ((labels tr').map Prod.fst).map Call.blank := by
    rw [List.map_map, List.map_map]
    exact hcalls
  obtain ⟨hret, herase⟩ := Ideal.erase_play os ((labels tr).map Prod.fst)
  obtain ⟨hret', herase'⟩ := Ideal.erase_play os ((labels tr').map Prod.fst)
  rw [hblank, hret', hplay, hplay'] at hret
  rw [hblank, herase', hplay, hplay'] at herase
  obtain ⟨hlog, hparked, hobjects⟩ := Ideal.erase_eq_iff.mp herase
  have hhandle (K : Ideal) : K.objects.map Object.handle
      = (K.objects.map Object.erase).map Object.handle := by
    rw [List.map_map]
    rfl
  refine ⟨hret.symm, ?_, ?_, fun b l => ?_⟩
  · rw [hrefines.log, hrefines'.log, hlog]
  · rw [hrefines.live, hrefines'.live, hhandle, hhandle, hobjects]
  · have hlist := hrefines.lists b
    have hlist' := hrefines'.lists b
    rw [hparked] at hlist'
    constructor
    · intro hl
      rw [hl.unique hlist]
      exact hlist'
    · intro hl
      rw [hl.unique hlist']
      exact hlist

/-- **The bytes do not decide where the blocks are**, in the port and in the
original: a client learns nothing from a pointer about what another one has
stored. -/
theorem oblivious (fuel fuel' : Nat) :
    Oblivious (Port.allocator fuel) Statics.initial Statics.nextf ∧
      Oblivious (Original.allocator 4096 fuel') Original.Statics.initial
        Original.Statics.nextf :=
  ⟨(implements_port fuel).ignores_bytes, (implements_original fuel').ignores_bytes⟩

theorem oblivious_moved : ∃ tr a tr' b,
    Run ((Port.allocator 0).Step Disciplined SbrkOk) (boot twoPages) tr a ∧
    labels tr = [(.kmalloc 16, 4096), (.write 4096 2 7, null), (.realloc 4096 100, 8192),
      (.kmalloc 5000, null)] ∧
    Run ((Port.allocator 0).Step Disciplined SbrkOk)
      (Sys.start Statics.initial (fun _ => 255) twoPages) tr' b ∧
    labels tr' = [(.kmalloc 16, 4096), (.write 4096 2 9, null), (.realloc 4096 100, 8192),
      (.kmalloc 5000, null)] ∧
    a.machine.log = b.machine.log ∧ a.live = b.live := by
  obtain ⟨tr, a, hrun, hlabels, _⟩ := exists_moving_run
  obtain ⟨tr', b, hrun', hlabels', _⟩ := exists_run_of_observe
    (show (Port.allocator 0).observe Disciplined SbrkOk
      [.kmalloc 16, .write 4096 2 9, .realloc 4096 100, .kmalloc 5000]
      (Sys.start Statics.initial (fun _ => 255) twoPages) (fun _ => true)
        = some ([4096, 0, 8192, 0], true) by decide +kernel)
  have hblank : (labels tr).map (fun l => l.1.blank) = (labels tr').map (fun l => l.1.blank) := by
    rw [hlabels, hlabels']
    decide
  obtain ⟨_, hlog, hlive, _⟩ := (oblivious 0 0).1 _ _ twoPages tr a tr' b hrun hrun' hblank
  exact ⟨tr, a, tr', b, hrun, hlabels, hrun', hlabels', hlog, hlive⟩

end Challenges.Kmalloc

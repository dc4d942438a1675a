import Challenges.Kmalloc.Heap

/-!
# Calls — each call of a client, as a move of the stock

`Repr sys S` is the invariant of a system that runs against the port: the
heap is the stock `S`, and the initialisation is in one of three modes. The
third, after an alignment that `sbrk` refused, is kept here because the
heap itself survives it. One lemma for each call, and `Repr.step` for all
of them.
-/

namespace Challenges.Kmalloc

open Challenges.Lib Challenges.Kmalloc.Port

/-- How far the initialisation has come. -/
inductive Mode (s : Machine Statics) : Prop where
  | unset (hpage : s.vars.pageSz = 0) (hbucket : s.vars.pageBucket = -1)
      (hlog : s.log = [])
  | ready (hpage : s.vars.pageSz = 4096) (hbucket : s.vars.pageBucket = 9)
  | failed (hpage : s.vars.pageSz = 4096) (hbucket : s.vars.pageBucket = -1)
      (halign : ¬ InitOk s.log)

/-! ## The first call -/

/-- The calls of `sbrk` that the first call makes for itself: it asks for the
break, and then aligns it unless it is aligned. -/
inductive FirstCalls : List SbrkCall → Prop where
  | query (brk : UInt32) (h : ¬ 0 < alignBy brk) : FirstCalls [⟨.query, 0, brk⟩]
  | align (brk ret : UInt32) (h : 0 < alignBy brk) :
      FirstCalls [⟨.query, 0, brk⟩, ⟨.align, alignBy brk, ret⟩]

theorem FirstCalls.caller {first : List SbrkCall} (h : FirstCalls first) :
    ∀ c ∈ first, ∀ b, c.caller ≠ .morecore b := by
  cases h <;> simp

theorem FirstCalls.not_grants {first : List SbrkCall} (h : FirstCalls first) :
    ∀ c ∈ first, ¬ c.Grants :=
  fun c hc ⟨⟨b, hb⟩, _⟩ => h.caller c hc b hb

theorem FirstCalls.carved {first : List SbrkCall} (h : FirstCalls first) :
    carved first = [] := by
  cases h <;> rfl

/-- What the first call leaves as it was, and what it sets. -/
theorem initialised_cases (s : Machine Statics) :
    (initialised s).2.vars.pageSz = 4096 ∧
      (initialised s).2.vars.nextf = s.vars.nextf ∧ (initialised s).2.os = s.os ∧
      (∃ first, (initialised s).2.log = s.log ++ first ∧ FirstCalls first) ∧
      (((initialised s).1 = true ∧ (initialised s).2.vars.pageBucket = 9 ∧
          (InitOk s.log → InitOk (initialised s).2.log)) ∨
        ((initialised s).1 = false ∧
          (initialised s).2.vars.pageBucket = s.vars.pageBucket ∧
          ¬ InitOk (initialised s).2.log)) := by
  have hsnoc {log : List SbrkCall} {c : SbrkCall} (hok : InitOk log)
      (hc : c.caller = .align → c.ret ≠ sbrkFailed) : InitOk (log ++ [c]) := by
    intro d hd
    rcases List.mem_append.mp hd with hd | hd
    · exact hok d hd
    · rw [List.mem_singleton.mp hd]
      exact hc
  simp only [initialised, aligned]
  split
  · rename_i hpos
    split
    · rename_i hfail
      refine ⟨rfl, rfl, rfl, ⟨_, List.append_assoc .., .align _ _ hpos⟩,
        .inr ⟨rfl, rfl, fun hok => ?_⟩⟩
      exact hok _ (List.mem_append_right _ (List.mem_singleton_self _)) rfl hfail
    · rename_i hret
      exact ⟨rfl, rfl, rfl, ⟨_, List.append_assoc .., .align _ _ hpos⟩,
        .inl ⟨rfl, rfl, fun hok => hsnoc (hsnoc hok (by simp)) fun _ => hret⟩⟩
  · rename_i hpos
    exact ⟨rfl, rfl, rfl, ⟨_, rfl, .query _ hpos⟩,
      .inl ⟨rfl, rfl, fun hok => hsnoc hok (by simp)⟩⟩

/-- The machine on which `kmalloc` serves a request: the first call comes
before it. -/
def started (s : Machine Statics) : Machine Statics :=
  if s.vars.pageSz = 0 then (initialised s).2 else s

theorem started_eq {s : Machine Statics} (hpage : s.vars.pageSz = 4096) :
    started s = s := by
  have hne : ¬ s.vars.pageSz = 0 := by rw [hpage]; decide
  exact if_neg hne

theorem started_nextf (s : Machine Statics) : (started s).vars.nextf = s.vars.nextf := by
  rw [started]
  split
  · exact (initialised_cases s).2.1
  · rfl

/-- The calls of `sbrk` in the first call come before any other. -/
theorem started_log (s : Machine Statics) : ∃ first, (started s).log = s.log ++ first ∧
    (s.vars.pageSz = 0 ∧ FirstCalls first ∨ s.vars.pageSz ≠ 0 ∧ first = []) := by
  rw [started]
  split
  · rename_i hpage
    obtain ⟨first, hlog, hfirst⟩ := (initialised_cases s).2.2.2.1
    exact ⟨first, hlog, .inl ⟨hpage, hfirst⟩⟩
  · rename_i hpage
    exact ⟨[], (List.append_nil _).symm, .inr ⟨hpage, rfl⟩⟩

theorem Mode.started {s : Machine Statics} (h : Mode s) :
    Mode (Kmalloc.started s) ∧ (Kmalloc.started s).vars.pageSz = 4096 := by
  cases h with
  | unset hpage hbucket hlog =>
      obtain ⟨hpage', _, _, _, hcase⟩ := initialised_cases s
      rw [Kmalloc.started, if_pos hpage]
      refine ⟨?_, hpage'⟩
      rcases hcase with ⟨_, h9, _⟩ | ⟨_, hstale, hbad⟩
      · exact .ready hpage' h9
      · exact .failed hpage' (hstale.trans hbucket) hbad
  | ready hpage hbucket =>
      have hne : ¬ s.vars.pageSz = 0 := by rw [hpage]; decide
      rw [Kmalloc.started, if_neg hne]
      exact ⟨.ready hpage hbucket, hpage⟩
  | failed hpage hbucket halign =>
      have hne : ¬ s.vars.pageSz = 0 := by rw [hpage]; decide
      rw [Kmalloc.started, if_neg hne]
      exact ⟨.failed hpage hbucket halign, hpage⟩

/-- The first call carves no block. -/
theorem Owns.started {s : Machine Statics} {live : List Handle}
    {S : Stock Block.bucket} (h : Owns s live S) (hmode : Mode s)
    (hfresh : Fresh (Kmalloc.started s).log) : Owns (Kmalloc.started s) live S := by
  by_cases hpage : s.vars.pageSz = 0
  · cases hmode with
    | ready hpage' _ => rw [hpage] at hpage'; simp at hpage'
    | failed hpage' _ _ => rw [hpage] at hpage'; simp at hpage'
    | unset _ _ hlog =>
      obtain ⟨_, hnextf, _, ⟨first, hlog', hfirst⟩, _⟩ := initialised_cases s
      rw [Kmalloc.started, if_pos hpage] at hfresh ⊢
      have hcarved : carved (initialised s).2.log = carved s.log := by
        rw [hlog', hlog, List.nil_append, hfirst.carved, carved_nil]
      have hnone : ∀ x, ¬ S.Has x := by
        intro x hx
        have := (h.has x).mp hx
        simp [hlog] at this
      refine ⟨fun b => ?_, h.held, fun x hx => absurd (.inl hx) (hnone x), ?_, ?_, hfresh⟩
      · have hempty : S.parked b = [] := by
          rw [List.eq_nil_iff_forall_not_mem]
          exact fun x hx => hnone x (Stock.has_of_parked hx)
        rw [hnextf, hempty, h.nextf_null.mpr hempty]
        exact .nil
      · rw [hcarved]
        exact h.has
      · rw [hcarved]
        exact h.size
  · rw [Kmalloc.started, if_neg hpage]
    exact h

/-! ## `kmalloc` -/

/-- What is served once the statics are set, by whichever call that was. -/
theorem serve_cases {s t : Machine Statics} {n r : UInt32} (hmode : Mode s)
    (hpage : s.vars.pageSz = 4096) (hrun : (serve release n).run s = .ok (r, t)) :
    (r = null ∧ t = s ∧ (s.vars.pageBucket = 9 → sizeClass n.toNat = none)) ∨
      ∃ b : Fin nbuckets, b.val < 29 ∧ (r, t) = taken s b ∧
        (s.vars.pageBucket = 9 → sizeClass n.toNat = some b.val) := by
  cases hmode with
  | unset hpage' => rw [hpage] at hpage'; simp at hpage'
  | ready _ hbucket =>
      rcases run_serve n hpage hbucket with ⟨hclass, hs⟩ | ⟨b, hb, hclass, hs⟩
      · rw [hs] at hrun
        cases hrun
        exact .inl ⟨rfl, rfl, fun _ => hclass⟩
      · rw [hs] at hrun
        exact .inr ⟨b, hb, (Except.ok.inj hrun).symm, fun _ => hclass⟩
  | failed _ hbucket _ =>
      have hne : s.vars.pageBucket ≠ 9 := by rw [hbucket]; decide
      rcases run_serve_stale n hpage hbucket with
        ⟨hclass, hs⟩ | ⟨b, hb, _, _, hs⟩ | ⟨_, _, hs⟩ | ⟨b, hb, _, _, hs⟩
      · rw [hs] at hrun
        cases hrun
        exact .inl ⟨rfl, rfl, fun _ => hclass⟩
      · rw [hs] at hrun
        exact .inr ⟨b, hb, (Except.ok.inj hrun).symm, fun h => absurd h hne⟩
      · rw [hs] at hrun
        cases hrun
      · rw [hs] at hrun
        exact .inr ⟨b, by omega, (Except.ok.inj hrun).symm, fun h => absurd h hne⟩

/-- Every way in which `kmalloc` returns. -/
theorem kmalloc_cases {s t : Machine Statics} {n r : UInt32} (hmode : Mode s)
    (hrun : (kmalloc release n).run s = .ok (r, t)) :
    (r = null ∧ t = started s ∧
        ((started s).vars.pageBucket = 9 → sizeClass n.toNat = none)) ∨
      ∃ b : Fin nbuckets, b.val < 29 ∧ (r, t) = taken (started s) b ∧
        ((started s).vars.pageBucket = 9 → sizeClass n.toNat = some b.val) := by
  obtain ⟨hmode', hpage'⟩ := hmode.started
  by_cases hpage : s.vars.pageSz = 0
  · rw [run_kmalloc_first hpage] at hrun
    have hstarted : started s = (initialised s).2 := if_pos hpage
    rw [hstarted] at hmode' hpage' ⊢
    split at hrun
    · exact serve_cases hmode' hpage' hrun
    · rename_i hfalse
      cases hrun
      -- the initialisation failed, and so it has not set `PAGE_BUCKET`
      refine .inl ⟨rfl, rfl, fun hready => ?_⟩
      rcases initialised_cases s with ⟨_, _, _, _, ⟨htrue, _⟩ | ⟨_, hstale, _⟩⟩
      · exact absurd htrue hfalse
      · cases hmode with
        | unset _ hbucket _ => rw [hstale, hbucket] at hready; simp at hready
        | ready hpage' _ => rw [hpage] at hpage'; simp at hpage'
        | failed hpage' _ _ => rw [hpage] at hpage'; simp at hpage'
  · have hstarted : started s = s := if_neg hpage
    rw [hstarted] at hmode' hpage' ⊢
    rw [run_kmalloc hpage'] at hrun
    exact serve_cases hmode' hpage' hrun

/-- What a request for `n` bytes does to the stock when `kmalloc` serves it
on the machine `s`. -/
inductive Obtains (s : Machine Statics) (S : Stock Block.bucket) (n r : UInt32) :
    Stock Block.bucket → Prop where
  | none (hnull : r = null)
      (hclass : s.vars.pageBucket = 9 → sizeClass n.toNat = none) : Obtains s S n r S
  | served {b : Fin nbuckets} {o : Option Block} {S' : Stock Block.bucket}
      (hb : b.val < 29) (hserve : Stock.Serve S b o S')
      (hret : r = o.elim null Block.ptr)
      (hclass : s.vars.pageBucket = 9 → sizeClass n.toNat = some b.val)
      (hnew : ∀ x, o = some x → x.bucket = b ∧ x ∈ S'.held ∧ x ∉ S.held)
      (hspare : S.parked b = [] → (S'.parked b).length ≤ nblks b - 1)
      (hrefused : o = none ↔ Refused s b) : Obtains s S n r S'

/-- The log of an alignment that was refused stays one. -/
theorem not_initOk_append {log more : List SbrkCall} (h : ¬ InitOk log) :
    ¬ InitOk (log ++ more) :=
  fun hok => h fun c hc => hok c (List.mem_append_left _ hc)

theorem log_refilled (s : Machine Statics) (b : Fin nbuckets) :
    (refilled s b).log
      = s.log ++ if s.vars.nextf b = null then [growCall b (s.os s.log.length)] else [] := by
  rw [refilled]
  split
  · exact log_afterMorecore s b
  · exact (List.append_nil _).symm

/-- Serving a request touches `NEXTF` only. -/
theorem taken_statics (s : Machine Statics) (b : Fin nbuckets) :
    (taken s b).2.vars.pageSz = s.vars.pageSz ∧
      (taken s b).2.vars.pageBucket = s.vars.pageBucket := by
  have hrefilled : (refilled s b).vars.pageSz = s.vars.pageSz ∧
      (refilled s b).vars.pageBucket = s.vars.pageBucket := by
    rw [refilled, afterMorecore]
    split
    · split <;> exact ⟨rfl, rfl⟩
    · exact ⟨rfl, rfl⟩
  rw [taken]
  split <;> exact hrefilled

theorem Mode.taken {s : Machine Statics} (h : Mode s) (hpage : s.vars.pageSz = 4096)
    (b : Fin nbuckets) : Mode (Port.taken s b).2 := by
  obtain ⟨hp, hb⟩ := taken_statics s b
  cases h with
  | unset hpage' => rw [hpage] at hpage'; simp at hpage'
  | ready _ hbucket => exact .ready (hp.trans hpage) (hb.trans hbucket)
  | failed _ hbucket halign =>
      refine .failed (hp.trans hpage) (hb.trans hbucket) ?_
      rw [log_taken, log_refilled]
      exact not_initOk_append halign

/-- The invariant of a system that runs against the port. -/
structure Repr (sys : Sys Statics) (S : Stock Block.bucket) : Prop where
  owns : Owns sys.machine sys.live S
  mode : Mode sys.machine

section Requests

variable {s t : Machine Statics} {live : List Handle} {S : Stock Block.bucket}
  {n r : UInt32}

theorem Owns.started_of_taken (h : Owns s live S) (hmode : Mode s) {b : Fin nbuckets}
    (hfresh : Fresh (Port.taken (Kmalloc.started s) b).2.log) :
    Owns (Kmalloc.started s) live S := by
  apply h.started hmode
  rw [log_taken, log_refilled] at hfresh
  split at hfresh
  · exact hfresh.of_snoc
  · simpa using hfresh

/-- **`kmalloc`** serves the request from the stock. -/
theorem Repr.kmalloc (h : Repr ⟨s, live⟩ S)
    (hrun : (Port.kmalloc release n).run s = .ok (r, t)) (hfresh : Fresh t.log) :
    ∃ S', Repr ⟨t, handOut r n live⟩ S' ∧ Obtains (started s) S n r S' := by
  have hmode := h.mode.started
  rcases kmalloc_cases h.mode hrun with ⟨rfl, rfl, hclass⟩ | ⟨b, hb, htaken, hclass⟩
  · rw [handOut_null]
    exact ⟨S, ⟨h.owns.started h.mode hfresh, hmode.1⟩, .none rfl hclass⟩
  · have heq : (r, t) = Port.taken (started s) b := htaken
    obtain ⟨rfl, rfl⟩ := Prod.ext_iff.mp heq
    have howns : Owns (started s) live S := h.owns.started_of_taken h.mode hfresh
    obtain ⟨o, S', hserve, hret, howns', hnew, hspare, hrefused⟩ := howns.taken hb hfresh n
    exact ⟨S', ⟨howns', hmode.1.taken hmode.2 b⟩,
      .served hb hserve hret hclass hnew hspare hrefused⟩

theorem Mode.congr {s t : Machine Statics} (h : Mode s)
    (hpage : t.vars.pageSz = s.vars.pageSz)
    (hbucket : t.vars.pageBucket = s.vars.pageBucket) (hlog : t.log = s.log) : Mode t := by
  cases h with
  | unset h1 h2 h3 => exact .unset (hpage.trans h1) (hbucket.trans h2) (hlog.trans h3)
  | ready h1 h2 => exact .ready (hpage.trans h1) (hbucket.trans h2)
  | failed h1 h2 h3 =>
      exact .failed (hpage.trans h1) (hbucket.trans h2) (by rwa [hlog])

/-! ## `kfree` -/

theorem Owns.takeBack_null (h : Owns s live S) : takeBack null live = live := by
  rw [takeBack, List.filter_eq_self]
  intro e he
  obtain ⟨x, hx, hptr⟩ := h.exists_held ⟨e, he, rfl⟩
  simpa [← hptr] using h.ptr_ne_null (.inl hx)

/-- What `kfree` does on a block in use. -/
theorem Owns.run_kfree (h : Owns s live S) {x : Block} (hx : x ∈ S.held) :
    (Port.kfree release x.ptr).run s = .ok ((), Port.pushed s x.bucket x.addr) := by
  have hheader := (h.header x hx).2
  rw [← Owns.ptr_sub] at hheader ⊢
  exact Port.run_kfree (h.ptr_ne_null (.inl hx)) hheader

/-- **`kfree`** gives a block in use back to the stock. -/
theorem Repr.kfree (h : Repr ⟨s, live⟩ S) {x : Block} (hx : x ∈ S.held) :
    Repr ⟨pushed s x.bucket x.addr, takeBack x.ptr live⟩ (S.give hx) :=
  ⟨h.owns.pushed hx, h.mode.congr rfl rfl rfl⟩

/-! ## `realloc` -/

/-- The request is not of the top class, or `sbrk` will refuse to serve it. -/
def Clear (s : Machine Statics) (n : UInt32) : Prop :=
  n.toNat ≤ maxReq ∨ cap 28 < n.toNat ∨ Refused s 28

theorem Clear.not_top (h : Clear s n) (hclass : sizeClass n.toNat = some 28) :
    Refused s 28 := by
  have htop := sizeClass_top.mp hclass
  rcases h with h | h | h
  · omega
  · omega
  · exact h

theorem room_eq {b : Nat} (hb : b < 28) : room b = cap b + 4 := by
  have h : ∀ b : Fin 28, room b.val = cap b.val + 4 := by decide
  exact h ⟨b, hb⟩

/-- A pointer that was obtained is that of a block in use, and the block is of
the request's class once `PAGE_BUCKET` is set. -/
theorem Obtains.block {S' : Stock Block.bucket} (h : Obtains s S n r S') (hr : r ≠ null) :
    ∃ y ∈ S'.held, r = y.ptr ∧
      (s.vars.pageBucket = 9 → sizeClass n.toNat = some y.bucket.val) ∧
      ¬ Refused s y.bucket := by
  cases h with
  | none hnull _ => exact absurd hnull hr
  | @served b o _ hb hserve hret hclass hnew _ hrefused =>
      cases o with
      | none => exact absurd hret hr
      | some y =>
          obtain ⟨hbucket, hy, _⟩ := hnew y rfl
          subst hbucket
          exact ⟨y, hy, hret, hclass, fun h => Option.some_ne_none y (hrefused.mpr h)⟩

/-- **Capacity**: under `Clear` a block that is obtained has the bytes asked
for. -/
theorem Obtains.fits {S' : Stock Block.bucket} (h : Obtains s S n r S')
    (hready : s.vars.pageBucket = 9) (hclear : Clear s n) (howns : Owns t live S')
    (hr : r ≠ null) :
    ∃ y ∈ S'.held, r = y.ptr ∧ n.toNat + 4 ≤ y.size ∧ y.bucket.val < 28 := by
  obtain ⟨y, hy, hret, hclass, hserved⟩ := h.block hr
  have hclass := hclass hready
  obtain ⟨hb, hsize⟩ := howns.size y ((howns.has y).mp (.inl hy))
  have hne : y.bucket.val ≠ 28 := by
    intro h28
    rw [h28] at hclass
    have h28' : y.bucket = 28 := Fin.ext h28
    exact hserved (h28' ▸ hclear.not_top hclass)
  have hfit := (sizeClass_eq_some.mp hclass).1
  have hb27 : y.bucket.val < 28 := by omega
  refine ⟨y, hy, hret, ?_, hb27⟩
  rw [hsize, room_eq hb27]
  omega

/-- The requests of a client that `realloc` can move safely. -/
theorem Clear.pushed {x : Block} (h : Clear s n)
    (hmove : sizeClass n.toNat ≠ some x.bucket.val ∨ x.bucket.val < 28) :
    Clear (Port.pushed s x.bucket x.addr) n := by
  rcases h with h | h | ⟨hnull, hos⟩
  · exact .inl h
  · exact .inr (.inl h)
  · by_cases h28 : x.bucket.val = 28
    · have hclass : sizeClass n.toNat ≠ some 28 := by
        rcases hmove with hmove | hmove
        · rwa [h28] at hmove
        · omega
      rw [ne_eq, sizeClass_top] at hclass
      by_cases hle : n.toNat ≤ maxReq
      · exact .inl hle
      · exact .inr (.inl (by omega))
    · have hne : (28 : Fin nbuckets) ≠ x.bucket := fun heq => h28 (heq ▸ rfl)
      refine .inr (.inr ⟨?_, hos⟩)
      simpa [Port.pushed, Function.update_of_ne hne] using hnull

/-- What `realloc` does on a block in use. -/
theorem Owns.run_realloc (h : Owns s live S) {x : Block} (hx : x ∈ S.held)
    (hpage : s.vars.pageSz = 4096) (hn : n ≠ 0) (fuel : Nat) :
    (Port.realloc release fuel x.ptr n).run s =
      if sizeClass n.toNat = some x.bucket.val then .ok (x.ptr, s)
      else (moveTo release x.ptr n (UInt32.ofNat (cap x.bucket))).run
        (Port.pushed s x.bucket x.addr) := by
  obtain ⟨hmagic, hindex⟩ := h.header x hx
  have hb := (h.size x ((h.has x).mp (.inl hx))).1
  rw [← Owns.ptr_sub] at hmagic hindex
  rw [Port.run_realloc fuel hb hpage (h.ptr_ne_null (.inl hx)) hn hmagic hindex, Owns.ptr_sub]

/-- Every way in which `realloc` of a block in use returns: the block freed,
kept, or freed and its bytes copied to a block from `kmalloc`. -/
theorem Owns.realloc_cases {fuel : Nat} {x : Block} (h : Owns s live S) (hx : x ∈ S.held)
    (hpage : s.vars.pageSz = 4096)
    (hrun : (Port.realloc release fuel x.ptr n).run s = .ok (r, t)) :
    (n = 0 ∧ r = null ∧ t = Port.pushed s x.bucket x.addr) ∨
      (n ≠ 0 ∧ sizeClass n.toNat = some x.bucket.val ∧ r = x.ptr ∧ t = s) ∨
      (n ≠ 0 ∧ sizeClass n.toNat ≠ some x.bucket.val ∧
        ∃ u, (Port.kmalloc release n).run (Port.pushed s x.bucket x.addr) = .ok (r, u) ∧
          t = if r = null ∨ x.ptr = r then u
            else copied u r x.ptr n (UInt32.ofNat (cap x.bucket))) := by
  by_cases hn : n = 0
  · subst hn
    rw [run_realloc_zero fuel (h.ptr_ne_null (.inl hx)), h.run_kfree hx, map_ok] at hrun
    obtain ⟨hr, ht⟩ := Prod.ext_iff.mp (Except.ok.inj hrun)
    exact .inl ⟨rfl, hr.symm, ht.symm⟩
  · right
    rw [h.run_realloc hx hpage hn] at hrun
    split at hrun
    · rename_i hclass
      obtain ⟨hr, ht⟩ := Prod.ext_iff.mp (Except.ok.inj hrun)
      exact .inl ⟨hn, hclass, hr.symm, ht.symm⟩
    · rename_i hclass
      cases hmalloc : (Port.kmalloc release n).run (Port.pushed s x.bucket x.addr) with
      | error e => simp [moveTo, hmalloc] at hrun
      | ok p =>
          rw [run_moveTo hmalloc] at hrun
          obtain ⟨rfl, ht⟩ := Prod.ext_iff.mp (Except.ok.inj hrun)
          exact .inr ⟨hn, hclass, p.2, rfl, ht.symm⟩

/-- A block that is kept is the one on top of its stack after a `kfree`. -/
theorem Repr.kept {x : Block} (h : Repr ⟨s, live⟩ S) (hx : x ∈ S.held)
    (hclass : sizeClass n.toNat = some x.bucket.val) :
    ∃ S', Repr ⟨s, handOut x.ptr n (takeBack x.ptr live)⟩ S' ∧
      Obtains (pushed s x.bucket x.addr) (S.give hx) n x.ptr S' := by
  have hb := (h.owns.size x ((h.owns.has x).mp (.inl hx))).1
  have hparked : (S.give hx).parked x.bucket = x :: S.parked x.bucket :=
    Function.update_self ..
  refine ⟨(S.give hx).take hparked, ⟨⟨fun b => ?_, ?_, fun y hy => ?_, fun y => ?_,
    h.owns.size, h.owns.fresh⟩, h.mode⟩,
    .served hb (.hit hparked) rfl (fun _ => hclass) ?_ ?_ ?_⟩
  · have hback : ((S.give hx).take hparked).parked = S.parked := by
      simp [Stock.take, Stock.give]
    rw [hback]
    exact h.owns.chain b
  · rw [handOut_ne (h.owns.ptr_ne_null (.inl hx))]
    simp [h.owns.takeBack_held hx]
  · rw [Stock.take_held, List.mem_cons, Stock.give_held, List.mem_filter] at hy
    rcases hy with rfl | hy
    · exact h.owns.header y hx
    · exact h.owns.header y hy.1
  · rw [Stock.has_take, Stock.has_give]
    exact h.owns.has y
  · rintro _ ⟨⟩
    exact ⟨rfl, by simp, by simp⟩
  · simp [hparked]
  · refine iff_of_false (by simp) fun hrefused => ?_
    have := (h.owns.pushed hx).nextf_null.mp hrefused.1
    simp [hparked] at this

/-- A copy that stays in the payload of a block in use. -/
theorem Repr.copy_inside {y : Block} {cp onb : UInt32} (h : Repr ⟨s, live⟩ S) (hy : y ∈ S.held)
    (hlen : (if n < onb then n else onb).toNat + 4 ≤ y.size) :
    Repr ⟨Port.copied s y.ptr cp n onb, live⟩ S := by
  refine ⟨?_, h.mode.congr rfl rfl rfl⟩
  have hin := h.owns.inside (.inl hy)
  have hptr := h.owns.ptr_toNat (.inl hy)
  refine h.owns.payload_frame (.inl hy) 0 (Mem.copy_same _ _ ?_) ?_ <;> omega

/-- **`realloc`** of a block in use gives the block back and then serves the
request; when it keeps the block, that is the block it serves. -/
theorem Repr.realloc {fuel : Nat} {x : Block} (h : Repr ⟨s, live⟩ S) (hx : x ∈ S.held)
    (hpage : s.vars.pageSz = 4096) (hready : s.vars.pageBucket = 9) (hn : n ≠ 0)
    (hclear : Clear s n) (hrun : (Port.realloc release fuel x.ptr n).run s = .ok (r, t))
    (hfresh : Fresh t.log) :
    ∃ S', Repr ⟨t, handOut r n (takeBack x.ptr live)⟩ S' ∧
      Obtains (pushed s x.bucket x.addr) (S.give hx) n r S' := by
  rcases h.owns.realloc_cases hx hpage hrun with
    ⟨h0, _⟩ | ⟨_, hclass, rfl, rfl⟩ | ⟨_, hclass, u, hmalloc, rfl⟩
  · exact absurd h0 hn
  · exact h.kept hx hclass
  · have hfresh' : Fresh u.log := by
      split at hfresh <;> exact hfresh
    obtain ⟨S', hrepr, hobtains⟩ := (h.kfree hx).kmalloc hmalloc hfresh'
    rw [started_eq (show (pushed s x.bucket x.addr).vars.pageSz = 4096 from hpage)] at hobtains
    refine ⟨S', ?_, hobtains⟩
    split
    · exact hrepr
    · -- the copy stays in the payload of the block that was obtained
      rename_i hcopy
      obtain ⟨hr, _⟩ := not_or.mp hcopy
      obtain ⟨y, hy, rfl, hfit, _⟩ :=
        hobtains.fits hready (hclear.pushed (.inl hclass)) hrepr.owns hr
      have hlen : (if n < UInt32.ofNat (cap x.bucket) then n
          else UInt32.ofNat (cap x.bucket)).toNat ≤ n.toNat := by
        split
        · exact Nat.le_refl _
        · rename_i hge
          rw [UInt32.lt_iff_toNat_lt] at hge
          omega
      exact hrepr.copy_inside hy (by omega)

/-! ## What the client asked for -/

/-- Every pointer the client holds has the bytes it asked for, and no block
of the top class was ever carved. -/
structure Fit (live : List Handle) (S : Stock Block.bucket) : Prop where
  fits : ∀ e ∈ live, ∀ x ∈ S.held, e.ptr = x.ptr → e.req.toNat + 4 ≤ x.size
  below : ∀ x, S.Has x → x.bucket.val < 28

theorem Fit.give (h : Fit live S) {x : Block} (hx : x ∈ S.held) :
    Fit (takeBack x.ptr live) (S.give hx) where
  fits := by
    intro e he y hy
    rw [Stock.give_held] at hy
    exact h.fits e (List.mem_filter.mp he).1 y (List.mem_filter.mp hy).1
  below := by
    intro y hy
    rw [Stock.has_give] at hy
    exact h.below y hy

/-- A request that is `Clear` is obtained in full. -/
theorem Fit.obtains {s₀ : Machine Statics} {S' : Stock Block.bucket}
    (h : Fit live S) (howns : Owns s live S) (hobtains : Obtains s₀ S n r S')
    (hready : s₀.vars.pageBucket = 9) (hclear : Clear s₀ n)
    (howns' : Owns t (handOut r n live) S') : Fit (handOut r n live) S' := by
  have hfits := hobtains.fits hready hclear howns'
  cases hobtains with
  | none hnull _ => rwa [hnull, handOut_null]
  | @served b o _ hb hserve hret hclass hnew _ hrefused =>
      refine ⟨fun e he x hx hptr => ?_, fun x hx => ?_⟩
      · rw [hserve.held_eq, List.mem_append, Option.mem_toList] at hx
        by_cases hr : r = null
        · -- no new handle, and no new block either
          rw [hr, handOut_null] at he
          rcases hx with hx | hx
          · rw [hr, hx] at hret
            exact absurd hret.symm (howns'.ptr_ne_null (.inl (hnew x hx).2.1))
          · exact h.fits e he x hx hptr
        · obtain ⟨y, hy, hry, hfit, _⟩ := hfits hr
          rw [handOut_ne hr, List.mem_cons] at he
          have hxheld : x ∈ S'.held := by
            rw [hserve.held_eq, List.mem_append, Option.mem_toList]
            exact hx
          rcases he with rfl | he
          · -- the new handle: its block is the one obtained
            cases howns'.ptr_inj (.inl hxheld) (.inl hy) (hptr.symm.trans hry)
            exact hfit
          · rcases hx with hx | hx
            · -- an old handle does not point to the block obtained
              obtain ⟨z, hz, hzptr⟩ := howns.exists_held ⟨e, he, rfl⟩
              have hzheld : z ∈ S'.held := by
                rw [hserve.held_eq]
                exact List.mem_append_right _ hz
              cases howns'.ptr_inj (.inl hzheld) (.inl hxheld) (hzptr.trans hptr)
              exact absurd hz (hnew _ hx).2.2
            · exact h.fits e he x hx hptr
      · rcases hserve.has_cases hx with hx | ⟨hcls, hsome, _⟩
        · exact h.below x hx
        · cases o with
          | none => exact absurd rfl hsome
          | some y =>
              rw [hcls]
              -- `sbrk` refuses a negative amount, so nothing comes of the top class
              have hne : b.val ≠ 28 := by
                intro h28
                have h28' : b = 28 := Fin.ext h28
                have hclass := hclass hready
                rw [h28] at hclass
                exact Option.some_ne_none y (hrefused.mpr (h28' ▸ hclear.not_top hclass))
              omega

end Requests

/-! ## A step -/

/-- The calls under which the heap stays well formed. A request of any size
may be made; a block is only moved by `realloc` when the request is `Clear`. -/
def Tame (sys : Sys Statics) : Call → Prop
  | .kmalloc _ => True
  | .kfree cp => cp = null ∨ Held sys.live cp
  | .realloc cp n => cp = null ∨
      (Held sys.live cp ∧ sys.machine.vars.pageBucket = 9 ∧ Clear sys.machine n)
  | .write cp off _ => ∃ x ∈ carved sys.machine.log,
      x.ptr = cp ∧ Held sys.live cp ∧ off.toNat + 4 < x.size

instance (s : Machine Statics) (b : Fin nbuckets) : Decidable (Refused s b) :=
  inferInstanceAs (Decidable (_ ∧ _))

instance (s : Machine Statics) (n : UInt32) : Decidable (Clear s n) :=
  inferInstanceAs (Decidable (_ ∨ _))

instance (sys : Sys Statics) (c : Call) : Decidable (Tame sys c) :=
  match c with
  | .kmalloc _ => isTrue trivial
  | .kfree cp => inferInstanceAs (Decidable (cp = null ∨ Held sys.live cp))
  | .realloc cp n => inferInstanceAs (Decidable (cp = null ∨
      (Held sys.live cp ∧ sys.machine.vars.pageBucket = 9 ∧ Clear sys.machine n)))
  | .write cp off _ => inferInstanceAs (Decidable (∃ x ∈ carved sys.machine.log,
      x.ptr = cp ∧ Held sys.live cp ∧ off.toNat + 4 < x.size))

/-- A disciplined client, except that any request may be made that is
`Clear` of the top class. -/
def Careful (sys : Sys Statics) : Call → Prop
  | .kmalloc n => Clear (started sys.machine) n
  | .kfree cp => cp = null ∨ Held sys.live cp
  | .realloc cp n => Clear (started sys.machine) n ∧ (cp = null ∨ Held sys.live cp)
  | .write cp off _ => ∃ h ∈ sys.live, h.ptr = cp ∧ off < h.req

theorem Careful.of_disciplined {sys : Sys Statics} {c : Call} (h : Disciplined sys c) :
    Careful sys c := by
  cases c with
  | kmalloc n => exact .inl h
  | kfree cp => exact h
  | realloc cp n => exact ⟨.inl h.1, h.2⟩
  | write cp off byte => exact h

/-- One move of the stock, after which a class that has grown has fewer
blocks parked than one `morecore` makes. -/
def Move (S S' : Stock Block.bucket) : Prop :=
  Stock.Step S S' ∧
    ∀ i, S'.population i ≠ S.population i → (S'.parked i).length ≤ nblks i - 1

theorem Obtains.spare {s : Machine Statics} {S S' : Stock Block.bucket} {n r : UInt32}
    (h : Obtains s S n r S') (i : Fin nbuckets)
    (hi : S'.population i ≠ S.population i) : (S'.parked i).length ≤ nblks i - 1 := by
  cases h with
  | none _ _ => exact absurd rfl hi
  | served _ hserve _ _ _ hspare _ =>
      rcases hserve.population_cases i with heq | ⟨rfl, hempty, _⟩
      · exact absurd heq hi
      · exact hspare hempty

theorem Obtains.move {s : Machine Statics} {S S' : Stock Block.bucket} {n r : UInt32}
    (h : Obtains s S n r S') : Move S S' := by
  refine ⟨?_, h.spare⟩
  cases h with
  | none _ _ => exact .skip
  | served _ hserve _ _ _ _ _ => exact .serve hserve

theorem Obtains.exchange {s : Machine Statics} {S S' : Stock Block.bucket} {n r : UInt32}
    {x : Block} (hx : x ∈ S.held) (h : Obtains s (S.give hx) n r S') : Move S S' := by
  refine ⟨?_, fun i hi => h.spare i (by rwa [Stock.population_give])⟩
  cases h with
  | none _ _ => exact .give hx
  | served _ hserve _ _ _ _ _ => exact .exchange hx hserve

theorem Move.skip (S : Stock Block.bucket) : Move S S :=
  ⟨.skip, fun _ hi => absurd rfl hi⟩

theorem Move.give {S : Stock Block.bucket} {x : Block} (hx : x ∈ S.held) :
    Move S (S.give hx) :=
  ⟨.give hx, fun i hi => absurd (Stock.population_give hx i) hi⟩

theorem Mode.page {s : Machine Statics} {live : List Handle} {S : Stock Block.bucket}
    {x : Block} (h : Mode s) (howns : Owns s live S) (hx : x ∈ S.held) :
    s.vars.pageSz = 4096 := by
  cases h with
  | unset _ _ hlog =>
      have := (howns.has x).mp (.inl hx)
      simp [hlog] at this
  | ready hpage _ => exact hpage
  | failed hpage _ _ => exact hpage

theorem Mode.bucket {s : Machine Statics} (h : Mode s) (hpage : s.vars.pageSz = 4096)
    (hok : InitOk s.log) : s.vars.pageBucket = 9 := by
  cases h with
  | unset hpage' => rw [hpage] at hpage'; simp at hpage'
  | ready _ hbucket => exact hbucket
  | failed _ _ halign => exact absurd hok halign

/-- After the first call's own, `kmalloc` calls `sbrk` in `morecore` only, and
only for a bucket that is empty. -/
theorem kmalloc_more {s t : Machine Statics} {n r : UInt32} (hmode : Mode s)
    (hrun : (kmalloc release n).run s = .ok (r, t)) :
    ∃ more, t.log = (started s).log ++ more ∧ ∀ c ∈ more, ∃ (b : Fin nbuckets) (ret : UInt32),
      b.val < 29 ∧ s.vars.nextf b = null ∧ c = growCall b ret := by
  rcases kmalloc_cases hmode hrun with ⟨_, rfl, _⟩ | ⟨b, hb, htaken, _⟩
  · exact ⟨[], (List.append_nil _).symm, by simp⟩
  · obtain ⟨_, rfl⟩ := Prod.ext_iff.mp htaken
    refine ⟨_, (log_taken b).trans (log_refilled _ b), ?_⟩
    rw [started_nextf]
    split
    · rename_i hnull
      intro c hc
      exact ⟨b, _, hb, hnull, List.mem_singleton.mp hc⟩
    · simp

theorem InitOk.of_append {log more : List SbrkCall} (h : InitOk (log ++ more)) :
    InitOk log := fun c hc => h c (List.mem_append_left _ hc)

theorem kmalloc_ready {s t : Machine Statics} {n r : UInt32} (hmode : Mode s)
    (hrun : (kmalloc release n).run s = .ok (r, t)) (hok : InitOk t.log) :
    (started s).vars.pageBucket = 9 := by
  obtain ⟨more, hlog, _⟩ := kmalloc_more hmode hrun
  rw [hlog] at hok
  exact hmode.started.1.bucket hmode.started.2 hok.of_append

section Step

variable {fuel : Nat} {a b : Sys Statics} {S : Stock Block.bucket} {r : UInt32}

/-- A store inside a block, behind its header. -/
theorem Repr.write {s : Machine Statics} {live : List Handle} {x : Block} {off : UInt32}
    (h : Repr ⟨s, live⟩ S) (hx : x ∈ carved s.log) (hoff : off.toNat + 4 < x.size)
    (byte : UInt8) : Repr ⟨{ s with mem := s.mem.store8 (x.ptr + off) byte }, live⟩ S := by
  have hhas := (h.owns.has x).mpr hx
  have hin := h.owns.inside hhas
  have hptr := h.owns.ptr_toNat hhas
  have haddr : (x.ptr + off).toNat = x.ptr.toNat + off.toNat := by
    rw [UInt32.toNat_add, Nat.mod_eq_of_lt (by omega)]
  refine ⟨?_, h.mode.congr rfl rfl rfl⟩
  refine h.owns.payload_frame hhas off.toNat (k := 1) ?_ (by omega)
  rw [← haddr]
  exact Mem.store8_same _ _ _

/-- What the tame calls do. `kmalloc` is called by `realloc` of null too, and a
block is given back by `realloc` to nothing too. -/
inductive Performs (fuel : Nat) (s : Machine Statics) (live : List Handle)
    (S : Stock Block.bucket) : Call → UInt32 → Sys Statics → Prop
  | kmalloc {c : Call} {n r : UInt32} {t : Machine Statics}
      (hcall : c = .kmalloc n ∨ c = .realloc null n)
      (hrun : (Port.kmalloc release n).run s = .ok (r, t)) :
      Performs fuel s live S c r ⟨t, handOut r n live⟩
  | kfreeNull : Performs fuel s live S (.kfree null) null ⟨s, live⟩
  | kfree {c : Call} {x : Block} (hx : x ∈ S.held)
      (hcall : c = .kfree x.ptr ∨ c = .realloc x.ptr 0) :
      Performs fuel s live S c null ⟨pushed s x.bucket x.addr, takeBack x.ptr live⟩
  | realloc {x : Block} {n r : UInt32} {t : Machine Statics} (hx : x ∈ S.held)
      (hpage : s.vars.pageSz = 4096) (hready : s.vars.pageBucket = 9) (hn : n ≠ 0)
      (hclear : Clear s n) (hrun : (Port.realloc release fuel x.ptr n).run s = .ok (r, t)) :
      Performs fuel s live S (.realloc x.ptr n) r ⟨t, handOut r n (takeBack x.ptr live)⟩
  | write {x : Block} {off : UInt32} (byte : UInt8) (hx : x ∈ carved s.log)
      (hoff : off.toNat + 4 < x.size) :
      Performs fuel s live S (.write x.ptr off byte) null
        ⟨{ s with mem := s.mem.store8 (x.ptr + off) byte }, live⟩

theorem Repr.performs {s : Machine Statics} {live : List Handle} {c : Call}
    (h : Repr ⟨s, live⟩ S) (htame : Tame ⟨s, live⟩ c)
    (hperform : (Port.allocator fuel).perform ⟨s, live⟩ c = .ok (r, b)) :
    Performs fuel s live S c r b := by
  cases c with
  | kmalloc n =>
      obtain ⟨t, hrun, rfl⟩ := perform_kmalloc.mp hperform
      exact .kmalloc (.inl rfl) hrun
  | kfree cp =>
      obtain ⟨t, hrun, rfl, rfl⟩ := perform_kfree.mp hperform
      change (Port.kfree release cp).run s = _ at hrun
      rcases htame with rfl | hheld
      · rw [run_kfree_null] at hrun
        cases hrun
        rw [h.owns.takeBack_null]
        exact .kfreeNull
      · obtain ⟨x, hx, rfl⟩ := h.owns.exists_held hheld
        rw [h.owns.run_kfree hx] at hrun
        cases hrun
        exact .kfree hx (.inl rfl)
  | realloc cp n =>
      obtain ⟨t, hrun, rfl⟩ := perform_realloc.mp hperform
      change (Port.realloc release fuel cp n).run s = _ at hrun
      rcases htame with rfl | ⟨hheld, hready, hclear⟩
      · rw [run_realloc_null] at hrun
        rw [h.owns.takeBack_null]
        exact .kmalloc (.inr rfl) hrun
      · obtain ⟨x, hx, rfl⟩ := h.owns.exists_held hheld
        have hpage := h.mode.page h.owns hx
        by_cases hn : n = 0
        · subst hn
          rw [run_realloc_zero fuel (h.owns.ptr_ne_null (.inl hx)), h.owns.run_kfree hx,
            map_ok] at hrun
          cases hrun
          rw [handOut_null]
          exact .kfree hx (.inr rfl)
        · exact .realloc hx hpage hready hn hclear hrun
  | write cp off byte =>
      obtain ⟨x, hx, rfl, _, hoff⟩ := htame
      cases hperform
      exact .write byte hx hoff

/-- **The step lemma**: a tame call keeps the invariant and moves the stock
once, and the pointers of a careful client keep fitting. -/
theorem Repr.step {l : Call × UInt32} (h : Repr a S)
    (hs : (Port.allocator fuel).Step Tame Fresh a l b) :
    ∃ S', Repr b S' ∧ Move S S' ∧
      (Fit a.live S → Careful a l.1 → InitOk b.machine.log → Fit b.live S') := by
  obtain ⟨s, live⟩ := a
  obtain ⟨call, r⟩ := l
  obtain ⟨htame, hperform, hfresh⟩ := hs
  cases h.performs htame hperform with
  | @kmalloc _ n _ t hcall hrun =>
      obtain ⟨S', hrepr, hobtains⟩ := h.kmalloc hrun hfresh
      refine ⟨S', hrepr, hobtains.move, fun hfit hcareful hok => ?_⟩
      have hclear : Clear (started s) n := by
        rcases hcall with rfl | rfl
        · exact hcareful
        · exact hcareful.1
      exact hfit.obtains h.owns hobtains (kmalloc_ready h.mode hrun hok) hclear hrepr.owns
  | kfreeNull => exact ⟨S, h, .skip S, fun hfit _ _ => hfit⟩
  | kfree hx _ => exact ⟨S.give hx, h.kfree hx, .give hx, fun hfit _ _ => hfit.give hx⟩
  | realloc hx hpage hready hn hclear hrun =>
      obtain ⟨S', hrepr, hobtains⟩ := h.realloc hx hpage hready hn hclear hrun hfresh
      refine ⟨S', hrepr, hobtains.exchange hx, fun hfit _ _ => ?_⟩
      exact (hfit.give hx).obtains (h.owns.pushed hx) hobtains hready
        (hclear.pushed (.inr (hfit.below _ (.inl hx)))) hrepr.owns
  | write byte hx hoff => exact ⟨S, h.write hx hoff byte, .skip S, fun hfit _ _ => hfit⟩

/-- What one call of the client may add to the log: the first call's own
calls, and a `morecore` of a class that has nothing parked. -/
def Grows (s : Machine Statics) (S : Stock Block.bucket) (t : Machine Statics) : Prop :=
  (t.log = s.log ∧ t.vars.pageSz = s.vars.pageSz) ∨
    ∃ more, t.log = (started s).log ++ more ∧
      ∀ c ∈ more, ∃ (i : Fin nbuckets) (ret : UInt32),
        i.val < 29 ∧ S.parked i = [] ∧ c = growCall i ret

/-- **Growth** happens on empty lists only, also inside `realloc`. -/
theorem Repr.grows {c : Call} (h : Repr a S) (htame : Tame a c)
    (hperform : (Port.allocator fuel).perform a c = .ok (r, b)) :
    Grows a.machine S b.machine := by
  obtain ⟨s, live⟩ := a
  -- `kmalloc`, on the client's machine or after a block was freed
  have hkmalloc {u t : Machine Statics} {n r : UInt32} (hmode : Mode u)
      (hstarted : (started u).log = (started s).log)
      (hnull : ∀ i, u.vars.nextf i = null → S.parked i = [])
      (hrun : (Port.kmalloc release n).run u = .ok (r, t)) : Grows s S t := by
    obtain ⟨more, hlog, hmore⟩ := kmalloc_more hmode hrun
    rw [hstarted] at hlog
    refine .inr ⟨more, hlog, fun c hc => ?_⟩
    obtain ⟨i, ret, hi, hempty, hcall⟩ := hmore c hc
    exact ⟨i, ret, hi, hnull i hempty, hcall⟩
  have hempty (i : Fin nbuckets) (hi : s.vars.nextf i = null) : S.parked i = [] :=
    h.owns.nextf_null.mp hi
  cases h.performs htame hperform with
  | kmalloc _ hrun => exact hkmalloc h.mode rfl hempty hrun
  | kfreeNull => exact .inl ⟨rfl, rfl⟩
  | kfree hx _ => exact .inl ⟨rfl, rfl⟩
  | @realloc x _ _ _ hx hpage hready hn _ hrun =>
      rcases h.owns.realloc_cases hx hpage hrun with
        ⟨h0, _⟩ | ⟨_, _, _, rfl⟩ | ⟨_, _, u, hmalloc, rfl⟩
      · exact absurd h0 hn
      · exact .inl ⟨rfl, rfl⟩
      · have hu : Grows s S u := by
          have hpage' : (pushed s x.bucket x.addr).vars.pageSz = 4096 := hpage
          refine hkmalloc (.ready hpage' hready) ?_ (fun i hi => ?_) hmalloc
          · rw [started_eq hpage', started_eq hpage]
            rfl
          · -- the bucket of the freed block is not empty, so it is another one
            have hpush := (h.owns.pushed hx).nextf_null.mp hi
            by_cases hib : i = x.bucket
            · subst hib
              simp [Stock.give] at hpush
            · simpa [Stock.give, Function.update_of_ne hib] using hpush
        show Grows s S (if _ then u else _)
        split <;> exact hu
  | write byte hx hoff => exact .inl ⟨rfl, rfl⟩

/-- Nothing is carved before the first call. -/
theorem Repr.start (mem : Mem) (os : Nat → UInt32) :
    Repr (Sys.start Statics.initial mem os) Stock.empty where
  owns := {
    chain := fun _ => .nil
    held := rfl
    header := by simp [Stock.empty]
    has := by simp [Stock.Has, Stock.empty, Sys.start]
    size := by simp [Sys.start]
    fresh := .nil }
  mode := .unset rfl rfl rfl

/-- The pointers that the calls of a run returned. -/
def returned (tr : List ((Call × UInt32) × Sys Statics)) : List UInt32 :=
  (labels tr).map Prod.snd

/-- **The run lemma** for tame clients: the invariant holds, and every pointer
ever returned is that of a carved block. -/
theorem tame_run {mem : Mem} {os : Nat → UInt32}
    {tr : List ((Call × UInt32) × Sys Statics)} {sys : Sys Statics}
    (hrun : Run ((Port.allocator fuel).Step Tame Fresh)
      (Sys.start Statics.initial mem os) tr sys) :
    ∃ S, Repr sys S ∧ ∀ p ∈ returned tr, p ≠ null → ∃ x, S.Has x ∧ x.ptr = p := by
  induction hrun with
  | nil => exact ⟨_, .start mem os, by simp [returned]⟩
  | @snoc tr a l b _ hs ih =>
      obtain ⟨S, hrepr, hreturned⟩ := ih
      obtain ⟨S', hrepr', hmove, _⟩ := hrepr.step hs
      refine ⟨S', hrepr', fun p hp hne => ?_⟩
      simp only [returned, labels_snoc, List.map_append, List.map_cons, List.map_nil,
        List.mem_append, List.mem_singleton] at hp
      rcases hp with hp | rfl
      · obtain ⟨x, hx, hptr⟩ := hreturned p hp hne
        exact ⟨x, hmove.1.has_mono hx, hptr⟩
      · obtain ⟨x, hx, hptr⟩ := hrepr'.owns.exists_held (perform_held hs.2.1 hne)
        exact ⟨x, .inl hx, hptr⟩

end Step

end Challenges.Kmalloc

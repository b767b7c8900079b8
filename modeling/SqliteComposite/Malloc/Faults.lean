import SqliteComposite.Malloc.Steps
import SqliteComposite.Mem.Returning

/-!
# When a call of the interface does not return

In the `malloc` build a call faults when `malloc` returns null, because the allocator writes a
header all the same, and when a block shrinks, because it copies all of it. In the arena build a
call faults when a block is freed and when it writes past the end of the arena.
-/

namespace SqliteComposite.Malloc

open Base Mem

/-- The call does not return. -/
def Fails {α : Type} (v : Except Fault α) : Prop := ∃ e, v = .error e

/-- `malloc` returns a region for the block that is asked for. -/
def Granted (x : Client) (q : Request) : Prop :=
  ∃ g, q.offer = some g ∧ Available x.heap.mem g.addr (regionSize (sizeOf q.call.bytes)).toNat

/-- The call takes a block back. -/
def TakesBack (x : Client) (q : Request) : Prop :=
  ∃ p, (x.world.block? p).isSome ∧
    (q.call = .free p ∨ q.call.pOld = some p ∧ q.call.bytes = 0)

/-- The call makes a block smaller. -/
def Shrinks (x : Client) (q : Request) : Prop :=
  ∃ p blk, q.call.pOld = some p ∧ x.world.block? p = some blk ∧
    (q.call.bytes.toNat : Int) < blk.size.toInt

/-- The call asks for a block and the arena has room for it. -/
def Advances (base : Int) (x : Client) (q : Request) : Prop :=
  requested x q ≠ 0 ∧ x.heap.mem.freeMemory + q.call.bytes.toNat < base + memoryArenaSize

/-- The call writes all bytes up to an address: a header, the zeros behind it, the bytes copied
behind it, or one byte of a block. -/
inductive WritesTo (base : Int) (x : Client) (q : Request) : Int → Prop
  | header : Advances base x q → WritesTo base x q (getMemory x.heap.mem.freeMemory)
  | zeros {n : UInt64} : q.call = .mallocZero n → Advances base x q →
      WritesTo base x q (getMemory x.heap.mem.freeMemory + n.toNat)
  | copied {p : Int} {blk : Block} : q.call.pOld = some p → x.world.block? p = some blk →
      Advances base x q → WritesTo base x q (getMemory x.heap.mem.freeMemory + blk.size.toInt)
  | stored {p : Int} {off : Nat} {c : UInt8} {blk : Block} : q.call = .store p off c →
      x.world.block? p = some blk → (off : Int) < blk.size.toInt →
      WritesTo base x q (p + off + 1)

/-- The call faults in the allocator. -/
def Crashes (b : Build) (x : Client) (q : Request) : Prop :=
  match b with
  | .useMalloc => requested x q ≠ 0 ∧ (¬ Granted x q ∨ Shrinks x q)
  | .arena base _ => TakesBack x q ∨ ∃ y, WritesTo base x q y ∧ base + memoryArenaSize < y

section

variable {α β : Type} {b : Build} {base : Int} {h0 : 0 < base} {s s' : State} {sz : Int32}
  {offer retry : Option Grant} {region p : Int} {h : Subsystem} {n : UInt64}

/-- What returns does not fail. -/
@[simp] theorem not_fails_ok (a : α) : ¬ Fails (.ok a : Except Fault α) := by
  rintro ⟨e, ⟨⟩⟩

/-- What faults fails. -/
@[simp] theorem fails_error (e : Fault) : Fails (.error e : Except Fault α) := ⟨e, rfl⟩

/-- Steps in a row fail when the first one does, or the rest after it. -/
theorem fails_bind {v : Except Fault α} {f : α → Except Fault β} :
    Fails (v >>= f) ↔ Fails v ∨ ∃ a, v = .ok a ∧ Fails (f a) := by
  cases v with
  | error e => exact iff_of_true ⟨e, rfl⟩ (.inl ⟨e, rfl⟩)
  | ok a =>
    rw [ok_bind]
    constructor
    · exact fun hf ↦ .inr ⟨a, rfl, hf⟩
    · rintro (hf | ⟨_, ⟨⟩, hf⟩)
      · exact absurd hf (not_fails_ok a)
      · exact hf

/-- Steps in a row whose last one returns fail when those before do. -/
theorem fails_bind_iff {v : Except Fault α} {f : α → Except Fault β} (hf : ∀ a, ¬ Fails (f a)) :
    Fails (v >>= f) ↔ Fails v := by
  rw [fails_bind]
  apply or_iff_left
  rintro ⟨a, _, h⟩
  exact hf a h

/-- What fails is what does not return. -/
theorem fails_iff {v : Except Fault α} : Fails v ↔ ¬ ∃ a, v = .ok a := by
  cases v with
  | error e => exact iff_of_true (fails_error e) (by rintro ⟨_, ⟨⟩⟩)
  | ok a => exact iff_of_false (not_fails_ok a) (not_not.mpr ⟨a, rfl⟩)

/-! ### The allocator -/

/-- The header that was written can be read. -/
theorem mallocTo_size (hto : MallocTo b s sz region s') (hpos : 0 < region) :
    cMemSize b s' (getMemory region) = .ok sz := by
  rw [cMemSize, getMemorySize, getRegion_getMemory]
  cases hto with
  | exhausted _ => exact absurd hpos (lt_irrefl _)
  | advanced _ hb => exact readInt_eq hb (header_poke _ rfl)
  | granted hav h4 _ =>
    refine readInt_eq ⟨hpos.ne', fun y hy hlt ↦ ⟨_, List.mem_cons_self, rfl, hy, ?_⟩⟩
      (header_poke _ rfl)
    dsimp only
    omega

/-- In the `malloc` build a block is asked for in vain when `malloc` returns null. -/
theorem fails_cMemMalloc_useMalloc (hsz : 0 < sz.toInt) :
    Fails (cMemMalloc .useMalloc s sz offer) ↔
      ¬ ∃ g, offer = some g ∧ Available s g.addr (regionSize sz).toNat := by
  rw [fails_iff, cMemMalloc_returns, serves_useMalloc hsz]

/-- A header in the arena is in front of its end. -/
theorem hasHeader_iff (hlo : base ≤ region) : HasHeader (.arena base h0) s region ↔
    getMemory region ≤ base + memoryArenaSize := by
  have h4 : sizeofInt = 4 := rfl
  unfold getMemory
  constructor
  · rintro ⟨_, hin⟩
    have hlast := (hin (region + 3) (by omega) (by omega)).2
    omega
  · intro hle
    exact ⟨by omega, fun y hy hlt ↦ ⟨by omega, by omega⟩⟩

/-- In the arena build a block is asked for in vain when its header crosses the end. -/
theorem fails_cMemMalloc_arena (hlo : base ≤ s.freeMemory) :
    Fails (cMemMalloc (.arena base h0) s sz offer) ↔ HasRoom (.arena base h0) s sz ∧
      base + memoryArenaSize < getMemory s.freeMemory := by
  rw [fails_iff, cMemMalloc_returns, Serves, hasHeader_iff hlo, Classical.not_imp, not_le]

variable {w : World} {blk : Block}

/-- In the `malloc` build a block gets another size in vain when `malloc` returns null or the
size is smaller. -/
theorem fails_cMemRealloc_useMalloc (hr : (Mem.system .useMalloc).Reach Positive w)
    (hblk : w.block? blk.ptr = some blk) (hsz : 0 < sz.toInt) :
    Fails (cMemRealloc .useMalloc w.state blk.ptr sz offer) ↔
      ¬ (∃ g, offer = some g ∧ Available w.state g.addr (regionSize sz).toNat) ∨
        sz.toInt < blk.size.toInt := by
  have hv := World.mem_live hblk
  rw [fails_iff, cMemRealloc_useMalloc (reach_issued hr) hv (reach_size_pos hr hv).le hsz,
    not_and_or, not_le, or_comm]

/-- In the arena build the header and the copy of a block are in bounds when the copy ends in
front of the end. -/
theorem copyFits_arena (hh : Headed base w) (hv : blk ∈ w.live) :
    Serves (.arena base h0) w.state sz offer ∧ CopyFits (.arena base h0) w.state blk sz ↔
      (HasRoom (.arena base h0) w.state sz →
        getMemory w.state.freeMemory + blk.size.toInt ≤ base + memoryArenaSize) := by
  obtain ⟨hlo, hpos, hhi⟩ := hh.placed.stacked.within blk hv
  have hfloor := hh.placed.stacked.floor
  have hcount := toNat_size hpos.le
  have hold : getMemorySize (.arena base h0) w.state blk.ptr = .ok blk.size :=
    readInt_eq (hh.placed.hasHeader hv) (hh.header blk hv)
  constructor
  · rintro ⟨_, hfits⟩ hroom
    -- The last byte is copied into the arena.
    obtain ⟨_, _, hlast⟩ :=
      hfits hroom blk.size hold (blk.size.toInt.toNat - 1) (by omega)
    unfold getMemory at hlast ⊢
    omega
  · intro hle
    refine ⟨fun hroom ↦ ?_, fun hroom oldSz ho i hlt ↦ ?_⟩
    · have hend := hle hroom
      exact (hasHeader_iff hfloor).mpr (by omega)
    · have hend := hle hroom
      rw [hold] at ho
      cases ho
      unfold getRegion at hlo hhi
      unfold getMemory at hend ⊢
      exact ⟨⟨by omega, by omega⟩, by omega, by omega⟩

/-- In the arena build a block gets another size in vain when its copy crosses the end. -/
theorem fails_cMemRealloc_arena {ok : World → Mem.Request → Prop}
    (hr : (Mem.system (.arena base h0)).Reach ok w) (hh : Headed base w) (hv : blk ∈ w.live) :
    Fails (cMemRealloc (.arena base h0) w.state blk.ptr sz offer) ↔
      HasRoom (.arena base h0) w.state sz ∧
        base + memoryArenaSize < getMemory w.state.freeMemory + blk.size.toInt := by
  obtain ⟨_, ho⟩ := reach_readable hr hv
  rw [fails_iff, cMemRealloc_returns (reach_issued hr) hv ho, copyFits_arena hh hv,
    Classical.not_imp, not_le]

/-- Filling a part of a region fails when the part is not in bounds. -/
theorem fails_memset {c : UInt8} (hreg : region ≠ 0) (k : Nat) : ∀ {i : Nat} {s : State},
    Fails (memset b region c i k s) ↔
      ∃ j, i ≤ j ∧ j < i + k ∧ ¬ InBounds b s region (region + (sizeofInt + j : Nat)) := by
  induction k with
  | zero =>
    intro i s
    refine iff_of_false (not_fails_ok s) ?_
    rintro ⟨j, hj, hlt, _⟩
    omega
  | succ k ih =>
    intro i s
    rw [memset]
    by_cases hin : InBounds b s region (region + (sizeofInt + i : Nat))
    · rw [writeByte_eq hreg hin, ok_bind, ih]
      simp only [inBounds_bytes]
      constructor
      · rintro ⟨j, hj, hlt, hout⟩
        exact ⟨j, by omega, by omega, hout⟩
      · rintro ⟨j, hj, hlt, hout⟩
        have hne : j ≠ i := by
          rintro rfl
          exact hout hin
        exact ⟨j, by omega, by omega, hout⟩
    · refine iff_of_true ?_ ⟨i, le_rfl, by omega, hin⟩
      rw [fails_bind]
      left
      rw [writeByte, if_neg hreg, if_neg hin]
      exact fails_error _

/-! ### The functions -/

/-- A block that is handed out has a size that can be read. -/
theorem cMemMalloc_size (he : cMemMalloc b s sz offer = .ok (p, s')) (hp : p ≠ 0) :
    cMemSize b s' p = .ok sz := by
  obtain ⟨region, _, hto, ⟨_, h0, _⟩ | ⟨hpos, rfl⟩⟩ := cMemMalloc_ok he
  · exact absurd h0 hp
  · exact mallocTo_size hto hpos

/-- A block is asked for in vain when the allocator is. -/
theorem fails_sqlite3Malloc (hm : h.bMemstat = true) : Fails (sqlite3Malloc b h n offer) ↔
    Grantable n ∧ Fails (cMemMalloc b h.mem (sizeOf n) offer) := by
  unfold sqlite3Malloc
  by_cases hg : Grantable n
  · have hn : ¬ (n = 0 ∨ n ≥ 0x7fffff00) := by
      rintro (h0 | hge)
      · exact hg.1 h0
      · exact absurd hg.2 (UInt64.not_lt.mpr hge)
    rw [if_neg hn, if_pos hm, fails_bind_iff fun _ ↦ not_fails_ok _, mallocWithAlarm,
      checkAlarm_frame, fails_bind]
    simp only [hg, true_and]
    refine or_iff_left ?_
    rintro ⟨⟨p, s⟩, he, hf⟩
    dsimp only at hf
    by_cases hp : p ≠ 0
    · rw [if_pos hp, sqlite3MallocSize, cMemMalloc_size he hp, ok_bind] at hf
      exact not_fails_ok _ hf
    · rw [if_neg hp] at hf
      exact not_fails_ok _ hf
  · have hn : n = 0 ∨ n ≥ 0x7fffff00 := by
      rw [or_iff_not_imp_left]
      intro h0
      exact UInt64.not_lt.mp fun hlt ↦ hg ⟨h0, hlt⟩
    rw [if_pos hn]
    exact iff_of_false (not_fails_ok _) fun h ↦ hg h.1

/-- A block whose size can be read is freed in vain when the allocator cannot free it. -/
theorem fails_sqlite3Free (hm : h.bMemstat = true) (hp : p ≠ 0)
    (hsize : cMemSize b h.mem p = .ok sz) :
    Fails (sqlite3Free b h p) ↔ Fails (cMemFree h.mem p) := by
  rw [sqlite3Free, if_neg hp, if_pos hm, sqlite3MallocSize, hsize, ok_bind,
    fails_bind_iff fun _ ↦ not_fails_ok _]

/-- In the arena build a block is freed in vain. -/
theorem fails_cMemFree (hr : (Mem.system b).Reach (Mem.Careful b) w)
    (hblk : w.block? blk.ptr = some blk) : Fails (cMemFree w.state blk.ptr) ↔ b.IsArena := by
  rw [fails_iff, cMemFree_returns (reach_issued hr) (World.mem_live hblk), not_not]

/-- What is offered does not matter when no block takes the place of another. -/
theorem cMemRealloc_retry (he : cMemRealloc b s p sz offer = .ok (0, s')) (retry : Option Grant) :
    cMemRealloc b s p sz retry = .ok (0, s') := by
  cases b with
  | useMalloc =>
    obtain ⟨_, _, _, _, _, hto, ⟨rfl, _⟩ | ⟨hpos, h0, _⟩⟩ := cMemRealloc_ok he
    · cases hto with
      | granted hav _ _ => exact absurd hav.1 (lt_irrefl _)
    · exact absurd h0.symm (getMemory_ne_zero hpos)
  | arena base h0 => exact he

/-- A block gets another size in vain when it does the first time the allocator is called. -/
theorem fails_reallocWithAlarm {ok : World → Mem.Request → Prop} {nOld : Int32}
    (hr : (Mem.system b).Reach ok w) (hw : w.state = h.mem)
    (hblk : w.block? blk.ptr = some blk) :
    Fails (reallocWithAlarm b h blk.ptr (sizeOf n) nOld (sizeOf n) offer retry) ↔
      Fails (cMemRealloc b h.mem blk.ptr (sizeOf n) offer) := by
  have halarm (h : Subsystem) (k : Int32) : sqlite3MallocAlarm h k = h := rfl
  simp only [reallocWithAlarm, halarm, ite_self]
  rw [fails_bind]
  refine or_iff_left ?_
  rintro ⟨⟨p₁, s₁⟩, he, hf⟩
  dsimp only at hf
  by_cases hp : p₁ = 0
  · -- The second time the allocator answers as it did the first time.
    subst hp
    obtain rfl := cMemRealloc_null he
    rw [cMemRealloc_retry he retry, ok_bind, ite_self, ok_bind] at hf
    exact not_fails_ok _ hf
  · rw [if_neg fun h ↦ hp h.1, ok_bind] at hf
    dsimp only at hf
    rw [if_pos hp] at hf
    have hstep := step_xRealloc (b := b) hblk (hw ▸ he) hp
    have hr' : (Mem.system b).Reach (fun _ _ ↦ True) ⟨s₁, blk.movedTo p₁ (sizeOf n) s₁ ::
        w.without blk.ptr⟩ := .next (hr.mono fun _ _ _ ↦ trivial) trivial ⟨_, hstep⟩
    obtain ⟨size, hsize⟩ := reach_readable hr' List.mem_cons_self
    have hread : sqlite3MallocSize b { h with
        stat := h.stat.sqlite3StatusHighwater sqliteStatusMallocSize (sizeOf n)
        mem := s₁ } p₁ = .ok size := hsize
    rw [hread, ok_bind] at hf
    exact not_fails_ok _ hf

/-! ### The calls -/

variable {x : Client} {q : Request}

/-- There is room for a block that may be asked for. -/
theorem hasRoom_sizeOf (hg : Grantable n) : HasRoom (.arena base h0) s (sizeOf n) ↔
    s.freeMemory + n.toNat < base + memoryArenaSize := by
  rw [HasRoom, (toInt_sizeOf hg).1]

/-- A call that asks for a block the caller does not have. -/
theorem crashes_asking (hs : Shares b x.others x.world)
    (hreq : requested x q = if Grantable q.call.bytes then q.call.bytes.toNat else 0)
    (hnone : ∀ p, q.call.pOld = some p → x.world.block? p = none)
    (hfree : ∀ p, q.call ≠ .free p) (hzero : b.IsArena → ∀ n, q.call ≠ .mallocZero n)
    (hstore : ∀ p off c, q.call ≠ .store p off c) :
    Crashes b x q ↔ Grantable q.call.bytes ∧
      Fails (cMemMalloc b x.heap.mem (sizeOf q.call.bytes) q.offer) := by
  by_cases hg : Grantable q.call.bytes
  · obtain ⟨hval, hpos⟩ := toInt_sizeOf hg
    rw [if_pos hg] at hreq
    have hreq0 : requested x q ≠ 0 := by omega
    cases b with
    | useMalloc =>
      have hshrink : ¬ Shrinks x q := by
        rintro ⟨p, blk, hp, hblk, _⟩
        rw [hnone p hp] at hblk
        cases hblk
      rw [fails_cMemMalloc_useMalloc (by omega)]
      simp only [Crashes, hreq0, hshrink, hg, ne_eq, not_false_eq_true, true_and, or_false,
        Granted]
    | arena base h0 =>
      have hfloor : base ≤ x.heap.mem.freeMemory := hs.floor
      have hback : ¬ TakesBack x q := by
        rintro ⟨p, hsome, hc | ⟨hp, _⟩⟩
        · exact hfree p hc
        · rw [hnone p hp] at hsome
          cases hsome
      rw [fails_cMemMalloc_arena hfloor]
      simp only [Crashes, hback, hg, true_and, false_or]
      constructor
      · rintro ⟨y, hy, hlt⟩
        cases hy with
        | header ha => exact ⟨(hasRoom_sizeOf hg).mpr ha.2, hlt⟩
        | zeros hc _ => exact absurd hc (hzero trivial _)
        | copied hp hblk _ =>
          rw [hnone _ hp] at hblk
          cases hblk
        | stored hc _ _ => exact absurd hc (hstore _ _ _)
      · rintro ⟨hroom, hlt⟩
        exact ⟨_, .header ⟨hreq0, (hasRoom_sizeOf hg).mp hroom⟩, hlt⟩
  · rw [if_neg hg] at hreq
    refine iff_of_false ?_ fun h ↦ hg h.1
    cases b with
    | useMalloc => exact fun h ↦ h.1 hreq
    | arena base h0 =>
      rintro (⟨p, hsome, hc | ⟨hp, _⟩⟩ | ⟨y, hy, _⟩)
      · exact hfree p hc
      · rw [hnone p hp] at hsome
        cases hsome
      · cases hy with
        | header ha => exact ha.1 hreq
        | zeros hc _ => exact absurd hc (hzero trivial _)
        | copied hp hblk _ =>
          rw [hnone _ hp] at hblk
          cases hblk
        | stored hc _ _ => exact absurd hc (hstore _ _ _)

/-- A call that asks for nothing and stores nothing crashes when it takes a block back in the
arena build. -/
theorem crashes_idle (hreq : requested x q = 0) (hstore : ∀ p off c, q.call ≠ .store p off c) :
    Crashes b x q ↔ b.IsArena ∧ TakesBack x q := by
  cases b with
  | useMalloc => exact iff_of_false (fun h ↦ h.1 hreq) fun h ↦ h.1
  | arena base h0 =>
    simp only [Crashes, Build.IsArena, true_and]
    refine or_iff_left ?_
    rintro ⟨y, hy, _⟩
    cases hy with
    | header ha => exact ha.1 hreq
    | zeros _ ha => exact ha.1 hreq
    | copied _ _ ha => exact ha.1 hreq
    | stored hc _ _ => exact hstore _ _ _ hc

/-- A call that gives a block another size. -/
theorem crashes_resizing (hs : Shares b x.others x.world)
    (hg : Grantable q.call.bytes) (hreq : requested x q = q.call.bytes.toNat)
    (hp : q.call.pOld = some blk.ptr) (hblk : x.world.block? blk.ptr = some blk) :
    Crashes b x q ↔
      Fails (cMemRealloc b x.heap.mem blk.ptr (sizeOf q.call.bytes) q.offer) := by
  obtain ⟨hval, hpos⟩ := toInt_sizeOf hg
  have hreq0 : requested x q ≠ 0 := by omega
  have hv := World.mem_live hblk
  cases b with
  | useMalloc =>
    have hshrink : Shrinks x q ↔ (sizeOf q.call.bytes).toInt < blk.size.toInt := by
      rw [hval]
      constructor
      · rintro ⟨p, v, hp', hv, hlt⟩
        rw [hp] at hp'
        cases hp'
        rw [hblk] at hv
        cases hv
        exact hlt
      · exact fun hlt ↦ ⟨blk.ptr, blk, hp, hblk, hlt⟩
    obtain ⟨w, hr, hw, _, hat⟩ := hs.whole
    rw [show x.heap.mem = w.state from hw.symm, fails_cMemRealloc_useMalloc
      (hr.mono fun _ _ hc ↦ hc.positive) (hat _ _ hblk) (by omega), hw, ← hshrink]
    simp only [Crashes, hreq0, ne_eq, not_false_eq_true, true_and]
    exact Iff.rfl
  | arena base h0 =>
    obtain ⟨w, hr, hw, hin, _⟩ := hs.whole
    have hsz := hs.size_pos hv
    rw [show x.heap.mem = w.state from hw.symm, fails_cMemRealloc_arena hr (reach_headed hr)
      ((hin blk).mpr (List.mem_append_left _ hv)), hasRoom_sizeOf hg, hw,
      show x.world.state = x.heap.mem from rfl]
    have hback : ¬ TakesBack x q := by
      rintro ⟨p, _, hc | ⟨_, h0⟩⟩
      · rw [hc] at hp
        cases hp
      · exact hg.1 h0
    simp only [Crashes, hback, false_or]
    constructor
    · rintro ⟨y, hy, hlt⟩
      cases hy with
      | header ha => exact ⟨ha.2, lt_of_lt_of_le hlt (le_add_of_nonneg_right hsz.le)⟩
      | zeros hc _ =>
        rw [hc] at hp
        cases hp
      | @copied p v hp' hv ha =>
        rw [hp] at hp'
        cases hp'
        rw [hblk] at hv
        cases hv
        exact ⟨ha.2, hlt⟩
      | stored hc _ _ =>
        rw [hc] at hp
        cases hp
    · rintro ⟨hroom, hlt⟩
      exact ⟨_, .copied hp hblk ⟨hreq0, hroom⟩, hlt⟩

/-- A call of `sqlite3_realloc64` crashes or returns. -/
theorem fails_stepRealloc (hm : x.heap.bMemstat = true)
    (hs : Shares b x.others x.world) (hp : q.call.pOld = some p) :
    Fails (x.stepRealloc p q.call.bytes
      (sqlite3Realloc b x.heap p q.call.bytes q.offer q.retry)) ↔ Crashes b x q := by
  have hfree (p' : Int) : q.call ≠ .free p' := by
    intro hc
    rw [hc] at hp
    cases hp
  have hzero (n : UInt64) : q.call ≠ .mallocZero n := by
    intro hc
    rw [hc] at hp
    cases hp
  have hstore (p' : Int) (off : Nat) (c : UInt8) : q.call ≠ .store p' off c := by
    intro hc
    rw [hc] at hp
    cases hp
  unfold Client.stepRealloc
  cases hblk : x.world.block? p with
  | none =>
    have hnone : ∀ p', q.call.pOld = some p' → x.world.block? p' = none := by
      intro p' hp'
      rw [hp] at hp'
      cases hp'
      exact hblk
    dsimp only
    by_cases hp0 : p = 0
    · have hreq : requested x q = if Grantable q.call.bytes then q.call.bytes.toNat else 0 := by
        simp only [requested, hp, hblk, if_pos hp0]
      rw [if_pos hp0, fails_bind_iff fun _ ↦ not_fails_ok _, sqlite3Realloc, if_pos hp0,
        fails_sqlite3Malloc hm, crashes_asking hs hreq hnone hfree (fun _ ↦ hzero) hstore]
    · have hreq : requested x q = 0 := by
        simp only [requested, hp, hblk, if_neg hp0, ite_self]
      rw [if_neg hp0, crashes_idle hreq hstore]
      refine iff_of_false (not_fails_ok _) ?_
      rintro ⟨_, p', hsome, hc | ⟨hp', _⟩⟩
      · exact hfree p' hc
      · rw [hnone p' hp'] at hsome
        cases hsome
  | some blk =>
    obtain ⟨rfl, _⟩ := World.block?_split hblk
    have hmem := World.mem_live hblk
    obtain ⟨w, hr, hw, _, hat⟩ := hs.whole
    have hp0 : blk.ptr ≠ 0 := hs.ptr_ne hmem
    have hsize : cMemSize b x.heap.mem blk.ptr = .ok blk.size := hs.sized blk hmem
    have hreq : requested x q = if Grantable q.call.bytes then
        if blk.size.toInt = q.call.bytes.toNat then 0 else q.call.bytes.toNat else 0 := by
      simp only [requested, hp, hblk]
    dsimp only
    rw [fails_bind_iff (by
      rintro ⟨p', h⟩
      dsimp only
      split
      · exact not_fails_ok _
      · split <;> exact not_fails_ok _), sqlite3Realloc, if_neg hp0]
    by_cases hn0 : q.call.bytes = 0
    · have hng : ¬ Grantable q.call.bytes := fun hg ↦ hg.1 hn0
      rw [if_neg hng] at hreq
      rw [if_pos hn0, fails_bind_iff fun _ ↦ not_fails_ok _, fails_sqlite3Free hm hp0 hsize,
        show x.heap.mem = w.state from hw.symm, fails_cMemFree hr (hat _ _ hblk),
        crashes_idle hreq hstore]
      refine (and_iff_left ⟨blk.ptr, by rw [hblk]; rfl, .inr ⟨hp, hn0⟩⟩).symm
    rw [if_neg hn0]
    have hback : ¬ TakesBack x q := by
      rintro ⟨p', _, hc | ⟨_, h0⟩⟩
      · exact hfree p' hc
      · exact hn0 h0
    by_cases hbig : q.call.bytes ≥ 0x7fffff00
    · have hng : ¬ Grantable q.call.bytes := fun hg ↦ absurd hg.2 (UInt64.not_lt.mpr hbig)
      rw [if_neg hng] at hreq
      rw [if_pos hbig, crashes_idle hreq hstore]
      exact iff_of_false (not_fails_ok _) fun h ↦ hback h.2
    have hg : Grantable q.call.bytes := ⟨hn0, UInt64.not_le.mp hbig⟩
    rw [if_pos hg] at hreq
    rw [if_neg hbig, sqlite3MallocSize, hsize, ok_bind]
    have hround : cMemRoundup q.call.bytes.toUInt32.toInt32 = sizeOf q.call.bytes := rfl
    have hcount : q.call.bytes.toUInt32.toInt32 = sizeOf q.call.bytes := rfl
    dsimp only
    by_cases hsame : blk.size = sizeOf q.call.bytes
    · rw [hround, if_pos hsame]
      rw [hsame, (toInt_sizeOf hg).1, if_pos rfl] at hreq
      rw [crashes_idle hreq hstore]
      exact iff_of_false (not_fails_ok _) fun h ↦ hback h.2
    · have hne : ¬ blk.size.toInt = q.call.bytes.toNat := by
        rw [← (toInt_sizeOf hg).1, Int32.toInt_inj]
        exact hsame
      rw [if_neg hne] at hreq
      rw [hround, if_neg hsame, if_pos hm, hcount, fails_reallocWithAlarm hr hw (hat _ _ hblk),
        crashes_resizing hs hg hreq hp hblk]

/-- In the `malloc` build a block that was handed out can be filled. -/
theorem not_fails_filling {c : UInt8} (hg : Grantable n)
    (he : cMemMalloc .useMalloc s (sizeOf n) offer = .ok (p, s')) (hp : p ≠ 0) :
    ¬ Fails (memset .useMalloc (getRegion p) c 0 n.toNat s') := by
  obtain ⟨hval, hpos⟩ := toInt_sizeOf hg
  obtain ⟨region, _, hto, ⟨_, h0, _⟩ | ⟨hreg, rfl⟩⟩ := cMemMalloc_ok he
  · exact absurd h0 hp
  rw [getRegion_getMemory, fails_memset hreg.ne']
  rintro ⟨j, _, hj, hout⟩
  have hN := @regionSize_toNat (sizeOf n) (by omega)
  cases hto with
  | granted _ _ _ =>
    refine hout ⟨_, List.mem_cons_self, rfl, ?_, ?_⟩
    · dsimp only
      omega
    · dsimp only
      omega

/-- In the arena build a block that was handed out is filled in vain when it crosses the end. -/
theorem fails_filling {c : UInt8} (hg : Grantable n) (hlo : base ≤ s.freeMemory)
    (he : cMemMalloc (.arena base h0) s (sizeOf n) offer = .ok (p, s')) (hp : p ≠ 0) :
    Fails (memset (.arena base h0) (getRegion p) c 0 n.toNat s') ↔
      base + memoryArenaSize < getMemory s.freeMemory + n.toNat := by
  obtain ⟨_, hpos⟩ := toInt_sizeOf hg
  obtain ⟨region, _, hto, ⟨_, hp0, _⟩ | ⟨hreg, rfl⟩⟩ := cMemMalloc_ok he
  · exact absurd hp0 hp
  obtain ⟨rfl, _, _⟩ := hto.arena_eq hreg
  rw [getRegion_getMemory, fails_memset hreg.ne']
  unfold getMemory
  constructor
  · rintro ⟨j, _, hj, hout⟩
    by_contra hle
    exact hout ⟨by push_cast; omega, by push_cast; omega⟩
  · intro hlt
    refine ⟨n.toNat - 1, by omega, by omega, ?_⟩
    rintro ⟨_, hin⟩
    push_cast at hin
    omega

/-- `sqlite3MallocZero` fails when there is no block, or it cannot be filled. -/
theorem fails_sqlite3MallocZero (hm : h.bMemstat = true) :
    Fails (sqlite3MallocZero b h n offer) ↔ Grantable n ∧
      (Fails (cMemMalloc b h.mem (sizeOf n) offer) ∨
        ∃ p s', cMemMalloc b h.mem (sizeOf n) offer = .ok (p, s') ∧ p ≠ 0 ∧
          Fails (memset b (getRegion p) 0 0 n.toNat s')) := by
  rw [sqlite3MallocZero, fails_bind, fails_sqlite3Malloc hm]
  constructor
  · rintro (⟨hg, hf⟩ | ⟨⟨p, h'⟩, he, hf⟩)
    · exact ⟨hg, .inl hf⟩
    · by_cases hp : p ≠ 0
      · dsimp only at hf
        rw [if_pos hp, fails_bind_iff fun _ ↦ not_fails_ok _] at hf
        obtain ⟨_, ⟨_, rfl, _⟩ | ⟨hg, hmem, _⟩⟩ := sqlite3Malloc_ok hm he
        · exact absurd rfl hp
        · exact ⟨hg, .inr ⟨p, h'.mem, hmem, hp, hf⟩⟩
      · dsimp only at hf
        rw [if_neg hp] at hf
        exact absurd hf (not_fails_ok _)
  · rintro ⟨hg, hf | ⟨p, s', hmem, hp, hf⟩⟩
    · exact .inl ⟨hg, hf⟩
    · have hok : ¬ Fails (sqlite3Malloc b h n offer) := by
        rw [fails_sqlite3Malloc hm, hmem]
        exact fun h ↦ not_fails_ok _ h.2
      obtain ⟨⟨p', h'⟩, he⟩ := not_not.mp (mt fails_iff.mpr hok)
      obtain ⟨_, ⟨hng, _⟩ | ⟨_, hmem', _⟩⟩ := sqlite3Malloc_ok hm he
      · exact absurd hg hng
      rw [hmem] at hmem'
      cases hmem'
      refine .inr ⟨_, he, ?_⟩
      dsimp only
      rwa [if_pos hp, fails_bind_iff fun _ ↦ not_fails_ok _]

/-- In the arena build a block of zeros is asked for in vain when it crosses the end. -/
theorem crashes_zeroing (hg : Grantable n) (hcall : q.call = .mallocZero n) :
    Crashes (.arena base h0) x q ↔ HasRoom (.arena base h0) x.heap.mem (sizeOf n) ∧
      base + memoryArenaSize < getMemory x.heap.mem.freeMemory + n.toNat := by
  have hbytes : q.call.bytes = n := by rw [hcall]; rfl
  have hold : q.call.pOld = none := by rw [hcall]; rfl
  have hreq : requested x q ≠ 0 := by
    have hpos := (toInt_sizeOf hg).2
    simp only [requested, hold, hbytes, if_pos hg]
    omega
  have hback : ¬ TakesBack x q := by
    rintro ⟨p, _, hc | ⟨hp, _⟩⟩
    · simp [hcall] at hc
    · simp [hold] at hp
  have hroom : Advances base x q ↔ HasRoom (.arena base h0) x.heap.mem (sizeOf n) := by
    rw [hasRoom_sizeOf hg, Advances, hbytes, and_iff_right hreq]
  simp only [Crashes, hback, false_or]
  rw [← hroom]
  constructor
  · rintro ⟨y, hy, hlt⟩
    cases hy with
    | header ha => exact ⟨ha, by omega⟩
    | zeros hc ha =>
      rw [hcall] at hc
      cases hc
      exact ⟨ha, hlt⟩
    | copied hp _ _ => simp [hold] at hp
    | stored hc _ _ => simp [hcall] at hc
  · rintro ⟨ha, hlt⟩
    exact ⟨_, .zeros hcall ha, hlt⟩

/-- A call of `sqlite3MallocZero` crashes or returns. -/
theorem fails_mallocZero (hm : x.heap.bMemstat = true)
    (hs : Shares b x.others x.world) (hcall : q.call = .mallocZero n) :
    Fails (sqlite3MallocZero b x.heap n q.offer) ↔ Crashes b x q := by
  have hbytes : q.call.bytes = n := by rw [hcall]; rfl
  have hold : q.call.pOld = none := by rw [hcall]; rfl
  have hreq : requested x q = if Grantable n then n.toNat else 0 := by
    simp only [requested, hold, hbytes]
  rw [fails_sqlite3MallocZero hm]
  by_cases hg : Grantable n
  swap
  · rw [if_neg hg] at hreq
    rw [crashes_idle hreq (by simp [hcall])]
    refine iff_of_false (fun h ↦ hg h.1) ?_
    rintro ⟨_, p, _, hc | ⟨hp, _⟩⟩
    · simp [hcall] at hc
    · simp [hold] at hp
  rw [and_iff_right hg]
  cases b with
  | useMalloc =>
    rw [crashes_asking hs (by rw [hreq, hbytes]) (by simp [hold]) (by simp [hcall])
      (fun h ↦ h.elim) (by simp [hcall]), hbytes, and_iff_right hg]
    apply or_iff_left
    rintro ⟨p, s', hmem, hp, hf⟩
    exact not_fails_filling hg hmem hp hf
  | arena base h0 =>
    have hfloor : base ≤ x.heap.mem.freeMemory := hs.floor
    rw [crashes_zeroing hg hcall]
    constructor
    · rintro (hf | ⟨p, s', hmem, hp, hf⟩)
      · obtain ⟨hroom, hlt⟩ := (fails_cMemMalloc_arena hfloor).mp hf
        exact ⟨hroom, by omega⟩
      · obtain ⟨_, _, hto, ⟨_, hp0, _⟩ | ⟨hreg, _⟩⟩ := cMemMalloc_ok hmem
        · exact absurd hp0 hp
        · exact ⟨hto.hasRoom.mpr hreg, (fails_filling hg hfloor hmem hp).mp hf⟩
    · rintro ⟨hroom, hlt⟩
      by_cases hf : Fails (cMemMalloc (.arena base h0) x.heap.mem (sizeOf n) q.offer)
      · exact .inl hf
      obtain ⟨⟨p, s'⟩, hmem⟩ := not_not.mp (mt fails_iff.mpr hf)
      obtain ⟨_, _, hto, ⟨rfl, _⟩ | ⟨hreg, rfl⟩⟩ := cMemMalloc_ok hmem
      · exact absurd (hto.hasRoom.mp hroom) (lt_irrefl _)
      · have hp := getMemory_ne_zero hreg
        exact .inr ⟨_, s', hmem, hp, (fails_filling hg hfloor hmem hp).mpr hlt⟩

/-- In the arena build a byte of a block is stored in vain when it is past the end. -/
theorem crashes_storing {off : Nat} {c : UInt8} (hblk : x.world.block? blk.ptr = some blk) :
    Crashes (.arena base h0) x ⟨.store blk.ptr off c, offer, retry⟩ ↔
      (off : Int) < blk.size.toInt ∧ base + memoryArenaSize < blk.ptr + off + 1 := by
  constructor
  · rintro (⟨p', _, hc | ⟨hp, _⟩⟩ | ⟨y, hy, hend⟩)
    · cases hc
    · cases hp
    · cases hy with
      | header ha => exact absurd rfl ha.1
      | zeros hc _ => cases hc
      | copied hp _ _ => cases hp
      | stored hc hblk' hlt =>
        cases hc
        rw [hblk] at hblk'
        cases hblk'
        exact ⟨hlt, hend⟩
  · rintro ⟨hlt, hend⟩
    exact .inr ⟨_, .stored rfl hblk hlt, hend⟩

/-- A byte that is stored is in bounds, or past the end of the arena. -/
theorem fails_store {off : Nat} {c : UInt8}
    (hs : Shares b x.others x.world) :
    Fails (x.step b ⟨.store p off c, offer, retry⟩) ↔
      Crashes b x ⟨.store p off c, offer, retry⟩ := by
  simp only [Client.step]
  cases hblk : x.world.block? p with
  | none =>
    refine iff_of_false (not_fails_ok _) ?_
    cases b with
    | useMalloc => exact fun h ↦ h.1 rfl
    | arena base h0 =>
      rintro (⟨p', _, hc | ⟨hp, _⟩⟩ | ⟨y, hy, _⟩)
      · cases hc
      · cases hp
      · cases hy with
        | header ha => exact ha.1 rfl
        | zeros hc _ => cases hc
        | copied hp _ _ => cases hp
        | stored hc hblk' _ =>
          cases hc
          rw [hblk] at hblk'
          cases hblk'
  | some blk =>
    obtain ⟨rfl, _⟩ := World.block?_split hblk
    have hv := World.mem_live hblk
    obtain ⟨w, hr, hw, hin, _⟩ := hs.whole
    have hvw := (hin blk).mpr (List.mem_append_left _ hv)
    have hreg := issued_pos (reach_issued hr) hvw
    have hwrite : Fails (writeByte b x.heap.mem (getRegion blk.ptr) (sizeofInt + off) c) ↔
        ¬ InBounds b x.heap.mem (getRegion blk.ptr) (blk.ptr + off) := by
      rw [fails_iff, writeByte_returns hreg.ne', Nat.add_comm sizeofInt, getRegion_add]
    dsimp only
    cases b with
    | useMalloc =>
      refine iff_of_false ?_ fun h ↦ h.1 rfl
      split
      · next hlt =>
        rw [fails_bind_iff fun _ ↦ not_fails_ok _, hwrite, not_not]
        obtain ⟨_, r, hmem, hstart, hz⟩ :=
          (reach_housed (hr.mono fun _ _ hc ↦ hc.positive)).region blk hvw
        rw [hw] at hmem
        unfold getRegion at hstart
        exact ⟨r, hmem, hstart, by omega, by omega⟩
      · exact not_fails_ok _
    | arena base h0 =>
      have hlo := ((reach_headed hr).placed.stacked.within blk hvw).1
      rw [crashes_storing hblk]
      split
      · next hlt =>
        rw [fails_bind_iff fun _ ↦ not_fails_ok _, hwrite]
        unfold getRegion at hlo
        constructor
        · intro hout
          refine ⟨hlt, ?_⟩
          by_contra hle
          exact hout ⟨by omega, by omega⟩
        · rintro ⟨_, hend⟩ ⟨_, hin⟩
          omega
      · next hge => exact iff_of_false (not_fails_ok _) fun h ↦ hge h.1

/-- In every run of a careful caller, a call of the interface faults exactly when it crashes in
the allocator. -/
theorem call_faults_iff {marks : Fin 10 → Int64} (hr : (system b marks).Reach (Careful b) x) :
    (∃ e, x.step b q = .error e) ↔ Crashes b x q := by
  obtain ⟨hm, hs⟩ := reach_shares hr
  change Fails _ ↔ _
  obtain ⟨c, offer, retry⟩ := q
  cases c with
  | malloc n =>
    rw [Client.step, fails_bind_iff fun _ ↦ not_fails_ok _, sqlite3MallocInt_eq,
      fails_sqlite3Malloc hm]
    exact (crashes_asking (q := ⟨.malloc n, offer, retry⟩) hs rfl (by rintro _ ⟨⟩) (by rintro _ ⟨⟩)
      (by rintro _ _ ⟨⟩) (by rintro _ _ _ ⟨⟩)).symm
  | malloc64 n =>
    rw [Client.step, fails_bind_iff fun _ ↦ not_fails_ok _, fails_sqlite3Malloc hm]
    exact (crashes_asking (q := ⟨.malloc64 n, offer, retry⟩) hs rfl (by rintro _ ⟨⟩)
      (by rintro _ ⟨⟩) (by rintro _ _ ⟨⟩) (by rintro _ _ _ ⟨⟩)).symm
  | mallocZero n =>
    rw [Client.step, fails_bind_iff fun _ ↦ not_fails_ok _]
    exact fails_mallocZero (q := ⟨.mallocZero n, offer, retry⟩) hm hs rfl
  | realloc pOld n =>
    exact fails_stepRealloc (q := ⟨.realloc pOld n, offer, retry⟩) hm hs rfl
  | realloc64 pOld n =>
    exact fails_stepRealloc (q := ⟨.realloc64 pOld n, offer, retry⟩) hm hs rfl
  | free p =>
    rw [crashes_idle rfl (by rintro _ _ _ ⟨⟩)]
    simp only [Client.step]
    cases hblk : x.world.block? p with
    | none =>
      refine iff_of_false ?_ ?_
      · split
        · next hmade =>
          obtain rfl : p = 0 := hmade.resolve_right (by simp)
          rw [fails_bind_iff fun _ ↦ not_fails_ok _]
          exact not_fails_ok _
        · exact not_fails_ok _
      · rintro ⟨_, p', hsome, hc | ⟨⟨⟩, _⟩⟩
        cases hc
        rw [hblk] at hsome
        cases hsome
    | some blk =>
      obtain ⟨rfl, _⟩ := World.block?_split hblk
      have hv := World.mem_live hblk
      have hsize : cMemSize b x.heap.mem blk.ptr = .ok blk.size := hs.sized blk hv
      obtain ⟨w, hr, hw, _, hat⟩ := hs.whole
      rw [if_pos (.inr rfl), fails_bind_iff fun _ ↦ not_fails_ok _,
        fails_sqlite3Free hm (hs.ptr_ne hv) hsize, show x.heap.mem = w.state from hw.symm,
        fails_cMemFree hr (hat _ _ hblk)]
      exact (and_iff_left ⟨blk.ptr, by rw [hblk]; rfl, .inl rfl⟩).symm
  | msize p =>
    rw [crashes_idle rfl (by rintro _ _ _ ⟨⟩)]
    refine iff_of_false ?_ ?_
    · simp only [Client.step]
      split
      · next hmade =>
        rw [fails_bind_iff fun _ ↦ not_fails_ok _, sqlite3Msize]
        split
        · exact not_fails_ok _
        · next hp =>
          obtain ⟨blk, hblk⟩ := Option.isSome_iff_exists.mp (hmade.resolve_left hp)
          obtain ⟨rfl, _⟩ := World.block?_split hblk
          have hsize : cMemSize b x.heap.mem blk.ptr = .ok blk.size :=
            hs.sized blk (World.mem_live hblk)
          rw [hsize, ok_bind]
          exact not_fails_ok _
      · exact not_fails_ok _
    · rintro ⟨_, p', _, hc | ⟨hp, _⟩⟩
      · cases hc
      · cases hp
  | status64 op resetFlag =>
    rw [crashes_idle rfl (by rintro _ _ _ ⟨⟩)]
    refine iff_of_false (not_fails_ok _) ?_
    rintro ⟨_, p', _, hc | ⟨hp, _⟩⟩
    · cases hc
    · cases hp
  | softHeapLimit64 n =>
    rw [crashes_idle rfl (by rintro _ _ _ ⟨⟩)]
    refine iff_of_false (not_fails_ok _) ?_
    rintro ⟨_, p', _, hc | ⟨hp, _⟩⟩
    · cases hc
    · cases hp
  | store p off c => exact fails_store hs

end

/-- In the arena build the first block that is freed crashes. -/
theorem call_faults_iff_freed : ∃ x : Client, x.live.length = 1 ∧
    ∃ e, x.step anArena ⟨.free 4100, none, none⟩ = .error e := by
  have hstep : passes ((Client.fresh anArena).step anArena mallocZeroEight) (fun y ↦
      y.2.live.length = 1 ∧ (y.2.world.block? 4100).isSome) = true := by decide +kernel
  obtain ⟨⟨r, x⟩, he, hp⟩ := passes_iff.mp hstep
  simp only [Bool.decide_and, Bool.and_eq_true, decide_eq_true_eq] at hp
  have hcare : CarefulCall anArena (Client.fresh anArena) mallocZeroEight :=
    ⟨fun _ _ ↦ by decide, by rintro _ _ _ _ ⟨⟩⟩
  have hrun : (system anArena fun _ ↦ 0).Reach (Careful anArena) x :=
    .next (a := .call mallocZeroEight) (.start ⟨rfl, rfl, _, rfl⟩) hcare (.call he)
  exact ⟨x, hp.1, (call_faults_iff hrun).mpr (.inl ⟨4100, hp.2, .inl rfl⟩)⟩

end SqliteComposite.Malloc

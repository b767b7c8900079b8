import SqliteComposite.Mem.Release

/-!
# Requests that memory does not suffice for

A region takes the header and the size asked for. When the memory for it cannot be obtained,
the arena refuses the request as long as the size alone reaches its end, and every block, the
counters and `_free_memory` stay as they are. The `malloc` build writes the header through the
null pointer.
-/

namespace SqliteComposite.Mem

open Base

/-- The memory of a region can be obtained: the C library's `malloc` does not return null, or
the arena has the bytes of the header and of the size asked for left. -/
def Obtainable (b : Build) (s : State) (sz : Int32) (offer : Option Grant) : Prop :=
  match b with
  | .useMalloc => (cMalloc s (regionSize sz).toNat offer).1 ≠ 0
  | .arena base _ => s.freeMemory + sizeofInt + sz.toInt ≤ base + memoryArenaSize

/-- The call returns null, and memory, the counters, `_free_memory` and the blocks are as they
were. -/
def Refuses (b : Build) (x : World) (q : Request) : Prop := x.step b q = .ok (.pointer 0, x)

section

variable {b : Build} {s : State} {x x' : World} {q : Request} {r : Reply} {sz : Int32}
  {offer : Option Grant} {ok : World → Request → Prop}

/-- Without a region from `malloc` the header is written through the null pointer. -/
theorem mallocRegion_null (h : (cMalloc s (regionSize sz).toNat offer).1 = 0) :
    mallocRegion .useMalloc s sz offer = .error .wildAccess := by
  unfold mallocRegion
  dsimp only
  rw [h]
  rfl

/-- In the `malloc` build a request that cannot be met does not return. -/
theorem step_null (ha : AsksFor x q sz)
    (hn : (cMalloc x.state (regionSize sz).toNat q.offer).1 = 0) :
    x.step .useMalloc q ≠ .ok (r, x') := by
  intro he
  obtain ⟨region, s, hm, _⟩ := step_region ha he
  rw [mallocRegion_null hn] at hm
  cases hm

/-! ### The arena -/

variable {base : Int} {h0 : 0 < base}

/-- Every block of the arena has its header there. -/
theorem reach_headers (hr : (system (.arena base h0)).Reach ok x) :
    ∀ blk ∈ x.live, HasHeader (.arena base h0) x.state (getRegion blk.ptr) := by
  apply hr.invariant (P := fun x ↦
    ∀ blk ∈ x.live, HasHeader (.arena base h0) x.state (getRegion blk.ptr))
  · rintro x ⟨hl, _⟩
    rw [hl]
    exact nofun
  · rintro x q x' hlive _ ⟨r, he⟩
    apply arena_forall (P := fun p _ ↦ HasHeader (.arena base h0) x.state (getRegion p)) he hlive
    intro sz _ _ hb
    rw [getRegion_getMemory]
    exact hb

/-- The arena has no region for a size that reaches its end. -/
theorem mallocRegion_full (h : ¬ HasRoom (.arena base h0) s sz) :
    mallocRegion (.arena base h0) s sz offer = .ok (0, s) :=
  if_pos (not_lt.mp h)

/-- A request that reaches the end of the arena is refused. -/
theorem refuses_full (hr : (system (.arena base h0)).Reach ok x) (ha : AsksFor x q sz)
    (hfull : ¬ HasRoom (.arena base h0) x.state sz) : Refuses (.arena base h0) x q := by
  obtain ⟨c, offer⟩ := q
  rcases ha with hc | ⟨mem, hc, hsome⟩ <;> cases hc
  · simp only [Refuses, World.step, cMemMalloc, mallocRegion_full hfull, ok_bind, if_true]
  · obtain ⟨blk, hblk⟩ := Option.isSome_iff_exists.mp hsome
    obtain ⟨rfl, _⟩ := World.block?_split hblk
    obtain ⟨oldSz, ho⟩ := (reach_headers hr blk (World.mem_live hblk)).readInt_eq
    simp only [Refuses, World.step, hblk, cMemRealloc, getMemorySize, ho,
      mallocRegion_full hfull, ok_bind, if_true]

/-- A request that does not reach the end of the arena is not refused. -/
theorem not_refuses_room (ha : AsksFor x q sz)
    (hroom : HasRoom (.arena base h0) x.state sz) : ¬ Refuses (.arena base h0) x q := by
  intro he
  obtain ⟨region, s, hm, hret⟩ := step_region ha he
  have hpos := (mallocRegion_ok hm).hasRoom.mp hroom
  rw [if_neg hpos.ne'] at hret
  injection hret with hret
  exact getMemory_ne_zero hpos hret.symm

/-- A request whose memory cannot be obtained is refused, and changes nothing, exactly in the
arena and when the size asked for reaches its end. -/
theorem refuses_unobtainable_iff (hr : (system b).Reach ok x) (ha : AsksFor x q sz)
    (hn : ¬ Obtainable b x.state sz q.offer) :
    Refuses b x q ↔ b.IsArena ∧ ¬ HasRoom b x.state sz := by
  cases b with
  | useMalloc =>
    constructor
    · exact fun he ↦ absurd he (step_null ha (not_not.mp hn))
    · rintro ⟨harena, _⟩
      cases harena
  | arena base h0 =>
    constructor
    · exact fun he ↦ ⟨trivial, fun hroom ↦ not_refuses_room ha hroom he⟩
    · exact fun h ↦ refuses_full hr ha h.2

end

/-- Eight bytes are asked for, and `malloc` returns null. -/
def mallocDenied : Request := ⟨.xMalloc 8, none⟩

/-- The first request of the `malloc` build that the C library denies ends in a write through
the null pointer. -/
theorem not_refuses : ¬ ∀ b x, (system b).Reach (fun _ _ ↦ True) x → ∀ q sz, AsksFor x q sz →
    0 < sz.toInt → ¬ Obtainable b x.state sz q.offer → Refuses b x q := by
  intro hall
  let x : World := ⟨.start .useMalloc fun _ ↦ 0, []⟩
  have hasks : AsksFor x mallocDenied 8 := .inl rfl
  have hnull : (cMalloc x.state (regionSize 8).toNat mallocDenied.offer).1 = 0 := rfl
  exact step_null hasks hnull
    (hall .useMalloc x (.start ⟨rfl, _, rfl⟩) mallocDenied 8 hasks (by decide) (not_not.mpr hnull))

/-- As many bytes as the whole arena has are asked for. -/
def mallocAll : Request := ⟨.xMalloc 4194304, none⟩

/-- The first request is refused when it asks for the whole arena. -/
theorem refuses_unobtainable_iff_mallocAll :
    Refuses anArena ⟨.start anArena fun _ ↦ 0, []⟩ mallocAll := by
  let x : World := ⟨.start anArena fun _ ↦ 0, []⟩
  have hr : (system anArena).Reach (fun _ _ ↦ True) x := .start ⟨rfl, _, rfl⟩
  have hasks : AsksFor x mallocAll 4194304 := .inl rfl
  have hn : ¬ (4096 : Int) + sizeofInt + (4194304 : Int32).toInt ≤ 4096 + memoryArenaSize := by
    decide
  have hfull : ¬ (4096 : Int) + (4194304 : Int32).toInt < 4096 + memoryArenaSize := by decide
  exact (refuses_unobtainable_iff hr hasks hn).mpr ⟨trivial, hfull⟩

end SqliteComposite.Mem

import SqliteComposite.Mem.Layout

/-!
# Whether blocks lie in the arena

`_malloc_region` tests that `_free_memory` does not leave the arena. It moves by the size asked
for, while the block takes the four bytes of its header besides, so that the last block handed
out may reach past the end of the arena.
-/

namespace SqliteComposite.Mem

open Base

/-- Every byte of the block, its header included, lies in the arena. -/
def Block.Within (base : Int) (blk : Block) : Prop :=
  base ≤ getRegion blk.ptr ∧ blk.finish ≤ base + memoryArenaSize

/-- The pointer lies in the arena. -/
def InArena (base p : Int) : Prop := base ≤ p ∧ p < base + memoryArenaSize

/-- The blocks and `_free_memory` lie in the arena. -/
def Inside (base : Int) (x : World) : Prop :=
  (∀ blk ∈ x.live, blk.Within base) ∧ InArena base x.state.freeMemory

/-- The call asks for no negative number of bytes. -/
def NonNegative (x : World) (q : Request) : Prop := ∀ sz, AsksFor x q sz → 0 ≤ sz.toInt

/-- What the call asks for is refused, or is handed out inside the arena with its header
written, and leaves `_free_memory` there. -/
def HandsOutInside (base : Int) (h0 : 0 < base) (x : World) (q : Request) : Prop :=
  ∀ sz, AsksFor x q sz → ∃ region s,
    mallocRegion (.arena base h0) x.state sz q.offer = .ok (region, s) ∧
    InArena base s.freeMemory ∧
    (region ≠ 0 → Block.Within base ⟨getMemory region, sz, fun _ ↦ none⟩)

/-- When the arena has room for the size asked for, it has room for the header as well. -/
def HeaderFits (base : Int) (h0 : 0 < base) (x : World) (q : Request) : Prop :=
  ∀ sz, AsksFor x q sz → HasRoom (.arena base h0) x.state sz →
    x.state.freeMemory + sz.toInt + sizeofInt ≤ base + memoryArenaSize

section

variable {base : Int} {h0 : 0 < base} {s s' : State} {x x' : World} {q : Request} {r : Reply}
  {sz : Int32} {mem region : Int} {blk : Block}

/-- A region at `_free_memory` lies in the arena when its header fits as well. -/
private theorem within_next (content : Nat → Option UInt8) (hlo : base ≤ s.freeMemory)
    (hfit : s.freeMemory + sz.toInt + sizeofInt ≤ base + memoryArenaSize) :
    Block.Within base ⟨getMemory s.freeMemory, sz, content⟩ := by
  unfold Block.Within Block.finish
  rw [getRegion_getMemory]
  refine ⟨hlo, ?_⟩
  unfold getMemory
  dsimp only
  omega

/-- `_free_memory` stays in the arena when a region is handed out. -/
private theorem inArena_next (hin : InArena base s.freeMemory) (hsz : 0 ≤ sz.toInt)
    (hto : MallocTo (.arena base h0) s sz region s') : InArena base s'.freeMemory := by
  obtain ⟨hlo, hhi⟩ := hin
  cases hto with
  | exhausted _ => exact ⟨hlo, hhi⟩
  | advanced hroom _ => exact ⟨by dsimp only; omega, hroom⟩

/-- A call whose header fits keeps the blocks in the arena. -/
private theorem inside_step (hi : Inside base x) (hn : NonNegative x q)
    (hfit : HeaderFits base h0 x q) (he : x.step (.arena base h0) q = .ok (r, x')) :
    Inside base x' := by
  obtain ⟨hlive, hfree⟩ := hi
  constructor
  · apply arena_forall (P := fun p sz ↦ base ≤ getRegion p ∧
      p + sz.toInt ≤ base + memoryArenaSize) he hlive
    exact fun sz hasks hroom _ ↦ within_next (fun _ ↦ none) hfree.1 (hfit sz hasks hroom)
  · rcases arena_freeMemory he with hsame | ⟨sz, hasks, hroom, hmove⟩
    · rw [hsame]
      exact hfree
    · have hsz := hn sz hasks
      have hlo := hfree.1
      rw [hmove]
      exact ⟨by omega, hroom⟩

/-- A region is handed out inside the arena exactly when its header fits. -/
private theorem handsOutInside_iff (hfree : InArena base x.state.freeMemory)
    (hn : NonNegative x q) : HandsOutInside base h0 x q ↔ HeaderFits base h0 x q := by
  have h4 : sizeofInt = 4 := rfl
  constructor
  · intro hin sz hasks hroom
    obtain ⟨region, s, hm, _, hwithin⟩ := hin sz hasks
    have hto := mallocRegion_ok hm
    have hpos := hto.hasRoom.mp hroom
    obtain ⟨rfl, _, _⟩ := hto.arena_eq hpos
    have hhi := (hwithin (by omega)).2
    unfold Block.finish getMemory at hhi
    dsimp only at hhi
    omega
  · intro hfit sz hasks
    have hsz := hn sz hasks
    obtain ⟨hlo, _⟩ := id hfree
    have hhead (hroom : x.state.freeMemory + sz.toInt < base + memoryArenaSize) :
        HasHeader (.arena base h0) x.state x.state.freeMemory := by
      have hend := hfit sz hasks hroom
      exact ⟨by omega, fun y hy hlt ↦ ⟨by omega, by omega⟩⟩
    obtain ⟨region, s, hm⟩ := mallocRegion_arena x.state q.offer hhead
    have hto := mallocRegion_ok hm
    refine ⟨region, s, hm, inArena_next hfree hsz hto, fun hne ↦ ?_⟩
    have hpos := hto.cases_region.resolve_left fun h ↦ hne h.1
    have hend := hfit sz hasks (hto.hasRoom.mpr hpos)
    obtain ⟨rfl, _, _⟩ := hto.arena_eq hpos
    exact within_next _ hlo hend

/-- In every run whose regions leave room for their headers, the blocks lie in the arena, and
the next region is handed out inside it exactly when it leaves room for its header. -/
theorem inside_iff (hr : (system (.arena base h0)).Reach
    (fun x q ↦ NonNegative x q ∧ HeaderFits base h0 x q) x) :
    Inside base x ∧ ∀ q, NonNegative x q →
      (HandsOutInside base h0 x q ↔ HeaderFits base h0 x q) := by
  have hi : Inside base x := by
    apply hr.invariant (P := Inside base)
    · rintro x ⟨hl, bytes, hs⟩
      rw [Inside, hs, hl]
      refine ⟨nofun, le_rfl, ?_⟩
      change base < base + 1024 * 1024 * 4
      omega
    · rintro x q x' hi ⟨hn, hfit⟩ ⟨r, he⟩
      exact inside_step hi hn hfit he
  exact ⟨hi, fun q hn ↦ handsOutInside_iff hi.2 hn⟩

end

/-- Three bytes less than the arena has are asked for. -/
def mallocMost : Request := ⟨.xMalloc 4194301, none⟩

/-- The last byte of the first block lies behind the arena. -/
theorem not_inside : ¬ ∀ base h0 x, (system (.arena base h0)).Reach NonNegative x →
    Inside base x := by
  intro hall
  obtain ⟨x, hr, hp⟩ := exists_of_calls anArena NonNegative [mallocMost]
    (fun x ↦ x.live.any fun blk ↦ blk.ptr = 4100 && blk.size = 4194301) (by decide +kernel) (by
      intro q hq x sz hasks
      obtain rfl := List.mem_singleton.mp hq
      rcases hasks with hc | ⟨_, hc, _⟩ <;> cases hc
      decide)
  rw [List.any_eq_true] at hp
  obtain ⟨blk, hv, hp⟩ := hp
  simp only [Bool.and_eq_true, decide_eq_true_eq] at hp
  have hend := ((hall 4096 (by decide) x hr).1 blk hv).2
  rw [Block.finish, hp.1, hp.2] at hend
  exact absurd hend (by decide)

/-- A first block of eight bytes lies in the arena. -/
theorem inside_iff_mallocEight : ∃ x : World, (x.block? 4100).isSome ∧ Inside 4096 x := by
  let x₀ : World := ⟨.start anArena fun _ ↦ 0, []⟩
  have hc : passes (x₀.step anArena mallocEight) (fun y ↦ (y.2.block? 4100).isSome) = true := by
    decide +kernel
  obtain ⟨⟨r, x⟩, he, hp⟩ := passes_iff.mp hc
  have hr : (system anArena).Reach
      (fun x q ↦ NonNegative x q ∧ HeaderFits 4096 (by decide) x q) x := by
    refine .next (s := x₀) (a := mallocEight) (.start ⟨rfl, _, rfl⟩) ⟨?_, ?_⟩ ⟨r, he⟩
    · rintro sz (hc | ⟨_, hc, _⟩) <;> cases hc
      decide
    · rintro sz (hc | ⟨_, hc, _⟩) _ <;> cases hc
      decide
  exact ⟨x, hp, (inside_iff hr).1⟩

end SqliteComposite.Mem

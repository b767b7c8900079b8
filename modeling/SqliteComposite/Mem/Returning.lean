import SqliteComposite.Mem.Exhaustion

/-!
# When a call returns

A call has defined behaviour, and returns, when everything it reads and writes is in bounds: the
header of the region that is handed out, the bytes that are copied to it, the byte the caller
stores. The `malloc` build writes the header whether or not there is a region, and both builds
copy as many bytes as the old header counts. A block of the arena cannot be freed at all.
-/

namespace SqliteComposite.Mem

open Base

/-- The region for a size is refused, or is handed out with its header in bounds. -/
def Serves (b : Build) (s : State) (sz : Int32) (offer : Option Grant) : Prop :=
  match b with
  | .useMalloc => ∃ g, offer = some g ∧ Available s g.addr (regionSize sz).toNat ∧
      sizeofInt ≤ (regionSize sz).toNat
  | .arena base h0 => HasRoom (.arena base h0) s sz → HasHeader (.arena base h0) s s.freeMemory

/-- The bytes of the block that are copied to a region of the new size fit there. In the arena
they are as many as its header counts, and lie in the arena at both places. -/
def CopyFits (b : Build) (s : State) (blk : Block) (newSize : Int32) : Prop :=
  match b with
  | .useMalloc =>
      blk.size.toInt64.toUInt64.toNat + sizeofInt ≤ (regionSize newSize).toNat
  | .arena base h0 => HasRoom (.arena base h0) s newSize →
      ∀ oldSz, getMemorySize (.arena base h0) s blk.ptr = .ok oldSz →
        ∀ i < oldSz.toInt64.toUInt64.toNat,
          InBounds (.arena base h0) s (getRegion blk.ptr) (blk.ptr + i) ∧
            InBounds (.arena base h0) s s.freeMemory (getMemory s.freeMemory + i)

/-- The call stays in bounds, and frees no block of the arena. -/
def Completes (b : Build) (x : World) (q : Request) : Prop :=
  match q.call with
  | .xMalloc sz => Serves b x.state sz q.offer
  | .xRealloc mem newSize => ∀ blk, x.block? mem = some blk →
      Serves b x.state newSize q.offer ∧ CopyFits b x.state blk newSize
  | .xFree mem => b.IsArena → x.block? mem = none
  | .store mem off _ => b.IsArena → ∀ blk, x.block? mem = some blk →
      (off : Int) < blk.size.toInt → InBounds b x.state (getRegion mem) (mem + off)

section

variable {b : Build} {s s' : State} {x x' : World} {q : Request} {r : Reply} {sz newSize : Int32}
  {offer : Option Grant} {blk : Block} {region mem : Int} {ok : World → Request → Prop}

/-! ### The functions of the allocator -/

/-- A region is handed out or refused exactly when its header is in bounds. -/
theorem mallocRegion_returns :
    (∃ p, mallocRegion b s sz offer = .ok p) ↔ Serves b s sz offer := by
  constructor
  · rintro ⟨⟨region, s'⟩, hm⟩
    have hto := mallocRegion_ok hm
    cases hto with
    | exhausted hfull => exact fun hroom ↦ absurd hroom (not_lt.mpr hfull)
    | advanced _ hb => exact fun _ ↦ hb
    | granted _ h4 _ =>
      obtain ⟨g, hoffer, _, hav⟩ := mallocRegion_offered hm
      exact ⟨g, hoffer, hav, h4⟩
  · intro hserves
    cases b with
    | arena base h0 =>
      obtain ⟨region, s', hm⟩ := mallocRegion_arena s offer hserves
      exact ⟨_, hm⟩
    | useMalloc =>
      obtain ⟨g, rfl, hav, h4⟩ := hserves
      obtain ⟨s', hm⟩ := mallocRegion_granted hav h4
      exact ⟨_, hm⟩

/-- A block is handed out or refused exactly when its region is. -/
theorem cMemMalloc_returns : (∃ p, cMemMalloc b s sz offer = .ok p) ↔ Serves b s sz offer := by
  rw [← mallocRegion_returns]
  constructor
  · rintro ⟨p, hm⟩
    obtain ⟨p, hm, _⟩ := bind_ok hm
    exact ⟨p, hm⟩
  · rintro ⟨⟨region, s'⟩, hm⟩
    rw [cMemMalloc, hm, ok_bind]
    dsimp only
    split <;> exact ⟨_, rfl⟩

/-- The bytes of a block are copied to the region that was handed out exactly when they fit. -/
private theorem copy_returns (hi : Issued b x) (hv : blk ∈ x.live)
    (hto : MallocTo b x.state newSize region s) (hreg : 0 < region) {oldSz : Int32}
    (ho : getMemorySize b x.state blk.ptr = .ok oldSz) :
    (∃ s', copyPayload b region (getRegion blk.ptr) 0 oldSz.toInt64.toUInt64.toNat s = .ok s') ↔
      CopyFits b x.state blk newSize := by
  cases b with
  | arena base h0 =>
    have hold := (issued_pos hi hv).ne'
    have hroom := hto.hasRoom.mpr hreg
    obtain ⟨rfl, _, rfl⟩ := hto.arena_eq hreg
    constructor
    · rintro ⟨s', hc⟩ _ oldSz' ho' i hlt
      rw [ho] at ho'
      cases ho'
      obtain ⟨hfrom, hin⟩ := copyPayload_inBounds _ hc i (Nat.zero_le i) (by omega)
      rw [getRegion_add] at hfrom
      rw [getMemory_add] at hin
      exact ⟨hfrom, hin⟩
    · intro hfits
      apply copyPayload_returns hold hreg.ne'
      intro i _ hlt
      rw [getRegion_add, getMemory_add]
      exact hfits hroom oldSz ho i (by omega)
  | useMalloc =>
    obtain ⟨old, hmem, hs, hz, h4⟩ := Backed.own hi blk hv
    have hpos := Backed.positive hi old hmem
    have hsize : oldSz = blk.size := by
      rw [getMemorySize, Backed.readInt_eq hi hv] at ho
      injection ho with ho
      exact ho.symm
    subst hsize
    have hcount := toNat_toUInt64 blk.size.toInt64
    rw [Int32.toInt_toInt64] at hcount
    have hold := toNat_regionSize blk.size
    cases hto with
    | granted hav _ _ =>
      constructor
      · -- The last byte is copied into the new region.
        rintro ⟨s', hc⟩
        unfold CopyFits
        dsimp only
        by_contra hover
        obtain ⟨_, r, hr, hstart, _, hlt⟩ := copyPayload_inBounds _ hc
          (blk.size.toInt64.toUInt64.toNat - 1) (Nat.zero_le _) (by omega)
        rcases List.mem_cons.mp hr with rfl | hr
        · dsimp only at hlt
          push_cast at hlt
          omega
        · exact absurd hstart.symm (hav.2.2 r hr).1
      · intro hfits
        apply copyPayload_returns (by omega) hreg.ne'
        intro i _ hlt
        unfold CopyFits at hfits
        dsimp only at hfits
        refine ⟨⟨old, List.mem_cons_of_mem _ hmem, hs, ?_, ?_⟩,
          _, List.mem_cons_self, rfl, ?_, ?_⟩
        all_goals push_cast
        · omega
        · split at hcount <;> split at hold <;> omega
        · omega
        · omega

/-- The header of a block can be read, whatever is in it. -/
theorem reach_readable (hr : (system b).Reach ok x) (hv : blk ∈ x.live) :
    ∃ size, getMemorySize b x.state blk.ptr = .ok size := by
  cases b with
  | useMalloc =>
    have hi : Backed x.state x.live := reach_issued hr
    exact ⟨_, hi.readInt_eq hv⟩
  | arena base h0 => exact (reach_headers hr blk hv).readInt_eq

/-- A block is reallocated, or the request refused, exactly when the new header is in bounds and
what is copied fits. -/
theorem cMemRealloc_returns (hi : Issued b x) (hv : blk ∈ x.live) {oldSz : Int32}
    (ho : getMemorySize b x.state blk.ptr = .ok oldSz) :
    (∃ p, cMemRealloc b x.state blk.ptr newSize offer = .ok p) ↔
      Serves b x.state newSize offer ∧ CopyFits b x.state blk newSize := by
  rw [← mallocRegion_returns]
  constructor
  · rintro ⟨⟨mem, s'⟩, he⟩
    obtain ⟨oldSz', region, s₁, ho', hm, hto, ⟨rfl, _⟩ | ⟨hreg, _, s₂, hc, _⟩⟩ :=
      cMemRealloc_ok he
    · refine ⟨⟨_, hm⟩, ?_⟩
      cases b with
      | arena base h0 => exact fun hroom ↦ absurd hroom hto.no_room
      | useMalloc => exact absurd trivial hto.no_room
    · rw [ho] at ho'
      cases ho'
      exact ⟨⟨_, hm⟩, (copy_returns hi hv hto hreg ho).mp ⟨_, hc⟩⟩
  · rintro ⟨⟨⟨region, s₁⟩, hm⟩, hfits⟩
    have hto := mallocRegion_ok hm
    rw [cMemRealloc, ho, ok_bind, hm, ok_bind]
    dsimp only
    split
    · exact ⟨_, rfl⟩
    · next hne =>
      have hreg := hto.cases_region.resolve_left fun h ↦ hne h.1
      obtain ⟨s₂, hc⟩ := (copy_returns hi hv hto hreg ho).mpr hfits
      rw [hc, ok_bind]
      cases b with
      | arena base h0 => exact ⟨_, rfl⟩
      | useMalloc =>
        have hb₂ := (Backed.malloc hi hto blk.content).copy hc
        rw [hb₂.freeRegion_eq (List.mem_cons_of_mem _ hv), ok_bind]
        exact ⟨_, rfl⟩

/-- In the `malloc` build a region with a header is granted. -/
theorem serves_useMalloc (hsz : 0 < newSize.toInt) : Serves .useMalloc s newSize offer ↔
    ∃ g, offer = some g ∧ Available s g.addr (regionSize newSize).toNat := by
  have hN := regionSize_toNat hsz
  constructor
  · rintro ⟨g, hoffer, hav, _⟩
    exact ⟨g, hoffer, hav⟩
  · rintro ⟨g, hoffer, hav⟩
    exact ⟨g, hoffer, hav, by omega⟩

/-- In the `malloc` build a block is reallocated exactly when it does not shrink and the region
is granted. -/
theorem cMemRealloc_useMalloc (hb : Backed x.state x.live) (hv : blk ∈ x.live)
    (hpos : 0 ≤ blk.size.toInt) (hsz : 0 < newSize.toInt) :
    (∃ p, cMemRealloc .useMalloc x.state blk.ptr newSize offer = .ok p) ↔
      blk.size.toInt ≤ newSize.toInt ∧
        ∃ g, offer = some g ∧ Available x.state g.addr (regionSize newSize).toNat := by
  have hN := regionSize_toNat hsz
  have hcount : ((blk.size.toInt64.toUInt64.toNat : Nat) : Int) = blk.size.toInt := by
    rw [toNat_toUInt64, Int32.toInt_toInt64, if_pos hpos]
  have hfits : CopyFits .useMalloc x.state blk newSize ↔ blk.size.toInt ≤ newSize.toInt := by
    unfold CopyFits
    dsimp only
    constructor <;> intro h <;> omega
  have hi : Issued .useMalloc x := hb
  have ho : getMemorySize .useMalloc x.state blk.ptr = .ok blk.size := hb.readInt_eq hv
  rw [cMemRealloc_returns hi hv ho, serves_useMalloc hsz, hfits, and_comm]

/-- A block of the `malloc` build is freed, and one of the arena is not. -/
theorem cMemFree_returns (hi : Issued b x) (hv : blk ∈ x.live) :
    (∃ s', cMemFree x.state blk.ptr = .ok s') ↔ ¬ b.IsArena := by
  have hreg := issued_pos hi hv
  have hne : blk.ptr ≠ 0 := by unfold getRegion at hreg; omega
  rw [cMemFree, if_neg hne]
  cases b with
  | useMalloc =>
    rw [Backed.cFree_eq hi hv]
    exact iff_of_true ⟨_, rfl⟩ id
  | arena base h0 =>
    rw [cFree, if_neg hreg.ne', hi.1]
    exact iff_of_false (by rintro ⟨_, ⟨⟩⟩) (not_not.mpr trivial)

/-- A byte of a region is stored exactly when it is in bounds. -/
theorem writeByte_returns (hreg : region ≠ 0) {i : Nat} {c : UInt8} :
    (∃ s', writeByte b s region (sizeofInt + i) c = .ok s') ↔
      InBounds b s region (region + (sizeofInt + i : Nat)) := by
  rw [writeByte, if_neg hreg]
  split
  · next hin => exact iff_of_true ⟨_, rfl⟩ hin
  · next hout => exact iff_of_false (by rintro ⟨_, ⟨⟩⟩) hout

/-- A byte is stored in a block of the `malloc` build, and in one of the arena when it is in
bounds. -/
private theorem store_returns (hi : Issued b x) (hv : blk ∈ x.live) {off : Nat} {c : UInt8}
    (hlt : (off : Int) < blk.size.toInt) :
    (∃ s', writeByte b x.state (getRegion blk.ptr) (sizeofInt + off) c = .ok s') ↔
      (b.IsArena → (off : Int) < blk.size.toInt →
        InBounds b x.state (getRegion blk.ptr) (blk.ptr + off)) := by
  rw [writeByte_returns (issued_pos hi hv).ne', Nat.add_comm sizeofInt, getRegion_add]
  cases b with
  | arena base h0 => exact ⟨fun hin _ _ ↦ hin, fun h ↦ h trivial hlt⟩
  | useMalloc =>
    obtain ⟨r, hmem, hs, hz, _⟩ := Backed.own hi blk hv
    have hsize := toNat_regionSize blk.size
    rw [if_pos (by omega)] at hsize
    unfold getRegion at hs
    refine iff_of_true ⟨r, hmem, hs, by omega, by omega⟩ ?_
    rintro ⟨⟩

/-! ### Calls -/

/-- A call returns exactly when it stays in bounds and frees no block of the arena. -/
theorem returns_iff (hr : (system b).Reach ok x) :
    (∃ r x', x.step b q = .ok (r, x')) ↔ Completes b x q := by
  have hi := reach_issued hr
  obtain ⟨c, offer⟩ := q
  cases c with
  | xMalloc sz =>
    unfold Completes
    dsimp only
    rw [← cMemMalloc_returns]
    constructor
    · rintro ⟨r, x', he⟩
      obtain ⟨p, hm, _⟩ := bind_ok he
      exact ⟨p, hm⟩
    · rintro ⟨⟨mem, s⟩, hm⟩
      simp only [World.step, hm, ok_bind]
      split <;> exact ⟨_, _, rfl⟩
  | xRealloc mem newSize =>
    unfold Completes
    simp only [World.step]
    cases hblk : x.block? mem with
    | none => exact iff_of_true ⟨_, _, rfl⟩ (by rintro _ ⟨⟩)
    | some blk =>
      obtain ⟨rfl, _⟩ := World.block?_split hblk
      simp only [Option.some.injEq, forall_eq']
      obtain ⟨_, ho⟩ := reach_readable hr (World.mem_live hblk)
      rw [← cMemRealloc_returns hi (World.mem_live hblk) ho]
      constructor
      · rintro ⟨r, x', he⟩
        obtain ⟨p, hm, _⟩ := bind_ok he
        exact ⟨p, hm⟩
      · rintro ⟨⟨mem', s⟩, hm⟩
        rw [hm, ok_bind]
        dsimp only
        split <;> exact ⟨_, _, rfl⟩
  | xFree mem =>
    unfold Completes
    simp only [World.step]
    cases hblk : x.block? mem with
    | none =>
      refine iff_of_true ?_ fun _ ↦ rfl
      split
      · next hmade =>
        obtain rfl : mem = 0 := hmade.resolve_right (by simp)
        exact ⟨_, _, rfl⟩
      · exact ⟨_, _, rfl⟩
    | some blk =>
      obtain ⟨rfl, _⟩ := World.block?_split hblk
      simp only [Option.isSome_some, or_true, if_true, reduceCtorEq]
      rw [show (b.IsArena → False) ↔ ¬ b.IsArena from Iff.rfl,
        ← cMemFree_returns hi (World.mem_live hblk)]
      constructor
      · rintro ⟨r, x', he⟩
        obtain ⟨s, hf, _⟩ := bind_ok he
        exact ⟨s, hf⟩
      · rintro ⟨s, hf⟩
        exact ⟨_, _, by rw [hf]; rfl⟩
  | store mem off c =>
    unfold Completes
    simp only [World.step]
    cases hblk : x.block? mem with
    | none => exact iff_of_true ⟨_, _, rfl⟩ (by rintro _ _ ⟨⟩)
    | some blk =>
      obtain ⟨rfl, _⟩ := World.block?_split hblk
      simp only [Option.some.injEq, forall_eq']
      split
      · next hlt =>
        rw [← store_returns hi (World.mem_live hblk) hlt (c := c)]
        constructor
        · rintro ⟨r, x', he⟩
          obtain ⟨s, hw, _⟩ := bind_ok he
          exact ⟨s, hw⟩
        · rintro ⟨s, hw⟩
          exact ⟨_, _, by rw [hw]; rfl⟩
      · next hge => exact iff_of_true ⟨_, _, rfl⟩ fun _ hlt ↦ absurd hlt hge

end
end SqliteComposite.Mem

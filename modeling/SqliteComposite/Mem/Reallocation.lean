import SqliteComposite.Mem.Layout

/-!
# Whether a block is reallocated

`cMemRealloc` copies as many bytes as the header of the old block counts, whatever the new size:
a smaller block is overrun. In the arena the new header goes where the old block may still have
bytes to be copied. Here is exactly when the call does what `realloc` does.
-/

namespace SqliteComposite.Mem

open Base

/-- The blocks have the bytes in `g` that they have in memory; all other bytes may differ. -/
def SameBlocks (x : World) (g : Int → UInt8) : Prop :=
  ∀ v ∈ x.live, ∀ y, getRegion v.ptr ≤ y → y < v.finish → g y = x.state.bytes y

/-- The block is replaced by one of the new size at `p`, which has the bytes that fit. No byte
outside the new block is written, the other blocks are as they were, and a region that came
from `malloc` is given back. -/
structure Moved (b : Build) (s : State) (blk : Block) (others : List Block) (newSize : Int32)
    (p : Int) (s' : State) : Prop where
  size : cMemSize b s' p = .ok newSize
  room : ∀ y, getRegion p ≤ y → y < p + newSize.toInt → InBounds b s' (getRegion p) y
  copied : ∀ i : Nat, (i : Int) < blk.size.toInt → (i : Int) < newSize.toInt →
    s'.bytes (p + i) = s.bytes (blk.ptr + i)
  frame : ∀ y, ¬ (getRegion p ≤ y ∧ y < p + newSize.toInt) → s'.bytes y = s.bytes y
  others : ∀ v ∈ others, ∀ y, getRegion v.ptr ≤ y → y < v.finish → s'.bytes y = s.bytes y ∧
    (InBounds b s (getRegion v.ptr) y → InBounds b s' (getRegion v.ptr) y)
  released : ¬ b.IsArena → getRegion blk.ptr ∉ s'.regions.map Region.start

/-- Whatever the bytes outside the blocks are, the call returns: it moves the block, or returns
null and has changed nothing. -/
def Reallocates (b : Build) (x : World) (blk : Block) (newSize : Int32)
    (offer : Option Grant) : Prop :=
  ∀ g, SameBlocks x g → ∃ p s',
    cMemRealloc b { x.state with bytes := g } blk.ptr newSize offer = .ok (p, s') ∧
    (p = 0 → s' = { x.state with bytes := g }) ∧
    (p ≠ 0 → Moved b { x.state with bytes := g } blk (x.without blk.ptr) newSize p s')

/-- A byte that is to be copied, or one of another block. -/
def KeptByte (x : World) (blk : Block) (newSize : Int32) (y : Int) : Prop :=
  (blk.ptr ≤ y ∧ y < blk.ptr + Min.min blk.size.toInt newSize.toInt) ∨
    ∃ v ∈ x.without blk.ptr, getRegion v.ptr ≤ y ∧ y < v.finish

/-- The block may be reallocated. In the `malloc` build, it does not shrink and the region asked
for is granted. In the arena build, when there is room: the new block ends in the arena, the
header of the old one counts the bytes to be copied and no more than fit, and the new header
changes no byte that is to be kept. -/
def MovesSafely (b : Build) (x : World) (blk : Block) (newSize : Int32)
    (offer : Option Grant) : Prop :=
  match b with
  | .useMalloc => blk.size.toInt ≤ newSize.toInt ∧
      ∃ g, offer = some g ∧ Available x.state g.addr (regionSize newSize).toNat
  | .arena base h0 => HasRoom (.arena base h0) x.state newSize →
      x.state.freeMemory + newSize.toInt + sizeofInt ≤ base + memoryArenaSize ∧
      (∃ oldSz, cMemSize (.arena base h0) x.state blk.ptr = .ok oldSz ∧
        Min.min blk.size.toInt newSize.toInt ≤ oldSz.toInt ∧ oldSz.toInt ≤ newSize.toInt) ∧
      Spared x.state.freeMemory newSize fun y c ↦
        KeptByte x blk newSize y ∧ x.state.bytes y = c

section

variable {base : Int} {h0 : 0 < base} {s s' : State} {x x' : World} {blk v : Block}
  {newSize oldSz : Int32} {offer : Option Grant} {g : Int → UInt8} {q : Request} {r : Reply}
  {y : Int}

/-! ### Reallocating in the arena -/

/-- The regions of the blocks lie one after another, with their headers in the arena. -/
structure Placed (base : Int) (x : World) : Prop where
  stacked : Stacked base x.state x.live
  header : ∀ v ∈ x.live, getRegion v.ptr + sizeofInt ≤ base + memoryArenaSize

namespace Placed

/-- The header of a block is in the arena. -/
theorem hasHeader (hp : Placed base x) (hv : v ∈ x.live) :
    HasHeader (.arena base h0) s (getRegion v.ptr) := by
  have hlo := (hp.stacked.within v hv).1
  have hhi := hp.header v hv
  exact ⟨by omega, fun y hy hlt ↦ ⟨by omega, by omega⟩⟩

/-- The blocks end with the header of the next region. -/
theorem finish_le (hp : Placed base x) (hv : v ∈ x.live) :
    v.finish ≤ getMemory x.state.freeMemory := by
  have hhi := (hp.stacked.within v hv).2.2
  unfold getRegion at hhi
  unfold Block.finish getMemory
  omega

/-- A byte behind the header of the next region belongs to no block. -/
theorem sameBlocks_update (hp : Placed base x) (c : UInt8)
    (hy : getMemory x.state.freeMemory ≤ y) :
    SameBlocks x (Function.update x.state.bytes y c) := by
  intro v hv z _ hlt
  have hle := hp.finish_le hv
  exact Function.update_of_ne (by omega) _ _

/-- The calls that ask for positive sizes keep the headers in the arena. -/
theorem step (hp : Placed base x) (hpos : Positive x q)
    (he : x.step (.arena base h0) q = .ok (r, x')) : Placed base x' := by
  refine ⟨hp.stacked.step hpos he, ?_⟩
  apply arena_forall (P := fun p _ ↦ getRegion p + sizeofInt ≤ base + memoryArenaSize) he hp.header
  intro sz _ _ hb
  have h4 : sizeofInt = 4 := rfl
  have hlast := (hb.2 (x.state.freeMemory + 3) (by omega) (by omega)).2
  rw [getRegion_getMemory]
  omega

end Placed

/-- The header of a block reads the same whatever the bytes outside the blocks are. -/
private theorem size_same (hp : Placed base x) (hv : blk ∈ x.live) (hg : SameBlocks x g) :
    getMemorySize (.arena base h0) { x.state with bytes := g } blk.ptr = .ok oldSz ↔
      getMemorySize (.arena base h0) x.state blk.ptr = .ok oldSz := by
  have hsz := (hp.stacked.within blk hv).2.1
  have hsame {y : Int} (hy : getRegion blk.ptr ≤ y) (hlt : y < getRegion blk.ptr + sizeofInt) :
      g y = x.state.bytes y := by
    refine hg blk hv y hy ?_
    unfold getRegion at hlt
    unfold Block.finish
    omega
  constructor <;> intro h <;> apply readInt_eq (hp.hasHeader hv)
  · exact (readInt_ok h).2.of_eq fun y hy hlt ↦ (hsame hy hlt).symm
  · exact (readInt_ok h).2.of_eq fun y hy hlt ↦ hsame hy hlt

/-- The arena once the region is handed out. -/
def State.pushed (s : State) (g : Int → UInt8) (sz : Int32) : State where
  bytes := poke g s.freeMemory sz
  freeMemory := s.freeMemory + sz.toInt
  appData := s.appData.add sz
  regions := s.regions
  freed := s.freed

/-- A call that does what it should and has room copies the block to the next region. -/
private theorem arena_run (hp : Placed base x) (hv : blk ∈ x.live)
    (hr : Reallocates (.arena base h0) x blk newSize offer)
    (hroom : HasRoom (.arena base h0) x.state newSize) (hg : SameBlocks x g) :
    ∃ oldSz s', getMemorySize (.arena base h0) x.state blk.ptr = .ok oldSz ∧
      copyPayload (.arena base h0) x.state.freeMemory (getRegion blk.ptr) 0
        oldSz.toInt64.toUInt64.toNat (x.state.pushed g newSize) = .ok s' ∧
      Moved (.arena base h0) { x.state with bytes := g } blk (x.without blk.ptr) newSize
        (getMemory x.state.freeMemory) s' := by
  obtain ⟨p, s', he, _, hm⟩ := hr g hg
  obtain ⟨oldSz, region, s₁, ho, _, hto, ⟨rfl, _⟩ | ⟨hpos, rfl, s₂, hc, hf⟩⟩ :=
    cMemRealloc_ok he
  · exact absurd hroom hto.no_room
  · obtain ⟨rfl, _, rfl⟩ := hto.arena_eq hpos
    cases hf
    exact ⟨oldSz, _, (size_same hp hv hg).mp ho, hc, hm (getMemory_ne_zero hpos)⟩

/-- A copy that stays in the arena counts no negative size. -/
private theorem count_eq {mem : Int} (hlo : base ≤ s.freeMemory) {t : State}
    (hc : copyPayload (.arena base h0) s.freeMemory mem 0 oldSz.toInt64.toUInt64.toNat t =
      .ok s') : ((oldSz.toInt64.toUInt64.toNat : Nat) : Int) = oldSz.toInt := by
  have hin := copyPayload_inBounds _ hc
  have hcount := toNat_toUInt64 oldSz.toInt64
  rw [Int32.toInt_toInt64] at hcount
  split at hcount
  · exact hcount
  · have hge := oldSz.le_toInt
    obtain ⟨_, _, hlt⟩ := hin (1024 * 1024 * 4) (Nat.zero_le _) (by omega)
    unfold memoryArenaSize at hlt
    push_cast at hlt
    omega

/-- A call that does what it should copies no more than fit. -/
private theorem fits_of_reallocates (hp : Placed base x) (hv : blk ∈ x.live)
    (hr : Reallocates (.arena base h0) x blk newSize offer)
    (hroom : HasRoom (.arena base h0) x.state newSize) (hsz : 0 < newSize.toInt)
    (ho : getMemorySize (.arena base h0) x.state blk.ptr = .ok oldSz) :
    oldSz.toInt ≤ newSize.toInt := by
  by_contra hlt
  obtain ⟨hlo, hpos, hhi⟩ := hp.stacked.within blk hv
  obtain ⟨y, hy⟩ : ∃ y, y = getMemory x.state.freeMemory + newSize.toInt := ⟨_, rfl⟩
  obtain ⟨c, hne⟩ : ∃ c, c ≠ x.state.bytes y := ⟨x.state.bytes y + 1, by grind⟩
  have hg : SameBlocks x (Function.update x.state.bytes y c) :=
    hp.sameBlocks_update c (by omega)
  obtain ⟨_, s', ho₁, hc, hm⟩ := arena_run hp hv hr hroom (g := x.state.bytes) fun _ _ _ _ _ ↦ rfl
  obtain ⟨_, t', ho₂, hc', hm'⟩ := arena_run hp hv hr hroom hg
  rw [ho] at ho₁ ho₂
  cases ho₁
  cases ho₂
  have hcount := count_eq hp.stacked.floor hc
  -- The byte behind the new block is copied from one below it, so it does not depend on what
  -- was there.
  have hout : ¬ (getRegion (getMemory x.state.freeMemory) ≤ y ∧
      y < getMemory x.state.freeMemory + newSize.toInt) := by omega
  have hidx : x.state.freeMemory + (newSize.toInt.toNat + sizeofInt : Nat) = y := by
    rw [getMemory_add]
    omega
  have hcopied := copyPayload_copies _ hc (by omega) newSize.toInt.toNat (Nat.zero_le _) (by omega)
  have hcopied' := copyPayload_copies _ hc' (by omega) newSize.toInt.toNat (Nat.zero_le _)
    (by omega)
  have hagree := copyPayload_agree (y := y) (by omega) _ hc hc'
    (fun z hz ↦ by
      unfold State.pushed poke
      dsimp only
      rw [Function.update_of_ne hz.ne])
    (getRegion blk.ptr + (newSize.toInt.toNat + sizeofInt : Nat)) (by omega)
  rw [hidx, hm.frame y hout] at hcopied
  rw [hidx, hm'.frame y hout] at hcopied'
  dsimp only at hcopied hcopied'
  rw [Function.update_self, ← hagree, ← hcopied] at hcopied'
  exact hne hcopied'

/-- A call that does what it should copies every byte that is to be copied. -/
private theorem covers_of_reallocates (hp : Placed base x) (hv : blk ∈ x.live)
    (hr : Reallocates (.arena base h0) x blk newSize offer)
    (hroom : HasRoom (.arena base h0) x.state newSize)
    (ho : getMemorySize (.arena base h0) x.state blk.ptr = .ok oldSz) :
    Min.min blk.size.toInt newSize.toInt ≤ oldSz.toInt := by
  by_contra hlt
  have hbound := hp.finish_le hv
  unfold Block.finish at hbound
  obtain ⟨_, s', ho', hc, _⟩ := arena_run hp hv hr hroom (g := x.state.bytes) fun _ _ _ _ _ ↦ rfl
  rw [ho] at ho'
  cases ho'
  have hcount := count_eq hp.stacked.floor hc
  obtain ⟨y, hy⟩ : ∃ y, y = getMemory x.state.freeMemory + oldSz.toInt := ⟨_, rfl⟩
  obtain ⟨c, hne⟩ : ∃ c, c ≠ x.state.bytes (blk.ptr + oldSz.toInt.toNat) :=
    ⟨x.state.bytes (blk.ptr + oldSz.toInt.toNat) + 1, by grind⟩
  have hg : SameBlocks x (Function.update x.state.bytes y c) :=
    hp.sameBlocks_update c (by omega)
  obtain ⟨_, t', ho', hc', hm'⟩ := arena_run hp hv hr hroom hg
  rw [ho] at ho'
  cases ho'
  -- The byte behind the copied ones is left as it was, whatever it was.
  have hframe := copyPayload_frame _ hc' y (by unfold getMemory at hy; push_cast; omega)
  have hcopied := hm'.copied oldSz.toInt.toNat (by omega) (by omega)
  have hidx : getMemory x.state.freeMemory + (oldSz.toInt.toNat : Nat) = y := by omega
  dsimp only at hcopied
  rw [hidx, hframe, Function.update_of_ne (by omega)] at hcopied
  unfold State.pushed poke at hcopied
  dsimp only at hcopied
  rw [if_neg (by unfold getMemory at hy; omega), Function.update_self] at hcopied
  exact hne hcopied

/-- A call that does what it should has its new header change no byte that is to be kept. -/
private theorem spares_of_reallocates (hp : Placed base x) (hv : blk ∈ x.live)
    (hr : Reallocates (.arena base h0) x blk newSize offer)
    (hroom : HasRoom (.arena base h0) x.state newSize) :
    Spared x.state.freeMemory newSize fun y c ↦
      KeptByte x blk newSize y ∧ x.state.bytes y = c := by
  obtain ⟨oldSz, s', ho, hc, hm⟩ :=
    arena_run hp hv hr hroom (g := x.state.bytes) fun _ _ _ _ _ ↦ rfl
  have hcovers := covers_of_reallocates hp hv hr hroom ho
  have hcount := count_eq hp.stacked.floor hc
  obtain ⟨_, hpos, hhi⟩ := hp.stacked.within blk hv
  have hhead {y : Int} (hy : x.state.freeMemory ≤ y) (hlt : y < x.state.freeMemory + sizeofInt) :
      s'.bytes y = intByte newSize (y - x.state.freeMemory).toNat := by
    rw [copyPayload_frame _ hc y (by push_cast; omega)]
    exact if_pos ⟨hy, hlt⟩
  rintro y c ⟨⟨hge, hlt⟩ | ⟨v, hv', hge, hlt⟩, rfl⟩ hy hend
  · obtain ⟨i, rfl⟩ : ∃ i : Nat, y = blk.ptr + i := ⟨(y - blk.ptr).toNat, by omega⟩
    have hfrom := hm.copied i (by omega) (by omega)
    have hcopied := copyPayload_copies _ hc (by omega) i (Nat.zero_le _) (by omega)
    rw [getMemory_add, getRegion_add, hfrom, hhead hy hend] at hcopied
    exact hcopied
  · rw [← (hm.others v hv' y hge hlt).1, hhead hy hend]

/-- A call without room in the arena returns null and changes nothing. -/
private theorem reallocates_of_full (hp : Placed base x) (hv : blk ∈ x.live)
    (hroom : ¬ HasRoom (.arena base h0) x.state newSize) :
    Reallocates (.arena base h0) x blk newSize offer := by
  intro g _
  have hold : HasHeader (.arena base h0) { x.state with bytes := g } (getRegion blk.ptr) :=
    hp.hasHeader hv
  have hnone (h : x.state.freeMemory + newSize.toInt < base + memoryArenaSize) :
      HasHeader (.arena base h0) { x.state with bytes := g } x.state.freeMemory :=
    absurd h hroom
  obtain ⟨oldSz, ho⟩ := hold.readInt_eq
  obtain ⟨region, s₁, hm⟩ := mallocRegion_arena { x.state with bytes := g } offer hnone
  have hto := mallocRegion_ok hm
  obtain ⟨rfl, rfl⟩ := hto.cases_region.resolve_right fun h ↦ hroom (hto.hasRoom.mpr h)
  refine ⟨0, _, ?_, fun _ ↦ rfl, fun h ↦ absurd rfl h⟩
  rw [cMemRealloc, getMemorySize, ho, ok_bind, hm]
  rfl

/-- The region handed out where the header and the payload fit. -/
private theorem mallocRegion_pushed (hlo : base ≤ x.state.freeMemory)
    (hroom : HasRoom (.arena base h0) x.state newSize) (hsz : 0 < newSize.toInt)
    (hend : x.state.freeMemory + newSize.toInt + sizeofInt ≤ base + memoryArenaSize) :
    mallocRegion (.arena base h0) { x.state with bytes := g } newSize offer =
      .ok (x.state.freeMemory, x.state.pushed g newSize) := by
  have hhead (_ : x.state.freeMemory + newSize.toInt < base + memoryArenaSize) :
      HasHeader (.arena base h0) { x.state with bytes := g } x.state.freeMemory :=
    ⟨by omega, fun y hy hlt ↦ ⟨by omega, by omega⟩⟩
  obtain ⟨region, s₁, hm⟩ := mallocRegion_arena { x.state with bytes := g } offer hhead
  have hto := mallocRegion_ok hm
  obtain ⟨rfl, _, rfl⟩ := hto.arena_eq (hto.hasRoom.mp hroom)
  exact hm

/-- A block is copied to the next region when all of it fits there and the new header changes
no byte that is to be kept. -/
private theorem moved_of_fits (hp : Placed base x) (hv : blk ∈ x.live) (hg : SameBlocks x g)
    (hsz : 0 < newSize.toInt)
    (hend : x.state.freeMemory + newSize.toInt + sizeofInt ≤ base + memoryArenaSize)
    (hcovers : Min.min blk.size.toInt newSize.toInt ≤ oldSz.toInt)
    (hfits : oldSz.toInt ≤ newSize.toInt)
    (hspares : Spared x.state.freeMemory newSize fun y c ↦
      KeptByte x blk newSize y ∧ x.state.bytes y = c)
    (hc : copyPayload (.arena base h0) x.state.freeMemory (getRegion blk.ptr) 0
      oldSz.toInt64.toUInt64.toNat (x.state.pushed g newSize) = .ok s') :
    Moved (.arena base h0) { x.state with bytes := g } blk (x.without blk.ptr) newSize
      (getMemory x.state.freeMemory) s' := by
  have h4 : sizeofInt = 4 := rfl
  obtain ⟨hlo, hpos, hhi⟩ := hp.stacked.within blk hv
  have hfinish := hp.finish_le hv
  have hcount := count_eq hp.stacked.floor hc
  have hframe := copyPayload_frame _ hc
  -- A byte that is to be kept is as before, also where the header was written.
  have hkept {y : Int} (hk : KeptByte x blk newSize y) (hsame : g y = x.state.bytes y)
      (hlt : y < getMemory x.state.freeMemory) : s'.bytes y = g y := by
    unfold getMemory at hlt
    rw [hframe y (by push_cast; omega)]
    unfold State.pushed poke
    dsimp only
    split
    · next hin => rw [← hspares y _ ⟨hk, rfl⟩ hin.1 hin.2, hsame]
    · rfl
  constructor
  · rw [cMemSize, getMemorySize, getRegion_getMemory]
    apply readInt_eq
    · exact ⟨by omega, fun y hy hlt ↦ ⟨by omega, by omega⟩⟩
    · apply (header_poke (s := x.state.pushed g newSize) g rfl).of_eq
      intro y _ hlt
      exact hframe y (by push_cast; omega)
  · intro y hy hlt
    rw [getRegion_getMemory] at hy
    unfold getMemory at hlt
    exact ⟨by omega, by omega⟩
  · intro i hi hn
    have hcopied := copyPayload_copies _ hc (by omega) i (Nat.zero_le _) (by omega)
    unfold Block.finish at hfinish
    have hlow : blk.ptr + i < getMemory x.state.freeMemory := by omega
    have hin := hg blk hv (blk.ptr + i) (by unfold getRegion; omega)
      (by unfold Block.finish; omega)
    have hsrc := hkept (.inl ⟨by omega, by omega⟩) hin hlow
    rw [getMemory_add, getRegion_add, hsrc] at hcopied
    exact hcopied
  · intro y hy
    rw [getRegion_getMemory] at hy
    unfold getMemory at hy
    rw [hframe y (by push_cast; omega)]
    exact if_neg (by omega)
  · intro v hv' y hge hlt
    have hmem := (x.without_sublist _).mem hv'
    have hlast := hp.finish_le hmem
    exact ⟨hkept (.inr ⟨v, hv', hge, hlt⟩) (hg v hmem y hge hlt) (by omega), fun h ↦ h⟩
  · exact fun h ↦ absurd trivial h

/-- In the arena a call does what it should exactly when the block may be moved. -/
private theorem arena_iff (hp : Placed base x) (hv : blk ∈ x.live) (hsz : 0 < newSize.toInt) :
    Reallocates (.arena base h0) x blk newSize offer ↔
      MovesSafely (.arena base h0) x blk newSize offer := by
  constructor
  · intro hr hroom
    obtain ⟨oldSz, s', ho, _, hm⟩ :=
      arena_run hp hv hr hroom (g := x.state.bytes) fun _ _ _ _ _ ↦ rfl
    refine ⟨?_, ⟨oldSz, ho, covers_of_reallocates hp hv hr hroom ho,
      fits_of_reallocates hp hv hr hroom hsz ho⟩, spares_of_reallocates hp hv hr hroom⟩
    obtain ⟨_, hlast⟩ := hm.room (getMemory x.state.freeMemory + newSize.toInt - 1)
      (by rw [getRegion_getMemory]; unfold getMemory; omega) (by omega)
    unfold getMemory at hlast
    omega
  · intro hsafe
    by_cases hroom : HasRoom (.arena base h0) x.state newSize
    · intro g hg
      obtain ⟨hend, ⟨oldSz, ho, hcovers, hfits⟩, hspares⟩ := hsafe hroom
      have hlo := hp.stacked.floor
      obtain ⟨hge, hpos, hle⟩ := hp.stacked.within blk hv
      have hnonneg : 0 ≤ oldSz.toInt := by omega
      have hcount := toNat_size hnonneg
      obtain ⟨s', hc⟩ : ∃ s', copyPayload (.arena base h0) x.state.freeMemory
          (getRegion blk.ptr) 0 oldSz.toInt64.toUInt64.toNat (x.state.pushed g newSize) =
            .ok s' := by
        apply copyPayload_returns (by omega) (by omega)
        intro j _ hj
        exact ⟨⟨by push_cast; omega, by push_cast; omega⟩, by push_cast; omega,
          by push_cast; omega⟩
      refine ⟨_, s', ?_, fun h ↦ ?_,
        fun _ ↦ moved_of_fits hp hv hg hsz hend hcovers hfits hspares hc⟩
      · have ho' : getMemorySize (.arena base h0) { x.state with bytes := g } blk.ptr =
            .ok oldSz := (size_same hp hv hg).mpr ho
        rw [cMemRealloc, ho', ok_bind, mallocRegion_pushed hlo hroom hsz hend, ok_bind]
        dsimp only
        rw [if_neg (by omega), hc, ok_bind]
        rfl
      · exact absurd h (getMemory_ne_zero (by omega))
    · exact reallocates_of_full hp hv hroom

/-! ### Reallocating in the `malloc` build -/

/-- The block is not empty, and a region of just the size of its header and its payload is its
own. -/
def Block.InRegion (blk : Block) (s : State) : Prop :=
  0 < blk.size.toInt ∧ ∃ r ∈ s.regions,
    r.start = getRegion blk.ptr ∧ (r.size : Int) = blk.size.toInt + sizeofInt

/-- A block keeps its region when others are handed out or given back. -/
theorem Block.InRegion.keep {p : Int} (h : v.InRegion s) (hne : getRegion v.ptr ≠ p)
    (hr : ∀ r ∈ s.regions, r.start ≠ p → r ∈ s'.regions) : v.InRegion s' := by
  obtain ⟨hpos, r, hmem, hs, hz⟩ := h
  exact ⟨hpos, r, hr r hmem (hs ▸ hne), hs, hz⟩

/-- A block has the region that was handed out for it. -/
private theorem inRegion_granted {a : Int} {content : Nat → Option UInt8}
    (hsz : 0 < newSize.toInt) (hr : ⟨a, (regionSize newSize).toNat⟩ ∈ s.regions) :
    Block.InRegion ⟨getMemory a, newSize, content⟩ s :=
  ⟨hsz, _, hr, (getRegion_getMemory a).symm, regionSize_toNat hsz⟩

/-- Every block has a region of its own, which it fills. -/
structure Housed (x : World) : Prop where
  backed : Backed x.state x.live
  region : ∀ v ∈ x.live, v.InRegion x.state

namespace Housed

/-- The blocks keep their regions when the bytes outside of them are others. -/
theorem backed_same (hh : Housed x) (hg : SameBlocks x g) :
    Backed { x.state with bytes := g } x.live where
  apart := hh.backed.apart
  positive := hh.backed.positive
  distinct := hh.backed.distinct
  own := hh.backed.own
  header v hv := by
    obtain ⟨hpos, _⟩ := hh.region v hv
    apply (hh.backed.header v hv).of_eq
    intro y hy hlt
    refine hg v hv y hy ?_
    unfold getRegion at hlt
    unfold Block.finish
    omega

/-- The region that is handed out is away from the bytes of the blocks. -/
theorem away {a : Int} {n : Nat} (hh : Housed x) (hv : v ∈ x.live)
    (hav : Available x.state a n) (hy : getRegion v.ptr ≤ y) (hlt : y < v.finish) :
    ¬ (a ≤ y ∧ y < a + n) := by
  obtain ⟨_, r, hr, hs, hz⟩ := hh.region v hv
  have hdisj := (hav.2.2 r hr).2
  unfold Block.finish at hlt
  unfold getRegion at hy hs
  omega

/-- The other blocks keep their regions when that of a block is given back. -/
theorem release (hh : Housed x) (hblk : x.block? blk.ptr = some blk)
    (hr : ∀ r ∈ x.state.regions, r.start ≠ getRegion blk.ptr → r ∈ s.regions) :
    ∀ v ∈ x.without blk.ptr, v.InRegion s := by
  obtain ⟨_, l₁, l₂, hl, hw⟩ := World.block?_split hblk
  intro v hv
  have hne := (hl ▸ hh.backed).region_ne (hw ▸ hv)
  exact (hh.region v ((x.without_sublist _).mem hv)).keep hne hr

/-- The calls that ask for positive sizes give every block such a region. -/
theorem step (hh : Housed x) (hpos : Positive x q) (he : x.step .useMalloc q = .ok (r, x')) :
    Housed x' := by
  refine ⟨issued_step (b := .useMalloc) hh.backed he, ?_⟩
  have hst := step_spec he
  obtain ⟨c, offer⟩ := q
  dsimp only at hst
  cases hst with
  | notMade _ => exact hh.region
  | refused _ _ => exact hh.region
  | malloced hto _ =>
    cases hto with
    | granted hav _ _ =>
      intro v hv
      rcases List.mem_cons.mp hv with rfl | hv
      · exact inRegion_granted (hpos _ (.inl rfl)) List.mem_cons_self
      · apply (hh.region v hv).keep (hh.backed.granted_ne hv hav).symm
        exact fun r hr _ ↦ List.mem_cons_of_mem _ hr
  | @realloced mem a newSize _ blk _ s₂ s hblk _ hto _ hc hf =>
    have hmem := World.mem_live hblk
    obtain ⟨rfl, _⟩ := World.block?_split hblk
    have hb₂ := (hh.backed.malloc hto blk.content).copy hc
    obtain ⟨_, hregions⟩ := hb₂.freeRegion_ok (List.mem_cons_of_mem _ hmem) hf
    obtain ⟨hsame, _⟩ := copyPayload_ok _ hc
    rw [hsame] at hregions
    cases hto with
    | granted hav _ _ =>
      have hin : ∀ r ∈ ⟨a, (regionSize newSize).toNat⟩ :: x.state.regions,
          r.start ≠ getRegion blk.ptr → r ∈ s.regions := by
        intro r hr hne
        rw [hregions]
        exact List.mem_filter.mpr ⟨hr, decide_eq_true hne⟩
      intro v hv
      rcases List.mem_cons.mp hv with rfl | hv
      · apply inRegion_granted (hpos _ (.realloc hblk offer))
        exact hin _ List.mem_cons_self (hh.backed.granted_ne hmem hav)
      · exact hh.release hblk (fun r hr ↦ hin r (List.mem_cons_of_mem _ hr)) v hv
  | freedNull _ => exact hh.region
  | @freed mem blk s hblk hf =>
    have hmem := World.mem_live hblk
    obtain ⟨rfl, _⟩ := World.block?_split hblk
    apply hh.release hblk
    intro r hr hne
    unfold cMemFree at hf
    split at hf
    · cases hf
      exact hr
    · rw [hh.backed.cFree_eq hmem] at hf
      cases hf
      exact List.mem_filter.mpr ⟨hr, decide_eq_true hne⟩
  | @stored mem off c _ _ _ _ hw =>
    obtain ⟨_, _, rfl⟩ := writeByte_ok hw
    intro v hv
    obtain ⟨u, hu, rfl⟩ := List.mem_map.mp hv
    unfold Block.InRegion
    rw [(wrote_frame mem off c u).1, (wrote_frame mem off c u).2]
    exact hh.region u hu

end Housed

/-- A block that does not shrink is copied to a region that is granted, and its own is given
back. -/
private theorem moved_of_grows {a : Int} {s₁ s₂ : State} (hh : Housed x)
    (hblk : x.block? blk.ptr = some blk) (hg : SameBlocks x g) (hsz : 0 < newSize.toInt)
    (hgrow : blk.size.toInt ≤ newSize.toInt)
    (hto : MallocTo .useMalloc { x.state with bytes := g } newSize a s₁)
    (hc : copyPayload .useMalloc a (getRegion blk.ptr) 0 blk.size.toInt64.toUInt64.toNat s₁ =
      .ok s₂)
    (hf : freeRegion .useMalloc s₂ (getRegion blk.ptr) = .ok s') :
    Moved .useMalloc { x.state with bytes := g } blk (x.without blk.ptr) newSize
      (getMemory a) s' := by
  have hmem := World.mem_live hblk
  obtain ⟨_, l₁, l₂, hl, hw⟩ := World.block?_split hblk
  obtain ⟨hpos, old, hold, holds, holdz⟩ := hh.region blk hmem
  have hcount := toNat_size hpos.le
  have hN := regionSize_toNat hsz
  have hb₂ : Backed s₂ ((⟨getMemory a, newSize, blk.content⟩ :: l₁) ++ blk :: l₂) := by
    have hb₁ := (hh.backed_same hg).malloc hto blk.content
    rw [hl] at hb₁
    exact hb₁.copy hc
  obtain ⟨hbytes, hregions⟩ := hb₂.freeRegion_ok (by simp) hf
  obtain ⟨hsame, _⟩ := copyPayload_ok _ hc
  have hframe := copyPayload_frame _ hc
  have hcopies := copyPayload_copies _ hc
  rw [hsame] at hregions
  cases hto with
  | @granted _ _ _ fill hav h4 hfill =>
    have hout {y : Int} (hy : ¬ (a ≤ y ∧ y < a + (regionSize newSize).toNat)) :
        s'.bytes y = g y := by
      rw [hbytes, hframe y (by push_cast; omega)]
      dsimp only
      rw [poke, if_neg (by omega), hfill y hy]
    have hin : ∀ r ∈ ⟨a, (regionSize newSize).toNat⟩ :: x.state.regions,
        r.start ≠ getRegion blk.ptr → r ∈ s'.regions := by
      intro r hr hne
      rw [hregions]
      exact List.mem_filter.mpr ⟨hr, decide_eq_true hne⟩
    constructor
    · have hnew : ⟨getMemory a, newSize, blk.content⟩ ∈
          (⟨getMemory a, newSize, blk.content⟩ :: l₁) ++ l₂ := by simp
      exact (hb₂.release hbytes (by rw [hregions, hsame])).readInt_eq hnew
    · intro y hy hlt
      rw [getRegion_getMemory] at hy ⊢
      refine ⟨_, hin _ List.mem_cons_self ((hh.backed_same hg).granted_ne hmem hav),
        rfl, hy, ?_⟩
      unfold getMemory at hlt
      dsimp only
      omega
    · intro i hi _
      have hdisj := (hav.2.2 old hold).2
      have hcopied := hcopies (fun j k _ _ _ ↦ by omega) i (Nat.zero_le _) (by omega)
      rw [getMemory_add, getRegion_add, ← hbytes] at hcopied
      have hsrc := hh.away hmem hav (y := blk.ptr + i) (by unfold getRegion; omega)
        (by unfold Block.finish; omega)
      rw [hcopied, hout hsrc]
    · intro y hy
      rw [getRegion_getMemory] at hy
      unfold getMemory at hy
      exact hout (by omega)
    · intro v hv y hge hlt
      have hne := (hl ▸ hh.backed).region_ne (hw ▸ hv)
      refine ⟨hout (hh.away ((x.without_sublist _).mem hv) hav hge hlt), ?_⟩
      rintro ⟨r, hr, hs, hinside⟩
      exact ⟨r, hin r (List.mem_cons_of_mem _ hr) (hs ▸ hne), hs, hinside⟩
    · intro _ hgone
      rw [hregions] at hgone
      obtain ⟨r, hr, hs⟩ := List.mem_map.mp hgone
      exact of_decide_eq_true (List.mem_filter.mp hr).2 hs

/-- In the `malloc` build a call does what it should exactly when the block does not shrink and
the region is granted. -/
theorem useMalloc_iff (hh : Housed x) (hblk : x.block? blk.ptr = some blk)
    (hsz : 0 < newSize.toInt) : Reallocates .useMalloc x blk newSize offer ↔
      MovesSafely .useMalloc x blk newSize offer := by
  have hmem := World.mem_live hblk
  have hpos := (hh.region blk hmem).1.le
  constructor
  · intro hr
    obtain ⟨p, s', he, _⟩ := hr x.state.bytes fun _ _ _ _ _ ↦ rfl
    exact (cMemRealloc_useMalloc hh.backed hmem hpos hsz).mp ⟨_, he⟩
  · intro hm g hg
    have hb := hh.backed_same hg
    obtain ⟨⟨p, s'⟩, he⟩ := (cMemRealloc_useMalloc (x := ⟨{ x.state with bytes := g }, x.live⟩)
      hb hmem hpos hsz).mpr hm
    obtain ⟨oldSz, a, s₁, ho, _, hto, ⟨rfl, _⟩ | ⟨ha, rfl, s₂, hc, hf⟩⟩ := cMemRealloc_ok he
    · exact absurd trivial hto.no_room
    rw [getMemorySize, hb.readInt_eq hmem] at ho
    cases ho
    exact ⟨_, s', he, fun h ↦ absurd h (getMemory_ne_zero ha),
      fun _ ↦ moved_of_grows hh hblk hg hsz hm.1 hto hc hf⟩

/-! ### Runs -/

/-- In every run of calls that ask for positive sizes, the blocks have regions of their own. -/
theorem reach_housed (hr : (system .useMalloc).Reach Positive x) : Housed x := by
  apply hr.invariant (P := Housed)
  · intro x hinit
    have hstart : (system .useMalloc).Reach Positive x := .start hinit
    refine ⟨reach_issued hstart, ?_⟩
    rw [hinit.1]
    nofun
  · rintro x q x' hh hpos ⟨r, he⟩
    exact hh.step hpos he

/-- In every run of calls that ask for positive sizes, the regions lie one after another. -/
theorem reach_placed (hr : (system (.arena base h0)).Reach Positive x) : Placed base x := by
  apply hr.invariant (P := Placed base)
  · rintro x ⟨hl, bytes, hs⟩
    have hst : Stacked base x.state x.live := by
      rw [hs, hl]
      exact ⟨le_rfl, nofun, .nil⟩
    refine ⟨hst, ?_⟩
    rw [hl]
    nofun
  · rintro x q x' hp hpos ⟨r, he⟩
    exact hp.step hpos he

/-- In every run of calls that ask for positive sizes, a block is reallocated as it should be
exactly when it may be moved. -/
theorem reallocates_iff {b : Build} {mem : Int} (hr : (system b).Reach Positive x)
    (hblk : x.block? mem = some blk) (hsz : 0 < newSize.toInt) :
    Reallocates b x blk newSize offer ↔ MovesSafely b x blk newSize offer := by
  obtain ⟨rfl, _⟩ := World.block?_split hblk
  cases b with
  | useMalloc => exact useMalloc_iff (reach_housed hr) hblk hsz
  | arena base h0 => exact arena_iff (reach_placed hr) (World.mem_live hblk) hsz

end

/-- What the C library offers for a block that is reallocated. -/
def secondGrant : Grant := ⟨12288, fun _ ↦ 0⟩

/-- A block of eight bytes that shrinks to four is copied past the end of its new region. -/
theorem not_reallocates : ¬ ∀ b x, (system b).Reach Positive x →
    ∀ mem blk, x.block? mem = some blk → ∀ newSize : Int32, 0 < newSize.toInt →
      ∀ offer, Reallocates b x blk newSize offer := by
  intro hall
  obtain ⟨x, hr, hp⟩ := exists_of_calls .useMalloc Positive [mallocEight]
    (fun x ↦ (x.block? 8196).any fun blk ↦ blk.size == 8) (by decide +kernel) (by
      intro q hq x sz hasks
      obtain rfl := List.mem_singleton.mp hq
      rcases hasks with hc | ⟨_, hc, _⟩ <;> cases hc
      decide)
  obtain ⟨blk, hblk, hsize⟩ := (Option.any_eq_true _ _).mp hp
  have hh := reach_housed hr
  obtain ⟨_, _, he, _⟩ := hall .useMalloc x hr 8196 blk hblk 4 (by decide) (some secondGrant)
    x.state.bytes fun _ _ _ _ _ ↦ rfl
  have hmem := World.mem_live hblk
  have hle := ((cMemRealloc_useMalloc hh.backed hmem (hh.region blk hmem).1.le (by decide)).mp
    ⟨_, he⟩).1
  rw [eq_of_beq hsize] at hle
  exact absurd hle (by decide)

/-- A block of eight bytes grows to sixteen. -/
theorem reallocates_iff_mallocEight : ∃ x blk, x.block? 8196 = some blk ∧
    Reallocates .useMalloc x blk 16 (some secondGrant) := by
  obtain ⟨x, hr, hp⟩ := exists_of_calls .useMalloc Positive [mallocEight]
    (fun x ↦ ((x.block? 8196).any fun blk ↦ blk.size == 8) &&
      decide (Available x.state 12288 (regionSize 16).toNat)) (by decide +kernel) (by
      intro q hq x sz hasks
      obtain rfl := List.mem_singleton.mp hq
      rcases hasks with hc | ⟨_, hc, _⟩ <;> cases hc
      decide)
  rw [Bool.and_eq_true] at hp
  obtain ⟨blk, hblk, hsize⟩ := (Option.any_eq_true _ _).mp hp.1
  refine ⟨x, blk, hblk, (reallocates_iff hr hblk (by decide)).mpr ⟨?_, secondGrant, rfl, ?_⟩⟩
  · rw [eq_of_beq hsize]
    decide
  · exact of_decide_eq_true hp.2

end SqliteComposite.Mem

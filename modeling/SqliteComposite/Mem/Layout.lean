import SqliteComposite.Mem.Returning

/-!
# How blocks lie in the arena

`_malloc_region` moves `_free_memory` on by the size asked for and not by the header in front
of it, so that the header of a region lies on the last bytes of the one before. A block needs
the bytes of its header and those last stored in it; here is exactly when a call leaves every
block its bytes, and when it leaves the blocks apart.
-/

namespace SqliteComposite.Mem

open Base

/-- A byte of the header of a block. -/
def Block.HeaderByte (blk : Block) (y : Int) (c : UInt8) : Prop :=
  ∃ k < sizeofInt, y = getRegion blk.ptr + k ∧ c = intByte blk.size k

/-- A byte last stored in a block. -/
def Block.StoredByte (blk : Block) (y : Int) (c : UInt8) : Prop :=
  ∃ i : Nat, (i : Int) < blk.size.toInt ∧ y = blk.ptr + i ∧ blk.content i = some c

/-- A byte the block needs. -/
def Block.Needs (blk : Block) (y : Int) (c : UInt8) : Prop :=
  blk.HeaderByte y c ∨ blk.StoredByte y c

/-- The end of a block. -/
def Block.finish (blk : Block) : Int := blk.ptr + blk.size.toInt

/-- Every block has the size asked for, and the bytes last stored in it. -/
def Intact (b : Build) (x : World) : Prop :=
  ∀ blk ∈ x.live, cMemSize b x.state blk.ptr = .ok blk.size ∧
    ∀ (i : Nat) (c : UInt8), (i : Int) < blk.size.toInt → blk.content i = some c →
      readByte b x.state (getRegion blk.ptr) (sizeofInt + i) = .ok c

/-- The blocks do not overlap, headers included. -/
def NoOverlap (x : World) : Prop :=
  x.live.Pairwise fun u v ↦ u.finish ≤ getRegion v.ptr ∨ v.finish ≤ getRegion u.ptr

/-- The blocks are apart and intact. -/
def Sound (b : Build) (x : World) : Prop := NoOverlap x ∧ Intact b x

/-- The call asks for memory without shrinking a block, or stores a byte. -/
def Asks (x : World) (q : Request) : Prop :=
  match q.call with
  | .xMalloc sz => 0 < sz.toInt
  | .xRealloc mem newSize => ∀ blk, x.block? mem = some blk → blk.size.toInt ≤ newSize.toInt
  | .xFree _ => False
  | .store _ _ _ => True

/-- A header at `region` has the bytes that are needed there. -/
def Spared (region : Int) (sz : Int32) (needs : Int → UInt8 → Prop) : Prop :=
  ∀ y c, needs y c → region ≤ y → y < region + sizeofInt → c = intByte sz (y - region).toNat

/-- The header that is written, the bytes that are copied and the byte that is stored are in
bounds. -/
def Bounded (b : Build) (x : World) (q : Request) : Prop :=
  match q.call with
  | .xMalloc sz => HasRoom b x.state sz → HasHeader b x.state x.state.freeMemory
  | .xRealloc mem newSize => ∀ blk, x.block? mem = some blk → HasRoom b x.state newSize →
      HasHeader b x.state x.state.freeMemory ∧
      ∀ y, getMemory x.state.freeMemory ≤ y →
        y < getMemory x.state.freeMemory + blk.size.toInt →
        InBounds b x.state x.state.freeMemory y
  | .xFree _ => True
  | .store mem off _ => ∀ blk, x.block? mem = some blk → (off : Int) < blk.size.toInt →
      InBounds b x.state (getRegion mem) (mem + off)

/-- The header that is written changes no byte a block needs, and the byte that is stored none
of a header. -/
def Spares (b : Build) (x : World) (q : Request) : Prop :=
  match q.call with
  | .xMalloc sz => HasRoom b x.state sz →
      ∀ blk ∈ x.live, Spared x.state.freeMemory sz blk.Needs
  | .xRealloc mem newSize => ∀ blk, x.block? mem = some blk → HasRoom b x.state newSize →
      Spared x.state.freeMemory newSize blk.StoredByte ∧
      ∀ v ∈ x.without mem, Spared x.state.freeMemory newSize v.Needs
  | .xFree _ => True
  | .store mem off c => ∀ blk, x.block? mem = some blk → (off : Int) < blk.size.toInt →
      ∀ v ∈ x.live, ∀ d, v.HeaderByte (mem + off) d → d = c

/-- A region that is handed out starts past the end of every other block. -/
def Fits (b : Build) (x : World) (q : Request) : Prop :=
  match q.call with
  | .xMalloc sz => HasRoom b x.state sz → ∀ v ∈ x.live, v.finish ≤ x.state.freeMemory
  | .xRealloc mem newSize => (x.block? mem).isSome → HasRoom b x.state newSize →
      ∀ v ∈ x.without mem, v.finish ≤ x.state.freeMemory
  | .xFree _ => True
  | .store _ _ _ => True

/-- The regions of the blocks lie in the arena one after another, the last one first, as far
as their sizes count them. -/
structure Stacked (base : Int) (s : State) (live : List Block) : Prop where
  floor : base ≤ s.freeMemory
  within : ∀ blk ∈ live, base ≤ getRegion blk.ptr ∧ 0 < blk.size.toInt ∧
    getRegion blk.ptr + blk.size.toInt ≤ s.freeMemory
  order : live.Pairwise fun u v ↦ getRegion v.ptr + v.size.toInt ≤ getRegion u.ptr

section

variable {base : Int} {h0 : 0 < base} {s s' : State} {live : List Block} {blk v : Block}
  {x x' : World} {q : Request} {r : Reply} {sz : Int32} {region y : Int} {c : UInt8}
  {content : Nat → Option UInt8}

/-- A size that is not negative, as the copy loop counts it. -/
theorem toNat_size (h : 0 ≤ sz.toInt) : ((sz.toInt64.toUInt64.toNat : Nat) : Int) = sz.toInt := by
  rw [toNat_toUInt64, Int32.toInt_toInt64, if_pos h]

/-! ### What the blocks need -/

/-- The blocks are intact when the bytes they need are there. -/
theorem intact_iff {b : Build} (hpos : ∀ blk ∈ x.live, getRegion blk.ptr ≠ 0) :
    Intact b x ↔ ∀ blk ∈ x.live, ∀ y c, blk.Needs y c →
      InBounds b x.state (getRegion blk.ptr) y ∧ x.state.bytes y = c := by
  constructor
  · rintro h blk hv y c (⟨k, hk, rfl, rfl⟩ | ⟨i, hi, rfl, hc⟩)
    · obtain ⟨hin, hh⟩ := readInt_ok (h blk hv).1
      exact ⟨hin.2 _ (by omega) (by omega), hh k hk⟩
    · obtain ⟨_, hin, he⟩ := readByte_ok ((h blk hv).2 i c hi hc)
      rw [Nat.add_comm sizeofInt, getRegion_add] at hin he
      exact ⟨hin, he⟩
  · intro h blk hv
    constructor
    · apply readInt_eq
      · refine ⟨hpos blk hv, fun y hy hlt ↦ ?_⟩
        have hk : y = getRegion blk.ptr + (y - getRegion blk.ptr).toNat := by omega
        exact (h blk hv y _ (.inl ⟨_, by omega, hk, rfl⟩)).1
      · exact fun k hk ↦ (h blk hv _ _ (.inl ⟨k, hk, rfl, rfl⟩)).2
    · intro i c hi hc
      obtain ⟨hin, he⟩ := h blk hv _ _ (.inr ⟨i, hi, rfl, hc⟩)
      rw [← getRegion_add, Nat.add_comm _ sizeofInt] at hin he
      rw [← he]
      exact readByte_eq (hpos blk hv) hin

/-- The size that is read is that of the block. -/
private theorem Intact.oldSize_eq {b : Build} (hi : Intact b x) (hmem : blk ∈ x.live)
    (ho : getMemorySize b x.state blk.ptr = .ok sz) : sz = blk.size := by
  have hsz := (hi blk hmem).1
  rw [cMemSize, ho] at hsz
  injection hsz

/-- The header of the next region spares what is needed when it changes none of it. -/
private theorem spared_iff {needs : Int → UInt8 → Prop} (f : Int → UInt8)
    (hf : ∀ y c, needs y c → f y = c) :
    Spared region sz needs ↔ ∀ y c, needs y c → poke f region sz y = c := by
  constructor
  · intro h y c hn
    unfold poke
    split
    · next hy => exact (h y c hn hy.1 hy.2).symm
    · exact hf y c hn
  · intro h y c hn hy hlt
    rw [← h y c hn, poke, if_pos ⟨hy, hlt⟩]

/-! ### Where the regions are -/

namespace Stacked

variable {live' : List Block}

/-- The region of a block is not at the null pointer. -/
theorem ne_zero (hst : Stacked base s live) (h0 : 0 < base) (hv : blk ∈ live) :
    getRegion blk.ptr ≠ 0 := by
  have hw := (hst.within blk hv).1
  omega

/-- The bytes a block needs end with the header of the next region. -/
theorem needs_lt (hst : Stacked base s live) (hv : blk ∈ live) (hn : blk.Needs y c) :
    y < getMemory s.freeMemory := by
  obtain ⟨_, hpos, hle⟩ := hst.within blk hv
  unfold getRegion at hle
  unfold getMemory
  rcases hn with ⟨k, hk, rfl, _⟩ | ⟨i, hi, rfl, _⟩
  · unfold getRegion
    omega
  · omega

/-- The payloads of two blocks are apart. -/
theorem apart (hst : Stacked base s live) {u v : Block} (hu : u ∈ live) (hv : v ∈ live)
    (hne : u ≠ v) : v.finish ≤ u.ptr ∨ u.finish ≤ v.ptr := by
  let R (u v : Block) : Prop := v.finish ≤ u.ptr ∨ u.finish ≤ v.ptr
  have : Std.Symm R := ⟨fun _ _ h ↦ h.symm⟩
  have hp : live.Pairwise R := by
    apply hst.order.imp
    intro u v h
    left
    unfold getRegion at h
    unfold Block.finish
    omega
  exact hp.forall hu hv hne

/-- A pointer belongs to one block. -/
theorem ptr_unique (hst : Stacked base s live) {u v : Block} (hu : u ∈ live) (hv : v ∈ live)
    (hp : u.ptr = v.ptr) : u = v := by
  by_contra hne
  have hwu := (hst.within u hu).2.1
  have hwv := (hst.within v hv).2.1
  have hap := hst.apart hu hv hne
  unfold Block.finish at hap
  omega

/-- A region is handed out past all others. -/
theorem push (hst : Stacked base s live) (hsub : live'.Sublist live) (hsz : 0 < sz.toInt)
    (hs : s'.freeMemory = s.freeMemory + sz.toInt) :
    Stacked base s' (⟨getMemory s.freeMemory, sz, content⟩ :: live') := by
  have hfloor := hst.floor
  constructor
  · omega
  · intro blk hv
    rcases List.mem_cons.mp hv with rfl | hv
    · rw [getRegion_getMemory]
      exact ⟨hfloor, hsz, hs.ge⟩
    · obtain ⟨hlo, hpos, hhi⟩ := hst.within blk (hsub.mem hv)
      exact ⟨hlo, hpos, by omega⟩
  · rw [List.pairwise_cons]
    refine ⟨fun v hv ↦ ?_, hst.order.sublist hsub⟩
    rw [getRegion_getMemory]
    exact (hst.within v (hsub.mem hv)).2.2

/-- Some of the regions lie one after another as well. -/
theorem sublist (hst : Stacked base s live) (hsub : live'.Sublist live)
    (hs : s'.freeMemory = s.freeMemory) : Stacked base s' live' where
  floor := hs ▸ hst.floor
  within blk hv := hs ▸ hst.within blk (hsub.mem hv)
  order := hst.order.sublist hsub

/-- What a block holds does not matter. -/
theorem map (hst : Stacked base s live) {f : Block → Block}
    (hf : ∀ blk, (f blk).ptr = blk.ptr ∧ (f blk).size = blk.size)
    (hs : s'.freeMemory = s.freeMemory) : Stacked base s' (live.map f) where
  floor := hs ▸ hst.floor
  within blk hv := by
    obtain ⟨v, hmem, rfl⟩ := List.mem_map.mp hv
    rw [(hf v).1, (hf v).2, hs]
    exact hst.within v hmem
  order := by
    rw [List.pairwise_map]
    apply hst.order.imp
    intro u v h
    rwa [(hf u).1, (hf v).1, (hf v).2]

end Stacked

/-- The calls that ask for positive sizes keep the regions one after another. -/
theorem Stacked.step (hst : Stacked base x.state x.live) (hp : Positive x q)
    (he : x.step (.arena base h0) q = .ok (r, x')) : Stacked base x'.state x'.live := by
  have hto := step_spec he
  obtain ⟨call, offer⟩ := q
  dsimp only at hto
  cases hto with
  | notMade _ => exact hst
  | refused _ _ => exact hst
  | malloced hto hpos =>
    obtain ⟨rfl, _, rfl⟩ := hto.arena_eq hpos
    exact hst.push (.refl _) (hp _ (.inl rfl)) rfl
  | realloced hblk _ hto hpos hc hfree =>
    obtain ⟨rfl, _, rfl⟩ := hto.arena_eq hpos
    obtain ⟨hsame, _⟩ := copyPayload_ok _ hc
    cases hfree
    apply hst.push (x.without_sublist _) (hp _ (.realloc hblk offer))
    rw [hsame]
  | freedNull _ => exact hst
  | freed _ hf => exact hst.sublist (x.without_sublist _) (by rw [cMemFree_ok hf])
  | @stored mem off c _ _ _ _ hw =>
    obtain ⟨_, _, rfl⟩ := writeByte_ok hw
    exact hst.map (wrote_frame mem off c) rfl

/-- The calls that ask for memory without shrinking a block ask for positive sizes. -/
private theorem Asks.positive (hst : Stacked base x.state x.live) (ha : Asks x q) :
    Positive x q := by
  obtain ⟨call, offer⟩ := q
  rintro sz (hc | ⟨mem, hc, hsome⟩) <;> cases hc
  · exact ha
  · obtain ⟨blk, hblk⟩ := Option.isSome_iff_exists.mp hsome
    have hsz := (hst.within blk (World.mem_live hblk)).2.1
    exact hsz.trans_le (ha blk hblk)

/-- A call that is not made, or is refused for want of room, meets every condition. -/
private theorem meets_of_idle {b : Build}
    (h : Stray x q.call ∨ ∃ sz, (q.call = .xMalloc sz ∨ ∃ mem, q.call = .xRealloc mem sz) ∧
      ¬ HasRoom b x.state sz) : Bounded b x q ∧ Spares b x q ∧ Fits b x q := by
  obtain ⟨call, offer⟩ := q
  rcases h with hstray | ⟨sz, rfl | ⟨mem, rfl⟩, hroom⟩
  · cases hstray with
    | xRealloc hnone =>
      simp only [Bounded, Spares, Fits, hnone, reduceCtorEq, false_implies, implies_true,
        Option.isSome_none, Bool.false_eq_true, and_self]
    | xFree _ => exact ⟨trivial, trivial, trivial⟩
    | store hnot =>
      exact ⟨fun blk hblk hlt ↦ absurd hlt (hnot blk hblk),
        fun blk hblk hlt ↦ absurd hlt (hnot blk hblk), trivial⟩
  · exact ⟨fun h ↦ absurd h hroom, fun h ↦ absurd h hroom, fun h ↦ absurd h hroom⟩
  · exact ⟨fun _ _ h ↦ absurd h hroom, fun _ _ h ↦ absurd h hroom, fun _ h ↦ absurd h hroom⟩

/-- One more block is apart from the others when it starts past their ends. -/
private theorem noOverlap_push (hst : Stacked base s live) {live' : List Block}
    (hsub : live'.Sublist live) (hsz : 0 < sz.toInt) (hno : NoOverlap ⟨s, live⟩) :
    NoOverlap ⟨s', ⟨getMemory s.freeMemory, sz, content⟩ :: live'⟩ ↔
      ∀ v ∈ live', v.finish ≤ s.freeMemory := by
  have hno' : NoOverlap ⟨s', live'⟩ := List.Pairwise.sublist hsub hno
  have hcons : NoOverlap ⟨s', ⟨getMemory s.freeMemory, sz, content⟩ :: live'⟩ ↔
      ∀ v ∈ live', getMemory s.freeMemory + sz.toInt ≤ getRegion v.ptr ∨
        v.finish ≤ getRegion (getMemory s.freeMemory) :=
    List.pairwise_cons.trans (and_iff_left hno')
  rw [hcons, getRegion_getMemory]
  apply forall₂_congr
  intro v hv
  apply or_iff_right
  obtain ⟨_, hpos, hhi⟩ := hst.within v (hsub.mem hv)
  unfold getMemory
  omega

/-- A call leaves the blocks apart exactly when a region it hands out fits. -/
private theorem noOverlap_step (hst : Stacked base x.state x.live) (hno : NoOverlap x)
    (ha : Asks x q) (he : x.step (.arena base h0) q = .ok (r, x')) :
    NoOverlap x' ↔ Fits (.arena base h0) x q := by
  have hto := step_spec he
  obtain ⟨call, offer⟩ := q
  dsimp only at hto
  cases hto with
  | notMade hstray => exact iff_of_true hno (meets_of_idle (.inl hstray)).2.2
  | refused hc hto => exact iff_of_true hno (meets_of_idle (.inr ⟨_, hc, hto.no_room⟩)).2.2
  | malloced hto hpos =>
    have hroom := hto.hasRoom.mpr hpos
    obtain ⟨rfl, _, rfl⟩ := hto.arena_eq hpos
    rw [noOverlap_push hst (.refl _) ha hno]
    exact ⟨fun h _ ↦ h, fun h ↦ h hroom⟩
  | realloced hblk _ hto hpos hc hfree =>
    have hroom := hto.hasRoom.mpr hpos
    obtain ⟨rfl, _, rfl⟩ := hto.arena_eq hpos
    cases hfree
    have hsz := (hst.within _ (World.mem_live hblk)).2.1
    have hle := ha _ hblk
    rw [Block.movedTo, noOverlap_push hst (x.without_sublist _) (by omega) hno]
    have hsome : (x.block? _).isSome = true := Option.isSome_iff_exists.mpr ⟨_, hblk⟩
    exact ⟨fun h _ _ ↦ h, fun h ↦ h hsome hroom⟩
  | freedNull _ => exact ha.elim
  | freed _ _ => exact ha.elim
  | @stored mem off c _ _ _ _ hw =>
    refine iff_of_true ?_ trivial
    unfold NoOverlap
    rw [List.pairwise_map]
    apply hno.imp
    intro u v h
    unfold Block.finish at h ⊢
    rwa [(wrote_frame mem off c u).1, (wrote_frame mem off c u).2, (wrote_frame mem off c v).1,
      (wrote_frame mem off c v).2]

/-! ### What a call leaves of the bytes -/

/-- A header that was written has the bytes it needs. -/
private theorem poke_headerByte (f : Int → UInt8)
    (hn : Block.HeaderByte ⟨getMemory region, sz, content⟩ y c) :
    region ≤ y ∧ y < region + sizeofInt ∧ poke f region sz y = c := by
  obtain ⟨k, hk, rfl, rfl⟩ := hn
  rw [getRegion_getMemory]
  exact ⟨by omega, by omega, header_poke (s := ⟨poke f region sz, 0, ⟨0, 0⟩, [], []⟩) f rfl k hk⟩

/-- What a copy to the next region has done. -/
private theorem copy_ok {mem : Int} {n : Nat} (hhi : getRegion mem + n ≤ region)
    (hc : copyPayload (.arena base h0) region (getRegion mem) 0 n s = .ok s') :
    (∀ y, getMemory region ≤ y → y < getMemory region + n →
        InBounds (.arena base h0) s region y) ∧
      (∀ y < getMemory region, s'.bytes y = s.bytes y) ∧
      ∀ i < n, s'.bytes (getMemory region + i) = s.bytes (mem + i) := by
  have hhead (y : Int) (hy : y < getMemory region) : s'.bytes y = s.bytes y := by
    apply copyPayload_frame n hc
    unfold getMemory at hy
    push_cast
    omega
  refine ⟨fun y hy hlt ↦ ?_, hhead, fun i hi ↦ ?_⟩
  · unfold getMemory at hy hlt
    have he : y = region + ((y - region - sizeofInt).toNat + sizeofInt : Nat) := by
      push_cast
      omega
    rw [he]
    exact (copyPayload_inBounds n hc _ (by omega) (by omega)).2
  · have hcopied := copyPayload_copies n hc (by omega) i (Nat.zero_le i) (by omega)
    rw [getMemory_add, getRegion_add] at hcopied
    rw [hcopied]
    apply hhead
    unfold getRegion at hhi
    unfold getMemory
    omega

/-- A block that was copied has the bytes it needs if the header of the new region did not
change those stored in the old one. -/
private theorem moved_iff {newSize : Int32} (hle : blk.size.toInt ≤ newSize.toInt)
    (hstored : ∀ y c, blk.StoredByte y c → s.bytes y = c)
    (hb : HasHeader (.arena base h0) s region)
    (hin : ∀ y, getMemory region ≤ y → y < getMemory region + blk.size.toInt →
      InBounds (.arena base h0) s region y)
    (hhead : ∀ y < getMemory region, s'.bytes y = poke s.bytes region newSize y)
    (hcopy : ∀ i : Nat, (i : Int) < blk.size.toInt →
      s'.bytes (getMemory region + i) = poke s.bytes region newSize (blk.ptr + i)) :
    Spared region newSize blk.StoredByte ↔
      ∀ y c, (blk.movedTo (getMemory region) newSize s').Needs y c →
        InBounds (.arena base h0) s region y ∧ s'.bytes y = c := by
  rw [spared_iff s.bytes hstored]
  constructor
  · rintro h y c (hn | ⟨i, _, rfl, hc⟩)
    · obtain ⟨hlo, hhi, hc⟩ := poke_headerByte s.bytes hn
      exact ⟨hb.2 y hlo hhi, by rw [hhead y hhi, hc]⟩
    · rw [Block.movedTo_content, Option.ite_none_right_eq_some, Option.some.injEq] at hc
      obtain ⟨⟨hi, _⟩, hc⟩ := hc
      refine ⟨hin _ (by simp [Block.movedTo]) (by simpa [Block.movedTo] using hi), ?_⟩
      cases hd : blk.content i with
      | none =>
        rw [hd] at hc
        exact hc
      | some d =>
        rw [hd] at hc
        rw [← hc, Block.movedTo, hcopy i hi]
        exact h _ _ ⟨i, hi, rfl, hd⟩
  · rintro h y c ⟨i, hi, rfl, hc⟩
    have hcont : (blk.movedTo (getMemory region) newSize s').content i = some c := by
      rw [Block.movedTo_content, if_pos ⟨hi, by omega⟩, hc]
      rfl
    rw [← hcopy i hi]
    exact (h _ c (.inr ⟨i, by simp only [Block.movedTo]; omega, rfl, hcont⟩)).2

/-- The bytes of the blocks are kept where a header was written if they were needed there. -/
private theorem kept_iff (s' : State) (hst : Stacked base s live)
    (hi : Intact (.arena base h0) ⟨s, live⟩) (hv : v ∈ live)
    (hbytes : ∀ y < getMemory s.freeMemory, s'.bytes y = poke s.bytes s.freeMemory sz y) :
    Spared s.freeMemory sz v.Needs ↔ ∀ y c, v.Needs y c →
      InBounds (.arena base h0) s' (getRegion v.ptr) y ∧ s'.bytes y = c := by
  have hneeds := (intact_iff fun _ hv ↦ hst.ne_zero h0 hv).mp hi v hv
  rw [spared_iff s.bytes fun y c hn ↦ (hneeds y c hn).2]
  apply forall₃_congr
  intro y c hn
  rw [hbytes y (hst.needs_lt hv hn)]
  exact (and_iff_right (hneeds y c hn).1).symm

/-- A byte stored in a block leaves the blocks what they need when it changes no header. -/
private theorem stored_iff (hst : Stacked base s live) {off : Nat} (hv : blk ∈ live)
    (hlt : (off : Int) < blk.size.toInt)
    (hneeds : ∀ v ∈ live, ∀ y d, v.Needs y d →
      InBounds (.arena base h0) s (getRegion v.ptr) y ∧ s.bytes y = d)
    (hin : InBounds (.arena base h0) s (getRegion blk.ptr) (blk.ptr + off)) :
    (∀ v ∈ live.map fun v ↦ if v.ptr = blk.ptr then v.wrote off c else v, ∀ y d, v.Needs y d →
        InBounds (.arena base h0) s (getRegion v.ptr) y ∧
          Function.update s.bytes (blk.ptr + off) c y = d) ↔
      ∀ v ∈ live, ∀ d, v.HeaderByte (blk.ptr + off) d → d = c := by
  have hframe := wrote_frame blk.ptr off c
  have hheader (v : Block) (y : Int) (d : UInt8) :
      (if v.ptr = blk.ptr then v.wrote off c else v).HeaderByte y d ↔ v.HeaderByte y d := by
    simp only [Block.HeaderByte, (hframe v).1, (hframe v).2]
  constructor
  · intro h v hv d hd
    have hb := (h _ (List.mem_map_of_mem hv) _ d (.inl ((hheader v _ d).mpr hd))).2
    rw [Function.update_self] at hb
    exact hb.symm
  · intro h v' hv' y d hn
    obtain ⟨v, hmem, rfl⟩ := List.mem_map.mp hv'
    rcases hn with hd | ⟨i, hi, rfl, hd⟩
    · rw [hheader] at hd
      obtain ⟨hold, hb⟩ := hneeds v hmem y d (.inl hd)
      refine ⟨hold, ?_⟩
      by_cases hy : y = blk.ptr + off
      · subst hy
        rw [Function.update_self, h v hmem d hd]
      · rw [Function.update_of_ne hy, hb]
    · rw [(hframe v).2] at hi
      rw [(hframe v).1]
      by_cases hp : v.ptr = blk.ptr
      · obtain rfl := hst.ptr_unique hmem hv hp
        rw [if_pos rfl] at hd
        by_cases ho : i = off
        · subst ho
          rw [Block.wrote_content, if_pos rfl, Option.some.injEq] at hd
          exact ⟨hin, by rw [Function.update_self, hd]⟩
        · rw [Block.wrote_content, if_neg ho] at hd
          obtain ⟨hold, hb⟩ := hneeds v hmem _ d (.inr ⟨i, hi, rfl, hd⟩)
          exact ⟨hold, by rw [Function.update_of_ne (by omega), hb]⟩
      · rw [if_neg hp] at hd
        obtain ⟨hold, hb⟩ := hneeds v hmem _ d (.inr ⟨i, hi, rfl, hd⟩)
        have hne : v ≠ blk := fun h ↦ hp (congrArg Block.ptr h)
        have hap := hst.apart hmem hv hne
        unfold Block.finish at hap
        exact ⟨hold, by rw [Function.update_of_ne (by omega), hb]⟩

/-- A call leaves the blocks intact exactly when it spares the bytes they need. -/
private theorem intact_step (hst : Stacked base x.state x.live)
    (hi : Intact (.arena base h0) x) (ha : Asks x q)
    (he : x.step (.arena base h0) q = .ok (r, x')) :
    Intact (.arena base h0) x' ↔ Spares (.arena base h0) x q := by
  have hst' := hst.step (ha.positive hst) he
  have hneeds := (intact_iff fun _ hv ↦ hst.ne_zero h0 hv).mp hi
  have hto := step_spec he
  obtain ⟨call, offer⟩ := q
  dsimp only at hto
  cases hto with
  | notMade hstray => exact iff_of_true hi (meets_of_idle (.inl hstray)).2.1
  | refused hc hto => exact iff_of_true hi (meets_of_idle (.inr ⟨_, hc, hto.no_room⟩)).2.1
  | @malloced sz _ _ hto hpos =>
    have hroom := hto.hasRoom.mpr hpos
    rw [intact_iff fun _ hv ↦ hst'.ne_zero h0 hv]
    obtain ⟨rfl, hb, rfl⟩ := hto.arena_eq hpos
    have hkept {v : Block} (hv : v ∈ x.live) :=
      kept_iff { x.state with bytes := poke x.state.bytes x.state.freeMemory sz }
        hst hi hv fun _ _ ↦ rfl
    constructor
    · intro h _ v hv
      exact (hkept hv).mpr fun y c hn ↦ h v (List.mem_cons_of_mem _ hv) y c hn
    · intro h blk hv y c hn
      rcases List.mem_cons.mp hv with rfl | hv
      · rcases hn with hn | ⟨_, _, _, hc⟩
        · obtain ⟨hlo, hhi, hc⟩ := poke_headerByte x.state.bytes hn
          exact ⟨hb.2 y hlo hhi, hc⟩
        · cases hc
      · exact (hkept hv).mp (h hroom blk hv) y c hn
  | @realloced mem _ newSize oldSz blk _ _ _ hblk ho hto hpos hc hfree =>
    have hroom := hto.hasRoom.mpr hpos
    have hmem := World.mem_live hblk
    obtain ⟨rfl, _⟩ := World.block?_split hblk
    obtain rfl := hi.oldSize_eq hmem ho
    obtain ⟨hlo, hsz, hhi⟩ := hst.within blk hmem
    have hle := ha blk hblk
    rw [intact_iff fun _ hv ↦ hst'.ne_zero h0 hv]
    obtain ⟨rfl, hb, rfl⟩ := hto.arena_eq hpos
    have hcount := toNat_size hsz.le
    obtain ⟨hin, hhead, hcopy⟩ := copy_ok (by omega) hc
    cases hfree
    have hkept {v : Block} (hv : v ∈ x.without blk.ptr) :=
      kept_iff _ hst hi ((x.without_sublist _).mem hv) hhead
    have hmoved := moved_iff hle (fun y c hn ↦ (hneeds blk hmem y c (.inr hn)).2) hb
      (fun y hy hlt ↦ hin y hy (by omega)) hhead fun i hi ↦ hcopy i (by omega)
    constructor
    · intro h blk' hblk' _
      rw [hblk] at hblk'
      cases hblk'
      exact ⟨hmoved.mpr fun y c hn ↦ h _ List.mem_cons_self y c hn,
        fun v hv ↦ (hkept hv).mpr fun y c hn ↦ h v (List.mem_cons_of_mem _ hv) y c hn⟩
    · intro h
      obtain ⟨hs, hothers⟩ := h blk hblk hroom
      intro v hv y c hn
      rcases List.mem_cons.mp hv with rfl | hv
      · exact hmoved.mp hs y c hn
      · exact (hkept hv).mp (hothers v hv) y c hn
  | freedNull _ => exact ha.elim
  | freed _ _ => exact ha.elim
  | @stored mem off c blk _ hblk hlt hw =>
    have hmem := World.mem_live hblk
    obtain ⟨rfl, _⟩ := World.block?_split hblk
    obtain ⟨_, hin, rfl⟩ := writeByte_ok hw
    rw [Nat.add_comm sizeofInt, getRegion_add] at hin hst' ⊢
    rw [intact_iff fun _ hv ↦ hst'.ne_zero h0 hv]
    apply (stored_iff hst hmem hlt hneeds hin).trans
    constructor
    · exact fun h _ _ _ ↦ h
    · exact fun h ↦ h blk hblk hlt

/-! ### Runs -/

/-- A call that asks for memory, or stores a byte, stays in bounds when what it writes does. -/
private theorem completes_iff (hst : Stacked base x.state x.live)
    (hi : Intact (.arena base h0) x) (ha : Asks x q) :
    Completes (.arena base h0) x q ↔ Bounded (.arena base h0) x q := by
  obtain ⟨call, offer⟩ := q
  cases call with
  | xMalloc sz => exact Iff.rfl
  | xRealloc mem newSize =>
    apply forall₂_congr
    intro blk hblk
    have hmem := World.mem_live hblk
    have hcount := toNat_size (hst.within blk hmem).2.1.le
    have hold : getMemorySize (.arena base h0) x.state blk.ptr = .ok blk.size := (hi blk hmem).1
    constructor
    · rintro ⟨hserves, hfits⟩ hroom
      refine ⟨hserves hroom, fun y hy hlt ↦ ?_⟩
      have he : y = getMemory x.state.freeMemory + (y - getMemory x.state.freeMemory).toNat := by
        omega
      rw [he]
      exact (hfits hroom _ hold _ (by omega)).2
    · intro hb
      refine ⟨fun hroom ↦ (hb hroom).1, fun hroom oldSz ho i hlt ↦ ?_⟩
      rw [hold] at ho
      cases ho
      obtain ⟨hge, hend⟩ := (hb hroom).2 (getMemory x.state.freeMemory + i) (by omega) (by omega)
      -- The block lies below the region its bytes are copied to.
      obtain ⟨hlo, _, hhi⟩ := hst.within blk hmem
      refine ⟨⟨?_, ?_⟩, hge, hend⟩
      · unfold getRegion at hlo
        omega
      · unfold getRegion at hhi
        unfold getMemory at hend
        omega
  | xFree _ => exact ha.elim
  | store mem off c => exact forall_prop_of_true trivial

/-- In every run of calls that write in bounds and spare the bytes the blocks need, the blocks
are intact. -/
theorem reach_intact (hr : (system (.arena base h0)).Reach (fun x q ↦ Asks x q ∧
    Bounded (.arena base h0) x q ∧ Spares (.arena base h0) x q) x) :
    Stacked base x.state x.live ∧ Intact (.arena base h0) x := by
  apply hr.invariant (P := fun x ↦ Stacked base x.state x.live ∧ Intact (.arena base h0) x)
  · rintro x ⟨hl, bytes, hs⟩
    rw [hl, hs]
    refine ⟨⟨le_rfl, by simp, .nil⟩, ?_⟩
    intro blk hv
    rw [hl] at hv
    cases hv
  · rintro x q x' ⟨hst, hi⟩ ⟨ha, _, hspares⟩ ⟨r, he⟩
    exact ⟨hst.step (ha.positive hst) he, (intact_step hst hi ha he).mpr hspares⟩

/-- In every run of calls that write in bounds, spare the bytes the blocks need and hand out
regions that fit, the blocks are apart and intact, and stay so exactly when the next call is
one of these. -/
theorem sound_iff (hr : (system (.arena base h0)).Reach (fun x q ↦ Asks x q ∧
    Bounded (.arena base h0) x q ∧ Spares (.arena base h0) x q ∧ Fits (.arena base h0) x q) x) :
    Sound (.arena base h0) x ∧ ∀ q, Asks x q →
      ((∃ r x', x.step (.arena base h0) q = .ok (r, x') ∧ Sound (.arena base h0) x') ↔
        Bounded (.arena base h0) x q ∧ Spares (.arena base h0) x q ∧
          Fits (.arena base h0) x q) := by
  obtain ⟨hst, hi⟩ := reach_intact (hr.mono fun x q h ↦ ⟨h.1, h.2.1, h.2.2.1⟩)
  have hno : NoOverlap x := by
    have hinv : Stacked base x.state x.live ∧ NoOverlap x := by
      apply hr.invariant (P := fun x ↦ Stacked base x.state x.live ∧ NoOverlap x)
      · intro x hinit
        refine ⟨(reach_intact (.start hinit)).1, ?_⟩
        unfold NoOverlap
        rw [hinit.1]
        exact .nil
      · rintro x q x' ⟨hst, hno⟩ ⟨ha, _, _, hfits⟩ ⟨r, he⟩
        exact ⟨hst.step (ha.positive hst) he, (noOverlap_step hst hno ha he).mpr hfits⟩
    exact hinv.2
  refine ⟨⟨hno, hi⟩, fun q ha ↦ ?_⟩
  constructor
  · rintro ⟨r, x', he, hno', hi'⟩
    exact ⟨(completes_iff hst hi ha).mp ((returns_iff hr).mp ⟨r, x', he⟩),
      (intact_step hst hi ha he).mp hi',
      (noOverlap_step hst hno ha he).mp hno'⟩
  · rintro ⟨hb, hspares, hfits⟩
    obtain ⟨r, x', he⟩ := (returns_iff hr).mpr ((completes_iff hst hi ha).mpr hb)
    exact ⟨r, x', he, (noOverlap_step hst hno ha he).mpr hfits,
      (intact_step hst hi ha he).mpr hspares⟩

end

/-- The header of the second block lies on the last bytes of the first, and takes the place of
one stored there. -/
theorem not_sound : ¬ ∀ base h0 x, (system (.arena base h0)).Reach Asks x →
    Sound (.arena base h0) x := by
  intro hall
  obtain ⟨x, hr, hp⟩ := exists_of_calls anArena Asks
    [mallocEight, ⟨.store 4100 7 1, none⟩, mallocEight]
    (fun x ↦ x.live.any fun blk ↦ blk.size == 8 && blk.content 7 == some 1 &&
      readByte anArena x.state (getRegion blk.ptr) (sizeofInt + 7) = .ok 0) (by decide +kernel) (by
      intro q hq x
      simp only [List.mem_cons, List.not_mem_nil, or_false] at hq
      rcases hq with rfl | rfl | rfl
      · exact (by decide : 0 < (8 : Int32).toInt)
      · trivial
      · exact (by decide : 0 < (8 : Int32).toInt))
  rw [List.any_eq_true] at hp
  obtain ⟨blk, hv, hp⟩ := hp
  simp only [Bool.and_eq_true, beq_iff_eq, decide_eq_true_eq] at hp
  obtain ⟨⟨hsz, hc⟩, hread⟩ := hp
  have hbyte := ((hall 4096 (by decide) x hr).2 blk hv).2 7 1 (by rw [hsz]; decide) hc
  change readByte anArena _ _ _ = _ at hbyte
  rw [hbyte] at hread
  cases hread

/-- The first block of an arena is apart from all others, and intact. -/
theorem sound_iff_mallocEight : ∃ x : World, (x.block? 4100).isSome ∧ Sound anArena x := by
  let x₀ : World := ⟨.start anArena fun _ ↦ 0, []⟩
  have hc : passes (x₀.step anArena mallocEight) (fun y ↦ (y.2.block? 4100).isSome) = true := by
    decide +kernel
  obtain ⟨⟨r, x⟩, he, hp⟩ := passes_iff.mp hc
  have hb : Bounded anArena x₀ mallocEight := by
    intro _
    refine ⟨by decide, fun y hy hlt ↦ ⟨hy, ?_⟩⟩
    change y < 4096 + 4 at hlt
    change y < 4096 + 1024 * 1024 * 4
    omega
  have hr : (system anArena).Reach (fun x q ↦ Asks x q ∧ Bounded anArena x q ∧
      Spares anArena x q ∧ Fits anArena x q) x := by
    refine .next (s := x₀) (a := mallocEight) (.start ⟨rfl, _, rfl⟩) ?_ ⟨r, he⟩
    exact ⟨(by decide : 0 < (8 : Int32).toInt), hb,
      fun _ _ hv ↦ (List.not_mem_nil hv).elim, fun _ _ hv ↦ (List.not_mem_nil hv).elim⟩
  exact ⟨x, hp, (sound_iff hr).1⟩

end SqliteComposite.Mem

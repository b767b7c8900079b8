import SqliteComposite.Mem.Returning

/-!
# The count of outstanding memory

`composite_mem_app_data.outstanding_memory` counts `sz + sizeof(int)` bytes for each region
handed out, and only `_free_region` of the `malloc` build counts a region back. So the count
is that of the blocks given out until `cMemFree` is called on one, or `cMemRealloc` on one in
the arena build.
-/

namespace SqliteComposite.Mem

open Base

/-- The bytes counted for a block. -/
def Block.weight (blk : Block) : Int := blk.size.toInt + sizeofInt

/-- The bytes counted for all blocks. -/
def total (live : List Block) : Int := (live.map Block.weight).sum

/-- The counter, a 64-bit integer, has the total of the blocks given out, and is zero once
there are none. -/
def Accounted (x : World) : Prop :=
  x.state.appData.outstandingMemory = Int64.ofInt (total x.live) ∧
    (x.live = [] → x.state.appData.outstandingMemory = 0)

/-- The call gives back a block that it does not count back: it frees it, or replaces it in
the arena build. -/
def Leaks (b : Build) (x : World) (q : Request) (blk : Block) : Prop :=
  ∃ mem, x.block? mem = some blk ∧ (q.call = .xFree mem ∨
    b.IsArena ∧ ∃ newSize, q.call = .xRealloc mem newSize ∧ HasRoom b x.state newSize)

/-- The call gives back no block of some weight without counting it back. -/
def CountsBack (b : Build) (x : World) (q : Request) : Prop :=
  ∀ blk, Leaks b x q blk → blk.weight = 0

/-- The call stays in bounds and counts back what it gives back. -/
def KeepsAccount (b : Build) (x : World) (q : Request) : Prop :=
  Completes b x q ∧ CountsBack b x q

section

variable {b : Build} {x x' : World} {q : Request} {r : Reply} {s s' : State} {sz : Int32}
  {region : Int} {blk : Block} {l₁ l₂ : List Block}

/-- The counter grows by the weight of the region. -/
theorem regionSize_eq (sz : Int32) :
    (regionSize sz).toInt64 = Int64.ofInt (sz.toInt + sizeofInt) := by
  have h : (regionSize sz).toInt64 = sz.toInt64 + 4 := rfl
  have h4 : Int64.ofInt sizeofInt = 4 := rfl
  rw [h, Int64.ofInt_add, h4, ← Int32.toInt_toInt64, Int64.ofInt_toInt]

/-- The counter after a region is handed out. -/
theorem MallocTo.outstanding (h : MallocTo b s sz region s') (hpos : 0 < region) :
    s'.appData.outstandingMemory =
      s.appData.outstandingMemory + Int64.ofInt (sz.toInt + sizeofInt) := by
  cases h with
  | exhausted _ => exact absurd hpos (lt_irrefl _)
  | advanced _ _ => rw [← regionSize_eq]; rfl
  | granted _ _ _ => rw [← regionSize_eq]; rfl

/-- The total with one block taken out. -/
theorem total_split : total (l₁ ++ blk :: l₂) = blk.weight + total (l₁ ++ l₂) := by
  simp only [total, List.map_append, List.map_cons, List.sum_append, List.sum_cons]
  omega

/-- The total counts a block and the others. -/
theorem total_without {mem : Int} (h : x.block? mem = some blk) :
    total x.live = blk.weight + total (x.without mem) := by
  obtain ⟨_, l₁, l₂, hl, hw⟩ := World.block?_split h
  rw [hl, hw, total_split]

/-- What a block holds does not count. -/
theorem total_map {live : List Block} {f : Block → Block} (hf : ∀ blk, (f blk).size = blk.size) :
    total (live.map f) = total live := by
  rw [total, total, List.map_map]
  congr 1
  apply List.map_congr_left
  intro blk _
  rw [Function.comp_apply, Block.weight, Block.weight, hf]

/-- `cMemFree` leaves the counters alone. -/
theorem cMemFree_appData {mem : Int} (h : cMemFree s mem = .ok s') : s'.appData = s.appData := by
  rw [cMemFree_ok h]

/-- The second part of the account follows from the first. -/
theorem accounted_of_eq
    (h : x.state.appData.outstandingMemory = Int64.ofInt (total x.live)) : Accounted x := by
  refine ⟨h, fun hl ↦ ?_⟩
  rw [h, hl]
  rfl

/-- A weight is counted as zero only when it is. -/
theorem ofInt_weight : Int64.ofInt blk.weight = 0 ↔ blk.weight = 0 := by
  have hl := blk.size.le_toInt
  have hu := blk.size.toInt_lt
  have h4 : sizeofInt = 4 := rfl
  rw [← Int64.toInt_inj, Int64.toInt_zero]
  unfold Block.weight
  rw [Int64.toInt_ofInt_of_le (by omega) (by omega)]

/-- A counter that is off by the weight of a block is right when the block has none. -/
private theorem accounted_off
    (h : x.state.appData.outstandingMemory = Int64.ofInt (total x.live + blk.weight)) :
    Accounted x ↔ blk.weight = 0 := by
  rw [Int64.ofInt_add] at h
  constructor
  · rintro ⟨ha, _⟩
    rw [h, Int64.add_eq_left] at ha
    exact ofInt_weight.mp ha
  · intro hw
    apply accounted_of_eq
    have h0 : Int64.ofInt 0 = 0 := rfl
    rw [h, hw, h0, Int64.add_zero]

/-- A call gives back at most the block it is about. -/
private theorem countsBack_iff {mem : Int} (hblk : x.block? mem = some blk)
    (hc : q.call = .xFree mem ∨
      b.IsArena ∧ ∃ newSize, q.call = .xRealloc mem newSize ∧ HasRoom b x.state newSize) :
    CountsBack b x q ↔ blk.weight = 0 := by
  constructor
  · exact fun h ↦ h blk ⟨mem, hblk, hc⟩
  · rintro hw blk' ⟨mem', hblk', hc'⟩
    have hmem : mem' = mem := by
      rcases hc with hc | ⟨_, _, hc, _⟩ <;> rcases hc' with hc' | ⟨_, _, hc', _⟩ <;>
        rw [hc] at hc' <;> cases hc' <;> rfl
    rw [hmem, hblk] at hblk'
    cases hblk'
    exact hw

/-- A call that gives back no block has none to count back. -/
private theorem countsBack_of_none (hf : ∀ mem, q.call = .xFree mem → x.block? mem = none)
    (hr : ∀ mem newSize, q.call = .xRealloc mem newSize → x.block? mem = none ∨ ¬ b.IsArena ∨
      ¬ HasRoom b x.state newSize) : CountsBack b x q := by
  rintro blk ⟨mem, hblk, hc | ⟨harena, newSize, hc, hroom⟩⟩
  · rw [hf mem hc] at hblk
    cases hblk
  · rcases hr mem newSize hc with h | h | h
    · rw [h] at hblk
      cases hblk
    · exact absurd harena h
    · exact absurd hroom h

/-- What replacing a block does to the account. -/
private theorem accounted_realloced {newSize oldSz : Int32} {offer : Option Grant}
    {s₁ s₂ : State} (hi : Issued b x) (ha : x.state.appData.outstandingMemory =
      Int64.ofInt (total x.live)) (hblk : x.block? blk.ptr = some blk)
    (hto : MallocTo b x.state newSize region s₁) (hpos : 0 < region)
    (hc : copyPayload b region (getRegion blk.ptr) 0 oldSz.toInt64.toUInt64.toNat s₁ = .ok s₂)
    (hfree : freeRegion b s₂ (getRegion blk.ptr) = .ok s) :
    Accounted ⟨s, blk.movedTo (getMemory region) newSize s :: x.without blk.ptr⟩ ↔
      CountsBack b x ⟨.xRealloc blk.ptr newSize, offer⟩ := by
  obtain ⟨hsame, _⟩ := copyPayload_ok _ hc
  have hs₂ : s₂.appData = s₁.appData := by rw [hsame]
  have htotal : total (blk.movedTo (getMemory region) newSize s :: x.without blk.ptr) +
      blk.weight = newSize.toInt + sizeofInt + total x.live := by
    rw [total_without hblk]
    simp only [total, List.map_cons, List.sum_cons, Block.weight, Block.movedTo]
    omega
  have hcount := hto.outstanding hpos
  rw [ha, ← Int64.ofInt_add, Int.add_comm, ← htotal] at hcount
  cases b with
  | arena base h0 =>
    cases hfree
    have hback : CountsBack (.arena base h0) x ⟨.xRealloc blk.ptr newSize, offer⟩ ↔
        blk.weight = 0 :=
      countsBack_iff hblk (.inr ⟨trivial, newSize, rfl, hto.hasRoom.mpr hpos⟩)
    rw [hback]
    apply accounted_off
    exact (congrArg CompositeMemData.outstandingMemory hs₂).trans hcount
  | useMalloc =>
    have hb₂ := (Backed.malloc hi hto blk.content).copy hc
    rw [hb₂.freeRegion_eq (List.mem_cons_of_mem _ (World.mem_live hblk))] at hfree
    cases hfree
    apply iff_of_true
    · apply accounted_of_eq
      change s₂.appData.outstandingMemory - _ = _
      rw [hs₂, hcount, regionSize_eq, Int64.ofInt_add]
      exact Int64.add_sub_cancel _ _
    · exact countsBack_of_none (by rintro _ ⟨⟩) fun _ _ _ ↦ .inr (.inl id)

/-- What a call does to the account. -/
private theorem accounted_step (hi : Issued b x) (ha : Accounted x)
    (he : x.step b q = .ok (r, x')) : Accounted x' ↔ CountsBack b x q := by
  have hst := step_spec he
  obtain ⟨c, offer⟩ := q
  dsimp only at hst
  obtain ⟨ha, _⟩ := id ha
  cases hst with
  | notMade hstray =>
    apply iff_of_true (accounted_of_eq ha)
    apply countsBack_of_none
    · rintro mem rfl
      cases hstray with
      | xFree hnone => exact hnone
    · rintro mem newSize rfl
      cases hstray with
      | xRealloc hnone => exact .inl hnone
  | refused hc hto =>
    apply iff_of_true (accounted_of_eq ha)
    apply countsBack_of_none
    · rintro mem ⟨⟩
      rcases hc with hc | ⟨_, hc⟩ <;> cases hc
    · rintro mem newSize ⟨⟩
      rcases hc with hc | ⟨_, hc⟩ <;> cases hc
      exact .inr (.inr hto.no_room)
  | @malloced sz region s hto hpos =>
    apply iff_of_true
    · apply accounted_of_eq
      rw [hto.outstanding hpos, ha, ← Int64.ofInt_add]
      congr 1
      simp only [total, List.map_cons, List.sum_cons, Block.weight]
      omega
    · exact countsBack_of_none (by rintro _ ⟨⟩) (by rintro _ _ ⟨⟩)
  | realloced hblk _ hto hpos hc hfree =>
    obtain ⟨rfl, _⟩ := World.block?_split hblk
    exact accounted_realloced hi ha hblk hto hpos hc hfree
  | freedNull hnone =>
    apply iff_of_true (accounted_of_eq ha)
    apply countsBack_of_none
    · rintro _ ⟨⟩
      exact hnone
    · rintro _ _ ⟨⟩
  | @freed mem blk s hblk hfree =>
    have hback : CountsBack b x ⟨.xFree mem, offer⟩ ↔ blk.weight = 0 :=
      countsBack_iff hblk (.inl rfl)
    rw [hback]
    apply accounted_off
    change s.appData.outstandingMemory = Int64.ofInt (total (x.without mem) + blk.weight)
    rw [cMemFree_appData hfree, ha, total_without hblk, Int.add_comm]
  | stored _ _ hwrite =>
    obtain ⟨_, _, rfl⟩ := writeByte_ok hwrite
    apply iff_of_true
    · apply accounted_of_eq
      rw [total_map]
      · exact ha
      · intro blk
        split <;> rfl
    · exact countsBack_of_none (by rintro _ ⟨⟩) (by rintro _ _ ⟨⟩)

/-- In every run whose calls stay in bounds and give back no block without counting it back, the
counter is the total of the blocks given out, and the next call returns and leaves it so exactly
when it is one of these. -/
theorem accounted_iff (hr : (system b).Reach (KeepsAccount b) x) :
    Accounted x ∧ ∀ q,
      (∃ r x', x.step b q = .ok (r, x') ∧ Accounted x') ↔ KeepsAccount b x q := by
  have ha : Accounted x := by
    have hinv : Issued b x ∧ Accounted x := by
      apply hr.invariant (P := fun x ↦ Issued b x ∧ Accounted x)
      · intro x hinit
        refine ⟨reach_issued (.start hinit : (system b).Reach (KeepsAccount b) x), ?_⟩
        obtain ⟨hl, bytes, hs⟩ := hinit
        apply accounted_of_eq
        rw [hs, hl]
        rfl
      · rintro x q x' ⟨hi, ha⟩ ⟨_, hback⟩ ⟨r, he⟩
        exact ⟨issued_step hi he, (accounted_step hi ha he).mpr hback⟩
    exact hinv.2
  have hi := reach_issued hr
  refine ⟨ha, fun q ↦ ?_⟩
  constructor
  · rintro ⟨r, x', he, ha'⟩
    exact ⟨(returns_iff hr).mp ⟨r, x', he⟩, (accounted_step hi ha he).mp ha'⟩
  · rintro ⟨hc, hback⟩
    obtain ⟨r, x', he⟩ := (returns_iff hr).mpr hc
    exact ⟨r, x', he, (accounted_step hi ha he).mpr hback⟩

end

/-- Twelve bytes are still counted after the only block is freed. -/
theorem not_accounted : ¬ ∀ b x, (system b).Reach (fun _ _ ↦ True) x → Accounted x := by
  intro hall
  obtain ⟨x, hr, hp⟩ := exists_of_calls .useMalloc (fun _ _ ↦ True)
    [mallocEight, ⟨.xFree 8196, none⟩]
    (fun x ↦ x.live.isEmpty && x.state.appData.outstandingMemory = 12) (by decide +kernel)
    fun _ _ _ ↦ trivial
  simp only [Bool.and_eq_true, List.isEmpty_iff, decide_eq_true_eq] at hp
  have hz := (hall .useMalloc x hr).2 hp.1
  rw [hp.2] at hz
  exact absurd hz (by decide)

/-- Twelve bytes are counted for a block of eight. -/
theorem accounted_iff_mallocEight : ∃ x : World, x.state.appData.outstandingMemory = 12 ∧
    Accounted x := by
  let x₀ : World := ⟨.start .useMalloc fun _ ↦ 0, []⟩
  have hc : passes (x₀.step .useMalloc mallocEight)
      (fun y ↦ y.2.state.appData.outstandingMemory = 12) = true := by decide +kernel
  obtain ⟨⟨r, x⟩, he, hp⟩ := passes_iff.mp hc
  have hkeeps : KeepsAccount .useMalloc x₀ mallocEight := by
    refine ⟨⟨_, rfl, by decide, by decide⟩, ?_⟩
    rintro blk ⟨mem, _, hfree | ⟨⟨⟩, _⟩⟩
    cases hfree
  have hr : (system .useMalloc).Reach (KeepsAccount .useMalloc) x :=
    .next (s := x₀) (a := mallocEight) (.start ⟨rfl, _, rfl⟩) hkeeps ⟨r, he⟩
  exact ⟨x, of_decide_eq_true hp, (accounted_iff hr).1⟩

end SqliteComposite.Mem

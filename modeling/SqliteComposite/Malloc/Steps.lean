import SqliteComposite.Malloc.Client

/-!
# What a call of the interface does

Every call that returns leaves the allocator as it is or makes a call of it, and moves the
counters to match. A careful caller of the interface is one of the allocator.
-/

namespace SqliteComposite.Malloc

open Base Mem StatType

/-- The counters when a block is asked for. -/
def StatType.noted (s : StatType) (n : UInt64) : StatType :=
  s.sqlite3StatusHighwater sqliteStatusMallocSize (sizeOf n)

/-- The counters once a block is given out. -/
def StatType.gave (s : StatType) (size : Int32) : StatType :=
  (s.sqlite3StatusUp sqliteStatusMemoryUsed size).sqlite3StatusUp sqliteStatusMallocCount 1

/-- The counters once a block is taken back. -/
def StatType.took (s : StatType) (size : Int32) : StatType :=
  (s.sqlite3StatusDown sqliteStatusMemoryUsed size).sqlite3StatusDown sqliteStatusMallocCount 1

/-- What a call does to the allocator, the blocks and the counters. -/
inductive StepTo (b : Build) (x : Client) (q : Request) (x' : Client) : Prop
  | kept : x'.world = x.world → x'.heap.stat = x.heap.stat → requested x q = 0 →
      resetOp q = none → StepTo b x q x'
  | reset {op : Fin 10} : x'.world = x.world → x'.heap.stat = { x.heap.stat with
        mxValue := Function.update x.heap.stat.mxValue op (x.heap.stat.nowValue op) } →
      requested x q = 0 → resetOp q = some op → StepTo b x q x'
  | refused : Grantable q.call.bytes → x'.world = x.world →
      x'.heap.stat = x.heap.stat.noted q.call.bytes → requested x q = q.call.bytes.toNat →
      resetOp q = none → StepTo b x q x'
  | gained {w : World} {p : Int} {size : Int32} {zeros : Nat} : Grantable q.call.bytes →
      x.world.step b ⟨.xMalloc (sizeOf q.call.bytes), q.offer⟩ = .ok (.pointer p, w) → p ≠ 0 →
      zeros ≤ q.call.bytes.toNat →
      memset b (getRegion p) 0 0 zeros w.state = .ok x'.heap.mem →
      x'.live = ⟨p, sizeOf q.call.bytes, fun i ↦ if i < zeros then some 0 else none⟩ :: x.live →
      cMemSize b w.state p = .ok size →
      x'.heap.stat = (x.heap.stat.noted q.call.bytes).gave size →
      requested x q = q.call.bytes.toNat → resetOp q = none → StepTo b x q x'
  | moved {blk : Block} {offer : Option Grant} {p : Int} {size : Int32} :
      Grantable q.call.bytes → x.world.block? blk.ptr = some blk → p ≠ 0 →
      x.world.step b ⟨.xRealloc blk.ptr (sizeOf q.call.bytes), offer⟩ =
        .ok (.pointer p, x'.world) →
      cMemSize b x'.heap.mem p = .ok size →
      x'.heap.stat = (x.heap.stat.noted q.call.bytes).sqlite3StatusUp sqliteStatusMemoryUsed
        (size - blk.size) →
      requested x q = q.call.bytes.toNat → resetOp q = none → StepTo b x q x'
  | released {blk : Block} : x.world.block? blk.ptr = some blk →
      x.world.step b ⟨.xFree blk.ptr, none⟩ = .ok (.done, x'.world) →
      x'.heap.stat = x.heap.stat.took blk.size → requested x q = 0 → resetOp q = none →
      StepTo b x q x'
  | stored {blk : Block} {off : Nat} {c : UInt8} : q.call = .store blk.ptr off c →
      x.world.block? blk.ptr = some blk →
      x.world.step b ⟨.store blk.ptr off c, none⟩ = .ok (.done, x'.world) →
      x'.heap.stat = x.heap.stat → requested x q = 0 → resetOp q = none → StepTo b x q x'

section

variable {b : Build} {h h' : Subsystem} {x x' : Client} {q : Request} {r : Reply} {n : UInt64}
  {p pOld : Int} {offer retry : Option Grant}

variable {w : World} {s : State} {blk : Block} {others : List Block}

/-! ### The functions -/

/-- The size of a block that may be asked for. -/
theorem toInt_sizeOf (hn : Grantable n) : (sizeOf n).toInt = n.toNat ∧ 0 < n.toNat := by
  have hpos : n.toNat ≠ 0 := fun h0 ↦ hn.1 (UInt64.toNat_inj.mp h0)
  have hlt : n.toNat < 0x7fffff00 := UInt64.lt_iff_toNat_lt.mp hn.2
  refine ⟨?_, by omega⟩
  have hval : (sizeOf n).toInt = ((n.toNat % 2 ^ 32 : Nat) : Int).bmod (2 ^ 32) := by
    rw [sizeOf, UInt32.toInt32, Int32.toInt, Int32.toBitVec, BitVec.toInt_eq_toNat_bmod]
    simp
  rw [hval, Nat.mod_eq_of_lt (by omega)]
  exact Int.bmod_eq_of_le (by omega) (by omega)

/-- The two functions that allocate ask for the same. -/
theorem sqlite3MallocInt_eq (n : Int32) :
    sqlite3MallocInt b h n offer = sqlite3Malloc b h (countOf n) offer := by
  unfold sqlite3MallocInt countOf
  split
  · next hle =>
    have h0 : (if n < 0 then 0 else n) = 0 := by
      split
      · rfl
      · next hlt =>
        rw [Int32.le_iff_toInt_le] at hle
        rw [Int32.lt_iff_toInt_lt] at hlt
        exact Int32.toInt_inj.mp (by simp at *; omega)
    rw [h0]
    rfl
  · next hgt =>
    rw [if_neg]
    rw [Int32.le_iff_toInt_le] at hgt
    rw [Int32.lt_iff_toInt_lt]
    simp at *
    omega

/-- The alarm changes `mem0` alone. -/
theorem checkAlarm_frame (h : Subsystem) (nFull : Int32) :
    checkAlarm h nFull = { h with mem0 := (checkAlarm h nFull).mem0 } := by
  unfold checkAlarm sqlite3MallocAlarm
  dsimp only
  split
  · split <;> rfl
  · rfl

/-- What is asked of the allocator when a block is asked for. -/
theorem sqlite3Malloc_ok (hm : h.bMemstat = true)
    (he : sqlite3Malloc b h n offer = .ok (p, h')) :
    h'.bMemstat = true ∧ ((¬ Grantable n ∧ p = 0 ∧ h' = h) ∨ (Grantable n ∧
      cMemMalloc b h.mem (sizeOf n) offer = .ok (p, h'.mem) ∧
      ((p = 0 ∧ h'.stat = h.stat.noted n) ∨ (p ≠ 0 ∧ ∃ size,
        cMemSize b h'.mem p = .ok size ∧ h'.stat = (h.stat.noted n).gave size)))) := by
  unfold sqlite3Malloc at he
  split at he
  · next hn =>
    cases he
    refine ⟨hm, .inl ⟨?_, rfl, rfl⟩⟩
    rintro ⟨h0, hlt⟩
    rcases hn with rfl | hge
    · exact h0 rfl
    · exact absurd hlt (UInt64.not_lt.mpr hge)
  next hn =>
  have hg : Grantable n := by
    rw [not_or] at hn
    exact ⟨hn.1, UInt64.not_le.mp hn.2⟩
  obtain ⟨⟨nFull, p, h₁⟩, hw, he⟩ := bind_ok he
  cases he
  rw [mallocWithAlarm, checkAlarm_frame] at hw
  obtain ⟨⟨p, mem⟩, hmem, hw⟩ := bind_ok hw
  dsimp only at hmem hw
  by_cases hp : p ≠ 0
  · rw [if_pos hp] at hw
    obtain ⟨size, hsize, hw⟩ := bind_ok hw
    cases hw
    exact ⟨hm, .inr ⟨hg, hmem, .inr ⟨hp, _, hsize, rfl⟩⟩⟩
  · rw [if_neg hp] at hw
    cases hw
    exact ⟨hm, .inr ⟨hg, hmem, .inl ⟨not_not.mp hp, rfl⟩⟩⟩

/-- What is asked of the allocator when a block is freed. -/
theorem sqlite3Free_ok (hm : h.bMemstat = true) (hp : p ≠ 0)
    (he : sqlite3Free b h p = .ok h') : h'.bMemstat = true ∧ ∃ size,
      cMemSize b h.mem p = .ok size ∧ cMemFree h.mem p = .ok h'.mem ∧
      h'.stat = h.stat.took size := by
  rw [sqlite3Free, if_neg hp, if_pos hm] at he
  obtain ⟨size, hsize, he⟩ := bind_ok he
  obtain ⟨mem, hfree, he⟩ := bind_ok he
  cases he
  exact ⟨hm, size, hsize, hfree, rfl⟩

/-- What is asked of the allocator when a block gets another size. -/
theorem reallocWithAlarm_ok {nOld : Int32} (hm : h.bMemstat = true)
    (he : reallocWithAlarm b h pOld (sizeOf n) nOld (sizeOf n) offer retry = .ok (p, h')) :
    h'.bMemstat = true ∧ ((p = 0 ∧ h'.mem = h.mem ∧ h'.stat = h.stat.noted n) ∨
      (p ≠ 0 ∧ ∃ offer size, cMemRealloc b h.mem pOld (sizeOf n) offer = .ok (p, h'.mem) ∧
        cMemSize b h'.mem p = .ok size ∧ h'.stat =
          (h.stat.noted n).sqlite3StatusUp sqliteStatusMemoryUsed (size - nOld))) := by
  have halarm (h : Subsystem) (k : Int32) : sqlite3MallocAlarm h k = h := rfl
  simp only [reallocWithAlarm, halarm, ite_self] at he
  obtain ⟨⟨p₁, mem₁⟩, hmem, he⟩ := bind_ok he
  obtain ⟨⟨p₂, h₂⟩, hretry, he⟩ := bind_ok he
  dsimp only at hretry he
  have hspec : ∃ offer, cMemRealloc b h.mem pOld (sizeOf n) offer = .ok (p₂, h₂.mem) ∧
      h₂.stat = h.stat.noted n ∧ h₂.bMemstat = true := by
    split at hretry
    · next hp =>
      obtain ⟨⟨p, mem⟩, hagain, hretry⟩ := bind_ok hretry
      cases hretry
      obtain ⟨rfl, _⟩ := hp
      rw [cMemRealloc_null hmem] at hagain
      exact ⟨retry, hagain, rfl, hm⟩
    · cases hretry
      exact ⟨offer, hmem, rfl, hm⟩
  obtain ⟨offer, hcall, hstat, hm₂⟩ := hspec
  by_cases hp : p₂ ≠ 0
  · rw [if_pos hp] at he
    obtain ⟨size, hsize, he⟩ := bind_ok he
    cases he
    exact ⟨hm₂, .inr ⟨hp, offer, size, hcall, hsize, by rw [← hstat]⟩⟩
  · rw [if_neg hp] at he
    cases he
    obtain rfl := not_not.mp hp
    exact ⟨hm₂, .inl ⟨rfl, cMemRealloc_null hcall, hstat⟩⟩

/-! ### The calls -/

/-- The subsystem of a caller that was given a block. -/
@[simp] theorem gained_heap (content : Nat → Option UInt8) :
    (x.gained h p n content).heap = h := by
  unfold Client.gained
  split <;> rfl

/-- The other callers of one that was given a block. -/
@[simp] theorem gained_others (content : Nat → Option UInt8) :
    (x.gained h p n content).others = x.others := by
  unfold Client.gained
  split <;> rfl

/-- What a block that is asked for, and filled with some zeros, does. -/
theorem gained_spec {zeros : Nat} {mem : State} (hm : x.heap.bMemstat = true)
    (he : sqlite3Malloc b x.heap q.call.bytes q.offer = .ok (p, h))
    (hz : p ≠ 0 → zeros ≤ q.call.bytes.toNat ∧
      memset b (getRegion p) 0 0 zeros h.mem = .ok mem) (h0 : p = 0 → mem = h.mem)
    (hreq : requested x q = if Grantable q.call.bytes then q.call.bytes.toNat else 0)
    (hreset : resetOp q = none) : h.bMemstat = true ∧
      StepTo b x q (x.gained { h with mem := mem } p q.call.bytes fun i ↦
        if i < zeros then some 0 else none) := by
  obtain ⟨hm', ⟨hg, rfl, rfl⟩ | ⟨hg, hmem, ⟨rfl, hstat⟩ | ⟨hp, size, hsize, hstat⟩⟩⟩ :=
    sqlite3Malloc_ok hm he
  · rw [h0 rfl]
    exact ⟨hm', .kept rfl rfl (by rw [hreq, if_neg hg]) hreset⟩
  · rw [h0 rfl]
    refine ⟨hm', .refused hg ?_ hstat (by rw [hreq, if_pos hg]) hreset⟩
    exact congrArg (fun s ↦ World.mk s x.live) (cMemMalloc_null hmem)
  · obtain ⟨hle, hfill⟩ := hz hp
    refine ⟨hm', ?_⟩
    rw [Client.gained, if_neg hp]
    exact .gained hg (step_xMalloc hmem hp) hp hle hfill rfl hsize hstat
      (by rw [hreq, if_pos hg]) hreset

/-- What a block that is asked for does. -/
theorem malloc_spec (hm : x.heap.bMemstat = true)
    (he : sqlite3Malloc b x.heap q.call.bytes q.offer = .ok (p, h))
    (hreq : requested x q = if Grantable q.call.bytes then q.call.bytes.toNat else 0)
    (hreset : resetOp q = none) :
    (x.gained h p q.call.bytes fun _ ↦ none).heap.bMemstat = true ∧
      (x.gained h p q.call.bytes fun _ ↦ none).others = x.others ∧
        StepTo b x q (x.gained h p q.call.bytes fun _ ↦ none) := by
  have hgain := @gained_spec _ _ _ _ _ 0 h.mem hm he (fun _ ↦ ⟨by omega, rfl⟩)
    (fun _ ↦ rfl) hreq hreset
  simpa using hgain

/-- What freeing a block does. -/
theorem freed_spec {blk : Block} (hm : x.heap.bMemstat = true) (hs : Sized b x.world)
    (hblk : x.world.block? blk.ptr = some blk) (hp : blk.ptr ≠ 0)
    (he : sqlite3Free b x.heap blk.ptr = .ok h) (hreq : requested x q = 0)
    (hreset : resetOp q = none) : h.bMemstat = true ∧ x.others = x.others ∧
      StepTo b x q { x with heap := h, live := x.world.without blk.ptr } := by
  obtain ⟨hm', size, hsize, hfree, hstat⟩ := sqlite3Free_ok hm hp he
  have hsame : cMemSize b x.heap.mem blk.ptr = .ok blk.size := hs blk (World.mem_live hblk)
  rw [hsame] at hsize
  cases hsize
  exact ⟨hm', rfl, .released hblk (step_xFree hblk hfree) hstat hreq hreset⟩

/-- What reallocating does. -/
theorem realloc_spec (hm : x.heap.bMemstat = true)
    (hs : Shares b others x.world) (hcall : q.call.pOld = some pOld)
    (hreset : resetOp q = none)
    (he : x.stepRealloc pOld q.call.bytes
      (sqlite3Realloc b x.heap pOld q.call.bytes q.offer q.retry) = .ok (r, x')) :
    x'.heap.bMemstat = true ∧ x'.others = x.others ∧ StepTo b x q x' := by
  unfold Client.stepRealloc at he
  cases hblk : x.world.block? pOld with
  | none =>
    simp only [hblk] at he
    by_cases hp : pOld = 0
    · rw [if_pos hp, sqlite3Realloc, if_pos hp] at he
      obtain ⟨⟨p, h⟩, hm', he⟩ := bind_ok he
      cases he
      have hreq : requested x q = if Grantable q.call.bytes then q.call.bytes.toNat else 0 := by
        simp only [requested, hcall, hblk, if_pos hp]
      exact malloc_spec hm hm' hreq hreset
    · rw [if_neg hp] at he
      cases he
      exact ⟨hm, rfl, .kept rfl rfl (by simp [requested, hcall, hblk, hp]) hreset⟩
  | some blk =>
    obtain ⟨rfl, _⟩ := World.block?_split hblk
    have hmem := World.mem_live hblk
    have hp : blk.ptr ≠ 0 := hs.ptr_ne hmem
    have hsize : sqlite3MallocSize b x.heap blk.ptr = .ok blk.size := hs.sized blk hmem
    have hreq : requested x q = if Grantable q.call.bytes then
        if blk.size.toInt = q.call.bytes.toNat then 0 else q.call.bytes.toNat else 0 := by
      simp only [requested, hcall, hblk]
    simp only [hblk] at he
    obtain ⟨⟨p, h⟩, hrun, he⟩ := bind_ok he
    dsimp only at he
    rw [sqlite3Realloc, if_neg hp] at hrun
    by_cases hn0 : q.call.bytes = 0
    · rw [if_pos hn0] at hrun he
      obtain ⟨h₁, hfree, hrun⟩ := bind_ok hrun
      cases hrun
      cases he
      have hng : ¬ Grantable q.call.bytes := fun hg ↦ hg.1 hn0
      exact freed_spec hm hs.sized hblk hp hfree (by rw [hreq, if_neg hng]) hreset
    rw [if_neg hn0] at hrun he
    by_cases hbig : q.call.bytes ≥ 0x7fffff00
    · rw [if_pos hbig] at hrun
      cases hrun
      rw [if_pos (.inl rfl)] at he
      cases he
      have hng : ¬ Grantable q.call.bytes := fun hg ↦ absurd hg.2 (UInt64.not_lt.mpr hbig)
      exact ⟨hm, rfl, .kept rfl rfl (by rw [hreq, if_neg hng]) hreset⟩
    have hg : Grantable q.call.bytes := ⟨hn0, UInt64.not_le.mp hbig⟩
    rw [if_neg hbig, hsize, ok_bind] at hrun
    by_cases hsame : blk.size = sizeOf q.call.bytes
    · have hround : blk.size = cMemRoundup q.call.bytes.toUInt32.toInt32 := hsame
      simp only [if_pos hround] at hrun
      cases hrun
      rw [if_pos (.inr rfl)] at he
      cases he
      have hval : blk.size.toInt = q.call.bytes.toNat := by rw [hsame, (toInt_sizeOf hg).1]
      exact ⟨hm, rfl, .kept rfl rfl (by rw [hreq, if_pos hg, if_pos hval]) hreset⟩
    have hround : ¬ blk.size = cMemRoundup q.call.bytes.toUInt32.toInt32 := hsame
    have hval : ¬ blk.size.toInt = q.call.bytes.toNat := by
      rw [← (toInt_sizeOf hg).1, Int32.toInt_inj]
      exact hsame
    have hreq : requested x q = q.call.bytes.toNat := by rw [hreq, if_pos hg, if_neg hval]
    simp only [if_neg hround, if_pos hm] at hrun
    obtain ⟨hm', ⟨rfl, hmem', hstat⟩ | ⟨hp', offer, size, hcall', hsize', hstat⟩⟩ :=
      reallocWithAlarm_ok hm hrun
    · rw [if_pos (.inl rfl)] at he
      cases he
      exact ⟨hm', rfl, .refused hg (congrArg (fun s ↦ World.mk s x.live) hmem') hstat hreq hreset⟩
    · have hne : p ≠ blk.ptr := by
        obtain ⟨_, _, _, _, _, hto, ⟨_, h0, _⟩ | ⟨hpos, rfl, _⟩⟩ := cMemRealloc_ok hcall'
        · exact absurd h0 hp'
        · exact hs.fresh (List.mem_append_left _ hmem) hto hpos
      rw [if_neg (not_or.mpr ⟨hp', hne⟩)] at he
      cases he
      exact ⟨hm', rfl, .moved hg hblk hp' (step_xRealloc hblk hcall' hp') hsize' hstat hreq hreset⟩

/-- What each call does. -/
theorem step_spec (hm : x.heap.bMemstat = true)
    (hs : Shares b others x.world) (he : x.step b q = .ok (r, x')) :
    x'.heap.bMemstat = true ∧ x'.others = x.others ∧ StepTo b x q x' := by
  obtain ⟨c, offer, retry⟩ := q
  cases c with
  | malloc n =>
    obtain ⟨⟨p, h⟩, hrun, he⟩ := bind_ok he
    cases he
    rw [sqlite3MallocInt_eq] at hrun
    exact malloc_spec (q := ⟨.malloc n, offer, retry⟩) hm hrun rfl rfl
  | malloc64 n =>
    obtain ⟨⟨p, h⟩, hrun, he⟩ := bind_ok he
    cases he
    exact malloc_spec (q := ⟨.malloc64 n, offer, retry⟩) hm hrun rfl rfl
  | mallocZero n =>
    obtain ⟨⟨p, h⟩, hrun, he⟩ := bind_ok he
    cases he
    obtain ⟨⟨p₁, h₁⟩, hmalloc, hrun⟩ := bind_ok hrun
    dsimp only at hrun
    by_cases hp : p₁ ≠ 0
    · rw [if_pos hp] at hrun
      obtain ⟨mem, hfill, hrun⟩ := bind_ok hrun
      cases hrun
      have hgain := @gained_spec _ _ _ ⟨.mallocZero n, offer, retry⟩ _ n.toNat _ hm
        hmalloc (fun _ ↦ ⟨le_rfl, hfill⟩) (fun h0 ↦ absurd h0 hp) rfl rfl
      exact ⟨by rw [gained_heap]; exact hgain.1, gained_others _, hgain.2⟩
    · rw [if_neg hp] at hrun
      cases hrun
      have hgain := @gained_spec _ _ _ ⟨.mallocZero n, offer, retry⟩ _ 0 h.mem hm
        hmalloc (fun _ ↦ ⟨by omega, rfl⟩) (fun _ ↦ rfl) rfl rfl
      simp only [Client.gained, if_pos (not_not.mp hp)] at hgain ⊢
      exact ⟨hgain.1, trivial, hgain.2⟩
  | realloc pOld n => exact realloc_spec (q := ⟨.realloc pOld n, offer, retry⟩) hm hs rfl rfl he
  | realloc64 pOld n =>
    exact realloc_spec (q := ⟨.realloc64 pOld n, offer, retry⟩) hm hs rfl rfl he
  | free p =>
    simp only [Client.step] at he
    split at he
    · next hmade =>
      obtain ⟨h, hfree, he⟩ := bind_ok he
      cases he
      cases hblk : x.world.block? p with
      | none =>
        obtain rfl : p = 0 := hmade.resolve_right (by simp [hblk])
        cases hfree
        refine ⟨hm, rfl, .kept ?_ rfl rfl rfl⟩
        exact congrArg (World.mk x.heap.mem) (x.world.without_none hblk)
      | some blk =>
        obtain ⟨rfl, _⟩ := World.block?_split hblk
        exact freed_spec hm hs.sized hblk (hs.ptr_ne (World.mem_live hblk)) hfree
          rfl rfl
    · cases he
      exact ⟨hm, rfl, .kept rfl rfl rfl rfl⟩
  | msize p =>
    simp only [Client.step] at he
    split at he
    · obtain ⟨n, _, he⟩ := bind_ok he
      cases he
      exact ⟨hm, rfl, .kept rfl rfl rfl rfl⟩
    · cases he
      exact ⟨hm, rfl, .kept rfl rfl rfl rfl⟩
  | status64 op resetFlag =>
    simp only [Client.step, sqlite3Status64] at he
    by_cases hop : 0 ≤ op.toInt ∧ op.toInt < 10
    · cases resetFlag with
      | false =>
        simp only [dif_pos hop] at he
        cases he
        exact ⟨hm, rfl, .kept rfl rfl rfl rfl⟩
      | true =>
        simp only [dif_pos hop] at he
        cases he
        exact ⟨hm, rfl, .reset rfl rfl rfl (by simp only [resetOp, dif_pos hop])⟩
    · simp only [dif_neg hop] at he
      cases he
      refine ⟨hm, rfl, .kept rfl rfl rfl ?_⟩
      cases resetFlag <;> simp only [resetOp, dif_neg hop]
  | softHeapLimit64 n =>
    simp only [Client.step, sqlite3SoftHeapLimit64] at he
    by_cases hn : n < 0
    · simp only [if_pos hn] at he
      cases he
      exact ⟨hm, rfl, .kept rfl rfl rfl rfl⟩
    · simp only [if_neg hn] at he
      cases he
      exact ⟨hm, rfl, .kept rfl rfl rfl rfl⟩
  | store p off c =>
    simp only [Client.step] at he
    cases hblk : x.world.block? p with
    | none =>
      simp only [hblk] at he
      cases he
      exact ⟨hm, rfl, .kept rfl rfl rfl rfl⟩
    | some blk =>
      simp only [hblk] at he
      by_cases hlt : (off : Int) < blk.size.toInt
      · rw [if_pos hlt] at he
        obtain ⟨mem, hw, he⟩ := bind_ok he
        cases he
        obtain ⟨rfl, _⟩ := World.block?_split hblk
        exact ⟨hm, rfl, .stored rfl hblk (step_store hblk hlt hw) rfl rfl rfl⟩
      · rw [if_neg hlt] at he
        cases he
        exact ⟨hm, rfl, .kept rfl rfl rfl rfl⟩

/-! ### Runs of the allocator -/

/-- A block with bytes `i` and on, `n` of them, filled. -/
def filled (c : UInt8) (i n : Nat) (blk : Block) : Block :=
  { blk with content := fun j ↦ if i ≤ j ∧ j < i + n then some c else blk.content j }

/-- Filling a block byte by byte. -/
theorem filled_succ (c : UInt8) (i n : Nat) (blk : Block) :
    filled c (i + 1) n (blk.wrote i c) = filled c i (n + 1) blk := by
  simp only [filled, Block.wrote, Block.mk.injEq, true_and]
  funext j
  by_cases hj : j = i
  · rw [if_neg (by omega), if_pos hj, if_pos (by omega)]
  · rw [if_neg hj]
    exact if_congr (by omega) rfl rfl

/-- The block at a pointer when the blocks keep theirs. -/
theorem block?_map {f : Block → Block} (hf : ∀ v, (f v).ptr = v.ptr)
    (hblk : w.block? p = some blk) :
    (World.mk s (w.live.map f)).block? p = some (f blk) := by
  rw [World.block?, List.find?_map]
  have hsame : ((fun v : Block ↦ decide (v.ptr = p)) ∘ f) = fun v ↦ decide (v.ptr = p) := by
    funext v
    rw [Function.comp_apply, hf]
  rw [hsame]
  exact congrArg (Option.map f) hblk

/-- Filling a part of a block away from the headers is a run of stores. -/
theorem memset_shares {c : UInt8} (n : Nat) : ∀ {i : Nat} {w : World} {blk : Block},
    Shares b others w → w.block? blk.ptr = some blk →
    memset b (getRegion blk.ptr) c i n w.state = .ok s → ((i + n : Nat) : Int) ≤ blk.size.toInt →
    (b.IsArena → ∀ v ∈ w.live ++ others, ∀ j : Nat,
      ¬ (getRegion v.ptr ≤ blk.ptr + j ∧ blk.ptr + j < v.ptr)) →
    Shares b others ⟨s, w.live.map fun v ↦ if v.ptr = blk.ptr then filled c i n v else v⟩ := by
  induction n with
  | zero =>
    intro i w blk hr _ he _ _
    cases he
    have hid : (fun v : Block ↦ if v.ptr = blk.ptr then filled c i 0 v else v) = id := by
      funext v
      have hv : filled c i 0 v = v := by
        simp only [filled]
        congr 1
        funext j
        exact if_neg (by omega)
      rw [hv, ite_self, id]
    rw [hid, List.map_id]
    exact hr
  | succ n ih =>
    intro i w blk hr hblk he hle haway
    obtain ⟨s₁, hw, he⟩ := bind_ok he
    have hstep : w.step b ⟨.store blk.ptr i c, none⟩ = .ok (.done,
        ⟨s₁, w.live.map fun v ↦ if v.ptr = blk.ptr then v.wrote i c else v⟩) :=
      step_store hblk (by omega) hw
    have hcare : Mem.Careful b (w.beside others) ⟨.store blk.ptr i c, none⟩ := by
      refine ⟨?_, ?_, ?_⟩
      · rintro sz (h | ⟨_, h, _⟩) <;> cases h
      · rintro _ sz (h | ⟨_, h, _⟩) <;> cases h
      · rintro ha _ _ _ ⟨⟩ _ v hv
        exact haway ha v hv i
    have hframe (v : Block) : (if v.ptr = blk.ptr then v.wrote i c else v).ptr = v.ptr :=
      (wrote_frame blk.ptr i c v).1
    have hblk' := block?_map (s := s₁) hframe hblk
    rw [if_pos rfl] at hblk'
    have hrun := @ih _ _ (blk.wrote i c) (hr.step hcare hstep) hblk' he
      (by have hsz : (blk.wrote i c).size = blk.size := rfl; rw [hsz]; omega) (by
        intro ha v hv j
        rcases List.mem_append.mp hv with hv | hv
        · obtain ⟨u, hu, rfl⟩ := List.mem_map.mp hv
          rw [hframe]
          exact haway ha u (List.mem_append_left _ hu) j
        · exact haway ha v (List.mem_append_right _ hv) j)
    have hmap : (w.live.map fun v ↦ if v.ptr = blk.ptr then v.wrote i c else v).map
        (fun v ↦ if v.ptr = (blk.wrote i c).ptr then filled c (i + 1) n v else v) =
        w.live.map fun v ↦ if v.ptr = blk.ptr then filled c i (n + 1) v else v := by
      rw [List.map_map]
      apply List.map_congr_left
      intro v _
      have hptr : (blk.wrote i c).ptr = blk.ptr := rfl
      rw [Function.comp_apply, hframe, hptr]
      by_cases hv : v.ptr = blk.ptr
      · rw [if_pos hv, if_pos hv, if_pos hv, filled_succ]
      · rw [if_neg hv, if_neg hv, if_neg hv]
    rw [hmap] at hrun
    exact hrun

/-- A block that is asked for carefully is asked for carefully of the allocator. -/
theorem gained_shares {r : Mem.Reply} (hc : CarefulCall b x q) (hg : Grantable q.call.bytes)
    (hs : Shares b x.others x.world)
    (hstep : x.world.step b ⟨.xMalloc (sizeOf q.call.bytes), offer⟩ = .ok (r, w)) :
    Shares b x.others w := by
  obtain ⟨hval, hpos⟩ := toInt_sizeOf hg
  refine hs.step ⟨?_, ?_, ?_⟩ hstep
  · rintro sz (h | ⟨_, h, _⟩) <;> cases h
    omega
  · rintro ha sz (h | ⟨_, h, _⟩) <;> cases h
    rw [hval]
    exact_mod_cast hc.bytes ha hg.1
  · rintro _ _ _ _ ⟨⟩

/-- A careful call is a few careful calls of the allocator. -/
theorem StepTo.shares (hst : StepTo b x q x') (hc : CarefulCall b x q)
    (hs : Shares b x.others x.world) : Shares b x.others x'.world := by
  cases hst with
  | kept hw _ _ _ => exact hw ▸ hs
  | reset hw _ _ _ => exact hw ▸ hs
  | refused _ hw _ _ _ => exact hw ▸ hs
  | @gained w p size zeros hg hstep hp hle hfill hlive _ _ _ _ =>
    obtain ⟨hval, hpos⟩ := toInt_sizeOf hg
    have hs' := gained_shares hc hg hs hstep
    cases Mem.step_spec hstep with
    | refused _ _ => exact absurd rfl hp
    | @malloced _ region s hto hreg =>
      have hnodup := hs'.nodup
      rw [List.cons_append, List.map_cons, List.nodup_cons] at hnodup
      have hblk : World.block? ⟨s, ⟨getMemory region, sizeOf q.call.bytes, fun _ ↦ none⟩ ::
          x.world.live⟩ (getMemory region) =
          some ⟨getMemory region, sizeOf q.call.bytes, fun _ ↦ none⟩ := by
        rw [World.block?, List.find?_cons_of_pos (by simp)]
      have hrun := @memset_shares _ _ _ _ zeros _ _
        ⟨getMemory region, sizeOf q.call.bytes, fun _ ↦ none⟩ hs' hblk hfill
        (by dsimp only; omega) (by
          intro ha v hv j hj
          cases b with
          | useMalloc => exact ha
          | arena base h0 =>
            obtain ⟨rfl, _⟩ := hto.arena_eq hreg
            dsimp only at hj
            rcases List.mem_cons.mp hv with rfl | hv
            · dsimp only at hj
              omega
            · obtain ⟨live, hp, hr⟩ := hs
              have hlt := (reach_headed hr).header_lt (hp.mem_iff.mpr hv)
              dsimp only at hlt
              unfold getMemory at hj
              unfold getRegion at hlt hj
              omega)
      have hlive' : x'.world = ⟨x'.heap.mem, (⟨getMemory region, sizeOf q.call.bytes, fun _ ↦
          none⟩ :: x.world.live).map fun v ↦ if v.ptr = getMemory region then
            filled 0 0 zeros v else v⟩ := by
        refine congrArg (World.mk x'.heap.mem) (hlive.trans ?_)
        rw [List.map_cons, if_pos rfl]
        congr 1
        · simp [filled]
        · refine (List.map_id _).symm.trans (List.map_congr_left fun v hv ↦ ?_)
          have hne : v.ptr ≠ getMemory region := by
            intro he
            exact hnodup.1 (List.mem_map.mpr ⟨v, List.mem_append_left _ hv, he⟩)
          rw [if_neg hne, id]
      rw [hlive']
      exact hrun
  | @moved blk offer p size hg hblk _ hstep _ _ _ _ =>
    refine hs.step ⟨?_, ?_, ?_⟩ hstep
    · rintro sz (h | ⟨_, h, _⟩) <;> cases h
      obtain ⟨hval, hpos⟩ := toInt_sizeOf hg
      omega
    · rintro ha sz (h | ⟨_, h, _⟩) <;> cases h
      rw [(toInt_sizeOf hg).1]
      exact_mod_cast hc.bytes ha hg.1
    · rintro _ _ _ _ ⟨⟩
  | released _ hstep _ _ _ =>
    refine hs.step ⟨?_, ?_, ?_⟩ hstep
    · rintro sz (h | ⟨_, h, _⟩) <;> cases h
    · rintro _ sz (h | ⟨_, h, _⟩) <;> cases h
    · rintro _ _ _ _ ⟨⟩
  | stored hcall hblk hstep _ _ _ =>
    refine hs.step ⟨?_, ?_, ?_⟩ hstep
    · rintro sz (h | ⟨_, h, _⟩) <;> cases h
    · rintro _ sz (h | ⟨_, h, _⟩) <;> cases h
    · rintro ha _ _ _ ⟨⟩ _ v hv
      exact hc.store ha _ _ _ hcall (by rw [hblk]; rfl) v hv

/-- What a call of another caller leaves as it was. -/
theorem shares_interrupted {q : Mem.Request} {r : Mem.Reply}
    (hs : Shares b x.others x.world)
    (hc : Mem.Careful b (x.othersWorld.beside x.live) q)
    (he : x.othersWorld.step b q = .ok (r, w)) :
    Shares b (x.interrupted w).others (x.interrupted w).world := by
  have hswap := hs.swap.step hc he
  exact hswap.swap

/-- In every run of careful calls the blocks of all callers are those of a run of careful calls
of the allocator. -/
theorem reach_shares {marks : Fin 10 → Int64} (hr : (system b marks).Reach (Careful b) x) :
    x.heap.bMemstat = true ∧ Shares b x.others x.world := by
  apply hr.invariant (P := fun x ↦ x.heap.bMemstat = true ∧ Shares b x.others x.world)
  · rintro x ⟨hl, ho, bytes, hh⟩
    refine ⟨by rw [hh]; rfl, [], ?_, .start ⟨rfl, bytes, ?_⟩⟩
    · rw [ho, Client.world, hl, List.append_nil]
    · rw [Client.world, hh]
      rfl
  · rintro x e x' ⟨hm, hs⟩ hc hnext
    cases hnext with
    | call he =>
      obtain ⟨hm', ho, hst⟩ := step_spec hm hs he
      exact ⟨hm', ho ▸ hst.shares hc hs⟩
    | other he => exact ⟨hm, shares_interrupted hs hc he⟩

end
end SqliteComposite.Malloc

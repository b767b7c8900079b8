import SqliteComposite.Malloc.Usage
import SqliteComposite.Mem.Accounting

/-!
# Two accounts of the same memory

The allocator counts `outstanding_memory`, and SQLite counts `SQLITE_STATUS_MEMORY_USED` above
it. The first counts a header with each block, counts the blocks of the VFS too, and does not
count back the blocks that are freed, nor in the arena build those that are replaced; the two
differ by just these.
-/

namespace SqliteComposite.Malloc

open Base Mem StatType

/-- The blocks that are no longer there after a call. -/
def gone (live live' : List Block) : List Block :=
  live.filter fun v ↦ v.ptr ∉ live'.map Block.ptr

/-- The bytes that a call takes back and the allocator does not count back: those of a block that
is gone, unless in the `malloc` build another has taken its place. -/
def lostBy (b : Build) (live live' : List Block) : Int :=
  match b with
  | .useMalloc => if live'.length < live.length then total (gone live live') else 0
  | .arena _ _ => total (gone live live')

/-- The interface with the bytes lost so far from the blocks of all callers. -/
def drifting (b : Build) (marks : Fin 10 → Int64) : System (Client × Int) Event :=
  (system b marks).withPast 0 fun x _ x' lost ↦
    lost + lostBy b x.live x'.live + lostBy b x.others x'.others

/-- The bytes outstanding, headers included, when some more are counted with the blocks. -/
def CountedWith (x : World) (more : Int) : Prop :=
  x.state.appData.outstandingMemory = Int64.ofInt (total x.live + more)

/-- The bytes outstanding once the blocks of the others and the bytes lost are counted too. -/
def Drifted (x : Client) (lost : Int) : Prop := CountedWith x.world (total x.others + lost)

section

variable {b : Build} {w w' : World} {x x' : Client} {q : Request} {s s' : State}
  {live live' others : List Block} {blk : Block} {more lost : Int}

/-- Filling a block changes the bytes of memory alone. -/
theorem memset_ok {region : Int} {c : UInt8} (n : Nat) : ∀ {i : Nat} {s : State},
    memset b region c i n s = .ok s' → s' = { s with bytes := s'.bytes } := by
  induction n with
  | zero =>
    intro i s h
    cases h
    rfl
  | succ n ih =>
    intro i s h
    obtain ⟨s₁, hw, h⟩ := bind_ok h
    obtain ⟨_, _, rfl⟩ := writeByte_ok hw
    have he := ih h
    exact he

/-! ### What is lost -/

/-- No block is gone when all have their pointers still. -/
theorem gone_none (h : ∀ v ∈ live, v.ptr ∈ live'.map Block.ptr) : gone live live' = [] := by
  rw [gone, List.filter_eq_nil_iff]
  intro v hv
  simpa using h v hv

/-- A block that is taken out is gone, and no other. -/
theorem gone_one {l₁ l₂ : List Block} (hl : live = l₁ ++ blk :: l₂)
    (hin : ∀ v ∈ l₁ ++ l₂, v ∈ live') (hout : blk.ptr ∉ live'.map Block.ptr) :
    gone live live' = [blk] := by
  have hkept (l : List Block) (hsub : ∀ v ∈ l, v ∈ live') :
      l.filter (fun v ↦ v.ptr ∉ live'.map Block.ptr) = [] := by
    rw [List.filter_eq_nil_iff]
    intro v hv
    simpa using ⟨v, hsub v hv, rfl⟩
  rw [gone, hl, List.filter_append, List.filter_cons_of_pos (by simpa using hout),
    hkept l₁ fun v hv ↦ hin v (List.mem_append_left _ hv),
    hkept l₂ fun v hv ↦ hin v (List.mem_append_right _ hv), List.nil_append]

/-- Nothing is lost when nothing is gone. -/
theorem lostBy_none (h : ∀ v ∈ live, v.ptr ∈ live'.map Block.ptr) : lostBy b live live' = 0 := by
  unfold lostBy
  rw [gone_none h]
  cases b with
  | useMalloc => exact ite_self 0
  | arena _ _ => rfl

/-- Nothing is lost when the blocks stay. -/
@[simp] theorem lostBy_self : lostBy b live live = 0 :=
  lostBy_none fun _ hv ↦ List.mem_map_of_mem hv

/-- What is lost with one block. -/
theorem total_one (blk : Block) : total [blk] = blk.weight := by
  simp [total]

/-! ### Calls of the allocator -/

/-- The account after a block is replaced. -/
theorem countedWith_realloced {region : Int} {newSize : Int32} {oldSz : Int32} {s₁ s₂ : State}
    (hs : Shares b others w) (hd : CountedWith w more) (hblk : w.block? blk.ptr = some blk)
    (hto : MallocTo b w.state newSize region s₁) (hpos : 0 < region)
    (hcopy : copyPayload b region (getRegion blk.ptr) 0 oldSz.toInt64.toUInt64.toNat s₁ = .ok s₂)
    (hfree : freeRegion b s₂ (getRegion blk.ptr) = .ok s)
    (hlive : live = blk.movedTo (getMemory region) newSize s :: w.without blk.ptr) :
    CountedWith ⟨s, live⟩ (more + lostBy b w.live live) := by
  obtain ⟨_, l₁, l₂, hl, hw⟩ := World.block?_split hblk
  have hmem := World.mem_live hblk
  obtain ⟨hsame, _⟩ := copyPayload_ok _ hcopy
  have happ : s₂.appData = s₁.appData := by rw [hsame]
  rw [hw] at hlive
  have htotal : total live = newSize.toInt + sizeofInt - blk.weight + total w.live := by
    rw [hlive, hl, total_split]
    simp only [total, List.map_cons, List.sum_cons, Block.weight, Block.movedTo]
    omega
  have hcount := hto.outstanding hpos
  rw [hd, ← Int64.ofInt_add] at hcount
  cases b with
  | arena base h0 =>
    cases hfree
    have hgone : gone w.live live = [blk] := by
      apply gone_one hl
      · intro v hv
        rw [hlive]
        exact List.mem_cons_of_mem _ hv
      · have hnodup := hs.nodup.sublist
          ((List.sublist_append_left w.live others).map Block.ptr)
        have hne := hs.fresh (List.mem_append_left _ hmem) hto hpos
        rw [hl, List.map_append, List.map_cons, List.nodup_middle, List.nodup_cons] at hnodup
        rw [hlive, List.map_cons, List.mem_cons, not_or, List.map_append]
        exact ⟨hne.symm, hnodup.1⟩
    have hlost : lostBy (.arena base h0) w.live live = blk.weight := by
      rw [lostBy, hgone, total_one]
    rw [CountedWith, happ, hcount, hlost]
    congr 1
    dsimp only
    omega
  | useMalloc =>
    obtain ⟨u, hr, hstate, hin, _⟩ := hs.whole
    have hi : Backed u.state u.live := reach_issued hr
    have hold : blk ∈ u.live := (hin blk).mpr (List.mem_append_left _ hmem)
    rw [← hstate] at hto
    have hb₂ := (Backed.malloc hi hto blk.content).copy hcopy
    rw [hb₂.freeRegion_eq (List.mem_cons_of_mem _ hold)] at hfree
    cases hfree
    have hlength : live.length = w.live.length := by
      rw [hlive, hl]
      simp only [List.length_cons, List.length_append]
      omega
    rw [CountedWith]
    dsimp only
    rw [happ, hcount, regionSize_eq, ← Int64.ofInt_sub, lostBy, if_neg (by omega)]
    congr 1
    simp only [Block.weight] at htotal
    omega

/-- The account after a block is taken back. -/
theorem countedWith_freed (hs : Shares b others w) (hd : CountedWith w more)
    (hblk : w.block? blk.ptr = some blk) (hfree : cMemFree w.state blk.ptr = .ok s) :
    CountedWith ⟨s, w.without blk.ptr⟩ (more + lostBy b w.live (w.without blk.ptr)) := by
  obtain ⟨_, l₁, l₂, hl, hw⟩ := World.block?_split hblk
  have hgone : gone w.live (l₁ ++ l₂) = [blk] := by
    apply gone_one hl fun v hv ↦ hv
    have hnodup := hs.nodup.sublist ((List.sublist_append_left w.live others).map Block.ptr)
    rw [hl, List.map_append, List.map_cons, List.nodup_middle, List.nodup_cons] at hnodup
    rw [List.map_append]
    exact hnodup.1
  have hlost : lostBy b w.live (l₁ ++ l₂) = blk.weight := by
    unfold lostBy
    cases b with
    | useMalloc =>
      have hlength : (l₁ ++ l₂).length < w.live.length := by
        rw [hl]
        simp only [List.length_cons, List.length_append]
        omega
      dsimp only
      rw [if_pos hlength, hgone, total_one]
    | arena _ _ =>
      dsimp only
      rw [hgone, total_one]
  rw [CountedWith, hw, hlost, cMemFree_appData hfree, hd, hl, total_split]
  congr 1
  dsimp only
  omega

/-- Every call of the allocator keeps the account. -/
theorem countedWith_step {q : Mem.Request} {r : Mem.Reply} (hs : Shares b others w)
    (hd : CountedWith w more) (he : w.step b q = .ok (r, w')) :
    CountedWith w' (more + lostBy b w.live w'.live) := by
  have hst := Mem.step_spec he
  obtain ⟨c, offer⟩ := q
  dsimp only at hst
  cases hst with
  | notMade _ | refused _ _ | freedNull _ =>
    rw [lostBy_self, add_zero]
    exact hd
  | malloced hto hpos =>
    have hkept (v : Block) (hv : v ∈ w.live) (new : Block) :
        v.ptr ∈ (new :: w.live).map Block.ptr := List.mem_map_of_mem (List.mem_cons_of_mem _ hv)
    rw [CountedWith, lostBy_none fun v hv ↦ hkept v hv _, hto.outstanding hpos, hd,
      ← Int64.ofInt_add]
    congr 1
    simp only [total, List.map_cons, List.sum_cons, Block.weight]
    omega
  | realloced hblk _ hto hpos hcopy hfree =>
    obtain ⟨rfl, _⟩ := World.block?_split hblk
    exact countedWith_realloced hs hd hblk hto hpos hcopy hfree rfl
  | freed hblk hfree =>
    obtain ⟨rfl, _⟩ := World.block?_split hblk
    exact countedWith_freed hs hd hblk hfree
  | @stored mem off c _ _ _ _ hwrite =>
    obtain ⟨_, _, rfl⟩ := writeByte_ok hwrite
    have hkept (v : Block) (hv : v ∈ w.live) :
        v.ptr ∈ (w.live.map fun v ↦ if v.ptr = mem then v.wrote off c else v).map
          Block.ptr := by
      rw [List.map_map, List.mem_map]
      exact ⟨v, hv, (wrote_frame mem off c v).1⟩
    rw [CountedWith, lostBy_none hkept, add_zero, total_map fun v ↦ (wrote_frame mem off c v).2]
    exact hd

/-! ### Calls of the interface -/

/-- Every call of the interface keeps the account. -/
theorem drifted_step (hst : StepTo b x q x') (ho : x'.others = x.others)
    (hs : Shares b x.others x.world) (hd : Drifted x lost) :
    Drifted x' (lost + lostBy b x.live x'.live + lostBy b x.others x'.others) := by
  have hsum : total x.others + (lost + lostBy b x.live x'.live) =
      total x.others + lost + lostBy b x.live x'.live := by omega
  rw [ho, lostBy_self, add_zero, Drifted, ho, hsum]
  have hsame (hw : x'.world = x.world) :
      CountedWith x'.world (total x.others + lost + lostBy b x.live x'.live) := by
    have hlive : x'.live = x.live := congrArg World.live hw
    rw [hw, hlive, lostBy_self, add_zero]
    exact hd
  cases hst with
  | kept hw _ _ _ => exact hsame hw
  | reset hw _ _ _ => exact hsame hw
  | refused _ hw _ _ _ => exact hsame hw
  | gained _ hstep hp _ hfill hlive _ _ _ _ =>
    have hcounted := countedWith_step hs hd hstep
    cases Mem.step_spec hstep with
    | refused _ _ => exact absurd rfl hp
    | malloced _ _ =>
      rw [CountedWith] at hcounted ⊢
      rw [Client.world, memset_ok _ hfill]
      dsimp only
      rw [hcounted, lostBy_none fun v hv ↦ List.mem_map_of_mem (List.mem_cons_of_mem _ hv),
        lostBy_none fun v hv ↦ by
          rw [hlive]
          exact List.mem_map_of_mem (List.mem_cons_of_mem _ hv), hlive]
      rfl
  | moved _ _ _ hstep _ _ _ _ => exact countedWith_step hs hd hstep
  | released _ hstep _ _ _ => exact countedWith_step hs hd hstep
  | stored _ _ hstep _ _ _ => exact countedWith_step hs hd hstep

/-- A call of another caller keeps the account. -/
theorem drifted_interrupted {q : Mem.Request} {r : Mem.Reply}
    (hs : Shares b x.others x.world) (hd : Drifted x lost)
    (he : x.othersWorld.step b q = .ok (r, w)) : Drifted (x.interrupted w)
      (lost + lostBy b x.live (x.interrupted w).live +
        lostBy b x.others (x.interrupted w).others) := by
  have hothers : CountedWith x.othersWorld (total x.live + lost) := by
    have hsum : total x.others + (total x.live + lost) =
        total x.live + (total x.others + lost) := by omega
    rw [CountedWith, Client.othersWorld]
    dsimp only
    rw [hsum]
    exact hd
  have hcounted := countedWith_step hs.swap hothers he
  have hlive : (x.interrupted w).live = x.live := rfl
  rw [Drifted, hlive, lostBy_self, add_zero, CountedWith]
  refine Eq.trans hcounted (congrArg Int64.ofInt ?_)
  change total w.live + (total x.live + lost + lostBy b x.others w.live) =
    total x.live + (total w.live + (lost + lostBy b x.others w.live))
  omega

/-- The account is kept in every run. -/
theorem reach_drifted {marks : Fin 10 → Int64} {y : Client × Int}
    (hr : (drifting b marks).Reach (fun y e ↦ Careful b y.1 e ∧ Fits y.1 e) y) :
    Drifted y.1 y.2 := by
  have hd : (y.1.heap.bMemstat = true ∧ Shares b y.1.others y.1.world) ∧ Drifted y.1 y.2 := by
    apply hr.invariant (P := fun y ↦ (y.1.heap.bMemstat = true ∧
      Shares b y.1.others y.1.world) ∧ Drifted y.1 y.2)
    · rintro ⟨x, lost⟩ ⟨hinit, rfl⟩
      refine ⟨reach_shares (b := b) (.start hinit), ?_⟩
      obtain ⟨hl, ho, bytes, hh⟩ := hinit
      rw [Drifted, Client.world, ho, hl, hh]
      rfl
    · rintro ⟨x, lost⟩ e ⟨x', lost'⟩ ⟨⟨hb, hs⟩, hd⟩ ⟨hc, _⟩ ⟨hnext, hlost⟩
      dsimp only at hlost
      rw [hlost]
      cases hnext with
      | call he =>
        obtain ⟨hb', ho, hst⟩ := step_spec hb hs he
        exact ⟨⟨hb', ho ▸ hst.shares hc hs⟩, drifted_step hst ho hs hd⟩
      | other he =>
        exact ⟨⟨hb, shares_interrupted hs hc he⟩, drifted_interrupted hs hd he⟩
  exact hd.2

/-- The total of the blocks is their sizes and a header each. -/
theorem total_eq_used (live : List Block) : total live = used live + 4 * live.length := by
  unfold total used
  induction live with
  | nil => rfl
  | cons blk live ih =>
    have h4 : (sizeofInt : Int) = 4 := rfl
    simp only [List.map_cons, List.sum_cons, List.length_cons, Block.weight] at ih ⊢
    push_cast
    omega

/-- In every run of careful callers, the allocator counts as outstanding what SQLite counts as
used, a header for each block SQLite counts, the blocks of the other callers, and the bytes that
were lost. -/
theorem outstanding_run {marks : Fin 10 → Int64} (hmarks : ∀ op, 0 ≤ marks op)
    {y : Client × Int}
    (hr : (drifting b marks).Reach (fun y e ↦ Careful b y.1 e ∧ Fits y.1 e) y) :
    y.1.heap.mem.appData.outstandingMemory =
      y.1.heap.stat.nowValue sqliteStatusMemoryUsed +
        4 * y.1.heap.stat.nowValue sqliteStatusMallocCount +
          Int64.ofInt (total y.1.others + y.2) := by
  have hd : y.1.heap.mem.appData.outstandingMemory =
      Int64.ofInt (total y.1.live + (total y.1.others + y.2)) := reach_drifted hr
  have hplain : (system b marks).Reach (fun x e ↦ Careful b x e ∧ Fits x e) y.1 :=
    System.Reach.forget hr
  obtain ⟨past, hmeter⟩ := hplain.record (fun op ↦ [(marks op).toInt, 0]) noteNext
  have hm : Metered y.1 past := (reach_metered (b := b) hmarks hmeter).2
  have hused : y.1.heap.stat.nowValue sqliteStatusMemoryUsed = Int64.ofInt (used y.1.live) := by
    rw [← Int64.ofInt_toInt (y.1.heap.stat.nowValue sqliteStatusMemoryUsed)]
    exact congrArg Int64.ofInt (hm sqliteStatusMemoryUsed).1
  have hcount : y.1.heap.stat.nowValue sqliteStatusMallocCount =
      Int64.ofInt y.1.live.length := by
    rw [← Int64.ofInt_toInt (y.1.heap.stat.nowValue sqliteStatusMallocCount)]
    exact congrArg Int64.ofInt (hm sqliteStatusMallocCount).1
  have h4 : (4 : Int64) = Int64.ofInt 4 := rfl
  rw [hd, hused, hcount, total_eq_used, h4, ← Int64.ofInt_mul, ← Int64.ofInt_add,
    ← Int64.ofInt_add]

end

/-- The block that `fs_init` asks for. -/
def fsInitBlock : Mem.Request := ⟨.xMalloc 48, some ⟨4096, fun _ ↦ 1⟩⟩

/-- The eight bytes are freed again. -/
def freeEight : Request := ⟨.free 8196, none, none⟩

/-- After the only block of SQLite is freed, its twelve bytes are outstanding still, with the
fifty-two of `fs_init`. -/
theorem outstanding_run_freed : ∃ y : Client × Int,
    y.1.live = [] ∧ total y.1.others = 52 ∧ y.2 = 12 ∧
      y.1.heap.mem.appData.outstandingMemory =
        y.1.heap.stat.nowValue sqliteStatusMemoryUsed +
          4 * y.1.heap.stat.nowValue sqliteStatusMallocCount +
            Int64.ofInt (total y.1.others + y.2) := by
  have hsteps : passes (do
      let (_, w) ← (Client.fresh .useMalloc).othersWorld.step .useMalloc fsInitBlock
      let (_, x) ← ((Client.fresh .useMalloc).interrupted w).step .useMalloc mallocZeroEight
      let (_, x') ← x.step .useMalloc freeEight
      .ok (w, x, x')) (fun z ↦ used z.2.1.live = 8 ∧ z.2.2.live.isEmpty ∧
        total z.2.2.others = 52 ∧
        0 + lostBy .useMalloc [] [] + lostBy .useMalloc [] z.1.live +
          lostBy .useMalloc [] z.2.1.live + lostBy .useMalloc z.1.live z.2.1.others +
          lostBy .useMalloc z.2.1.live z.2.2.live +
          lostBy .useMalloc z.2.1.others z.2.2.others = 12) = true := by decide +kernel
  obtain ⟨⟨w, x, x'⟩, he, hp⟩ := passes_iff.mp hsteps
  obtain ⟨⟨r₀, w⟩, hfirst, he⟩ := bind_ok he
  obtain ⟨⟨r, x⟩, hsecond, he⟩ := bind_ok he
  obtain ⟨⟨r', x'⟩, hthird, he⟩ := bind_ok he
  cases he
  simp only [Bool.decide_and, Bool.and_eq_true, decide_eq_true_eq, List.isEmpty_iff] at hp
  obtain ⟨hused, hlive, hothers, hlost⟩ := hp
  have hcare₀ : Careful .useMalloc (Client.fresh .useMalloc) (.other fsInitBlock) := by
    refine ⟨?_, fun h ↦ h.elim, fun h ↦ h.elim⟩
    rintro sz (h | ⟨_, h, _⟩) <;> cases h
    decide
  have hcare (x : Client) (q : Request) : Careful .useMalloc x (.call q) :=
    ⟨fun h ↦ h.elim, fun h ↦ h.elim⟩
  have hfits : Fits ((Client.fresh .useMalloc).interrupted w) (.call mallocZeroEight) := by
    change FitsCall _ _
    unfold FitsCall
    change used [] + _ < _
    decide
  have hfits' : Fits x (.call freeEight) := by
    change FitsCall _ _
    unfold FitsCall
    rw [hused]
    decide
  have hstart : (drifting .useMalloc fun _ ↦ 0).Reach
      (fun y e ↦ Careful .useMalloc y.1 e ∧ Fits y.1 e) (Client.fresh .useMalloc, 0) :=
    .start ⟨⟨rfl, rfl, _, rfl⟩, rfl⟩
  have hrun₁ : (drifting .useMalloc fun _ ↦ 0).Reach
      (fun y e ↦ Careful .useMalloc y.1 e ∧ Fits y.1 e)
      ((Client.fresh .useMalloc).interrupted w,
        0 + lostBy .useMalloc [] [] + lostBy .useMalloc [] w.live) :=
    .next (a := .other fsInitBlock) hstart ⟨hcare₀, trivial⟩ ⟨.other hfirst, rfl⟩
  have hrun₂ : (drifting .useMalloc fun _ ↦ 0).Reach
      (fun y e ↦ Careful .useMalloc y.1 e ∧ Fits y.1 e)
      (x, 0 + lostBy .useMalloc [] [] + lostBy .useMalloc [] w.live +
        lostBy .useMalloc [] x.live + lostBy .useMalloc w.live x.others) :=
    .next (a := .call mallocZeroEight) hrun₁ ⟨hcare _ _, hfits⟩ ⟨.call hsecond, rfl⟩
  have hrun : (drifting .useMalloc fun _ ↦ 0).Reach
      (fun y e ↦ Careful .useMalloc y.1 e ∧ Fits y.1 e)
      (x', 0 + lostBy .useMalloc [] [] + lostBy .useMalloc [] w.live +
        lostBy .useMalloc [] x.live + lostBy .useMalloc w.live x.others +
        lostBy .useMalloc x.live x'.live + lostBy .useMalloc x.others x'.others) :=
    .next (a := .call freeEight) hrun₂ ⟨hcare _ _, hfits'⟩ ⟨.call hthird, rfl⟩
  exact ⟨_, hlive, hothers, hlost, outstanding_run (fun _ ↦ by decide) hrun⟩

end SqliteComposite.Malloc

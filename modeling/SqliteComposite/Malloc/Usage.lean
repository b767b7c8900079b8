import SqliteComposite.Base.CInt
import SqliteComposite.Base.Gauge
import SqliteComposite.Malloc.Steps

/-!
# What the status counters count

`SQLITE_STATUS_MEMORY_USED` is the total size of the blocks given out, and
`SQLITE_STATUS_MALLOC_COUNT` their number. The mark of every counter is the largest value on
record since it was last reset.
-/

namespace SqliteComposite.Malloc

open Base Mem StatType

/-- A counter as a gauge of integers. -/
def StatType.gauge (s : StatType) (op : Fin 10) : Gauge Int :=
  ⟨(s.nowValue op).toInt, (s.mxValue op).toInt⟩

/-- The total size of the blocks. -/
def used (live : List Block) : Int := (live.map fun blk ↦ blk.size.toInt).sum

/-- What a counter counts. The others than these two are not used for blocks. -/
def level (x : Client) (op : Fin 10) : Int :=
  if op = sqliteStatusMemoryUsed then used x.live
  else if op = sqliteStatusMallocCount then x.live.length
  else 0

/-- What a call puts on the record of a counter: the number of bytes it asks for, or what the
counter counts after it. -/
def reading (x : Client) (q : Request) (x' : Client) (op : Fin 10) : Int :=
  if op = sqliteStatusMallocSize then requested x q else level x' op

/-- The records of the counters after a call. -/
def notePast (x : Client) (q : Request) (x' : Client) (past : Fin 10 → List Int) :
    Fin 10 → List Int := fun op ↦
  if resetOp q = some op then [level x' op] else reading x q x' op :: past op

/-- The records of the counters after what happens. A call of another caller is not on them. -/
def noteNext (x : Client) (e : Event) (x' : Client) (past : Fin 10 → List Int) :
    Fin 10 → List Int :=
  match e with
  | .call q => notePast x q x' past
  | .other _ => past

/-- The interface with the records of the counters since their marks were last reset: at the
start, the mark that is found and zero. -/
def metered (b : Build) (marks : Fin 10 → Int64) : System (Client × (Fin 10 → List Int)) Event :=
  (system b marks).withPast (fun op ↦ [(marks op).toInt, 0]) noteNext

/-- The blocks and the bytes asked for do not come to `2 ^ 63`. -/
def FitsCall (x : Client) (q : Request) : Prop := used x.live + q.call.bytes.toNat < 2 ^ 63

/-- The calls of the interface fit. -/
def Fits (x : Client) : Event → Prop
  | .call q => FitsCall x q
  | .other _ => True

section

variable {b : Build} {x x' : Client} {q : Request} {s : StatType} {op : Fin 10} {n : UInt64}
  {past : Fin 10 → List Int}

/-! ### The counters as gauges -/

/-- A counter that is raised moves. -/
theorem gauge_up {n : Int32} (hl : -2 ^ 63 ≤ (s.gauge op).now + n.toInt)
    (hu : (s.gauge op).now + n.toInt < 2 ^ 63) : (s.sqlite3StatusUp op n).gauge =
      Function.update s.gauge op ((s.gauge op).move n.toInt) := by
  have hsum : (s.nowValue op + n.toInt64).toInt = (s.gauge op).now + n.toInt := by
    rw [toInt_add64] <;> rw [Int32.toInt_toInt64] <;> first | rfl | assumption
  funext op'
  by_cases he : op' = op
  · subst he
    rw [Function.update_self]
    unfold sqlite3StatusUp
    simp only [Function.update_self]
    split
    · next hgt =>
      rw [gt_iff_lt, Int64.lt_iff_toInt_lt, hsum] at hgt
      ext
      · simp [StatType.gauge, Gauge.move, hsum]
      · simp [StatType.gauge, Gauge.move, hsum]
        exact hgt.le
    · next hle =>
      rw [gt_iff_lt, Int64.lt_iff_toInt_lt, hsum, not_lt] at hle
      ext
      · simp [StatType.gauge, Gauge.move, hsum]
      · simp [StatType.gauge, Gauge.move]
        exact hle
  · rw [Function.update_of_ne he]
    unfold sqlite3StatusUp
    dsimp only
    split <;> simp [StatType.gauge, Function.update_of_ne he]

/-- A counter that is lowered drops. -/
theorem gauge_down {n : Int32} (hl : -2 ^ 63 ≤ (s.gauge op).now - n.toInt)
    (hu : (s.gauge op).now - n.toInt < 2 ^ 63) : (s.sqlite3StatusDown op n).gauge =
      Function.update s.gauge op ((s.gauge op).drop n.toInt) := by
  have hdiff : (s.nowValue op - n.toInt64).toInt = (s.gauge op).now - n.toInt := by
    rw [toInt_sub64] <;> rw [Int32.toInt_toInt64] <;> first | rfl | assumption
  funext op'
  by_cases he : op' = op
  · subst he
    rw [Function.update_self]
    ext
    · simp [StatType.gauge, Gauge.drop, sqlite3StatusDown, hdiff]
    · rfl
  · rw [Function.update_of_ne he]
    simp [StatType.gauge, sqlite3StatusDown, Function.update_of_ne he]

/-- A mark that is raised is noted. -/
theorem gauge_highwater {n : Int32} : (s.sqlite3StatusHighwater op n).gauge =
    Function.update s.gauge op ((s.gauge op).note n.toInt) := by
  funext op'
  unfold sqlite3StatusHighwater
  by_cases he : op' = op
  · subst he
    rw [Function.update_self]
    split
    · next hgt =>
      rw [gt_iff_lt, Int64.lt_iff_toInt_lt, Int32.toInt_toInt64] at hgt
      ext
      · rfl
      · simp [StatType.gauge, Gauge.note]
        exact hgt.le
    · next hle =>
      rw [gt_iff_lt, Int64.lt_iff_toInt_lt, Int32.toInt_toInt64, not_lt] at hle
      ext
      · rfl
      · simp [StatType.gauge, Gauge.note]
        exact hle
  · rw [Function.update_of_ne he]
    split <;> simp [StatType.gauge, Function.update_of_ne he]

/-- A mark that is reset. -/
theorem gauge_reset : StatType.gauge { s with
    mxValue := Function.update s.mxValue op (s.nowValue op) } =
      Function.update s.gauge op (s.gauge op).reset := by
  funext op'
  by_cases he : op' = op
  · subst he
    simp [StatType.gauge, Gauge.reset]
  · simp [StatType.gauge, Function.update_of_ne he]

/-- The counters once a block is given out, as gauges. -/
theorem gauge_gave {size : Int32}
    (hl : -2 ^ 63 ≤ (s.gauge sqliteStatusMemoryUsed).now + size.toInt)
    (hu : (s.gauge sqliteStatusMemoryUsed).now + size.toInt < 2 ^ 63)
    (hl' : -2 ^ 63 ≤ (s.gauge sqliteStatusMallocCount).now + 1)
    (hu' : (s.gauge sqliteStatusMallocCount).now + 1 < 2 ^ 63) : (s.gave size).gauge =
      Function.update (Function.update s.gauge sqliteStatusMemoryUsed
        ((s.gauge sqliteStatusMemoryUsed).move size.toInt)) sqliteStatusMallocCount
        ((s.gauge sqliteStatusMallocCount).move 1) := by
  have hne : sqliteStatusMallocCount ≠ sqliteStatusMemoryUsed := by decide
  have h1 : (1 : Int32).toInt = 1 := rfl
  have hfirst := gauge_up hl hu
  have hcount : (s.sqlite3StatusUp sqliteStatusMemoryUsed size).gauge sqliteStatusMallocCount =
      s.gauge sqliteStatusMallocCount := by
    rw [hfirst, Function.update_of_ne hne]
  rw [StatType.gave, gauge_up (by rw [hcount, h1]; exact hl') (by rw [hcount, h1]; exact hu'),
    hcount, hfirst, h1]

/-- The counters once a block is taken back, as gauges. -/
theorem gauge_took {size : Int32}
    (hl : -2 ^ 63 ≤ (s.gauge sqliteStatusMemoryUsed).now - size.toInt)
    (hu : (s.gauge sqliteStatusMemoryUsed).now - size.toInt < 2 ^ 63)
    (hl' : -2 ^ 63 ≤ (s.gauge sqliteStatusMallocCount).now - 1)
    (hu' : (s.gauge sqliteStatusMallocCount).now - 1 < 2 ^ 63) : (s.took size).gauge =
      Function.update (Function.update s.gauge sqliteStatusMemoryUsed
        ((s.gauge sqliteStatusMemoryUsed).drop size.toInt)) sqliteStatusMallocCount
        ((s.gauge sqliteStatusMallocCount).drop 1) := by
  have hne : sqliteStatusMallocCount ≠ sqliteStatusMemoryUsed := by decide
  have h1 : (1 : Int32).toInt = 1 := rfl
  have hfirst := gauge_down hl hu
  have hcount : (s.sqlite3StatusDown sqliteStatusMemoryUsed size).gauge
      sqliteStatusMallocCount = s.gauge sqliteStatusMallocCount := by
    rw [hfirst, Function.update_of_ne hne]
  rw [StatType.took, gauge_down (by rw [hcount, h1]; exact hl') (by rw [hcount, h1]; exact hu'),
    hcount, hfirst, h1]

/-- Noting a request leaves the other counters. -/
theorem gauge_noted_ne (h5 : op ≠ sqliteStatusMallocSize) :
    (s.noted n).gauge op = s.gauge op := by
  rw [StatType.noted, gauge_highwater, Function.update_of_ne h5]

/-! ### Totals -/

/-- Every counter counts what it is for, and has what it has counted on record. -/
def Metered (x : Client) (past : Fin 10 → List Int) : Prop :=
  ∀ op, (x.heap.stat.gauge op).now = level x op ∧ (x.heap.stat.gauge op).Records (past op)

/-- The total size with one block taken out. -/
theorem used_split {l₁ l₂ : List Block} {blk : Block} :
    used (l₁ ++ blk :: l₂) = blk.size.toInt + used (l₁ ++ l₂) := by
  simp only [used, List.map_append, List.map_cons, List.sum_append, List.sum_cons]
  omega

/-- There are no more blocks than bytes. -/
theorem length_le_used {live : List Block} (hpos : ∀ blk ∈ live, 0 < blk.size.toInt) :
    (live.length : Int) ≤ used live := by
  induction live with
  | nil => exact le_rfl
  | cons blk live ih =>
    have hhead := hpos blk List.mem_cons_self
    have htail := ih fun v hv ↦ hpos v (List.mem_cons_of_mem _ hv)
    simp only [used, List.map_cons, List.sum_cons, List.length_cons] at *
    push_cast
    omega

/-- Storing in a block changes neither the number of the blocks nor their sizes. -/
theorem used_map {f : Block → Block} (hf : ∀ v, (f v).size = v.size) (live : List Block) :
    used (live.map f) = used live := by
  unfold used
  rw [List.map_map]
  congr 1
  exact List.map_congr_left fun v _ ↦ by rw [Function.comp_apply, hf]

/-- The two counters for blocks depend on the blocks alone. -/
theorem level_congr (hu : used x'.live = used x.live) (hl : x'.live.length = x.live.length)
    (op : Fin 10) : level x' op = level x op := by
  unfold level
  rw [hu, hl]

/-- What is used and how many there are make up the level. -/
theorem level_ne (h0 : op ≠ sqliteStatusMemoryUsed) (h9 : op ≠ sqliteStatusMallocCount) :
    level x op = 0 := by
  unfold level
  rw [if_neg h0, if_neg h9]

/-! ### One call -/

/-- A counter that is left alone has its value on record once more. -/
theorem metered_stay (hm : Metered x past) (hg : x'.heap.stat.gauge op = x.heap.stat.gauge op)
    (hl : level x' op = level x op) (hr : op = sqliteStatusMallocSize → requested x q = 0) :
    (x'.heap.stat.gauge op).now = level x' op ∧
      (x'.heap.stat.gauge op).Records (reading x q x' op :: past op) := by
  obtain ⟨hnow, hrec⟩ := hm op
  have hread : reading x q x' op = (x.heap.stat.gauge op).now := by
    unfold reading
    split
    · next h5 =>
      rw [hr h5, hnow, h5]
      rfl
    · rw [hl, hnow]
  rw [hg, hl, hread]
  exact ⟨hnow, hrec.stay⟩

/-- A call that resets no mark puts a value on every record. -/
theorem metered_next (hreset : resetOp q = none) (h : ∀ op,
    (x'.heap.stat.gauge op).now = level x' op ∧
      (x'.heap.stat.gauge op).Records (reading x q x' op :: past op)) :
    Metered x' (notePast x q x' past) := by
  intro op
  rw [notePast, hreset, if_neg (by simp)]
  exact h op

/-- The mark for request sizes is raised to what is asked for. -/
theorem metered_noted (hm : Metered x past) (hg : Grantable n)
    (hreq : requested x q = n.toNat) (h : (x'.heap.stat.gauge sqliteStatusMallocSize) =
      ((x.heap.stat.noted n).gauge sqliteStatusMallocSize)) :
    (x'.heap.stat.gauge sqliteStatusMallocSize).now = level x' sqliteStatusMallocSize ∧
      (x'.heap.stat.gauge sqliteStatusMallocSize).Records
        (reading x q x' sqliteStatusMallocSize :: past sqliteStatusMallocSize) := by
  obtain ⟨hnow, hrec⟩ := hm sqliteStatusMallocSize
  have hread : reading x q x' sqliteStatusMallocSize = (sizeOf n).toInt := by
    rw [reading, if_pos rfl, hreq, (toInt_sizeOf hg).1]
  rw [h, StatType.noted, gauge_highwater, Function.update_self, hread]
  exact ⟨hnow, hrec.note _⟩

/-- The size of a block that was just given out is read back. -/
theorem gained_size {w : World} {p : Int} {size : Int32} (hc : CarefulCall b x q)
    (hg : Grantable q.call.bytes) (hs : Shares b x.others x.world)
    (hstep : x.world.step b ⟨.xMalloc (sizeOf q.call.bytes), q.offer⟩ = .ok (.pointer p, w))
    (hp : p ≠ 0) (hsize : cMemSize b w.state p = .ok size) : size = sizeOf q.call.bytes := by
  have hs := (gained_shares hc hg hs hstep).sized
  cases Mem.step_spec hstep with
  | refused _ _ => exact absurd rfl hp
  | malloced _ _ =>
    have hread := (hs _ List.mem_cons_self).symm.trans hsize
    cases hread
    rfl

/-- A counter for blocks once one is given out. -/
theorem metered_gained {w : World} {p : Int} {size : Int32} {content : Nat → Option UInt8}
    (hm : Metered x past) (hc : CarefulCall b x q) (hf : FitsCall x q) (hg : Grantable q.call.bytes)
    (hs : Shares b x.others x.world)
    (hstep : x.world.step b ⟨.xMalloc (sizeOf q.call.bytes), q.offer⟩ = .ok (.pointer p, w))
    (hp : p ≠ 0) (hsize : cMemSize b w.state p = .ok size)
    (hlive : x'.live = ⟨p, sizeOf q.call.bytes, content⟩ :: x.live)
    (hstat : x'.heap.stat = (x.heap.stat.noted q.call.bytes).gave size)
    (hreq : requested x q = q.call.bytes.toNat) (op : Fin 10) :
    (x'.heap.stat.gauge op).now = level x' op ∧
      (x'.heap.stat.gauge op).Records (reading x q x' op :: past op) := by
  obtain rfl := gained_size hc hg hs hstep hp hsize
  obtain ⟨hval, hpos⟩ := toInt_sizeOf hg
  have hlen := @length_le_used x.live fun blk hv ↦ hs.size_pos hv
  obtain ⟨hnow₀, hrec₀⟩ := hm sqliteStatusMemoryUsed
  obtain ⟨hnow₉, hrec₉⟩ := hm sqliteStatusMallocCount
  have hlevel₀ : level x sqliteStatusMemoryUsed = used x.live := rfl
  have hlevel₉ : level x sqliteStatusMallocCount = x.live.length := rfl
  have hused : used x'.live = used x.live + q.call.bytes.toNat := by
    rw [hlive, used, List.map_cons, List.sum_cons, hval, used]
    omega
  have hlength : x'.live.length = x.live.length + 1 := by rw [hlive, List.length_cons]
  unfold FitsCall at hf
  have hgauge := @gauge_gave (x.heap.stat.noted q.call.bytes) (sizeOf q.call.bytes)
    (by rw [gauge_noted_ne (by decide)]; omega) (by rw [gauge_noted_ne (by decide)]; omega)
    (by rw [gauge_noted_ne (by decide)]; omega) (by rw [gauge_noted_ne (by decide)]; omega)
  rw [← hstat] at hgauge
  by_cases h5 : op = sqliteStatusMallocSize
  · subst h5
    apply metered_noted hm hg hreq
    rw [hgauge, Function.update_of_ne (by decide), Function.update_of_ne (by decide)]
  by_cases h9 : op = sqliteStatusMallocCount
  · subst h9
    have hread : reading x q x' sqliteStatusMallocCount =
        (x.heap.stat.gauge sqliteStatusMallocCount).now + 1 := by
      rw [hnow₉, hlevel₉]
      change (x'.live.length : Int) = _
      rw [hlength]
      push_cast
      rfl
    rw [hgauge, Function.update_self, gauge_noted_ne h5, hread]
    refine ⟨?_, hrec₉.move 1⟩
    exact hread.symm
  by_cases h0 : op = sqliteStatusMemoryUsed
  · subst h0
    have hread : reading x q x' sqliteStatusMemoryUsed =
        (x.heap.stat.gauge sqliteStatusMemoryUsed).now + (sizeOf q.call.bytes).toInt := by
      rw [hnow₀, hlevel₀, hval]
      exact hused
    rw [hgauge, Function.update_of_ne h9, Function.update_self, gauge_noted_ne h5, hread]
    exact ⟨hread.symm, hrec₀.move _⟩
  · apply metered_stay hm
    · rw [hgauge, Function.update_of_ne h9, Function.update_of_ne h0, gauge_noted_ne h5]
    · rw [level_ne h0 h9, level_ne h0 h9]
    · exact fun h ↦ absurd h h5

/-- A counter for blocks once one has another size. -/
theorem metered_moved {blk : Block} {offer : Option Grant} {p : Int} {size : Int32}
    (hm : Metered x past) (hf : FitsCall x q) (hg : Grantable q.call.bytes)
    (hs : Shares b x.others x.world)
    (hs' : Shares b x.others x'.world)
    (hblk : x.world.block? blk.ptr = some blk) (hp : p ≠ 0)
    (hstep : x.world.step b ⟨.xRealloc blk.ptr (sizeOf q.call.bytes), offer⟩ =
      .ok (.pointer p, x'.world))
    (hsize : cMemSize b x'.heap.mem p = .ok size)
    (hstat : x'.heap.stat = (x.heap.stat.noted q.call.bytes).sqlite3StatusUp
      sqliteStatusMemoryUsed (size - blk.size))
    (hreq : requested x q = q.call.bytes.toNat) (op : Fin 10) :
    (x'.heap.stat.gauge op).now = level x' op ∧
      (x'.heap.stat.gauge op).Records (reading x q x' op :: past op) := by
  obtain ⟨hval, hpos⟩ := toInt_sizeOf hg
  have hpos' {v : Block} (hv : v ∈ x.live) : 0 < v.size.toInt :=
    hs.size_pos hv
  obtain ⟨_, l₁, l₂, hl, hw⟩ := World.block?_split hblk
  have hl : x.live = l₁ ++ blk :: l₂ := hl
  have hblkpos := hpos' (World.mem_live hblk)
  have hlive : ∃ content, x'.live = ⟨p, sizeOf q.call.bytes, content⟩ :: (l₁ ++ l₂) ∧
      size = sizeOf q.call.bytes := by
    have hs := hs'.sized
    generalize hw' : x'.world = w at hstep hs
    have hlw : x'.live = w.live := by rw [← hw']; rfl
    have hmw : x'.heap.mem = w.state := by rw [← hw']; rfl
    cases Mem.step_spec hstep with
    | refused _ _ => exact absurd rfl hp
    | realloced hblk' _ _ _ _ _ =>
      rw [hblk] at hblk'
      cases hblk'
      rw [hw] at hlw
      refine ⟨_, hlw, ?_⟩
      rw [hmw] at hsize
      have hread := (hs _ List.mem_cons_self).symm.trans hsize
      cases hread
      rfl
  obtain ⟨content, hlive, rfl⟩ := hlive
  have hrest : 0 ≤ used (l₁ ++ l₂) := by
    have hlen := @length_le_used (l₁ ++ l₂) fun v hv ↦ hpos' (by
      rw [hl]
      simp only [List.mem_append, List.mem_cons] at hv ⊢
      tauto)
    omega
  have hused₀ : used x.live = blk.size.toInt + used (l₁ ++ l₂) := by rw [hl, used_split]
  have hused : used x'.live = q.call.bytes.toNat + used (l₁ ++ l₂) := by
    rw [hlive, used, List.map_cons, List.sum_cons, hval, used]
  have hlength : x'.live.length = x.live.length := by
    rw [hlive, hl]
    simp only [List.length_cons, List.length_append]
    omega
  have hdiff : (sizeOf q.call.bytes - blk.size).toInt =
      q.call.bytes.toNat - blk.size.toInt := by
    have hhi := (sizeOf q.call.bytes).toInt_lt
    have hbhi := blk.size.toInt_lt
    rw [toInt_sub32, hval] <;> omega
  obtain ⟨hnow₀, hrec₀⟩ := hm sqliteStatusMemoryUsed
  have hlevel₀ : level x sqliteStatusMemoryUsed = used x.live := rfl
  unfold FitsCall at hf
  have hgauge := @gauge_up (x.heap.stat.noted q.call.bytes) sqliteStatusMemoryUsed
    (sizeOf q.call.bytes - blk.size) (by rw [gauge_noted_ne (by decide)]; omega)
    (by rw [gauge_noted_ne (by decide)]; omega)
  rw [← hstat] at hgauge
  by_cases h5 : op = sqliteStatusMallocSize
  · subst h5
    apply metered_noted hm hg hreq
    rw [hgauge, Function.update_of_ne (by decide)]
  by_cases h0 : op = sqliteStatusMemoryUsed
  · subst h0
    have hread : reading x q x' sqliteStatusMemoryUsed =
        (x.heap.stat.gauge sqliteStatusMemoryUsed).now +
          (sizeOf q.call.bytes - blk.size).toInt := by
      rw [hnow₀, hlevel₀, hdiff, hused₀]
      change used x'.live = _
      omega
    rw [hgauge, Function.update_self, gauge_noted_ne h5, hread]
    exact ⟨hread.symm, hrec₀.move _⟩
  · apply metered_stay hm
    · rw [hgauge, Function.update_of_ne h0, gauge_noted_ne h5]
    · unfold level
      rw [if_neg h0, if_neg h0, hlength]
    · exact fun h ↦ absurd h h5

/-- A counter for blocks once one is taken back. -/
theorem metered_released {blk : Block} (hm : Metered x past) (hf : FitsCall x q)
    (hs : Shares b x.others x.world)
    (hblk : x.world.block? blk.ptr = some blk)
    (hstep : x.world.step b ⟨.xFree blk.ptr, none⟩ = .ok (.done, x'.world))
    (hstat : x'.heap.stat = x.heap.stat.took blk.size) (hreq : requested x q = 0)
    (op : Fin 10) : (x'.heap.stat.gauge op).now = level x' op ∧
      (x'.heap.stat.gauge op).Records (reading x q x' op :: past op) := by
  have hpos' {v : Block} (hv : v ∈ x.live) : 0 < v.size.toInt :=
    hs.size_pos hv
  obtain ⟨_, l₁, l₂, hl, hw⟩ := World.block?_split hblk
  have hl : x.live = l₁ ++ blk :: l₂ := hl
  have hblkpos := hpos' (World.mem_live hblk)
  have hlive : x'.live = l₁ ++ l₂ := by
    generalize hw' : x'.world = w at hstep
    have hlw : x'.live = w.live := by rw [← hw']; rfl
    rw [hlw, ← hw]
    generalize blk.ptr = p at hstep hblk
    cases Mem.step_spec hstep with
    | freedNull hnone =>
      rw [hblk] at hnone
      cases hnone
    | freed _ _ => rfl
  have hlen := length_le_used fun v hv ↦ hpos' hv
  have hlen' : ((l₁ ++ l₂).length : Int) ≤ used (l₁ ++ l₂) := length_le_used fun v hv ↦ hpos' (by
    rw [hl]
    simp only [List.mem_append, List.mem_cons] at hv ⊢
    tauto)
  have hused₀ : used x.live = blk.size.toInt + used x'.live := by rw [hl, hlive, used_split]
  have hlength : x.live.length = x'.live.length + 1 := by
    rw [hlive, hl]
    simp only [List.length_cons, List.length_append]
    omega
  rw [← hlive] at hlen'
  obtain ⟨hnow₀, hrec₀⟩ := hm sqliteStatusMemoryUsed
  obtain ⟨hnow₉, hrec₉⟩ := hm sqliteStatusMallocCount
  have hlevel₀ : level x sqliteStatusMemoryUsed = used x.live := rfl
  have hlevel₉ : level x sqliteStatusMallocCount = x.live.length := rfl
  unfold FitsCall at hf
  have hgauge := @gauge_took x.heap.stat blk.size (by omega) (by omega)
    (by omega) (by omega)
  rw [← hstat] at hgauge
  by_cases h9 : op = sqliteStatusMallocCount
  · subst h9
    have hread : reading x q x' sqliteStatusMallocCount =
        (x.heap.stat.gauge sqliteStatusMallocCount).now - 1 := by
      rw [hnow₉, hlevel₉]
      change (x'.live.length : Int) = _
      omega
    rw [hgauge, Function.update_self, hread]
    exact ⟨hread.symm, hrec₉.drop (by decide)⟩
  by_cases h0 : op = sqliteStatusMemoryUsed
  · subst h0
    have hread : reading x q x' sqliteStatusMemoryUsed =
        (x.heap.stat.gauge sqliteStatusMemoryUsed).now - blk.size.toInt := by
      rw [hnow₀, hlevel₀]
      change used x'.live = _
      omega
    rw [hgauge, Function.update_of_ne h9, Function.update_self, hread]
    exact ⟨hread.symm, hrec₀.drop hblkpos.le⟩
  · apply metered_stay hm
    · rw [hgauge, Function.update_of_ne h9, Function.update_of_ne h0]
    · rw [level_ne h0 h9, level_ne h0 h9]
    · exact fun _ ↦ hreq

/-- Every call keeps the counters. -/
theorem metered_step (hst : StepTo b x q x') (hc : CarefulCall b x q) (hf : FitsCall x q)
    (hs : Shares b x.others x.world) (hm : Metered x past) :
    Metered x' (notePast x q x' past) := by
  have hs' := hst.shares hc hs
  have hsame (hw : x'.world = x.world) (op : Fin 10) : level x' op = level x op := by
    have hlive : x'.live = x.live := congrArg World.live hw
    exact level_congr (by rw [hlive]) (by rw [hlive]) op
  cases hst with
  | kept hw hstat hreq hreset =>
    exact metered_next hreset fun op ↦
      metered_stay hm (by rw [hstat]) (hsame hw op) fun _ ↦ hreq
  | @reset op hw hstat hreq hreset =>
    have hgauge := @gauge_reset x.heap.stat op
    rw [← hstat] at hgauge
    intro op'
    rw [notePast, hreset]
    by_cases he : op' = op
    · subst he
      obtain ⟨hnow, _⟩ := hm op'
      rw [if_pos rfl, hgauge, Function.update_self, hsame hw]
      exact ⟨hnow, hnow ▸ Gauge.records_reset _⟩
    · rw [if_neg (by simpa using Ne.symm he)]
      apply metered_stay hm _ (hsame hw op') fun _ ↦ hreq
      rw [hgauge, Function.update_of_ne he]
  | refused hg hw hstat hreq hreset =>
    refine metered_next hreset fun op ↦ ?_
    by_cases h5 : op = sqliteStatusMallocSize
    · subst h5
      exact metered_noted hm hg hreq (by rw [hstat])
    · apply metered_stay hm _ (hsame hw op) fun h ↦ absurd h h5
      rw [hstat, gauge_noted_ne h5]
  | gained hg hstep hp _ _ hlive hsize hstat hreq hreset =>
    exact metered_next hreset
      (metered_gained hm hc hf hg hs hstep hp hsize hlive hstat hreq)
  | moved hg hblk hp hstep hsize hstat hreq hreset =>
    exact metered_next hreset
      (metered_moved hm hf hg hs hs' hblk hp hstep hsize hstat hreq)
  | released hblk hstep hstat hreq hreset =>
    exact metered_next hreset (metered_released hm hf hs hblk hstep hstat hreq)
  | @stored blk off c _ hblk hstep hstat hreq hreset =>
    have hlive : x'.live = x.live.map fun v ↦ if v.ptr = blk.ptr then v.wrote off c else v := by
      generalize hw' : x'.world = w at hstep
      have hlw : x'.live = w.live := by rw [← hw']; rfl
      cases Mem.step_spec hstep with
      | stored _ _ _ => exact hlw
    have hlevel (op : Fin 10) : level x' op = level x op := by
      apply level_congr
      · rw [hlive]
        exact used_map (fun v ↦ (wrote_frame blk.ptr off c v).2) x.live
      · rw [hlive, List.length_map]
    exact metered_next hreset fun op ↦
      metered_stay hm (by rw [hstat]) (hlevel op) fun _ ↦ hreq

/-! ### Runs -/

/-- The counters are kept in every run. -/
theorem reach_metered {marks : Fin 10 → Int64} (hmarks : ∀ op, 0 ≤ marks op)
    {y : Client × (Fin 10 → List Int)}
    (hr : (metered b marks).Reach (fun y e ↦ Careful b y.1 e ∧ Fits y.1 e) y) :
    (y.1.heap.bMemstat = true ∧ Shares b y.1.others y.1.world) ∧ Metered y.1 y.2 := by
  apply hr.invariant (P := fun y ↦ (y.1.heap.bMemstat = true ∧
    Shares b y.1.others y.1.world) ∧ Metered y.1 y.2)
  · rintro ⟨x, past⟩ ⟨⟨hl, ho, bytes, hh⟩, rfl⟩
    have hstart : (system b marks).Reach (Careful b) x := .start ⟨hl, ho, bytes, hh⟩
    refine ⟨reach_shares hstart, fun op ↦ ?_⟩
    have hgauge : x.heap.stat.gauge op = (⟨0, 0⟩ : Gauge Int).note (marks op).toInt := by
      have hle : 0 ≤ (marks op).toInt := Int64.le_iff_toInt_le.mp (hmarks op)
      rw [hh, Gauge.note, max_eq_left hle]
      rfl
    have hlevel : level x op = 0 := by
      unfold level
      rw [hl]
      simp [used]
    dsimp only
    rw [hgauge, hlevel]
    exact ⟨rfl, (Gauge.records_reset (⟨0, 0⟩ : Gauge Int)).note _⟩
  · rintro ⟨x, past⟩ e ⟨x', past'⟩ ⟨⟨hb, hs⟩, hm⟩ ⟨hc, hf⟩ ⟨hnext, hpast⟩
    dsimp only at hpast
    rw [hpast]
    cases hnext with
    | call he =>
      obtain ⟨hb', ho, hst⟩ := step_spec hb hs he
      exact ⟨⟨hb', ho ▸ hst.shares hc hs⟩, metered_step hst hc hf hs hm⟩
    | other he => exact ⟨⟨hb, shares_interrupted hs hc he⟩, hm⟩

/-- In every run of a careful caller, the counters count the bytes and the blocks given out, the
mark of each is the largest value on its record, and every block has the size that was asked
for. -/
theorem status_run {marks : Fin 10 → Int64} (hmarks : ∀ op, 0 ≤ marks op)
    {y : Client × (Fin 10 → List Int)}
    (hr : (metered b marks).Reach (fun y e ↦ Careful b y.1 e ∧ Fits y.1 e) y) :
    (∀ op, (y.1.heap.stat.nowValue op).toInt = level y.1 op ∧
      IsGreatest {a | a ∈ y.2 op} (y.1.heap.stat.mxValue op).toInt) ∧
    ∀ blk ∈ y.1.live, sqlite3Msize b y.1.heap blk.ptr = .ok blk.size.toInt64.toUInt64 := by
  obtain ⟨⟨_, hs⟩, hm⟩ := reach_metered hmarks hr
  refine ⟨fun op ↦ ⟨(hm op).1, (hm op).2.high⟩, fun blk hv ↦ ?_⟩
  have hsize : cMemSize b y.1.heap.mem blk.ptr = .ok blk.size := hs.sized blk hv
  rw [sqlite3Msize, if_neg (hs.ptr_ne (x := y.1.world) hv), hsize]
  rfl

end

/-- The counters after eight zero bytes are given out. -/
theorem status_run_mallocZero : ∃ y : Client × (Fin 10 → List Int), used y.1.live = 8 ∧
    ∀ op, (y.1.heap.stat.nowValue op).toInt = level y.1 op := by
  have hstep : passes ((Client.fresh .useMalloc).step .useMalloc mallocZeroEight)
      (fun y ↦ used y.2.live = 8) = true := by decide +kernel
  obtain ⟨⟨r, x⟩, he, hused⟩ := passes_iff.mp hstep
  have hcare : CarefulCall .useMalloc (Client.fresh .useMalloc) mallocZeroEight :=
    ⟨fun h ↦ h.elim, fun h ↦ h.elim⟩
  have hfits : FitsCall (Client.fresh .useMalloc) mallocZeroEight := by
    unfold FitsCall
    decide
  have hstart : (metered .useMalloc fun _ ↦ 0).Reach
      (fun y e ↦ Careful .useMalloc y.1 e ∧ Fits y.1 e)
      (Client.fresh .useMalloc, fun _ ↦ [0, 0]) := .start ⟨⟨rfl, rfl, _, rfl⟩, rfl⟩
  have hrun : (metered .useMalloc fun _ ↦ 0).Reach
      (fun y e ↦ Careful .useMalloc y.1 e ∧ Fits y.1 e)
      (x, notePast (Client.fresh .useMalloc) mallocZeroEight x fun _ ↦ [0, 0]) :=
    .next (a := .call mallocZeroEight) hstart ⟨hcare, hfits⟩ ⟨.call he, rfl⟩
  exact ⟨_, of_decide_eq_true hused, fun op ↦ ((status_run (fun _ ↦ by decide) hrun).1 op).1⟩

end SqliteComposite.Malloc

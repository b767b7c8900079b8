import SqliteComposite.Mem.Accounting

/-!
# The high-water mark

`composite_mem_app_data.max_memory` is to be the largest value `outstanding_memory` has had.
Both are 64-bit integers, but the mark passes through an `int` whenever a region is counted,
so that from `2 ^ 31` on it is lost unless the count exceeds it again.
-/

namespace SqliteComposite.Mem

open Base

/-- The value of `outstanding_memory` once the call has the region it asks for, if it does. -/
def raised (b : Build) (x : World) (q : Request) : Int64 :=
  let handOut (sz : Int32) : Int64 :=
    match mallocRegion b x.state sz q.offer with
    | .ok (_, s) => s.appData.outstandingMemory
    | .error _ => x.state.appData.outstandingMemory
  match q.call with
  | .xMalloc sz => handOut sz
  | .xRealloc mem newSize =>
    if (x.block? mem).isSome then handOut newSize else x.state.appData.outstandingMemory
  | _ => x.state.appData.outstandingMemory

/-- The largest value `outstanding_memory` has had, after a call. -/
def notePeak (b : Build) (x : World) (q : Request) (x' : World) (peak : Int) : Int :=
  Max.max (Max.max peak (raised b x q).toInt) x'.state.appData.outstandingMemory.toInt

/-- The allocator with a record of the largest value `outstanding_memory` has had. -/
def peaked (b : Build) : System (World × Int) Request := (system b).withPast 0 (notePeak b)

/-- The mark is the largest value `outstanding_memory` has had. -/
def AtPeak (x : World × Int) : Prop := x.1.state.appData.maxMemory.toInt = x.2

/-- A region is counted only where the largest value so far passes through an `int` or is
exceeded, and counting a region back does not exceed it. -/
def MarkSurvives (b : Build) (x : World × Int) (q : Request) : Prop :=
  (∀ sz, AsksFor x.1 q sz → HasRoom b x.1.state sz → x.2 < 2 ^ 31 ∨
    x.2 ≤ (x.1.state.appData.outstandingMemory + (regionSize sz).toInt64).toInt) ∧
  ∀ mem newSize blk, ¬ b.IsArena → q.call = .xRealloc mem newSize →
    x.1.block? mem = some blk →
    (x.1.state.appData.outstandingMemory + (regionSize newSize).toInt64 -
        (regionSize blk.size).toInt64).toInt ≤
      Max.max x.2 (x.1.state.appData.outstandingMemory + (regionSize newSize).toInt64).toInt

/-- The call stays in bounds, and the mark survives it. -/
def KeepsPeak (b : Build) (x : World × Int) (q : Request) : Prop :=
  Completes b x.1 q ∧ MarkSurvives b x q

section

variable {b : Build} {x x' : World} {y : World × Int} {q : Request} {r : Reply}
  {s s' : State} {sz : Int32} {region peak : Int}

/-! ### The mark in one call -/

/-- The `int` a mark passes through is the mark below `2 ^ 31`, and less than it from there. -/
private theorem narrowed_cases {m : Int64} (hm : 0 ≤ m.toInt) :
    (m.toInt < 2 ^ 31 ∧ m.toInt32.toInt64.toInt = m.toInt) ∨
      2 ^ 31 ≤ m.toInt ∧ m.toInt32.toInt64.toInt < 2 ^ 31 := by
  rw [Int32.toInt_toInt64]
  rcases lt_or_ge m.toInt (2 ^ 31) with hlt | hge
  · exact .inl ⟨hlt, toInt_narrow m (by omega) hlt⟩
  · exact .inr ⟨hge, m.toInt32.toInt_lt⟩

/-- The new mark is the larger of the old one and the count, and no smaller than another
value, exactly when the old one passes through an `int` or does not exceed the count, and
neither is exceeded by that value. -/
private theorem mark_iff {m : Int64} (hm : 0 ≤ m.toInt) (o : Int64) (n : Int) :
    (max o m.toInt32).toInt = Max.max (Max.max m.toInt o.toInt) n ↔
      (m.toInt < 2 ^ 31 ∨ m.toInt ≤ o.toInt) ∧ n ≤ Max.max m.toInt o.toInt := by
  have hmax : (max o m.toInt32).toInt = Max.max o.toInt m.toInt32.toInt64.toInt := by
    unfold max
    dsimp only
    split
    · next h =>
      have hlt : m.toInt32.toInt64.toInt < o.toInt := Int64.lt_iff_toInt_lt.mp h
      omega
    · next h =>
      have hge : ¬ m.toInt32.toInt64.toInt < o.toInt := fun h' ↦
        h (Int64.lt_iff_toInt_lt.mpr h')
      omega
  rw [hmax]
  rcases narrowed_cases hm with ⟨hlt, he⟩ | ⟨hge, hlt⟩ <;> omega

/-- The counters after a region is handed out. -/
private theorem MallocTo.appData_eq (h : MallocTo b s sz region s') (hpos : 0 < region) :
    s'.appData = s.appData.add sz := by
  cases h with
  | exhausted _ => exact absurd hpos (lt_irrefl _)
  | advanced _ _ => rfl
  | granted _ _ _ => rfl

/-- The counter once the call has its region. -/
private theorem raised_eq (ha : AsksFor x q sz) (hroom : HasRoom b x.state sz)
    (he : x.step b q = .ok (r, x')) :
    raised b x q = x.state.appData.outstandingMemory + (regionSize sz).toInt64 := by
  obtain ⟨region, s, hr, _⟩ := step_region ha he
  have hto := mallocRegion_ok hr
  have hdata := MallocTo.appData_eq hto (hto.hasRoom.mp hroom)
  obtain ⟨c, offer⟩ := q
  rcases ha with hc | ⟨mem, hc, hsome⟩
  · cases hc
    simp only [raised, hr, hdata]
    rfl
  · cases hc
    simp only [raised, hr, hdata, hsome, if_true]
    rfl

/-- A call that asks for nothing, or is refused, raises no counter. -/
private theorem raised_idle (ha : ∀ sz, AsksFor x q sz → ¬ HasRoom b x.state sz)
    (he : x.step b q = .ok (r, x')) :
    raised b x q = x.state.appData.outstandingMemory := by
  have hasked {sz : Int32} (hs : AsksFor x q sz) : ∃ region,
      mallocRegion b x.state sz q.offer = .ok (region, x.state) := by
    obtain ⟨region, s, hr, _⟩ := step_region hs he
    have hto := mallocRegion_ok hr
    rcases hto.cases_region with ⟨_, rfl⟩ | hpos
    · exact ⟨region, hr⟩
    · exact absurd (hto.hasRoom.mpr hpos) (ha sz hs)
  obtain ⟨c, offer⟩ := q
  cases c with
  | xMalloc sz =>
    obtain ⟨region, hr⟩ := hasked (.inl rfl)
    simp only [raised, hr]
  | xRealloc mem newSize =>
    by_cases hsome : (x.block? mem).isSome
    · obtain ⟨region, hr⟩ := hasked (.inr ⟨mem, rfl, hsome⟩)
      simp only [raised, hr, hsome, if_true]
    · simp only [raised, if_neg hsome]
  | xFree _ => rfl
  | store _ _ _ => rfl

/-- A call that neither counts a region nor counts one back keeps the mark at the peak. -/
private theorem atPeak_idle (ha : AtPeak (x, peak))
    (hle : x.state.appData.outstandingMemory.toInt ≤ peak)
    (hasks : ∀ sz, AsksFor x q sz → ¬ HasRoom b x.state sz)
    (hdata : x'.state.appData = x.state.appData) (he : x.step b q = .ok (r, x')) :
    AtPeak (x', notePeak b x q x' peak) ∧
      x.state.appData.maxMemory.toInt ≤ x'.state.appData.maxMemory.toInt := by
  have hmark : x.state.appData.maxMemory.toInt = peak := ha
  rw [AtPeak, notePeak, raised_idle hasks he, hdata]
  dsimp only
  omega

/-- A call keeps the mark at the peak when it asks for nothing and replaces no block. -/
private theorem markSurvives_idle (hasks : ∀ sz, AsksFor x q sz → ¬ HasRoom b x.state sz) :
    MarkSurvives b (x, peak) q := by
  refine ⟨fun sz hs hroom ↦ absurd hroom (hasks sz hs), fun mem newSize blk harena hc hblk ↦ ?_⟩
  have hroom : HasRoom b x.state newSize := by
    cases b with
    | useMalloc => trivial
    | arena _ _ => exact absurd trivial harena
  exact absurd hroom (hasks newSize (.inr ⟨mem, hc, Option.isSome_iff_exists.mpr ⟨blk, hblk⟩⟩))

/-- What a call that counts a region has to meet. -/
private theorem markSurvives_counted (hasks : AsksFor x q sz) (hroom : HasRoom b x.state sz) :
    MarkSurvives b (x, peak) q ↔
      (peak < 2 ^ 31 ∨
        peak ≤ (x.state.appData.outstandingMemory + (regionSize sz).toInt64).toInt) ∧
      ∀ mem newSize blk, ¬ b.IsArena → q.call = .xRealloc mem newSize →
        x.block? mem = some blk →
        (x.state.appData.outstandingMemory + (regionSize newSize).toInt64 -
            (regionSize blk.size).toInt64).toInt ≤
          Max.max peak
            (x.state.appData.outstandingMemory + (regionSize newSize).toInt64).toInt := by
  apply and_congr_left'
  constructor
  · exact fun h ↦ h sz hasks hroom
  · intro h sz' hasks' _
    rw [hasks.unique hasks']
    exact h

/-- A call that counts a region keeps the mark at the peak when the old mark passes through an
`int` or is exceeded, and the count it leaves exceeds neither. -/
private theorem atPeak_counted (ha : AtPeak (x, peak)) (h0 : 0 ≤ peak)
    (hasks : AsksFor x q sz) (hroom : HasRoom b x.state sz)
    (hmax : x'.state.appData.maxMemory = (x.state.appData.add sz).maxMemory)
    (he : x.step b q = .ok (r, x')) :
    (AtPeak (x', notePeak b x q x' peak) ∧
        x.state.appData.maxMemory.toInt ≤ x'.state.appData.maxMemory.toInt) ↔
      (peak < 2 ^ 31 ∨
        peak ≤ (x.state.appData.outstandingMemory + (regionSize sz).toInt64).toInt) ∧
      x'.state.appData.outstandingMemory.toInt ≤
        Max.max peak (x.state.appData.outstandingMemory + (regionSize sz).toInt64).toInt := by
  have hmark : x.state.appData.maxMemory.toInt = peak := ha
  have hiff := mark_iff (m := x.state.appData.maxMemory) (by omega)
    (x.state.appData.outstandingMemory + (regionSize sz).toInt64)
    x'.state.appData.outstandingMemory.toInt
  rw [hmark] at hiff
  rw [← hiff, AtPeak, notePeak, raised_eq hasks hroom he, hmax]
  change (max _ _).toInt = _ ∧ _ ≤ (max _ _).toInt ↔ _
  constructor
  · exact fun h ↦ h.1
  · intro h
    refine ⟨h, ?_⟩
    rw [h, hmark]
    omega

/-- What a call does to the mark. -/
private theorem peak_step (hi : Issued b x) (ha : AtPeak (x, peak))
    (hle : x.state.appData.outstandingMemory.toInt ≤ peak) (h0 : 0 ≤ peak)
    (he : x.step b q = .ok (r, x')) :
    (AtPeak (x', notePeak b x q x' peak) ∧
        x.state.appData.maxMemory.toInt ≤ x'.state.appData.maxMemory.toInt) ↔
      MarkSurvives b (x, peak) q := by
  have hidle (hasks : ∀ sz, AsksFor x q sz → ¬ HasRoom b x.state sz)
      (hdata : x'.state.appData = x.state.appData) :
      (AtPeak (x', notePeak b x q x' peak) ∧
        x.state.appData.maxMemory.toInt ≤ x'.state.appData.maxMemory.toInt) ↔
          MarkSurvives b (x, peak) q :=
    iff_of_true (atPeak_idle ha hle hasks hdata he) (markSurvives_idle hasks)
  have hst := step_spec he
  obtain ⟨c, offer⟩ := q
  dsimp only at hst
  cases hst with
  | notMade hstray => exact hidle (fun _ hasks ↦ absurd hasks hstray.asks_none) rfl
  | refused hc hto =>
    refine hidle ?_ rfl
    rintro sz (hc' | ⟨mem, hc', _⟩) <;> cases hc' <;> rcases hc with hc | ⟨_, hc⟩ <;> cases hc
    · exact hto.no_room
    · exact hto.no_room
  | @malloced sz _ _ hto hpos =>
    have hdata := MallocTo.appData_eq hto hpos
    have hroom := hto.hasRoom.mpr hpos
    have hasks : AsksFor x ⟨.xMalloc sz, offer⟩ sz := .inl rfl
    rw [atPeak_counted ha h0 hasks hroom (by rw [hdata]) he, markSurvives_counted hasks hroom]
    refine and_congr_right' (iff_of_true ?_ (by rintro _ _ _ _ ⟨⟩))
    dsimp only
    rw [hdata]
    exact le_max_right _ _
  | @realloced mem region newSize oldSz blk s₁ s₂ s hblk _ hto hpos hc hfree =>
    obtain ⟨rfl, _⟩ := World.block?_split hblk
    obtain ⟨hsame, _⟩ := copyPayload_ok _ hc
    have hdata := MallocTo.appData_eq hto hpos
    have hs₂ : s₂.appData = x.state.appData.add newSize := by rw [hsame, hdata]
    have hroom := hto.hasRoom.mpr hpos
    have hasks : AsksFor x ⟨.xRealloc blk.ptr newSize, offer⟩ newSize := .realloc hblk offer
    cases b with
    | arena base hbase =>
      cases hfree
      rw [atPeak_counted ha h0 hasks hroom (by rw [hs₂]) he, markSurvives_counted hasks hroom]
      refine and_congr_right' (iff_of_true ?_ fun _ _ _ harena ↦ absurd trivial harena)
      dsimp only
      rw [hs₂]
      exact le_max_right _ _
    | useMalloc =>
      have hb₂ := (Backed.malloc hi hto blk.content).copy hc
      rw [hb₂.freeRegion_eq (List.mem_cons_of_mem _ (World.mem_live hblk))] at hfree
      cases hfree
      rw [atPeak_counted ha h0 hasks hroom (by rw [← hs₂]) he, markSurvives_counted hasks hroom]
      apply and_congr_right'
      have hcount : s₂.appData.outstandingMemory =
          x.state.appData.outstandingMemory + (regionSize newSize).toInt64 := by
        rw [hs₂]
        rfl
      dsimp only
      rw [hcount]
      constructor
      · intro hback mem' newSize' blk' _ hc' hblk'
        cases hc'
        rw [hblk] at hblk'
        cases hblk'
        exact hback
      · exact fun hback ↦ hback _ _ blk id rfl hblk
  | freedNull _ =>
    exact hidle (by rintro sz (hc | ⟨_, hc, _⟩) <;> cases hc) rfl
  | freed _ hfree =>
    exact hidle (by rintro sz (hc | ⟨_, hc, _⟩) <;> cases hc) (cMemFree_appData hfree)
  | stored _ _ hw =>
    obtain ⟨_, _, rfl⟩ := writeByte_ok hw
    exact hidle (by rintro sz (hc | ⟨_, hc, _⟩) <;> cases hc) rfl

/-! ### Runs -/

/-- The count never exceeds the largest value it has had, which is not negative. -/
private theorem reach_peaked {ok : World × Int → Request → Prop}
    (hr : (peaked b).Reach ok y) :
    Issued b y.1 ∧ y.1.state.appData.outstandingMemory.toInt ≤ y.2 ∧ 0 ≤ y.2 := by
  apply hr.invariant (P := fun y ↦ Issued b y.1 ∧
    y.1.state.appData.outstandingMemory.toInt ≤ y.2 ∧ 0 ≤ y.2)
  · rintro ⟨x, peak⟩ ⟨hinit, rfl⟩
    refine ⟨reach_issued (.start hinit : (system b).Reach (fun _ _ ↦ True) x), ?_, le_rfl⟩
    obtain ⟨_, bytes, hs⟩ := hinit
    rw [hs]
    exact le_rfl
  · rintro ⟨x, peak⟩ q ⟨x', peak'⟩ ⟨hi, _, h0⟩ _ ⟨⟨r, he⟩, hp⟩
    change peak' = notePeak b x q x' peak at hp
    subst hp
    refine ⟨issued_step hi he, le_max_right _ _, ?_⟩
    change 0 ≤ notePeak b x q x' peak
    unfold notePeak
    dsimp only at h0
    omega

/-- In every run whose calls stay in bounds and count regions only where the mark survives, the
mark is the largest value the count has had; the next call returns, leaves it so and does not
move it down exactly when it is one of these. -/
theorem peak_iff (hr : (peaked b).Reach (KeepsPeak b) y) :
    AtPeak y ∧ ∀ q,
      (∃ r x', y.1.step b q = .ok (r, x') ∧ AtPeak (x', notePeak b y.1 q x' y.2) ∧
          y.1.state.appData.maxMemory.toInt ≤ x'.state.appData.maxMemory.toInt) ↔
        KeepsPeak b y q := by
  have ha : AtPeak y := by
    induction hr with
    | start hinit =>
      obtain ⟨⟨_, bytes, hs⟩, h0⟩ := hinit
      rw [AtPeak, hs, h0]
      rfl
    | @next y z q hr hk hst ih =>
      obtain ⟨hi, hle, h0⟩ := reach_peaked hr
      obtain ⟨x, peak⟩ := y
      obtain ⟨x', peak'⟩ := z
      obtain ⟨⟨r, he⟩, hp⟩ := hst
      change peak' = notePeak b x q x' peak at hp
      subst hp
      exact ((peak_step hi ih hle h0 he).mpr hk.2).1
  obtain ⟨hi, hle, h0⟩ := reach_peaked hr
  have hall : (peaked b).Reach (fun _ _ ↦ True) y := hr.mono fun _ _ _ ↦ trivial
  have hrun : (system b).Reach (fun _ _ ↦ True) y.1 := System.Reach.forget hall
  obtain ⟨x, peak⟩ := y
  refine ⟨ha, fun q ↦ ?_⟩
  constructor
  · rintro ⟨r, x', he, hp⟩
    exact ⟨(returns_iff hrun).mp ⟨r, x', he⟩, (peak_step hi ha hle h0 he).mp hp⟩
  · rintro ⟨hc, hp⟩
    obtain ⟨r, x', he⟩ := (returns_iff hrun).mpr hc
    exact ⟨r, x', he, (peak_step hi ha hle h0 he).mpr hp⟩

end

/-- The blocks of a run of the `malloc` build. -/
private def overMark : List Request :=
  [mallocEight, ⟨.xMalloc 2147483647, some ⟨2 ^ 32, fun _ ↦ 0⟩⟩,
    ⟨.xRealloc 8196 8, some ⟨12288, fun _ ↦ 0⟩⟩]

/-- Four bytes are asked for. -/
def mallocFour : Request := ⟨.xMalloc 4, some ⟨16384, fun _ ↦ 0⟩⟩

/-- Once the mark is `2 ^ 31` or more and the count is below it, the next region moves the mark
down. -/
theorem not_peak : ¬ ∀ b y, (peaked b).Reach (fun _ _ ↦ True) y → AtPeak y := by
  intro hall
  obtain ⟨x, hr, hp⟩ := exists_of_calls .useMalloc (fun _ _ ↦ True) overMark
    (fun x ↦ x.state.appData.maxMemory = 2147483675 &&
      passes (x.step .useMalloc mallocFour) fun y ↦
        y.2.state.appData.maxMemory = 2147483671) (by decide +kernel) fun _ _ _ ↦ trivial
  simp only [Bool.and_eq_true, decide_eq_true_eq, passes_iff] at hp
  obtain ⟨hmark, ⟨r, x'⟩, he, hlow⟩ := hp
  obtain ⟨peak, hrec⟩ := hr.record 0 (notePeak .useMalloc)
  have hpeak : AtPeak (x, peak) := hall .useMalloc _ hrec
  have hnext : AtPeak (x', notePeak .useMalloc x mallocFour x' peak) :=
    hall .useMalloc _ (.next hrec trivial ⟨⟨r, he⟩, rfl⟩)
  rw [AtPeak, hmark] at hpeak
  rw [AtPeak, hlow, notePeak] at hnext
  dsimp only at hpeak hnext
  have h71 : (2147483671 : Int64).toInt = 2147483671 := by decide
  have h75 : (2147483675 : Int64).toInt = 2147483675 := by decide
  omega

/-- After a first block of eight bytes the mark is twelve. -/
theorem peak_iff_mallocEight : ∃ y : World × Int, y.1.state.appData.maxMemory = 12 ∧
    AtPeak y := by
  let x₀ : World := ⟨.start .useMalloc fun _ ↦ 0, []⟩
  have hc : passes (x₀.step .useMalloc mallocEight)
      (fun y ↦ y.2.state.appData.maxMemory = 12) = true := by decide +kernel
  obtain ⟨⟨r, x⟩, he, hp⟩ := passes_iff.mp hc
  have hr : (peaked .useMalloc).Reach (KeepsPeak .useMalloc)
      (x, notePeak .useMalloc x₀ mallocEight x 0) := by
    refine .next (s := (x₀, 0)) (a := mallocEight) (.start ⟨⟨rfl, _, rfl⟩, rfl⟩) ?_
      ⟨⟨r, he⟩, rfl⟩
    refine ⟨⟨_, rfl, by decide, by decide⟩, fun _ _ _ ↦ .inl (by decide), ?_⟩
    rintro _ _ _ _ ⟨⟩
  exact ⟨_, of_decide_eq_true hp, (peak_iff hr).1⟩

end SqliteComposite.Mem

import SqliteComposite.Mem.Client

/-!
# Where blocks are released

In the `malloc` build every block lies in a region of its own that the C library has handed
out, so that whatever `cMemFree` and `cMemRealloc` hand to `free` came from `malloc`. In the
arena build no block does, and yet `cMemFree` hands it to `free`.
-/

namespace SqliteComposite.Mem

open Base

/-- Two regions do not overlap. -/
def Region.Apart (r t : Region) : Prop :=
  r.start ≠ t.start ∧ (r.start + r.size ≤ t.start ∨ t.start + t.size ≤ r.start)

/-- The regions of the C library are apart, and each block has one of its own, with its size
in the header. -/
structure Backed (s : State) (live : List Block) : Prop where
  apart : s.regions.Pairwise Region.Apart
  positive : ∀ r ∈ s.regions, 0 < r.start
  distinct : (live.map Block.ptr).Nodup
  own : ∀ blk ∈ live, ∃ r ∈ s.regions, r.start = getRegion blk.ptr ∧
    r.size = (regionSize blk.size).toNat ∧ sizeofInt ≤ r.size
  header : ∀ blk ∈ live, Header s (getRegion blk.ptr) blk.size

/-- The blocks come from `malloc`, or from the arena, and then the C library's `malloc` and
`free` were never called. -/
def Issued (b : Build) (x : World) : Prop :=
  match b with
  | .useMalloc => Backed x.state x.live
  | .arena _ _ => x.state.regions = [] ∧ x.state.freed = [] ∧
      ∀ blk ∈ x.live, 0 < getRegion blk.ptr

/-- The build is the one with the arena. -/
def Build.IsArena : Build → Prop
  | .useMalloc => False
  | .arena _ _ => True

/-- The call frees a block. -/
def FreesBlock (x : World) (q : Request) : Prop :=
  ∃ mem blk, q.call = .xFree mem ∧ x.block? mem = some blk

/-- The call hands no pointer to `free` that `malloc` did not return or that was freed since,
and none at all in the arena build. -/
def ReleasesProperly (b : Build) (x : World) (q : Request) : Prop :=
  x.step b q ≠ .error .badRelease ∧
    (b.IsArena → ∀ r x', x.step b q = .ok (r, x') → x'.state.freed = [])

instance : Std.Symm Region.Apart := ⟨fun _ _ h ↦ ⟨h.1.symm, h.2.symm⟩⟩

section

variable {s s' : State} {live l₁ l₂ : List Block} {blk : Block} {r t : Region} {a y : Int}
  {b : Build} {x x' : World} {q : Request} {r' : Reply} {sz : Int32}

/-- A block is where it was given out. -/
theorem getRegion_getMemory (region : Int) : getRegion (getMemory region) = region := by
  unfold getRegion getMemory
  omega

/-! ### The `malloc` build -/

namespace Backed

/-- Regions that share a byte are the same. -/
theorem region_unique (hb : Backed s live) (hr : r ∈ s.regions) (ht : t ∈ s.regions)
    (hry : r.start ≤ y ∧ y < r.start + r.size) (hty : t.start ≤ y ∧ y < t.start + t.size) :
    r = t := by
  by_contra hne
  obtain ⟨_, hap⟩ := hb.apart.forall hr ht hne
  omega

/-- A pointer to a block may be freed. -/
theorem cFree_eq (hb : Backed s live) (hv : blk ∈ live) : cFree s (getRegion blk.ptr) = .ok
    { s with
      regions := s.regions.filter fun r ↦ r.start ≠ getRegion blk.ptr
      freed := getRegion blk.ptr :: s.freed } := by
  obtain ⟨r, hr, hs, _⟩ := hb.own blk hv
  have hpos := hb.positive r hr
  rw [cFree, if_neg (by omega), if_pos (List.mem_map.mpr ⟨r, hr, hs⟩)]

/-- The header of a block can be read. -/
theorem readInt_eq (hb : Backed s live) (hv : blk ∈ live) :
    readInt .useMalloc s (getRegion blk.ptr) = .ok blk.size := by
  obtain ⟨r, hr, hs, h4⟩ := hb.own blk hv
  have hpos := hb.positive r hr
  apply Mem.readInt_eq _ (hb.header blk hv)
  exact ⟨by omega, fun y hy hlt ↦ ⟨r, hr, hs, by omega, by omega⟩⟩

/-- Changing bytes behind the headers of regions keeps the headers of the blocks. -/
theorem write (hb : Backed s live) (hr : s'.regions = s.regions)
    (hf : ∀ y, s'.bytes y = s.bytes y ∨
      ∃ region, region + sizeofInt ≤ y ∧ InBounds .useMalloc s region y) : Backed s' live where
  apart := hr ▸ hb.apart
  positive := hr ▸ hb.positive
  distinct := hb.distinct
  own := hr ▸ hb.own
  header blk hv := by
    obtain ⟨r, hr, hs, h4⟩ := hb.own blk hv
    apply (hb.header blk hv).of_eq
    intro y hy hlt
    rcases hf y with h | ⟨region, hge, t, ht, hts, hty⟩
    · exact h
    · have he := hb.region_unique hr ht (y := y) (by omega) hty
      subst he
      omega

/-- The region that is handed out is not that of a block. -/
theorem granted_ne (hb : Backed s live) (hv : blk ∈ live) {n : Nat} (hav : Available s a n) :
    a ≠ getRegion blk.ptr := by
  obtain ⟨r, hr, hs, _⟩ := hb.own blk hv
  rw [← hs]
  exact (hav.2.2 r hr).1

/-- A region handed out backs one more block. -/
theorem malloc (hb : Backed s live) (hto : MallocTo .useMalloc s sz a s')
    (content : Nat → Option UInt8) : Backed s' (⟨getMemory a, sz, content⟩ :: live) := by
  cases hto with
  | @granted _ _ _ fill hav h4 hfill =>
    constructor
    · apply List.pairwise_cons.mpr ⟨fun r hr ↦ hav.2.2 r hr, hb.apart⟩
    · intro r hr
      rcases List.mem_cons.mp hr with rfl | hr
      · exact hav.1
      · exact hb.positive r hr
    · rw [List.map_cons, List.nodup_cons]
      refine ⟨fun hm ↦ ?_, hb.distinct⟩
      obtain ⟨blk, hv, hp⟩ := List.mem_map.mp hm
      apply hb.granted_ne hv hav
      rw [hp, getRegion_getMemory]
    · intro blk hv
      rcases List.mem_cons.mp hv with rfl | hv
      · exact ⟨_, List.mem_cons_self, (getRegion_getMemory a).symm, rfl, h4⟩
      · obtain ⟨r, hr, h⟩ := hb.own blk hv
        exact ⟨r, List.mem_cons_of_mem _ hr, h⟩
    · intro blk hv
      rcases List.mem_cons.mp hv with rfl | hv
      · rw [getRegion_getMemory]
        exact header_poke fill rfl
      · obtain ⟨r, hr, hs, hr4⟩ := hb.own blk hv
        obtain ⟨_, hap⟩ := hav.2.2 r hr
        apply (hb.header blk hv).of_eq
        intro y hy hlt
        change poke fill a sz y = s.bytes y
        rw [poke, if_neg (by omega), hfill y (by omega)]

/-- The regions of the other blocks are others. -/
theorem region_ne (hb : Backed s (l₁ ++ blk :: l₂)) {v : Block} (hv : v ∈ l₁ ++ l₂) :
    getRegion v.ptr ≠ getRegion blk.ptr := by
  have hd := hb.distinct
  simp only [List.map_append, List.map_cons, List.nodup_append, List.nodup_cons] at hd
  have hne : v.ptr ≠ blk.ptr := by
    intro he
    rcases List.mem_append.mp hv with hv | hv
    · exact hd.2.2 _ (List.mem_map_of_mem hv) _ (by simp) he
    · exact hd.2.1.1 (he ▸ List.mem_map_of_mem hv)
  unfold getRegion
  omega

/-- Taking back the region of a block leaves the others theirs. -/
theorem release (hb : Backed s (l₁ ++ blk :: l₂)) (hf : s'.bytes = s.bytes)
    (hr : s'.regions = s.regions.filter fun r ↦ r.start ≠ getRegion blk.ptr) :
    Backed s' (l₁ ++ l₂) := by
  have hsub : (l₁ ++ l₂).Sublist (l₁ ++ blk :: l₂) :=
    (List.sublist_cons_self blk l₂).append_left l₁
  constructor
  · rw [hr]
    exact hb.apart.filter _
  · intro r hmem
    rw [hr] at hmem
    exact hb.positive r (List.mem_filter.mp hmem).1
  · exact hb.distinct.sublist (hsub.map Block.ptr)
  · intro v hv
    obtain ⟨r, hmem, hs, h4⟩ := hb.own v (hsub.mem hv)
    refine ⟨r, ?_, hs, h4⟩
    rw [hr, List.mem_filter]
    exact ⟨hmem, decide_eq_true (hs ▸ hb.region_ne hv)⟩
  · intro v hv
    exact (hb.header v (hsub.mem hv)).of_eq fun y _ _ ↦ by rw [hf]

/-- What a block holds does not matter. -/
theorem map (hb : Backed s live) {f : Block → Block}
    (hf : ∀ blk, (f blk).ptr = blk.ptr ∧ (f blk).size = blk.size) : Backed s (live.map f) where
  apart := hb.apart
  positive := hb.positive
  distinct := by
    have he : (live.map f).map Block.ptr = live.map Block.ptr := by
      rw [List.map_map]
      exact List.map_congr_left fun blk _ ↦ (hf blk).1
    rw [he]
    exact hb.distinct
  own blk hv := by
    obtain ⟨v, hmem, rfl⟩ := List.mem_map.mp hv
    rw [(hf v).1, (hf v).2]
    exact hb.own v hmem
  header blk hv := by
    obtain ⟨v, hmem, rfl⟩ := List.mem_map.mp hv
    rw [(hf v).1, (hf v).2]
    exact hb.header v hmem

/-- The region of a block is given back with the size in its header. -/
theorem freeRegion_eq (hb : Backed s live) (hv : blk ∈ live) :
    freeRegion .useMalloc s (getRegion blk.ptr) = .ok { s with
      appData := { s.appData with outstandingMemory :=
        s.appData.outstandingMemory - (regionSize blk.size).toInt64 }
      regions := s.regions.filter fun r ↦ r.start ≠ getRegion blk.ptr
      freed := getRegion blk.ptr :: s.freed } := by
  have hb' : Backed { s with appData := { s.appData with outstandingMemory :=
      s.appData.outstandingMemory - (regionSize blk.size).toInt64 } } live :=
    hb.write rfl fun _ ↦ .inl rfl
  rw [freeRegion, hb.readInt_eq hv, ok_bind]
  exact hb'.cFree_eq hv

/-- Once the region of a block is given back, the C library has it no more. -/
theorem freeRegion_ok (hb : Backed s live) (hv : blk ∈ live)
    (h : freeRegion .useMalloc s (getRegion blk.ptr) = .ok s') : s'.bytes = s.bytes ∧
      s'.regions = s.regions.filter fun r ↦ r.start ≠ getRegion blk.ptr := by
  rw [hb.freeRegion_eq hv] at h
  cases h
  exact ⟨rfl, rfl⟩

/-- Copying into the region of a block keeps the headers. -/
theorem copy (hb : Backed s live) {newRegion oldRegion : Int} {n : Nat}
    (hc : copyPayload .useMalloc newRegion oldRegion 0 n s = .ok s') : Backed s' live := by
  obtain ⟨he, hf⟩ := copyPayload_ok n hc
  apply hb.write (by rw [he])
  intro y
  by_cases hy : newRegion + sizeofInt ≤ y ∧ InBounds .useMalloc s newRegion y
  · exact .inr ⟨newRegion, hy⟩
  · exact .inl (hf y hy)

end Backed

/-! ### Runs -/

private theorem backed_step (hb : Backed x.state x.live)
    (he : x.step .useMalloc q = .ok (r', x')) : Backed x'.state x'.live := by
  have hst := step_spec he
  generalize q.call = c at hst
  cases hst with
  | notMade _ => exact hb
  | refused _ _ => exact hb
  | malloced hto _ => exact hb.malloc hto _
  | @realloced mem region newSize oldSz blk s₁ s₂ s hblk _ hto _ hc hf =>
    obtain ⟨rfl, l₁, l₂, hl, hw⟩ := World.block?_split hblk
    have hb₂ : Backed s₂ ((blk.movedTo (getMemory region) newSize s :: l₁) ++ blk :: l₂) :=
      (hl ▸ hb.malloc hto _).copy hc
    obtain ⟨hbytes, hregions⟩ := hb₂.freeRegion_ok (by simp) hf
    rw [hw]
    exact hb₂.release hbytes hregions
  | freedNull _ => exact hb
  | @freed mem blk s hblk hf =>
    obtain ⟨rfl, l₁, l₂, hl, hw⟩ := World.block?_split hblk
    have hv : blk ∈ x.live := by simp [hl]
    obtain ⟨r, hr, hs, _⟩ := hb.own blk hv
    have hpos := hb.positive r hr
    have hne : blk.ptr ≠ 0 := by unfold getRegion at hs; omega
    rw [cMemFree, if_neg hne, hb.cFree_eq hv] at hf
    cases hf
    rw [hw]
    exact (hl ▸ hb).release rfl rfl
  | @stored mem off _ _ _ _ _ hw =>
    obtain ⟨_, hin, rfl⟩ := writeByte_ok hw
    apply Backed.map
    · apply hb.write
      · rfl
      · intro y
        by_cases hy : y = getRegion mem + (sizeofInt + off : Nat)
        · exact .inr ⟨_, by rw [hy]; push_cast; omega, hy ▸ hin⟩
        · exact .inl (Function.update_of_ne hy _ _)
    · intro blk
      split <;> exact ⟨rfl, rfl⟩

private theorem arena_step {base : Int} {h0 : 0 < base} (hi : Issued (.arena base h0) x)
    (he : x.step (.arena base h0) q = .ok (r', x')) : Issued (.arena base h0) x' := by
  obtain ⟨hr, hf, hpos⟩ := hi
  have hpos' : ∀ blk ∈ x'.live, 0 < getRegion blk.ptr := by
    apply arena_forall (P := fun p _ ↦ 0 < getRegion p) he hpos
    intro sz _ _ hb
    rw [getRegion_getMemory]
    exact hb.pos
  have hst := step_spec he
  generalize q.call = c at hst
  cases hst with
  | notMade _ | refused _ _ | freedNull _ => exact ⟨hr, hf, hpos'⟩
  | malloced hto hreg =>
    obtain ⟨rfl, _, rfl⟩ := hto.arena_eq hreg
    exact ⟨hr, hf, hpos'⟩
  | realloced hblk _ hto hreg hc hfree =>
    obtain ⟨rfl, _, rfl⟩ := hto.arena_eq hreg
    obtain ⟨hsame, _⟩ := copyPayload_ok _ hc
    cases hfree
    exact ⟨by rw [hsame]; exact hr, by rw [hsame]; exact hf, hpos'⟩
  | @freed mem blk s hblk hfree =>
    obtain ⟨rfl, _⟩ := World.block?_split hblk
    have hreg := hpos blk (World.mem_live hblk)
    have hne : blk.ptr ≠ 0 := by unfold getRegion at hreg; omega
    rw [cMemFree, if_neg hne, cFree, if_neg (by omega), hr] at hfree
    cases hfree
  | stored _ _ hw =>
    obtain ⟨_, _, rfl⟩ := writeByte_ok hw
    exact ⟨hr, hf, hpos'⟩

/-- Every call keeps track of where the blocks come from. -/
theorem issued_step (hi : Issued b x) (he : x.step b q = .ok (r', x')) : Issued b x' := by
  cases b with
  | useMalloc => exact backed_step hi he
  | arena base h0 => exact arena_step hi he

/-- In every state of every run it is known where the blocks come from. -/
theorem reach_issued {ok : World → Request → Prop} (hr : (system b).Reach ok x) :
    Issued b x := by
  apply hr.invariant (P := Issued b)
  · rintro x ⟨hl, bytes, hs⟩
    cases b with
    | useMalloc => constructor <;> simp [hs, hl, State.start]
    | arena base h0 => exact ⟨by rw [hs]; rfl, by rw [hs]; rfl, by simp [hl]⟩
  · rintro x q x' hi _ ⟨r, he⟩
    exact issued_step hi he

/-- The region of a block is not at the null pointer. -/
theorem issued_pos (hi : Issued b x) (hv : blk ∈ x.live) : 0 < getRegion blk.ptr := by
  cases b with
  | useMalloc =>
    obtain ⟨r, hmem, hs, _⟩ := Backed.own hi blk hv
    exact hs ▸ Backed.positive hi r hmem
  | arena base h0 => exact hi.2.2 blk hv

/-! ### Releases -/

/-- In the arena build a block that is freed was not issued by `malloc`. -/
private theorem arena_free {base : Int} {h0 : 0 < base} (hi : Issued (.arena base h0) x)
    (hf : FreesBlock x q) : x.step (.arena base h0) q = .error .badRelease := by
  obtain ⟨hr, _, hpos⟩ := hi
  obtain ⟨c, offer⟩ := q
  obtain ⟨mem, blk, rfl, hblk⟩ := hf
  obtain ⟨rfl, _⟩ := World.block?_split hblk
  have hreg := hpos blk (World.mem_live hblk)
  have hne : blk.ptr ≠ 0 := by unfold getRegion at hreg; omega
  have hfree : cMemFree x.state blk.ptr = .error .badRelease := by
    rw [cMemFree, if_neg hne, cFree, if_neg (by omega), hr]
    rfl
  simp only [World.step, hblk, Option.isSome_some, or_true, if_true, hfree, error_bind]

/-- Asking for memory frees nothing. -/
private theorem cMemMalloc_fault {offer : Option Grant} {e : Fault}
    (he : cMemMalloc b s sz offer = .error e) : e ≠ .badRelease := by
  rcases bind_error he with he | ⟨⟨region, s⟩, _, he⟩
  · exact mallocRegion_fault he
  · dsimp only at he
    split at he <;> cases he

/-- Reallocating a block frees at most the block. -/
private theorem cMemRealloc_fault {newSize : Int32} {offer : Option Grant} {e : Fault}
    (hi : Issued b x) (hv : blk ∈ x.live)
    (he : cMemRealloc b x.state blk.ptr newSize offer = .error e) : e ≠ .badRelease := by
  rcases bind_error he with he | ⟨oldSz, _, he⟩
  · exact readInt_fault he
  rcases bind_error he with he | ⟨⟨region, s₁⟩, hr, he⟩
  · exact mallocRegion_fault he
  dsimp only at he
  split at he
  · cases he
  rcases bind_error he with he | ⟨s₂, hc, he⟩
  · exact copyPayload_fault _ he
  rcases bind_error he with he | ⟨s₃, _, he⟩
  · cases b with
    | arena base h0 => cases he
    | useMalloc =>
      have hb₂ := (Backed.malloc hi (mallocRegion_ok hr) blk.content).copy hc
      rw [hb₂.freeRegion_eq (List.mem_cons_of_mem _ hv)] at he
      cases he
  · cases he

/-- A bad release is one of a block in the arena build. -/
private theorem badRelease_cases (hi : Issued b x) (he : x.step b q = .error .badRelease) :
    b.IsArena ∧ FreesBlock x q := by
  obtain ⟨c, offer⟩ := q
  cases c with
  | xMalloc sz =>
    rcases bind_error he with he | ⟨⟨mem, s⟩, _, he⟩
    · exact absurd rfl (cMemMalloc_fault he)
    · dsimp only at he
      split at he <;> cases he
  | xRealloc mem newSize =>
    simp only [World.step] at he
    split at he
    · cases he
    next blk hblk =>
    obtain ⟨rfl, _⟩ := World.block?_split hblk
    rcases bind_error he with he | ⟨⟨mem', s⟩, _, he⟩
    · exact absurd rfl (cMemRealloc_fault hi (World.mem_live hblk) he)
    · dsimp only at he
      split at he <;> cases he
  | xFree mem =>
    simp only [World.step] at he
    split at he
    · next hmade =>
      rcases bind_error he with he | ⟨s, _, he⟩
      · have hne : mem ≠ 0 := by
          rintro rfl
          cases he
        obtain ⟨blk, hblk⟩ := Option.isSome_iff_exists.mp (hmade.resolve_left hne)
        refine ⟨?_, mem, blk, rfl, hblk⟩
        cases b with
        | arena base h0 => trivial
        | useMalloc =>
          obtain ⟨rfl, _⟩ := World.block?_split hblk
          rw [cMemFree, if_neg hne, Backed.cFree_eq hi (World.mem_live hblk)] at he
          cases he
      · cases he
    · cases he
  | store mem off c =>
    simp only [World.step] at he
    split at he
    · cases he
    · split at he
      · rcases bind_error he with he | ⟨s, _, he⟩
        · exact absurd rfl (writeByte_fault he)
        · cases he
      · cases he

/-- In every state of every run a call hands `free` nothing but what it may, and nothing at
all in the arena build, unless it frees a block of the arena. -/
theorem releasesProperly_iff {ok : World → Request → Prop} (hr : (system b).Reach ok x) :
    ReleasesProperly b x q ↔ ¬ (b.IsArena ∧ FreesBlock x q) := by
  have hi := reach_issued hr
  constructor
  · rintro ⟨hok, _⟩ ⟨harena, hf⟩
    cases b with
    | useMalloc => exact harena
    | arena base h0 => exact hok (arena_free hi hf)
  · intro hn
    refine ⟨fun he ↦ hn (badRelease_cases hi he), fun harena r x' he ↦ ?_⟩
    cases b with
    | useMalloc => exact harena.elim
    | arena base h0 => exact (issued_step hi he).2.1

end

/-- An arena. -/
def anArena : Build := .arena 4096 (by decide)

/-- Eight bytes are asked for. -/
def mallocEight : Request := ⟨.xMalloc 8, some ⟨8192, fun _ ↦ 0⟩⟩

/-- In the arena build the first block that is freed is handed to `free`, which never
returned it. -/
theorem not_releasesProperly : ¬ ∀ b x, (system b).Reach (fun _ _ ↦ True) x →
    ∀ q, ReleasesProperly b x q := by
  intro hall
  obtain ⟨x, hr, hp⟩ := exists_of_calls anArena (fun _ _ ↦ True) [mallocEight]
    (fun x ↦ (x.block? 4100).isSome) (by decide +kernel) fun _ _ _ ↦ trivial
  obtain ⟨blk, hblk⟩ := Option.isSome_iff_exists.mp hp
  have hfrees : FreesBlock x ⟨.xFree 4100, none⟩ := ⟨4100, blk, rfl, hblk⟩
  exact (hall anArena x hr ⟨.xFree 4100, none⟩).1 (arena_free (reach_issued hr) hfrees)

/-- In the `malloc` build the first block may be freed. -/
theorem releasesProperly_mallocEight : ∃ x : World, (x.block? 8196).isSome = true ∧
    ReleasesProperly .useMalloc x ⟨.xFree 8196, none⟩ := by
  obtain ⟨x, hr, hp⟩ := exists_of_calls .useMalloc (fun _ _ ↦ True) [mallocEight]
    (fun x ↦ (x.block? 8196).isSome) (by decide +kernel) fun _ _ _ ↦ trivial
  exact ⟨x, hp, (releasesProperly_iff hr).mpr fun h ↦ h.1⟩

end SqliteComposite.Mem

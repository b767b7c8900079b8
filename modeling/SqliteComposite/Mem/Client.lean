import SqliteComposite.Base.Run
import SqliteComposite.Mem.Access

/-!
# Runs of the allocator

The caller keeps the blocks it was given, with the sizes it asked for and the bytes it last
stored in them, and calls the memory methods in any order. A call on a block it does not
have, and a store outside the block, are not made. A call that faults has no successor.
-/

namespace SqliteComposite.Mem

open Base

/-- A block given out: its pointer, the size asked for, and the bytes last written to it or
copied into it. -/
structure Block where
  ptr : Int
  size : Int32
  content : Nat → Option UInt8

/-- The allocator and the blocks given out and not freed or reallocated since. -/
structure World where
  state : State
  live : List Block

/-- The calls of the allocator, and a byte the caller stores in a block. -/
inductive Call where
  | xMalloc (sz : Int32)
  | xRealloc (mem : Int) (newSize : Int32)
  | xFree (mem : Int)
  | store (mem : Int) (off : Nat) (c : UInt8)

/-- A call, and what the C library's `malloc` offers during it. -/
structure Request where
  call : Call
  offer : Option Grant

/-- What a call returns. -/
inductive Reply where
  | notMade
  | pointer (mem : Int)
  | done
  deriving DecidableEq

/-- The block once a byte is stored in it. -/
def Block.wrote (blk : Block) (off : Nat) (c : UInt8) : Block :=
  { blk with content := fun i ↦ if i = off then some c else blk.content i }

/-- The block `realloc` makes of an old one: the bytes last stored in the old block, and for
the rest of its bytes whatever was copied. -/
def Block.movedTo (blk : Block) (mem : Int) (newSize : Int32) (s : State) : Block where
  ptr := mem
  size := newSize
  content i := if (i : Int) < blk.size.toInt ∧ (i : Int) < newSize.toInt then
    some ((blk.content i).getD (s.bytes (mem + i))) else none

/-- What a block holds once a byte is stored in it. -/
theorem Block.wrote_content (blk : Block) (off : Nat) (c : UInt8) (i : Nat) :
    (blk.wrote off c).content i = if i = off then some c else blk.content i := rfl

/-- What a block holds once it was copied. -/
theorem Block.movedTo_content (blk : Block) (mem : Int) (newSize : Int32) (s : State) (i : Nat) :
    (blk.movedTo mem newSize s).content i =
      if (i : Int) < blk.size.toInt ∧ (i : Int) < newSize.toInt then
        some ((blk.content i).getD (s.bytes (mem + i))) else none := rfl

namespace World

/-- The block at a pointer. -/
def block? (x : World) (mem : Int) : Option Block := x.live.find? fun blk ↦ blk.ptr = mem

/-- The other blocks. -/
def without (x : World) (mem : Int) : List Block := x.live.eraseP fun blk ↦ blk.ptr = mem

/-- One call. -/
def step (b : Build) (x : World) (q : Request) : Except Fault (Reply × World) :=
  match q.call with
  | .xMalloc sz => do
    let (mem, s) ← cMemMalloc b x.state sz q.offer
    if mem = 0 then .ok (.pointer 0, { x with state := s })
    else .ok (.pointer mem, ⟨s, ⟨mem, sz, fun _ ↦ none⟩ :: x.live⟩)
  | .xRealloc mem newSize =>
    match x.block? mem with
    | none => .ok (.notMade, x)
    | some blk => do
      let (mem', s) ← cMemRealloc b x.state mem newSize q.offer
      if mem' = 0 then .ok (.pointer 0, { x with state := s })
      else .ok (.pointer mem', ⟨s, blk.movedTo mem' newSize s :: x.without mem⟩)
  | .xFree mem =>
    if mem = 0 ∨ (x.block? mem).isSome then do
      let s ← cMemFree x.state mem
      .ok (.done, ⟨s, x.without mem⟩)
    else .ok (.notMade, x)
  | .store mem off c =>
    match x.block? mem with
    | none => .ok (.notMade, x)
    | some blk =>
      if (off : Int) < blk.size.toInt then do
        let s ← writeByte b x.state (getRegion mem) (sizeofInt + off) c
        .ok (.done, ⟨s, x.live.map fun blk ↦ if blk.ptr = mem then blk.wrote off c else blk⟩)
      else .ok (.notMade, x)

end World

/-- The allocator from the start of the program on, in memory with any bytes. -/
def system (b : Build) : System World Request where
  init x := x.live = [] ∧ ∃ bytes, x.state = .start b bytes
  step x q x' := ∃ r, x.step b q = .ok (r, x')

/-- A call on a block the caller does not have, or outside of one. -/
inductive Stray (x : World) : Call → Prop
  | xRealloc {mem : Int} {newSize : Int32} :
      x.block? mem = none → Stray x (.xRealloc mem newSize)
  | xFree {mem : Int} : x.block? mem = none → Stray x (.xFree mem)
  | store {mem : Int} {off : Nat} {c : UInt8} :
      (∀ blk, x.block? mem = some blk → ¬ (off : Int) < blk.size.toInt) →
      Stray x (.store mem off c)

/-- The call asks for a region for a block of this size: a new one, or one to replace a block
the caller has. -/
def AsksFor (x : World) (q : Request) (sz : Int32) : Prop :=
  q.call = .xMalloc sz ∨ ∃ mem, q.call = .xRealloc mem sz ∧ (x.block? mem).isSome

/-- The call asks for a positive number of bytes. -/
def Positive (x : World) (q : Request) : Prop := ∀ sz, AsksFor x q sz → 0 < sz.toInt

/-- What a call does to the memory and the blocks. -/
inductive StepTo (b : Build) (x : World) : Call → Reply → World → Prop
  | notMade {c : Call} : Stray x c → StepTo b x c .notMade x
  | refused {c : Call} {sz : Int32} : (c = .xMalloc sz ∨ ∃ mem, c = .xRealloc mem sz) →
      MallocTo b x.state sz 0 x.state → StepTo b x c (.pointer 0) x
  | malloced {sz : Int32} {region : Int} {s : State} : MallocTo b x.state sz region s →
      0 < region → StepTo b x (.xMalloc sz) (.pointer (getMemory region))
        ⟨s, ⟨getMemory region, sz, fun _ ↦ none⟩ :: x.live⟩
  | realloced {mem region : Int} {newSize oldSz : Int32} {blk : Block} {s₁ s₂ s : State} :
      x.block? mem = some blk → getMemorySize b x.state mem = .ok oldSz →
      MallocTo b x.state newSize region s₁ → 0 < region →
      copyPayload b region (getRegion mem) 0 oldSz.toInt64.toUInt64.toNat s₁ = .ok s₂ →
      freeRegion b s₂ (getRegion mem) = .ok s →
      StepTo b x (.xRealloc mem newSize) (.pointer (getMemory region))
        ⟨s, blk.movedTo (getMemory region) newSize s :: x.without mem⟩
  | freedNull : x.block? 0 = none → StepTo b x (.xFree 0) .done x
  | freed {mem : Int} {blk : Block} {s : State} : x.block? mem = some blk →
      cMemFree x.state mem = .ok s → StepTo b x (.xFree mem) .done ⟨s, x.without mem⟩
  | stored {mem : Int} {off : Nat} {c : UInt8} {blk : Block} {s : State} :
      x.block? mem = some blk → (off : Int) < blk.size.toInt →
      writeByte b x.state (getRegion mem) (sizeofInt + off) c = .ok s →
      StepTo b x (.store mem off c) .done
        ⟨s, x.live.map fun blk ↦ if blk.ptr = mem then blk.wrote off c else blk⟩

section

variable {b : Build} {x x' : World} {q : Request} {r : Reply} {s s' : State} {sz : Int32}
  {region : Int}

/-- A header in the arena is not at the null pointer. -/
theorem HasHeader.pos {base : Int} {h0 : 0 < base} (h : HasHeader (.arena base h0) s region) :
    0 < region := by
  have h4 : sizeofInt = 4 := rfl
  obtain ⟨hge, _⟩ := h.2 region le_rfl (by omega)
  omega

/-- A region is null, and nothing has changed, or it is at a positive address. -/
theorem MallocTo.cases_region (h : MallocTo b s sz region s') :
    (region = 0 ∧ s' = s) ∨ 0 < region := by
  cases h with
  | exhausted _ => exact .inl ⟨rfl, rfl⟩
  | advanced _ hb => exact .inr hb.pos
  | granted hav _ _ => exact .inr hav.1

/-- A region the arena hands out is its next bytes. -/
theorem MallocTo.arena_eq {base : Int} {h0 : 0 < base}
    (h : MallocTo (.arena base h0) s sz region s') (hpos : 0 < region) :
    region = s.freeMemory ∧ HasHeader (.arena base h0) s s.freeMemory ∧ s' = { s with
      bytes := poke s.bytes s.freeMemory sz
      freeMemory := s.freeMemory + sz.toInt
      appData := s.appData.add sz } := by
  cases h with
  | exhausted _ => exact absurd hpos (lt_irrefl _)
  | advanced _ hb => exact ⟨rfl, hb, rfl⟩

/-- A region is handed out exactly when there is room. -/
theorem MallocTo.hasRoom (h : MallocTo b s sz region s') : HasRoom b s sz ↔ 0 < region := by
  cases h with
  | exhausted hfull => exact iff_of_false (not_lt.mpr hfull) (lt_irrefl _)
  | advanced hroom hb => exact iff_of_true hroom hb.pos
  | granted hav _ _ => exact iff_of_true trivial hav.1

/-- A request without room is refused. -/
theorem MallocTo.no_room (h : MallocTo b s sz 0 s') : ¬ HasRoom b s sz :=
  fun hroom ↦ absurd (h.hasRoom.mp hroom) (lt_irrefl _)

/-- A block and the others make up the blocks. -/
theorem World.block?_split {mem : Int} {blk : Block} (h : x.block? mem = some blk) :
    blk.ptr = mem ∧ ∃ l₁ l₂, x.live = l₁ ++ blk :: l₂ ∧ x.without mem = l₁ ++ l₂ := by
  obtain ⟨hp, l₁, l₂, hl, hn⟩ := List.find?_eq_some_iff_append.mp h
  refine ⟨of_decide_eq_true hp, l₁, l₂, hl, ?_⟩
  rw [World.without, hl, List.eraseP_append_right _ (by simpa using hn)]
  congr 1
  exact List.eraseP_cons_of_pos (p := fun blk : Block ↦ decide (blk.ptr = mem)) hp

/-- The block at a pointer is one of the blocks. -/
theorem World.mem_live {mem : Int} {blk : Block} (h : x.block? mem = some blk) : blk ∈ x.live :=
  List.mem_of_find?_eq_some h

/-- The other blocks are some of the blocks. -/
theorem World.without_sublist (x : World) (mem : Int) : (x.without mem).Sublist x.live :=
  List.eraseP_sublist

/-- Without a block that is not there, all blocks are left. -/
theorem World.without_none (x : World) {mem : Int} (h : x.block? mem = none) :
    x.without mem = x.live := by
  apply List.eraseP_of_forall_not
  simpa using List.find?_eq_none.mp h

/-- The payload of a region is not at the null pointer. -/
theorem getMemory_ne_zero (h : 0 < region) : getMemory region ≠ 0 := by
  unfold getMemory
  omega

/-- A block that was asked for is the payload of a region, or there was none. -/
theorem cMemMalloc_ok {offer : Option Grant} {mem : Int}
    (h : cMemMalloc b s sz offer = .ok (mem, s')) :
    ∃ region, mallocRegion b s sz offer = .ok (region, s') ∧ MallocTo b s sz region s' ∧
      ((region = 0 ∧ mem = 0 ∧ s' = s) ∨ (0 < region ∧ mem = getMemory region)) := by
  obtain ⟨⟨region, s₁⟩, hr, hret⟩ := bind_ok h
  have hto := mallocRegion_ok hr
  dsimp only at hret
  rcases hto.cases_region with ⟨h0, hsame⟩ | hpos
  · rw [if_pos h0] at hret
    cases hret
    exact ⟨region, hr, hto, .inl ⟨h0, rfl, hsame⟩⟩
  · rw [if_neg hpos.ne'] at hret
    cases hret
    exact ⟨region, hr, hto, .inr ⟨hpos, rfl⟩⟩

/-- A block that was reallocated was copied to the payload of a region and its own region
given back, or there was none. -/
theorem cMemRealloc_ok {offer : Option Grant} {mem mem' : Int} {newSize : Int32}
    (h : cMemRealloc b s mem newSize offer = .ok (mem', s')) :
    ∃ oldSz region s₁, getMemorySize b s mem = .ok oldSz ∧
      mallocRegion b s newSize offer = .ok (region, s₁) ∧ MallocTo b s newSize region s₁ ∧
      ((region = 0 ∧ mem' = 0 ∧ s₁ = s ∧ s' = s) ∨ (0 < region ∧ mem' = getMemory region ∧
        ∃ s₂, copyPayload b region (getRegion mem) 0 oldSz.toInt64.toUInt64.toNat s₁ = .ok s₂ ∧
          freeRegion b s₂ (getRegion mem) = .ok s')) := by
  obtain ⟨oldSz, ho, hrest⟩ := bind_ok h
  obtain ⟨⟨region, s₁⟩, hr, hrest⟩ := bind_ok hrest
  have hto := mallocRegion_ok hr
  dsimp only at hrest
  rcases hto.cases_region with ⟨h0, hsame⟩ | hpos
  · rw [if_pos h0] at hrest
    cases hrest
    exact ⟨oldSz, region, _, ho, hr, hto, .inl ⟨h0, rfl, hsame, hsame⟩⟩
  · rw [if_neg hpos.ne'] at hrest
    obtain ⟨s₂, hc, hrest⟩ := bind_ok hrest
    obtain ⟨s₃, hf, hrest⟩ := bind_ok hrest
    cases hrest
    exact ⟨oldSz, region, s₁, ho, hr, hto, .inr ⟨hpos, rfl, s₂, hc, hf⟩⟩

/-- Every call that returns refines its relation. -/
theorem step_spec (he : x.step b q = .ok (r, x')) : StepTo b x q.call r x' := by
  obtain ⟨c, offer⟩ := q
  cases c with
  | xMalloc sz =>
    obtain ⟨⟨mem, s⟩, hm, he⟩ := bind_ok he
    dsimp only at he
    obtain ⟨region, _, hto, ⟨rfl, rfl, rfl⟩ | ⟨hpos, rfl⟩⟩ := cMemMalloc_ok hm
    · cases he
      exact .refused (.inl rfl) hto
    · rw [if_neg (getMemory_ne_zero hpos)] at he
      cases he
      exact .malloced hto hpos
  | xRealloc mem newSize =>
    simp only [World.step] at he
    split at he
    · next hnone =>
      cases he
      exact .notMade (.xRealloc hnone)
    · next blk hblk =>
      obtain ⟨⟨mem', s⟩, hm, he⟩ := bind_ok he
      dsimp only at he
      obtain ⟨oldSz, region, s₁, ho, _, hto, ⟨rfl, rfl, rfl, rfl⟩ | ⟨hpos, rfl, s₂, hc, hf⟩⟩ :=
        cMemRealloc_ok hm
      · cases he
        exact .refused (.inr ⟨mem, rfl⟩) hto
      · rw [if_neg (getMemory_ne_zero hpos)] at he
        cases he
        exact .realloced hblk ho hto hpos hc hf
  | xFree mem =>
    simp only [World.step] at he
    split at he
    · next hmade =>
      obtain ⟨s, hf, he⟩ := bind_ok he
      cases he
      cases hblk : x.block? mem with
      | none =>
        obtain rfl : mem = 0 := hmade.resolve_right (by simp [hblk])
        cases hf
        rw [x.without_none hblk]
        exact .freedNull hblk
      | some blk => exact .freed hblk hf
    · next hmade =>
      cases he
      rw [not_or, Option.not_isSome_iff_eq_none] at hmade
      exact .notMade (.xFree hmade.2)
  | store mem off c =>
    simp only [World.step] at he
    split at he
    · next hnone =>
      cases he
      refine .notMade (.store fun blk hblk ↦ ?_)
      rw [hnone] at hblk
      cases hblk
    · next blk hblk =>
      split at he
      · next hlt =>
        obtain ⟨s, hw, he⟩ := bind_ok he
        cases he
        exact .stored hblk hlt hw
      · next hlt =>
        cases he
        refine .notMade (.store fun blk' hblk' ↦ ?_)
        rw [hblk] at hblk'
        cases hblk'
        exact hlt

/-- Reallocating a block asks for its new size. -/
theorem AsksFor.realloc {mem : Int} {newSize : Int32} {blk : Block}
    (h : x.block? mem = some blk) (offer : Option Grant) :
    AsksFor x ⟨.xRealloc mem newSize, offer⟩ newSize :=
  .inr ⟨mem, rfl, Option.isSome_iff_exists.mpr ⟨blk, h⟩⟩

/-- A call asks for one region. -/
theorem AsksFor.unique {sz' : Int32} (h : AsksFor x q sz) (h' : AsksFor x q sz') : sz' = sz := by
  rcases h with hc | ⟨_, hc, _⟩ <;> rcases h' with hc' | ⟨_, hc', _⟩ <;> rw [hc] at hc' <;>
    cases hc' <;> rfl

/-- A call that is not made asks for nothing. -/
theorem Stray.asks_none (h : Stray x q.call) : ¬ AsksFor x q sz := by
  rintro (hc | ⟨mem, hc, hsome⟩) <;> rw [hc] at h <;> cases h
  next hnone => simp [hnone] at hsome

/-- A call that returns has its region from `_malloc_region`, and returns its payload. -/
theorem step_region (ha : AsksFor x q sz) (he : x.step b q = .ok (r, x')) : ∃ region s,
    mallocRegion b x.state sz q.offer = .ok (region, s) ∧
      r = .pointer (if region = 0 then 0 else getMemory region) := by
  obtain ⟨c, offer⟩ := q
  rcases ha with hc | ⟨mem, hc, hsome⟩ <;> cases hc
  · obtain ⟨⟨mem, s⟩, hm, he⟩ := bind_ok he
    dsimp only at he
    obtain ⟨region, hr, _, ⟨rfl, rfl, rfl⟩ | ⟨hpos, rfl⟩⟩ := cMemMalloc_ok hm
    · cases he
      exact ⟨0, _, hr, rfl⟩
    · rw [if_neg (getMemory_ne_zero hpos)] at he
      cases he
      exact ⟨region, s, hr, by rw [if_neg hpos.ne']⟩
  · obtain ⟨blk, hblk⟩ := Option.isSome_iff_exists.mp hsome
    simp only [World.step, hblk] at he
    obtain ⟨⟨mem', s⟩, hm, he⟩ := bind_ok he
    dsimp only at he
    obtain ⟨_, region, s₁, _, hr, _, ⟨rfl, rfl, rfl, rfl⟩ | ⟨hpos, rfl, _⟩⟩ := cMemRealloc_ok hm
    · cases he
      exact ⟨0, _, hr, rfl⟩
    · rw [if_neg (getMemory_ne_zero hpos)] at he
      cases he
      exact ⟨region, s₁, hr, by rw [if_neg hpos.ne']⟩

/-- The block that is stored to keeps its place and its size. -/
theorem wrote_frame (mem : Int) (off : Nat) (c : UInt8) (blk : Block) :
    (if blk.ptr = mem then blk.wrote off c else blk).ptr = blk.ptr ∧
      (if blk.ptr = mem then blk.wrote off c else blk).size = blk.size := by
  split <;> exact ⟨rfl, rfl⟩

/-! ### Calls in the arena -/

section Arena

variable {base : Int} {h0 : 0 < base}

/-- In the arena `_free_memory` moves by the size of the region that is handed out. -/
theorem arena_freeMemory (he : x.step (.arena base h0) q = .ok (r, x')) :
    x'.state.freeMemory = x.state.freeMemory ∨
      ∃ sz, AsksFor x q sz ∧ HasRoom (.arena base h0) x.state sz ∧
        x'.state.freeMemory = x.state.freeMemory + sz.toInt := by
  have hst := step_spec he
  obtain ⟨c, offer⟩ := q
  dsimp only at hst
  cases hst with
  | notMade _ | refused _ _ | freedNull _ => exact .inl rfl
  | malloced hto hpos =>
    have hroom := hto.hasRoom.mpr hpos
    obtain ⟨rfl, _, rfl⟩ := hto.arena_eq hpos
    exact .inr ⟨_, .inl rfl, hroom, rfl⟩
  | realloced hblk _ hto hpos hc hf =>
    have hroom := hto.hasRoom.mpr hpos
    obtain ⟨rfl, _, rfl⟩ := hto.arena_eq hpos
    obtain ⟨hsame, _⟩ := copyPayload_ok _ hc
    cases hf
    exact .inr ⟨_, .realloc hblk offer, hroom, by rw [hsame]⟩
  | freed _ hf => exact .inl (by rw [cMemFree_ok hf])
  | stored _ _ hw =>
    obtain ⟨_, _, rfl⟩ := writeByte_ok hw
    exact .inl rfl

/-- What holds of every block, for its place and its size, holds after a call when it holds of
the region at `_free_memory` that the call hands out. -/
theorem arena_forall {P : Int → Int32 → Prop} (he : x.step (.arena base h0) q = .ok (r, x'))
    (hp : ∀ v ∈ x.live, P v.ptr v.size)
    (hnew : ∀ sz, AsksFor x q sz → HasRoom (.arena base h0) x.state sz →
      HasHeader (.arena base h0) x.state x.state.freeMemory →
      P (getMemory x.state.freeMemory) sz) : ∀ v ∈ x'.live, P v.ptr v.size := by
  have hst := step_spec he
  obtain ⟨c, offer⟩ := q
  dsimp only at hst
  cases hst with
  | notMade _ | refused _ _ | freedNull _ => exact hp
  | malloced hto hpos =>
    have hroom := hto.hasRoom.mpr hpos
    obtain ⟨rfl, hb, rfl⟩ := hto.arena_eq hpos
    intro v hv
    rcases List.mem_cons.mp hv with rfl | hv
    · exact hnew _ (.inl rfl) hroom hb
    · exact hp v hv
  | realloced hblk _ hto hpos _ _ =>
    have hroom := hto.hasRoom.mpr hpos
    obtain ⟨rfl, hb, rfl⟩ := hto.arena_eq hpos
    intro v hv
    rcases List.mem_cons.mp hv with rfl | hv
    · exact hnew _ (.realloc hblk offer) hroom hb
    · exact hp v ((x.without_sublist _).mem hv)
  | freed _ _ => exact fun v hv ↦ hp v ((x.without_sublist _).mem hv)
  | @stored mem off c _ _ _ _ _ =>
    intro v hv
    obtain ⟨u, hu, rfl⟩ := List.mem_map.mp hv
    rw [(wrote_frame mem off c u).1, (wrote_frame mem off c u).2]
    exact hp u hu

end Arena

/-! ### Concrete runs -/

/-- The next state, when the call returns. -/
def World.next (b : Build) (x : World) (q : Request) : Option World :=
  match x.step b q with
  | .ok (_, x') => some x'
  | .error _ => none

/-- What is found after calls that meet a condition wherever they are made holds in a state
of a run of such calls. -/
theorem exists_of_calls (b : Build) (ok : World → Request → Prop) (qs : List Request)
    (P : World → Bool)
    (hc : (qs.foldlM (World.next b) ⟨.start b fun _ ↦ 0, []⟩).any P = true)
    (hok : ∀ q ∈ qs, ∀ x, ok x q) : ∃ x, (system b).Reach ok x ∧ P x = true := by
  obtain ⟨x, he, hp⟩ := (Option.any_eq_true _ _).mp hc
  have hstart : (system b).Reach ok ⟨.start b fun _ ↦ 0, []⟩ := .start ⟨rfl, _, rfl⟩
  refine ⟨x, hstart.follow ?_ he hok, hp⟩
  intro x q x' hn
  unfold World.next at hn
  split at hn
  · next r y hs =>
    cases hn
    exact ⟨r, hs⟩
  · cases hn

end
end SqliteComposite.Mem

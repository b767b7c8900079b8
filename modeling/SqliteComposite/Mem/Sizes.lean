import SqliteComposite.Mem.Reallocation

/-!
# Sizes that stay readable

`cMemSize` reads the size of a block from its header. In the arena the header of a region lies on
the last four bytes of the one before, so that a caller keeps the headers when every block has at
least four bytes and no byte of a header is stored to. Shrinking a block is allowed.
-/

namespace SqliteComposite.Mem

open Base

/-- The call asks for some bytes, in the arena build for as many as a header has, and there it
stores to no header. -/
structure Careful (b : Build) (x : World) (q : Request) : Prop where
  positive : Positive x q
  header : b.IsArena → ∀ sz, AsksFor x q sz → sizeofInt ≤ sz.toInt
  store : b.IsArena → ∀ mem off c, q.call = .store mem off c → (x.block? mem).isSome →
    ∀ v ∈ x.live, ¬ (getRegion v.ptr ≤ mem + off ∧ mem + off < v.ptr)

/-- Every block has its size in its header. -/
def Sized (b : Build) (x : World) : Prop :=
  ∀ blk ∈ x.live, cMemSize b x.state blk.ptr = .ok blk.size

/-- The regions lie in the arena one after another, each with room for the next header and with
its size in its own. -/
structure Headed (base : Int) (x : World) : Prop where
  placed : Placed base x
  least : ∀ blk ∈ x.live, sizeofInt ≤ blk.size.toInt
  header : ∀ blk ∈ x.live, Header x.state (getRegion blk.ptr) blk.size

section

variable {b : Build} {base : Int} {h0 : 0 < base} {x x' : World} {q : Request} {r : Reply}
  {s s₁ s₂ : State} {sz : Int32}

namespace Headed

/-- The headers end where the next region starts. -/
theorem header_lt (hh : Headed base x) {blk : Block} (hv : blk ∈ x.live) :
    getRegion blk.ptr + sizeofInt ≤ x.state.freeMemory := by
  have hleast := hh.least blk hv
  have hwithin := (hh.placed.stacked.within blk hv).2.2
  omega

/-- The headers are where they were when only bytes past `_free_memory` have changed. -/
theorem header_past (hh : Headed base x) {s : State}
    (hf : ∀ y, y < x.state.freeMemory → s.bytes y = x.state.bytes y) {blk : Block}
    (hv : blk ∈ x.live) : Header s (getRegion blk.ptr) blk.size := by
  have hlt := hh.header_lt hv
  exact (hh.header blk hv).of_eq fun y _ hy ↦ hf y (by omega)

/-- The header that is written is that of the region handed out. -/
theorem poke_past (x : World) (y : Int) (hy : y < x.state.freeMemory) :
    poke x.state.bytes x.state.freeMemory sz y = x.state.bytes y := by
  rw [poke, if_neg (by omega)]

/-- The blocks of a careful caller keep their headers. -/
theorem step (hh : Headed base x) (hc : Careful (.arena base h0) x q)
    (he : x.step (.arena base h0) q = .ok (r, x')) : Headed base x' := by
  have hplaced := hh.placed.step hc.positive he
  have hleast : ∀ blk ∈ x'.live, sizeofInt ≤ blk.size.toInt := by
    apply arena_forall (P := fun _ sz ↦ sizeofInt ≤ sz.toInt) he hh.least
    exact fun sz ha _ _ ↦ hc.header trivial sz ha
  refine ⟨hplaced, hleast, ?_⟩
  have hst := step_spec he
  obtain ⟨c, offer⟩ := q
  dsimp only at hst
  cases hst with
  | notMade _ | refused _ _ | freedNull _ => exact hh.header
  | malloced hto hpos =>
    obtain ⟨rfl, _, rfl⟩ := hto.arena_eq hpos
    intro blk hv
    rcases List.mem_cons.mp hv with rfl | hv
    · rw [getRegion_getMemory]
      exact header_poke _ rfl
    · exact hh.header_past (poke_past x) hv
  | @realloced mem _ newSize _ _ _ s₂ _ _ _ hto hpos hcopy hfree =>
    obtain ⟨rfl, _, rfl⟩ := hto.arena_eq hpos
    obtain ⟨_, hf⟩ := copyPayload_ok _ hcopy
    cases hfree
    have hsame (y : Int) (hy : y < x.state.freeMemory + sizeofInt) :
        s₂.bytes y = poke x.state.bytes x.state.freeMemory newSize y :=
      hf y fun h ↦ by omega
    intro blk hv
    rcases List.mem_cons.mp hv with rfl | hv
    · change Header s₂ (getRegion (getMemory x.state.freeMemory)) newSize
      rw [getRegion_getMemory]
      intro k hk
      rw [hsame _ (by omega), poke, if_pos (by omega)]
      congr 1
      omega
    · apply hh.header_past _ ((x.without_sublist mem).mem hv)
      intro y hy
      rw [hsame y (by omega), poke_past x y hy]
  | @freed mem _ s _ hfree =>
    intro blk hv
    have hbytes : s.bytes = x.state.bytes := by rw [cMemFree_ok hfree]
    exact (hh.header blk ((x.without_sublist mem).mem hv)).of_eq fun y _ _ ↦ by rw [hbytes]
  | @stored mem off c old s hblk _ hw =>
    obtain ⟨_, _, rfl⟩ := writeByte_ok hw
    intro blk hv
    obtain ⟨v, hmem, rfl⟩ := List.mem_map.mp hv
    rw [(wrote_frame mem off c v).1, (wrote_frame mem off c v).2]
    apply (hh.header v hmem).of_eq
    intro y hlo hhi
    apply Function.update_of_ne
    rintro rfl
    apply hc.store trivial mem off c rfl (by rw [hblk]; rfl) v hmem
    unfold getRegion at *
    push_cast at *
    omega

end Headed

/-- In every run of a careful caller the regions keep their headers in the arena. -/
theorem reach_headed (hr : (system (.arena base h0)).Reach (Careful (.arena base h0)) x) :
    Headed base x := by
  apply hr.invariant (P := Headed base)
  · intro x hinit
    have hrun : (system (.arena base h0)).Reach Positive x := .start hinit
    have hplaced := reach_placed hrun
    exact ⟨hplaced, by simp [hinit.1], by simp [hinit.1]⟩
  · rintro x q x' hh hc ⟨r, he⟩
    exact hh.step hc he

/-- In every run of a careful caller every block has the size it was given. -/
theorem reach_sized (hr : (system b).Reach (Careful b) x) : Sized b x := by
  cases b with
  | useMalloc =>
    have hh := reach_housed (hr.mono fun _ _ hc ↦ hc.positive)
    exact fun blk hv ↦ hh.backed.readInt_eq hv
  | arena base h0 =>
    have hh := reach_headed hr
    exact fun blk hv ↦ readInt_eq (hh.placed.hasHeader hv) (hh.header blk hv)

/-- A region that is handed out is not that of a block. -/
theorem reach_fresh {ok : World → Request → Prop} {region : Int}
    (hr : (system b).Reach ok x) (hw : ∀ x q, ok x q → Positive x q) {blk : Block}
    (hv : blk ∈ x.live) (hto : MallocTo b x.state sz region s) (hpos : 0 < region) :
    getMemory region ≠ blk.ptr := by
  have hne : region ≠ getRegion blk.ptr := by
    cases b with
    | useMalloc =>
      cases hto with
      | granted hav _ _ => exact (reach_housed (hr.mono hw)).backed.granted_ne hv hav
    | arena base h0 =>
      obtain ⟨rfl, _⟩ := hto.arena_eq hpos
      have hwithin := (reach_placed (hr.mono hw)).stacked.within blk hv
      omega
  unfold getMemory
  unfold getRegion at hne
  omega

/-- No block is empty. -/
theorem reach_size_pos (hr : (system b).Reach Positive x) {blk : Block} (hv : blk ∈ x.live) :
    0 < blk.size.toInt := by
  cases b with
  | useMalloc => exact ((reach_housed hr).region blk hv).1
  | arena base h0 => exact ((reach_placed hr).stacked.within blk hv).2.1

/-- Blocks have pointers of their own. -/
theorem reach_nodup (hr : (system b).Reach Positive x) : (x.live.map Block.ptr).Nodup := by
  cases b with
  | useMalloc => exact (reach_housed hr).backed.distinct
  | arena base h0 =>
    have hst := (reach_placed hr).stacked
    rw [List.Nodup, List.pairwise_map]
    apply hst.order.imp_of_mem
    intro u v _ hv hle he
    have hpos := (hst.within v hv).2.1
    rw [he] at hle
    omega

/-- No block is at the null pointer. -/
theorem reach_ptr_ne {ok : World → Request → Prop} (hr : (system b).Reach ok x) {blk : Block}
    (hv : blk ∈ x.live) : blk.ptr ≠ 0 := by
  have hpos := issued_pos (reach_issued hr) hv
  unfold getRegion at hpos
  omega

end
end SqliteComposite.Mem

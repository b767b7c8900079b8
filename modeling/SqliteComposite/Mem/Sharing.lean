import SqliteComposite.Mem.Sizes

/-!
# Callers that share the allocator

SQLite and the VFS call the memory methods, each on blocks of its own. The blocks of them all are
those of one run of the allocator, in some order. A call that one of them makes on its own blocks
is the same call on all the blocks, and leaves the others' where they are.
-/

namespace SqliteComposite.Mem

open Base

/-- The blocks of a caller together with those of the others. -/
def World.beside (x : World) (others : List Block) : World := ⟨x.state, x.live ++ others⟩

/-- The blocks of a caller and those of the others are, in some order, the blocks of a run of
careful calls. -/
def Shares (b : Build) (others : List Block) (x : World) : Prop :=
  ∃ live, live.Perm (x.live ++ others) ∧ (system b).Reach (Careful b) ⟨x.state, live⟩

section

variable {b : Build} {x x' : World} {q : Request} {r : Reply} {s s' : State} {sz : Int32}
  {blk : Block} {mem : Int} {live live' others : List Block} {offer : Option Grant}

/-! ### Calls that return -/

/-- Nothing changes when no block is left. -/
theorem cMemMalloc_null (he : cMemMalloc b s sz offer = .ok (0, s')) : s' = s := by
  obtain ⟨_, _, _, ⟨_, _, hsame⟩ | ⟨hpos, h0⟩⟩ := cMemMalloc_ok he
  · exact hsame
  · exact absurd h0.symm (getMemory_ne_zero hpos)

/-- Nothing changes when there is none to take the place of a block. -/
theorem cMemRealloc_null (he : cMemRealloc b s mem sz offer = .ok (0, s')) : s' = s := by
  obtain ⟨_, _, _, _, _, _, ⟨_, _, _, hsame⟩ | ⟨hpos, h0, _⟩⟩ := cMemRealloc_ok he
  · exact hsame
  · exact absurd h0.symm (getMemory_ne_zero hpos)

/-- A block is given out. -/
theorem step_xMalloc (he : cMemMalloc b x.state sz offer = .ok (mem, s)) (hp : mem ≠ 0) :
    x.step b ⟨.xMalloc sz, offer⟩ =
      .ok (.pointer mem, ⟨s, ⟨mem, sz, fun _ ↦ none⟩ :: x.live⟩) := by
  simp only [World.step, he, ok_bind, if_neg hp]

/-- A block is replaced. -/
theorem step_xRealloc {mem' : Int} (hblk : x.block? mem = some blk)
    (he : cMemRealloc b x.state mem sz offer = .ok (mem', s)) (hp : mem' ≠ 0) :
    x.step b ⟨.xRealloc mem sz, offer⟩ =
      .ok (.pointer mem', ⟨s, blk.movedTo mem' sz s :: x.without mem⟩) := by
  simp only [World.step, hblk, he, ok_bind, if_neg hp]

/-- A block is freed. -/
theorem step_xFree (hblk : x.block? mem = some blk) (he : cMemFree x.state mem = .ok s) :
    x.step b ⟨.xFree mem, offer⟩ = .ok (.done, ⟨s, x.without mem⟩) := by
  simp only [World.step, hblk, Option.isSome_some, or_true, if_true, he, ok_bind]

/-- A byte is stored in a block. -/
theorem step_store {off : Nat} {c : UInt8} (hblk : x.block? mem = some blk)
    (hlt : (off : Int) < blk.size.toInt)
    (he : writeByte b x.state (getRegion mem) (sizeofInt + off) c = .ok s) :
    x.step b ⟨.store mem off c, offer⟩ = .ok (.done,
      ⟨s, x.live.map fun v ↦ if v.ptr = mem then v.wrote off c else v⟩) := by
  simp only [World.step, hblk, if_pos hlt, he, ok_bind]

/-! ### Blocks in another order -/

/-- A block is found at its pointer when no other one is there. -/
theorem World.block?_eq (hn : (x.live.map Block.ptr).Nodup) (hv : blk ∈ x.live) :
    x.block? blk.ptr = some blk := by
  have hsome : (x.block? blk.ptr).isSome :=
    List.find?_isSome.mpr ⟨blk, hv, decide_eq_true rfl⟩
  obtain ⟨v, hv'⟩ := Option.isSome_iff_exists.mp hsome
  obtain ⟨hptr, _⟩ := World.block?_split hv'
  rw [hv', List.inj_on_of_nodup_map hn (World.mem_live hv') hv hptr]

/-- Whether there is a block at a pointer does not depend on the order. -/
theorem block?_isSome_perm (hp : live.Perm live') : (World.block? ⟨s, live⟩ mem).isSome ↔
    (World.block? ⟨s, live'⟩ mem).isSome := by
  simp only [World.block?, List.find?_isSome, hp.mem_iff]

/-- A caller is careful whatever the order of the blocks is. -/
theorem Careful.perm (hc : Careful b ⟨s, live⟩ q) (hp : live.Perm live') :
    Careful b ⟨s, live'⟩ q := by
  have hasks {sz : Int32} (ha : AsksFor ⟨s, live'⟩ q sz) : AsksFor ⟨s, live⟩ q sz := by
    rcases ha with hcall | ⟨mem, hcall, hsome⟩
    · exact .inl hcall
    · exact .inr ⟨mem, hcall, (block?_isSome_perm hp).mpr hsome⟩
  refine ⟨fun sz ha ↦ hc.positive sz (hasks ha), fun hb sz ha ↦ hc.header hb sz (hasks ha), ?_⟩
  intro hb mem off c hcall hsome v hv
  exact hc.store hb mem off c hcall ((block?_isSome_perm hp).mpr hsome) v (hp.mem_iff.mpr hv)

/-- The other blocks, in another order. -/
theorem without_perm (hp : live.Perm (x.live ++ others)) (hn : (live.map Block.ptr).Nodup)
    (hblk : x.block? mem = some blk) :
    (World.without ⟨s, live⟩ mem).Perm (x.without mem ++ others) := by
  have hone : live.Pairwise fun u v ↦ decide (u.ptr = mem) = true →
      decide (v.ptr = mem) = true → False := by
    rw [List.Nodup, List.pairwise_map] at hn
    refine hn.imp fun hne hu hv ↦ hne ?_
    rw [of_decide_eq_true hu, of_decide_eq_true hv]
  have herase := hp.eraseP (fun v ↦ decide (v.ptr = mem)) hone
  rwa [List.eraseP_append_left (p := fun v ↦ decide (v.ptr = mem))
    (decide_eq_true (World.block?_split hblk).1) _ (World.mem_live hblk)] at herase

/-- Storing in a block, in another order. -/
theorem wrote_perm {off : Nat} {c : UInt8} (hp : live.Perm (x.live ++ others))
    (hn : (live.map Block.ptr).Nodup) (hblk : x.block? mem = some blk) :
    (live.map fun v ↦ if v.ptr = mem then v.wrote off c else v).Perm
      ((x.live.map fun v ↦ if v.ptr = mem then v.wrote off c else v) ++ others) := by
  obtain ⟨hptr, _⟩ := World.block?_split hblk
  have hn' : ((x.live ++ others).map Block.ptr).Nodup := (hp.map Block.ptr).nodup_iff.mp hn
  rw [List.map_append, List.nodup_append] at hn'
  obtain ⟨_, _, hne⟩ := hn'
  have hothers : (others.map fun v ↦ if v.ptr = mem then v.wrote off c else v) = others := by
    refine (List.map_congr_left fun v hv ↦ ?_).trans (List.map_id others)
    refine if_neg fun he ↦ ?_
    exact hne _ (List.mem_map_of_mem (World.mem_live hblk)) _ (List.mem_map_of_mem hv)
      (hptr.trans he.symm)
  have hmap := hp.map fun v ↦ if v.ptr = mem then v.wrote off c else v
  rwa [List.map_append, hothers] at hmap

/-- A call on the blocks of one caller changes nothing, or is the same call on all the blocks. -/
theorem step_frame (hp : live.Perm (x.live ++ others)) (hn : (live.map Block.ptr).Nodup)
    (he : x.step b q = .ok (r, x')) : x' = x ∨ ∃ live', live'.Perm (x'.live ++ others) ∧
      World.step b ⟨x.state, live⟩ q = .ok (r, ⟨x'.state, live'⟩) := by
  have hwhole {mem : Int} {blk : Block} (hblk : x.block? mem = some blk) :
      World.block? ⟨x.state, live⟩ mem = some blk := by
    obtain ⟨rfl, _⟩ := World.block?_split hblk
    exact World.block?_eq hn (hp.mem_iff.mpr (List.mem_append_left _ (World.mem_live hblk)))
  obtain ⟨c, offer⟩ := q
  cases c with
  | xMalloc sz =>
    obtain ⟨⟨mem, s⟩, hm, he⟩ := bind_ok he
    dsimp only at he
    by_cases h0 : mem = 0
    · subst h0
      obtain rfl := cMemMalloc_null hm
      cases he
      exact .inl rfl
    · rw [if_neg h0] at he
      cases he
      exact .inr ⟨_, hp.cons _, step_xMalloc (x := ⟨x.state, live⟩) hm h0⟩
  | xRealloc mem newSize =>
    simp only [World.step] at he
    cases hblk : x.block? mem with
    | none =>
      simp only [hblk] at he
      cases he
      exact .inl rfl
    | some blk =>
      simp only [hblk] at he
      obtain ⟨⟨mem', s⟩, hm, he⟩ := bind_ok he
      dsimp only at he
      by_cases h0 : mem' = 0
      · subst h0
        obtain rfl := cMemRealloc_null hm
        cases he
        exact .inl rfl
      · rw [if_neg h0] at he
        cases he
        exact .inr ⟨_, (without_perm hp hn hblk).cons _,
          step_xRealloc (x := ⟨x.state, live⟩) (hwhole hblk) hm h0⟩
  | xFree mem =>
    simp only [World.step] at he
    split at he
    · next hmade =>
      obtain ⟨s, hf, he⟩ := bind_ok he
      cases he
      cases hblk : x.block? mem with
      | none =>
        obtain rfl : mem = 0 := hmade.resolve_right (by simp [hblk])
        cases hf
        rw [x.without_none hblk]
        exact .inl rfl
      | some blk =>
        exact .inr ⟨_, without_perm hp hn hblk,
          step_xFree (x := ⟨x.state, live⟩) (hwhole hblk) hf⟩
    · cases he
      exact .inl rfl
  | store mem off c =>
    simp only [World.step] at he
    cases hblk : x.block? mem with
    | none =>
      simp only [hblk] at he
      cases he
      exact .inl rfl
    | some blk =>
      simp only [hblk] at he
      by_cases hlt : (off : Int) < blk.size.toInt
      · rw [if_pos hlt] at he
        obtain ⟨s, hw, he⟩ := bind_ok he
        cases he
        exact .inr ⟨_, wrote_perm hp hn hblk,
          step_store (x := ⟨x.state, live⟩) (hwhole hblk) hlt hw⟩
      · rw [if_neg hlt] at he
        cases he
        exact .inl rfl

/-! ### What a caller knows of its blocks -/

namespace Shares

/-- The blocks of one caller have those of the other for others. -/
theorem swap (hs : Shares b others x) : Shares b x.live ⟨x.state, others⟩ := by
  obtain ⟨live, hp, hr⟩ := hs
  exact ⟨live, hp.trans List.perm_append_comm, hr⟩

/-- A careful call keeps the blocks of all callers those of a run. -/
theorem step (hs : Shares b others x) (hc : Careful b (x.beside others) q)
    (he : x.step b q = .ok (r, x')) : Shares b others x' := by
  obtain ⟨live, hp, hr⟩ := hs
  have hn := reach_nodup (hr.mono fun _ _ hc ↦ hc.positive)
  rcases step_frame hp hn he with rfl | ⟨live', hp', he'⟩
  · exact ⟨live, hp, hr⟩
  · exact ⟨live', hp', .next hr (hc.perm hp.symm) ⟨r, he'⟩⟩

/-- Blocks have pointers of their own. -/
theorem nodup (hs : Shares b others x) : ((x.live ++ others).map Block.ptr).Nodup := by
  obtain ⟨live, hp, hr⟩ := hs
  exact (hp.map Block.ptr).nodup_iff.mp (reach_nodup (hr.mono fun _ _ hc ↦ hc.positive))

/-- The run has every block where the caller has it. -/
theorem whole (hs : Shares b others x) : ∃ w, (system b).Reach (Careful b) w ∧
    w.state = x.state ∧ (∀ v, v ∈ w.live ↔ v ∈ x.live ++ others) ∧
      ∀ mem blk, x.block? mem = some blk → w.block? mem = some blk := by
  obtain ⟨live, hp, hr⟩ := hs
  refine ⟨_, hr, rfl, fun v ↦ hp.mem_iff, fun mem blk hblk ↦ ?_⟩
  obtain ⟨rfl, _⟩ := World.block?_split hblk
  exact World.block?_eq (reach_nodup (hr.mono fun _ _ hc ↦ hc.positive))
    (hp.mem_iff.mpr (List.mem_append_left _ (World.mem_live hblk)))

/-- Every block has the size it was given. -/
theorem sized (hs : Shares b others x) : Sized b x := by
  obtain ⟨live, hp, hr⟩ := hs
  exact fun v hv ↦ reach_sized hr v (hp.mem_iff.mpr (List.mem_append_left _ hv))

/-- In the arena the next region is in it. -/
theorem floor {base : Int} {h0 : 0 < base} (hs : Shares (.arena base h0) others x) :
    base ≤ x.state.freeMemory := by
  obtain ⟨live, _, hr⟩ := hs
  exact (reach_headed hr).placed.stacked.floor

/-- No block is empty. -/
theorem size_pos (hs : Shares b others x) (hv : blk ∈ x.live) : 0 < blk.size.toInt := by
  obtain ⟨live, hp, hr⟩ := hs
  exact reach_size_pos (hr.mono fun _ _ hc ↦ hc.positive)
    (hp.mem_iff.mpr (List.mem_append_left _ hv))

/-- No block is at the null pointer. -/
theorem ptr_ne (hs : Shares b others x) (hv : blk ∈ x.live) : blk.ptr ≠ 0 := by
  obtain ⟨live, hp, hr⟩ := hs
  exact reach_ptr_ne hr (hp.mem_iff.mpr (List.mem_append_left _ hv))

/-- A region that is handed out is not that of a block. -/
theorem fresh {region : Int} (hs : Shares b others x) (hv : blk ∈ x.live ++ others)
    (hto : MallocTo b x.state sz region s) (hpos : 0 < region) :
    getMemory region ≠ blk.ptr := by
  obtain ⟨live, hp, hr⟩ := hs
  exact reach_fresh hr (fun _ _ hc ↦ hc.positive) (hp.mem_iff.mpr hv) hto hpos

end Shares

end
end SqliteComposite.Mem

import SqliteComposite.Mem.Release

/-!
# The alignment of blocks

SQLite requires of every block that it starts at a multiple of eight. A block starts behind a
header of four bytes: in a region of the C library's `malloc` it never does, and in the arena
only when the sizes handed out before leave the remainder four.
-/

namespace SqliteComposite.Mem

open Base

/-- The arena starts at a multiple of eight. -/
def AlignedBuild : Build → Prop
  | .useMalloc => True
  | .arena base _ => 8 ∣ base

/-- The C library's `malloc` returns multiples of eight. -/
def AlignedOffer (q : Request) : Prop := ∀ g, q.offer = some g → 8 ∣ g.addr

/-- The call asks for a positive size that `cMemRoundup` has returned. -/
def RoundedUp (x : World) (q : Request) : Prop :=
  ∀ sz, AsksFor x q sz → ∃ n : Int32, 0 < n.toInt ∧ sz = cMemRoundup n

/-- The size a call asks for. -/
def Call.size : Call → Int
  | .xMalloc sz => sz.toInt
  | .xRealloc _ newSize => newSize.toInt
  | _ => 0

/-- The pointer a call returns, if it is not null, with the size asked for. -/
def returned (b : Build) (x : World) (q : Request) : List (Int × Int) :=
  match x.step b q with
  | .ok (.pointer mem, _) => if mem = 0 then [] else [(mem, q.call.size)]
  | _ => []

/-- The allocator with a record of the pointers it has returned, the last one first. -/
def pointing (b : Build) : System (World × List (Int × Int)) Request :=
  (system b).withPast [] fun x q _ g ↦ returned b x q ++ g

/-- A pointer is a multiple of eight exactly when it is one of the arena and the sizes handed
out before it leave the remainder four. -/
def AlignedAfter (b : Build) (p : Int) (before : List (Int × Int)) : Prop :=
  8 ∣ p ↔ b.IsArena ∧ (before.map Prod.snd).sum % 8 = 4

section

variable {b : Build} {x x' : World} {q : Request} {r : Reply} {s s' : State} {sz : Int32}
  {region mem : Int} {offer : Option Grant} {y : World × List (Int × Int)}

/-! ### Where regions come from -/

/-- A pointer of the `malloc` build is four past what the C library offered. -/
private theorem step_useMalloc (ho : AlignedOffer q) (he : x.step .useMalloc q = .ok (r, x')) :
    returned .useMalloc x q = [] ∨
      ∃ mem sz, returned .useMalloc x q = [(mem, sz)] ∧ ¬ 8 ∣ mem := by
  have hoffered {sz : Int32} {mem : Int} (ha : AsksFor x q sz) (hr : r = .pointer mem)
      (h0 : mem ≠ 0) : ¬ 8 ∣ mem := by
    obtain ⟨region, s, hm, hrep⟩ := step_region ha he
    obtain ⟨g, hg, rfl, _⟩ := mallocRegion_offered hm
    have haddr : (8 : Int) ∣ (g.addr : Int) := Int.natCast_dvd_natCast.mpr (ho g hg)
    rw [hr] at hrep
    injection hrep with hrep
    split at hrep
    · exact absurd hrep h0
    · unfold getMemory at hrep
      have h4 : sizeofInt = 4 := rfl
      omega
  have hst := step_spec he
  obtain ⟨c, offer⟩ := q
  dsimp only at hst
  cases hst with
  | @malloced sz region _ _ hpos =>
    have hne : getMemory region ≠ 0 := by unfold getMemory; omega
    exact .inr ⟨getMemory region, sz.toInt, by simp only [returned, he, if_neg hne, Call.size],
      hoffered (.inl rfl) rfl hne⟩
  | @realloced _ region newSize _ _ _ _ _ hblk _ _ hpos _ _ =>
    have hne : getMemory region ≠ 0 := by unfold getMemory; omega
    exact .inr ⟨getMemory region, newSize.toInt,
      by simp only [returned, he, if_neg hne, Call.size], hoffered (.realloc hblk offer) rfl hne⟩
  | refused _ _ => exact .inl (by simp only [returned, he, ↓reduceIte])
  | notMade _ | freedNull _ | freed _ _ | stored _ _ _ =>
    exact .inl (by simp only [returned, he])

/-- A call moves `_free_memory` by the sizes of the blocks it hands out, each four past it. -/
private theorem step_arena {base : Int} {h0 : 0 < base}
    (he : x.step (.arena base h0) q = .ok (r, x')) :
    (returned (.arena base h0) x q = [] ∧ x'.state.freeMemory = x.state.freeMemory) ∨
      ∃ sz, returned (.arena base h0) x q = [(getMemory x.state.freeMemory, sz)] ∧
        x'.state.freeMemory = x.state.freeMemory + sz := by
  have hst := step_spec he
  obtain ⟨c, offer⟩ := q
  dsimp only at hst
  cases hst with
  | notMade _ => exact .inl ⟨by simp only [returned, he], rfl⟩
  | refused _ _ => exact .inl ⟨by simp only [returned, he, ↓reduceIte], rfl⟩
  | @malloced sz _ _ hto hpos =>
    obtain ⟨rfl, _, rfl⟩ := hto.arena_eq hpos
    have hne : getMemory x.state.freeMemory ≠ 0 := by unfold getMemory; omega
    exact .inr ⟨sz.toInt, by simp only [returned, he, if_neg hne, Call.size], rfl⟩
  | @realloced _ _ newSize _ _ _ _ _ _ _ hto hpos hc hf =>
    obtain ⟨rfl, _, rfl⟩ := hto.arena_eq hpos
    obtain ⟨hsame, _⟩ := copyPayload_ok _ hc
    cases hf
    have hne : getMemory x.state.freeMemory ≠ 0 := by unfold getMemory; omega
    refine .inr ⟨newSize.toInt, by simp only [returned, he, if_neg hne, Call.size], ?_⟩
    rw [hsame]
  | freedNull _ => exact .inl ⟨by simp only [returned, he], rfl⟩
  | freed _ hf => exact .inl ⟨by simp only [returned, he], by rw [cMemFree_ok hf]⟩
  | stored _ _ hw =>
    obtain ⟨_, _, rfl⟩ := writeByte_ok hw
    exact .inl ⟨by simp only [returned, he], rfl⟩

/-! ### Runs -/

/-- What the record says of a build: each pointer is where the sizes before it put it. -/
private def Recorded (b : Build) (x : World) (g : List (Int × Int)) : Prop :=
  (∀ g₁ e g₂, g = g₁ ++ e :: g₂ → AlignedAfter b e.1 g₂) ∧
    ∀ base h0, b = .arena base h0 → x.state.freeMemory = base + (g.map Prod.snd).sum

/-- One more pointer is where the sizes before it put it. -/
private theorem alignedAfter_cons {e : Int × Int} {g : List (Int × Int)}
    (hg : ∀ g₁ e g₂, g = g₁ ++ e :: g₂ → AlignedAfter b e.1 g₂)
    (he : AlignedAfter b e.1 g) : ∀ g₁ u g₂, e :: g = g₁ ++ u :: g₂ → AlignedAfter b u.1 g₂ := by
  intro g₁ u g₂ heq
  cases g₁ with
  | nil =>
    cases heq
    exact he
  | cons v g₁ =>
    rw [List.cons_append, List.cons.injEq] at heq
    exact hg g₁ u g₂ heq.2

/-- Every call keeps the record. -/
private theorem recorded_step {g : List (Int × Int)} (hb : AlignedBuild b)
    (hrec : Recorded b x g) (ho : AlignedOffer q) (he : x.step b q = .ok (r, x')) :
    Recorded b x' (returned b x q ++ g) := by
  obtain ⟨hg, hfree⟩ := hrec
  cases b with
  | useMalloc =>
    refine ⟨?_, nofun⟩
    rcases step_useMalloc ho he with hret | ⟨mem, sz, hret, hodd⟩
    · rw [hret, List.nil_append]
      exact hg
    · rw [hret, List.singleton_append]
      exact alignedAfter_cons hg (iff_of_false hodd fun h ↦ h.1)
  | arena base h0 =>
    have hfree := hfree base h0 rfl
    have hb : 8 ∣ base := hb
    have h4 : sizeofInt = 4 := rfl
    rcases step_arena he with ⟨hret, hsame⟩ | ⟨sz, hret, hmoved⟩
    · rw [hret, List.nil_append]
      refine ⟨hg, ?_⟩
      rintro _ _ ⟨⟩
      rw [hsame, hfree]
    · rw [hret, List.singleton_append]
      constructor
      · apply alignedAfter_cons hg
        simp only [AlignedAfter, Build.IsArena, true_and, hfree, getMemory]
        omega
      · rintro _ _ ⟨⟩
        rw [hmoved, hfree, List.map_cons, List.sum_cons]
        omega

/-- Of the pointers a run has returned, one is a multiple of eight exactly when the build is
the arena and the sizes handed out before it leave the remainder four. The first never is, so
that all are only when none was returned. -/
theorem aligned_iff (hb : AlignedBuild b)
    (hr : (pointing b).Reach (fun _ q ↦ AlignedOffer q) y) :
    (∀ g₁ e g₂, y.2 = g₁ ++ e :: g₂ → AlignedAfter b e.1 g₂) ∧
      ((∀ e ∈ y.2, 8 ∣ e.1) ↔ y.2 = []) := by
  have hrec : Recorded b y.1 y.2 := by
    apply hr.invariant (P := fun y ↦ Recorded b y.1 y.2)
    · rintro ⟨x, g⟩ ⟨⟨_, bytes, hs⟩, hg⟩
      change g = [] at hg
      subst hg
      refine ⟨fun g₁ e g₂ h ↦ by simp at h, fun base h0 harena ↦ ?_⟩
      rw [hs, harena]
      simp [State.start]
    · rintro ⟨x, g⟩ q ⟨x', g'⟩ hrec ho ⟨⟨r, he⟩, hg⟩
      change g' = returned b x q ++ g at hg
      subst hg
      exact recorded_step hb hrec ho he
  refine ⟨hrec.1, fun hall ↦ ?_, fun hnil ↦ by simp [hnil]⟩
  rcases List.eq_nil_or_concat y.2 with hnil | ⟨g₁, e, hg⟩
  · exact hnil
  · -- No size was handed out before the first pointer.
    rw [List.concat_eq_append] at hg
    have hfirst := (hrec.1 g₁ e [] hg).mp (hall e (by simp [hg]))
    exact absurd hfirst.2 (by decide)

end

/-- Eight bytes are asked for first, of an arena. -/
private theorem pointing_mallocEight : ∃ x, (pointing anArena).Reach
    (fun y q ↦ RoundedUp y.1 q ∧ AlignedOffer q) (x, [(4100, 8)]) := by
  let x₀ : World := ⟨.start anArena fun _ ↦ 0, []⟩
  have hret : returned anArena x₀ mallocEight = [(4100, 8)] := by decide +kernel
  have hc : passes (x₀.step anArena mallocEight) (fun _ ↦ true) = true := by decide +kernel
  obtain ⟨⟨r, x⟩, he, _⟩ := passes_iff.mp hc
  refine ⟨x, .next (s := (x₀, [])) (a := mallocEight) (.start ⟨⟨rfl, _, rfl⟩, rfl⟩) ⟨?_, ?_⟩
    ⟨⟨r, he⟩, (congrArg (· ++ []) hret).symm⟩⟩
  · rintro sz (hc | ⟨_, hc, _⟩) <;> cases hc
    exact ⟨8, by decide, rfl⟩
  · rintro g ⟨⟩
    decide

/-- The first pointer into an arena at a multiple of eight is four more than one. -/
theorem not_aligned : ¬ ∀ b, AlignedBuild b → ∀ y,
    (pointing b).Reach (fun y q ↦ RoundedUp y.1 q ∧ AlignedOffer q) y → ∀ e ∈ y.2, 8 ∣ e.1 := by
  intro hall
  obtain ⟨x, hr⟩ := pointing_mallocEight
  have hdvd := hall anArena (by decide : (8 : Int) ∣ 4096) _ hr (4100, 8) (by simp)
  exact absurd hdvd (by decide)

/-- The pointer to a first block of eight bytes is none of the arena's multiples of eight. -/
theorem aligned_iff_mallocEight : ∃ y : World × List (Int × Int), y.2 = [(4100, 8)] ∧
    AlignedAfter anArena 4100 [] := by
  obtain ⟨x, hr⟩ := pointing_mallocEight
  have hrec := aligned_iff (b := anArena) (by decide : (8 : Int) ∣ 4096)
    (hr.mono fun _ _ h ↦ h.2)
  exact ⟨(x, [(4100, 8)]), rfl, hrec.1 [] (4100, 8) [] rfl⟩

end SqliteComposite.Mem

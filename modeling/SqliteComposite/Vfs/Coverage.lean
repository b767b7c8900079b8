import SqliteComposite.Vfs.Files

/-!
# Buffers cover their files

Every linked file lies inside its buffer as long as no write ends past the largest `int`
with its growth granted: the growth is asked of the allocator as an `int`, so the buffer is
then smaller than the write, and the end of the write may not even be a 64-bit value.
-/

namespace SqliteComposite.Vfs

open Base Inmemfs

/-- The length of every linked file is at most the allocated size of its buffer. -/
def Covers (w : World) : Prop :=
  ∀ fd, Linked w fd → ∃ f cap, w.mem.load fd = .ok f ∧ fsMemsize w.mem f.buf = .ok cap ∧
    0 ≤ f.len.toInt ∧ f.len.toInt ≤ cap.toInt

/-- When `_fs_data_ensure_capacity` reports room for `sz` bytes, the room is there. -/
def MakesRoom (m : FsMem) (fd : Addr) (sz : Int64) : Prop :=
  ∀ m', fsDataEnsureCapacity m fd sz = .ok (true, m') →
    ∃ f cap, m'.load fd = .ok f ∧ fsMemsize m' f.buf = .ok cap ∧ sz.toInt ≤ cap.toInt

/-- The call leaves every file covered, reports room only when there is room, and as a write
stays inside the buffer. -/
structure KeepsCovered (w : World) (q : Request) : Prop where
  covers : ∀ r w', w.step q = .ok (r, w') → Covers w'
  write : ∀ h src n o file, q.call = .xWrite h src n o → w.handle? h = some file →
    Linked w file.fd → 0 ≤ o.toInt → 0 ≤ n.toInt →
    MakesRoom (w.begin q.answers) file.fd (o + n.toInt64) ∧ w.step q ≠ .error .outOfBounds
  hint : ∀ h arg file, q.call = .xFileControl h sqliteFcntlSizeHint arg →
    w.handle? h = some file → Linked w file.fd →
    MakesRoom (w.begin q.answers) file.fd arg.toInt64

/-- A truncation of a file is to a size. -/
def ToSize (w : World) (q : Request) : Prop :=
  ∀ h size file, q.call = .xTruncate h size → w.handle? h = some file → Linked w file.fd →
    0 ≤ size.toInt

/-- A write to a file ends at an `int`, or the growth it needs is refused. -/
def EndsInInt (w : World) (q : Request) : Prop :=
  ∀ h src n o file, q.call = .xWrite h src n o → w.handle? h = some file →
    Linked w file.fd → 0 ≤ o.toInt → 0 ≤ n.toInt →
    o.toInt + n.toInt < 2 ^ 31 ∨ Refuses (w.begin q.answers) file.fd (o + n.toInt64)

/-- A call through an open handle is the method on its file. -/
theorem step_write {w : World} {h : Nat} {file : CFile} (hf : w.handle? h = some file)
    (src : Nat → UInt8) (n : Int32) (o : Int64) (answers : List (Option Grant)) :
    w.step ⟨.xWrite h src n o, answers⟩ = (do
      let (rc, m) ← cWrite (w.begin answers) file src n o
      .ok (.status rc, { w with mem := m })) := by
  simp only [World.step, World.through, hf]

section

variable {w w' : World} {l l' l₁ l₂ : List FileView} {v u : FileView}

/-- The memory size of a file's buffer. -/
theorem memsize_eq {m : FsMem} {list : Addr} (hr : Rep list m.heap (l₁ ++ v :: l₂) []) :
    ∃ f cap, m.load v.addr = .ok f ∧ fsMemsize m f.buf = .ok cap ∧ f.len = v.len ∧
      cap.toInt = v.data.size := by
  obtain ⟨nx, hl, _⟩ := counters_spec hr
  obtain ⟨hd, _⟩ := hr.attached v (by simp)
  exact ⟨_, _, hl, Memory.xSize_eq hd, rfl, toInt_ofNat32 _ v.data.size_lt⟩

/-- Every linked file is covered exactly when every file of the list is. -/
theorem covers_iff (hr : Rep w.list w.mem.heap l []) : Covers w ↔ ∀ v ∈ l, v.Covered := by
  constructor
  · intro hc v hv
    obtain ⟨l₁, l₂, rfl⟩ := List.append_of_mem hv
    obtain ⟨f, cap, hl, hm, h0, hle⟩ := hc v.addr ((linked_iff hr).mpr ⟨l₁, v, l₂, rfl, rfl⟩)
    obtain ⟨f', cap', hl', hm', hlen, hcap⟩ := memsize_eq hr
    rw [hl'] at hl
    cases hl
    rw [hm'] at hm
    cases hm
    rw [hlen] at h0 hle
    exact ⟨h0, hcap ▸ hle⟩
  · intro hc fd hfd
    obtain ⟨l₁, v, l₂, rfl, rfl⟩ := (linked_iff hr).mp hfd
    obtain ⟨f, cap, hl, hm, hlen, hcap⟩ := memsize_eq hr
    obtain ⟨h0, hle⟩ := hc v (by simp)
    exact ⟨f, cap, hl, hm, hlen ▸ h0, by rw [hlen, hcap]; exact hle⟩

/-- Room reported for an end of file that is an `int` is there. -/
theorem makesRoom {m : FsMem} {list : Addr} (hr : Rep list m.heap (l₁ ++ v :: l₂) [])
    {sz : Int64} (hsz : sz.toInt < 2 ^ 31) : MakesRoom m v.addr sz := by
  intro m' he
  obtain ⟨grown, m₁, u, he₁, hg, hr₁⟩ := fsDataEnsureCapacity_spec hr sz
  rw [he] at he₁
  cases he₁
  obtain ⟨f, cap, hl, hm, _, hcap⟩ := memsize_eq hr₁
  exact ⟨f, cap, hg.addr_eq ▸ hl, hm, hcap ▸ hg.room hsz⟩

/-- A file stays covered by a write that ends at an `int`, by a truncation to a size, and by
any hint. -/
theorem FileStep.covered {h : Nat} {c : Call} (hst : FileStep h v c u)
    (hw : ∀ src n o, c = .xWrite h src n o → 0 ≤ o.toInt → 0 ≤ n.toInt →
      o.toInt + n.toInt < 2 ^ 31)
    (ht : ∀ size, c = .xTruncate h size → 0 ≤ size.toInt) (hv : v.Covered) : u.Covered := by
  cases hst with
  | @wrote src n o u ho hn hg hfit =>
    have hlt := hw src n o rfl ho hn
    have he := toInt_end ho hn (by omega)
    have hroom := hg.room (by omega)
    change 0 ≤ (o + n.toInt64).toInt ∧ (o + n.toInt64).toInt ≤ u.data.size
    omega
  | @truncated size =>
    have h0 := ht size rfl
    obtain ⟨hv0, hvle⟩ := hv
    split
    · next hlt =>
      have hlt := Int64.lt_iff_toInt_lt.mp hlt
      change 0 ≤ size.toInt ∧ size.toInt ≤ v.data.size
      omega
    · exact ⟨hv0, hvle⟩
  | @hinted arg grown u hg =>
    refine hg.covered ?_ hv
    have h := arg.toInt_lt
    rw [Int32.toInt_toInt64]
    omega

/-- A successful write to a listed file was not refused its growth. -/
theorem not_refused {h : Nat} {src : Nat → UInt8} {n : Int32} {o : Int64} {file : CFile}
    {answers : List (Option Grant)} (hr : Rep w.list w.mem.heap (l₁ ++ v :: l₂) [])
    (hf : w.handle? h = some file) (ha : v.addr = file.fd) (ho : 0 ≤ o.toInt) (hn : 0 ≤ n.toInt)
    (he : w.step ⟨.xWrite h src n o, answers⟩ = .ok (.status .ok, w')) :
    ¬ Refuses (w.begin answers) file.fd (o + n.toInt64) := by
  intro href
  rw [← ha] at href
  obtain ⟨m', hg⟩ := (refuses_iff (m := w.begin answers) hr _).mp href
  have hw := fsWrite_refused src ho hn hg
  have hne : (-1 : Int32) ≠ n := by
    rintro rfl
    exact absurd hn (by decide)
  rw [step_write hf, cWrite, ← ha, hw, ok_bind] at he
  dsimp only at he
  rw [if_neg hne] at he
  cases he

/-- What one call preserves: every file is covered. -/
theorem covered_step {q : Request} {r : Reply} (hs : Sound w l) (hc : ∀ v ∈ l, v.Covered)
    (ht : ToSize w q) (hw : EndsInInt w q) (he : w.step q = .ok (r, w')) :
    ∃ l', StepTo l w.handles q.call r l' w'.handles ∧ Sound w' l' ∧ ∀ v ∈ l', v.Covered := by
  obtain ⟨l', hst, hs', _⟩ := step_spec hs he
  refine ⟨l', hst, hs', hst.forall hc (fun v _ _ hv ↦ hv) (fun _ _ _ v _ hv ↦ hv.covered) ?_⟩
  intro h file v u hf hv ha hfs hok hcov
  obtain ⟨l₁, l₂, rfl⟩ := List.append_of_mem hv
  have hlink : Linked w file.fd := (linked_iff hs.rep).mpr ⟨l₁, v, l₂, rfl, ha⟩
  refine hfs.covered (fun src n o hq ho hn ↦ ?_) (fun size hq ↦ ht h size file hq hf hlink) hcov
  rcases hw h src n o file hq hf hlink ho hn with hlt | href
  · exact hlt
  · obtain ⟨c, answers⟩ := q
    cases hq
    cases hok
    exact absurd href (not_refused hs.rep hf ha ho hn he)

/-- In every run every file is covered. -/
theorem reach_covered (hr : system.Reach (fun w q ↦ ToSize w q ∧ EndsInInt w q) w) :
    ∃ l, Sound w l ∧ ∀ v ∈ l, v.Covered := by
  refine hr.invariant (P := fun w ↦ ∃ l, Sound w l ∧ ∀ v ∈ l, v.Covered) ?_ ?_
  · exact fun w hi ↦ ⟨[], init_spec hi, by simp⟩
  · rintro w q w' ⟨l, hs, hc⟩ ⟨ht, hw⟩ ⟨r, he⟩
    obtain ⟨l', _, hs', hc'⟩ := covered_step hs hc ht hw he
    exact ⟨l', hs', hc'⟩

/-- A write that is not refused its growth stores its bytes in the buffer made for it, or
leaves that buffer. -/
theorem write_outcome {h : Nat} (src : Nat → UInt8) {n : Int32} {o : Int64}
    {answers : List (Option Grant)} {file : CFile}
    (hr : Rep w.list w.mem.heap (l₁ ++ v :: l₂) []) (hf : w.handle? h = some file)
    (ha : v.addr = file.fd) (ho : 0 ≤ o.toInt) (hn : 0 ≤ n.toInt)
    (href : ¬ Refuses (w.begin answers) file.fd (o + n.toInt64)) :
    ∃ x, Grow v (o + n.toInt64) true x ∧
      ((∃ m', w.step ⟨.xWrite h src n o, answers⟩ = .ok (.status .ok, { w with mem := m' }) ∧
        (n.toInt = 0 ∨ o.toInt + n.toInt ≤ x.data.size) ∧
        Rep w.list m'.heap
          (l₁ ++ x.written o.toInt.toNat n.toInt.toNat src (o + n.toInt64) :: l₂) []) ∨
      (w.step ⟨.xWrite h src n o, answers⟩ = .error .outOfBounds ∧ 0 < n.toInt ∧
        (x.data.size : Int) < o.toInt + n.toInt)) := by
  have hr' : Rep w.list (w.begin answers).heap (l₁ ++ v :: l₂) [] := hr
  obtain ⟨grown, m₁, x, he, hg, hr₁⟩ := fsDataEnsureCapacity_spec hr' (o + n.toInt64)
  cases grown with
  | false => exact absurd ((refuses_iff hr' _).mpr ⟨m₁, he⟩) (ha ▸ href)
  | true =>
    refine ⟨x, hg, ?_⟩
    rw [← hg.addr_eq] at he ha
    rw [step_write hf, cWrite, ← ha]
    rcases fsWrite_granted src ho hn he hr₁ with ⟨m', hw, hfit, hr₂⟩ | ⟨hw, hpos, hlt⟩
    · exact .inl ⟨m', by rw [hw, ok_bind]; simp only [↓reduceIte, ok_bind], hfit, hr₂⟩
    · exact .inr ⟨by rw [hw]; rfl, hpos, hlt⟩

/-- A write whose end is no `int` and whose growth is not refused misses its buffer. -/
private theorem endsInInt_of_keeps {q : Request} (hs : Sound w l) (hk : KeepsCovered w q) :
    EndsInInt w q := by
  intro h src n o file hq hf hlink ho hn
  by_contra hbad
  obtain ⟨hbig, href⟩ := not_or.mp hbad
  obtain ⟨hroom, hfault⟩ := hk.write h src n o file hq hf hlink ho hn
  obtain ⟨l₁, v, l₂, rfl, ha⟩ := (linked_iff hs.rep).mp hlink
  obtain ⟨c, answers⟩ := q
  cases hq
  obtain ⟨x, hg, ⟨m', _, hfit, _⟩ | ⟨hstep, _⟩⟩ :=
    write_outcome src hs.rep hf ha ho hn href
  · have hx := x.data.size_lt
    have holt := o.toInt_lt
    -- Nothing is stored and nothing wraps, so room for the whole offset was reported.
    have hend := toInt_end ho hn (by omega)
    have hr : Rep w.list (w.begin answers).heap (l₁ ++ v :: l₂) [] := hs.rep
    obtain ⟨grown, m₁, u, he, hgu, _⟩ := fsDataEnsureCapacity_spec hr (o + n.toInt64)
    rw [ha] at he
    cases grown with
    | false => exact href (ha ▸ (refuses_iff hr _).mpr ⟨m₁, ha ▸ he⟩)
    | true =>
      obtain ⟨f, cap, _, _, hle⟩ := hroom m₁ he
      have hcap := cap.toInt_lt
      omega
  · exact hfault hstep

/-- A write that ends at an `int`, or whose growth is refused, stays in its buffer. -/
theorem write_inside {h : Nat} {src : Nat → UInt8} {n : Int32} {o : Int64}
    {file : CFile} {answers : List (Option Grant)}
    (hr : Rep w.list w.mem.heap (l₁ ++ v :: l₂) []) (hf : w.handle? h = some file)
    (ha : v.addr = file.fd) (ho : 0 ≤ o.toInt) (hn : 0 ≤ n.toInt)
    (hw : o.toInt + n.toInt < 2 ^ 31 ∨ Refuses (w.begin answers) file.fd (o + n.toInt64)) :
    MakesRoom (w.begin answers) file.fd (o + n.toInt64) ∧
      w.step ⟨.xWrite h src n o, answers⟩ ≠ .error .outOfBounds := by
  have hr' : Rep w.list (w.begin answers).heap (l₁ ++ v :: l₂) [] := hr
  by_cases href : Refuses (w.begin answers) file.fd (o + n.toInt64)
  · obtain ⟨m', hg⟩ := (refuses_iff hr' _).mp (ha ▸ href)
    rw [ha] at hg
    constructor
    · intro m₁ he
      rw [hg] at he
      cases he
    · rw [step_write hf, cWrite, fsWrite_refused src ho hn hg, ok_bind]
      dsimp only
      split <;> simp
  · have hlt := hw.resolve_right href
    have hend := toInt_end ho hn (by omega)
    refine ⟨ha ▸ makesRoom hr' (by omega), ?_⟩
    obtain ⟨x, hg, ⟨m', hstep, _⟩ | ⟨_, _, hpast⟩⟩ :=
      write_outcome src hr hf ha ho hn href
    · rw [hstep]
      simp
    · have hroom := hg.room (by omega)
      omega

/-- In every run whose truncations are to sizes and whose writes end at an `int` or are
refused their growth, every buffer covers its file; and in every state of such a run the
next call keeps this, reports no room that is not there and stays inside the buffer exactly
when it is such a call itself. -/
theorem covers_and_keeps_iff (hr : system.Reach (fun w q ↦ ToSize w q ∧ EndsInInt w q) w) :
    Covers w ∧ ∀ q, ToSize w q → (KeepsCovered w q ↔ EndsInInt w q) := by
  obtain ⟨l, hs, hc⟩ := reach_covered hr
  refine ⟨(covers_iff hs.rep).mpr hc, fun q ht ↦ ⟨endsInInt_of_keeps hs, fun hw ↦ ?_⟩⟩
  constructor
  · intro r w' he
    obtain ⟨l', _, hs', hc'⟩ := covered_step hs hc ht hw he
    exact (covers_iff hs'.rep).mpr hc'
  · intro h src n o file hq hf hlink ho hn
    have hend := hw h src n o file hq hf hlink ho hn
    obtain ⟨l₁, v, l₂, rfl, ha⟩ := (linked_iff hs.rep).mp hlink
    obtain ⟨c, answers⟩ := q
    cases hq
    exact write_inside hs.rep hf ha ho hn hend
  · intro h arg file _ _ hlink
    obtain ⟨l₁, v, l₂, rfl, ha⟩ := (linked_iff hs.rep).mp hlink
    rw [← ha]
    refine makesRoom (m := w.begin q.answers) hs.rep ?_
    have hlt := arg.toInt_lt
    rw [Int32.toInt_toInt64]
    omega

end

/-- Ten bytes up to offset `2 ^ 32 + 5`, with the growth granted. -/
def writePast4G : Request := ⟨.xWrite 0 (fun _ ↦ 1) 10 (2 ^ 32 - 5), [filled 500 0xAA]⟩

/-- The growth of a write that ends at `2 ^ 32 + 5` asks for five bytes, and the write leaves
the buffer. -/
theorem not_keepsCovered :
    ¬ ∀ w, system.Reach ToSize w → ∀ q, ToSize w q → KeepsCovered w q := by
  intro hall
  obtain ⟨w, hr, hp⟩ := exists_of_checks ToSize [filled 100 0] [createA]
    (fun w ↦ faults (w.step writePast4G) .outOfBounds &&
      (w.handle? 0).any fun file ↦ (w.mem.load file.fd).isOk) (by decide +kernel)
    (by simp [ToSize, createA])
  simp only [Bool.and_eq_true, faults_iff, Option.any_eq_true] at hp
  obtain ⟨he, file, hf, hload⟩ := hp
  obtain ⟨l, hs⟩ := reach_sound hr
  have hlink := linked_of_load hs hf hload
  have hk := hall w hr writePast4G (by simp [ToSize, writePast4G])
  exact (hk.write 0 _ _ _ file rfl hf hlink (by decide) (by decide)).2 he

/-- The two parts of the result after the file `a` is created. -/
theorem covers_and_keeps_iff_createA : ∃ w, (w.handle? 0).isSome = true ∧ Covers w ∧
    ∀ q, ToSize w q → (KeepsCovered w q ↔ EndsInInt w q) := by
  obtain ⟨w, hr, hp⟩ := exists_of_checks (fun w q ↦ ToSize w q ∧ EndsInInt w q)
    [filled 100 0] [createA] (fun w ↦ (w.handle? 0).isSome)
    (by decide +kernel) (by simp [ToSize, EndsInInt, createA])
  exact ⟨w, hp, covers_and_keeps_iff hr⟩

end SqliteComposite.Vfs

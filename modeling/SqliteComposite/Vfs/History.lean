import SqliteComposite.Vfs.Coverage

/-!
# The bytes a file shows

For each file and position the past of a run records the byte of the last successful write
there that no later truncation has discarded. A position below the size shows that byte as
long as no write has skipped over a position that was never written: `fs_write` does not
fill the gap it leaves, so such a position shows what the buffer happens to hold.
-/

namespace SqliteComposite.Vfs

open Base Inmemfs

/-- For each file and position, the byte last stored there and not discarded since. -/
abbrev Past := Addr → Nat → Option UInt8

/-- What a call adds to the past: the bytes of a successful write, the positions a
truncation discards, and that a new file has none. -/
def remember (w : World) (q : Request) (w' : World) (past : Past) : Past :=
  match q.call, w.step q with
  | .xWrite h src n o, .ok (.status .ok, _) => fun a p ↦
    if (w.handle? h).map CFile.fd = some a ∧ o.toInt ≤ p ∧ (p : Int) < o.toInt + n.toInt then
      some (src (p - o.toInt).toNat)
    else past a p
  | .xTruncate h size, .ok (.status .ok, _) => fun a p ↦
    if (w.handle? h).map CFile.fd = some a ∧ size.toInt ≤ p then none else past a p
  | .xOpen h (some z) _, .ok (.status .ok, _) => fun a p ↦
    if isNew w z ∧ (w'.handle? h).map CFile.fd = some a then none else past a p
  | _, _ => past

/-- The VFS with the past of its files; no file has one at the start. -/
def systemPast : System (World × Past) Request := system.withPast (fun _ _ ↦ none) remember

/-- A write to a file starts at most one position past those whose bytes are remembered: no
position from the end of the file to the start of the write was never written. -/
def NoGap (x : World × Past) (q : Request) : Prop :=
  ∀ h src n o file s, q.call = .xWrite h src n o → x.1.handle? h = some file →
    Linked x.1 file.fd → HasSize x.1 file s → 0 ≤ o.toInt → 0 ≤ n.toInt →
    (∀ p : Nat, s.toInt ≤ p → (p : Int) < o.toInt → (x.2 file.fd p).isSome) ∨
    Refuses (x.1.begin q.answers) file.fd (o + n.toInt64)

/-- The buffer holds every byte remembered, and every position of the file is remembered. -/
structure Remembers (past : Nat → Option UInt8) (v : FileView) : Prop where
  held : ∀ p b, past p = some b → p < v.data.size ∧ v.data.data p = b
  whole : ∀ p : Nat, (p : Int) < v.len.toInt → (past p).isSome

section

variable {w w' : World} {l l' l₁ l₂ : List FileView} {u v : FileView} {q : Request}
  {r : Reply} {past : Past}

/-- A file all of whose positions are remembered lies in its buffer. -/
theorem Remembers.len_le {f : Nat → Option UInt8} (h : Remembers f v) :
    v.len.toInt ≤ v.data.size := by
  by_contra hlt
  obtain ⟨b, hb⟩ := Option.isSome_iff_exists.mp (h.whole v.data.size (by omega))
  exact absurd (h.held _ _ hb).1 (lt_irrefl _)

/-- Growth up to an `int` keeps what is remembered. -/
theorem Remembers.grow {f : Nat → Option UInt8} (h : Remembers f v) {sz : Int64} {grown : Bool}
    (hg : Grow v sz grown u) (hsz : sz.toInt < 2 ^ 31) : Remembers f u := by
  refine ⟨fun p b hp ↦ ?_, fun p hp ↦ h.whole p (hg.len_eq ▸ hp)⟩
  obtain ⟨hlt, hb⟩ := h.held p b hp
  have hle := hg.size_le hsz
  exact ⟨by omega, by rw [hg.data_eq hlt, hb]⟩

/-- A handle count does not matter to what is remembered. -/
private theorem remembers_counted (v : FileView) (ref deleteOnClose : Int32)
    (h : Remembers (past v.addr) v) :
    Remembers (past (v.counted v.len ref deleteOnClose).addr)
      (v.counted v.len ref deleteOnClose) := ⟨h.held, h.whole⟩

/-- An unsuccessful call adds nothing to the past. -/
private theorem remember_eq (he : w.step q = .ok (r, w')) (hr : r ≠ .status .ok) :
    remember w q w' past = past := by
  rw [remember, he]
  split
  · next h => cases h; exact absurd rfl hr
  · next h => cases h; exact absurd rfl hr
  · next h => cases h; exact absurd rfl hr
  · rfl

private theorem remembers_open {z : CStr} {a : Addr} {h : Nat} {flags : Int32}
    {answers : List (Option Grant)} (hs : Sound w l) (hp : ∀ v ∈ l, Remembers (past v.addr) v)
    (ht : OpenTo l z a l') (ha : a ≠ 0) (hw' : w'.handle? h = some ⟨true, some z, a⟩)
    (he : w.step ⟨.xOpen h (some z) flags, answers⟩ = .ok (.status .ok, w')) :
    ∀ v ∈ l', Remembers (remember w ⟨.xOpen h (some z) flags, answers⟩ w' past v.addr) v := by
  have hrem : remember w ⟨.xOpen h (some z) flags, answers⟩ w' past =
      fun a' p ↦ if isNew w z ∧ some a = some a' then none else past a' p := by
    simp only [remember, he, hw', Option.map_some]
  rw [hrem]
  cases ht with
  | found hl hf =>
    have hnew : ¬ isNew w z = true := by
      rw [isNew_iff hs.rep, hf]
      simp
    simp only [hnew]
    subst hl
    exact forall_replace hp (remembers_counted _ _ _ (hp _ (by simp)))
  | @created v hf hv hfresh =>
    have hnew : isNew w z = true := (isNew_iff hs.rep z).mpr hf
    intro u hu
    rcases List.mem_cons.mp hu with rfl | hu
    · have hnone (p : Nat) : (fun (a' : Addr) p ↦ if isNew w z = true ∧ some v.addr = some a'
          then none else past a' p) v.opened.addr p = none := if_pos ⟨hnew, rfl⟩
      constructor
      · intro p b hb
        rw [hnone] at hb
        cases hb
      · intro p hpos
        change (p : Int) < v.len.toInt at hpos
        rw [hv.len, Int64.toInt_zero] at hpos
        omega
    · have hne : some v.addr ≠ some u.addr := fun h ↦
        hfresh (Option.some.inj h ▸ List.mem_map_of_mem hu)
      simp only [hne, and_false, if_false]
      exact hp u hu
  | refused _ => exact absurd rfl ha

private theorem remembers_wrote {src : Nat → UInt8} {n : Int32} {o : Int64} {x : FileView}
    {f : Nat → Option UInt8} (hv : Remembers f v) (ho : 0 ≤ o.toInt) (hn : 0 ≤ n.toInt)
    (hg : Grow v (o + n.toInt64) true x) (hfit : n.toInt = 0 ∨ o.toInt + n.toInt ≤ x.data.size)
    (hgap : ∀ p : Nat, v.len.toInt ≤ p → (p : Int) < o.toInt → (f p).isSome) :
    Remembers (fun p ↦ if o.toInt ≤ p ∧ (p : Int) < o.toInt + n.toInt then
        some (src (p - o.toInt).toNat) else f p)
      (x.written o.toInt.toNat n.toInt.toNat src (o + n.toInt64)) := by
  have hcap := v.data.size_lt
  have hx := x.data.size_lt
  -- A write of nothing does not start past the buffer: its gap would not be remembered.
  have hint : o.toInt + n.toInt < 2 ^ 31 := by
    rcases hfit with h0 | hle
    · by_contra hbig
      have hlen := hv.len_le
      obtain ⟨b, hb⟩ := Option.isSome_iff_exists.mp (hgap v.data.size (by omega) (by omega))
      exact absurd (hv.held _ _ hb).1 (lt_irrefl _)
    · omega
  have hend := toInt_end ho hn (by omega)
  have hgrow := hv.grow hg (by omega)
  constructor
  · intro p b hb
    change p < x.data.size ∧ (if o.toInt.toNat ≤ p ∧ p < o.toInt.toNat + n.toInt.toNat then
      src (p - o.toInt.toNat) else x.data.data p) = b
    by_cases hin : o.toInt ≤ p ∧ (p : Int) < o.toInt + n.toInt
    · rw [if_pos hin] at hb
      rw [if_pos (by omega), ← Option.some.inj hb]
      refine ⟨by omega, ?_⟩
      congr 1
      omega
    · rw [if_neg hin] at hb
      rw [if_neg (by omega)]
      exact hgrow.held p b hb
  · intro p hp
    change (p : Int) < (o + n.toInt64).toInt at hp
    by_cases hin : o.toInt ≤ p ∧ (p : Int) < o.toInt + n.toInt
    · rw [if_pos hin]
      rfl
    · rw [if_neg hin]
      by_cases hlt : (p : Int) < v.len.toInt
      · exact hv.whole p hlt
      · exact hgap p (by omega) (by omega)

private theorem remembers_truncated {size : Int64} {f : Nat → Option UInt8}
    (hv : Remembers f v) :
    Remembers (fun p ↦ if size.toInt ≤ p then none else f p)
      (v.resized (if size < v.len then size else v.len)) := by
  constructor
  · intro p b hb
    by_cases hcut : size.toInt ≤ p
    · rw [if_pos hcut] at hb
      cases hb
    · rw [if_neg hcut] at hb
      exact hv.held p b hb
  · intro p hp
    change (p : Int) < (if size < v.len then size else v.len).toInt at hp
    split at hp
    · next hlt =>
      have hlt := Int64.lt_iff_toInt_lt.mp hlt
      rw [if_neg (by omega)]
      exact hv.whole p (by omega)
    · next hge =>
      have hge : ¬ size.toInt < v.len.toInt := fun h ↦ hge (Int64.lt_iff_toInt_lt.mpr h)
      rw [if_neg (by omega)]
      exact hv.whole p hp

private theorem remembers_through {h : Nat} {file : CFile} {c : Call}
    {answers : List (Option Grant)} (hs : Sound w (l₁ ++ v :: l₂))
    (hp : ∀ x ∈ l₁ ++ v :: l₂, Remembers (past x.addr) x) (hf : w.handle? h = some file)
    (ha : v.addr = file.fd) (hfs : FileStep h v c u) (hg : NoGap (w, past) ⟨c, answers⟩)
    (he : w.step ⟨c, answers⟩ = .ok (.status .ok, w')) :
    ∀ x ∈ l₁ ++ u :: l₂, Remembers (remember w ⟨c, answers⟩ w' past x.addr) x := by
  have hv : Remembers (past v.addr) v := hp v (by simp)
  have hua : u.addr = v.addr := hfs.addr_eq
  have hmap : (w.handle? h).map CFile.fd = some v.addr := by rw [hf, ha]; rfl
  suffices hsuff : (∀ a, a ≠ v.addr → remember w ⟨c, answers⟩ w' past a = past a) ∧
      Remembers (remember w ⟨c, answers⟩ w' past v.addr) u by
    intro x hx
    rcases mem_replace hs.rep.nodup_addr hx with rfl | ⟨hmem, hne⟩
    · rw [hua]
      exact hsuff.2
    · rw [hsuff.1 _ hne]
      exact hp x hmem
  cases hfs with
  | @wrote src n o x ho hn hgr hfit =>
    have hlink : Linked w file.fd := (linked_iff hs.rep).mpr ⟨l₁, v, l₂, rfl, ha⟩
    have hsize := (hasSize_iff hs.rep ha).mpr rfl
    have href := not_refused hs.rep hf ha ho hn he
    have hgap := (hg h src n o file v.len rfl hf hlink hsize ho hn).resolve_right href
    simp only [← ha] at hgap
    simp only [remember, he, hmap]
    constructor
    · intro a hne
      funext p
      exact if_neg fun h ↦ hne (Option.some.inj h.1).symm
    · simpa only [true_and] using remembers_wrote hv ho hn hgr hfit hgap
  | @truncated size =>
    simp only [remember, he, hmap]
    constructor
    · intro a hne
      funext p
      exact if_neg fun h ↦ hne (Option.some.inj h.1).symm
    · simpa only [true_and] using remembers_truncated hv
  | @hinted arg grown u hgr =>
    simp only [remember]
    refine ⟨fun _ _ ↦ trivial, hv.grow hgr ?_⟩
    have hlt := arg.toInt_lt
    rw [Int32.toInt_toInt64]
    omega

/-- Every state of every run with its past holds a list of files. -/
theorem reach_past_sound {ok : World × Past → Request → Prop} {x : World × Past}
    (hr : systemPast.Reach ok x) : ∃ l, Sound x.1 l := by
  have hall : systemPast.Reach (fun _ _ ↦ True) x := hr.mono fun _ _ _ ↦ trivial
  have hforget : system.Reach (fun _ _ ↦ True) x.1 := System.Reach.forget hall
  exact reach_sound hforget

/-- What one call preserves: every byte of every file is remembered. -/
theorem remembers_step (hs : Sound w l) (hp : ∀ v ∈ l, Remembers (past v.addr) v)
    (hg : NoGap (w, past) q) (he : w.step q = .ok (r, w')) :
    ∃ l', Sound w' l' ∧ ∀ v ∈ l', Remembers (remember w q w' past v.addr) v := by
  obtain ⟨l', hst, hs', _⟩ := step_spec hs he
  refine ⟨l', hs', ?_⟩
  obtain ⟨c, answers⟩ := q
  generalize hhs : w'.handles = hs₁ at hst
  cases hst with
  | idle hne =>
    rw [remember_eq he hne]
    exact hp
  | @rejected h src o =>
    have hsame : remember w ⟨.xWrite h src (-1) o, answers⟩ w' past = past := by
      funext a p
      have hneg : (-1 : Int32).toInt = -1 := rfl
      simp only [remember, he]
      exact if_neg (by omega)
    rw [hsame]
    exact hp
  | @opened h z flags a l₁ l' _ ho ha hd =>
    have hw' : w'.handle? h = some ⟨true, some z, a⟩ := by
      rw [World.handle?, hhs, List.lookup_cons_self]
    have hp₁ := remembers_open hs hp ho ha hw' he
    split at hd
    · exact hd.forall hp₁ remembers_counted
    · exact hd ▸ hp₁
  | closed _ hc => exact hc.forall hp remembers_counted
  | through hf hl ha hfs =>
    subst hl
    exact remembers_through hs hp hf ha hfs hg he
  | deletedNull => exact hp
  | deleted hd => exact hd.forall hp remembers_counted

/-- In every run whose writes leave no gap, every position below the size of a file reads as
the byte last stored there and not discarded since. -/
theorem reads_remembered {x : World × Past} (hr : systemPast.Reach NoGap x) {file : CFile}
    {s : Int64} {p : Nat} (hlink : Linked x.1 file.fd) (hsize : HasSize x.1 file s)
    (hp : (p : Int) < s.toInt) : HasByte x.1 file p ((x.2 file.fd p).getD 0) := by
  have hinv : ∃ l, Sound x.1 l ∧ ∀ v ∈ l, Remembers (x.2 v.addr) v := by
    refine hr.invariant (P := fun x ↦ ∃ l, Sound x.1 l ∧ ∀ v ∈ l, Remembers (x.2 v.addr) v)
      ?_ ?_
    · rintro x ⟨hi, _⟩
      exact ⟨[], init_spec hi, by simp⟩
    · rintro x q y ⟨l, hs, hp⟩ hg ⟨⟨r, he⟩, hy⟩
      obtain ⟨l', hs', hp'⟩ := remembers_step hs hp hg he
      exact ⟨l', hs', hy ▸ hp'⟩
  obtain ⟨l, hs, hrem⟩ := hinv
  obtain ⟨l₁, v, l₂, rfl, ha⟩ := (linked_iff hs.rep).mp hlink
  have hv := hrem v (by simp)
  rw [hasSize_iff hs.rep ha] at hsize
  subst hsize
  obtain ⟨b, hb⟩ := Option.isSome_iff_exists.mp (hv.whole p hp)
  rw [← ha, hb, hasByte_iff hs.rep ha hv.len_le hp]
  exact (hv.held p b hb).2.symm

end

/-- One byte at offset 5. -/
def writeSixth : Request := ⟨.xWrite 0 (fun _ ↦ 1) 1 5, []⟩

/-- After one byte is written at offset 5 of a new file, offset 0 reads as the byte the
allocator left there and not as zero. -/
theorem not_reads_remembered : ¬ ∀ x, systemPast.Reach (fun _ _ ↦ True) x → ∀ file s, ∀ p : Nat,
    Linked x.1 file.fd → HasSize x.1 file s → (p : Int) < s.toInt →
    HasByte x.1 file p ((x.2 file.fd p).getD 0) := by
  intro hall
  obtain ⟨x, hr, hp⟩ := exists_of_checks_past remember (fun _ _ ↦ none)
    (fun _ _ ↦ True) [filled 100 0] [createA, writeSixth]
    (fun x ↦ (x.1.handle? 0).any fun file ↦
      (x.1.mem.load file.fd).isOk && (x.2 file.fd 0).isNone &&
        cFileSize x.1.mem file = .ok (.ok, 6) &&
        passes (cRead x.1.mem file 1 0) fun y ↦ y.2 0 = some 0xAA)
    (by decide +kernel) (fun _ _ _ ↦ trivial)
  obtain ⟨file, hf, hp⟩ := (Option.any_eq_true _ _).mp hp
  simp only [Bool.and_eq_true, Option.isNone_iff_eq_none, decide_eq_true_eq, passes_iff] at hp
  obtain ⟨⟨⟨hload, hpast⟩, hsize⟩, ⟨rc, t⟩, hread, ht⟩ := hp
  obtain ⟨l, hs⟩ := reach_past_sound hr
  have hbyte := hall x hr file 6 0 (linked_of_load hs hf hload) hsize (by decide)
  obtain ⟨rc', t', hread', ht'⟩ := hbyte 1 0 (by decide) (by decide) (by decide)
  rw [hread] at hread'
  cases hread'
  rw [hpast] at ht'
  change t 0 = _ at ht ht'
  rw [ht] at ht'
  exact absurd ht' (by decide)

/-- After ten bytes are written to a new file, the fourth reads as it was written. -/
theorem reads_remembered_writeTen : ∃ (x : World × Past) (file : CFile),
    x.2 file.fd 3 = some 1 ∧ HasByte x.1 file 3 ((x.2 file.fd 3).getD 0) := by
  obtain ⟨x, hr, hp⟩ := exists_of_checks_past remember (fun _ _ ↦ none)
    NoGap [filled 100 0] [createA, writeTen] (fun x ↦ (x.1.handle? 0).any fun file ↦
      (x.1.mem.load file.fd).isOk && x.2 file.fd 3 = some 1 &&
        cFileSize x.1.mem file = .ok (.ok, 10)) (by decide +kernel) (by
        intro q hq z
        simp only [List.mem_cons, List.not_mem_nil, or_false] at hq
        rcases hq with rfl | rfl
        · simp [NoGap, createA]
        · rintro h src n o file s ⟨⟩ _ _ _ _ _
          exact .inl fun p _ hp ↦ absurd hp (by simp))
  obtain ⟨file, hf, hp⟩ := (Option.any_eq_true _ _).mp hp
  simp only [Bool.and_eq_true, decide_eq_true_eq] at hp
  obtain ⟨⟨hload, hpast⟩, hsize⟩ := hp
  obtain ⟨l, hs⟩ := reach_past_sound hr
  exact ⟨x, file, hpast, reads_remembered hr (linked_of_load hs hf hload) hsize (by decide)⟩

end SqliteComposite.Vfs

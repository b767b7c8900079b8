import SqliteComposite.Vfs.Coverage

/-!
# Writes and the data they keep

`fs_write` sets the length of the file to the end of the write. A write that reaches the end
of the file so far makes the size the larger of the two and keeps every byte outside its
range; one that stops short of it cuts the file off. Every other call keeps what it should.
-/

namespace SqliteComposite.Vfs

open Base Inmemfs

/-- Size and bytes of the file are as before. -/
def Unchanged (w w' : World) (file : CFile) : Prop :=
  ∀ s, HasSize w file s → HasSize w' file s ∧
    ∀ (p : Nat) b, (p : Int) < s.toInt → HasByte w file p b → HasByte w' file p b

/-- Bytes were stored in the file, and nothing else happened to it. -/
def Overwritten (w w' : World) (file : CFile) (src : Nat → UInt8) (n : Int32) (o : Int64) :
    Prop :=
  ∀ s, HasSize w file s →
    (∃ s', HasSize w' file s' ∧ s'.toInt = max s.toInt (o.toInt + n.toInt)) ∧
    (∀ p i : Nat, (i : Int) < n.toInt → (p : Int) = o.toInt + i → HasByte w' file p (src i)) ∧
    ∀ (p : Nat) b, (p : Int) < s.toInt → ((p : Int) < o.toInt ∨ o.toInt + n.toInt ≤ p) →
      HasByte w file p b → HasByte w' file p b

/-- The file was cut off at a size, and nothing else happened to it. -/
def CutOff (w w' : World) (file : CFile) (size : Int64) : Prop :=
  ∀ s, HasSize w file s →
    (∃ s', HasSize w' file s' ∧ s'.toInt = min s.toInt size.toInt) ∧
    ∀ (p : Nat) b, (p : Int) < min s.toInt size.toInt → HasByte w file p b → HasByte w' file p b

/-- The call is a successful write of some bytes, or a truncation to a size, through a handle
on the file at `fd`. -/
def Modifies (w : World) (q : Request) (r : Reply) (fd : Addr) : Prop :=
  (∃ h src n o file, q.call = .xWrite h src n o ∧ w.handle? h = some file ∧ file.fd = fd ∧
    0 < n.toInt ∧ r = .status .ok) ∨
  ∃ h size file, q.call = .xTruncate h size ∧ w.handle? h = some file ∧ file.fd = fd ∧
    0 ≤ size.toInt

/-- The call does to every linked file what it should and no more, and a write stays inside
the buffer of its file. -/
structure KeepsData (w : World) (q : Request) : Prop where
  write : ∀ h src n o file, q.call = .xWrite h src n o → w.handle? h = some file →
    Linked w file.fd → 0 < n.toInt → w.step q ≠ .error .outOfBounds ∧
      ∀ w', w.step q = .ok (.status .ok, w') → Overwritten w w' file src n o
  truncate : ∀ h size file, q.call = .xTruncate h size → w.handle? h = some file →
    Linked w file.fd → 0 ≤ size.toInt →
      ∀ r w', w.step q = .ok (r, w') → CutOff w w' file size
  other : ∀ r w', w.step q = .ok (r, w') → ∀ file, Linked w file.fd → Linked w' file.fd →
    ¬ Modifies w q r file.fd → Unchanged w w' file

/-- A write to a file reaches the end of the file and ends at an `int`, and one of no bytes
is made at the end of the file; or the growth it needs is refused. -/
def ReachesEnd (w : World) (q : Request) : Prop :=
  ∀ h src n o file s, q.call = .xWrite h src n o → w.handle? h = some file →
    Linked w file.fd → HasSize w file s → 0 ≤ o.toInt → 0 ≤ n.toInt →
    (s.toInt ≤ o.toInt + n.toInt ∧ o.toInt + n.toInt < 2 ^ 31 ∧
      (n.toInt = 0 → o.toInt = s.toInt)) ∨
    Refuses (w.begin q.answers) file.fd (o + n.toInt64)

section

variable {w w' : World} {l l' l₁ l₂ l₃ l₄ : List FileView} {u v : FileView} {file : CFile}
  {q : Request} {r : Reply}

/-- Such a write ends at an `int`. -/
theorem ReachesEnd.endsInInt (hs : Sound w l) (hq : ReachesEnd w q) : EndsInInt w q := by
  intro h src n o file hc hf hlink ho hn
  obtain ⟨l₁, v, l₂, rfl, ha⟩ := (linked_iff hs.rep).mp hlink
  rcases hq h src n o file v.len hc hf hlink ((hasSize_iff hs.rep ha).mpr rfl) ho hn with h | h
  · exact .inl h.2.1
  · exact .inr h

/-- A file whose length and bytes are kept is unchanged. -/
theorem unchanged_of_view (hr : Rep w.list w.mem.heap (l₁ ++ v :: l₂) [])
    (hr' : Rep w'.list w'.mem.heap (l₃ ++ u :: l₄) []) (hv : v.addr = file.fd)
    (hu : u.addr = file.fd) (hvc : v.Covered) (huc : u.Covered) (hlen : u.len = v.len)
    (hdata : ∀ p : Nat, (p : Int) < v.len.toInt → u.data.data p = v.data.data p) :
    Unchanged w w' file := by
  intro s hs
  rw [hasSize_iff hr hv] at hs
  subst hs
  refine ⟨(hasSize_iff hr' hu).mpr hlen.symm, fun p b hp hb ↦ ?_⟩
  rw [hasByte_iff hr hv hvc.2 hp] at hb
  rw [hasByte_iff hr' hu huc.2 (hlen ▸ hp), hdata p hp]
  exact hb

/-- A file written to from inside it to its end or past it is overwritten. -/
theorem overwritten_of_view {src : Nat → UInt8} {n : Int32} {o : Int64} {x : FileView}
    (hr : Rep w.list w.mem.heap (l₁ ++ v :: l₂) [])
    (hr' : Rep w'.list w'.mem.heap (l₃ ++ u :: l₄) []) (hv : v.addr = file.fd)
    (hu : u.addr = file.fd) (hvc : v.Covered) (huc : u.Covered) (ho : 0 ≤ o.toInt)
    (hn : 0 ≤ n.toInt) (hg : Grow v (o + n.toInt64) true x)
    (hx : u = x.written o.toInt.toNat n.toInt.toNat src (o + n.toInt64))
    (hend : v.len.toInt ≤ o.toInt + n.toInt) (hint : o.toInt + n.toInt < 2 ^ 31) :
    Overwritten w w' file src n o := by
  have hlen : u.len.toInt = o.toInt + n.toInt := by
    rw [hx]
    change (o + n.toInt64).toInt = _
    exact toInt_end ho hn (by omega)
  have hbyte : ∀ p : Nat, u.data.data p =
      if o.toInt ≤ p ∧ (p : Int) < o.toInt + n.toInt then src (p - o.toInt.toNat)
      else x.data.data p := by
    intro p
    rw [hx]
    change (if o.toInt.toNat ≤ p ∧ p < o.toInt.toNat + n.toInt.toNat then _ else _) = _
    by_cases hp : o.toInt ≤ p ∧ (p : Int) < o.toInt + n.toInt
    · rw [if_pos hp, if_pos (by omega)]
    · rw [if_neg hp, if_neg (by omega)]
  intro s hs
  rw [hasSize_iff hr hv] at hs
  subst hs
  refine ⟨⟨u.len, (hasSize_iff hr' hu).mpr rfl, by omega⟩, fun p i hi hp ↦ ?_,
    fun p b hp hout hb ↦ ?_⟩
  · rw [hasByte_iff hr' hu huc.2 (by omega), hbyte, if_pos (by omega)]
    congr 1
    omega
  · rw [hasByte_iff hr hv hvc.2 hp] at hb
    have hcap := hvc.2
    rw [hasByte_iff hr' hu huc.2 (by omega), hbyte, if_neg (by omega), hg.data_eq (by omega)]
    exact hb

/-- Truncation of a linked file succeeds and sets the length field if that shortens it. -/
theorem truncate_outcome {h : Nat} (size : Int64) (answers : List (Option Grant))
    (hr : Rep w.list w.mem.heap (l₁ ++ v :: l₂) []) (hf : w.handle? h = some file)
    (ha : v.addr = file.fd) :
    ∃ m', w.step ⟨.xTruncate h size, answers⟩ = .ok (.status .ok, { w with mem := m' }) ∧
      Rep w.list m'.heap (l₁ ++ v.resized (if size < v.len then size else v.len) :: l₂) [] := by
  obtain ⟨m', ht, hr'⟩ := fsTruncate_spec (m := w.begin answers) hr size
  refine ⟨m', ?_, hr'⟩
  simp only [World.step, World.through, hf, cTruncate, ← ha, ht, ok_bind, ↓reduceIte]

/-! ### The condition is enough -/

private theorem keeps_write (hs : Sound w l) (hc : ∀ v ∈ l, v.Covered) (ht : ToSize w q)
    (hq : ReachesEnd w q) {h : Nat} {src : Nat → UInt8} {n : Int32} {o : Int64}
    (hcall : q.call = .xWrite h src n o) (hf : w.handle? h = some file)
    (hlink : Linked w file.fd) (hn : 0 < n.toInt) (he : w.step q = .ok (.status .ok, w')) :
    Overwritten w w' file src n o := by
  obtain ⟨l', hst, hs', hc'⟩ := covered_step hs hc ht (hq.endsInInt hs) he
  obtain ⟨c, answers⟩ := q
  cases hcall
  rcases hst.write_cases with ⟨rfl, _⟩ |
    ⟨file', l₁, v, l₂, x, hf', rfl, ha, ho, hn', hg, hfit, rfl⟩
  · exact absurd hn (by decide)
  obtain rfl : file = file' := Option.some.inj (hf.symm.trans hf')
  have hsize := (hasSize_iff hs.rep ha).mpr rfl
  have href := not_refused hs.rep hf ha ho hn' he
  obtain ⟨hend, hint, _⟩ := (hq h src n o file _ rfl hf hlink hsize ho hn').resolve_right href
  exact overwritten_of_view hs.rep hs'.rep ha (hg.addr_eq.trans ha) (hc v (by simp))
    (hc' _ (by simp)) ho hn' hg rfl hend hint

private theorem keeps_truncate (hs : Sound w l) (hc : ∀ v ∈ l, v.Covered) {h : Nat}
    {size : Int64} (hcall : q.call = .xTruncate h size) (hf : w.handle? h = some file)
    (hlink : Linked w file.fd) (he : w.step q = .ok (r, w')) :
    CutOff w w' file size := by
  obtain ⟨c, answers⟩ := q
  cases hcall
  obtain ⟨l₁, v, l₂, rfl, ha⟩ := (linked_iff hs.rep).mp hlink
  obtain ⟨m', hstep, hr'⟩ := truncate_outcome size answers hs.rep hf ha
  rw [hstep] at he
  cases he
  obtain ⟨hv0, hvle⟩ := hc v (by simp)
  have hlen : (if size < v.len then size else v.len).toInt = min v.len.toInt size.toInt := by
    split
    · next hlt =>
      have hlt := Int64.lt_iff_toInt_lt.mp hlt
      omega
    · next hge =>
      have hge : ¬ size.toInt < v.len.toInt := fun h ↦ hge (Int64.lt_iff_toInt_lt.mpr h)
      omega
  intro s hsz
  rw [hasSize_iff hs.rep ha] at hsz
  subst hsz
  have hw' : HasSize { w with mem := m' } file (if size < v.len then size else v.len) :=
    (hasSize_iff (w := { w with mem := m' }) hr' ha).mpr rfl
  refine ⟨⟨_, hw', hlen⟩, fun p b hp hb ↦ ?_⟩
  rw [hasByte_iff hs.rep ha hvle (by omega)] at hb
  refine (hasByte_iff (w := { w with mem := m' }) hr' ha ?_ ?_).mpr hb
  · change (if size < v.len then size else v.len).toInt ≤ v.data.size
    omega
  · change (p : Int) < (if size < v.len then size else v.len).toInt
    omega

private theorem keeps_other (hs : Sound w l) (hc : ∀ v ∈ l, v.Covered) (ht : ToSize w q)
    (hq : ReachesEnd w q) (he : w.step q = .ok (r, w')) (hlink : Linked w file.fd)
    (hlink' : Linked w' file.fd) (hmod : ¬ Modifies w q r file.fd) : Unchanged w w' file := by
  obtain ⟨l', hst, hs', hc'⟩ := covered_step hs hc ht (hq.endsInInt hs) he
  obtain ⟨l₁, v, l₂, rfl, ha⟩ := (linked_iff hs.rep).mp hlink
  obtain ⟨l₃, u, l₄, rfl, hu⟩ := (linked_iff hs'.rep).mp hlink'
  have hvc := hc v (by simp)
  have huc := hc' u (by simp)
  have hsame (hlen : u.len = v.len)
      (hdata : ∀ p : Nat, (p : Int) < v.len.toInt → u.data.data p = v.data.data p) :=
    unchanged_of_view hs.rep hs'.rep ha hu hvc huc hlen hdata
  rcases hst.file_cases hs.rep.nodup_addr (v := v) (u := u) (by simp) (by simp)
    (hu.trans ha.symm) with ⟨_, _, rfl, _⟩ | ⟨h, file', hf, hfd, rfl, hfs⟩
  · exact hsame rfl fun _ _ ↦ rfl
  have hf' : w.handle? h = some file' := hf
  have hlink₂ : Linked w file'.fd := by rwa [hfd, ha]
  have hsize : HasSize w file' v.len := (hasSize_iff hs.rep hfd.symm).mpr rfl
  obtain ⟨c, answers⟩ := q
  cases hfs with
  | @wrote src n o x ho hn hg hfit =>
    have hn0 : n.toInt = 0 := by
      by_contra hne
      exact hmod (.inl ⟨h, src, n, o, file', rfl, hf', hfd.trans ha, by omega, rfl⟩)
    have href := not_refused hs.rep hf' hfd.symm ho hn he
    obtain ⟨_, hint, heq⟩ := (hq h src n o file' _ rfl hf' hlink₂ hsize ho hn).resolve_right href
    have hend := toInt_end ho hn (by omega)
    refine hsame (Int64.toInt_inj.mp ?_) fun p hp ↦ ?_
    · change (o + n.toInt64).toInt = v.len.toInt
      have h := heq hn0
      omega
    · change (x.data.blit o.toInt.toNat n.toInt.toNat src).data p = _
      have hcap := hvc.2
      rw [hn0, Int.toNat_zero, Chars.blit_zero, hg.data_eq (by omega)]
  | @truncated size =>
    exfalso
    apply hmod
    exact .inr ⟨h, size, file', rfl, hf', hfd.trans ha, ht h size file' rfl hf' hlink₂⟩
  | hinted hg =>
    refine hsame hg.len_eq fun p hp ↦ ?_
    have hcap := hvc.2
    exact hg.data_eq (by omega)

/-! ### The condition is needed -/

private theorem toSize_of_keeps (hs : Sound w l) (hc : ∀ v ∈ l, v.Covered)
    (hk : KeepsData w q) : ToSize w q := by
  intro h size file hcall hf hlink
  by_contra hneg
  obtain ⟨c, answers⟩ := q
  cases hcall
  obtain ⟨l₁, v, l₂, rfl, ha⟩ := (linked_iff hs.rep).mp hlink
  obtain ⟨m', hstep, hr'⟩ := truncate_outcome size answers hs.rep hf ha
  have hv0 := (hc v (by simp)).1
  have hlink' : Linked { w with mem := m' } file.fd :=
    (linked_iff (w := { w with mem := m' }) hr').mpr ⟨l₁, _, l₂, rfl, (by exact ha)⟩
  have hmod : ¬ Modifies w ⟨.xTruncate h size, answers⟩ (.status .ok) file.fd := by
    rintro (⟨_, _, _, _, _, hcall, _⟩ | ⟨_, _, _, hcall, _, _, h0⟩)
    · cases hcall
    · cases hcall
      exact hneg h0
  have hsame := hk.other _ _ hstep file hlink hlink' hmod v.len ((hasSize_iff hs.rep ha).mpr rfl)
  have hlen := (hasSize_iff (w := { w with mem := m' }) hr' ha).mp hsame.1
  have hlt : size < v.len := Int64.lt_iff_toInt_lt.mpr (by omega)
  change v.len = (if size < v.len then size else v.len) at hlen
  rw [if_pos hlt] at hlen
  rw [hlen] at hv0
  exact hneg hv0

private theorem reachesEnd_of_keeps (hs : Sound w l) (hc : ∀ v ∈ l, v.Covered)
    (hk : KeepsData w q) : ReachesEnd w q := by
  intro h src n o file s hcall hf hlink hsize ho hn
  by_cases href : Refuses (w.begin q.answers) file.fd (o + n.toInt64)
  · exact .inr href
  left
  obtain ⟨c, answers⟩ := q
  cases hcall
  obtain ⟨l₁, v, l₂, rfl, ha⟩ := (linked_iff hs.rep).mp hlink
  obtain ⟨x, hg, ⟨m', hstep, hfit, hr'⟩ | ⟨hstep, hpos, _⟩⟩ :=
    write_outcome src hs.rep hf ha ho hn href
  · have hx := x.data.size_lt
    have holt := o.toInt_lt
    have ha' : x.addr = file.fd := hg.addr_eq.trans ha
    by_cases hn0 : n.toInt = 0
    · have hend := toInt_end ho hn (by omega)
      have hmod : ¬ Modifies w ⟨.xWrite h src n o, answers⟩ (.status .ok) file.fd := by
        rintro (⟨_, _, _, _, _, hcall, _, _, hpos, _⟩ | ⟨_, _, _, hcall, _⟩)
        · cases hcall
          omega
        · cases hcall
      have hlink' : Linked { w with mem := m' } file.fd :=
        (linked_iff (w := { w with mem := m' }) hr').mpr ⟨l₁, _, l₂, rfl, (by exact ha')⟩
      have hsame := (hk.other _ _ hstep file hlink hlink' hmod s hsize).1
      have hlen := (hasSize_iff (w := { w with mem := m' }) hr' ha').mp hsame
      have hs' : s.toInt = o.toInt + n.toInt := by
        rw [hlen]
        exact hend
      have hcap := v.data.size_lt
      have hvle := (hc v (by simp)).2
      rw [hasSize_iff hs.rep ha] at hsize
      subst hsize
      omega
    · have hend := toInt_end ho hn (by omega)
      obtain ⟨⟨s', hs', hmax⟩, _⟩ :=
        (hk.write h src n o file rfl hf hlink (by omega)).2 _ hstep s hsize
      have hlen := (hasSize_iff (w := { w with mem := m' }) hr' ha').mp hs'
      have hs'' : s'.toInt = o.toInt + n.toInt := by
        rw [hlen]
        exact hend
      omega
  · exact absurd hstep (hk.write h src n o file rfl hf hlink hpos).1

/-- In a run whose truncations are to sizes and whose writes reach the end of their file, the
next call does to every linked file what it should and no more exactly when it is such a call
itself. -/
theorem keepsData_iff (hr : system.Reach (fun w q ↦ ToSize w q ∧ ReachesEnd w q) w)
    (q : Request) : KeepsData w q ↔ ToSize w q ∧ ReachesEnd w q := by
  have hcov : ∃ l, Sound w l ∧ ∀ v ∈ l, v.Covered := by
    refine hr.invariant (P := fun w ↦ ∃ l, Sound w l ∧ ∀ v ∈ l, v.Covered) ?_ ?_
    · exact fun w hi ↦ ⟨[], init_spec hi, by simp⟩
    · rintro w q w' ⟨l, hs, hc⟩ ⟨ht, hq⟩ ⟨r, he⟩
      obtain ⟨l', _, hs', hc'⟩ := covered_step hs hc ht (hq.endsInInt hs) he
      exact ⟨l', hs', hc'⟩
  obtain ⟨l, hs, hc⟩ := hcov
  refine ⟨fun hk ↦ ⟨toSize_of_keeps hs hc hk, reachesEnd_of_keeps hs hc hk⟩, ?_⟩
  rintro ⟨ht, hq⟩
  constructor
  · intro h src n o file hcall hf hlink hn
    refine ⟨?_, fun w' he ↦ keeps_write hs hc ht hq hcall hf hlink hn he⟩
    by_cases ho : 0 ≤ o.toInt
    · have hend := hq.endsInInt hs h src n o file hcall hf hlink ho hn.le
      obtain ⟨l₁, v, l₂, rfl, ha⟩ := (linked_iff hs.rep).mp hlink
      obtain ⟨c, answers⟩ := q
      cases hcall
      exact (write_inside hs.rep hf ha ho hn.le hend).2
    · have hneg : o < 0 ∨ n < 0 := by
        by_contra h
        exact ho (not_rejected_iff.mp h).1
      obtain ⟨c, answers⟩ := q
      cases hcall
      rw [step_write hf, cWrite, fsWrite, if_pos hneg, ok_bind]
      dsimp only
      split <;> simp
  · intro h size file hcall hf hlink _ r w' he
    exact keeps_truncate hs hc hcall hf hlink he
  · intro r w' he file hlink hlink' hmod
    exact keeps_other hs hc ht hq he hlink hlink' hmod

end

/-- One byte at offset 0. -/
def writeFirst : Request := ⟨.xWrite 0 (fun _ ↦ 2) 1 0, []⟩

private theorem endsInInt_writeFirst (w : World) : EndsInInt w writeFirst := by
  rintro h src n o file ⟨⟩ _ _ _ _
  exact .inl (by decide)

private theorem endsInInt_writeTen (w : World) : EndsInInt w writeTen := by
  rintro h src n o file ⟨⟩ _ _ _ _
  exact .inl (by decide)

/-- Writing one byte at the start of a file of ten leaves a file of one. -/
theorem not_keepsData : ¬ ∀ w, system.Reach (fun w q ↦ ToSize w q ∧ EndsInInt w q) w →
    ∀ q, ToSize w q ∧ EndsInInt w q → KeepsData w q := by
  intro hall
  obtain ⟨w, hr, hp⟩ := exists_of_checks (fun w q ↦ ToSize w q ∧ EndsInInt w q)
    [filled 100 0] [createA, writeTen] (fun w ↦ (w.handle? 0).any fun file ↦
      (w.mem.load file.fd).isOk && cFileSize w.mem file = .ok (.ok, 10) &&
        passes (w.step writeFirst) fun y ↦
          y.1.succeeded && cFileSize y.2.mem file = .ok (.ok, 1)) (by decide +kernel) (by
        intro q hq w
        simp only [List.mem_cons, List.not_mem_nil, or_false] at hq
        rcases hq with rfl | rfl
        · simp [ToSize, EndsInInt, createA]
        · exact ⟨by simp [ToSize, writeTen], endsInInt_writeTen w⟩)
  obtain ⟨file, hf, hp⟩ := (Option.any_eq_true _ _).mp hp
  simp only [Bool.and_eq_true, decide_eq_true_eq, passes_iff, Reply.succeeded_iff] at hp
  obtain ⟨⟨hload, hsz⟩, ⟨r, w'⟩, he, rfl, hsz'⟩ := hp
  obtain ⟨l, hs⟩ := reach_sound hr
  have hlink := linked_of_load hs hf hload
  have hk := hall w hr writeFirst ⟨by simp [ToSize, writeFirst], endsInInt_writeFirst w⟩
  obtain ⟨⟨s', hs', hmax⟩, _⟩ :=
    (hk.write 0 _ _ _ file rfl hf hlink (by decide)).2 w' he 10 hsz
  rw [HasSize, hsz'] at hs'
  cases hs'
  exact absurd hmax (by decide)

/-- The result after the file `a` is created. -/
theorem keepsData_iff_createA : ∃ w, (w.handle? 0).isSome = true ∧
    ∀ q, KeepsData w q ↔ ToSize w q ∧ ReachesEnd w q := by
  obtain ⟨w, hr, hp⟩ := exists_of_checks (fun w q ↦ ToSize w q ∧ ReachesEnd w q)
    [filled 100 0] [createA] (fun w ↦ (w.handle? 0).isSome)
    (by decide +kernel) (by simp [ToSize, ReachesEnd, createA])
  exact ⟨w, hp, keepsData_iff hr⟩

end SqliteComposite.Vfs

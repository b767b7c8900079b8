import SqliteComposite.Base.CInt
import SqliteComposite.Mem.Methods

/-!
# Headers and payloads in memory

What each function of the allocator does to the bytes of memory, case by case. A header
stores the four bytes of a size and reads back as that size; a copy changes payload bytes of
the new region alone. No access hands a pointer to `free`.
-/

namespace SqliteComposite.Mem

open Base

/-- The bytes of memory after the `int` at `region` is assigned. -/
def poke (f : Int → UInt8) (region : Int) (v : Int32) : Int → UInt8 := fun x ↦
  if region ≤ x ∧ x < region + sizeofInt then intByte v (x - region).toNat else f x

/-- The `int` at `region` lies in the object `region` points into. -/
def HasHeader (b : Build) (s : State) (region : Int) : Prop :=
  region ≠ 0 ∧ ∀ x, region ≤ x → x < region + sizeofInt → InBounds b s region x

/-- The bytes at `region` are those of the `int`. -/
def Header (s : State) (region : Int) (v : Int32) : Prop :=
  ∀ k < sizeofInt, s.bytes (region + k) = intByte v k

/-- The allocator has memory left for the request. -/
def HasRoom (b : Build) (s : State) (sz : Int32) : Prop :=
  match b with
  | .useMalloc => True
  | .arena base _ => s.freeMemory + sz.toInt < base + memoryArenaSize

/-- A region handed out for a request: none is left in the arena, the arena's next bytes, or
what `malloc` returned. -/
inductive MallocTo : Build → State → Int32 → Int → State → Prop
  | exhausted {base : Int} {h : 0 < base} {s : State} {sz : Int32} :
      base + memoryArenaSize ≤ s.freeMemory + sz.toInt → MallocTo (.arena base h) s sz 0 s
  | advanced {base : Int} {h : 0 < base} {s : State} {sz : Int32} :
      s.freeMemory + sz.toInt < base + memoryArenaSize →
      HasHeader (.arena base h) s s.freeMemory →
      MallocTo (.arena base h) s sz s.freeMemory { s with
        bytes := poke s.bytes s.freeMemory sz
        freeMemory := s.freeMemory + sz.toInt
        appData := s.appData.add sz }
  | granted {s : State} {sz : Int32} {a : Int} {fill : Int → UInt8} :
      Available s a (regionSize sz).toNat → sizeofInt ≤ (regionSize sz).toNat →
      (∀ x, ¬ (a ≤ x ∧ x < a + (regionSize sz).toNat) → fill x = s.bytes x) →
      MallocTo .useMalloc s sz a { s with
        bytes := poke fill a sz
        appData := s.appData.add sz
        regions := ⟨a, (regionSize sz).toNat⟩ :: s.regions }

section

variable {b : Build} {s s' : State} {region x : Int} {v : Int32} {e : Fault} {off : Nat}
  {c : UInt8}

/-! ### Bytes -/

/-- What is in bounds does not depend on the bytes there. -/
@[simp] theorem inBounds_bytes (f : Int → UInt8) :
    InBounds b { s with bytes := f } region x ↔ InBounds b s region x := by
  cases b <;> exact Iff.rfl

/-- Reading a byte in bounds. -/
theorem readByte_eq (h0 : region ≠ 0) (hb : InBounds b s region (region + off)) :
    readByte b s region off = .ok (s.bytes (region + off)) := by
  rw [readByte, if_neg h0, if_pos hb]

/-- Writing a byte in bounds. -/
theorem writeByte_eq (h0 : region ≠ 0) (hb : InBounds b s region (region + off)) :
    writeByte b s region off c =
      .ok { s with bytes := Function.update s.bytes (region + off) c } := by
  rw [writeByte, if_neg h0, if_pos hb]

/-- A byte that was read is the one in memory. -/
theorem readByte_ok (h : readByte b s region off = .ok c) :
    region ≠ 0 ∧ InBounds b s region (region + off) ∧ s.bytes (region + off) = c := by
  unfold readByte at h
  split at h
  · cases h
  · next h0 =>
    split at h
    · next hb =>
      injection h with h
      exact ⟨h0, hb, h⟩
    · cases h

/-- A byte that was written is in memory, and nothing else has changed. -/
theorem writeByte_ok (h : writeByte b s region off c = .ok s') :
    region ≠ 0 ∧ InBounds b s region (region + off) ∧
      s' = { s with bytes := Function.update s.bytes (region + off) c } := by
  unfold writeByte at h
  split at h
  · cases h
  · next h0 =>
    split at h
    · next hb =>
      injection h with h
      exact ⟨h0, hb, h.symm⟩
    · cases h

/-- Reading a byte frees nothing. -/
theorem readByte_fault (h : readByte b s region off = .error e) : e ≠ .badRelease := by
  unfold readByte at h
  split at h
  · cases h
    decide
  · split at h
    · cases h
    · cases h
      decide

/-- Writing a byte frees nothing. -/
theorem writeByte_fault (h : writeByte b s region off c = .error e) : e ≠ .badRelease := by
  unfold writeByte at h
  split at h
  · cases h
    decide
  · split at h
    · cases h
    · cases h
      decide

/-- Where a payload byte of the region at a block is. -/
theorem getRegion_add (mem : Int) (i : Nat) :
    getRegion mem + (i + sizeofInt : Nat) = mem + i := by
  unfold getRegion
  push_cast
  omega

/-- Where a payload byte of a region is. -/
theorem getMemory_add (region : Int) (i : Nat) :
    region + (i + sizeofInt : Nat) = getMemory region + i := by
  unfold getMemory
  push_cast
  omega

/-! ### Headers -/

/-- The bytes of an `int` are read back as that `int`. -/
theorem intOfBytes_intByte (v : Int32) : intOfBytes (intByte v) = v := by
  have hn : v.toUInt32.toNat < 2 ^ 32 := v.toUInt32.toNat_lt
  have hb (k : Nat) : (intByte v k).toNat = v.toUInt32.toNat / 256 ^ k % 256 := by
    rw [intByte, UInt8.toNat_ofNat']
    omega
  have hsum : (intByte v 0).toNat + 256 * (intByte v 1).toNat + 256 ^ 2 * (intByte v 2).toNat +
      256 ^ 3 * (intByte v 3).toNat = v.toUInt32.toNat := by
    simp only [hb]
    omega
  rw [intOfBytes, hsum, UInt32.ofNat_toNat]
  rfl

/-- A header in bounds can be read. -/
theorem readInt_eq (hb : HasHeader b s region) (hv : Header s region v) :
    readInt b s region = .ok v := by
  have hread (k : Nat) (hk : k < sizeofInt) :
      readByte b s region k = .ok (intByte v k) := by
    rw [← hv k hk]
    exact readByte_eq hb.1 (hb.2 _ (by omega) (by omega))
  simp only [readInt, hread 0 (by decide), hread 1 (by decide), hread 2 (by decide),
    hread 3 (by decide), ok_bind]
  congr 1
  conv_rhs => rw [← intOfBytes_intByte v]
  simp [intOfBytes]

/-- The `int` with some bytes has those bytes. -/
theorem intByte_intOfBytes (f : Nat → UInt8) {k : Nat} (hk : k < sizeofInt) :
    intByte (intOfBytes f) k = f k := by
  have hlt (k : Nat) : (f k).toNat < 256 := (f k).toNat_lt
  have h0 := hlt 0
  have h1 := hlt 1
  have h2 := hlt 2
  have h3 := hlt 3
  have hn : (intOfBytes f).toUInt32.toNat = (f 0).toNat + 256 * (f 1).toNat +
      256 ^ 2 * (f 2).toNat + 256 ^ 3 * (f 3).toNat := by
    rw [intOfBytes, UInt32.toUInt32_toInt32, UInt32.toNat_ofNat_of_lt']
    simp only [UInt32.size]
    omega
  rw [← UInt8.toNat_inj, intByte, UInt8.toNat_ofNat', hn]
  have hk : k < 4 := hk
  interval_cases k <;> omega

/-- An `int` in bounds can be read. -/
theorem HasHeader.readInt_eq (hb : HasHeader b s region) : ∃ v, readInt b s region = .ok v :=
  ⟨_, Mem.readInt_eq hb fun _ hk ↦
    (intByte_intOfBytes (fun k ↦ s.bytes (region + k)) hk).symm⟩

/-- An `int` that was read is in memory. -/
theorem readInt_ok (h : readInt b s region = .ok v) :
    HasHeader b s region ∧ Header s region v := by
  obtain ⟨c₀, h₀, h⟩ := bind_ok h
  obtain ⟨c₁, h₁, h⟩ := bind_ok h
  obtain ⟨c₂, h₂, h⟩ := bind_ok h
  obtain ⟨c₃, h₃, h⟩ := bind_ok h
  obtain ⟨h0, b₀, e₀⟩ := readByte_ok h₀
  obtain ⟨_, b₁, e₁⟩ := readByte_ok h₁
  obtain ⟨_, b₂, e₂⟩ := readByte_ok h₂
  obtain ⟨_, b₃, e₃⟩ := readByte_ok h₃
  injection h with h
  have h4 : sizeofInt = 4 := rfl
  constructor
  · refine ⟨h0, fun x hx hlt ↦ ?_⟩
    obtain ⟨k, rfl⟩ : ∃ k : Nat, x = region + k := ⟨(x - region).toNat, by omega⟩
    have hk : k < 4 := by omega
    interval_cases k
    · exact b₀
    · exact b₁
    · exact b₂
    · exact b₃
  · intro k hk
    rw [← h, intByte_intOfBytes _ hk]
    have hk : k < 4 := hk
    interval_cases k
    · exact e₀
    · exact e₁
    · exact e₂
    · exact e₃

/-- A header in bounds can be assigned. -/
theorem writeInt_eq (hb : HasHeader b s region) :
    writeInt b s region v = .ok { s with bytes := poke s.bytes region v } := by
  have hin (k : Nat) (hk : k < sizeofInt) : InBounds b s region (region + k) :=
    hb.2 _ (by omega) (by omega)
  have hstep (f : Int → UInt8) (k : Nat) (hk : k < sizeofInt) :
      writeByte b { s with bytes := f } region k (intByte v k) =
        .ok { s with bytes := Function.update f (region + k) (intByte v k) } :=
    writeByte_eq (s := { s with bytes := f }) hb.1 ((inBounds_bytes f).mpr (hin k hk))
  have h4 : sizeofInt = 4 := rfl
  rw [writeInt, hstep s.bytes 0 (by decide), ok_bind, hstep _ 1 (by decide), ok_bind,
    hstep _ 2 (by decide), ok_bind, hstep _ 3 (by decide)]
  congr 2
  ext x : 1
  simp only [Function.update_apply, poke, h4]
  push_cast
  by_cases hx : region ≤ x ∧ x < region + 4
  · obtain ⟨k, rfl⟩ : ∃ k : Nat, x = region + k := ⟨(x - region).toNat, by omega⟩
    rw [if_pos hx, show (region + k - region).toNat = k by omega]
    have hk : k < 4 := by omega
    interval_cases k <;> simp
  · rw [if_neg hx, if_neg (by omega), if_neg (by omega), if_neg (by omega), if_neg (by omega)]

/-- A header that was assigned is in bounds. -/
theorem writeInt_ok (h : writeInt b s region v = .ok s') :
    HasHeader b s region ∧ s' = { s with bytes := poke s.bytes region v } := by
  have hb : HasHeader b s region := by
    obtain ⟨s₁, h₁, h'⟩ := bind_ok h
    obtain ⟨s₂, h₂, h'⟩ := bind_ok h'
    obtain ⟨s₃, h₃, h₄⟩ := bind_ok h'
    obtain ⟨h0, b₀, rfl⟩ := writeByte_ok h₁
    obtain ⟨_, b₁, rfl⟩ := writeByte_ok h₂
    obtain ⟨_, b₂, rfl⟩ := writeByte_ok h₃
    obtain ⟨_, b₃, _⟩ := writeByte_ok h₄
    simp only [inBounds_bytes] at b₁ b₂ b₃
    refine ⟨h0, fun x hx hlt ↦ ?_⟩
    obtain ⟨k, rfl⟩ : ∃ k : Nat, x = region + k := ⟨(x - region).toNat, by omega⟩
    have h4 : sizeofInt = 4 := rfl
    have hk : k < 4 := by omega
    interval_cases k
    · exact b₀
    · exact b₁
    · exact b₂
    · exact b₃
  rw [writeInt_eq hb] at h
  injection h with h
  exact ⟨hb, h.symm⟩

/-- Assigning a header frees nothing. -/
theorem writeInt_fault (h : writeInt b s region v = .error e) : e ≠ .badRelease := by
  rcases bind_error h with h | ⟨_, _, h⟩
  · exact writeByte_fault h
  rcases bind_error h with h | ⟨_, _, h⟩
  · exact writeByte_fault h
  rcases bind_error h with h | ⟨_, _, h⟩
  · exact writeByte_fault h
  · exact writeByte_fault h

/-- Reading a header frees nothing. -/
theorem readInt_fault (h : readInt b s region = .error e) : e ≠ .badRelease := by
  rcases bind_error h with h | ⟨_, _, h⟩
  · exact readByte_fault h
  rcases bind_error h with h | ⟨_, _, h⟩
  · exact readByte_fault h
  rcases bind_error h with h | ⟨_, _, h⟩
  · exact readByte_fault h
  rcases bind_error h with h | ⟨_, _, h⟩
  · exact readByte_fault h
  · cases h

/-- The header just assigned. -/
theorem header_poke (f : Int → UInt8) (hf : s.bytes = poke f region v) : Header s region v := by
  intro k hk
  rw [hf, poke, if_pos (by omega)]
  congr 1
  omega

/-- A header away from an assigned one keeps its bytes. -/
theorem Header.of_eq {s' : State} (h : Header s region v)
    (hf : ∀ x, region ≤ x → x < region + sizeofInt → s'.bytes x = s.bytes x) :
    Header s' region v := by
  intro k hk
  rw [hf _ (by omega) (by omega), h k hk]

/-! ### Regions -/

variable {sz : Int32} {offer : Option Grant}

/-- How many bytes are asked for a region. -/
theorem toNat_regionSize (sz : Int32) : ((regionSize sz).toNat : Int) =
    if 0 ≤ sz.toInt + sizeofInt then sz.toInt + sizeofInt else sz.toInt + sizeofInt + 2 ^ 64 := by
  have hlo := sz.le_toInt
  have hhi := sz.toInt_lt
  have hsum : (sz.toInt64 + 4).toInt = sz.toInt + sizeofInt := by
    rw [Int64.toInt_add, Int32.toInt_toInt64, show (4 : Int64).toInt = sizeofInt from rfl]
    have h4 : sizeofInt = 4 := rfl
    exact Int.bmod_eq_of_le (by omega) (by omega)
  rw [regionSize, toNat_toUInt64, hsum]

/-- How many bytes are asked for a positive size. -/
theorem regionSize_toNat (hsz : 0 < sz.toInt) :
    ((regionSize sz).toNat : Int) = sz.toInt + sizeofInt := by
  rw [toNat_regionSize, if_pos (by omega)]

/-- A region of the `malloc` build is one the C library offered and may return, with its header
written. -/
private theorem mallocRegion_written
    (h : mallocRegion .useMalloc s sz offer = .ok (region, s')) :
    ∃ g s₁, offer = some g ∧ region = g.addr ∧ Available s g.addr (regionSize sz).toNat ∧
      writeInt .useMalloc { s with
        bytes := fun x ↦ if (g.addr : Int) ≤ x ∧ x < g.addr + (regionSize sz).toNat then
          g.fill (x - g.addr).toNat else s.bytes x
        regions := ⟨g.addr, (regionSize sz).toNat⟩ :: s.regions } g.addr sz = .ok s₁ ∧
      s' = { s₁ with appData := s₁.appData.add sz } := by
  unfold mallocRegion cMalloc at h
  dsimp only at h
  split at h
  · obtain ⟨s₁, hw, h⟩ := bind_ok h
    exact absurd rfl (writeInt_ok hw).1.1
  · next g =>
    split at h
    · next hav =>
      obtain ⟨s₁, hw, h⟩ := bind_ok h
      cases h
      exact ⟨g, s₁, rfl, rfl, hav, hw, rfl⟩
    · obtain ⟨s₁, hw, h⟩ := bind_ok h
      exact absurd rfl (writeInt_ok hw).1.1

/-- A region of the `malloc` build is one the C library offered and may return. -/
theorem mallocRegion_offered (h : mallocRegion .useMalloc s sz offer = .ok (region, s')) :
    ∃ g, offer = some g ∧ region = g.addr ∧ Available s g.addr (regionSize sz).toNat := by
  obtain ⟨g, _, hoffer, hregion, hav, _⟩ := mallocRegion_written h
  exact ⟨g, hoffer, hregion, hav⟩

/-- Handing out a region refines its relation. -/
theorem mallocRegion_ok (h : mallocRegion b s sz offer = .ok (region, s')) :
    MallocTo b s sz region s' := by
  cases b with
  | arena base h0 =>
    unfold mallocRegion at h
    dsimp only at h
    split at h
    · next hfull =>
      cases h
      exact .exhausted hfull
    · next hroom =>
      obtain ⟨s₁, hw, h⟩ := bind_ok h
      cases h
      obtain ⟨hb, rfl⟩ := writeInt_ok hw
      exact .advanced (by omega) hb
  | useMalloc =>
    obtain ⟨g, s₁, rfl, rfl, hav, hw, rfl⟩ := mallocRegion_written h
    obtain ⟨hb, rfl⟩ := writeInt_ok hw
    have hfit : sizeofInt ≤ (regionSize sz).toNat := by
      have h4 : sizeofInt = 4 := rfl
      obtain ⟨r, hr, hs, _, hx⟩ := hb.2 ((g.addr : Int) + 3) (by omega) (by simp [h4])
      simp only [List.mem_cons] at hr
      rcases hr with rfl | hr
      · simp only at hx
        omega
      · exact absurd hs.symm (hav.2.2 r hr).1
    exact .granted hav hfit fun x hx ↦ if_neg hx

/-- Handing out a region frees nothing. -/
theorem mallocRegion_fault (h : mallocRegion b s sz offer = .error e) : e ≠ .badRelease := by
  cases b with
  | arena base h0 =>
    unfold mallocRegion at h
    dsimp only at h
    split at h
    · cases h
    · rcases bind_error h with h | ⟨_, _, h⟩
      · exact writeInt_fault h
      · cases h
  | useMalloc =>
    rcases bind_error h with h | ⟨_, _, h⟩
    · exact writeInt_fault h
    · cases h

/-- A region of the arena whose header is in bounds is handed out. -/
theorem mallocRegion_arena {base : Int} {h0 : 0 < base} (s : State) (offer : Option Grant)
    (hb : s.freeMemory + sz.toInt < base + memoryArenaSize →
      HasHeader (.arena base h0) s s.freeMemory) :
    ∃ region s', mallocRegion (.arena base h0) s sz offer = .ok (region, s') := by
  unfold mallocRegion
  dsimp only
  split
  · exact ⟨_, _, rfl⟩
  · have hb' : HasHeader (.arena base h0) { s with freeMemory := s.freeMemory + sz.toInt }
        s.freeMemory := hb (by omega)
    exact ⟨_, _, by rw [writeInt_eq hb']; rfl⟩

/-- A region the C library may return is handed out when it holds a header. -/
theorem mallocRegion_granted {g : Grant} (hav : Available s g.addr (regionSize sz).toNat)
    (h4 : sizeofInt ≤ (regionSize sz).toNat) :
    ∃ s', mallocRegion .useMalloc s sz (some g) = .ok ((g.addr : Int), s') := by
  have hpos := hav.1
  unfold mallocRegion cMalloc
  dsimp only
  rw [if_pos hav, writeInt_eq]
  · exact ⟨_, rfl⟩
  · refine ⟨hpos.ne', fun x hx hlt ↦ ⟨_, List.mem_cons_self, rfl, hx, ?_⟩⟩
    dsimp only
    omega

/-! ### Copies -/

variable {newRegion oldRegion : Int}

/-- A copy changes payload bytes of the new region alone. -/
theorem copyPayload_ok (n : Nat) : ∀ {i : Nat} {s : State},
    copyPayload b newRegion oldRegion i n s = .ok s' → s' = { s with bytes := s'.bytes } ∧
      ∀ x, ¬ (newRegion + sizeofInt ≤ x ∧ InBounds b s newRegion x) →
        s'.bytes x = s.bytes x := by
  induction n with
  | zero =>
    intro i s h
    cases h
    exact ⟨rfl, fun _ _ ↦ rfl⟩
  | succ n ih =>
    intro i s h
    rw [copyPayload] at h
    obtain ⟨c, _, h⟩ := bind_ok h
    obtain ⟨s₁, hw, h⟩ := bind_ok h
    obtain ⟨_, hin, rfl⟩ := writeByte_ok hw
    obtain ⟨he, hf⟩ := ih h
    refine ⟨he, fun x hx ↦ ?_⟩
    rw [hf x (by rwa [inBounds_bytes])]
    apply Function.update_of_ne
    rintro rfl
    exact hx ⟨by push_cast; omega, hin⟩

/-- A copy frees nothing. -/
theorem copyPayload_fault (n : Nat) : ∀ {i : Nat} {s : State},
    copyPayload b newRegion oldRegion i n s = .error e → e ≠ .badRelease := by
  induction n with
  | zero =>
    intro i s h
    cases h
  | succ n ih =>
    intro i s h
    rw [copyPayload] at h
    rcases bind_error h with h | ⟨_, _, h⟩
    · exact readByte_fault h
    rcases bind_error h with h | ⟨_, _, h⟩
    · exact writeByte_fault h
    · exact ih h

/-- A copy that returns has read and written in bounds. -/
theorem copyPayload_inBounds (n : Nat) : ∀ {i : Nat} {s : State},
    copyPayload b newRegion oldRegion i n s = .ok s' → ∀ j, i ≤ j → j < i + n →
      InBounds b s oldRegion (oldRegion + (j + sizeofInt : Nat)) ∧
        InBounds b s newRegion (newRegion + (j + sizeofInt : Nat)) := by
  induction n with
  | zero =>
    intro i s _ j _ _
    omega
  | succ n ih =>
    intro i s h j hj hlt
    rw [copyPayload] at h
    obtain ⟨c, hread, h⟩ := bind_ok h
    obtain ⟨s₁, hw, h⟩ := bind_ok h
    obtain ⟨_, hfrom, _⟩ := readByte_ok hread
    obtain ⟨_, hin, rfl⟩ := writeByte_ok hw
    by_cases he : j = i
    · rw [he]
      exact ⟨hfrom, hin⟩
    · simpa only [inBounds_bytes] using ih h j (by omega) (by omega)

/-- A copy from and to bytes in bounds returns. -/
theorem copyPayload_returns (hold : oldRegion ≠ 0) (hnew : newRegion ≠ 0) (n : Nat) :
    ∀ {i : Nat} {s : State}, (∀ j : Nat, i ≤ j → j < i + n →
        InBounds b s oldRegion (oldRegion + (j + sizeofInt : Nat)) ∧
        InBounds b s newRegion (newRegion + (j + sizeofInt : Nat))) →
      ∃ s', copyPayload b newRegion oldRegion i n s = .ok s' := by
  induction n with
  | zero => exact fun _ ↦ ⟨_, rfl⟩
  | succ n ih =>
    intro i s hin
    obtain ⟨ho, hn⟩ := hin i le_rfl (by omega)
    rw [copyPayload, readByte_eq hold ho, ok_bind, writeByte_eq hnew hn, ok_bind]
    apply ih
    intro j hj hlt
    simpa only [inBounds_bytes] using hin j (by omega) (by omega)

/-- A copy changes the bytes it counts alone. -/
theorem copyPayload_frame (n : Nat) : ∀ {i : Nat} {s : State},
    copyPayload b newRegion oldRegion i n s = .ok s' → ∀ x,
      ¬ (newRegion + (i + sizeofInt : Nat) ≤ x ∧ x < newRegion + (i + sizeofInt : Nat) + n) →
      s'.bytes x = s.bytes x := by
  induction n with
  | zero =>
    intro i s h x _
    cases h
    rfl
  | succ n ih =>
    intro i s h x hx
    rw [copyPayload] at h
    obtain ⟨c, _, h⟩ := bind_ok h
    obtain ⟨s₁, hw, h⟩ := bind_ok h
    obtain ⟨_, _, rfl⟩ := writeByte_ok hw
    rw [ih h x (by push_cast at hx ⊢; omega)]
    apply Function.update_of_ne
    push_cast at hx ⊢
    omega

/-- After a copy that overwrites no byte once it is read, the copied bytes are the ones read. -/
theorem copyPayload_copies (n : Nat) : ∀ {i : Nat} {s : State},
    copyPayload b newRegion oldRegion i n s = .ok s' →
      (∀ j k : Nat, i ≤ j → j ≤ k → k < i + n → newRegion + k ≠ oldRegion + j) →
      ∀ j, i ≤ j → j < i + n → s'.bytes (newRegion + (j + sizeofInt : Nat)) =
        s'.bytes (oldRegion + (j + sizeofInt : Nat)) := by
  induction n with
  | zero =>
    intro i s _ _ j _ _
    omega
  | succ n ih =>
    intro i s h hap j hj hlt
    rw [copyPayload] at h
    obtain ⟨c, hread, h⟩ := bind_ok h
    obtain ⟨s₁, hw, h⟩ := bind_ok h
    obtain ⟨_, _, hc⟩ := readByte_ok hread
    obtain ⟨_, _, rfl⟩ := writeByte_ok hw
    by_cases he : j = i
    · -- Neither the byte written now nor the byte read for it is written again.
      subst he
      have hself := hap j j le_rfl le_rfl (by omega)
      rw [copyPayload_frame n h _ (by push_cast; omega), copyPayload_frame n h]
      · dsimp only
        rw [Function.update_self, Function.update_of_ne (by push_cast; omega), hc]
      · rintro ⟨hge, hle⟩
        push_cast at hge hle
        have hne := hap j (oldRegion + j - newRegion).toNat le_rfl (by omega) (by omega)
        omega
    · exact ih h (fun j k hj hk hlt ↦ hap j k (by omega) hk (by omega)) j (by omega) (by omega)

/-- Copies upwards from memories that agree below a byte agree there. -/
theorem copyPayload_agree {t' : State} {y : Int} (hup : oldRegion ≤ newRegion) (n : Nat) :
    ∀ {i : Nat} {s t : State}, copyPayload b newRegion oldRegion i n s = .ok s' →
      copyPayload b newRegion oldRegion i n t = .ok t' →
      (∀ x < y, s.bytes x = t.bytes x) → ∀ x < y, s'.bytes x = t'.bytes x := by
  induction n with
  | zero =>
    intro i s t h h' hag
    cases h
    cases h'
    exact hag
  | succ n ih =>
    intro i s t h h' hag
    rw [copyPayload] at h h'
    obtain ⟨c, hread, h⟩ := bind_ok h
    obtain ⟨s₁, hw, h⟩ := bind_ok h
    obtain ⟨c', hread', h'⟩ := bind_ok h'
    obtain ⟨t₁, hw', h'⟩ := bind_ok h'
    obtain ⟨_, _, hc⟩ := readByte_ok hread
    obtain ⟨_, _, hc'⟩ := readByte_ok hread'
    obtain ⟨_, _, rfl⟩ := writeByte_ok hw
    obtain ⟨_, _, rfl⟩ := writeByte_ok hw'
    apply ih h h'
    intro x hx
    by_cases he : x = newRegion + (i + sizeofInt : Nat)
    · subst he
      have hlow := hag (oldRegion + (i + sizeofInt : Nat)) (by omega)
      simp only [Function.update_self, ← hc, ← hc', hlow]
    · simp only [Function.update_of_ne he, hag x hx]

/-- Freeing changes neither the bytes of memory nor the static variables. -/
theorem cMemFree_ok {mem : Int} (h : cMemFree s mem = .ok s') :
    s' = { s with regions := s'.regions, freed := s'.freed } := by
  unfold cMemFree cFree at h
  split at h
  · cases h
    rfl
  · split at h
    · cases h
      rfl
    · split at h <;> cases h
      rfl

end
end SqliteComposite.Mem

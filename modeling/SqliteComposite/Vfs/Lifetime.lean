import SqliteComposite.Vfs.Files

/-!
# Handles and the files they hold

As long as fewer than `2 ^ 31` handles are open, every open handle is on a linked file, the
`ref` of a file is the number of handles on it, and a file marked for deletion has one. The
only fault of a named call is then an index outside a file's buffer.
-/

namespace SqliteComposite.Vfs

open Base Inmemfs

/-- The number of open handles on the file at `a`. -/
def holders (hs : List (Nat × CFile)) (a : Addr) : Nat := hs.countP fun p ↦ p.2.fd = a

/-- The open handles are distinct and are those the files count, and a file marked for
deletion has one. -/
structure Held (l : List FileView) (hs : List (Nat × CFile)) : Prop where
  keys : (hs.map Prod.fst).Nodup
  linked : ∀ p ∈ hs, p.2.fd ∈ l.map FileView.addr
  counted : ∀ v ∈ l, v.ref.toInt = holders hs v.addr
  pending : ∀ v ∈ l, v.deleteOnClose ≠ 0 → 0 < v.ref.toInt

/-- Fewer than `2 ^ 31` handles are open after the call. -/
def FewHandles (w : World) (q : Request) : Prop :=
  ∀ h zName flags, q.call = .xOpen h zName flags → w.handles.length + 1 < 2 ^ 31

/-- The call names no file by the null pointer. -/
def Call.Named : Call → Prop
  | .xOpen _ zName _ => zName ≠ none
  | .xDelete zName => zName ≠ none
  | .xAccess zName => zName ≠ none
  | _ => True

/-! ### Counting handles -/

section Holders

variable {hs : List (Nat × CFile)} {h : Nat} {file : CFile} {a : Addr}

/-- One more handle. -/
theorem holders_cons : holders ((h, file) :: hs) a =
    holders hs a + if file.fd = a then 1 else 0 := by
  simp only [holders, List.countP_cons, decide_eq_true_eq]

/-- No more handles than there are. -/
theorem holders_le : holders hs a ≤ hs.length := List.countP_le_length

/-- A file without handles is the file of none. -/
theorem holders_eq_zero : holders hs a = 0 ↔ ∀ p ∈ hs, p.2.fd ≠ a := by
  simp only [holders, List.countP_eq_zero, decide_eq_true_eq, ne_eq]

/-- Closing a handle takes one from its file. -/
theorem holders_filter (hn : (hs.map Prod.fst).Nodup) (hf : hs.lookup h = some file) :
    holders hs a = holders (hs.filter fun p ↦ p.1 ≠ h) a + if file.fd = a then 1 else 0 := by
  obtain ⟨l₁, l₂, rfl, _⟩ := List.lookup_eq_some_iff.mp hf
  simp only [List.map_append, List.map_cons, List.nodup_append, List.nodup_cons,
    List.mem_map, List.mem_cons] at hn
  have h₁ : (l₁.filter fun p ↦ p.1 ≠ h) = l₁ := by
    apply List.filter_eq_self.mpr
    intro p hp
    simpa using hn.2.2 p.1 ⟨p, hp, rfl⟩ h (.inl rfl)
  have h₂ : (l₂.filter fun p ↦ p.1 ≠ h) = l₂ := by
    apply List.filter_eq_self.mpr
    intro p hp
    simpa using fun he ↦ hn.2.1.1 ⟨p, hp, he⟩
  rw [List.filter_append, List.filter_cons_of_neg (by simp), h₁, h₂]
  simp only [holders, List.countP_append, List.countP_cons, decide_eq_true_eq]
  omega

end Holders

/-! ### What each step preserves -/

namespace Held

variable {l l' l₁ l₂ : List FileView} {hs hs' : List (Nat × CFile)} {u v : FileView} {h : Nat}
  {z : CStr} {a : Addr} {file : CFile} {c : Call} {r : Reply}

/-- A file that no handle is on is counted as such. -/
theorem fresh (hh : Held l hs) (ha : a ∉ l.map FileView.addr) : holders hs a = 0 := by
  rw [holders_eq_zero]
  intro p hp he
  exact ha (he ▸ hh.linked p hp)

/-- Each file counts no more handles than there are. -/
theorem ref_le (hh : Held l hs) (hv : v ∈ l) : 0 ≤ v.ref.toInt ∧ v.ref.toInt ≤ hs.length := by
  have hc := hh.counted v hv
  have hle : holders hs v.addr ≤ hs.length := holders_le
  omega

/-- One file may change its counters with the handles on it. -/
theorem replace (hh : Held (l₁ ++ v :: l₂) hs) (hn : ((l₁ ++ v :: l₂).map FileView.addr).Nodup)
    (ha : u.addr = v.addr) (hk : (hs'.map Prod.fst).Nodup)
    (hsub : ∀ p ∈ hs', p ∈ hs ∨ p.2.fd = v.addr)
    (hother : ∀ b, b ≠ v.addr → holders hs' b = holders hs b)
    (hc : u.ref.toInt = holders hs' v.addr) (hp : u.deleteOnClose ≠ 0 → 0 < u.ref.toInt) :
    Held (l₁ ++ u :: l₂) hs' where
  keys := hk
  linked p hp := by
    have he : (l₁ ++ u :: l₂).map FileView.addr = (l₁ ++ v :: l₂).map FileView.addr := by
      simp [ha]
    rw [he]
    rcases hsub p hp with hp | hp
    · exact hh.linked p hp
    · simp [hp]
  counted x hx := by
    rcases mem_replace hn hx with rfl | ⟨hx, hne⟩
    · rw [ha, hc]
    · rw [hother _ hne, hh.counted x hx]
  pending x hx hdel := by
    rcases mem_replace hn hx with rfl | ⟨hx, _⟩
    · exact hp hdel
    · exact hh.pending x hx hdel

/-- A file that no handle is left on may be removed. -/
theorem remove (hh : Held (l₁ ++ v :: l₂) hs) (hn : ((l₁ ++ v :: l₂).map FileView.addr).Nodup)
    (hk : (hs'.map Prod.fst).Nodup) (hsub : ∀ p ∈ hs', p ∈ hs)
    (hother : ∀ b, b ≠ v.addr → holders hs' b = holders hs b) (hz : holders hs' v.addr = 0) :
    Held (l₁ ++ l₂) hs' where
  keys := hk
  linked p hp := by
    have hm := hh.linked p (hsub p hp)
    have hne := holders_eq_zero.mp hz p hp
    simp only [List.map_append, List.map_cons, List.mem_append, List.mem_cons] at hm ⊢
    tauto
  counted x hx := by
    have hne : x.addr ≠ v.addr := fun he ↦
      not_mem_removed hn (he ▸ List.mem_map_of_mem hx)
    rw [hother _ hne, hh.counted x (mem_of_removed hx)]
  pending x hx := hh.pending x (mem_of_removed hx)

/-- Opening a handle on a file adds it to the count. -/
theorem openTo (hh : Held l hs) (hn : (l.map FileView.addr).Nodup)
    (hfew : hs.length + 1 < 2 ^ 31) (hfree : hs.lookup h = none) (ht : OpenTo l z a l')
    (h0 : a ≠ 0) (hfd : file.fd = a) : Held l' ((h, file) :: hs) := by
  have hkeys : (((h, file) :: hs).map Prod.fst).Nodup := by
    rw [List.map_cons, List.nodup_cons]
    refine ⟨fun hm ↦ ?_, hh.keys⟩
    obtain ⟨p, hp, he⟩ := List.mem_map.mp hm
    have hne := List.lookup_eq_none_iff.mp hfree p hp
    simp [he] at hne
  cases ht with
  | @found l₁ l₂ v hl hf =>
    subst hl
    have hc := hh.counted v (by simp)
    have hle := hh.ref_le (v := v) (by simp)
    have hadd : (v.ref + 1).toInt = v.ref.toInt + 1 := by
      have h1 : (1 : Int32).toInt = 1 := rfl
      rw [toInt_add32 _ _ (by omega) (by omega), h1]
    have hself : holders ((h, file) :: hs) v.addr = holders hs v.addr + 1 := by
      rw [holders_cons, if_pos hfd]
    apply hh.replace (u := v.opened) hn rfl hkeys
    · intro p hp
      rcases List.mem_cons.mp hp with rfl | hp
      · exact .inr hfd
      · exact .inl hp
    · intro b hb
      rw [holders_cons, if_neg (hfd ▸ hb.symm), Nat.add_zero]
    · change (v.ref + 1).toInt = _
      omega
    · intro _
      change 0 < (v.ref + 1).toInt
      omega
  | @created v hf hv hfresh =>
    have hz := hh.fresh hfresh
    constructor
    · exact hkeys
    · intro p hp
      rcases List.mem_cons.mp hp with rfl | hp
      · simp [hfd, FileView.opened, FileView.counted]
      · exact List.mem_cons_of_mem _ (hh.linked p hp)
    · intro u hu
      rw [holders_cons]
      rcases List.mem_cons.mp hu with rfl | hu
      · change (v.ref + 1).toInt =
          ((holders hs v.addr + if file.fd = v.addr then 1 else 0 : Nat) : Int)
        rw [if_pos hfd, hz, hv.ref]
        rfl
      · have hne : file.fd ≠ u.addr := fun he ↦
          hfresh (hfd ▸ he ▸ List.mem_map_of_mem hu)
        rw [if_neg hne, Nat.add_zero]
        exact hh.counted u hu
    · intro u hu hdel
      rcases List.mem_cons.mp hu with rfl | hu
      · exact absurd hv.deleteOnClose hdel
      · exact hh.pending u hu hdel
  | refused _ => exact absurd rfl h0

/-- Deleting a name removes a file without handles or marks one with some. -/
theorem deleteTo (hh : Held l hs) (hn : (l.map FileView.addr).Nodup) (ht : DeleteTo l z l') :
    Held l' hs := by
  cases ht with
  | absent _ => exact hh
  | removed hl _ hz =>
    subst hl
    have hc := hh.counted _ (List.mem_append_right _ List.mem_cons_self)
    apply hh.remove hn hh.keys
    · exact fun p hp ↦ hp
    · exact fun b _ ↦ rfl
    · rw [hz, Int32.toInt_zero] at hc
      exact_mod_cast hc.symm
  | @deferred l₁ l₂ v hl _ hz =>
    subst hl
    have hc := hh.counted v (by simp)
    have hle := hh.ref_le (v := v) (by simp)
    apply hh.replace (u := v.doomed) hn rfl hh.keys
    · exact fun p hp ↦ .inl hp
    · exact fun b _ ↦ rfl
    · exact hc
    · intro _
      have hne : v.ref.toInt ≠ 0 := fun he ↦ hz (Int32.toInt_inj.mp he)
      change 0 < v.ref.toInt
      omega

/-- Closing a handle takes it from the count, and may remove the file. -/
theorem closeTo (hh : Held l hs) (hn : (l.map FileView.addr).Nodup)
    (hf : hs.lookup h = some file) (ht : CloseTo l file.fd l') :
    Held l' (hs.filter fun p ↦ p.1 ≠ h) := by
  have hsub : ∀ p ∈ hs.filter fun p ↦ p.1 ≠ h, p ∈ hs := fun p hp ↦ (List.mem_filter.mp hp).1
  have hkeys : ((hs.filter fun p ↦ p.1 ≠ h).map Prod.fst).Nodup :=
    hh.keys.sublist (List.filter_sublist.map Prod.fst)
  have hcount (b : Addr) := holders_filter (a := b) hh.keys hf
  have hother (b : Addr) (hb : b ≠ file.fd) :
      holders (hs.filter fun p ↦ p.1 ≠ h) b = holders hs b := by
    rw [hcount b, if_neg hb.symm, Nat.add_zero]
  have hself := hcount file.fd
  rw [if_pos rfl] at hself
  have hsubtract {v : FileView} (hv : v ∈ l) (ha : v.addr = file.fd) :
      (v.ref - 1).toInt = holders (hs.filter fun p ↦ p.1 ≠ h) file.fd := by
    have hc := hh.counted v hv
    have hle := hh.ref_le hv
    have hlt := v.ref.toInt_lt
    have h1 : (1 : Int32).toInt = 1 := rfl
    rw [toInt_sub32 _ _ (by omega) (by omega), h1]
    rw [ha] at hc
    omega
  cases ht with
  | @kept l₁ l₂ v hl ha hlast =>
    subst hl
    have hsub' := hsubtract (v := v) (by simp) ha
    rw [← ha] at hother hsub'
    apply hh.replace (u := v.closed) hn rfl hkeys
    · exact fun p hp ↦ .inl (hsub p hp)
    · exact hother
    · exact hsub'
    · intro hdel
      have hne : (v.ref - 1).toInt ≠ 0 := fun he ↦ hlast ⟨Int32.toInt_inj.mp he, hdel⟩
      change 0 < (v.ref - 1).toInt
      omega
  | @removed l₁ l₂ v hl ha hz _ =>
    subst hl
    have hsub' := hsubtract (v := v) (by simp) ha
    rw [← ha] at hother hsub'
    apply hh.remove hn hkeys hsub hother
    rw [hz, Int32.toInt_zero] at hsub'
    exact_mod_cast hsub'.symm

/-- Every call keeps the handles and the counts in step. -/
theorem step (hh : Held l hs) (hn : (l.map FileView.addr).Nodup)
    (hfew : ∀ h zName flags, c = .xOpen h zName flags → hs.length + 1 < 2 ^ 31)
    (ht : StepTo l hs c r l' hs') : Held l' hs' := by
  cases ht with
  | idle _ => exact hh
  | rejected => exact hh
  | @opened h z flags a l₁ l' hfree ho h0 hd =>
    have hh₁ : Held l₁ ((h, ⟨true, some z, a⟩) :: hs) :=
      hh.openTo hn (hfew _ _ _ rfl) hfree ho h0 rfl
    split at hd
    · exact hh₁.deleteTo (ho.recounted hn).1 hd
    · exact hd ▸ hh₁
  | closed hf hc => exact hh.closeTo hn hf hc
  | @through _ _ _ l₁ l₂ v u hf hl ha hs =>
    subst hl
    obtain ⟨href, hdel⟩ := hs.counters_eq
    have hmem : v ∈ l₁ ++ v :: l₂ := by simp
    apply hh.replace hn hs.addr_eq hh.keys
    · exact fun p hp ↦ .inl hp
    · exact fun b _ ↦ rfl
    · rw [href]
      exact hh.counted _ hmem
    · rw [href, hdel]
      exact hh.pending _ hmem
  | deletedNull => exact hh
  | deleted hd => exact hh.deleteTo hn hd

end Held

/-! ### Runs -/

section Runs

variable {w w' : World} {l : List FileView} {q : Request} {r : Reply} {f : Fault}

/-- A call through a handle that does not return is on a linked file. -/
private theorem through_fault {h : Nat} {g : CFile → Except Fault (Reply × World)}
    (hh : Held l w.handles) (he : w.through h g = .error f) :
    ∃ file l₁ v l₂, l = l₁ ++ v :: l₂ ∧ v.addr = file.fd ∧ g file = .error f := by
  unfold World.through at he
  split at he
  · cases he
  · next file hf =>
    obtain ⟨v, hv, ha⟩ := List.mem_map.mp (hh.linked _ (World.handle?_mem hf))
    obtain ⟨l₁, l₂, hl⟩ := List.append_of_mem hv
    exact ⟨file, l₁, v, l₂, hl, ha, he⟩

/-- When every handle is on a linked file, a named call that does not return has gone
outside the buffer of a file. -/
theorem step_fault (hs : Sound w l) (hh : Held l w.handles) (hq : q.call.Named)
    (he : w.step q = .error f) : f = .outOfBounds := by
  have hr : Rep w.list (w.begin q.answers).heap l [] := hs.rep
  obtain ⟨c, answers⟩ := q
  cases c with
  | xOpen h zName flags =>
    obtain ⟨z, rfl⟩ := Option.ne_none_iff_exists'.mp hq
    simp only [World.step] at he
    split at he
    · cases he
    · obtain ⟨rc, file, out, m', ho, _⟩ := cOpen_spec hr z ⟨false, none, 0⟩ flags
      rw [ho, ok_bind] at he
      split at he <;> cases he
  | xClose h =>
    obtain ⟨file, l₁, v, l₂, rfl, ha, he⟩ := through_fault hh he
    obtain ⟨m', l', hc, _⟩ := fsClose_spec hr
    rw [ha] at hc
    simp only [cClose, hc, ok_bind] at he
    cases he
  | xRead h n o =>
    obtain ⟨file, l₁, v, l₂, rfl, ha, he⟩ := through_fault hh he
    rcases fsRead_total hr o n with ⟨x, hx⟩ | hx
    · rw [ha] at hx
      simp only [cRead, hx, ok_bind] at he
      split at he
      · cases he
      · split at he <;> cases he
    · rw [ha] at hx
      simp only [cRead, hx, error_bind] at he
      injection he with he
      exact he.symm
  | xWrite h src n o =>
    obtain ⟨file, l₁, v, l₂, rfl, ha, he⟩ := through_fault hh he
    rcases fsWrite_spec hr o n src with ⟨rc, m', u, hx, _⟩ | hx
    · rw [ha] at hx
      simp only [cWrite, hx, ok_bind] at he
      split at he <;> cases he
    · rw [ha] at hx
      simp only [cWrite, hx, error_bind] at he
      injection he with he
      exact he.symm
  | xTruncate h size =>
    obtain ⟨file, l₁, v, l₂, rfl, ha, he⟩ := through_fault hh he
    obtain ⟨m', hx, _⟩ := fsTruncate_spec hr size
    rw [ha] at hx
    simp only [cTruncate, hx, ok_bind, ↓reduceIte] at he
    cases he
  | xFileSize h =>
    obtain ⟨file, l₁, v, l₂, rfl, ha, he⟩ := through_fault hh he
    obtain ⟨nx, hx, _⟩ := counters_spec hr
    rw [ha] at hx
    simp only [cFileSize, hx, ok_bind] at he
    cases he
  | xFileControl h op arg =>
    obtain ⟨file, l₁, v, l₂, rfl, ha, he⟩ := through_fault hh he
    obtain ⟨grown, m', u, hx, _⟩ := fsSizeHint_spec hr arg.toInt64
    rw [ha] at hx
    simp only [cFileControl, hx, ok_bind] at he
    split at he
    · split at he <;> cases he
    · cases he
  | xDelete zName =>
    obtain ⟨z, rfl⟩ := Option.ne_none_iff_exists'.mp hq
    obtain ⟨m', l', hx, _⟩ := fsDelete_spec hr z
    simp only [World.step, cDelete, hx, ok_bind, ↓reduceIte] at he
    cases he
  | xAccess zName =>
    obtain ⟨z, rfl⟩ := Option.ne_none_iff_exists'.mp hq
    simp only [World.step, cAccess, fsExists_spec hr, ok_bind] at he
    cases he

end Runs
end SqliteComposite.Vfs

import SqliteComposite.Vfs.Files

/-!
# Names

A run is recorded with the name each file was last opened under and whether its deletion has
been asked for. A file carries at most `MAX_PATHNAME` characters of its name, and the search
compares names only up to that bound: a name that reaches it is never found again, and every
open of it makes another file.
-/

namespace SqliteComposite.Vfs

open Base Inmemfs

/-- What the calls asked of a file: the name it was last opened under, and whether it is to
be deleted. -/
structure Asked where
  name : CStr
  deletion : Bool

/-- What was asked of the file at each address. -/
abbrev Log := Addr → Asked

/-- What a call adds to the log: a successful open names its file, and asks for its deletion
when told to; a deletion asks for that of every file of the name. -/
def note (w : World) (q : Request) (w' : World) (g : Log) : Log :=
  match q.call, w.step q with
  | .xOpen h (some z) flags, .ok (.status .ok, _) =>
    match w'.handle? h with
    | some file =>
      let deletion := flags &&& sqliteOpenDeleteonclose ≠ 0 ||
        !isNew w z && (g file.fd).deletion
      Function.update g file.fd ⟨z, deletion⟩
    | none => g
  | .xDelete (some z), .ok (.status .ok, _) => fun a ↦ if (g a).name = z then ⟨z, true⟩ else g a
  | _, _ => g

/-- The log before any call. -/
def nothingAsked : Log := fun _ ↦ ⟨⟨[], by simp⟩, false⟩

/-- The VFS with the log of what was asked. -/
def systemAsked : System (World × Log) Request := system.withPast nothingAsked note

/-- The file at `a` is linked and carries the name `z`. -/
def Carries (w : World) (a : Addr) (z : CStr) : Prop :=
  Linked w a ∧ ∃ f c, w.mem.load a = .ok f ∧ w.mem.heap[f.zName]? = some (.chars c) ∧ Holds c z

/-- Opening `z` into a free handle yields a handle on the file at `a`, unless it is asked to
fail when the file exists. -/
def Reopens (w : World) (z : CStr) (a : Addr) : Prop :=
  ∀ h flags answers, w.handle? h = none →
    (flags &&& sqliteOpenCreate ≠ 0 ∧ flags &&& sqliteOpenExclusive ≠ 0) ∨
    ∃ w' file, w.step ⟨.xOpen h (some z) flags, answers⟩ = .ok (.status .ok, w') ∧
      w'.handle? h = some file ∧ file.fd = a

/-- The namespace is a function of the name: no two files carry one name, every file is
found under the name it was opened under, and no file is found under two names. -/
structure Functional (x : World × Log) : Prop where
  distinct : ∀ a b z, Carries x.1 a z → Carries x.1 b z → a = b
  accessible : ∀ a, Linked x.1 a →
    cAccess x.1.list x.1.mem (some (x.2 a).name) = .ok (.ok, true)
  reopened : ∀ a, Linked x.1 a → Reopens x.1 (x.2 a).name a
  apart : ∀ z z' a, Found x.1 z a → Found x.1 z' a → z = z'

/-- Each file carries the first characters of the name it was opened under, no two carry the
same name below the bound, and a file is marked for deletion when that was asked for and the
file is found under its name. -/
structure Names (l : List FileView) (g : Log) : Prop where
  stored : ∀ v ∈ l, v.name = (g v.addr).name.take maxPathname
  unique : ∀ u ∈ l, ∀ v ∈ l, u.name = v.name → u.name.length < maxPathname → u.addr = v.addr
  marked : ∀ v ∈ l, v.deleteOnClose ≠ 0 ↔
    (g v.addr).deletion = true ∧ (g v.addr).name.length < maxPathname

/-! ### Names of files -/

/-- A string with a prefix shorter than asked for is that prefix. -/
theorem eq_of_take {z y : CStr} {n : Nat} (h : y.take n = z) (hz : z.length < n) : y = z := by
  have hl := y.length_take n
  rw [h] at hl
  rw [← h, y.take_of_le n (by omega)]

namespace Names

variable {l l' l₁ l₂ : List FileView} {g g' : Log} {u v : FileView} {z : CStr} {a : Addr}

/-- The file is found under a name when it was opened under it and the name is short. -/
theorem named_iff (hn : Names l g) (hv : v ∈ l) :
    v.Named z ↔ (g v.addr).name = z ∧ z.length < maxPathname := by
  rw [FileView.Named, hn.stored v hv]
  constructor
  · rintro ⟨he, hz⟩
    exact ⟨eq_of_take he hz, hz⟩
  · rintro ⟨he, hz⟩
    rw [he, z.take_of_le _ (Nat.le_of_lt hz)]
    exact ⟨rfl, hz⟩

/-- Only one file is found under a name. -/
theorem named_addr (hn : Names l g) (hu : u ∈ l) (hv : v ∈ l) (hzu : u.Named z)
    (hzv : v.Named z) : u.addr = v.addr :=
  hn.unique u hu v hv (hzu.1.trans hzv.1.symm) (hzu.1 ▸ hzu.2)

/-- A file named so is the one the search finds. -/
theorem lookup_eq (hn : Names l g) (hd : (l.map FileView.addr).Nodup) (hv : v ∈ l)
    (hz : v.Named z) : lookup l z = some v := by
  cases hf : lookup l z with
  | none => exact absurd hz (lookup_none.mp hf v hv)
  | some u =>
    obtain ⟨hzu, l₁, l₂, rfl, _⟩ := lookup_some hf
    have hu : u ∈ l₁ ++ u :: l₂ := by simp
    rw [List.inj_on_of_nodup_map hd hu hv (hn.named_addr hu hv hzu hz)]

/-- Files that stay where they are under their names keep the log. -/
theorem mono (hn : Names l g) (h : ∀ u ∈ l', ∃ v ∈ l, u.addr = v.addr ∧ u.name = v.name ∧
      (g' v.addr).name = (g v.addr).name ∧ (u.deleteOnClose ≠ 0 ↔
        (g' v.addr).deletion = true ∧ (g' v.addr).name.length < maxPathname)) :
    Names l' g' where
  stored u hu := by
    obtain ⟨v, hv, ha, hname, hg, _⟩ := h u hu
    rw [hname, ha, hg, hn.stored v hv]
  unique u hu x hx hname hlt := by
    obtain ⟨v, hv, ha, hvn, _⟩ := h u hu
    obtain ⟨y, hy, ha', hyn, _⟩ := h x hx
    rw [ha, ha']
    exact hn.unique v hv y hy (by rw [← hvn, hname, hyn]) (hvn ▸ hlt)
  marked u hu := by
    obtain ⟨v, _, ha, _, _, hm⟩ := h u hu
    rw [ha]
    exact hm

/-- The same log, for files that keep their marks as well. -/
theorem keep (hn : Names l g) (h : ∀ u ∈ l', ∃ v ∈ l, u.addr = v.addr ∧ u.name = v.name ∧
      u.deleteOnClose = v.deleteOnClose) : Names l' g := by
  apply hn.mono
  intro u hu
  obtain ⟨v, hv, ha, hname, hdel⟩ := h u hu
  exact ⟨v, hv, ha, hname, rfl, hdel ▸ hn.marked v hv⟩

/-- A file that keeps its place, its name and its mark keeps the log. -/
theorem replace (hn : Names (l₁ ++ v :: l₂) g) (ha : u.addr = v.addr) (hname : u.name = v.name)
    (hdel : u.deleteOnClose = v.deleteOnClose) : Names (l₁ ++ u :: l₂) g := by
  apply hn.keep
  refine forall_replaced (fun w hw ↦ ?_) ⟨v, by simp, ha, hname, hdel⟩
  exact ⟨w, mem_of_removed hw, rfl, rfl, rfl⟩

/-- Closing a file keeps the log. -/
theorem closeTo (hn : Names l g) (ht : CloseTo l a l') : Names l' g := by
  cases ht with
  | kept hl _ _ =>
    subst hl
    exact hn.replace rfl rfl rfl
  | @removed l₁ l₂ v hl _ _ _ =>
    subst hl
    apply hn.keep
    exact fun u hu ↦ ⟨u, mem_of_removed hu, rfl, rfl, rfl⟩

/-- Opening a name finds the file last opened under it, or makes one that carries it. -/
theorem openTo (hn : Names l g) (ht : OpenTo l z a l') (h0 : a ≠ 0) :
    Names l' (Function.update g a ⟨z, !(lookup l z).isNone && (g a).deletion⟩) ∧
      a ∈ l'.map FileView.addr := by
  cases ht with
  | @found l₁ l₂ v hl hf =>
    have hz := (lookup_some hf).1
    have hv : v ∈ l := by simp [hl]
    have hname := ((hn.named_iff hv).mp hz).1
    rw [hf, ← hname]
    refine ⟨?_, by simp [FileView.opened, FileView.counted]⟩
    have hg : Function.update g v.addr ⟨(g v.addr).name, (g v.addr).deletion⟩ = g :=
      Function.update_eq_self _ _
    simp only [Option.isNone_some, Bool.not_false, Bool.true_and, hg]
    subst hl
    exact hn.replace rfl rfl rfl
  | @created v hf hv hfresh =>
    rw [hf]
    refine ⟨?_, by simp [FileView.opened, FileView.counted]⟩
    have hother {u : FileView} (hu : u ∈ l) (x : Asked) :
        Function.update g v.addr x u.addr = g u.addr := by
      apply Function.update_of_ne
      exact fun he ↦ hfresh (he ▸ List.mem_map_of_mem hu)
    have hfree {u : FileView} (hu : u ∈ l) (hname : u.name = v.name)
        (hlt : u.name.length < maxPathname) : False := by
      rw [hname, hv.name] at hlt
      have hz := eq_of_take (z := z.take maxPathname) rfl hlt
      apply lookup_none.mp hf u hu
      rw [← hz] at hlt
      exact ⟨by rw [hname, hv.name, ← hz], hlt⟩
    constructor
    · intro u hu
      rcases List.mem_cons.mp hu with rfl | hu
      · change v.name = (Function.update g v.addr _ v.addr).name.take maxPathname
        rw [Function.update_self, hv.name]
      · rw [hother hu, hn.stored u hu]
    · intro u hu x hx hname hlt
      rcases List.mem_cons.mp hu with rfl | hu
      · rcases List.mem_cons.mp hx with rfl | hx
        · rfl
        · exact (hfree hx hname.symm (hname ▸ hlt)).elim
      · rcases List.mem_cons.mp hx with rfl | hx
        · exact (hfree hu hname hlt).elim
        · exact hn.unique u hu x hx hname hlt
    · intro u hu
      rcases List.mem_cons.mp hu with rfl | hu
      · change v.deleteOnClose ≠ 0 ↔ (Function.update g v.addr _ v.addr).deletion = true ∧ _
        rw [Function.update_self, hv.deleteOnClose]
        simp
      · rw [hother hu, hn.marked u hu]
  | refused _ => exact absurd rfl h0

/-- Deleting a name marks or removes the file found under it, if there is one. -/
theorem deleteTo (hn : Names l g) (ht : DeleteTo l z l')
    (hd : (l.map FileView.addr).Nodup)
    (hg : ∀ v ∈ l, (g' v.addr).name = (g v.addr).name ∧
      ((g v.addr).name.length < maxPathname →
        ((g' v.addr).deletion = true ↔ (g v.addr).deletion = true ∨ (g v.addr).name = z))) :
    Names l' g' := by
  -- A file that is not found under the name keeps its mark.
  have hkeep {v : FileView} (hv : v ∈ l) (hz : ¬ v.Named z) : v.deleteOnClose ≠ 0 ↔
      (g' v.addr).deletion = true ∧ (g' v.addr).name.length < maxPathname := by
    obtain ⟨hname, hdel⟩ := hg v hv
    rw [hn.named_iff hv] at hz
    rw [hn.marked v hv, hname]
    constructor
    · rintro ⟨h, hlt⟩
      exact ⟨(hdel hlt).mpr (.inl h), hlt⟩
    · rintro ⟨h, hlt⟩
      refine ⟨((hdel hlt).mp h).resolve_right fun he ↦ hz ⟨he, he ▸ hlt⟩, hlt⟩
  cases ht with
  | absent hf =>
    apply hn.mono
    intro v hv
    exact ⟨v, hv, rfl, rfl, (hg v hv).1, hkeep hv (lookup_none.mp hf v hv)⟩
  | @removed l₁ l₂ x hl hf _ =>
    subst hl
    apply hn.mono
    intro u hu
    have hmem : u ∈ l₁ ++ x :: l₂ := mem_of_removed hu
    refine ⟨u, hmem, rfl, rfl, (hg u hmem).1, hkeep hmem fun hz ↦ ?_⟩
    have ha := hn.named_addr hmem (by simp) hz (lookup_some hf).1
    exact not_mem_removed hd (ha ▸ List.mem_map_of_mem hu)
  | @deferred l₁ l₂ x hl hf _ =>
    subst hl
    have hx : x ∈ l₁ ++ x :: l₂ := by simp
    have hzx := (lookup_some hf).1
    apply hn.mono
    intro u hu
    rcases mem_replace hd hu with rfl | ⟨hu, hne⟩
    · obtain ⟨hname, hlt⟩ := (hn.named_iff hx).mp hzx
      obtain ⟨hname', hdel⟩ := hg x hx
      refine ⟨x, hx, rfl, rfl, hname', ?_⟩
      rw [hname', hname]
      have h1 : (1 : Int32) ≠ 0 := by decide
      exact iff_of_true h1 ⟨(hdel (hname ▸ hlt)).mpr (.inr hname), hlt⟩
    · exact ⟨u, hu, rfl, rfl, (hg u hu).1, hkeep hu fun hz ↦ hne (hn.named_addr hu hx hz hzx)⟩

/-- Deleting a name that was just opened asks for the deletion of the file opened. -/
theorem openDelete (hn : Names l g) (hd : (l.map FileView.addr).Nodup) (ho : OpenTo l z a l₁)
    (h0 : a ≠ 0) (ht : DeleteTo l₁ z l') : Names l' (Function.update g a ⟨z, true⟩) := by
  obtain ⟨hn₁, ha⟩ := hn.openTo ho h0
  obtain ⟨x, hx, rfl⟩ := List.mem_map.mp ha
  apply hn₁.deleteTo ht (ho.recounted hd).1
  intro v hv
  by_cases hva : v.addr = x.addr
  · simp [hva]
  · rw [Function.update_of_ne hva, Function.update_of_ne hva]
    refine ⟨rfl, fun hlt ↦ ⟨.inl, fun h ↦ h.resolve_right fun hz ↦ hva ?_⟩⟩
    rw [hz] at hlt
    have hzv : v.Named z := by
      rw [hn₁.named_iff hv, Function.update_of_ne hva]
      exact ⟨hz, hlt⟩
    have hzx : x.Named z := by
      rw [hn₁.named_iff hx, Function.update_self]
      exact ⟨rfl, hlt⟩
    exact hn₁.named_addr hv hx hzv hzx

end Names

/-! ### Runs -/

section Runs

variable {w w' : World} {l : List FileView} {g : Log} {q : Request} {r : Reply}

/-- A call that does not succeed asks for nothing. -/
private theorem note_eq (he : w.step q = .ok (r, w')) (hr : r ≠ .status .ok) :
    note w q w' g = g := by
  rw [note, he]
  split
  · next h => cases h; exact absurd rfl hr
  · next h => cases h; exact absurd rfl hr
  · rfl

/-- Every call keeps the log true of the files. -/
theorem names_step (hs : Sound w l) (hn : Names l g) (he : w.step q = .ok (r, w')) :
    ∃ l', StepTo l w.handles q.call r l' w'.handles ∧ Sound w' l' ∧
      Names l' (note w q w' g) := by
  obtain ⟨l', hst, hs', _⟩ := step_spec hs he
  refine ⟨l', hst, hs', ?_⟩
  have hd := hs.rep.nodup_addr
  obtain ⟨c, answers⟩ := q
  generalize hhs : w'.handles = hs₁ at hst
  cases hst with
  | idle hne =>
    rw [note_eq he hne]
    exact hn
  | rejected => exact hn
  | @opened h z flags a l₁ l' _ ho h0 hdel =>
    have hw' : w'.handle? h = some ⟨true, some z, a⟩ := by
      rw [World.handle?, hhs, List.lookup_cons_self]
    have hnew : isNew w z = (lookup l z).isNone := by
      rw [Bool.eq_iff_iff, isNew_iff hs.rep, Option.isNone_iff_eq_none]
    have hnote : note w ⟨.xOpen h (some z) flags, answers⟩ w' g = Function.update g a
        ⟨z, flags &&& sqliteOpenDeleteonclose ≠ 0 ||
          !(lookup l z).isNone && (g a).deletion⟩ := by
      simp only [note, he, hw', hnew]
    rw [hnote]
    split at hdel
    · next hflag => simpa [hflag] using hn.openDelete hd ho h0 hdel
    · next hflag =>
      subst hdel
      simpa [hflag] using (hn.openTo ho h0).1
  | closed _ hc => exact hn.closeTo hc
  | @through _ h file l₁ l₂ v u _ hl _ hfs =>
    have hnote : note w ⟨c, answers⟩ w' g = g := by cases hfs <;> rfl
    rw [hnote]
    subst hl
    exact hn.replace hfs.addr_eq hfs.name_eq hfs.counters_eq.2
  | deletedNull => exact hn
  | @deleted z l' hdel =>
    have hnote : note w ⟨.xDelete (some z), answers⟩ w' g =
        fun a ↦ if (g a).name = z then ⟨z, true⟩ else g a := by
      simp only [note, he]
    rw [hnote]
    apply hn.deleteTo hdel hd
    intro v _
    by_cases hz : (g v.addr).name = z
    · simp [hz]
    · simp [hz]

/-- Every state of every run holds a list of files that the log is true of. -/
theorem reach_names {ok : World × Log → Request → Prop} {x : World × Log}
    (hr : systemAsked.Reach ok x) : ∃ l, Sound x.1 l ∧ Names l x.2 := by
  apply hr.invariant (P := fun x ↦ ∃ l, Sound x.1 l ∧ Names l x.2)
  · rintro x ⟨hi, _⟩
    exact ⟨[], init_spec hi, by constructor <;> simp⟩
  · rintro x q y ⟨l, hs, hn⟩ _ ⟨⟨r, he⟩, hy⟩
    obtain ⟨l', _, hs', hn'⟩ := names_step hs hn he
    exact ⟨l', hs', hy ▸ hn'⟩

end Runs

/-! ### The namespace -/

section

variable {w : World} {l : List FileView} {g : Log} {v : FileView} {z : CStr}

/-- The names carried are those of the listed files. -/
theorem carries_iff (hr : Rep w.list w.mem.heap l []) {a : Addr} :
    Carries w a z ↔ ∃ v ∈ l, v.addr = a ∧ v.name = z := by
  constructor
  · rintro ⟨hlink, f, c, hload, hget, hc⟩
    obtain ⟨l₁, v, l₂, rfl, rfl⟩ := (linked_iff hr).mp hlink
    obtain ⟨nx, hl, _⟩ := counters_spec hr
    rw [hl] at hload
    cases hload
    obtain ⟨_, c', hget', hc'⟩ := hr.attached v (by simp)
    rw [FileView.record_zName, hget'] at hget
    cases hget
    exact ⟨v, by simp, rfl, hc'.unique hc⟩
  · rintro ⟨v, hv, rfl, rfl⟩
    obtain ⟨_, c, hget, hc⟩ := hr.attached v hv
    obtain ⟨l₁, l₂, rfl⟩ := List.append_of_mem hv
    obtain ⟨nx, hl, _⟩ := counters_spec hr
    exact ⟨(linked_iff hr).mpr ⟨l₁, v, l₂, rfl, rfl⟩, _, c, hl, hget, hc⟩

/-- A file that is found under a name is opened again under it. -/
theorem reopens (hs : Sound w l) (hf : lookup l z = some v) : Reopens w z v.addr := by
  intro h flags answers hfree
  have hr : Rep w.list (w.begin answers).heap l [] := hs.rep
  obtain ⟨rc, file, out, m', ho, hcase⟩ := cOpen_spec hr z ⟨false, none, 0⟩ flags
  rcases hcase with ⟨rfl, hx, _⟩ | ⟨rfl, a, l₁, l', rfl, h0, _, hto, _, _⟩
  · left
    rw [hf] at hx
    exact hx.resolve_left (by simp)
  · right
    have ha : a = v.addr := by
      cases hto with
      | found _ hf' =>
        rw [hf'] at hf
        cases hf
        rfl
      | created hf' _ _ => rw [hf'] at hf; cases hf
      | refused _ => exact absurd rfl h0
    refine ⟨{ w with mem := m', handles := (h, ⟨true, some z, a⟩) :: w.handles },
      ⟨true, some z, a⟩, ?_, ?_, ha⟩
    · simp only [World.step, hfree, ho, ok_bind, ↓reduceIte]
    · exact List.lookup_cons_self

end

/-- Files of short names have a namespace. -/
private theorem functional_of_short {x : World × Log} {l : List FileView} (hs : Sound x.1 l)
    (hn : Names l x.2) (hshort : ∀ a, Linked x.1 a → (x.2 a).name.length < maxPathname) :
    Functional x := by
  have hd := hs.rep.nodup_addr
  have hfind {a : Addr} (hlink : Linked x.1 a) :
      ∃ v, lookup l (x.2 a).name = some v ∧ v.addr = a := by
    obtain ⟨l₁, v, l₂, hl, rfl⟩ := (linked_iff hs.rep).mp hlink
    have hv : v ∈ l := by simp [hl]
    exact ⟨v, hn.lookup_eq hd hv ((hn.named_iff hv).mpr ⟨rfl, hshort _ hlink⟩), rfl⟩
  constructor
  · intro a b z ha hb
    obtain ⟨u, hu, rfl, rfl⟩ := (carries_iff hs.rep).mp ha
    obtain ⟨v, hv, rfl, hname⟩ := (carries_iff hs.rep).mp hb
    apply hn.unique u hu v hv hname.symm
    rw [hn.stored u hu, CStr.length_take]
    have hlt := hshort u.addr ha.1
    omega
  · intro a hlink
    obtain ⟨v, hf, _⟩ := hfind hlink
    rw [cAccess, fsExists_spec hs.rep, hf, ok_bind]
    rfl
  · intro a hlink
    obtain ⟨v, hf, rfl⟩ := hfind hlink
    exact reopens hs hf
  · intro z z' a hz hz'
    obtain ⟨u, hu, rfl⟩ := (found_iff hs.rep).mp hz
    obtain ⟨v, hv, ha⟩ := (found_iff hs.rep).mp hz'
    obtain ⟨hnu, l₁, l₂, hl, _⟩ := lookup_some hu
    obtain ⟨hnv, l₃, l₄, hl', _⟩ := lookup_some hv
    have huv : v = u := List.inj_on_of_nodup_map hd (by simp [hl']) (by simp [hl]) ha
    rw [← hnu.1, ← hnv.1, huv]

/-- The calls open files under names shorter than `MAX_PATHNAME`. -/
def OpensShort (q : Request) : Prop :=
  ∀ h z flags, q.call = .xOpen h (some z) flags → z.length < maxPathname

/-- Every name in the log is shorter than `MAX_PATHNAME`. -/
def Log.Short (g : Log) : Prop := ∀ a, (g a).name.length < maxPathname

/-- A call that opens no long name logs none. -/
theorem Log.Short.note {w w' : World} {q : Request} {g : Log} (hg : g.Short)
    (hq : OpensShort q) : (note w q w' g).Short := by
  unfold Vfs.note
  split
  · next h z flags _ hc _ =>
    split
    · next file _ =>
      intro a
      by_cases ha : a = file.fd
      · rw [ha, Function.update_self]
        exact hq h z flags hc
      · rw [Function.update_of_ne ha]
        exact hg a
    · exact hg
  · intro a
    dsimp only
    split
    · next hz =>
      rw [← hz]
      exact hg a
    · exact hg a
  · exact hg

/-- As long as only short names are opened, the namespace is a function of the name. -/
theorem reach_functional {x : World × Log} (hr : systemAsked.Reach (fun _ q ↦ OpensShort q) x) :
    Functional x := by
  obtain ⟨l, hs, hn⟩ := reach_names hr
  have hshort : x.2.Short := by
    apply hr.invariant (P := fun x ↦ x.2.Short)
    · rintro x ⟨_, hx⟩ a
      rw [hx]
      exact (by decide : 0 < maxPathname)
    · rintro x q y hg hq ⟨_, hy⟩
      rw [hy]
      exact hg.note hq
  exact functional_of_short hs hn fun a _ ↦ hshort a

/-- In every state of every run the namespace is a function of the name exactly when every
file was opened under a name shorter than `MAX_PATHNAME`. -/
theorem functional_iff {ok : World × Log → Request → Prop} {x : World × Log}
    (hr : systemAsked.Reach ok x) :
    Functional x ↔ ∀ a, Linked x.1 a → (x.2 a).name.length < maxPathname := by
  obtain ⟨l, hs, hn⟩ := reach_names hr
  constructor
  · intro hx a hlink
    have hacc := hx.accessible a hlink
    rw [cAccess, fsExists_spec hs.rep, ok_bind] at hacc
    injection hacc with hacc
    obtain ⟨v, hv⟩ := Option.isSome_iff_exists.mp (congrArg Prod.snd hacc)
    exact (lookup_some hv).1.2
  · exact functional_of_short hs hn

/-! ### Names at the bound -/

/-- The calls open files under names of at most `mxPathname` characters. -/
def Admitted (q : Request) : Prop :=
  ∀ h z flags, q.call = .xOpen h (some z) flags → z.length ≤ maxPathname

/-- The name of `MAX_PATHNAME` letters `a`. -/
def longName : CStr := .replicate maxPathname 97 (by decide)

/-- Handle 0 opens the file `longName` for the first time, with every request granted. -/
def createLong : Request := ⟨.xOpen 0 (some longName) sqliteOpenCreate,
  [filled 200 0xAA, filled 300 0xAA, filled 400 0xAA]⟩

/-- Handle 0 is closed. -/
def closeLong : Request := ⟨.xClose 0, []⟩

/-- The name reaches the bound. -/
theorem length_longName : longName.length = maxPathname := List.length_replicate

/-- The file `longName` is linked once it has been opened and closed. -/
theorem exists_long (ok : World × Log → Request → Prop)
    (hopen : ∀ x : World × Log, x.1.handles.length ≤ 2 → ok x createLong)
    (hclose : ∀ x : World × Log, ok x closeLong) :
    ∃ x a, systemAsked.Reach ok x ∧ x.1.handles = [] ∧ Linked x.1 a ∧
      (x.2 a).name = longName := by
  obtain ⟨x, hr, hp⟩ := exists_of_checks_few note nothingAsked ok [filled 100 0]
    [createLong, closeLong] (fun x ↦ x.1.handles.isEmpty && x.1.list ≠ 200 &&
      (x.1.mem.load 200).isOk && (x.2 200).name = longName) (by decide +kernel) (by
        intro q hq
        simp only [List.mem_cons, List.not_mem_nil, or_false] at hq
        rcases hq with rfl | rfl
        · exact hopen
        · exact fun x _ ↦ hclose x)
  simp only [Bool.and_eq_true, decide_eq_true_eq, List.isEmpty_iff] at hp
  obtain ⟨⟨⟨hempty, hlist⟩, hload⟩, hname⟩ := hp
  obtain ⟨l, hs, _⟩ := reach_names hr
  refine ⟨x, 200, hr, hempty, ?_, hname⟩
  rcases load_cases hs.rep hlist.symm with h | h
  · exact (linked_iff hs.rep).mpr h
  · rw [h] at hload
    cases hload

/-- A file opened under a name of `MAX_PATHNAME` characters does not exist. -/
theorem not_functional :
    ¬ ∀ x, systemAsked.Reach (fun _ q ↦ Admitted q) x → Functional x := by
  intro hall
  obtain ⟨x, a, hr, _, hlink, hname⟩ := exists_long (fun _ q ↦ Admitted q)
    (by
      rintro _ _ h z flags ⟨⟩
      exact Nat.le_of_eq length_longName)
    (by rintro _ _ _ _ ⟨⟩)
  obtain ⟨l, hs, _⟩ := reach_names hr
  have hacc := (hall x hr).accessible a hlink
  rw [hname, cAccess, fsExists_spec hs.rep, ok_bind] at hacc
  injection hacc with hacc
  obtain ⟨v, hv⟩ := Option.isSome_iff_exists.mp (congrArg Prod.snd hacc)
  exact absurd (lookup_some hv).1.2 (by rw [length_longName]; exact lt_irrefl _)

/-- After `a` is created the namespace is a function of the name exactly when every file was
opened under a short name. -/
theorem functional_iff_createA : ∃ x : World × Log, x.1.handles.length = 1 ∧
    (Functional x ↔ ∀ a, Linked x.1 a → (x.2 a).name.length < maxPathname) := by
  obtain ⟨x, hr, hp⟩ := exists_of_checks_past note nothingAsked (fun _ _ ↦ True) [filled 100 0]
    [createA] (fun x ↦ x.1.handles.length = 1) (by decide +kernel) fun _ _ _ ↦ trivial
  exact ⟨x, of_decide_eq_true hp, functional_iff hr⟩

end SqliteComposite.Vfs

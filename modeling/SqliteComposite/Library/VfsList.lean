import SqliteComposite.Base.Chain
import SqliteComposite.Base.CString

/-!
# The list of registered VFSs

Models the part of `os.c` in `sqlite3.c` that keeps the list of VFSs. The application owns the
structs and hands in their addresses; SQLite links them through `pNext`. `vfsList` is the static
of that name. Of a struct only the fields that are read here are kept.
-/

namespace SqliteComposite.Library

open Base

/-- `struct sqlite3_vfs`; `sqlite3.h:1226`. -/
structure Sqlite3Vfs where
  pNext : Addr
  zName : CStr

/-- The memory that holds the structs. -/
abbrev VfsMem := Memory Sqlite3Vfs

/-! ### The functions -/

/-- The loop of `sqlite3_vfs_find`. -/
def vfsFindLoop (m : VfsMem) (zVfs : Option CStr) : Nat → Addr → Except Fault Addr
  | 0, _ => .error .endlessWalk
  | rounds + 1, pVfs =>
    if pVfs = 0 then .ok 0
    else
      match zVfs with
      | none => .ok pVfs
      | some z => do
        let v ← m.load pVfs
        if z = v.zName then .ok pVfs else vfsFindLoop m zVfs rounds v.pNext

/-- The search of `sqlite3_vfs_find`, after initialization; `sqlite3.c:20088`. -/
def vfsFind (vfsList : Addr) (m : VfsMem) (zVfs : Option CStr) : Except Fault Addr :=
  vfsFindLoop m zVfs (m.heap.size + 1) vfsList

/-- The loop of `vfsUnlink`, which stops at the struct before `pVfs` or at the last one. -/
def unlinkWalk (m : VfsMem) (pVfs : Addr) : Nat → Addr → Except Fault Addr
  | 0, _ => .error .endlessWalk
  | rounds + 1, p => do
    let v ← m.load p
    if v.pNext ≠ 0 ∧ v.pNext ≠ pVfs then unlinkWalk m pVfs rounds v.pNext else .ok p

/-- `vfsUnlink`; `sqlite3.c:20099`. -/
def vfsUnlink (vfsList : Addr) (m : VfsMem) (pVfs : Addr) : Except Fault (Addr × VfsMem) :=
  if pVfs = 0 then .ok (vfsList, m)
  else if vfsList = pVfs then do
    let v ← m.load pVfs
    .ok (v.pNext, m)
  else if vfsList ≠ 0 then do
    let p ← unlinkWalk m pVfs (m.heap.size + 1) vfsList
    let q ← m.load p
    if q.pNext = pVfs then
      let v ← m.load pVfs
      let m ← m.store p { q with pNext := v.pNext }
      .ok (vfsList, m)
    else .ok (vfsList, m)
  else .ok (vfsList, m)

/-- The linking of `sqlite3_vfs_register`, after initialization; `sqlite3.c:20133`. -/
def vfsLink (vfsList : Addr) (m : VfsMem) (pVfs : Addr) (makeDflt : Bool) :
    Except Fault (Addr × VfsMem) := do
  let (vfsList, m) ← vfsUnlink vfsList m pVfs
  if makeDflt ∨ vfsList = 0 then
    let v ← m.load pVfs
    let m ← m.store pVfs { v with pNext := vfsList }
    .ok (pVfs, m)
  else
    let head ← m.load vfsList
    let v ← m.load pVfs
    let m ← m.store pVfs { v with pNext := head.pNext }
    let head ← m.load vfsList
    let m ← m.store vfsList { head with pNext := pVfs }
    .ok (vfsList, m)

/-! ### The list -/

/-- A struct of the name that `names` gives its address. -/
def structOf (names : Addr → CStr) (a nx : Addr) : Sqlite3Vfs := ⟨nx, names a⟩

@[simp] theorem structOf_pNext (names : Addr → CStr) (a nx : Addr) :
    (structOf names a nx).pNext = nx := rfl

@[simp] theorem structOf_zName (names : Addr → CStr) (a nx : Addr) :
    (structOf names a nx).zName = names a := rfl

/-- From `vfsList`, the structs at the addresses of `l`, each once. Every struct has its name. -/
structure Listed (names : Addr → CStr) (vfsList : Addr) (m : VfsMem) (l : List Addr) : Prop where
  chain : Chain id (structOf names) m.heap vfsList l 0
  nodup : l.Nodup
  named : ∀ a v, m.heap[a]? = some (.record v) → v.zName = names a

/-- A struct is at the address. -/
def IsStruct (m : VfsMem) (a : Addr) : Prop := ∃ v, m.heap[a]? = some (.record v)

/-- The list after a registration: the struct comes first when it is to be the default or there
is no other, and second otherwise. -/
def registered (l : List Addr) (pVfs : Addr) (makeDflt : Bool) : List Addr :=
  if makeDflt then pVfs :: l.erase pVfs
  else
    match l.erase pVfs with
    | [] => [pVfs]
    | head :: rest => head :: pVfs :: rest

/-- The struct that is found: the first one of the name, or the first one if none is given. -/
def found (names : Addr → CStr) (l : List Addr) (zVfs : Option CStr) : Addr :=
  (l.find? fun a ↦ zVfs.all (· = names a)).getD 0

section

variable {names : Addr → CStr} {m : VfsMem} {l l₁ l₂ : List Addr} {vfsList p q a b : Addr}

/-- A struct that is listed is not null and can be loaded. -/
theorem Listed.load (hl : Listed names vfsList m l) (ha : a ∈ l) :
    a ≠ 0 ∧ ∃ nx, m.heap[a]? = some (.record (structOf names a nx)) := hl.chain.node ha

/-- There are no more structs in the list than in memory. -/
theorem Listed.length_lt (hl : Listed names vfsList m l) : l.length < m.heap.size + 1 := by
  have hle := length_le_size hl.nodup fun a ha ↦ by
    obtain ⟨_, nx, hv⟩ := hl.load ha
    exact mem_of_get hv
  omega

/-- An empty list starts at null, and only it. -/
theorem Listed.eq_zero_iff (hl : Listed names vfsList m l) : vfsList = 0 ↔ l = [] := by
  cases l with
  | nil =>
    have hc := hl.chain
    simp only [Chain.nil_iff] at hc
    simp [hc]
  | cons a l =>
    obtain ⟨_, h0, _⟩ := hl.chain
    simp [h0]

/-! ### Searching -/

private theorem vfsFindLoop_eq {zVfs : Option CStr} {l : List Addr} :
    ∀ {p : Addr} {rounds : Nat}, Chain id (structOf names) m.heap p l 0 → l.length < rounds →
      vfsFindLoop m zVfs rounds p = .ok (found names l zVfs) := by
  induction l with
  | nil =>
    intro p rounds hc hr
    obtain ⟨k, rfl⟩ : ∃ k, rounds = k + 1 := ⟨rounds - 1, by simp at hr; omega⟩
    simp only [Chain.nil_iff] at hc
    cases zVfs <;> simp [vfsFindLoop, hc, found]
  | cons a l ih =>
    intro p rounds hc hr
    obtain ⟨k, rfl⟩ : ∃ k, rounds = k + 1 := ⟨rounds - 1, by omega⟩
    obtain ⟨rfl, h0, nx, hv, hrest⟩ := hc
    cases zVfs with
    | none => rw [vfsFindLoop, if_neg h0]; rfl
    | some z =>
      rw [vfsFindLoop, if_neg h0, Memory.load_eq hv, ok_bind, structOf_zName]
      by_cases hz : z = names p
      · have hfound : found names (p :: l) (some z) = p := by
          simp [found, List.find?_cons_of_pos, hz]
        rw [if_pos hz, hfound]
      · have hfound : found names (p :: l) (some z) = found names l (some z) := by
          simp [found, List.find?_cons_of_neg, hz]
        rw [if_neg hz, hfound]
        exact ih hrest (by simp only [List.length_cons] at hr; omega)

/-- The search finds the first struct of the name, or the default one. -/
theorem vfsFind_eq (hl : Listed names vfsList m l) (zVfs : Option CStr) :
    vfsFind vfsList m zVfs = .ok (found names l zVfs) :=
  vfsFindLoop_eq hl.chain hl.length_lt

/-! ### Unlinking -/

/-- A struct whose next pointer is set keeps the names. -/
private theorem named_store (hn : ∀ a v, m.heap[a]? = some (.record v) → v.zName = names a)
    {nx : Addr} : ∀ b v, (m.heap.insert a (.record (structOf names a nx)))[b]? =
      some (.record v) → v.zName = names b := by
  intro b v hv
  by_cases hab : a = b
  · subst hab
    rw [get_insert_self] at hv
    injection hv with hv
    injection hv with hv
    rw [← hv]
    rfl
  · rw [get_insert_ne _ _ hab] at hv
    exact hn b v hv

/-- A chain starts at one of its structs. -/
private theorem start_mem {l₁ : List Addr} (hc : Chain id (structOf names) m.heap p (l₁ ++ [b]) q) :
    p ∈ l₁ ++ [b] := by
  cases l₁ with
  | nil =>
    obtain ⟨rfl, _⟩ := hc
    exact List.mem_singleton_self _
  | cons c l₁ =>
    obtain ⟨rfl, _⟩ := hc
    exact List.mem_cons_self

/-- The walk stops right before `q`, or at the end of the list. -/
private theorem unlinkWalk_eq (hq : q = a ∨ a = 0) {l₁ : List Addr} :
    ∀ {p b : Addr} {rounds : Nat}, Chain id (structOf names) m.heap p (l₁ ++ [b]) a →
      q ∉ l₁ ++ [b] → l₁.length < rounds → unlinkWalk m q rounds p = .ok b := by
  induction l₁ with
  | nil =>
    intro p b rounds hc _ hr
    obtain ⟨k, rfl⟩ : ∃ k, rounds = k + 1 := ⟨rounds - 1, by simp at hr; omega⟩
    obtain ⟨rfl, _, nx, hv, hnx⟩ := hc
    simp only [Chain.nil_iff] at hnx
    rw [unlinkWalk, Memory.load_eq hv, ok_bind, if_neg]
    change ¬ (nx ≠ 0 ∧ nx ≠ q)
    rcases hq with rfl | rfl
    · exact fun h ↦ h.2 hnx
    · exact fun h ↦ h.1 hnx
  | cons c l₁ ih =>
    intro p b rounds hc hnot hr
    obtain ⟨k, rfl⟩ : ∃ k, rounds = k + 1 := ⟨rounds - 1, by omega⟩
    obtain ⟨rfl, _, nx, hv, hrest⟩ := hc
    simp only [List.cons_append, List.mem_cons, not_or] at hnot
    have hhead : nx ≠ 0 ∧ nx ∈ l₁ ++ [b] := by
      cases l₁ with
      | nil =>
        obtain ⟨rfl, h0, _⟩ := hrest
        exact ⟨h0, List.mem_singleton_self _⟩
      | cons d l₁ =>
        obtain ⟨rfl, h0, _⟩ := hrest
        exact ⟨h0, List.mem_cons_self⟩
    rw [unlinkWalk, Memory.load_eq hv, ok_bind, if_pos]
    · exact ih hrest hnot.2 (by simp only [List.length_cons] at hr; omega)
    · exact ⟨hhead.1, fun h ↦ hnot.2 (h ▸ hhead.2)⟩

/-- A chain with another next pointer in its last struct leads there. -/
private theorem chain_relink {l₁ : List Addr} {nx : Addr}
    (hc : Chain id (structOf names) m.heap p (l₁ ++ [b]) a) (hn : (l₁ ++ [b]).Nodup) :
    Chain id (structOf names) (m.heap.insert b (.record (structOf names b nx))) p (l₁ ++ [b])
      nx := by
  obtain ⟨r, hpre, rfl, h0, _, _, _⟩ := Chain.append_iff.mp hc
  have hb : ∀ c ∈ l₁, r ≠ c := by
    rintro c hc rfl
    exact (List.nodup_append.mp hn).2.2 _ hc _ (List.mem_singleton_self _) rfl
  refine Chain.append_iff.mpr ⟨r, ?_, rfl, h0, nx, get_insert_self _ _ _, rfl⟩
  exact hpre.frame fun c hc ↦ get_insert_ne _ _ (hb c hc)

/-- Setting the next pointer of a struct leaves every struct a struct. -/
private theorem isStruct_store (names : Addr → CStr) (nx : Addr) (hb : IsStruct m b) (c : Addr)
    (as : List (Option Grant)) :
    IsStruct ⟨m.heap.insert b (.record (structOf names b nx)), as⟩ c ↔ IsStruct m c := by
  unfold IsStruct
  by_cases hbc : b = c
  · subst hbc
    simp only [get_insert_self]
    exact iff_of_true ⟨_, rfl⟩ hb
  · simp only [get_insert_ne _ _ hbc]

/-- Unlinking takes a struct out of the list. -/
theorem vfsUnlink_spec (hl : Listed names vfsList m l) (p : Addr) :
    ∃ vfsList' m', vfsUnlink vfsList m p = .ok (vfsList', m') ∧
      Listed names vfsList' m' (l.erase p) ∧ ∀ c, IsStruct m' c ↔ IsStruct m c := by
  have hlen := hl.length_lt
  by_cases h0 : p = 0
  · have hnot : p ∉ l := fun h ↦ (hl.load h).1 h0
    refine ⟨vfsList, m, by rw [vfsUnlink, if_pos h0], ?_, fun _ ↦ Iff.rfl⟩
    rwa [List.erase_of_not_mem hnot]
  by_cases hmem : p ∈ l
  · obtain ⟨l₁, l₂, rfl⟩ := List.append_of_mem hmem
    have hn := hl.nodup
    have hne : p ∉ l₁ := fun h ↦ (List.nodup_append.mp hn).2.2 p h p List.mem_cons_self rfl
    have herase : (l₁ ++ p :: l₂).erase p = l₁ ++ l₂ := by
      rw [List.erase_append_right _ hne, List.erase_cons_head]
    rw [herase]
    obtain ⟨r, hpre, rfl, _, nx, hv, hrest⟩ := Chain.append_iff.mp hl.chain
    change Chain id (structOf names) m.heap vfsList l₁ r at hpre
    rcases List.eq_nil_or_concat l₁ with rfl | ⟨k₁, b, rfl⟩
    · -- The struct comes first.
      have hfirst : vfsList = r := hpre
      refine ⟨nx, m, ?_, ⟨hrest, ?_, hl.named⟩, fun _ ↦ Iff.rfl⟩
      · rw [vfsUnlink, if_neg h0, if_pos hfirst, Memory.load_eq hv]
        rfl
      · exact (List.nodup_cons.mp hn).2
    · -- The struct comes after `b`.
      rw [List.concat_eq_append] at *
      have hstart : vfsList ≠ r := fun he ↦ hne (he ▸ start_mem hpre)
      have hlive : vfsList ≠ 0 := fun he ↦ by
        have hnil := hl.eq_zero_iff.mp he
        simp at hnil
      have hwalk : unlinkWalk m r (m.heap.size + 1) vfsList = .ok b :=
        unlinkWalk_eq (.inl rfl) hpre hne (by simp at hlen; omega)
      obtain ⟨b', _, rfl, hb0, nb, hb, hnb⟩ := Chain.append_iff.mp hpre
      simp only [Chain.nil_iff] at hnb
      subst hnb
      have hsub : (k₁ ++ [b']).Nodup := (List.nodup_append.mp hn).1
      have hbl : ∀ c ∈ l₂, b' ≠ c := by
        rintro c hc rfl
        exact (List.nodup_append.mp hn).2.2 _ (by simp) _ (List.mem_cons_of_mem _ hc) rfl
      refine ⟨vfsList, ⟨m.heap.insert b' (.record (structOf names b' nx)), m.answers⟩, ?_,
        ⟨?_, ?_, named_store hl.named⟩, fun c ↦ isStruct_store names _ ⟨_, hb⟩ c _⟩
      · rw [vfsUnlink, if_neg h0, if_neg hstart, if_pos hlive, hwalk, ok_bind,
          Memory.load_eq hb, ok_bind, structOf_pNext, if_pos rfl, Memory.load_eq hv, ok_bind,
          Memory.store_eq hb]
        rfl
      · refine Chain.append_iff.mpr ⟨nx, chain_relink hpre hsub, ?_⟩
        exact hrest.frame fun c hc ↦ get_insert_ne _ _ (hbl c hc)
      · exact hn.sublist (by simp)
  · rw [List.erase_of_not_mem hmem]
    rcases List.eq_nil_or_concat l with rfl | ⟨k₁, b, rfl⟩
    · have hzero := hl.eq_zero_iff.mpr rfl
      refine ⟨vfsList, m, ?_, hl, fun _ ↦ Iff.rfl⟩
      rw [vfsUnlink, if_neg h0, if_neg (hzero ▸ Ne.symm h0), if_neg (by simp [hzero])]
    · rw [List.concat_eq_append] at *
      have hstart : vfsList ≠ p := fun he ↦ hmem (he ▸ start_mem hl.chain)
      have hlive : vfsList ≠ 0 := fun he ↦ by
        have hnil := hl.eq_zero_iff.mp he
        simp at hnil
      have hwalk : unlinkWalk m p (m.heap.size + 1) vfsList = .ok b :=
        unlinkWalk_eq (.inr rfl) hl.chain hmem (by simp at hlen; omega)
      obtain ⟨b', _, rfl, hb0, nb, hb, hnb⟩ := Chain.append_iff.mp hl.chain
      simp only [Chain.nil_iff] at hnb
      subst hnb
      refine ⟨vfsList, m, ?_, hl, fun _ ↦ Iff.rfl⟩
      rw [vfsUnlink, if_neg h0, if_neg hstart, if_pos hlive, hwalk, ok_bind,
        Memory.load_eq hb, ok_bind, structOf_pNext, if_neg (Ne.symm h0)]

/-! ### Registering -/

/-- Registering a struct puts it first, or second when another one is to stay the default. -/
theorem vfsLink_spec (hl : Listed names vfsList m l) (hp0 : p ≠ 0) (hp : IsStruct m p)
    (makeDflt : Bool) :
    ∃ vfsList' m', vfsLink vfsList m p makeDflt = .ok (vfsList', m') ∧
      Listed names vfsList' m' (registered l p makeDflt) ∧ ∀ c, IsStruct m' c ↔ IsStruct m c := by
  obtain ⟨start, m₁, hun, hl₁, hstruct⟩ := vfsUnlink_spec hl p
  have hnot : p ∉ l.erase p := hl.nodup.not_mem_erase
  obtain ⟨v, hv⟩ := (hstruct p).mpr hp
  have hname : v.zName = names p := hl₁.named p v hv
  rw [vfsLink, hun, ok_bind]
  dsimp only
  by_cases hfirst : makeDflt = true ∨ start = 0
  · -- The struct comes first.
    have hreg : registered l p makeDflt = p :: l.erase p := by
      unfold registered
      rcases hfirst with h | h
      · rw [if_pos h]
      · rw [hl₁.eq_zero_iff.mp h, ite_self]
    rw [if_pos hfirst, Memory.load_eq hv, ok_bind, Memory.store_eq hv, hreg]
    have hcell : ({ v with pNext := start } : Sqlite3Vfs) = structOf names p start := by
      rw [structOf, ← hname]
    rw [hcell]
    refine ⟨p, _, rfl, ⟨⟨rfl, hp0, start, get_insert_self _ _ _, ?_⟩, ?_, named_store hl₁.named⟩,
      fun c ↦ (isStruct_store names _ ⟨v, hv⟩ c _).trans (hstruct c)⟩
    · exact hl₁.chain.frame fun c hc ↦ get_insert_ne _ _ fun he ↦ hnot (he ▸ hc)
    · exact List.nodup_cons.mpr ⟨hnot, hl₁.nodup⟩
  · -- The struct comes after the default one.
    rw [if_neg hfirst]
    obtain ⟨hdflt, hlive⟩ := not_or.mp hfirst
    generalize hk : l.erase p = k at hl₁ hnot
    cases k with
    | nil => exact absurd (hl₁.eq_zero_iff.mpr rfl) hlive
    | cons head rest =>
      have hreg : registered l p makeDflt = head :: p :: rest := by
        rw [registered, if_neg hdflt, hk]
      obtain ⟨rfl, hh0, nx, hh, hrest⟩ := hl₁.chain
      have hph : p ≠ start := fun h ↦ hnot (h ▸ List.mem_cons_self)
      have hcell : ({ v with pNext := nx } : Sqlite3Vfs) = structOf names p nx := by
        rw [structOf, ← hname]
      have hh' : (m₁.heap.insert p (.record (structOf names p nx)))[start]? =
          some (.record (structOf names start nx)) := (get_insert_ne _ _ hph).trans hh
      rw [Memory.load_eq hh, ok_bind, Memory.load_eq hv, ok_bind, Memory.store_eq hv]
      change ∃ vfsList' m', (do
        let head ← Memory.load ⟨m₁.heap.insert p (.record ({ v with pNext := nx })), m₁.answers⟩
          start
        let m ← Memory.store
          ⟨m₁.heap.insert p (.record ({ v with pNext := nx })), m₁.answers⟩ start
          { head with pNext := p }
        .ok (start, m)) = .ok (vfsList', m') ∧ _
      rw [hcell, Memory.load_eq hh', ok_bind, Memory.store_eq hh', hreg]
      have hrn := List.nodup_cons.mp hl₁.nodup
      refine ⟨start, _, rfl, ⟨⟨rfl, hh0, p, get_insert_self _ _ _, rfl, hp0, nx, ?_, ?_⟩, ?_, ?_⟩,
        ?_⟩
      · exact (get_insert_ne _ _ hph.symm).trans (get_insert_self _ _ _)
      · refine hrest.frame fun c hc ↦ ?_
        have hcs : start ≠ c := fun he ↦ hrn.1 (he ▸ hc)
        have hcp : p ≠ c := fun he ↦ hnot (he ▸ List.mem_cons_of_mem _ hc)
        exact (get_insert_ne _ _ hcs).trans (get_insert_ne _ _ hcp)
      · simp only [List.nodup_cons, List.mem_cons, not_or] at hrn hnot ⊢
        exact ⟨⟨hph.symm, hrn.1⟩, hnot.2, hrn.2⟩
      · exact named_store (m := ⟨_, m₁.answers⟩) (named_store hl₁.named)
      · intro c
        have hmid := isStruct_store names nx ⟨v, hv⟩ c m₁.answers
        have hend := isStruct_store names p
          (m := ⟨m₁.heap.insert p (.record (structOf names p nx)), m₁.answers⟩)
          ⟨_, hh'⟩ c m₁.answers
        exact hend.trans (hmid.trans (hstruct c))

end

end SqliteComposite.Library

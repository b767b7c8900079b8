import SqliteComposite.Vfs.Coverage
import SqliteComposite.Vfs.FileStore
import SqliteComposite.Vfs.Reading

/-!
# The VFS refines a store of named files

In a run whose opens are of short names, with few handles, whose truncations are to sizes and
whose writes end at an `int`, every answer is one the store gives to the same calls. The file
under a name is the listed file that carries it, and a handle is on the name it was opened under.
-/

namespace SqliteComposite.Vfs

open Base Inmemfs

/-- What there is of a file for the store. -/
def entryOf (v : FileView) : Entry where
  bytes := (List.range v.len.toInt.toNat).map v.data.data
  doomed := decide (v.deleteOnClose ≠ 0)

/-- The store that a list of files and the open handles stand for. -/
def storeOf (l : List FileView) (hs : List (Nat × CFile)) : FileStore where
  files z := (lookup l z).map entryOf
  handles h := (hs.lookup h).bind CFile.zName

/-- The calls made: opens are of names shorter than `MAX_PATHNAME` and with fewer than `2 ^ 31`
handles, truncations are to sizes, and writes end at an `int` or are refused their growth. -/
structure Ordinary (w : World) (q : Request) : Prop where
  short : OpensShort q
  few : FewHandles w q
  toSize : ToSize w q
  endsInInt : EndsInInt w q

/-- The call touches memory that is not its own: it faults, or it is a read that stores outside
the bytes of the caller's buffer it was given. -/
def Oversteps (w : World) (q : Request) : Prop :=
  (∃ f, w.step q = .error f) ∨ ∃ h n o rc t w', q.call = .xRead h n o ∧
    w.step q = .ok (.read rc t, w') ∧ ∃ j, (j < 0 ∨ n.toInt ≤ j) ∧ t j ≠ none

/-- The call is a read that starts past the end of its file, and what is left of the distance to
the end is positive, so that bytes are counted there, or below the error value, so that the zeros
start before the buffer. When the end of the read is no 64-bit value all its bytes are counted. -/
def ReadsAstray (w : World) (q : Request) : Prop :=
  ∃ h n o file s, q.call = .xRead h n o ∧ w.handle? h = some file ∧ HasSize w file s ∧
    0 ≤ n.toInt ∧ s.toInt < o.toInt ∧
    if o.toInt + n.toInt < 2 ^ 63 then
      0 < (s.toInt - o.toInt).bmod (2 ^ 32) ∨ (s.toInt - o.toInt).bmod (2 ^ 32) < -1
    else 0 < n.toInt

/-- The state holds the files of `l`, tracked, of short names and covered by their buffers, and
each handle has the name of its file. -/
structure Represents (w : World) (l : List FileView) (g : Log) : Prop extends Tracked w l g where
  short : ∀ v ∈ l, v.name.length < maxPathname
  covered : ∀ v ∈ l, v.Covered
  named : ∀ p ∈ w.handles, ∃ v ∈ l, v.addr = p.2.fd ∧ p.2.zName = some v.name

/-! ### Files by name -/

section

variable {l l₁ l₂ : List FileView} {u v : FileView} {z : CStr}

/-- A file of a short name is found under its name and no other. -/
theorem named_short (hv : v.name.length < maxPathname) : v.Named z ↔ z = v.name := by
  constructor
  · exact fun h ↦ h.1.symm
  · rintro rfl
    exact ⟨rfl, hv⟩

/-- A file put first is the one found under its name. -/
theorem lookup_put (hv : v.name.length < maxPathname) :
    lookup (v :: l) z = if z = v.name then some v else lookup l z := by
  split
  · next hz => exact List.find?_cons_of_pos (decide_eq_true ((named_short hv).mpr hz))
  · next hz => exact List.find?_cons_of_neg (by simpa using mt (named_short hv).mp hz)

/-- No other file is found in place of one when the names are distinct. -/
theorem lookup_other (hn : ((l₁ ++ v :: l₂).map FileView.name).Nodup) :
    ∀ x ∈ l₁ ++ l₂, x.name ≠ v.name := by
  intro x hx he
  simp only [List.map_append, List.map_cons, List.nodup_append, List.nodup_cons, List.mem_map,
    List.mem_cons] at hn
  rcases List.mem_append.mp hx with hx | hx
  · exact hn.2.2 x.name ⟨x, hx, rfl⟩ v.name (.inl rfl) he
  · exact hn.2.1.1 ⟨x, hx, he⟩

/-- A file in another's place is the one found under the name of both. -/
theorem lookup_replaced (hn : ((l₁ ++ v :: l₂).map FileView.name).Nodup)
    (hv : v.name.length < maxPathname) (hu : u.name = v.name) :
    lookup (l₁ ++ u :: l₂) z = if z = v.name then some u else lookup (l₁ ++ v :: l₂) z := by
  have hfirst : z = v.name → lookup l₁ z = none := by
    rintro rfl
    exact lookup_none.mpr fun x hx hz ↦ lookup_other hn x (List.mem_append_left _ hx) hz.1
  have happ (x : FileView) (hx : x.name = v.name) : lookup (l₁ ++ x :: l₂) z =
      (lookup l₁ z).or (if z = v.name then some x else lookup l₂ z) := by
    rw [← hx, ← lookup_put (hx ▸ hv), lookup, List.find?_append]
    rfl
  rw [happ u hu, happ v rfl]
  split
  · next hz => rw [hfirst hz, Option.none_or]
  · rfl

/-- A file that is removed is no longer found, and the others are. -/
theorem lookup_removed (hn : ((l₁ ++ v :: l₂).map FileView.name).Nodup)
    (hv : v.name.length < maxPathname) :
    lookup (l₁ ++ l₂) z = if z = v.name then none else lookup (l₁ ++ v :: l₂) z := by
  split
  · next hz => exact lookup_none.mpr fun x hx hx' ↦ lookup_other hn x hx (hx'.1.trans hz)
  · next hz =>
    have hskip : lookup (v :: l₂) z = lookup l₂ z := by rw [lookup_put hv, if_neg hz]
    have hskip' : List.find? (fun v ↦ decide (v.Named z)) (v :: l₂) =
      List.find? (fun v ↦ decide (v.Named z)) l₂ := hskip
    rw [lookup, lookup, List.find?_append, List.find?_append, hskip']

end

/-! ### The store after a change -/

section

variable {l l₁ l₂ : List FileView} {u v : FileView} {hs : List (Nat × CFile)} {h : Nat}
  {file : CFile} {z : CStr}

/-- The store with a file put first. -/
theorem storeOf_put (hv : v.name.length < maxPathname) :
    storeOf (v :: l) hs = (storeOf l hs).put v.name (some (entryOf v)) := by
  refine congrArg (fun f ↦ FileStore.mk f _) (funext fun z ↦ ?_)
  rw [lookup_put hv, Function.update_apply]
  split <;> rfl

/-- The store with a file in another's place. -/
theorem storeOf_replaced (hn : ((l₁ ++ v :: l₂).map FileView.name).Nodup)
    (hv : v.name.length < maxPathname) (hu : u.name = v.name) :
    storeOf (l₁ ++ u :: l₂) hs =
      (storeOf (l₁ ++ v :: l₂) hs).put v.name (some (entryOf u)) := by
  refine congrArg (fun f ↦ FileStore.mk f _) (funext fun z ↦ ?_)
  rw [lookup_replaced hn hv hu, Function.update_apply]
  split <;> rfl

/-- The store with a file removed. -/
theorem storeOf_removed (hn : ((l₁ ++ v :: l₂).map FileView.name).Nodup)
    (hv : v.name.length < maxPathname) :
    storeOf (l₁ ++ l₂) hs = (storeOf (l₁ ++ v :: l₂) hs).put v.name none := by
  refine congrArg (fun f ↦ FileStore.mk f _) (funext fun z ↦ ?_)
  rw [lookup_removed hn hv, Function.update_apply]
  split <;> rfl

/-- The store with a handle opened. -/
theorem storeOf_opened : storeOf l ((h, file) :: hs) = (storeOf l hs).point h file.zName := by
  refine congrArg (FileStore.mk _) (funext fun k ↦ ?_)
  rw [List.lookup_cons, Function.update_apply]
  by_cases hk : k = h
  · rw [if_pos hk, beq_iff_eq.mpr hk]
    rfl
  · rw [if_neg hk, beq_eq_false_iff_ne.mpr hk]
    rfl

/-- The store with a handle closed. -/
theorem storeOf_closed :
    storeOf l (hs.filter fun p ↦ p.1 ≠ h) = (storeOf l hs).point h none := by
  refine congrArg (FileStore.mk _) (funext fun k ↦ ?_)
  rw [lookup_filter_ne, Function.update_apply]
  split <;> rfl

end

namespace Represents

variable {w w' : World} {l l' l₁ l₂ : List FileView} {g : Log} {u v : FileView} {h : Nat}
  {file : CFile} {z : CStr}

/-- The names of the files are distinct. -/
theorem nodup_name (hr : Represents w l g) : (l.map FileView.name).Nodup := by
  apply List.Nodup.map_on
  · intro u hu v hv he
    have ha := hr.names.unique u hu v hv he (hr.short u hu)
    exact List.inj_on_of_nodup_map hr.sound.rep.nodup_addr hu hv ha
  · exact hr.sound.rep.nodup_addr.of_map

/-- An open handle is on the name of a listed file. -/
theorem handle (hr : Represents w l g) (hf : w.handle? h = some file) :
    ∃ l₁ v l₂, l = l₁ ++ v :: l₂ ∧ v.addr = file.fd ∧
      (storeOf l w.handles).handles h = some v.name ∧
      (storeOf l w.handles).files v.name = some (entryOf v) := by
  obtain ⟨v, hv, ha, hz⟩ := hr.named _ (World.handle?_mem hf)
  obtain ⟨l₁, l₂, rfl⟩ := List.append_of_mem hv
  refine ⟨l₁, v, l₂, rfl, ha, ?_, ?_⟩
  · change (w.handle? h).bind CFile.zName = _
    rw [hf]
    exact hz
  · change (lookup _ v.name).map entryOf = _
    rw [lookup_replaced hr.nodup_name (hr.short v hv) rfl, if_pos rfl]
    rfl

/-- A handle that is not open is on no name. -/
theorem closed (hf : w.handle? h = none) : (storeOf l w.handles).handles h = none := by
  change (w.handle? h).bind CFile.zName = none
  rw [hf]
  rfl

/-- No handle of a part of the table is on the name of a file exactly when none holds it. -/
theorem unheld_holders {hs : List (Nat × CFile)} (hr : Represents w l g) (hv : v ∈ l)
    (hs_sub : ∀ p ∈ hs, p ∈ w.handles) (hkeys : (hs.map Prod.fst).Nodup) :
    (storeOf l' hs).Unheld v.name ↔ holders hs v.addr = 0 := by
  rw [holders_eq_zero]
  constructor
  · intro hun p hp hfd
    obtain ⟨u, hu, ha, hz⟩ := hr.named p (hs_sub p hp)
    have huv : u = v :=
      List.inj_on_of_nodup_map hr.sound.rep.nodup_addr hu hv (ha.trans hfd)
    subst huv
    apply hun p.1
    obtain ⟨k₁, k₂, rfl⟩ := List.append_of_mem hp
    have hlook : (k₁ ++ p :: k₂).lookup p.1 = some p.2 := by
      rw [List.map_append, List.map_cons, List.nodup_append] at hkeys
      refine List.lookup_eq_some_iff.mpr ⟨k₁, k₂, rfl, fun q hq ↦ ?_⟩
      have hne := hkeys.2.2 q.1 (List.mem_map_of_mem hq) p.1 List.mem_cons_self
      simpa using hne.symm
    change ((k₁ ++ p :: k₂).lookup p.1).bind CFile.zName = _
    rw [hlook]
    exact hz
  · intro hall k hk
    obtain ⟨file, hf, hz⟩ := Option.bind_eq_some_iff.mp hk
    obtain ⟨k₁, k₂, rfl, _⟩ := List.lookup_eq_some_iff.mp hf
    obtain ⟨u, hu, ha, hz'⟩ := hr.named _ (hs_sub (k, file) (by simp))
    rw [hz] at hz'
    injection hz' with hname
    have huv : u = v := List.inj_on_of_nodup_map hr.nodup_name hu hv hname.symm
    exact hall (k, file) (by simp) (ha ▸ huv ▸ rfl)

/-- No handle is on the name of a file exactly when the file counts none. -/
theorem unheld_iff (hr : Represents w l g) (hv : v ∈ l) :
    (storeOf l w.handles).Unheld v.name ↔ v.ref = 0 := by
  rw [hr.unheld_holders hv (fun _ ↦ id) hr.held.keys, ← Int32.toInt_inj, hr.held.counted v hv,
    Int32.toInt_zero]
  exact_mod_cast Iff.rfl

/-- Without one of its handles, no handle is on the name of a file exactly when the file counts
no other. -/
theorem unheld_closed (hr : Represents w l g) (hv : v ∈ l) (hf : w.handle? h = some file)
    (ha : v.addr = file.fd) :
    ((storeOf l w.handles).point h none).Unheld v.name ↔ v.ref - 1 = 0 := by
  have hsub : ∀ p ∈ w.handles.filter (fun p ↦ p.1 ≠ h), p ∈ w.handles :=
    fun p hp ↦ (List.mem_filter.mp hp).1
  have hkeys : ((w.handles.filter fun p ↦ p.1 ≠ h).map Prod.fst).Nodup :=
    hr.held.keys.sublist (List.filter_sublist.map _)
  rw [← storeOf_closed, hr.unheld_holders hv hsub hkeys, ← Int32.toInt_inj]
  have hcount := hr.held.counted v hv
  rw [holders_filter hr.held.keys hf, if_pos ha.symm] at hcount
  have hone : (1 : Int32).toInt = 1 := rfl
  have hlt := v.ref.toInt_lt
  rw [toInt_sub32 _ _ (by omega) (by omega), hone, Int32.toInt_zero]
  omega

/-- A listed file that stays where it is keeps its name. -/
private theorem name_eq {hs' : List (Nat × CFile)} {c : Call} {r : Reply}
    (hst : StepTo l w.handles c r l' hs') (hn : (l.map FileView.addr).Nodup) (hv : v ∈ l)
    (hu : u ∈ l') (ha : u.addr = v.addr) : u.name = v.name := by
  rcases hst.file_cases hn hv hu ha with ⟨_, _, rfl, _⟩ | ⟨_, _, _, _, _, hfs⟩
  · rfl
  · exact hfs.name_eq

/-- The file an open makes a handle on carries the name when it is short. -/
private theorem name_opened {a : Addr} {l₁ : List FileView} {flags : Int32}
    (hz : z.length < maxPathname) (hn : (l.map FileView.addr).Nodup) (ho : OpenTo l z a l₁)
    (h0 : a ≠ 0)
    (hd : if flags &&& sqliteOpenDeleteonclose ≠ 0 then DeleteTo l₁ z l' else l' = l₁)
    (hu : u ∈ l') (ha : u.addr = a) : u.name = z := by
  have hn₁ := (ho.recounted hn).1
  obtain ⟨x, hx, hxa, hxz⟩ : ∃ x ∈ l₁, x.addr = a ∧ x.name = z := by
    cases ho with
    | @found k₁ k₂ v hl hf => exact ⟨v.opened, by simp, rfl, (lookup_some hf).1.1⟩
    | @created v hf hv hfresh =>
      exact ⟨v.opened, by simp, rfl, hv.name.trans (z.take_of_le _ hz.le)⟩
    | refused _ => exact absurd rfl h0
  split at hd
  · obtain ⟨_, _, rfl, _⟩ := hd.recounted hn₁ hx hu (ha.trans hxa.symm)
    exact hxz
  · subst hd
    rw [List.inj_on_of_nodup_map hn₁ hu hx (ha.trans hxa.symm), hxz]

/-- Every ordinary call leaves a state that represents a list of files. -/
theorem step {q : Request} {r : Reply} (hr : Represents w l g) (hq : Ordinary w q)
    (he : w.step q = .ok (r, w')) :
    ∃ l', StepTo l w.handles q.call r l' w'.handles ∧ Represents w' l' (note w q w' g) := by
  have hn := hr.sound.rep.nodup_addr
  obtain ⟨l', hst, ht⟩ := hr.toTracked.step hq.few he
  obtain ⟨l'', _, hs'', hcov⟩ := covered_step hr.sound hr.covered hq.toSize hq.endsInInt he
  obtain rfl : l'' = l' := hs''.rep.unique ht.sound.rep
  refine ⟨l'', hst, ht, ?_, hcov, ?_⟩
  · apply hst.forall hr.short
    · exact fun v _ _ hv ↦ hv
    · intro h z flags v hc hv
      rw [hv.name, CStr.length_take]
      have hz := hq.short h z flags hc
      omega
    · intro _ _ v u _ _ _ hfs _ hv
      rw [hfs.name_eq]
      exact hv
  · intro p hp
    obtain ⟨u, hu, ha⟩ := List.mem_map.mp (ht.held.linked p hp)
    refine ⟨u, hu, ha, ?_⟩
    have hold (hp : p ∈ w.handles) : p.2.zName = some u.name := by
      obtain ⟨v, hv, hva, hz⟩ := hr.named p hp
      rw [hz, name_eq hst hn hv hu (ha.trans hva.symm)]
    generalize hhs : w'.handles = hs' at hst hp
    generalize hc : q.call = c at hst
    cases hst with
    | @opened h z flags a l₁ _ _ ho h0 hd =>
      rcases List.mem_cons.mp hp with rfl | hp
      · exact congrArg some (name_opened (hq.short h z flags hc) hn ho h0 hd hu ha).symm
      · exact hold hp
    | closed _ _ => exact hold (List.mem_filter.mp hp).1
    | idle _ | rejected | through _ _ _ _ | deletedNull | deleted _ => exact hold hp

end Represents

/-! ### Calls that succeed -/

section

variable {w w' : World} {l l' l₁ l₂ : List FileView} {g : Log} {u v : FileView} {h : Nat}
  {file : CFile} {z : CStr} {a : Addr} {flags : Int32} {answers : List (Option Grant)}

/-- A new file is an empty entry. -/
theorem entryOf_new (hv : v.IsNew z) : entryOf v = ⟨[], false⟩ := by
  have hlen : v.len.toInt.toNat = 0 := by rw [hv.len]; rfl
  simp only [entryOf, hlen, hv.deleteOnClose]
  rfl

/-- An open finds the file under the name or makes an empty one, and counts it. -/
private theorem openTo_opened (hr : Represents w l g) (hz : z.length < maxPathname)
    (ho : OpenTo l z a l₁) (h0 : a ≠ 0) :
    ∃ k₁ x k₂, l₁ = k₁ ++ x.opened :: k₂ ∧ (l₁.map FileView.name).Nodup ∧ x.name = z ∧
      0 ≤ x.ref.toInt ∧ x.ref.toInt ≤ (w.handles.length : Int) ∧
      entryOf x = ((storeOf l w.handles).files z).getD ⟨[], false⟩ ∧
      storeOf l₁ w.handles = (storeOf l w.handles).put z (some (entryOf x)) := by
  cases ho with
  | @found k₁ k₂ v hl hf =>
    subst hl
    have hv : v ∈ k₁ ++ v :: k₂ := by simp
    have hname : v.name = z := (lookup_some hf).1.1
    have hn := hr.nodup_name
    obtain ⟨hge, hle⟩ := hr.held.ref_le hv
    refine ⟨k₁, v, k₂, rfl, ?_, hname, hge, hle, ?_, ?_⟩
    · simpa [FileView.opened, FileView.counted] using hn
    · change _ = ((lookup _ z).map entryOf).getD _
      rw [hf]
      rfl
    · rw [storeOf_replaced hn (hr.short v hv) (u := v.opened) rfl, hname]
      rfl
  | @created v hf hv hfresh =>
    have hname : v.name = z := hv.name.trans (z.take_of_le _ hz.le)
    refine ⟨[], v, l, rfl, ?_, hname, by rw [hv.ref]; exact le_rfl, ?_, ?_, ?_⟩
    · rw [List.map_cons, List.nodup_cons]
      refine ⟨fun hm ↦ ?_, hr.nodup_name⟩
      obtain ⟨x, hx, hxn⟩ := List.mem_map.mp hm
      exact lookup_none.mp hf x hx ⟨hxn.trans hname, hz⟩
    · rw [hv.ref]
      exact Int.natCast_nonneg _
    · change _ = ((lookup _ z).map entryOf).getD _
      rw [hf, entryOf_new hv]
      rfl
    · have hshort : v.opened.name.length < maxPathname := by
        change v.name.length < _
        rwa [hname]
      rw [storeOf_put hshort]
      change (storeOf l w.handles).put v.name _ = _
      rw [hname]
      rfl
  | refused _ => exact absurd rfl h0

/-- A successful open is one of the store. -/
private theorem opened_refines (hr : Represents w l g) (hz : z.length < maxPathname)
    (hfew : w.handles.length + 1 < 2 ^ 31) (hfree : w.handle? h = none) (ho : OpenTo l z a l₁)
    (h0 : a ≠ 0)
    (hd : if flags &&& sqliteOpenDeleteonclose ≠ 0 then DeleteTo l₁ z l' else l' = l₁)
    (he : w.step ⟨.xOpen h (some z) flags, answers⟩ = .ok (.status .ok, w')) :
    FileStore.Step (storeOf l w.handles) (.xOpen h (some z) flags) (.status .ok)
      (storeOf l' ((h, ⟨true, some z, a⟩) :: w.handles)) := by
  have hnot : ¬ (CreatesOnly flags ∧ (storeOf l w.handles).files z ≠ none) := by
    rintro ⟨hc, hsome⟩
    obtain ⟨e, he'⟩ := Option.ne_none_iff_exists'.mp hsome
    obtain ⟨v, hv, _⟩ := Option.map_eq_some_iff.mp he'
    have hrep : Rep w.list (w.begin answers).heap l [] := hr.sound.rep
    simp only [World.step, hfree, cOpen_exclusive hrep hv hc, ok_bind] at he
    cases he
  have hstore : storeOf l' w.handles =
      (storeOf l w.handles).put z (some ((storeOf l w.handles).opened z flags)) := by
    obtain ⟨k₁, x, k₂, rfl, hn, hname, hge, hle, hentry, hput⟩ := openTo_opened hr hz ho h0
    rw [FileStore.opened, ← hentry]
    split at hd
    · next hflag =>
      have hx : lookup (k₁ ++ x.opened :: k₂) z = some x.opened := by
        rw [lookup_replaced hn (hname ▸ hz) rfl]
        exact if_pos hname.symm
      have hn' := (ho.recounted hr.sound.rep.nodup_addr).1
      rcases hd.of_found hn' hx with ⟨hzero, _⟩ | ⟨_, rfl⟩
      · have hone : (1 : Int32).toInt = 1 := rfl
        have hadd : (x.ref + 1).toInt = x.ref.toInt + 1 := by
          rw [toInt_add32 _ _ (by omega) (by omega), hone]
        have hzero' : (x.ref + 1).toInt = 0 := congrArg Int32.toInt hzero
        omega
      · rw [storeOf_replaced hn (hname ▸ hz) (u := x.opened.doomed) rfl, hput]
        change ((storeOf l w.handles).put z _).put x.name _ = _
        rw [hname]
        simp only [FileStore.put, Function.update_idem, decide_eq_true hflag, Bool.or_true]
        rfl
    · next hflag =>
      subst hd
      rw [hput, decide_eq_false hflag, Bool.or_false]
  rw [storeOf_opened, hstore]
  exact .opened (Represents.closed hfree) hnot

/-- A file under a name stays as it is when it is put there again. -/
theorem put_self {st : FileStore} {e : Entry} (he : st.files z = some e) :
    st.put z (some e) = st := by
  rw [FileStore.put, ← he, Function.update_eq_self]

/-- A successful close is one of the store. -/
private theorem closed_refines (hr : Represents w l g) (hf : w.handle? h = some file)
    (hc : CloseTo l file.fd l') :
    FileStore.Step (storeOf l w.handles) (.xClose h) (.status .ok)
      (storeOf l' (w.handles.filter fun p ↦ p.1 ≠ h)) := by
  obtain ⟨k₁, v, k₂, rfl, ha, hhandle, hfile⟩ := hr.handle hf
  have hn := hr.sound.rep.nodup_addr
  have hv : v ∈ k₁ ++ v :: k₂ := by simp
  have hun := hr.unheld_closed hv hf ha
  have hdoomed : (entryOf v).doomed = true ↔ v.deleteOnClose ≠ 0 := decide_eq_true_iff
  rw [storeOf_closed]
  cases hc with
  | @kept l₁ l₂ x hl hx hkeep =>
    obtain ⟨rfl, rfl, rfl⟩ := split_eq hn hl (hx.trans ha.symm)
    rw [storeOf_replaced hr.nodup_name (hr.short x hv) (u := x.closed) rfl]
    change FileStore.Step _ _ _ (((storeOf _ _).put x.name (some (entryOf x))).point h none)
    rw [put_self hfile]
    refine .closed hhandle hfile fun hlast ↦ hkeep ?_
    exact ⟨hun.mp hlast.2, hdoomed.mp hlast.1⟩
  | @removed l₁ l₂ x hl hx hlast hdel =>
    obtain ⟨rfl, rfl, rfl⟩ := split_eq hn hl (hx.trans ha.symm)
    rw [storeOf_removed hr.nodup_name (hr.short x hv)]
    exact .closedLast hhandle hfile (hdoomed.mpr hdel) (hun.mpr hlast)

/-- A covered file has as many bytes as its length says. -/
theorem entryOf_length (hcov : v.Covered) : Int64.ofNat (entryOf v).bytes.length = v.len := by
  have hlt := v.data.size_lt
  have h0 := hcov.1
  have hle := hcov.2
  apply Int64.toInt_inj.mp
  simp only [entryOf, List.length_map, List.length_range]
  rw [Int64.toInt_ofNat_of_lt (by omega)]
  omega

/-- The bytes of a file up to a length. -/
theorem entryOf_cut {len : Int64} (hle : len.toInt ≤ v.len.toInt) :
    entryOf (v.resized len) = (entryOf v).cut len.toInt.toNat := by
  simp only [entryOf, Entry.cut, FileView.resized, FileView.counted, ← List.map_take,
    List.take_range, Entry.mk.injEq]
  rw [min_eq_left (by omega)]
  exact ⟨rfl, rfl⟩

/-- The bytes of a file that is written: what a file had before the write and the bytes found
between its end and the write stay. -/
theorem entryOf_written {x : FileView} {o n : Nat} {src : Nat → UInt8} {len : Int64}
    (hlen : len.toInt = o + n) (hdel : x.deleteOnClose = v.deleteOnClose)
    (hdata : ∀ i < v.len.toInt.toNat, x.data.data i = v.data.data i) :
    ∃ gap : List UInt8, gap.length = o - v.len.toInt.toNat ∧
      entryOf (x.written o n src len) = (entryOf v).write o n src gap := by
  refine ⟨(List.range (o - v.len.toInt.toNat)).map fun i ↦ x.data.data (v.len.toInt.toNat + i),
    by simp, ?_⟩
  have hto : len.toInt.toNat = o + n := by omega
  simp only [entryOf, Entry.write, FileView.written, FileView.buffered, FileView.resized,
    FileView.counted, hto, hdel, Entry.mk.injEq, and_true]
  apply List.ext_getElem
  · simp only [List.length_map, List.length_range, List.length_append, List.length_take]
    omega
  · intro i hi _
    simp only [List.length_map, List.length_range] at hi
    simp only [List.getElem_map, List.getElem_range, List.getElem_append, List.getElem_take,
      List.length_append, List.length_map, List.length_range, List.length_take, Chars.blit]
    by_cases hlow : i < o
    · rw [if_neg (by omega), dif_pos (by omega)]
      split
      · next hin => exact hdata i (by omega)
      · next hin => exact congrArg _ (by omega)
    · rw [if_pos (by omega), dif_neg (by omega)]
      exact congrArg src (by omega)

/-- A successful call through a handle is one of the store. -/
private theorem through_refines {q : Request} (hr : Represents w (l₁ ++ v :: l₂) g)
    (hq : Ordinary w q) (hf : w.handle? h = some file) (ha : v.addr = file.fd)
    (hfs : FileStep h v q.call u) (he : w.step q = .ok (.status .ok, w')) :
    FileStore.Step (storeOf (l₁ ++ v :: l₂) w.handles) q.call (.status .ok)
      (storeOf (l₁ ++ u :: l₂) w.handles) := by
  have hn := hr.sound.rep.nodup_addr
  have hv : v ∈ l₁ ++ v :: l₂ := by simp
  have hlink : Linked w file.fd := (linked_iff hr.sound.rep).mpr ⟨l₁, v, l₂, rfl, ha⟩
  obtain ⟨k₁, x, k₂, hl, hx, hhandle, hfile⟩ := hr.handle hf
  obtain ⟨rfl, rfl, rfl⟩ := split_eq hn hl (hx.trans ha.symm)
  have hcov := hr.covered x hv
  rw [storeOf_replaced hr.nodup_name (hr.short x hv) hfs.name_eq]
  obtain ⟨c, answers⟩ := q
  cases hfs with
  | @wrote src n o y ho hnn hg hfit =>
    have hend : o.toInt + n.toInt < 2 ^ 31 := by
      rcases hq.endsInInt h src n o file rfl hf hlink ho hnn with hlt | href
      · exact hlt
      · exact absurd href (not_refused hr.sound.rep hf ha ho hnn he)
    obtain ⟨gap, hgap, hentry⟩ := @entryOf_written x y o.toInt.toNat
      n.toInt.toNat src (o + n.toInt64)
      (by rw [toInt_end ho hnn (by omega)]; omega) hg.same.2.1
      fun i hi ↦ hg.data_eq (by have := hcov.2; omega)
    rw [hentry]
    refine .wrote hhandle hfile ho hnn ?_
    rw [hgap]
    simp [entryOf]
  | @truncated size =>
    have h0 := hq.toSize h size file rfl hf hlink
    have hentry : entryOf (x.resized (if size < x.len then size else x.len)) =
        (entryOf x).cut size.toInt.toNat := by
      split
      · next hlt =>
        have hlt := Int64.lt_iff_toInt_lt.mp hlt
        exact entryOf_cut hlt.le
      · next hlt =>
        have hlt : ¬ size.toInt < x.len.toInt := fun h ↦ hlt (Int64.lt_iff_toInt_lt.mpr h)
        rw [entryOf_cut le_rfl]
        simp only [Entry.cut, entryOf, ← List.map_take, List.take_range, Entry.mk.injEq, and_true]
        rw [min_self, min_eq_right (by omega)]
    rw [hentry]
    exact .truncated hhandle hfile h0
  | @hinted arg grown u hg =>
    have hentry : entryOf u = entryOf x := by
      simp only [entryOf, hg.len_eq, hg.same.2.1, Entry.mk.injEq, and_true]
      refine List.map_congr_left fun i hi ↦ ?_
      have hi := List.mem_range.mp hi
      exact hg.data_eq (by have := hcov.2; omega)
    rw [hentry, put_self hfile]
    have hop : FileStore.Step (storeOf (k₁ ++ x :: k₂) w.handles)
        (.xFileControl h sqliteFcntlSizeHint arg)
        (.status (if sqliteFcntlSizeHint = sqliteFcntlSizeHint then .ok else .notfound)) _ :=
      .control (by rw [hhandle]; simp)
    rwa [if_pos rfl] at hop

/-- A delete is one of the store. -/
private theorem deleted_refines (hr : Represents w l g) (hd : DeleteTo l z l') :
    FileStore.Step (storeOf l w.handles) (.xDelete (some z)) (.status .ok)
      (storeOf l' w.handles) := by
  have hfile (v : FileView) (hf : lookup l z = some v) :
      (storeOf l w.handles).files z = some (entryOf v) := by
    change (lookup l z).map entryOf = _
    rw [hf]
    rfl
  cases hd with
  | absent hf =>
    refine .deletedNone fun z' hz' ↦ ?_
    rcases hz' with hz' | hz'
    · cases hz'
    · cases hz'
      change (lookup l z).map entryOf = none
      rw [hf]
      rfl
  | @removed l₁ l₂ v hl hf h0 =>
    subst hl
    have hv : v ∈ l₁ ++ v :: l₂ := by simp
    have hname : v.name = z := (lookup_some hf).1.1
    rw [storeOf_removed hr.nodup_name (hr.short v hv), hname]
    exact .deleted (hfile v hf) (hname ▸ (hr.unheld_iff hv).mpr h0)
  | @deferred l₁ l₂ v hl hf h0 =>
    subst hl
    have hv : v ∈ l₁ ++ v :: l₂ := by simp
    have hname : v.name = z := (lookup_some hf).1.1
    rw [storeOf_replaced hr.nodup_name (hr.short v hv) (u := v.doomed) rfl, hname]
    exact .deferred (hfile v hf) (hname ▸ mt (hr.unheld_iff hv).mp h0)

end

/-! ### Calls that leave everything alone -/

section

variable {w w' : World} {l : List FileView} {g : Log} {v : FileView} {h : Nat} {file : CFile}
  {answers : List (Option Grant)} {r : Reply} {rc : Rc} {t : Stores} {n : Int32} {o : Int64}

/-- Past the end of a file inside its buffer nothing is counted. -/
theorem readCount_inside_buffer (hcov : v.Covered) (ho : v.len.toInt < o.toInt)
    (hsize : o.toInt < v.data.size) (hn : 0 ≤ n.toInt) :
    (readCount v.len o n).toInt < 0 := by
  have hlt := v.data.size_lt
  have hnlt := n.toInt_lt
  have h0 := hcov.1
  rw [readCount_past hcov.1 hn ho (by omega), Int.bmod_eq_of_le (by omega) (by omega)]
  omega

/-- A read of a covered file that counts bytes past the end of the file leaves its buffer. -/
theorem cRead_past {l₁ l₂ : List FileView} {m : FsMem} {list : Addr}
    (hr : Rep list m.heap (l₁ ++ v :: l₂) []) (hcov : v.Covered) (ha : v.addr = file.fd)
    (hn : 0 ≤ n.toInt) (ho : v.len.toInt < o.toInt) (hk : 0 < (readCount v.len o n).toInt) :
    cRead m file n o = .error .outOfBounds := by
  obtain ⟨hd, _⟩ := hr.attached v (by simp)
  obtain ⟨nx, hload, _⟩ := counters_spec hr
  have hsize : (v.data.size : Int) ≤ o.toInt := by
    by_contra hlt
    have hneg := readCount_inside_buffer hcov ho (by omega) hn
    omega
  have hread := fsRead_past hload hd hsize hn hk
  rw [ha] at hread
  rw [cRead, hread, error_bind]

/-- A read of a covered file that counts no bytes past its end is one of its entry. -/
theorem cRead_entry {l₁ l₂ : List FileView} {m : FsMem} {list : Addr}
    (hr : Rep list m.heap (l₁ ++ v :: l₂) []) (hcov : v.Covered) (ha : v.addr = file.fd)
    (hin : ¬ (o < 0 ∨ n < 0) → o.toInt ≤ v.len.toInt ∨ (readCount v.len o n).toInt ≤ 0) :
    cRead m file n o = .ok ((entryOf v).read n o) := by
  obtain ⟨hd, _⟩ := hr.attached v (by simp)
  obtain ⟨nx, hload, _⟩ := counters_spec hr
  have hlen := entryOf_length hcov
  simp only [Entry.read, hlen]
  by_cases hneg : o < 0 ∨ n < 0
  · simp only [cRead, fsRead, ok_bind, true_or, ↓reduceIte, hneg]
  obtain ⟨ho, hn⟩ := not_rejected_iff.mp hneg
  have hfit (hpos : 0 < (readCount v.len o n).toInt) :
      o.toInt + (readCount v.len o n).toInt ≤ v.len.toInt := by
    have hle := (hin hneg).resolve_right (by omega)
    have hlt := v.data.size_lt
    have hcount := readCount_inside ho hn hle (by have := hcov.2; omega)
    omega
  have hread := fsRead_stores hload hd ho hn fun hpos ↦ (hfit hpos).trans hcov.2
  change fsRead m v.addr o n = .ok (readCount v.len o n, fun j ↦
    if 0 ≤ j ∧ j < (readCount v.len o n).toInt then some (v.data.data (o.toInt + j).toNat)
    else none) at hread
  rw [ha] at hread
  simp only [cRead, hread, ok_bind, hneg, false_or]
  generalize readCount v.len o n = k at hfit
  by_cases hk : k = -1
  · rw [if_pos hk, if_pos hk]
    subst hk
    refine congrArg (fun t ↦ Except.ok (Rc.ioerrRead, t)) (funext fun j ↦ if_neg ?_)
    have hminus : (-1 : Int32).toInt = -1 := rfl
    omega
  rw [if_neg hk, if_neg hk]
  have hbyte (j : Int) (hj : 0 ≤ j ∧ j < k.toInt) :
      (entryOf v).bytes.getD (o.toInt + j).toNat 0 = v.data.data (o.toInt + j).toNat := by
    have hle := hfit (by omega)
    rw [entryOf, List.getD_eq_getElem?_getD, List.getElem?_map,
      List.getElem?_range (by omega)]
    rfl
  split
  · next hlt =>
    have hlt := Int32.lt_iff_toInt_lt.mp hlt
    refine congrArg (fun t ↦ Except.ok (Rc.ioerrShortRead, t)) (funext fun j ↦ ?_)
    rw [zeroFill_eq]
    by_cases hj : 0 ≤ j ∧ j < k.toInt
    · rw [if_neg (by omega), if_pos hj, if_pos hj, hbyte j hj]
    · rw [if_neg hj, if_neg hj]
      exact if_congr (by omega) rfl rfl
  · next hlt =>
    have hlt : ¬ k.toInt < n.toInt := fun h ↦ hlt (Int32.lt_iff_toInt_lt.mpr h)
    refine congrArg (fun t ↦ Except.ok (Rc.ok, t)) (funext fun j ↦ ?_)
    by_cases hj : 0 ≤ j ∧ j < k.toInt
    · rw [if_pos hj, if_pos hj, hbyte j hj]
    · rw [if_neg hj, if_neg hj, if_neg (by omega)]

/-- A read of a covered file that returns counts no bytes past its end. -/
theorem cRead_returned {l₁ l₂ : List FileView} {m : FsMem} {list : Addr}
    (hr : Rep list m.heap (l₁ ++ v :: l₂) []) (hcov : v.Covered) (ha : v.addr = file.fd)
    (he : cRead m file n o = .ok (rc, t)) : (entryOf v).read n o = (rc, t) := by
  rw [cRead_entry hr hcov ha] at he
  · injection he
  · intro hneg
    by_contra hbad
    obtain ⟨hpast, hcount⟩ := not_or.mp hbad
    rw [cRead_past hr hcov ha (not_rejected_iff.mp hneg).2 (by omega) (by omega)] at he
    cases he

/-- A call through a handle is not made, or it is the method on a listed file. -/
private theorem through_listed (hr : Represents w l g) {f : CFile → Except Fault (Reply × World)}
    {x : Except Fault (Reply × World)} (he : w.through h f = x) :
    ((storeOf l w.handles).handles h = none ∧ x = .ok (.notMade, w)) ∨
      ∃ file l₁ v l₂, w.handle? h = some file ∧ l = l₁ ++ v :: l₂ ∧ v.addr = file.fd ∧
        (storeOf l w.handles).handles h = some v.name ∧
        (storeOf l w.handles).files v.name = some (entryOf v) ∧ f file = x := by
  unfold World.through at he
  split at he
  · next hf => exact .inl ⟨Represents.closed hf, he.symm⟩
  · next file hf =>
    obtain ⟨l₁, v, l₂, hl, ha, hhandle, hfile⟩ := hr.handle hf
    exact .inr ⟨file, l₁, v, l₂, hf, hl, ha, hhandle, hfile, he⟩

/-- No file is under any name when none is listed. -/
private theorem files_nil {hs : List (Nat × CFile)} {z : CStr} : (storeOf [] hs).files z = none :=
  rfl

/-- An open that fails is one of the store. -/
private theorem open_refused (hr : Represents w l g) {zName : Option CStr} {flags : Int32}
    (hne : r ≠ .status .ok) (he : w.step ⟨.xOpen h zName flags, answers⟩ = .ok (r, w')) :
    FileStore.Step (storeOf l w.handles) (.xOpen h zName flags) r (storeOf l w.handles) := by
  have hrep : Rep w.list (w.begin answers).heap l [] := hr.sound.rep
  simp only [World.step] at he
  split at he
  · next file hf =>
    cases he
    obtain ⟨_, v, _, _, _, hhandle, _⟩ := hr.handle hf
    refine .notMade fun hmade ↦ ?_
    change (storeOf l w.handles).handles h = none at hmade
    rw [hhandle] at hmade
    cases hmade
  · next hfree =>
    have hfree' := Represents.closed (l := l) hfree
    cases zName with
    | none =>
      rcases cOpen_null hrep ⟨false, none, 0⟩ flags with ⟨_, file, out, m', ho, _⟩ | ⟨_, ho⟩
      · rw [ho, ok_bind] at he
        cases he
        refine .openRefused hfree' ?_
        rintro z ⟨⟩
      · rw [ho, error_bind] at he
        cases he
    | some z =>
      obtain ⟨rc, file, out, m', ho, hcase⟩ := cOpen_spec hrep z ⟨false, none, 0⟩ flags
      rw [ho, ok_bind] at he
      rcases hcase with ⟨rfl, hwhy, _⟩ | ⟨rfl, _⟩
      · cases he
        refine .openRefused hfree' ?_
        rintro _ ⟨⟩
        refine hwhy.imp_left fun hf ↦ ?_
        change (lookup l z).map entryOf = none
        rw [hf]
        rfl
      · cases he
        exact absurd rfl hne

/-- A write that stores nothing is one of the store. -/
private theorem write_refused (hr : Represents w l g) {src : Nat → UInt8}
    (hne : r ≠ .status .ok) (he : w.step ⟨.xWrite h src n o, answers⟩ = .ok (r, w')) :
    FileStore.Step (storeOf l w.handles) (.xWrite h src n o) r (storeOf l w.handles) := by
  rcases through_listed hr he with ⟨hnone, hx⟩ |
    ⟨file, l₁, v, l₂, hf, rfl, ha, hhandle, hfile, he⟩
  · cases hx
    exact .notMade (· hnone)
  have hrep : Rep w.list (w.begin answers).heap (l₁ ++ v :: l₂) [] := hr.sound.rep
  by_cases hneg : o < 0 ∨ n < 0
  · have hstep : FileStore.Step (storeOf (l₁ ++ v :: l₂) w.handles) (.xWrite h src n o)
        (.status (if n = -1 then .ok else .ioerrWrite)) _ :=
      .writeRejected (by rw [hhandle]; simp) hneg
    simp only [cWrite, fsWrite, if_pos hneg, ok_bind] at he
    split at he
    · cases he
      exact absurd rfl hne
    · next hn =>
      cases he
      rwa [if_neg (Ne.symm hn)] at hstep
  · obtain ⟨ho, hn⟩ := not_rejected_iff.mp hneg
    rcases fsWrite_spec hrep o n src with ⟨rc, m', u, hw, hto, _⟩ | hw
    · rw [ha] at hw
      simp only [cWrite, hw, ok_bind] at he
      cases hto with
      | rejected h => exact absurd h hneg
      | refused _ _ hlt =>
        have hminus : (-1 : Int32) ≠ n := by
          rintro rfl
          exact absurd hn (by decide)
        rw [if_neg hminus] at he
        cases he
        refine .writeRefused hhandle hfile ho hn ?_
        have hcov := hr.covered v (by simp)
        have hlen : (entryOf v).bytes.length = v.len.toInt.toNat := by simp [entryOf]
        have hnlt := n.toInt_lt
        rw [hlen]
        by_cases hend : o.toInt + n.toInt < 2 ^ 63
        · rw [toInt_end ho hn hend] at hlt
          have hsize := v.data.size_lt
          have h0 := hcov.1
          have hle := hcov.2
          omega
        · have hsize := v.data.size_lt
          have h0 := hcov.1
          have hle := hcov.2
          omega
      | stored _ _ _ _ =>
        rw [if_pos rfl] at he
        cases he
        exact absurd rfl hne
    · rw [ha] at hw
      simp only [cWrite, hw, error_bind] at he
      cases he

/-- A call that returns anything but success leaves the store alone. -/
private theorem idle_refines {q : Request} (hr : Represents w l g) (hne : r ≠ .status .ok)
    (he : w.step q = .ok (r, w')) :
    FileStore.Step (storeOf l w.handles) q.call r (storeOf l w.handles) := by
  obtain ⟨c, answers⟩ := q
  have hrep : Rep w.list (w.begin answers).heap l [] := hr.sound.rep
  cases c with
  | xOpen h zName flags => exact open_refused hr hne he
  | xWrite h src n o => exact write_refused hr hne he
  | xClose h =>
    rcases through_listed hr he with ⟨hnone, hx⟩ |
      ⟨file, l₁, v, l₂, hf, rfl, ha, hhandle, hfile, he⟩
    · cases hx
      exact .notMade (· hnone)
    · obtain ⟨m', l', hc, _⟩ := fsClose_spec hrep
      rw [ha] at hc
      simp only [cClose, hc, ok_bind] at he
      cases he
      exact absurd rfl hne
  | xRead h n o =>
    rcases through_listed hr he with ⟨hnone, hx⟩ |
      ⟨file, l₁, v, l₂, hf, rfl, ha, hhandle, hfile, he⟩
    · cases hx
      exact .notMade (· hnone)
    · obtain ⟨⟨rc, t⟩, hread, he⟩ := bind_ok he
      cases he
      have hentry := cRead_returned hrep (hr.covered v (by simp)) ha hread
      have hstep := FileStore.Step.read (n := n) (o := o) hhandle hfile
      rwa [hentry] at hstep
  | xTruncate h size =>
    rcases through_listed hr he with ⟨hnone, hx⟩ |
      ⟨file, l₁, v, l₂, hf, rfl, ha, hhandle, hfile, he⟩
    · cases hx
      exact .notMade (· hnone)
    · obtain ⟨m', ht, _⟩ := fsTruncate_spec hrep size
      rw [ha] at ht
      simp only [cTruncate, ht, ok_bind, ↓reduceIte] at he
      cases he
      exact absurd rfl hne
  | xFileSize h =>
    rcases through_listed hr he with ⟨hnone, hx⟩ |
      ⟨file, l₁, v, l₂, hf, rfl, ha, hhandle, hfile, he⟩
    · cases hx
      exact .notMade (· hnone)
    · obtain ⟨nx, hload, _⟩ := counters_spec hrep
      rw [ha] at hload
      simp only [cFileSize, hload, ok_bind] at he
      cases he
      have hstep := FileStore.Step.size hhandle hfile
      have hlen := entryOf_length (hr.covered v (by simp))
      rwa [hlen] at hstep
  | xFileControl h op arg =>
    rcases through_listed hr he with ⟨hnone, hx⟩ |
      ⟨file, l₁, v, l₂, hf, rfl, ha, hhandle, hfile, he⟩
    · cases hx
      exact .notMade (· hnone)
    · have hstep := @FileStore.Step.control _ h op arg
        (by rw [hhandle]; simp : (storeOf (l₁ ++ v :: l₂) w.handles).handles h ≠ none)
      by_cases hop : op = sqliteFcntlSizeHint
      · subst hop
        obtain ⟨grown, m', u, hh, _⟩ := fsSizeHint_spec hrep arg.toInt64
        rw [ha] at hh
        simp only [cFileControl, ↓reduceIte, if_pos (hr.sound.handle hf).1, hh, ok_bind] at he
        cases he
        exact absurd rfl hne
      · simp only [cFileControl, if_neg hop, ok_bind] at he
        cases he
        rwa [if_neg hop] at hstep
  | xDelete zName =>
    cases zName with
    | none =>
      rcases fsDelete_null hrep with hd | hd
      · simp only [World.step, cDelete, hd, ok_bind, ↓reduceIte] at he
        cases he
        exact absurd rfl hne
      · simp only [World.step, cDelete, hd, error_bind] at he
        cases he
    | some z =>
      obtain ⟨m', l', hd, _⟩ := fsDelete_spec hrep z
      simp only [World.step, cDelete, hd, ok_bind, ↓reduceIte] at he
      cases he
      exact absurd rfl hne
  | xAccess zName =>
    cases zName with
    | none =>
      simp only [World.step, cAccess, fsExists_null hrep] at he
      by_cases hl : l = []
      · rw [if_pos hl, ok_bind, ok_bind] at he
        cases he
        subst hl
        exact .accessNone fun z ↦ files_nil
      · rw [if_neg hl] at he
        cases he
    | some z =>
      simp only [World.step, cAccess, fsExists_spec hrep, ok_bind] at he
      cases he
      have hstep := @FileStore.Step.access (storeOf l w.handles) z
      have hfile : ((storeOf l w.handles).files z).isSome = (lookup l z).isSome :=
        Option.isSome_map
      rwa [hfile] at hstep

/-- Every ordinary call that returns is one of the store. -/
theorem step_refines {q : Request} (hr : Represents w l g) (hq : Ordinary w q)
    (he : w.step q = .ok (r, w')) :
    ∃ l' g', FileStore.Step (storeOf l w.handles) q.call r (storeOf l' w'.handles) ∧
      Represents w' l' g' := by
  obtain ⟨l', hst, hr'⟩ := hr.step hq he
  refine ⟨l', _, ?_, hr'⟩
  by_cases hne : r = .status .ok
  · subst hne
    obtain ⟨c, answers⟩ := q
    generalize hhs : w'.handles = hs' at hst
    generalize hreply : Reply.status Rc.ok = r at hst
    dsimp only at hst
    cases hst with
    | idle hne => exact absurd hreply.symm hne
    | rejected =>
      rcases through_listed hr he with ⟨_, hx⟩ | ⟨file, _, v, _, _, _, _, hhandle, _, _⟩
      · cases hx
      · exact .writeRejected (n := -1) (by rw [hhandle]; simp) (.inr (by decide))
    | opened hf ho h0 hd =>
      exact opened_refines hr (hq.short _ _ _ rfl) (hq.few _ _ _ rfl) hf ho h0 hd he
    | closed hf hc => exact closed_refines hr hf hc
    | through hf hl ha hfs =>
      subst hl
      exact through_refines hr hq hf ha hfs he
    | deletedNull =>
      have hrep : Rep w.list (w.begin answers).heap l [] := hr.sound.rep
      refine .deletedNone fun z _ ↦ ?_
      have hl : l = [] := by
        by_contra hl
        simp only [World.step, cDelete, fsDelete, fsFindFile_null hrep, if_neg hl] at he
        cases he
      subst hl
      rfl
    | deleted hd => exact deleted_refines hr hd
  · have hsame := idle_refines hr hne he
    generalize hhs : w'.handles = hs' at hst
    generalize hc : q.call = c at hst
    cases hst with
    | idle _ => exact hc ▸ hsame
    | rejected | opened _ _ _ _ | closed _ _ | through _ _ _ _ | deletedNull | deleted _ =>
      exact absurd rfl hne

end

/-! ### Runs -/

/-- A state of the VFS stands for a store. -/
def StandsFor (w : World) (st : FileStore) : Prop :=
  ∃ l g, Represents w l g ∧ st = storeOf l w.handles

/-- The store answers every ordinary call of the VFS the same way. -/
theorem simulation :
    Machine.Simulation vfsMachine FileStore.machine Ordinary Request.call StandsFor where
  init := by
    intro w hi
    refine ⟨storeOf [] w.handles, ?_, [], nothingAsked, ?_, rfl⟩
    · change FileStore.mk _ _ = _
      rw [hi.1]
      rfl
    · have hheld : Held [] w.handles := by
        rw [hi.1]
        constructor <;> simp
      refine ⟨⟨init_spec hi, hheld, by constructor <;> simp⟩, by simp, by simp, ?_⟩
      rw [hi.1]
      simp
  step := by
    rintro w _ q r w' ⟨l, g, hr, rfl⟩ hq he
    obtain ⟨l', g', hst, hr'⟩ := step_refines hr hq he
    exact ⟨_, hst, l', g', hr', rfl⟩

/-- Every state of a run ends a run with answers. -/
theorem reach_run {ok : World → Request → Prop} {w : World} (hr : system.Reach ok w) :
    ∃ tr, vfsMachine.Run ok tr w := by
  induction hr with
  | start hi => exact ⟨[], .start hi⟩
  | next _ ho hst ih =>
    obtain ⟨tr, hrun⟩ := ih
    obtain ⟨r, he⟩ := hst
    exact ⟨_, .next hrun ho he⟩

/-- Creating a file, writing ten bytes to it and deleting its name are ordinary calls while few
handles are open. -/
theorem ordinary_create {w : World} (hw : w.handles.length ≤ 3) :
    ∀ q ∈ [createA, writeTen, ⟨.xDelete (some nameA), []⟩], Ordinary w q := by
  intro q hq
  rcases List.mem_cons.mp hq with rfl | hq
  · constructor
    · rintro _ _ _ ⟨⟩
      decide
    · intro _ _ _ _
      omega
    · rintro _ _ _ ⟨⟩
    · rintro _ _ _ _ _ ⟨⟩
  rcases List.mem_cons.mp hq with rfl | hq
  · constructor
    · rintro _ _ _ ⟨⟩
    · rintro _ _ _ ⟨⟩
    · rintro _ _ _ ⟨⟩
    · rintro _ _ _ _ _ ⟨⟩ _ _ _ _
      left
      decide
  · obtain rfl := List.mem_singleton.mp hq
    constructor
    · rintro _ _ _ ⟨⟩
    · rintro _ _ _ ⟨⟩
    · rintro _ _ _ ⟨⟩
    · rintro _ _ _ _ _ ⟨⟩

/-- A run in which the file `a` is created, written and deleted while handle 0 is open. -/
theorem exists_created : ∃ w, system.Reach Ordinary w ∧
    (w.handle? 0).any (fun file ↦ (cFileSize w.mem file).toOption == some (.ok, 10)) = true := by
  obtain ⟨x, hr, hp⟩ := exists_of_checks_few (fun _ _ _ _ ↦ ()) () (fun x q ↦ Ordinary x.1 q)
    [filled 100 0] [createA, writeTen, ⟨.xDelete (some nameA), []⟩]
    (fun x ↦ (x.1.handle? 0).any fun file ↦
      (cFileSize x.1.mem file).toOption == some (.ok, 10))
    (by decide +kernel) fun q hq z hz ↦ ordinary_create hz q hq
  exact ⟨x.1, hr.forget, hp⟩

/-- In every run of ordinary calls the answers are those a store of named files gives, and the
files listed at the end are the files of that store. -/
theorem run_store {tr : List (Request × Reply)} {w : World} (hr : vfsMachine.Run Ordinary tr w) :
    ∃ st, FileStore.machine.Run (fun _ _ ↦ True) (tr.map (Prod.map Request.call id)) st ∧
      ∃ l, Rep w.list w.mem.heap l [] ∧ st = storeOf l w.handles := by
  obtain ⟨st, hrun, l, g, hrep, rfl⟩ := simulation.run hr
  exact ⟨_, hrun, l, hrep.sound.rep, rfl⟩

/-- The result on the run of `exists_created`. -/
theorem run_store_created : ∃ (w : World) (tr : List (Request × Reply)) (st : FileStore),
    (w.handle? 0).isSome = true ∧
    FileStore.machine.Run (fun _ _ ↦ True) (tr.map (Prod.map Request.call id)) st ∧
      ∃ l, Rep w.list w.mem.heap l [] ∧ st = storeOf l w.handles := by
  obtain ⟨w, hr, hp⟩ := exists_created
  obtain ⟨file, hf, _⟩ := (Option.any_eq_true _ _).mp hp
  obtain ⟨tr, hrun⟩ := reach_run hr
  obtain ⟨st, hst⟩ := run_store hrun
  exact ⟨w, tr, st, by rw [hf]; rfl, hst⟩

/-- Every state of a run of ordinary calls holds short-named files covered by their buffers. -/
theorem reach_represents {w : World} (hr : system.Reach Ordinary w) :
    ∃ l g, Represents w l g := by
  obtain ⟨tr, hrun⟩ := reach_run hr
  obtain ⟨_, _, l, g, hrep, _⟩ := simulation.run hrun
  exact ⟨l, g, hrep⟩

section Faults

variable {w : World} {l : List FileView} {g : Log} {q : Request} {f : Fault}

/-- A named call that does not return is a read or a write through an open handle. -/
theorem fault_access (hr : Represents w l g) (hn : q.call.Named) (he : w.step q = .error f) :
    (∃ h n o, q.call = .xRead h n o) ∨ ∃ h src n o, q.call = .xWrite h src n o := by
  have hrep : Rep w.list (w.begin q.answers).heap l [] := hr.sound.rep
  obtain ⟨c, answers⟩ := q
  cases c with
  | xRead h n o => exact .inl ⟨h, n, o, rfl⟩
  | xWrite h src n o => exact .inr ⟨h, src, n, o, rfl⟩
  | xOpen h zName flags =>
    obtain ⟨z, rfl⟩ := Option.ne_none_iff_exists'.mp hn
    simp only [World.step] at he
    split at he
    · cases he
    · obtain ⟨rc, file, out, m', ho, _⟩ := cOpen_spec hrep z ⟨false, none, 0⟩ flags
      rw [ho, ok_bind] at he
      split at he <;> cases he
  | xClose h =>
    rcases through_listed hr he with ⟨_, hx⟩ | ⟨file, l₁, v, l₂, _, rfl, ha, _, _, he⟩
    · cases hx
    · obtain ⟨m', l', hx, _⟩ := fsClose_spec hrep
      rw [ha] at hx
      simp only [cClose, hx, ok_bind] at he
      cases he
  | xTruncate h size =>
    rcases through_listed hr he with ⟨_, hx⟩ | ⟨file, l₁, v, l₂, _, rfl, ha, _, _, he⟩
    · cases hx
    · obtain ⟨m', hx, _⟩ := fsTruncate_spec hrep size
      rw [ha] at hx
      simp only [cTruncate, hx, ok_bind, ↓reduceIte] at he
      cases he
  | xFileSize h =>
    rcases through_listed hr he with ⟨_, hx⟩ | ⟨file, l₁, v, l₂, _, rfl, ha, _, _, he⟩
    · cases hx
    · obtain ⟨nx, hx, _⟩ := counters_spec hrep
      rw [ha] at hx
      simp only [cFileSize, hx, ok_bind] at he
      cases he
  | xFileControl h op arg =>
    rcases through_listed hr he with ⟨_, hx⟩ | ⟨file, l₁, v, l₂, _, rfl, ha, _, _, he⟩
    · cases hx
    · obtain ⟨grown, m', u, hx, _⟩ := fsSizeHint_spec hrep arg.toInt64
      rw [ha] at hx
      simp only [cFileControl, hx, ok_bind] at he
      split at he
      · split at he <;> cases he
      · cases he
  | xDelete zName =>
    obtain ⟨z, rfl⟩ := Option.ne_none_iff_exists'.mp hn
    obtain ⟨m', l', hx, _⟩ := fsDelete_spec hrep z
    simp only [World.step, cDelete, hx, ok_bind, ↓reduceIte] at he
    cases he
  | xAccess zName =>
    obtain ⟨z, rfl⟩ := Option.ne_none_iff_exists'.mp hn
    simp only [World.step, cAccess, fsExists_spec hrep, ok_bind] at he
    cases he

/-- Past the end of a file, the count is neither nothing nor the error value when what is left of
the distance is not, or when the end of the read wraps. -/
theorem readCount_astray_iff {len o : Int64} {n : Int32} (h0 : 0 ≤ len.toInt) (hn : 0 ≤ n.toInt)
    (hlt : len.toInt < o.toInt) :
    0 < (readCount len o n).toInt ∨ (readCount len o n).toInt < -1 ↔
      if o.toInt + n.toInt < 2 ^ 63 then
        0 < (len.toInt - o.toInt).bmod (2 ^ 32) ∨ (len.toInt - o.toInt).bmod (2 ^ 32) < -1
      else 0 < n.toInt := by
  split
  · next hend => rw [readCount_past h0 hn hlt hend]
  · next hend =>
    rw [readCount_wraps h0 hn (by omega)]
    omega

/-- What a read of an entry stores. -/
theorem Entry.read_stores {e : Entry} {n : Int32} {o len : Int64}
    (hlen : Int64.ofNat e.bytes.length = len) (j : Int) : (e.read n o).2 j =
      if (o < 0 ∨ n < 0) ∨ readCount len o n = -1 then none
      else if 0 ≤ j ∧ j < (readCount len o n).toInt then
        some (e.bytes.getD (o.toInt + j).toNat 0)
      else if (readCount len o n).toInt ≤ j ∧ j < n.toInt then some 0 else none := by
  subst hlen
  unfold Entry.read
  dsimp only
  split <;> rfl

/-- A read of a covered file faults or stores outside the caller's buffer exactly when it starts
past the end and its count is neither nothing nor the error value. -/
theorem cRead_oversteps_iff {l₁ l₂ : List FileView} {m : FsMem} {list : Addr} {v : FileView}
    {file : CFile} {n : Int32} {o : Int64} (hr : Rep list m.heap (l₁ ++ v :: l₂) [])
    (hcov : v.Covered) (ha : v.addr = file.fd) :
    ((∃ f, cRead m file n o = .error f) ∨ ∃ rc t, cRead m file n o = .ok (rc, t) ∧
        ∃ j, (j < 0 ∨ n.toInt ≤ j) ∧ t j ≠ none) ↔
      0 ≤ n.toInt ∧ v.len.toInt < o.toInt ∧
        (0 < (readCount v.len o n).toInt ∨ (readCount v.len o n).toInt < -1) := by
  have hstores := Entry.read_stores (n := n) (o := o) (entryOf_length hcov)
  have hminus : (-1 : Int32).toInt = -1 := rfl
  constructor
  · rintro (⟨f, he⟩ | ⟨rc, t, he, j, hout, hj⟩)
    · have hpast : ¬ (¬ (o < 0 ∨ n < 0) →
          o.toInt ≤ v.len.toInt ∨ (readCount v.len o n).toInt ≤ 0) := by
        intro hin
        rw [cRead_entry hr hcov ha hin] at he
        cases he
      obtain ⟨hneg, hbad⟩ := Classical.not_imp.mp hpast
      obtain ⟨hlt, hcount⟩ := not_or.mp hbad
      exact ⟨(not_rejected_iff.mp hneg).2, by omega, .inl (by omega)⟩
    · have hread := hstores j
      rw [cRead_returned hr hcov ha he] at hread
      dsimp only at hread
      split at hread
      · exact absurd hread hj
      · next hmade =>
        obtain ⟨hneg, hne⟩ := not_or.mp hmade
        obtain ⟨ho, hn⟩ := not_rejected_iff.mp hneg
        have hne : (readCount v.len o n).toInt ≠ -1 := fun h ↦ hne (Int32.toInt_inj.mp h)
        have hlt : v.len.toInt < o.toInt := by
          by_contra hin
          have hsize := v.data.size_lt
          have hend := hcov.2
          have hcount := readCount_inside ho hn (not_lt.mp hin) (by omega)
          rw [if_neg (by omega), if_neg (by omega)] at hread
          exact hj hread
        refine ⟨hn, hlt, ?_⟩
        by_contra hcount
        rw [if_neg (by omega), if_neg (by omega)] at hread
        exact hj hread
  · rintro ⟨hn, hlt, hpos | hbelow⟩
    · exact .inl ⟨_, cRead_past hr hcov ha hn hlt hpos⟩
    · -- The first of the zeros lies before the buffer.
      have h0 := hcov.1
      have hread := cRead_entry (n := n) (o := o) hr hcov ha fun _ ↦ .inr (by omega)
      have hzero := hstores (readCount v.len o n).toInt
      have hneg : ¬ (o < 0 ∨ n < 0) := not_rejected_iff.mpr ⟨by omega, hn⟩
      have hne : readCount v.len o n ≠ -1 := fun h ↦ by rw [h] at hbelow; omega
      rw [if_neg (not_or.mpr ⟨hneg, hne⟩), if_neg (by omega), if_pos (by omega)] at hzero
      refine .inr ⟨((entryOf v).read n o).1, ((entryOf v).read n o).2, hread,
        (readCount v.len o n).toInt, .inl (by omega), ?_⟩
      rw [hzero]
      exact Option.some_ne_none 0

/-- An ordinary write returns. -/
private theorem write_returns {h : Nat} {src : Nat → UInt8} {n : Int32} {o : Int64}
    (hr : Represents w l g) (hq : Ordinary w q) (hc : q.call = .xWrite h src n o) :
    w.step q ≠ .error f := by
  intro he
  have hn : q.call.Named := by
    rw [hc]
    trivial
  have hout := step_fault hr.sound hr.held hn he
  subst hout
  obtain ⟨c, answers⟩ := q
  cases hc
  have hmade := he
  rcases through_listed hr hmade with ⟨_, hx⟩ | ⟨file, l₁, v, l₂, hf, rfl, ha, _, _, hw⟩
  · cases hx
  have hlink : Linked w file.fd := (linked_iff hr.sound.rep).mpr ⟨l₁, v, l₂, rfl, ha⟩
  by_cases hneg : o < 0 ∨ n < 0
  · simp only [cWrite, fsWrite, if_pos hneg, ok_bind] at hw
    split at hw <;> cases hw
  · obtain ⟨ho, hnn⟩ := not_rejected_iff.mp hneg
    have hend := hq.endsInInt h src n o file rfl hf hlink ho hnn
    exact absurd he (write_inside hr.sound.rep hf ha ho hnn hend).2

/-- In every state of a run of ordinary calls, an ordinary named call faults or stores outside the
caller's buffer exactly when it is a read that goes astray past the end of its file. -/
theorem step_oversteps_iff (hr : system.Reach Ordinary w) (hq : Ordinary w q)
    (hn : q.call.Named) : Oversteps w q ↔ ReadsAstray w q := by
  obtain ⟨l, g, hrep⟩ := reach_represents hr
  by_cases hread : ∃ h n o, q.call = .xRead h n o
  · obtain ⟨h, n, o, hc⟩ := hread
    obtain ⟨c, answers⟩ := q
    cases hc
    cases hf : w.handle? h with
    | none =>
      simp [Oversteps, ReadsAstray, World.step, World.through, hf]
    | some file =>
      obtain ⟨l₁, v, l₂, rfl, ha, _⟩ := hrep.handle hf
      have hcov := hrep.covered v (by simp)
      have hsize {s : Int64} : HasSize w file s ↔ s = v.len := hasSize_iff hrep.sound.rep ha
      have hmem : Rep w.list (w.begin answers).heap (l₁ ++ v :: l₂) [] := hrep.sound.rep
      have hstep : Oversteps w ⟨.xRead h n o, answers⟩ ↔
          (∃ f, cRead (w.begin answers) file n o = .error f) ∨
            ∃ rc t, cRead (w.begin answers) file n o = .ok (rc, t) ∧
              ∃ j, (j < 0 ∨ n.toInt ≤ j) ∧ t j ≠ none := by
        simp only [Oversteps, World.step, World.through, hf]
        constructor
        · rintro (⟨f, he⟩ | ⟨_, _, _, rc, t, w', ⟨⟩, he, hj⟩)
          · rcases bind_error he with he | ⟨_, _, he⟩
            · exact .inl ⟨f, he⟩
            · cases he
          · obtain ⟨⟨rc', t'⟩, he', hret⟩ := bind_ok he
            cases hret
            exact .inr ⟨_, _, he', hj⟩
        · rintro (⟨f, he⟩ | ⟨rc, t, he, hj⟩)
          · exact .inl ⟨f, by rw [he]; rfl⟩
          · exact .inr ⟨h, n, o, rc, t, _, rfl, by rw [he]; rfl, hj⟩
      rw [hstep, cRead_oversteps_iff hmem hcov ha]
      constructor
      · rintro ⟨hn, hlt, hcount⟩
        exact ⟨h, n, o, file, v.len, rfl, hf, hsize.mpr rfl, hn, hlt,
          (readCount_astray_iff hcov.1 hn hlt).mp hcount⟩
      · rintro ⟨_, _, _, file', s, ⟨⟩, hf', hs, hn, hlt, hcount⟩
        rw [hf] at hf'
        cases hf'
        obtain rfl := hsize.mp hs
        exact ⟨hn, hlt, (readCount_astray_iff hcov.1 hn hlt).mpr hcount⟩
  · constructor
    · rintro (⟨f, he⟩ | ⟨h, n, o, _, _, _, hc, _⟩)
      · rcases fault_access hrep hn he with hc | ⟨h, src, n, o, hc⟩
        · exact absurd hc hread
        · exact absurd he (write_returns hrep hq hc)
      · exact absurd ⟨h, n, o, hc⟩ hread
    · rintro ⟨h, n, o, _, _, hc, _⟩
      exact absurd ⟨h, n, o, hc⟩ hread

/-- Of the file of ten bytes on handle 0, a byte read at offset 10 stays in the caller's buffer,
and one read at offset 12 does not. -/
theorem step_oversteps_iff_created : ∃ w : World, (w.handle? 0).isSome = true ∧
    ¬ Oversteps w ⟨.xRead 0 1 10, []⟩ ∧ Oversteps w ⟨.xRead 0 1 12, []⟩ := by
  obtain ⟨w, hr, hp⟩ := exists_created
  obtain ⟨file, hf, hten⟩ := (Option.any_eq_true _ _).mp hp
  have hsize : HasSize w file 10 := by
    unfold HasSize
    cases he : cFileSize w.mem file with
    | error f =>
      rw [he] at hten
      cases hten
    | ok p =>
      rw [he] at hten
      exact congrArg Except.ok (Option.some.inj (eq_of_beq hten))
  have hq (o : Int64) : Ordinary w ⟨.xRead 0 1 o, []⟩ := by
    constructor
    · rintro _ _ _ ⟨⟩
    · rintro _ _ _ ⟨⟩
    · rintro _ _ _ ⟨⟩
    · rintro _ _ _ _ _ ⟨⟩
  refine ⟨w, by rw [hf]; rfl, fun h ↦ ?_, (step_oversteps_iff hr (hq 12) trivial).mpr ?_⟩
  · obtain ⟨_, _, _, file', s, ⟨⟩, hf', hs, _, hlt, _⟩ :=
      (step_oversteps_iff hr (hq 10) trivial).mp h
    rw [hf] at hf'
    cases hf'
    unfold HasSize at hsize hs
    rw [hsize] at hs
    cases hs
    exact absurd hlt (by decide)
  · exact ⟨0, 1, 12, file, 10, rfl, hf, hsize, by decide, by decide, by decide⟩

end Faults

end SqliteComposite.Vfs

import SqliteComposite.Vfs.Coverage

/-!
# Operations on different files

An operation through a handle changes the file of the handle and no other. What it does there
depends on that file alone, where the allocator grants its requests with memory of one fixed
byte, so that operations on different files can be made in either order.
-/

namespace SqliteComposite.Vfs

open Base Inmemfs

/-- The operations on an open file. -/
inductive OnFile (h : Nat) : Call → Prop
  | close : OnFile h (.xClose h)
  | read {n : Int32} {o : Int64} : OnFile h (.xRead h n o)
  | write {src : Nat → UInt8} {n : Int32} {o : Int64} : OnFile h (.xWrite h src n o)
  | truncate {size : Int64} : OnFile h (.xTruncate h size)
  | fileSize : OnFile h (.xFileSize h)
  | sizeHint {arg : Int32} : OnFile h (.xFileControl h sqliteFcntlSizeHint arg)

/-- Every request for memory during the call is granted, with memory filled with `b`. -/
def Granted (b : UInt8) (w : World) (q : Request) : Prop :=
  (∀ g, some g ∈ q.answers → g.fill = fun _ ↦ b) ∧ ∀ h file, w.handle? h = some file →
    (∀ src n o, q.call = .xWrite h src n o → 0 ≤ o.toInt → 0 ≤ n.toInt →
      ¬ Refuses (w.begin q.answers) file.fd (o + n.toInt64)) ∧
    ∀ arg, q.call = .xFileControl h sqliteFcntlSizeHint arg →
      ¬ Refuses (w.begin q.answers) file.fd arg.toInt64

/-- The operation through the handle on a file of the list, with every request granted,
returns from `w`. -/
structure Performs (b : UInt8) (w : World) (h : Nat) (file : CFile) (q : Request) (r : Reply)
    (w' : World) : Prop where
  handle : w.handle? h = some file
  linked : Linked w file.fd
  onFile : OnFile h q.call
  granted : Granted b w q
  step : w.step q = .ok (r, w')

/-- The files but the one at `a`, in the order of the list. -/
def others (a : Addr) (l : List FileView) : List FileView := l.filter fun v ↦ v.addr ≠ a

/-- Every file but the one at `a` is as it was, and they are in the same order. -/
def Isolated (w w' : World) (a : Addr) : Prop :=
  ∃ l l', Rep w.list w.mem.heap l [] ∧ Rep w'.list w'.mem.heap l' [] ∧ others a l' = others a l

/-- The file but for the place of its buffer. -/
def unplaced (v : FileView) : FileView := v.buffered 0 v.data

/-- The two states hold the same files and handles, but for the places of the buffers. -/
def SameState (w w' : World) : Prop :=
  w'.list = w.list ∧ w'.handles = w.handles ∧ ∃ l l', Rep w.list w.mem.heap l [] ∧
    Rep w'.list w'.mem.heap l' [] ∧ l'.map unplaced = l.map unplaced

/-- The open handles after a call on an open file. -/
def handlesAfter (hs : List (Nat × CFile)) : Call → List (Nat × CFile)
  | .xClose h => hs.filter fun p ↦ p.1 ≠ h
  | _ => hs

/-- What a call on an open file that returns leaves of the file, if anything. -/
def outcome (b : UInt8) (v : FileView) : Call → Option FileView
  | .xClose _ => if v.ref - 1 = 0 ∧ v.deleteOnClose ≠ 0 then none else some v.closed
  | .xWrite _ src n o =>
    if o < 0 ∨ n < 0 then some v
    else some ((v.buffered v.buf (grownTo v.data (o + n.toInt64) b)).written o.toInt.toNat
      n.toInt.toNat src (o + n.toInt64))
  | .xTruncate _ size => some (v.resized (if size < v.len then size else v.len))
  | .xFileControl _ _ arg => some (v.buffered v.buf (grownTo v.data arg.toInt64 b))
  | _ => some v

/-- The call has taken `w` to `w'` by turning the file `v` into `u`. -/
structure Acts (b : UInt8) (c : Call) (l₁ : List FileView) (v : FileView) (l₂ : List FileView)
    (w w' : World) (u : Option FileView) : Prop where
  sound : Sound w' (l₁ ++ (u.toList ++ l₂))
  list : w'.list = w.list
  handles : w'.handles = handlesAfter w.handles c
  addr : ∀ x ∈ u, x.addr = v.addr
  outcome : u.map unplaced = (outcome b v c).map unplaced

section

variable {w w' w₁ w₂ : World} {l l' l₁ l₂ l₃ l₄ : List FileView} {u v : FileView} {h : Nat}
  {file : CFile} {c : Call} {r : Reply} {answers answers' : List (Option Grant)} {b : UInt8}

/-! ### What an operation does -/

/-- A call that only changes the memory acts on the file that is replaced. -/
private theorem acts_withMem (hs : Sound w (l₁ ++ v :: l₂)) {m' : FsMem}
    (hr : Rep w.list m'.heap (l₁ ++ u :: l₂) []) (hh : handlesAfter w.handles c = w.handles)
    (ha : u.addr = v.addr) (ho : (some u).map unplaced = (outcome b v c).map unplaced) :
    Acts b c l₁ v l₂ w { w with mem := m' } (some u) where
  sound := hs.withMem hr
  list := rfl
  handles := hh.symm
  addr x hx := by
    obtain rfl := Option.mem_some.mp hx
    exact ha
  outcome := ho

/-- The bytes of a write fit in the buffer that is made for them. -/
private def Fits (b : UInt8) (v : FileView) (n : Int32) (o : Int64) : Prop :=
  n.toInt = 0 ∨ o.toInt + n.toInt ≤ (grownTo v.data (o + n.toInt64) b).size

/-- A write of no negative range is granted, and stores its bytes where they fit. -/
private theorem write_granted {src : Nat → UInt8} {n : Int32} {o : Int64}
    (hs : Sound w (l₁ ++ v :: l₂)) (hf : w.handle? h = some file) (ha : v.addr = file.fd)
    (hg : Granted b w ⟨.xWrite h src n o, answers⟩) (hneg : ¬ (o < 0 ∨ n < 0)) :
    (Fits b v n o ∧ ∃ w' u, w.step ⟨.xWrite h src n o, answers⟩ = .ok (.status .ok, w') ∧
      Acts b (.xWrite h src n o) l₁ v l₂ w w' u) ∨
    (¬ Fits b v n o ∧ w.step ⟨.xWrite h src n o, answers⟩ = .error .outOfBounds) := by
  obtain ⟨ho, hn⟩ := not_rejected_iff.mp hneg
  have hr : Rep w.list (w.begin answers).heap (l₁ ++ v :: l₂) [] := hs.rep
  obtain ⟨m₁, a, he, hr₁⟩ := fsDataEnsureCapacity_filled hr hg.1
    (ha ▸ (hg.2 h file hf).1 src n o rfl ho hn)
  have hwrite := fsWrite_granted (u := v.buffered a (grownTo v.data (o + n.toInt64) b)) src ho hn
    he hr₁
  change (∃ m', fsWrite (w.begin answers) v.addr o n src = _ ∧ Fits b v n o ∧ _) ∨
    fsWrite (w.begin answers) v.addr o n src = _ ∧ _ ∧
      ((grownTo v.data (o + n.toInt64) b).size : Int) < _ at hwrite
  rw [step_write hf, cWrite, ← ha]
  rcases hwrite with ⟨m', hw, hfit, hr'⟩ | ⟨hw, hpos, hlt⟩
  · left
    refine ⟨hfit, { w with mem := m' }, _, by rw [hw]; simp only [ok_bind, ↓reduceIte],
      acts_withMem hs hr' rfl rfl ?_⟩
    rw [outcome, if_neg hneg]
    rfl
  · right
    refine ⟨fun hfit ↦ ?_, by rw [hw, error_bind, error_bind]⟩
    unfold Fits at hfit
    omega

/-- Closing a handle on a file returns. -/
private theorem close_acts (b : UInt8) (answers : List (Option Grant))
    (hs : Sound w (l₁ ++ v :: l₂)) (hf : w.handle? h = some file) (ha : v.addr = file.fd) :
    ∃ w' u, w.step ⟨.xClose h, answers⟩ = .ok (.status .ok, w') ∧
      Acts b (.xClose h) l₁ v l₂ w w' u := by
  have hr : Rep w.list (w.begin answers).heap (l₁ ++ v :: l₂) [] := hs.rep
  have hn := hr.nodup_addr
  obtain ⟨m', l', hc, hto, hr'⟩ := fsClose_spec hr
  have hstep : w.step ⟨.xClose h, answers⟩ = .ok (.status .ok,
      { w with mem := m', handles := w.handles.filter fun p ↦ p.1 ≠ h }) := by
    simp only [World.step, World.through, hf, cClose, ← ha, hc, ok_bind]
  have hsound : Sound { w with mem := m', handles := w.handles.filter fun p ↦ p.1 ≠ h } l' :=
    ⟨hr', fun p hp ↦ hs.apart p (List.mem_filter.mp hp).1⟩
  cases hto with
  | kept hl hx hlast =>
    obtain ⟨rfl, rfl, rfl⟩ := split_eq hn hl hx
    refine ⟨_, some _, hstep, hsound, rfl, rfl, ?_, ?_⟩
    · rintro x hx
      obtain rfl := Option.mem_some.mp hx
      rfl
    · rw [outcome, if_neg hlast]
  | removed hl hx hlast hdel =>
    obtain ⟨rfl, rfl, rfl⟩ := split_eq hn hl hx
    refine ⟨_, none, hstep, hsound, rfl, rfl, ?_, ?_⟩
    · rintro x ⟨⟩
    · rw [outcome, if_pos ⟨hlast, hdel⟩]

/-- Truncating a file returns. -/
private theorem truncate_acts (b : UInt8) (size : Int64) (answers : List (Option Grant))
    (hs : Sound w (l₁ ++ v :: l₂)) (hf : w.handle? h = some file) (ha : v.addr = file.fd) :
    ∃ w' u, w.step ⟨.xTruncate h size, answers⟩ = .ok (.status .ok, w') ∧
      Acts b (.xTruncate h size) l₁ v l₂ w w' u := by
  have hr : Rep w.list (w.begin answers).heap (l₁ ++ v :: l₂) [] := hs.rep
  obtain ⟨m', ht, hr'⟩ := fsTruncate_spec hr size
  refine ⟨{ w with mem := m' }, _, ?_, acts_withMem hs hr' rfl rfl rfl⟩
  simp only [World.step, World.through, hf, cTruncate, ← ha, ht, ok_bind, ↓reduceIte]

/-- A size hint returns. -/
private theorem sizeHint_acts {arg : Int32} (hs : Sound w (l₁ ++ v :: l₂))
    (hf : w.handle? h = some file) (ha : v.addr = file.fd)
    (hg : Granted b w ⟨.xFileControl h sqliteFcntlSizeHint arg, answers⟩) :
    ∃ w' u, w.step ⟨.xFileControl h sqliteFcntlSizeHint arg, answers⟩ = .ok (.status .ok, w') ∧
      Acts b (.xFileControl h sqliteFcntlSizeHint arg) l₁ v l₂ w w' u := by
  have hr : Rep w.list (w.begin answers).heap (l₁ ++ v :: l₂) [] := hs.rep
  obtain ⟨m', a, he, hr'⟩ := fsDataEnsureCapacity_filled hr hg.1
    (ha ▸ (hg.2 h file hf).2 arg rfl)
  rw [ha] at he
  refine ⟨{ w with mem := m' }, _, ?_, acts_withMem hs hr' rfl rfl rfl⟩
  simp only [World.step, World.through, hf, cFileControl, ↓reduceIte, if_pos (hs.handle hf).1,
    fsSizeHint, he, ok_bind]

/-- A write of a negative range is rejected. -/
private theorem write_rejected {src : Nat → UInt8} {n : Int32} {o : Int64} (b : UInt8)
    (answers : List (Option Grant)) (hs : Sound w (l₁ ++ v :: l₂))
    (hf : w.handle? h = some file) (hneg : o < 0 ∨ n < 0) :
    ∃ w' u, w.step ⟨.xWrite h src n o, answers⟩ =
        .ok (.status (if -1 = n then .ok else .ioerrWrite), w') ∧
      Acts b (.xWrite h src n o) l₁ v l₂ w w' u := by
  refine ⟨{ w with mem := w.begin answers }, some v, ?_, acts_withMem hs hs.rep rfl rfl ?_⟩
  · rw [step_write hf, cWrite, fsWrite, if_pos hneg]
    simp only [ok_bind]
    split <;> rfl
  · rw [outcome, if_pos hneg]

/-- A call that leaves the state alone acts on any file. -/
private theorem acts_idle (hs : Sound w (l₁ ++ v :: l₂))
    (hh : handlesAfter w.handles c = w.handles)
    (ho : (some v).map unplaced = (outcome b v c).map unplaced) :
    Acts b c l₁ v l₂ w w (some v) :=
  acts_withMem hs hs.rep hh rfl ho

/-- An operation that returns acts on the file of its handle. -/
theorem acts_of_step (hs : Sound w (l₁ ++ v :: l₂)) (hf : w.handle? h = some file)
    (ha : v.addr = file.fd) (ho : OnFile h c) (hg : Granted b w ⟨c, answers⟩)
    (he : w.step ⟨c, answers⟩ = .ok (r, w')) : ∃ u, Acts b c l₁ v l₂ w w' u := by
  have hsame {r' : Reply} (h : ∃ w₁ u, w.step ⟨c, answers⟩ = .ok (r', w₁) ∧
      Acts b c l₁ v l₂ w w₁ u) : ∃ u, Acts b c l₁ v l₂ w w' u := by
    obtain ⟨w₁, u, h₁, hu⟩ := h
    rw [h₁] at he
    cases he
    exact ⟨u, hu⟩
  cases ho with
  | close => exact hsame (close_acts b answers hs hf ha)
  | @truncate size => exact hsame (truncate_acts b size answers hs hf ha)
  | sizeHint => exact hsame (sizeHint_acts hs hf ha hg)
  | @write src n o =>
    by_cases hneg : o < 0 ∨ n < 0
    · exact hsame (write_rejected b answers hs hf hneg)
    · rcases write_granted hs hf ha hg hneg with ⟨_, hw⟩ | ⟨_, hw⟩
      · exact hsame hw
      · rw [hw] at he
        cases he
  | read =>
    simp only [World.step, World.through, hf] at he
    obtain ⟨_, _, he⟩ := bind_ok he
    cases he
    exact ⟨_, acts_idle hs rfl rfl⟩
  | fileSize =>
    simp only [World.step, World.through, hf] at he
    obtain ⟨_, _, he⟩ := bind_ok he
    cases he
    exact ⟨_, acts_idle hs rfl rfl⟩

/-- What an operation returns in one state it returns in every state with the same file. -/
theorem step_alike (hs : Sound w (l₁ ++ v :: l₂)) (hs' : Sound w' (l₃ ++ v :: l₄))
    (hf : w.handle? h = some file) (hf' : w'.handle? h = some file) (ha : v.addr = file.fd)
    (ho : OnFile h c) (hg : Granted b w ⟨c, answers⟩) (hg' : Granted b w' ⟨c, answers'⟩)
    (he : w.step ⟨c, answers⟩ = .ok (r, w₁)) : ∃ w₂, w'.step ⟨c, answers'⟩ = .ok (r, w₂) := by
  have hsame {r' : Reply} (h : ∃ w₁ u, w.step ⟨c, answers⟩ = .ok (r', w₁) ∧
        Acts b c l₁ v l₂ w w₁ u)
      (h' : ∃ w₂ u, w'.step ⟨c, answers'⟩ = .ok (r', w₂) ∧ Acts b c l₃ v l₄ w' w₂ u) :
      ∃ w₂, w'.step ⟨c, answers'⟩ = .ok (r, w₂) := by
    obtain ⟨_, _, h₁, _⟩ := h
    obtain ⟨w₂, _, h₂, _⟩ := h'
    rw [h₁] at he
    cases he
    exact ⟨w₂, h₂⟩
  have hr : Rep w.list (w.begin answers).heap (l₁ ++ v :: l₂) [] := hs.rep
  have hr' : Rep w'.list (w'.begin answers').heap (l₃ ++ v :: l₄) [] := hs'.rep
  cases ho with
  | close => exact hsame (close_acts b _ hs hf ha) (close_acts b _ hs' hf' ha)
  | truncate => exact hsame (truncate_acts b _ _ hs hf ha) (truncate_acts b _ _ hs' hf' ha)
  | sizeHint => exact hsame (sizeHint_acts hs hf ha hg) (sizeHint_acts hs' hf' ha hg')
  | @write src n o =>
    by_cases hneg : o < 0 ∨ n < 0
    · exact hsame (write_rejected b _ hs hf hneg) (write_rejected b _ hs' hf' hneg)
    · rcases write_granted hs hf ha hg hneg with ⟨hfit, hw⟩ | ⟨_, hw⟩
      · rcases write_granted hs' hf' ha hg' hneg with ⟨_, hw'⟩ | ⟨hnot, _⟩
        · exact hsame hw hw'
        · exact absurd hfit hnot
      · rw [hw] at he
        cases he
  | @read n o =>
    have hread := fsRead_recounted hr hr' (.refl v) o n
    simp only [World.step, World.through, hf] at he
    simp only [World.step, World.through, hf']
    obtain ⟨x, hx, he⟩ := bind_ok he
    have hx' : cRead (w'.begin answers') file n o = .ok x := by
      rw [cRead, ← ha] at hx ⊢
      rwa [hread]
    cases he
    exact ⟨w', by rw [hx', ok_bind]⟩
  | fileSize =>
    obtain ⟨nx, hl, _⟩ := counters_spec hr
    obtain ⟨nx', hl', _⟩ := counters_spec hr'
    simp only [World.step, World.through, hf, cFileSize, ← ha, hl, ok_bind] at he
    simp only [World.step, World.through, hf', cFileSize, ← ha, hl', ok_bind]
    cases he
    exact ⟨w', rfl⟩

/-! ### Two operations -/

/-- The other files stay as they are. -/
theorem Acts.isolated (hs : Sound w (l₁ ++ v :: l₂)) {x : Option FileView}
    (hact : Acts b c l₁ v l₂ w w' x) : Isolated w w' v.addr := by
  refine ⟨_, _, hs.rep, hact.sound.rep, ?_⟩
  have hx : others v.addr x.toList = [] := by
    apply List.filter_eq_nil_iff.mpr
    intro y hy
    simpa using hact.addr y (Option.mem_toList.mp hy)
  have hv : others v.addr (v :: l₂) = others v.addr l₂ :=
    List.filter_cons_of_neg (by simp)
  unfold others at hx hv ⊢
  rw [List.filter_append, List.filter_append, List.filter_append, hx, hv, List.nil_append]

/-- Another handle stays open on its file. -/
private theorem handle_after (ho : OnFile h c) {k : Nat} (hk : k ≠ h)
    (hh : w'.handles = handlesAfter w.handles c) : w'.handle? k = w.handle? k := by
  unfold World.handle?
  rw [hh]
  cases ho with
  | close => rw [handlesAfter, lookup_filter_ne, if_neg hk]
  | read | write | truncate | fileSize | sizeHint => rfl

/-- The order in which handles are closed does not matter. -/
private theorem handlesAfter_comm {k : Nat} {d : Call} (hc : OnFile h c) (hd : OnFile k d)
    (hs : List (Nat × CFile)) :
    handlesAfter (handlesAfter hs c) d = handlesAfter (handlesAfter hs d) c := by
  cases hc with
  | close =>
    cases hd with
    | close =>
      simp only [handlesAfter, List.filter_filter]
      apply List.filter_congr
      intro p _
      exact Bool.and_comm _ _
    | read | write | truncate | fileSize | sizeHint => rfl
  | read | write | truncate | fileSize | sizeHint => rfl

/-- States that are the same either way. -/
theorem SameState.symm (hs : SameState w w') : SameState w' w := by
  obtain ⟨hl, hh, l, l', hr, hr', he⟩ := hs
  exact ⟨hl.symm, hh.symm, l', l, hr', hr, he.symm⟩

/-- What is left of a file, once its place is forgotten. -/
private theorem toList_map {x y : Option FileView} (he : x.map unplaced = y.map unplaced) :
    x.toList.map unplaced = y.toList.map unplaced := by
  rw [← Option.toList_map, ← Option.toList_map, he]

section Two

variable {h₁ h₂ : Nat} {file₁ file₂ : CFile} {q₁ q₂ : Request} {r₁ r₂ : Reply}
  {answers₁ answers₂ : List (Option Grant)} {v₁ v₂ : FileView}

/-- Operations on two files can be made in either order, the first of them listed first. -/
private theorem commute_ordered (hs : Sound w (l₁ ++ v₁ :: (l₂ ++ v₂ :: l₃)))
    (ha₁ : v₁.addr = file₁.fd) (ha₂ : v₂.addr = file₂.fd) (hne : h₁ ≠ h₂)
    (hp₁ : Performs b w h₁ file₁ q₁ r₁ w₁) (hp₂ : Performs b w h₂ file₂ q₂ r₂ w₂)
    (hg₁ : Granted b w₂ ⟨q₁.call, answers₁⟩) (hg₂ : Granted b w₁ ⟨q₂.call, answers₂⟩) :
    ∃ w₁₂ w₂₁, w₁.step ⟨q₂.call, answers₂⟩ = .ok (r₂, w₁₂) ∧
      w₂.step ⟨q₁.call, answers₁⟩ = .ok (r₁, w₂₁) ∧ SameState w₁₂ w₂₁ := by
  have hs₂ : Sound w ((l₁ ++ v₁ :: l₂) ++ v₂ :: l₃) := by simpa using hs
  -- Each operation on its own.
  obtain ⟨u₁, hu₁⟩ := acts_of_step hs hp₁.handle ha₁ hp₁.onFile hp₁.granted hp₁.step
  obtain ⟨u₂, hu₂⟩ := acts_of_step hs₂ hp₂.handle ha₂ hp₂.onFile hp₂.granted hp₂.step
  have ht₁ : Sound w₁ ((l₁ ++ (u₁.toList ++ l₂)) ++ v₂ :: l₃) := by simpa using hu₁.sound
  have ht₂ : Sound w₂ (l₁ ++ v₁ :: (l₂ ++ (u₂.toList ++ l₃))) := by simpa using hu₂.sound
  -- Each operation after the other.
  have hf₁ : w₂.handle? h₁ = some file₁ :=
    (handle_after hp₂.onFile hne hu₂.handles).trans hp₁.handle
  have hf₂ : w₁.handle? h₂ = some file₂ :=
    (handle_after hp₁.onFile hne.symm hu₁.handles).trans hp₂.handle
  obtain ⟨w₁₂, he₁₂⟩ := step_alike hs₂ ht₁ hp₂.handle hf₂ ha₂ hp₂.onFile hp₂.granted hg₂ hp₂.step
  obtain ⟨w₂₁, he₂₁⟩ := step_alike hs ht₂ hp₁.handle hf₁ ha₁ hp₁.onFile hp₁.granted hg₁ hp₁.step
  obtain ⟨x₂, hx₂⟩ := acts_of_step ht₁ hf₂ ha₂ hp₂.onFile hg₂ he₁₂
  obtain ⟨x₁, hx₁⟩ := acts_of_step ht₂ hf₁ ha₁ hp₁.onFile hg₁ he₂₁
  refine ⟨w₁₂, w₂₁, he₁₂, he₂₁, ?_, ?_, _, _, hx₂.sound.rep, hx₁.sound.rep, ?_⟩
  · rw [hx₁.list, hx₂.list, hu₁.list, hu₂.list]
  · rw [hx₁.handles, hx₂.handles, hu₁.handles, hu₂.handles]
    exact handlesAfter_comm hp₂.onFile hp₁.onFile _
  · have h₁ := toList_map (hx₁.outcome.trans hu₁.outcome.symm)
    have h₂ := toList_map (hx₂.outcome.trans hu₂.outcome.symm)
    simp only [List.map_append, List.append_assoc, h₁, h₂]

/-- In every reachable state, an operation leaves every other file as it is, and operations on
two files, whose requests are granted in either order with memory filled with one byte, return
the same and lead to the same state in either order. -/
theorem isolated_and_commute (hr : system.Reach (fun _ _ ↦ True) w)
    (hp₁ : Performs b w h₁ file₁ q₁ r₁ w₁) (hp₂ : Performs b w h₂ file₂ q₂ r₂ w₂)
    (hne : file₁.fd ≠ file₂.fd) (hg₁ : Granted b w₂ ⟨q₁.call, answers₁⟩)
    (hg₂ : Granted b w₁ ⟨q₂.call, answers₂⟩) :
    Isolated w w₁ file₁.fd ∧ Isolated w w₂ file₂.fd ∧
    ∃ w₁₂ w₂₁, w₁.step ⟨q₂.call, answers₂⟩ = .ok (r₂, w₁₂) ∧
      w₂.step ⟨q₁.call, answers₁⟩ = .ok (r₁, w₂₁) ∧ SameState w₁₂ w₂₁ := by
  obtain ⟨l, hs⟩ := reach_sound hr
  have hh : h₁ ≠ h₂ := by
    rintro rfl
    have he := hp₁.handle.symm.trans hp₂.handle
    cases he
    exact hne rfl
  have hisolated {h : Nat} {file : CFile} {q : Request} {r : Reply} {w' : World}
      (hp : Performs b w h file q r w') : Isolated w w' file.fd := by
    obtain ⟨l₁, v, l₂, rfl, ha⟩ := (linked_iff hs.rep).mp hp.linked
    obtain ⟨u, hu⟩ := acts_of_step hs hp.handle ha hp.onFile hp.granted hp.step
    exact ha ▸ hu.isolated hs
  refine ⟨hisolated hp₁, hisolated hp₂, ?_⟩
  obtain ⟨l₁, v₁, l₂, rfl, ha₁⟩ := (linked_iff hs.rep).mp hp₁.linked
  obtain ⟨l₃, v₂, l₄, he, ha₂⟩ := (linked_iff hs.rep).mp hp₂.linked
  have hv₂ : v₂ ∈ l₁ ++ v₁ :: l₂ := by simp [he]
  simp only [List.mem_append, List.mem_cons] at hv₂
  rcases hv₂ with hv₂ | rfl | hv₂
  · obtain ⟨k₁, k₂, rfl⟩ := List.append_of_mem hv₂
    have hs' : Sound w (k₁ ++ v₂ :: (k₂ ++ v₁ :: l₂)) := by simpa using hs
    obtain ⟨w₂₁, w₁₂, he₂₁, he₁₂, hsame⟩ :=
      commute_ordered hs' ha₂ ha₁ hh.symm hp₂ hp₁ hg₂ hg₁
    exact ⟨w₁₂, w₂₁, he₁₂, he₂₁, hsame.symm⟩
  · exact absurd (ha₁.symm.trans ha₂) hne
  · obtain ⟨k₁, k₂, rfl⟩ := List.append_of_mem hv₂
    exact commute_ordered hs ha₁ ha₂ hh hp₁ hp₂ hg₁ hg₂

end Two

/-! ### Two files -/

/-- A write that succeeds without asking for memory was granted what it asked for. -/
private theorem granted_write {src : Nat → UInt8} {n : Int32} {o : Int64}
    (hr : system.Reach (fun _ _ ↦ True) w) (hf : w.handle? h = some file)
    (hl : Linked w file.fd) (he : w.step ⟨.xWrite h src n o, []⟩ = .ok (.status .ok, w')) :
    Granted b w ⟨.xWrite h src n o, []⟩ := by
  obtain ⟨l, hs⟩ := reach_sound hr
  obtain ⟨l₁, v, l₂, rfl, ha⟩ := (linked_iff hs.rep).mp hl
  refine ⟨by simp, fun k f hk ↦ ⟨?_, by rintro arg ⟨⟩⟩⟩
  rintro src' n' o' ⟨⟩ ho hn
  rw [hf] at hk
  cases hk
  exact not_refused hs.rep hf ha ho hn he

end

/-- Handle 1 is closed. -/
def closeB : Request := ⟨.xClose 1, []⟩

/-- Whether the handles are open, and writing through one and closing the other succeed in
either order. -/
private def bothReturn (w : World) : Bool :=
  (w.handle? 0).any (fun f ↦ (w.handle? 1).any fun f' ↦ decide (f.fd ≠ f'.fd) &&
    (w.mem.load f.fd).isOk && (w.mem.load f'.fd).isOk) &&
  passes (w.step writeTen) (fun y ↦ y.1.succeeded) &&
  passes (w.step closeB) fun y ↦ y.1.succeeded &&
    passes (y.2.step writeTen) (fun z ↦ z.1.succeeded) &&
    (y.2.handle? 0).any fun f ↦ (y.2.mem.load f.fd).isOk

/-- A write to one file and the last close of another can be made in either order. -/
theorem isolated_and_commute_closeB : ∃ w w₁ w₂ w₁₂ w₂₁ : World,
    w.step writeTen = .ok (.status .ok, w₁) ∧ w.step closeB = .ok (.status .ok, w₂) ∧
    w₁.step closeB = .ok (.status .ok, w₁₂) ∧ w₂.step writeTen = .ok (.status .ok, w₂₁) ∧
    SameState w₁₂ w₂₁ := by
  obtain ⟨w, hr, hp⟩ := exists_of_checks (fun _ _ ↦ True) [filled 100 0xAA] [createA, createB]
    bothReturn (by decide +kernel) fun _ _ _ ↦ trivial
  simp only [bothReturn, Bool.and_eq_true] at hp
  obtain ⟨⟨hopen, hwrite⟩, hclose⟩ := hp
  obtain ⟨file₁, hf₁, hopen⟩ := (Option.any_eq_true _ _).mp hopen
  obtain ⟨file₂, hf₂, hopen⟩ := (Option.any_eq_true _ _).mp hopen
  simp only [Bool.and_eq_true, decide_eq_true_eq] at hopen
  obtain ⟨⟨hne, hl₁⟩, hl₂⟩ := hopen
  obtain ⟨⟨r₁, w₁⟩, he₁, hr₁⟩ := passes_iff.mp hwrite
  obtain rfl := Reply.succeeded_iff.mp hr₁
  obtain ⟨⟨r₂, w₂⟩, he₂, hclose⟩ := passes_iff.mp hclose
  simp only [Bool.and_eq_true] at hclose
  obtain ⟨⟨hr₂, hwrite⟩, hopen⟩ := hclose
  obtain rfl := Reply.succeeded_iff.mp hr₂
  obtain ⟨⟨r₃, w₃⟩, he₃, hr₃⟩ := passes_iff.mp hwrite
  obtain rfl := Reply.succeeded_iff.mp hr₃
  obtain ⟨file₃, hf₃, hl₃⟩ := (Option.any_eq_true _ _).mp hopen
  obtain ⟨l, hs⟩ := reach_sound hr
  have hreach : system.Reach (fun _ _ ↦ True) w₂ := .next hr trivial ⟨_, he₂⟩
  obtain ⟨l₂, hs₂⟩ := reach_sound hreach
  have hp₁ : Performs 0xAA w 0 file₁ writeTen (.status .ok) w₁ :=
    ⟨hf₁, linked_of_load hs hf₁ hl₁, .write, granted_write hr hf₁ (linked_of_load hs hf₁ hl₁) he₁,
      he₁⟩
  have hp₂ : Performs 0xAA w 1 file₂ closeB (.status .ok) w₂ :=
    ⟨hf₂, linked_of_load hs hf₂ hl₂, .close, ⟨by simp [closeB], fun _ _ _ ↦
      ⟨by rintro _ _ _ ⟨⟩, by rintro _ ⟨⟩⟩⟩, he₂⟩
  have hg₁ : Granted 0xAA w₂ ⟨writeTen.call, []⟩ :=
    granted_write hreach hf₃ (linked_of_load hs₂ hf₃ hl₃) he₃
  have hg₂ : Granted 0xAA w₁ ⟨closeB.call, []⟩ :=
    ⟨by simp, fun _ _ _ ↦ ⟨by rintro _ _ _ ⟨⟩, by rintro _ ⟨⟩⟩⟩
  obtain ⟨_, _, w₁₂, w₂₁, he₁₂, he₂₁, hsame⟩ := isolated_and_commute hr hp₁ hp₂ hne hg₁ hg₂
  exact ⟨w, w₁, w₂, w₁₂, w₂₁, he₁, he₂, he₁₂, he₂₁, hsame⟩

end SqliteComposite.Vfs

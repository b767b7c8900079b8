import SqliteComposite.Base.Heap

/-!
# Singly linked lists in a heap

A chain is a run of structs, each holding the address of the next. A node is described by a
value of any type `ν`: `addr` gives its address and `cell` its struct once the next pointer
is known, so the pointers are never part of the description.
-/

namespace SqliteComposite.Base

variable {σ ν : Type} {addr : ν → Addr} {cell : ν → Addr → σ}

/-- From pointer `p`, the nodes of the list in order, ending at the pointer `q`. -/
def Chain (addr : ν → Addr) (cell : ν → Addr → σ) (h : Heap σ) : Addr → List ν → Addr → Prop
  | p, [], q => p = q
  | p, v :: l, q =>
    p = addr v ∧ p ≠ 0 ∧ ∃ nx, h[p]? = some (.record (cell v nx)) ∧ Chain addr cell h nx l q

namespace Chain

/-- An empty chain starts where it ends. -/
@[simp] theorem nil_iff {h : Heap σ} {p q : Addr} : Chain addr cell h p [] q ↔ p = q := Iff.rfl

/-- A chain splits at any node. -/
theorem append_iff {h : Heap σ} {p q : Addr} {l l' : List ν} :
    Chain addr cell h p (l ++ l') q ↔
      ∃ m, Chain addr cell h p l m ∧ Chain addr cell h m l' q := by
  induction l generalizing p with
  | nil => simp
  | cons v l ih =>
    simp only [List.cons_append, Chain, ih]
    constructor
    · rintro ⟨hp, h0, nx, hv, m, hm, hr⟩
      exact ⟨m, ⟨hp, h0, nx, hv, hm⟩, hr⟩
    · rintro ⟨m, ⟨hp, h0, nx, hv, hm⟩, hr⟩
      exact ⟨hp, h0, nx, hv, m, hm, hr⟩

/-- A chain only depends on the structs of its own nodes. -/
theorem frame {h h' : Heap σ} {p q : Addr} {l : List ν} (hc : Chain addr cell h p l q)
    (hf : ∀ v ∈ l, h'[addr v]? = h[addr v]?) : Chain addr cell h' p l q := by
  induction l generalizing p with
  | nil => exact hc
  | cons v l ih =>
    obtain ⟨hp, h0, nx, hv, hr⟩ := hc
    refine ⟨hp, h0, nx, ?_, ih hr fun u hu ↦ hf u (List.mem_cons_of_mem _ hu)⟩
    rw [hp, hf v List.mem_cons_self, ← hp, hv]

/-- Every node of a chain is a live struct with a non-null address. -/
theorem node {h : Heap σ} {p q : Addr} {l : List ν} (hc : Chain addr cell h p l q) {v : ν}
    (hv : v ∈ l) : addr v ≠ 0 ∧ ∃ nx, h[addr v]? = some (.record (cell v nx)) := by
  obtain ⟨l₁, l₂, rfl⟩ := List.append_of_mem hv
  obtain ⟨m, _, hp, h0, nx, hm, _⟩ := append_iff.mp hc
  exact ⟨hp ▸ h0, nx, hp ▸ hm⟩

end Chain
end SqliteComposite.Base

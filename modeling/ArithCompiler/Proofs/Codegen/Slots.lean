import ArithCompiler.Proofs.Codegen.Runs

/-! # Registers in use

A pool in any state is described by the handles that are in use. `allocate` adds one that was free,
`release` takes one away, and both leave all others as they are; so the number of registers in use
counts the handles, and no two of them have the same name.
-/

namespace ArithCompiler

/-- Counting after a change at one place. -/
theorem countP_modify {α : Type} (p : α → Bool) (f : α → α) {l : List α} {i : Nat} {a : α}
    (h : l[i]? = some a) :
    (l.modify i f).countP p + (if p a then 1 else 0) = l.countP p + if p (f a) then 1 else 0 := by
  induction l generalizing i with
  | nil => simp at h
  | cons b l ih =>
    cases i with
    | zero =>
      cases h
      rw [List.modify_zero_cons, List.countP_cons, List.countP_cons]
      omega
    | succ i =>
      have := ih h
      rw [List.modify_succ_cons, List.countP_cons, List.countP_cons]
      omega

namespace Pool

/-- The handle stands for a register of the pool that is in use. -/
def InUse (p : Pool) (r : Register) : Prop := p.slots[r.index]? = some ⟨r.name, false⟩

theorem InUse.mem_names {p : Pool} {r : Register} (h : p.InUse r) : r.name ∈ p.names :=
  List.mem_map.2 ⟨_, List.mem_of_getElem? h, rfl⟩

/-- Registers in use are told apart by their names. -/
theorem InUse.eq_of_name {p : Pool} {r s : Register} (hr : p.InUse r) (hs : p.InUse s)
    (h : r.name = s.name) : r = s := by
  have hname (q : Register) (hq : p.InUse q) : p.names[q.index]? = some q.name := by
    rw [names, List.getElem?_map, hq]
    rfl
  have hlt := (List.getElem?_eq_some_iff.1 (hname r hr)).1
  have hindex : r.index = s.index :=
    (List.getElem?_inj hlt p.distinct).1 (by rw [hname r hr, hname s hs, h])
  cases r
  cases s
  simp_all

theorem not_inUse_ofNames (names : List String) (r : Register) : ¬(ofNames names).InUse r := by
  simp [InUse, ofNames]

theorem allocated_ofNames (names : List String) : (ofNames names).allocated = 0 := by
  simp [allocated, ofNames, List.countP_map]

theorem getElem?_mark (p : Pool) (i j : Nat) (free : Bool) :
    (p.mark i free).slots[j]? =
      if i = j then p.slots[j]?.map fun slot => { slot with free } else p.slots[j]? := by
  rw [mark, List.getElem?_modify]
  split <;> simp

/-- Either all registers are in use, or the first free one is handed out. -/
theorem allocate_cases (p : Pool) :
    (p.allocate = .error .exhausted ∧ ∀ slot ∈ p.slots, slot.free = false) ∨
      ∃ r, p.allocate = .ok (r, p.mark r.index false) ∧
        p.slots[r.index]? = some ⟨r.name, true⟩ ∧
        ∀ j < r.index, ∀ slot, p.slots[j]? = some slot → slot.free = false := by
  rw [allocate]
  cases hfind : p.slots.findFinIdx? (·.free) with
  | none =>
    rw [List.findFinIdx?_eq_none_iff] at hfind
    exact .inl ⟨rfl, fun slot hslot => by simpa using hfind slot hslot⟩
  | some i =>
    obtain ⟨hfree, hbefore⟩ := List.findFinIdx?_eq_some_iff.1 hfind
    refine .inr ⟨⟨i, p.slots[i].name⟩, rfl, ?_, ?_⟩
    · rw [List.getElem?_eq_getElem i.isLt]
      exact congrArg some (by rw [← hfree]; rfl)
    · intro j hj slot hslot
      obtain ⟨hlt, rfl⟩ := List.getElem?_eq_some_iff.1 hslot
      simpa using hbefore ⟨j, hlt⟩ hj

theorem inUse_mark_false {p : Pool} {r : Register} (h : p.slots[r.index]? = some ⟨r.name, true⟩)
    (s : Register) : (p.mark r.index false).InUse s ↔ p.InUse s ∨ s = r := by
  obtain ⟨i, name⟩ := r
  obtain ⟨j, other⟩ := s
  rw [InUse, InUse, getElem?_mark]
  by_cases hij : i = j
  · subst hij
    rw [h]
    simp [eq_comm]
  · simp [hij, Ne.symm hij]

theorem inUse_mark_true {p : Pool} {r : Register} (h : p.InUse r) (s : Register) :
    (p.mark r.index true).InUse s ↔ p.InUse s ∧ s ≠ r := by
  obtain ⟨i, name⟩ := r
  obtain ⟨j, other⟩ := s
  rw [InUse] at h
  rw [InUse, InUse, getElem?_mark]
  by_cases hij : i = j
  · subst hij
    rw [h]
    simp [eq_comm]
  · simp [hij, Ne.symm hij]

theorem allocated_mark_false {p : Pool} {r : Register}
    (h : p.slots[r.index]? = some ⟨r.name, true⟩) :
    (p.mark r.index false).allocated = p.allocated + 1 := by
  have hcount := countP_modify (fun slot : Slot => !slot.free)
    (fun slot => { slot with free := false }) h
  simpa [allocated, mark] using hcount

theorem allocated_mark_true {p : Pool} {r : Register} (h : p.InUse r) :
    (p.mark r.index true).allocated + 1 = p.allocated := by
  have hcount := countP_modify (fun slot : Slot => !slot.free)
    (fun slot => { slot with free := true }) h
  simpa [allocated, mark] using hcount

/-- A register in use can be given back. -/
theorem InUse.release {p : Pool} {r : Register} (h : p.InUse r) :
    p.release r = .ok (p.mark r.index true) := by
  have hslot : p.slot? r = some ⟨r.name, false⟩ := by
    rw [slot?, h]
    simp
  rw [Pool.release, hslot]
  rfl

theorem allocated_eq_size_iff (p : Pool) :
    p.allocated = p.size ↔ ∀ slot ∈ p.slots, slot.free = false := by
  rw [allocated, size, List.countP_eq_length]
  simp

end Pool

end ArithCompiler

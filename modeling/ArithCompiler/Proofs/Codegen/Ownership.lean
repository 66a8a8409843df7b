import ArithCompiler.Proofs.Codegen.Slots

/-! # Who owns a register

Calls on a pool come in any order, with handles of any origin. The names never change, a call that
fails changes nothing, and a register that was handed out stays in use until it is given back. No
second owner gets it before that, neither by an equal handle nor under the same name.
-/

namespace ArithCompiler

namespace Pool

inductive Call where
  | allocate
  | release (r : Register)
  | releaseAll
  deriving DecidableEq, Repr, Inhabited

/-- What a call answers: the register that it hands out, nothing, or an error. -/
abbrev Answer := Except RegisterError (Option Register)

/-- The answer of a call and the pool after it. -/
def call (p : Pool) : Call → Answer × Pool
  | .allocate =>
    match p.allocate with
    | .ok (r, q) => (.ok (some r), q)
    | .error e => (.error e, p)
  | .release r =>
    match p.release r with
    | .ok q => (.ok none, q)
    | .error e => (.error e, p)
  | .releaseAll => (.ok none, p.releaseAll)

/-- The pool after some calls. -/
def perform (p : Pool) : List Call → Pool
  | [] => p
  | c :: calls => (p.call c).2.perform calls

/-- A call that leaves no owner of a register: all registers are given back, or the handle itself
is. -/
def GivesBack (p : Pool) (r : Register) : Call → Prop
  | .allocate => False
  | .release s => s = r ∧ (p.call (.release s)).1 = .ok none
  | .releaseAll => True

/-- None of the calls gives the register back. -/
def Keeps (r : Register) : List Call → Pool → Prop
  | [], _ => True
  | c :: calls, p => ¬p.GivesBack r c ∧ Keeps r calls (p.call c).2

/-- One of the calls has handed the register out. -/
def HandedOut (p : Pool) (calls : List Call) (r : Register) : Prop :=
  ∃ before after, calls = before ++ .allocate :: after ∧
    ((p.perform before).call .allocate).1 = .ok (some r)

theorem call_allocate (p : Pool) :
    (p.call .allocate = (.error .exhausted, p) ∧ ∀ slot ∈ p.slots, slot.free = false) ∨
      ∃ r, p.call .allocate = (.ok (some r), p.mark r.index false) ∧
        p.slots[r.index]? = some ⟨r.name, true⟩ ∧
        ∀ j < r.index, ∀ slot, p.slots[j]? = some slot → slot.free = false := by
  obtain ⟨hallocate, hused⟩ | ⟨r, hallocate, hfree, hfirst⟩ := p.allocate_cases
  · left
    exact ⟨by rw [call, hallocate], hused⟩
  · right
    exact ⟨r, by rw [call, hallocate], hfree, hfirst⟩

/-- The register that a call hands out was free, and it is the first that was. -/
theorem call_allocate_ok {p : Pool} {r : Register}
    (h : (p.call .allocate).1 = .ok (some r)) :
    (p.call .allocate).2 = p.mark r.index false ∧ p.slots[r.index]? = some ⟨r.name, true⟩ ∧
      ∀ j < r.index, ∀ slot, p.slots[j]? = some slot → slot.free = false := by
  obtain ⟨hcall, -⟩ | ⟨s, hcall, hfree, hfirst⟩ := p.call_allocate
  · rw [hcall] at h
    cases h
  · rw [hcall] at h ⊢
    cases h
    exact ⟨rfl, hfree, hfirst⟩

/-- Only a register in use can be given back. -/
theorem call_release (p : Pool) (r : Register) :
    (p.InUse r ∧ p.call (.release r) = (.ok none, p.mark r.index true)) ∨
      (¬p.InUse r ∧ ∃ e, p.call (.release r) = (.error e, p)) := by
  by_cases hr : p.InUse r
  · left
    exact ⟨hr, by rw [call, hr.release]⟩
  · right
    refine ⟨hr, ?_⟩
    cases hslot : p.slot? r with
    | none => exact ⟨.foreign r.name, by rw [call, Pool.release, hslot]⟩
    | some slot =>
      have hfree : slot.free = true := by
        rw [slot?, Option.filter_eq_some_iff] at hslot
        obtain ⟨hget, hname⟩ := hslot
        cases hflag : slot.free with
        | true => rfl
        | false => exact absurd (by rw [InUse, hget, ← eq_of_beq hname, ← hflag]) hr
      exact ⟨.alreadyFree r.name, by simp [call, Pool.release, hslot, hfree]⟩

theorem call_error {p : Pool} {c : Call} {e : RegisterError} (h : (p.call c).1 = .error e) :
    (p.call c).2 = p := by
  cases c with
  | allocate =>
    obtain ⟨hcall, -⟩ | ⟨r, hcall, -⟩ := p.call_allocate
    · rw [hcall]
    · rw [hcall] at h
      cases h
  | release r =>
    obtain ⟨-, hcall⟩ | ⟨-, e', hcall⟩ := p.call_release r
    · rw [hcall] at h
      cases h
    · rw [hcall]
  | releaseAll => cases h

theorem names_call (p : Pool) (c : Call) : (p.call c).2.names = p.names := by
  cases c with
  | allocate =>
    obtain ⟨hcall, -⟩ | ⟨r, hcall, -⟩ := p.call_allocate
    · rw [hcall]
    · rw [hcall, names_mark]
  | release r =>
    obtain ⟨-, hcall⟩ | ⟨-, e, hcall⟩ := p.call_release r
    · rw [hcall, names_mark]
    · rw [hcall]
  | releaseAll => exact p.names_releaseAll

theorem names_perform (p : Pool) (calls : List Call) : (p.perform calls).names = p.names := by
  induction calls generalizing p with
  | nil => rfl
  | cons c calls ih => exact (ih _).trans (p.names_call c)

/-- A change of flag is all that `mark` does. -/
theorem slots_mark {p : Pool} {r : Register} {free : Bool}
    (h : p.slots[r.index]? = some ⟨r.name, free⟩) (free' : Bool) :
    (p.mark r.index free').slots = p.slots.set r.index ⟨r.name, free'⟩ := by
  apply List.ext_getElem?
  intro j
  rw [getElem?_mark, List.getElem?_set]
  by_cases hj : r.index = j
  · subst hj
    have hlt := (List.getElem?_eq_some_iff.1 h).1
    rw [h, if_pos rfl, if_pos rfl, if_pos hlt]
    rfl
  · simp [hj]

/-- A register stays in use as long as it is not given back. -/
theorem InUse.call {p : Pool} {r : Register} {c : Call} (h : p.InUse r) (hc : ¬p.GivesBack r c) :
    (p.call c).2.InUse r := by
  cases c with
  | allocate =>
    obtain ⟨hcall, -⟩ | ⟨s, hcall, hfree, -⟩ := p.call_allocate
    · rwa [hcall]
    · rw [hcall, inUse_mark_false hfree]
      exact .inl h
  | release s =>
    obtain ⟨hs, hcall⟩ | ⟨-, e, hcall⟩ := p.call_release s
    · rw [hcall, inUse_mark_true hs]
      refine ⟨h, fun hrs => hc ?_⟩
      rw [GivesBack, hcall]
      exact ⟨hrs.symm, rfl⟩
    · rwa [hcall]
  | releaseAll => exact absurd trivial hc

theorem InUse.perform {p : Pool} {r : Register} {calls : List Call} (h : p.InUse r)
    (hkeeps : Keeps r calls p) : (p.perform calls).InUse r := by
  induction calls generalizing p with
  | nil => exact h
  | cons c calls ih => exact ih (h.call hkeeps.1) hkeeps.2

/-- What is handed out shares its name with no register in use. -/
theorem InUse.name_ne {p : Pool} {r s : Register} (h : p.InUse r)
    (hs : (p.call .allocate).1 = .ok (some s)) : s.name ≠ r.name := by
  obtain ⟨-, hfree, -⟩ := call_allocate_ok hs
  intro hname
  have hr : (p.mark s.index false).InUse r := (inUse_mark_false hfree r).2 (.inl h)
  have hsr : s = r := ((inUse_mark_false hfree s).2 (.inr rfl)).eq_of_name hr hname
  rw [hsr, h] at hfree
  cases hfree

/-- The handles of a pool name its registers for ever. -/
theorem HandedOut.slot {p : Pool} {calls : List Call} {r : Register} (h : p.HandedOut calls r) :
    ∃ free, (p.perform calls).slots[r.index]? = some ⟨r.name, free⟩ := by
  obtain ⟨before, after, rfl, hcall⟩ := h
  obtain ⟨-, hfree, -⟩ := call_allocate_ok hcall
  have hname : (p.perform (before ++ .allocate :: after)).names[r.index]? = some r.name := by
    rw [names_perform, ← names_perform p before, names, List.getElem?_map, hfree]
    rfl
  rw [names, List.getElem?_map, Option.map_eq_some_iff] at hname
  obtain ⟨⟨name, free⟩, hslot, hname⟩ := hname
  exact ⟨free, by rw [hslot, ← hname]⟩

/-- A pool after any calls, with handles of any origin. Its names are the distinct ones it was made
of. `allocate` succeeds when a register is free, hands out the first one and takes only that;
a handle that was handed out can be given back when its register is in use, and only its flag
changes; a call that fails changes nothing. From the call that hands out a register until it is
given back, no other call hands it out again, nor anything of its name. -/
theorem registers_owned (names : List String) (calls : List Call) :
    let p := (ofNames names).perform calls
    p.names = names.eraseDups ∧
    ((∃ r, (p.call .allocate).1 = .ok (some r)) ↔ ∃ slot ∈ p.slots, slot.free = true) ∧
    (∀ r, (p.call .allocate).1 = .ok (some r) →
      p.slots[r.index]? = some ⟨r.name, true⟩ ∧
      (∀ j < r.index, ∀ slot, p.slots[j]? = some slot → slot.free = false) ∧
      (p.call .allocate).2.slots = p.slots.set r.index ⟨r.name, false⟩ ∧
      (p.call .allocate).2.allocated = p.allocated + 1) ∧
    (∀ r, (ofNames names).HandedOut calls r → ∃ free, p.slots[r.index]? = some ⟨r.name, free⟩ ∧
      ((p.call (.release r)).1 = .ok none ↔ free = false) ∧
      ((p.call (.release r)).1 = .ok none →
        (p.call (.release r)).2.slots = p.slots.set r.index ⟨r.name, true⟩)) ∧
    (∀ c e, (p.call c).1 = .error e → (p.call c).2 = p) ∧
    ∀ r between s, (p.call .allocate).1 = .ok (some r) → Keeps r between (p.call .allocate).2 →
      (((p.call .allocate).2.perform between).call .allocate).1 = .ok (some s) →
      s ≠ r ∧ s.name ≠ r.name := by
  intro p
  refine ⟨?_, ⟨?_, ?_⟩, ?_, ?_, fun _ _ => call_error, ?_⟩
  · rw [names_perform, names_ofNames]
  · rintro ⟨r, hr⟩
    obtain ⟨-, hfree, -⟩ := call_allocate_ok hr
    exact ⟨_, List.mem_of_getElem? hfree, rfl⟩
  · rintro ⟨slot, hslot, hfree⟩
    obtain ⟨-, hused⟩ | ⟨r, hcall, -⟩ := p.call_allocate
    · rw [hused slot hslot] at hfree
      cases hfree
    · exact ⟨r, by rw [hcall]⟩
  · intro r hr
    obtain ⟨hcall, hfree, hfirst⟩ := call_allocate_ok hr
    rw [hcall]
    exact ⟨hfree, hfirst, slots_mark hfree false, allocated_mark_false hfree⟩
  · intro r hr
    obtain ⟨free, hslot⟩ : ∃ free, p.slots[r.index]? = some ⟨r.name, free⟩ := hr.slot
    refine ⟨free, hslot, ?_⟩
    obtain ⟨hinUse, hcall⟩ | ⟨hinUse, e, hcall⟩ := p.call_release r
    · rw [hcall, slots_mark hslot]
      rw [InUse, hslot] at hinUse
      cases hinUse
      simp
    · rw [hcall]
      rw [InUse, hslot] at hinUse
      simpa using hinUse
  · intro r between s hr hkeeps hs
    obtain ⟨hcall, hfree, -⟩ := call_allocate_ok hr
    have hinUse : (p.call .allocate).2.InUse r := by
      rw [hcall, inUse_mark_false hfree]
      exact .inr rfl
    have hname := (hinUse.perform hkeeps).name_ne hs
    exact ⟨fun hsr => hname (congrArg Register.name hsr), hname⟩

end Pool

end ArithCompiler

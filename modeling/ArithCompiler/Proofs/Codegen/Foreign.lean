import ArithCompiler.Proofs.Codegen.Ownership

/-! # Handles of another pool

A handle carries a place and a name, and nothing that tells its pool. A pool therefore refuses the
handles of another pool only as far as the two differ: where both have the same name at the same
place, the handle of one is taken for a register of the other, and giving it back frees a register
that somebody else may have in use.
-/

namespace ArithCompiler

namespace Pool

/-- The pool takes the handle for one of another pool: it is not free, and giving it back fails and
changes nothing. -/
def Rejects (p : Pool) (r : Register) : Prop :=
  p.isFree r = false ∧ p.call (.release r) = (.error (.foreign r.name), p)

/-- The pool takes the handle for one of its own: either its register is free, and cannot be given
back, or it is in use, and giving it back frees it. -/
def Accepts (p : Pool) (r : Register) : Prop :=
  (p.isFree r = true ∧ p.call (.release r) = (.error (.alreadyFree r.name), p)) ∨
    (p.InUse r ∧ p.isFree r = false ∧ p.call (.release r) = (.ok none, p.mark r.index true))

/-- The handles of a pool have the name that stands at their place. -/
theorem HandedOut.getElem?_names {p : Pool} {calls : List Call} {r : Register}
    (h : p.HandedOut calls r) : p.names[r.index]? = some r.name := by
  obtain ⟨free, hslot⟩ := h.slot
  rw [← names_perform p calls, names, List.getElem?_map, hslot]
  rfl

theorem slot?_of_getElem?_names {p : Pool} {r : Register} (h : p.names[r.index]? = some r.name) :
    ∃ free, p.slots[r.index]? = some ⟨r.name, free⟩ ∧ p.slot? r = some ⟨r.name, free⟩ := by
  rw [names, List.getElem?_map, Option.map_eq_some_iff] at h
  obtain ⟨⟨name, free⟩, hslot, rfl⟩ := h
  exact ⟨free, hslot, by rw [slot?, hslot]; simp⟩

theorem slot?_eq_none {p : Pool} {r : Register} (h : p.names[r.index]? ≠ some r.name) :
    p.slot? r = none := by
  rw [slot?, Option.filter_eq_none_iff]
  intro slot hslot hname
  apply h
  rw [names, List.getElem?_map, hslot, ← eq_of_beq hname]
  rfl

theorem rejects_of_ne {p : Pool} {r : Register} (h : p.names[r.index]? ≠ some r.name) :
    p.Rejects r := by
  have hslot := slot?_eq_none h
  constructor
  · rw [isFree, hslot]
    rfl
  · rw [call, Pool.release, hslot]

theorem accepts_of_eq {p : Pool} {r : Register} (h : p.names[r.index]? = some r.name) :
    p.Accepts r := by
  obtain ⟨free, hget, hslot⟩ := slot?_of_getElem?_names h
  have hfree : p.isFree r = free := by
    rw [isFree, hslot]
    rfl
  cases free with
  | true =>
    refine .inl ⟨hfree, ?_⟩
    rw [call, Pool.release, hslot]
    rfl
  | false =>
    have hinUse : p.InUse r := hget
    exact .inr ⟨hinUse, hfree, by rw [call, hinUse.release]⟩

theorem Accepts.not_rejects {p : Pool} {r : Register} (h : p.Accepts r) : ¬p.Rejects r := by
  rintro ⟨-, hcall⟩
  rcases h with ⟨-, hcall'⟩ | ⟨-, -, hcall'⟩
  · rw [hcall] at hcall'
    cases hcall'
  · rw [hcall] at hcall'
    cases hcall'

/-- A pool refuses a handle of another pool exactly when the two, after any calls on each, have
different names at its place, or one of them has none there. Otherwise it takes the handle for its
own register of that name. -/
theorem foreign_rejected_iff (names names' : List String) (calls calls' : List Call)
    (r : Register) (hr : (ofNames names').HandedOut calls' r) :
    let p := (ofNames names).perform calls
    (p.Rejects r ↔ names.eraseDups[r.index]? ≠ names'.eraseDups[r.index]?) ∧
      (names.eraseDups[r.index]? = names'.eraseDups[r.index]? → p.Accepts r) := by
  intro p
  have hours : p.names = names.eraseDups := by rw [names_perform, names_ofNames]
  have htheirs : names'.eraseDups[r.index]? = some r.name := by
    rw [← names_ofNames]
    exact hr.getElem?_names
  rw [← hours, htheirs]
  refine ⟨⟨fun hrejects heq => ?_, rejects_of_ne⟩, accepts_of_eq⟩
  exact (accepts_of_eq heq).not_rejects hrejects

/-- The second register of a pool of two is no register of a pool of one. -/
theorem foreign_rejected_iff_second :
    (ofNames ["x0", "x1"]).HandedOut [.allocate, .allocate] ⟨1, "x1"⟩ ∧
      ((ofNames ["x0"]).perform [.allocate]).Rejects ⟨1, "x1"⟩ := by
  have hr : (ofNames ["x0", "x1"]).HandedOut [.allocate, .allocate] ⟨1, "x1"⟩ :=
    ⟨[.allocate], [], rfl, rfl⟩
  have hiff := (foreign_rejected_iff ["x0"] ["x0", "x1"] [.allocate] _ _ hr).1
  exact ⟨hr, hiff.2 (by decide)⟩

/-- The only register of one pool, in use there, is given back by the handle of another pool with the
same name; and before it was in use, that handle was reported as free. -/
theorem foreign_released :
    (ofNames ["x0"]).HandedOut [.allocate] ⟨0, "x0"⟩ ∧
      (ofNames ["x0"]).isFree ⟨0, "x0"⟩ = true ∧
      ((ofNames ["x0"]).perform [.allocate]).call (.release ⟨0, "x0"⟩) =
        (.ok none, ofNames ["x0"]) ∧
      ¬((ofNames ["x0"]).perform [.allocate]).Rejects ⟨0, "x0"⟩ := by
  refine ⟨⟨[], [], rfl, rfl⟩, rfl, rfl, ?_⟩
  exact (accepts_of_eq (by decide)).not_rejects

end Pool

end ArithCompiler

/-! # Register pools

A pool owns a list of distinct register names and knows which of them are free. The free register
that comes first in the list is handed out first. A handle is known by its place and its name
together, so a pool refuses a handle that names nothing of its own.
-/

namespace ArithCompiler

/-- A register handed out by a pool: its place there, and its name. -/
structure Register where
  index : Nat
  name : String
  deriving DecidableEq, Repr, Inhabited

inductive RegisterError where
  | exhausted
  | alreadyFree (name : String)
  | foreign (name : String)
  deriving DecidableEq, Repr, Inhabited

def RegisterError.message : RegisterError → String
  | exhausted => "Out of registers"
  | alreadyFree name => "Register " ++ name ++ " is already free"
  | foreign name => "Register " ++ name ++ " does not belong to this pool"

structure Slot where
  name : String
  free : Bool := true
  deriving DecidableEq, Repr, Inhabited

theorem nodup_eraseDups (names : List String) : names.eraseDups.Nodup := by
  match names with
  | [] => simp
  | name :: rest =>
    rw [List.eraseDups_cons, List.nodup_cons]
    exact ⟨by simp, nodup_eraseDups _⟩
termination_by names.length
decreasing_by
  simp only [List.length_cons]
  have := List.length_filter_le (fun other => !other == name) rest
  omega

/-- A change of flag keeps the names. -/
theorem map_name_modify (slots : List Slot) (i : Nat) (free : Bool) :
    (slots.modify i fun slot => { slot with free }).map Slot.name = slots.map Slot.name := by
  apply List.ext_getElem?
  intro j
  simp only [List.getElem?_map, List.getElem?_modify]
  cases slots[j]? with
  | none => rfl
  | some slot => by_cases h : i = j <;> simp [h]

structure Pool where
  slots : List Slot
  distinct : (slots.map Slot.name).Nodup
  deriving DecidableEq, Repr

namespace Pool

/-- All registers free, each name at its first place in the list. -/
def ofNames (names : List String) : Pool where
  slots := names.eraseDups.map fun name => { name }
  distinct := by simpa [Function.comp_def] using nodup_eraseDups names

def names (p : Pool) : List String := p.slots.map Slot.name

def size (p : Pool) : Nat := p.slots.length

def isEmpty (p : Pool) : Bool := p.slots.isEmpty

/-- How many registers are in use. -/
def allocated (p : Pool) : Nat := p.slots.countP (!·.free)

/-- Set the flag of the slot at one place. -/
def mark (p : Pool) (i : Nat) (free : Bool) : Pool where
  slots := p.slots.modify i fun slot => { slot with free }
  distinct := by rw [map_name_modify]; exact p.distinct

/-- The slot that a handle stands for, if it is one of this pool. -/
def slot? (p : Pool) (r : Register) : Option Slot :=
  p.slots[r.index]?.filter (·.name == r.name)

/-- Take the first free register. -/
def allocate (p : Pool) : Except RegisterError (Register × Pool) :=
  match p.slots.findFinIdx? (·.free) with
  | none => .error .exhausted
  | some i => .ok (⟨i, p.slots[i].name⟩, p.mark i false)

/-- Give a register back. -/
def release (p : Pool) (r : Register) : Except RegisterError Pool :=
  match p.slot? r with
  | none => .error (.foreign r.name)
  | some slot => if slot.free then .error (.alreadyFree r.name) else .ok (p.mark r.index true)

/-- Give all registers back. -/
def releaseAll (p : Pool) : Pool where
  slots := p.slots.map fun slot => { slot with free := true }
  distinct := by simpa [Function.comp_def] using p.distinct

/-- Whether a handle of this pool is free; one of another pool never is. -/
def isFree (p : Pool) (r : Register) : Bool := (p.slot? r).any Slot.free

theorem names_ofNames (names : List String) : (ofNames names).names = names.eraseDups := by
  simp [ofNames, Pool.names, Function.comp_def]

theorem names_mark (p : Pool) (i : Nat) (free : Bool) : (p.mark i free).names = p.names :=
  map_name_modify p.slots i free

theorem names_releaseAll (p : Pool) : p.releaseAll.names = p.names := by
  simp [names, releaseAll, Function.comp_def]

end Pool

end ArithCompiler

import ArithCompiler.Proofs.Codegen.Stack

/-! # Runs of one generator

A generator is used for one tree after another. Each run starts from a clean state that depends on
the names of the registers alone, so nothing of an earlier run can be seen in a later one; and a run
ends either with its whole program and one register in use, or with nothing.
-/

namespace ArithCompiler

theorem eraseDups_of_nodup {names : List String} (h : names.Nodup) : names.eraseDups = names := by
  induction names with
  | nil => rfl
  | cons name names ih =>
    obtain ⟨hname, hnames⟩ := List.nodup_cons.1 h
    have hfilter : names.filter (fun other => !other == name) = names := by
      rw [List.filter_eq_self]
      intro other hother
      have hne : other ≠ name := fun heq => hname (heq ▸ hother)
      simpa using hne
    rw [List.eraseDups_cons, hfilter, ih hnames]

namespace Pool

theorem names_holding (p : Pool) (k : Nat) : (p.holding k).names = p.names :=
  map_name_mapIdx p.slots fun i => decide (k ≤ i)

/-- A pool with all registers free is known by its names. -/
theorem releaseAll_congr {p q : Pool} (h : p.names = q.names) : p.releaseAll = q.releaseAll := by
  apply eq_of_slots
  have hslots (p : Pool) : p.releaseAll.slots = p.names.map fun name => { name } := by
    simp [releaseAll, names]
  rw [hslots, hslots, h]

theorem countP_mapIdx_free (slots : List Slot) {k : Nat} (hk : k ≤ slots.length) :
    (slots.mapIdx fun i slot => { slot with free := decide (k ≤ i) }).countP (!·.free) = k := by
  induction slots generalizing k with
  | nil => simpa [eq_comm] using hk
  | cons slot slots ih =>
    rw [List.mapIdx_cons, List.countP_cons]
    cases k with
    | zero => simpa using ih (Nat.zero_le _)
    | succ k =>
      have hlater := ih (Nat.le_of_succ_le_succ hk)
      simp only [Nat.add_le_add_iff_right, hlater]
      simp

theorem allocated_holding (p : Pool) {k : Nat} (hk : k ≤ p.size) : (p.holding k).allocated = k :=
  countP_mapIdx_free p.slots hk

theorem names_allocate {p q : Pool} {r : Register} (h : p.allocate = .ok (r, q)) :
    q.names = p.names := by
  rw [allocate] at h
  split at h
  · cases h
  · cases h
    exact names_mark p _ false

theorem names_release {p q : Pool} {r : Register} (h : p.release r = .ok q) :
    q.names = p.names := by
  rw [release] at h
  split at h
  · cases h
  · split at h
    · cases h
    · cases h
      exact names_mark p _ true

end Pool

namespace Assembly

variable (t : Target)

theorem names_load (value : Int64) (a : Assembly) :
    (a.load t value).2.pool.names = a.pool.names := by
  rw [load]
  split
  · rfl
  · next hallocate => exact Pool.names_allocate hallocate

theorem names_arith (op : BinOp) (left right : Register) (a : Assembly) :
    (a.arith t op left right).2.pool.names = a.pool.names := by
  rw [arith]
  split
  · rfl
  · simp only
    split
    · rfl
    · next hrelease => exact Pool.names_release hrelease

/-- The names of the registers stay, wherever the code of a tree may fail. -/
theorem names_expression (e : Expr) (a : Assembly) :
    (expression t e a).2.pool.names = a.pool.names := by
  induction e generalizing a with
  | literal value => exact names_load t value a
  | binary op left right ihl ihr =>
    have hl := ihl a
    rw [expression]
    split
    · next hleft => rwa [hleft] at hl
    · next l b hleft =>
      rw [hleft] at hl
      have hr := ihr b
      split
      · next hright =>
        rw [hright] at hr
        exact hr.trans hl
      · next r c hright =>
        rw [hright] at hr
        exact (names_arith t op l r c).trans (hr.trans hl)

theorem reset_eq (a : Assembly) : a.reset = ⟨a.pool.holding 0, #[]⟩ := by
  rw [reset, Pool.releaseAll_eq_holding]

theorem reset_congr {a b : Assembly} (h : a.pool.names = b.pool.names) : a.reset = b.reset := by
  rw [reset, reset, Pool.releaseAll_congr h]

/-- A run sees nothing of the state that it starts from but the names of the registers. -/
theorem generate_congr (e : Expr) {a b : Assembly} (h : a.pool.names = b.pool.names) :
    a.generate t e = b.generate t e := by
  rw [generate, generate, reset_congr h]

/-- What a successful run leaves: its own program, and the first register in use. -/
theorem generate_ok {e : Expr} {a b : Assembly} {r : Register} (h : a.generate t e = (.ok r, b)) :
    0 < a.pool.size ∧ r = a.pool.register 0 ∧
      b = ⟨a.pool.holding 1, (t.preamble ++ t.code a.pool.names e 0 ++ t.postamble).toArray⟩ := by
  rw [generate, reset_append] at h
  split at h
  · next hx =>
    obtain ⟨hpos, rfl, rfl⟩ := expression_ok t a.pool e 0 _ hx
    cases h
    simpa [append] using hpos
  · cases h

/-- What a failed run leaves, at whatever node of the tree it failed: nothing. -/
theorem generate_error {e : Expr} {a b : Assembly} {err : CodegenError}
    (h : a.generate t e = (.error err, b)) : b = ⟨a.pool.holding 0, #[]⟩ := by
  rw [generate] at h
  split at h
  · cases h
  · next c hx =>
    have hnames : c.pool.names = a.pool.names := by
      have hc := names_expression t e (a.reset.append t.preamble)
      rw [hx] at hc
      exact hc.trans (Pool.names_releaseAll a.pool)
    cases h
    rw [reset_congr hnames, reset_eq]

theorem names_generate (e : Expr) (a : Assembly) :
    (a.generate t e).2.pool.names = a.pool.names := by
  cases h : a.generate t e with
  | mk result b =>
    cases result with
    | error err =>
      obtain rfl := generate_error t h
      exact a.pool.names_holding 0
    | ok r =>
      obtain ⟨-, -, rfl⟩ := generate_ok t h
      exact a.pool.names_holding 1

/-- The state after one run for each tree, whether they succeed or fail. -/
def runs (earlier : List Expr) (a : Assembly) : Assembly :=
  earlier.foldl (fun a e => (a.generate t e).2) a

theorem names_runs (earlier : List Expr) (a : Assembly) :
    (a.runs t earlier).pool.names = a.pool.names := by
  induction earlier generalizing a with
  | nil => rfl
  | cons e earlier ih => exact (ih _).trans (names_generate t e a)

theorem names_start (p : Pool) : (start t (some p.names)).pool.names = p.names :=
  (Pool.names_ofNames p.names).trans (eraseDups_of_nodup p.distinct)

/-- Runs are independent and atomic: from any state, after any runs, a run answers and ends as on a
generator that was just built with the same names. A successful run leaves its own program, and its
result in the first register, the only one in use; a failed run leaves no lines and no register in
use. -/
theorem generate_independent (e : Expr) (a : Assembly) (earlier : List Expr) :
    (a.runs t earlier).generate t e = (start t (some a.pool.names)).generate t e ∧
      (∀ r b, a.generate t e = (.ok r, b) →
        b.listing.toList = t.preamble ++ t.code a.pool.names e 0 ++ t.postamble ∧
          b.pool.names = a.pool.names ∧ r.index = 0 ∧ b.pool.slot? r = some ⟨r.name, false⟩ ∧
          b.pool.allocated = 1) ∧
      ∀ err b, a.generate t e = (.error err, b) →
        b.listing = #[] ∧ b.pool.names = a.pool.names ∧ b.pool.allocated = 0 := by
  refine ⟨?_, ?_, ?_⟩
  · apply generate_congr
    rw [names_runs, names_start]
  · intro r b h
    obtain ⟨hpos, rfl, rfl⟩ := generate_ok t h
    exact ⟨rfl, a.pool.names_holding 1, rfl, a.pool.slot?_holding 0 hpos,
      a.pool.allocated_holding hpos⟩
  · intro err b h
    obtain rfl := generate_error t h
    exact ⟨rfl, a.pool.names_holding 0, a.pool.allocated_holding (Nat.zero_le _)⟩

end Assembly

end ArithCompiler

import ArithCompiler.Proofs.Codegen.Slots
import Mathlib.Data.List.Nodup

/-! # Handles in any order

Constants are loaded and combined in any order, as long as an operation is given two different live
handles. A handle is live from the load that returned it until it is the right operand of an
operation. Since any live handle may go first, the free registers are no longer the last ones of the
pool: they can be anywhere, and the next load fills the first hole.
-/

namespace ArithCompiler

/-- The live handles, each with the tree whose value it stands for. -/
abbrev Live := List (Register × Expr)

namespace Live

def handles (live : Live) : List Register := live.map Prod.fst

/-- A load makes the handle that it returned live. -/
def load (live : Live) (value : Int64) : Except CodegenError Register → Live
  | .error _ => live
  | .ok r => (r, .literal value) :: live

/-- An operation gives the left handle a new tree and ends the life of the right one. -/
def combine (live : Live) (left right : Register) (e : Expr) : Live :=
  (left, e) :: live.filter fun p => p.1 ≠ left ∧ p.1 ≠ right

theorem mem_handles {live : Live} {r : Register} {e : Expr} (h : (r, e) ∈ live) :
    r ∈ live.handles :=
  List.mem_map_of_mem h

theorem handles_combine (live : Live) (left right : Register) (e : Expr) :
    (live.combine left right e).handles =
      left :: live.handles.filter fun r => r ≠ left ∧ r ≠ right := by
  rw [combine, handles, handles, List.map_cons, List.filter_map]
  rfl

/-- With no handle listed twice, an operation leaves one handle less. -/
theorem length_combine {live : Live} (hn : live.handles.Nodup) {left right : Register}
    (hl : left ∈ live.handles) (hr : right ∈ live.handles) (hne : left ≠ right) (e : Expr) :
    (live.combine left right e).length + 1 = live.length := by
  have hrest : (live.handles.filter fun r => r ≠ left ∧ r ≠ right) =
      (live.handles.erase right).erase left := by
    rw [(hn.erase right).erase_eq_filter, hn.erase_eq_filter, List.filter_filter]
    exact List.filter_congr fun r _ => Bool.eq_iff_iff.2 (by simp)
  have hl' : left ∈ live.handles.erase right := (List.mem_erase_of_ne hne).2 hl
  have hpos := List.length_pos_of_mem hl'
  have herase := List.length_erase_of_mem hr
  have hlive : live.handles.length = live.length := List.length_map _
  have hcombine : (live.combine left right e).handles.length = (live.combine left right e).length :=
    List.length_map _
  rw [← hcombine, handles_combine, hrest, List.length_cons, List.length_erase_of_mem hl']
  omega

end Live

namespace Pool

/-- The live handles are the registers in use, each of them listed once. -/
structure Lends (p : Pool) (live : Live) : Prop where
  inUse : ∀ r, r ∈ live.handles ↔ p.InUse r
  nodup : live.handles.Nodup
  length : live.length = p.allocated

namespace Lends

theorem ofNames (names : List String) : (Pool.ofNames names).Lends [] where
  inUse r := by simp [Live.handles, not_inUse_ofNames]
  nodup := List.nodup_nil
  length := (allocated_ofNames names).symm

variable {p : Pool} {live : Live}

theorem mark_false (h : p.Lends live) {r : Register} (hr : p.slots[r.index]? = some ⟨r.name, true⟩)
    (e : Expr) : (p.mark r.index false).Lends ((r, e) :: live) where
  inUse s := by
    rw [inUse_mark_false hr, ← h.inUse]
    simp [Live.handles, or_comm]
  nodup := by
    have hfresh : r ∉ live.handles := by
      rw [h.inUse, InUse, hr]
      simp
    exact List.nodup_cons.2 ⟨hfresh, h.nodup⟩
  length := by
    rw [allocated_mark_false hr, List.length_cons, h.length]

theorem mark_true (h : p.Lends live) {left right : Register} (hl : left ∈ live.handles)
    (hr : right ∈ live.handles) (hne : left ≠ right) (e : Expr) :
    (p.mark right.index true).Lends (live.combine left right e) where
  inUse s := by
    rw [inUse_mark_true ((h.inUse right).1 hr), ← h.inUse, Live.handles_combine, List.mem_cons,
      List.mem_filter]
    by_cases hs : s = left
    · simp [hs, hl, hne]
    · simp [hs]
  nodup := by
    rw [Live.handles_combine]
    exact List.nodup_cons.2 ⟨by simp, h.nodup.filter _⟩
  length := by
    have hlive := Live.length_combine h.nodup hl hr hne e
    have hpool := allocated_mark_true ((h.inUse right).1 hr)
    have := h.length
    omega

theorem mem_names (h : p.Lends live) {r : Register} (hr : r ∈ live.handles) : r.name ∈ p.names :=
  ((h.inUse r).1 hr).mem_names

theorem eq_of_name (h : p.Lends live) {r s : Register} (hr : r ∈ live.handles)
    (hs : s ∈ live.handles) (hname : r.name = s.name) : r = s :=
  ((h.inUse r).1 hr).eq_of_name ((h.inUse s).1 hs) hname

/-- No two live handles are of the same register. -/
theorem nodup_names (h : p.Lends live) : (live.handles.map Register.name).Nodup :=
  h.nodup.map_on fun _ hr _ hs => h.eq_of_name hr hs

end Lends

end Pool

namespace Assembly

variable (t : Target)

/-- Either all registers are in use, and the load changes nothing, or it fills the first hole. -/
theorem load_cases (value : Int64) (a : Assembly) :
    (a.load t value = (.error (.register .exhausted), a) ∧ a.pool.allocated = a.pool.size) ∨
      ∃ r, a.load t value =
          (.ok r, ⟨a.pool.mark r.index false, a.listing ++ t.load r.name value⟩) ∧
        a.pool.slots[r.index]? = some ⟨r.name, true⟩ ∧ a.pool.allocated ≠ a.pool.size := by
  rcases a.pool.allocate_cases with ⟨hallocate, hused⟩ | ⟨r, hallocate, hfree, -⟩
  · left
    rw [load, hallocate]
    exact ⟨rfl, a.pool.allocated_eq_size_iff.2 hused⟩
  · right
    refine ⟨r, ?_, hfree, fun hsize => ?_⟩
    · rw [load, hallocate]
      rfl
    · have hused := a.pool.allocated_eq_size_iff.1 hsize _ (List.mem_of_getElem? hfree)
      cases hused

/-- An operation that the target has succeeds whenever its right operand is in use. -/
theorem arith_of_inUse {op : BinOp} {lines : String → String → List String}
    (hop : t.arith op = some lines) {a : Assembly} {right : Register} (hr : a.pool.InUse right)
    (left : Register) :
    a.arith t op left right =
      (.ok left, ⟨a.pool.mark right.index true, a.listing ++ lines left.name right.name⟩) := by
  have hrelease : (a.append (lines left.name right.name)).pool.release right =
      .ok (a.pool.mark right.index true) := hr.release
  rw [arith, hop]
  simp only [hrelease]
  rfl

end Assembly

/-- The states that loads and operations lead to, in any order, from a new assembly with the given
registers; and the handles that are live there. -/
inductive Reached (t : Target) (names : List String) : Assembly → Live → Prop where
  | start : Reached t names (.start t (some names)) []
  | load {a : Assembly} {live : Live} (h : Reached t names a live) (value : Int64) :
      Reached t names (a.load t value).2 (live.load value (a.load t value).1)
  | arith {a : Assembly} {live : Live} (h : Reached t names a live) (op : BinOp)
      {left right : Register} {e e' : Expr} (hl : (left, e) ∈ live) (hr : (right, e') ∈ live)
      (hne : left ≠ right) :
      Reached t names (a.arith t op left right).2 (live.combine left right (.binary op e e'))

namespace Reached

variable {t : Target} {names : List String} {a : Assembly} {live : Live}

theorem names_eq (h : Reached t names a live) : a.pool.names = names.eraseDups := by
  induction h with
  | start => exact Pool.names_ofNames names
  | load _ value ih => exact (Assembly.names_load t value _).trans ih
  | arith _ op _ _ _ ih => exact (Assembly.names_arith t op _ _ _).trans ih

theorem size_eq (h : Reached t names a live) : a.pool.size = names.eraseDups.length := by
  rw [← h.names_eq, Pool.names, List.length_map]
  rfl

/-- On a target that has all operations, the pool has lent the live handles and no others. -/
theorem lends (ht : ∀ op, ∃ lines, t.arith op = some lines) (h : Reached t names a live) :
    a.pool.Lends live := by
  induction h with
  | start => exact .ofNames names
  | @load a live _ value ih =>
    rcases a.load_cases t value with ⟨hload, -⟩ | ⟨r, hload, hfree, -⟩
    · rw [hload]
      exact ih
    · rw [hload]
      exact ih.mark_false hfree (.literal value)
  | @arith a live _ op left right e e' hl hr hne ih =>
    obtain ⟨lines, hop⟩ := ht op
    have hinUse := (ih.inUse right).1 (Live.mem_handles hr)
    rw [Assembly.arith_of_inUse t hop hinUse]
    exact ih.mark_true (Live.mem_handles hl) (Live.mem_handles hr) hne _

end Reached

end ArithCompiler

import ArithCompiler.Proofs.Codegen.Handles
import ArithCompiler.Proofs.Target.AArch64
import ArithCompiler.Proofs.Target.X8664

/-! # Code emitted in any order

Loads and operations need not follow the post-order of one tree. Whatever their order, the lines
emitted so far leave the value of its tree in the register of every live handle. The argument is the
same for both machines: an operation writes one register only, and no other live handle is of that
register.
-/

namespace ArithCompiler

namespace Expr

/-- Whether some division of the tree has no 64-bit quotient, with all values in wrapping
arithmetic. -/
def faults : Expr → Bool
  | literal _ => false
  | binary op left right =>
    left.faults || right.faults ||
      decide (op = .div ∧
        (right.wrapped = 0 ∨ left.wrapped = Int64.minValue ∧ right.wrapped = -1))

/-- A machine that faults on such divisions has the wrapping value of every other tree. -/
theorem evalWith_trap? (e : Expr) :
    e.evalWith BinOp.trap? = if e.faults then none else some e.wrapped := by
  induction e with
  | literal value => rfl
  | binary op left right ihl ihr =>
    rw [evalWith, ihl, ihr, faults, wrapped]
    by_cases hl : left.faults
    · simp [hl]
    · by_cases hr : right.faults
      · simp [hl, hr]
      · simp [hl, hr, BinOp.trap?]

end Expr

namespace Machine

variable {ι : Type} (step : ι → Registers → Except Stop Registers)
  (apply : BinOp → Int64 → Int64 → Option Int64)

/-- What code does for the live handles: either each of their registers holds the value of its tree,
or the machine stops with a divide error and one of the trees has no value. -/
def Serves (code : List ι) (live : Live) (regs : Registers) : Prop :=
  (∃ regs', run step code regs = .ok regs' ∧
    ∀ p ∈ live, p.2.evalWith apply = some (regs' p.1.name)) ∨
  run step code regs = .error .divideError ∧ ∃ p ∈ live, p.2.evalWith apply = none

variable {step apply} {load : String → Int64 → List ι} {arith : BinOp → String → String → List ι}
  {code : List ι} {p : Pool} {live : Live} {regs : Registers}

/-- A constant goes into a register of which there was no live handle. -/
theorem Serves.append_load (hs : Serves step apply code live regs)
    (himp : Implements step load arith apply p.names) {r : Register} {value : Int64}
    (hlends : p.Lends ((r, .literal value) :: live)) :
    Serves step apply (code ++ load r.name value) ((r, .literal value) :: live) regs := by
  rcases hs with ⟨regs₁, hrun, hvalues⟩ | ⟨hrun, q, hq, hnone⟩
  · left
    have hr : r.name ∈ p.names := hlends.mem_names (Live.mem_handles List.mem_cons_self)
    have hfresh : r.name ∉ live.handles.map Register.name :=
      (List.nodup_cons.1 hlends.nodup_names).1
    obtain ⟨regs₂, hload, hvalue, hkept⟩ := himp.load r.name hr value regs₁
    refine ⟨regs₂, (run_append_of_ok step hrun _).trans hload, ?_⟩
    intro q hq
    have hmem := hlends.mem_names (Live.mem_handles hq)
    rcases List.mem_cons.1 hq with rfl | hq
    · rw [Expr.evalWith, hvalue]
    · have hne : q.1.name ≠ r.name := fun h => hfresh (List.mem_map.2 ⟨q.1, Live.mem_handles hq, h⟩)
      rw [hkept q.1.name hmem hne, hvalues q hq]
  · right
    exact ⟨run_append_of_error step hrun _, q, List.mem_cons_of_mem _ hq, hnone⟩

/-- An operation changes the register of its left handle alone. A tree that had no value before is
either still there or a part of the new one. -/
theorem Serves.append_arith (hs : Serves step apply code live regs)
    (himp : Implements step load arith apply p.names) (hlends : p.Lends live)
    {left right : Register} {e e' : Expr} (hl : (left, e) ∈ live) (hr : (right, e') ∈ live)
    (hne : left ≠ right) (op : BinOp) :
    Serves step apply (code ++ arith op left.name right.name)
      (live.combine left right (.binary op e e')) regs := by
  have hl' := Live.mem_handles hl
  have hr' := Live.mem_handles hr
  rcases hs with ⟨regs₁, hrun, hvalues⟩ | ⟨hrun, q, hq, hnone⟩
  · have hname : left.name ≠ right.name := fun h => hne (hlends.eq_of_name hl' hr' h)
    have hleaves := himp.arith op left.name (hlends.mem_names hl') right.name
      (hlends.mem_names hr') hname regs₁
    have heval : (Expr.binary op e e').evalWith apply =
        apply op (regs₁ left.name) (regs₁ right.name) := by
      rw [Expr.evalWith, hvalues _ hl, hvalues _ hr]
    rw [← heval] at hleaves
    cases hv : (Expr.binary op e e').evalWith apply with
    | none =>
      rw [hv] at hleaves
      right
      exact ⟨(run_append_of_ok step hrun _).trans hleaves, _, List.mem_cons_self, hv⟩
    | some v =>
      rw [hv] at hleaves
      obtain ⟨regs₂, hop, hvalue, hkept⟩ := hleaves
      left
      refine ⟨regs₂, (run_append_of_ok step hrun _).trans hop, ?_⟩
      intro q hq
      rcases List.mem_cons.1 hq with rfl | hq
      · rw [hv, hvalue]
      · obtain ⟨hq, hother⟩ := List.mem_filter.1 hq
        have hq' := Live.mem_handles hq
        have hkeep : q.1.name ≠ left.name := by
          intro h
          simp [hlends.eq_of_name hq' hl' h] at hother
        rw [hkept q.1.name (hlends.mem_names hq') hkeep, hvalues q hq]
  · right
    refine ⟨run_append_of_error step hrun _, ?_⟩
    -- The tree without a value may be that of an operand, and is then a part of the new tree.
    by_cases hql : q.1 = left
    · refine ⟨_, List.mem_cons_self, ?_⟩
      rw [List.inj_on_of_nodup_map hlends.nodup hq hl hql] at hnone
      rw [Expr.evalWith, hnone]
    · by_cases hqr : q.1 = right
      · refine ⟨_, List.mem_cons_self, ?_⟩
        rw [List.inj_on_of_nodup_map hlends.nodup hq hr hqr] at hnone
        rw [Expr.evalWith, hnone]
        split <;> rfl
      · exact ⟨q, List.mem_cons_of_mem _ (List.mem_filter.2 ⟨hq, by simp [hql, hqr]⟩), hnone⟩

theorem Writes.arith_some {t : Target} {text : ι → String} (h : Writes t text load arith)
    (op : BinOp) : ∃ lines, t.arith op = some lines :=
  ⟨_, h.arith op⟩

/-- After loads and operations in any order, the lines are the texts of instructions that serve the
live handles, from any register contents. -/
theorem Writes.serves {t : Target} {text : ι → String} (h : Writes t text load arith)
    {P : ι → Prop} {names : List String} (himp : Implements step load arith apply names.eraseDups)
    (hload : ∀ dst ∈ names.eraseDups, ∀ value, ∀ i ∈ load dst value, P i)
    (harith : ∀ op, ∀ left ∈ names.eraseDups, ∀ right ∈ names.eraseDups,
      ∀ i ∈ arith op left right, P i)
    {a : Assembly} (hreached : Reached t names a live) :
    ∃ instrs : List ι, a.listing.toList = instrs.map text ∧ (∀ i ∈ instrs, P i) ∧
      ∀ regs, Serves step apply instrs live regs := by
  induction hreached with
  | start => exact ⟨[], rfl, by simp, fun regs => .inl ⟨regs, rfl, by simp⟩⟩
  | @load a live hreached value ih =>
    obtain ⟨instrs, hlisting, hP, hserves⟩ := ih
    -- That the new register is not one of a live handle is known of the state after the load.
    have hnext := hreached.load value
    rcases a.load_cases t value with ⟨heq, -⟩ | ⟨r, heq, -, -⟩
    · rw [heq]
      exact ⟨instrs, hlisting, hP, hserves⟩
    · rw [heq] at hnext ⊢
      have hlends := hnext.lends h.arith_some
      have hr := hlends.mem_names (Live.mem_handles List.mem_cons_self)
      rw [← hnext.names_eq] at himp hload
      refine ⟨instrs ++ load r.name value, ?_, ?_, fun regs => ?_⟩
      · simp [hlisting, h.load]
      · exact List.forall_mem_append.2 ⟨hP, hload r.name hr value⟩
      · exact (hserves regs).append_load himp hlends
  | @arith a live hreached op left right e e' hl hr hne ih =>
    obtain ⟨instrs, hlisting, hP, hserves⟩ := ih
    have hlends := hreached.lends h.arith_some
    have hl' := hlends.mem_names (Live.mem_handles hl)
    have hr' := hlends.mem_names (Live.mem_handles hr)
    rw [← hreached.names_eq] at himp harith
    rw [Assembly.arith_of_inUse t (h.arith op) ((hlends.inUse right).1 (Live.mem_handles hr))]
    refine ⟨instrs ++ arith op left.name right.name, ?_, ?_, fun regs => ?_⟩
    · simp [hlisting]
    · exact List.forall_mem_append.2 ⟨hP, harith op _ hl' _ hr'⟩
    · exact (hserves regs).append_arith himp hlends hl hr hne op

end Machine

open Machine Layout

/-- The registers that the code of a target uses beside those of the pool. -/
def Arch.reserved : Arch → List String
  | aarch64 => []
  | x8664 => ["rax", "rdx"]

/-- What lines do for the live handles. They read back as instructions, and from any register
contents these leave the wrapping value of its tree in the register of every handle. On x86-64 they
end in a divide error instead exactly when a division of one of the trees has no 64-bit quotient. -/
def Arch.Computes : Arch → List String → Live → Prop
  | aarch64, lines, live =>
    ∃ instrs, lines.mapM AArch64.read? = some instrs ∧
      ∀ regs, ∃ regs', run AArch64.step instrs regs = .ok regs' ∧
        ∀ p ∈ live, regs' p.1.name = p.2.wrapped
  | x8664, lines, live =>
    ∃ instrs, lines.mapM X8664.read? = some instrs ∧
      ∀ regs,
        if ∃ p ∈ live, p.2.faults then run X8664.step instrs regs = .error .divideError
        else ∃ regs', run X8664.step instrs regs = .ok regs' ∧
          ∀ p ∈ live, regs' p.1.name = p.2.wrapped

theorem AArch64.computes_reached {names : List String} (hnames : ∀ name ∈ names, IsName name)
    {a : Assembly} {live : Live} (h : Reached target names a live) :
    Arch.aarch64.Computes a.listing.toList live := by
  have hpool : ∀ name ∈ names.eraseDups, IsName name :=
    fun name hname => hnames name (List.mem_eraseDups.1 hname)
  obtain ⟨instrs, hlisting, hcomputes, hserves⟩ := writes_target.serves (implements _)
    (fun dst hd => load_computes (hpool dst hd))
    (fun op left hl right hr => arith_computes op (hpool left hl) (hpool right hr)) h
  refine ⟨instrs, ?_, fun regs => ?_⟩
  · rw [hlisting]
    exact mapM_map_text fun i hi => read?_text i (hcomputes i hi).1 (hcomputes i hi).2
  · simp only [Serves, Expr.evalWith_wrap] at hserves
    rcases hserves regs with ⟨regs', hrun, hvalues⟩ | ⟨-, p, -, hnone⟩
    · exact ⟨regs', hrun, fun p hp => (Option.some.inj (hvalues p hp)).symm⟩
    · cases hnone

theorem X8664.computes_reached {names : List String}
    (hnames : ∀ name ∈ names, IsName name ∧ name ≠ "rax" ∧ name ≠ "rdx")
    {a : Assembly} {live : Live} (h : Reached target names a live) :
    Arch.x8664.Computes a.listing.toList live := by
  have hpool : ∀ name ∈ names.eraseDups, IsName name ∧ name ≠ "rax" ∧ name ≠ "rdx" :=
    fun name hname => hnames name (List.mem_eraseDups.1 hname)
  obtain ⟨instrs, hlisting, hcomputes, hserves⟩ := writes_target.serves
    (implements fun name hname => (hpool name hname).2)
    (fun dst hd => load_computes (hpool dst hd).1)
    (fun op left hl right hr => arith_computes op (hpool left hl).1 (hpool right hr).1) h
  refine ⟨instrs, ?_, fun regs => ?_⟩
  · rw [hlisting]
    exact mapM_map_text fun i hi => read?_text i (hcomputes i hi).1 (hcomputes i hi).2
  · simp only [Serves, Expr.evalWith_trap?] at hserves
    rcases hserves regs with ⟨regs', hrun, hvalues⟩ | ⟨hrun, p, hp, hnone⟩
    · rw [if_neg]
      · refine ⟨regs', hrun, fun p hp => ?_⟩
        have hp := hvalues p hp
        split at hp
        · cases hp
        · exact (Option.some.inj hp).symm
      · rintro ⟨p, hp, hfaults⟩
        simpa [hfaults] using hvalues p hp
    · rw [if_pos]
      · exact hrun
      · exact ⟨p, hp, by simpa using hnone⟩

/-- Emitting is correct in any order. After any loads and operations on live handles, an operation
on two different live handles succeeds and returns the left one; a load fails exactly when there are
as many live handles as registers, and then changes nothing; no two live handles are of the same
register; and the lines so far compute the values of all live handles. -/
theorem Arch.reached_computes (arch : Arch) (names : List String)
    (hnames : ∀ name ∈ names, IsName name ∧ name ∉ arch.reserved) (a : Assembly) (live : Live)
    (h : Reached arch.target names a live) :
    (∀ op, ∀ left ∈ live.handles, ∀ right ∈ live.handles, left ≠ right →
        (a.arith arch.target op left right).1 = .ok left) ∧
      (∀ value,
        if live.length = names.eraseDups.length then
          a.load arch.target value = (.error (.register .exhausted), a)
        else ∃ r, (a.load arch.target value).1 = .ok r) ∧
      (live.handles.map Register.name).Nodup ∧
      arch.Computes a.listing.toList live := by
  have htotal : ∀ op, ∃ lines, arch.target.arith op = some lines := fun op =>
    Option.ne_none_iff_exists'.1 (arch.arith_ne_none op)
  have hlends := h.lends htotal
  refine ⟨?_, ?_, hlends.nodup_names, ?_⟩
  · intro op left _ right hr _
    obtain ⟨lines, hop⟩ := htotal op
    rw [Assembly.arith_of_inUse arch.target hop ((hlends.inUse right).1 hr)]
  · intro value
    rw [hlends.length, ← h.size_eq]
    rcases a.load_cases arch.target value with ⟨hload, hfull⟩ | ⟨r, hload, -, hroom⟩
    · rw [if_pos hfull]
      exact hload
    · rw [if_neg hroom, hload]
      exact ⟨r, rfl⟩
  · cases arch with
    | aarch64 => exact AArch64.computes_reached (fun name hname => (hnames name hname).1) h
    | x8664 =>
      refine X8664.computes_reached (fun name hname => ?_) h
      simpa [Arch.reserved] using hnames name hname

/-- The first of three handles is given back first, a load fills the hole, and the second handle
divides what was loaded there. -/
theorem Arch.reached_computes_hole :
    ∃ (a : Assembly) (instrs : List X8664.Instr), a.pool.names = ["rbx", "r12", "r13"] ∧
      a.listing.toList.mapM X8664.read? = some instrs ∧
      ∀ regs, ∃ regs', run X8664.step instrs regs = .ok regs' ∧
        regs' "rbx" = -50 ∧ regs' "r13" = -2 := by
  have hloaded : Reached X8664.target ["rbx", "r12", "r13"] _
      [(⟨2, "r13"⟩, .literal 5), (⟨1, "r12"⟩, .literal (-2)), (⟨0, "rbx"⟩, .literal 7)] :=
    ((Reached.start.load 7).load (-2)).load 5
  have hhole : Reached X8664.target ["rbx", "r12", "r13"] _
      [(⟨0, "rbx"⟩, .literal 100), (⟨2, "r13"⟩, .binary .sub (.literal 5) (.literal 7)),
        (⟨1, "r12"⟩, .literal (-2))] :=
    (hloaded.arith .sub (List.mem_of_getElem? (i := 0) rfl) (List.mem_of_getElem? (i := 2) rfl)
      (by decide)).load 100
  have hdivided : Reached X8664.target ["rbx", "r12", "r13"] _
      [(⟨0, "rbx"⟩, .binary .div (.literal 100) (.literal (-2))),
        (⟨2, "r13"⟩, .binary .sub (.literal 5) (.literal 7))] :=
    hhole.arith .div (List.mem_of_getElem? (i := 0) rfl) (List.mem_of_getElem? (i := 2) rfl)
      (by decide)
  obtain ⟨-, -, -, instrs, hread, hrun⟩ := Arch.reached_computes .x8664 _ (by decide) _ _ hdivided
  refine ⟨_, instrs, hdivided.names_eq, hread, fun regs => ?_⟩
  have h := hrun regs
  rw [if_neg (by decide)] at h
  obtain ⟨regs', hok, hvalues⟩ := h
  exact ⟨regs', hok, hvalues _ (List.mem_of_getElem? (i := 0) rfl),
    hvalues _ (List.mem_of_getElem? (i := 1) rfl)⟩

end ArithCompiler

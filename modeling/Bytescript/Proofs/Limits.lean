/-
What instructions may refer to.

While code is compiled, the pool and the tables of names grow, and code may refer to whatever there
is. `Limits` says how much that is, and `Instruction.Proper` that an instruction keeps to it; what
is proper stays proper when there is more to refer to. `FunctionCode.Checked` says of the code of a
function that it is balanced and proper throughout, and `CompilerState.Valid` that all functions of
the pool are.

Design notes: numbers of slots are compared with the widths of operands only when a function or the
program is complete, so being proper does not mean that all operands can be written.
-/
import Bytescript.Proofs.Balance
import Bytescript.Proofs.Compiling

namespace Bytescript

/-! ### What instructions may refer to -/

/-- The constants, and the numbers of globals, locals and captured values that exist. -/
structure Limits where
  pool : List Constant
  globals : Nat
  locals : Nat
  captures : Nat
  /-- Is there a running closure that has a name? -/
  inFunction : Bool

/-- There is more to refer to in `b` than in `a`, in the same places. -/
structure Limits.Le (a b : Limits) : Prop where
  pool : a.pool <+: b.pool
  globals : a.globals ≤ b.globals
  locals : a.locals ≤ b.locals
  captures : a.captures ≤ b.captures
  inFunction : a.inFunction = b.inFunction

namespace Limits.Le

variable {a b c : Limits}

protected theorem refl (a : Limits) : a.Le a :=
  ⟨List.prefix_rfl, Nat.le_refl _, Nat.le_refl _, Nat.le_refl _, rfl⟩

protected theorem trans (h : a.Le b) (h' : b.Le c) : a.Le c where
  pool := h.pool.trans h'.pool
  globals := Nat.le_trans h.globals h'.globals
  locals := Nat.le_trans h.locals h'.locals
  captures := Nat.le_trans h.captures h'.captures
  inFunction := h.inFunction.trans h'.inFunction

theorem getElem? (h : a.Le b) {n : Nat} {c : Constant} (hc : a.pool[n]? = some c) :
    b.pool[n]? = some c := by
  obtain ⟨hn, rfl⟩ := List.getElem?_eq_some_iff.mp hc
  exact List.prefix_iff_getElem?.mp h.pool n hn

end Limits.Le

/-- The code of a function reads only `count` captured values. -/
def FunctionCode.Reads (count : Nat) (f : FunctionCode) : Prop :=
  ∃ is, f.code.bytes.toList = encodeAll is ∧
    ∀ i ∈ is, i.value.opcode = .getFree → ∃ n, i.value.operands = [n] ∧ n < count

/-- The instruction has the operands it needs, and they refer to what there is. Where a jump goes
depends on the code around it. -/
inductive Instruction.Proper (l : Limits) : Instruction → Prop where
  | constant {n : Nat} {c : Constant} : n ≤ Compile.maxWide → l.pool[n]? = some c →
      (∀ f, c ≠ .function f) → Proper l ⟨.constant, [n]⟩
  | closure {n count : Nat} {f : FunctionCode} : n ≤ Compile.maxWide → count ≤ Compile.maxNarrow →
      l.pool[n]? = some (.function f) → f.Reads count → Proper l ⟨.closure, [n, count]⟩
  | global {op : Opcode} {n : Nat} : op = .getGlobal ∨ op = .setGlobal ∨ op = .assignGlobal →
      n < l.globals → Proper l ⟨op, [n]⟩
  | slot {op : Opcode} {n : Nat} : op = .getLocal ∨ op = .setLocal ∨ op = .assignLocal →
      n < l.locals → Proper l ⟨op, [n]⟩
  | captured {n : Nat} : n < l.captures → Proper l ⟨.getFree, [n]⟩
  | builtin {n : Nat} {b : Builtin} : Builtin.ofIndex? n = some b → Proper l ⟨.getBuiltin, [n]⟩
  | self : l.inFunction = true → Proper l ⟨.currentClosure, []⟩
  | array {n : Nat} : n ≤ Compile.maxWide → Proper l ⟨.array, [n]⟩
  | hash {n : Nat} : 2 * n ≤ Compile.maxWide → Proper l ⟨.hash, [2 * n]⟩
  | call {n : Nat} : n ≤ Compile.maxNarrow → Proper l ⟨.call, [n]⟩
  | jump {op : Opcode} (target : Nat) : op.isJump = true → Proper l ⟨op, [target]⟩
  | simple {op : Opcode} : op.operandWidths = [] → op ≠ .currentClosure → Proper l ⟨op, []⟩

theorem Instruction.Proper.mono {a b : Limits} {i : Instruction} (hi : i.Proper a) (h : a.Le b) :
    i.Proper b := by
  cases hi with
  | constant hn hc hf => exact .constant hn (h.getElem? hc) hf
  | closure hn hcount hf hreads => exact .closure hn hcount (h.getElem? hf) hreads
  | global hop hn => exact .global hop (Nat.lt_of_lt_of_le hn h.globals)
  | slot hop hn => exact .slot hop (Nat.lt_of_lt_of_le hn h.locals)
  | captured hn => exact .captured (Nat.lt_of_lt_of_le hn h.captures)
  | builtin hb => exact .builtin hb
  | self hself => exact .self (h.inFunction ▸ hself)
  | array hn => exact .array hn
  | hash hn => exact .hash hn
  | call hn => exact .call hn
  | jump target hop => exact .jump target hop
  | simple hop hne => exact .simple hop hne

/-- Jumps stay proper when the code is moved. -/
theorem Instruction.Proper.moved {l : Limits} {i : Instruction} (hi : i.Proper l)
    (distance : Nat) : (i.moved distance).Proper l := by
  cases hjump : i.opcode.isJump with
  | false => rwa [moved_of_not_isJump _ hjump]
  | true =>
    cases hi with
    | jump target hop =>
      rw [Instruction.moved, if_pos hjump]
      exact .jump _ hop
    | simple hop hne =>
      rw [Instruction.moved, if_pos hjump]
      exact .simple hop hne
    | global hop | slot hop => rcases hop with rfl | rfl | rfl <;> cases hjump
    | constant | closure | captured | builtin | self | array | hash | call => cases hjump

/-- The targets of jumps are small enough to be written, after they are moved. -/
def TargetsFit (distance : Nat) (is : List (Located Instruction)) : Prop :=
  ∀ i ∈ is, i.value.opcode.isJump = true → ∀ t ∈ i.value.operands, t + distance ≤ Compile.maxWide

namespace TargetsFit

variable {distance distance' : Nat} {is js : List (Located Instruction)}

theorem nil : TargetsFit distance [] := by simp [TargetsFit]

theorem append (h : TargetsFit distance is) (h' : TargetsFit distance js) :
    TargetsFit distance (is ++ js) := by
  intro i hi
  rcases List.mem_append.mp hi with hi | hi
  · exact h i hi
  · exact h' i hi

theorem singleton {i : Located Instruction}
    (h : i.value.opcode.isJump = true → ∀ t ∈ i.value.operands, t + distance ≤ Compile.maxWide) :
    TargetsFit distance [i] := by
  intro j hj
  rwa [List.mem_singleton.mp hj]

theorem moved (h : TargetsFit (distance' + distance) is) :
    TargetsFit distance (moved distance' is) := by
  intro i hi hjump t ht
  obtain ⟨j, hj, rfl⟩ := List.mem_map.mp hi
  rw [Instruction.opcode_moved] at hjump
  rw [Instruction.operands_moved _ hjump, List.mem_map] at ht
  obtain ⟨t, ht, rfl⟩ := ht
  have := h j hj hjump t ht
  omega

end TargetsFit

/-! ### Functions of the pool -/

/-- The code of a function that captures `count` values is balanced and refers to what there is,
and all numbers in it are small enough to be written. -/
structure FunctionCode.Checked (pool : List Constant) (globals count : Nat) (f : FunctionCode) :
    Prop where
  params : f.params ≤ f.locals
  locals : f.locals ≤ Compile.maxNarrow + 1
  captures : count ≤ Compile.maxNarrow
  body : ∃ is, f.code.bytes.toList = encodeAll is ∧ Balanced is ∧
    (∀ i ∈ is, i.value.Proper ⟨pool, globals, f.locals, count, true⟩) ∧ TargetsFit 0 is

theorem FunctionCode.Checked.mono {pool pool' : List Constant} {globals globals' count : Nat}
    {f : FunctionCode} (h : f.Checked pool globals count) (hpool : pool <+: pool')
    (hglobals : globals ≤ globals') : f.Checked pool' globals' count where
  params := h.params
  locals := h.locals
  captures := h.captures
  body := by
    obtain ⟨is, hbytes, hbalanced, hproper, hjumps⟩ := h.body
    refine ⟨is, hbytes, hbalanced, fun i hi => (hproper i hi).mono ?_, hjumps⟩
    exact ⟨hpool, hglobals, Nat.le_refl _, Nat.le_refl _, rfl⟩

theorem FunctionCode.Checked.reads {pool : List Constant} {globals count : Nat} {f : FunctionCode}
    (h : f.Checked pool globals count) : f.Reads count := by
  obtain ⟨is, hbytes, -, hproper, -⟩ := h.body
  refine ⟨is, hbytes, fun i hi hop => ?_⟩
  have hi := hproper i hi
  generalize i.value = i at hi hop
  cases hi with
  | @captured n hlt => exact ⟨n, rfl, hlt⟩
  | simple hop' => subst hop; cases hop'
  | global hop' | slot hop' => subst hop; simp at hop'
  | jump _ hop' => subst hop; cases hop'
  | constant | closure | builtin | self | array | hash | call => cases hop

namespace CompilerState

/-- What code that is compiled now may refer to. -/
def limits (st : CompilerState) : Limits where
  pool := st.constants.toList
  globals := st.scopes.root.definitions
  locals := if st.scopes.isGlobal then 0 else st.scopes.current.definitions
  captures := st.scopes.current.captures.size
  inFunction := !st.scopes.isGlobal

/-- The names are in order and all functions of the pool are checked. -/
structure Valid (st : CompilerState) : Prop where
  sound : st.scopes.Sound
  functions : ∀ f, .function f ∈ st.constants.toList →
    ∃ count, f.Checked st.constants.toList st.scopes.root.definitions count

theorem valid_init : Valid {} :=
  ⟨Scopes.sound_init, fun f hf => by simp at hf⟩

end CompilerState

theorem Scopes.Linked.root_sound {t : ScopeTable} {outer : List ScopeTable}
    (h : Scopes.Linked t outer) : (outer.getLastD t).Sound := by
  induction h with
  | root ht _ => exact ht
  | inner _ _ _ _ ih => rwa [List.getLastD_cons]

namespace Compile

variable {st st₁ st₂ : CompilerState}

/-- What there is to refer to grows with the tables and the pool. -/
theorem limits_le {declared : List String} {mentioned mentioned' : String → Prop}
    (hcurrent : st.scopes.current.Grows declared mentioned st₁.scopes.current)
    (houter : Scopes.Captures mentioned' st.scopes.outer st₁.scopes.outer)
    (hconstants : st.constants.toList <+: st₁.constants.toList) : st.limits.Le st₁.limits := by
  obtain ⟨_, hroot⟩ := houter.getLastD ⟨_, hcurrent.mono (.refl _) fun _ _ _ => trivial⟩
  have hglobal : st.scopes.isGlobal = st₁.scopes.isGlobal := by
    rw [Scopes.isGlobal, Scopes.isGlobal]
    generalize st.scopes.outer = outer at houter
    generalize st₁.scopes.outer = outer₁ at houter
    cases houter <;> rfl
  refine ⟨hconstants, ?_, ?_, ?_, ?_⟩
  · have := hroot.definitions
    show st.scopes.root.definitions ≤ st₁.scopes.root.definitions
    rw [Scopes.root, Scopes.root]
    omega
  · have := hcurrent.definitions
    simp only [CompilerState.limits, hglobal]
    split <;> omega
  · simpa [CompilerState.limits] using hcurrent.captures.length_le
  · simp only [CompilerState.limits, hglobal]

theorem Advances.limits {declared mentioned : List String}
    (h : Advances declared mentioned st st₁) : st.limits.Le st₁.limits :=
  limits_le h.scopes.current h.scopes.outer h.constants

/-- A state stays valid when it grows, if all functions that are added are checked. -/
theorem valid_of_le (hst : st.Valid) (hsound : st₁.scopes.Sound) (hle : st.limits.Le st₁.limits)
    (hnew : ∀ f, .function f ∈ st₁.constants.toList → .function f ∈ st.constants.toList ∨
      ∃ count, f.Checked st₁.constants.toList st₁.scopes.root.definitions count) : st₁.Valid := by
  refine ⟨hsound, fun f hf => ?_⟩
  rcases hnew f hf with hold | hchecked
  · obtain ⟨count, hchecked⟩ := hst.functions f hold
    exact ⟨count, hchecked.mono hle.pool hle.globals⟩
  · exact hchecked

end Compile

end Bytescript

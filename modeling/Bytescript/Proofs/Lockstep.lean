/-
Machines stay in step.

Main statements: `Passage.Lockstep.step`, which goes through the instructions one by one, and
`Passage.Lockstep.run`. Wherever the first machine gets, the second one follows, with alike values.
The pairing of numbers grows when closures are made.
-/
import Bytescript.Proofs.Passages

namespace Bytescript

namespace Passage

open Value Machine

variable {S : Passage} {ι : Nat → Nat → Prop}

/-! ### What the turns have in common -/

section

variable {m M : Machine Console Value} {v w : Value}

theorem followed_halt (result : Outcome Value × Machine Console Value)
    (second : Turn Console Value) : S.Followed (.halt result) second := by
  intro m hm
  cases hm

theorem followed_next (h : S.Lockstep ι m M) : S.Followed (.next m) (.next M) := by
  intro m' hm'
  cases hm'
  exact ⟨ι, M, rfl, h⟩

theorem followed_pushing (h : S.Shared ι m M)
    (hframes : S.Paired ι m.frames M.frames (m.stack.size + 1)) (hv : Alike (S.Same ι) v w) :
    S.Followed (pushing m v) (pushing M w) := by
  have hroom' : M.stack.size < M.config.stackSize ↔ m.stack.size < m.config.stackSize := by
    rw [h.size_eq, h.config, h.config']
  rw [pushing, pushing]
  by_cases hroom : m.stack.size < m.config.stackSize
  · rw [if_pos hroom, if_pos (hroom'.mpr hroom)]
    refine followed_next ⟨h.withStack ?_, ?_⟩
    · rw [Array.toList_push, Array.toList_push]
      exact List.rel_append h.stack (.cons hv .nil)
    · rw [Array.size_push, Int.natCast_add]
      exact hframes
  · rw [if_neg hroom]
    exact followed_halt _ _

theorem followed_yielding (h : S.Shared ι m M)
    (hframes : S.Paired ι m.frames M.frames (m.stack.size + 1))
    {first second : Except Fault Value} (hresult : Value.Follows (S.Same ι) first second) :
    S.Followed (yielding m first) (yielding M second) := by
  cases first with
  | error fault => exact followed_halt _ _
  | ok v =>
    obtain ⟨w, rfl, hv⟩ := hresult v rfl
    exact followed_pushing h hframes hv

end

namespace Fetched

variable {site : Site} {i : Instruction} {m m₁ M M₁ : Machine Console Value}

/-- Only jumps are different in the second machine. -/
theorem fetches_same (h : S.Fetched ι site i m M m₁ M₁) (hjump : i.opcode.isJump = false) :
    M.Fetches i M₁ := by
  have hfetches' := h.fetches'
  rwa [Instruction.moved_of_not_isJump _ hjump] at hfetches'

/-- The values that the instruction takes lie on top of the stack. -/
theorem split (h : S.Fetched ι site i m M m₁ M₁) :
    ∃ stack stack' top top', m₁.stack = (stack ++ top).toArray ∧
      M₁.stack = (stack' ++ top').toArray ∧ top.length = i.pops ∧
      List.Forall₂ (Alike (S.Same ι)) top top' ∧ site.floor ≤ stack.length ∧
      S.Shared ι { m₁ with stack := stack.toArray } { M₁ with stack := stack'.toArray } ∧
      S.Paired ι m₁.frames M₁.frames (stack.toArray.size + i.pushes) := by
  have hpops := h.pops
  have hnext := h.next
  have hstack := h.shared.stack
  have hlength : m₁.stack.toList.length = m₁.stack.size := Array.length_toList
  -- both stacks are cut at the same height, where the operands begin
  generalize hn : m₁.stack.size - i.pops = n
  refine ⟨m₁.stack.toList.take n, M₁.stack.toList.take n, m₁.stack.toList.drop n,
    M₁.stack.toList.drop n, by simp, by simp, ?_, List.forall₂_drop n hstack, ?_,
    h.shared.withStack (List.forall₂_take n hstack), ?_⟩
  · rw [List.length_drop]
    omega
  · rw [List.length_take]
    omega
  · have hheight : (((m₁.stack.toList.take n).toArray.size : Nat) : Int) + i.pushes =
        m₁.stack.size - i.pops + i.pushes := by
      rw [List.size_toArray, List.length_take]
      omega
    rw [hheight]
    exact hnext

/-- An instruction that finds a value and pushes it. -/
theorem push (h : S.Fetched ι site i m M m₁ M₁)
    (hpops : i.pops = 0) (hpushes : i.pushes = 1) {v w : Value} (hv : Alike (S.Same ι) v w) :
    S.Followed (pushing m₁ v) (pushing M₁ w) := by
  have hnext := h.next
  rw [hpops, hpushes, Int.natCast_zero, Int.sub_zero] at hnext
  exact followed_pushing h.shared hnext hv

end Fetched

/-! ### One instruction after the other -/

namespace Fetched

variable {site : Site} {m m₁ M M₁ : Machine Console Value} {op : Opcode} {n : Nat}

theorem constant {c : Constant} (h : S.Fetched ι site ⟨.constant, [n]⟩ m M m₁ M₁)
    (hc : site.limits.pool[n]? = some c) (hf : ∀ f, c ≠ .function f) :
    S.Followed (turn nativeHost m) (turn nativeHost M) := by
  rw [h.pool] at hc
  obtain ⟨identity, hv⟩ := h.shared.constants hc
  obtain ⟨identity', hw⟩ := h.shared.constants' hc
  rw [turn_constant h.fetches hv, turn_constant h.fetches' hw]
  refine h.push rfl rfl ?_
  cases c with
  | integer n => exact .integer n
  | float x => exact .float x
  | string s => exact .string s
  | function f => exact absurd rfl (hf f)

theorem getGlobal (h : S.Fetched ι site ⟨.getGlobal, [n]⟩ m M m₁ M₁) :
    S.Followed (turn nativeHost m) (turn nativeHost M) := by
  rw [turn_getGlobal h.fetches, turn_getGlobal h.fetches']
  exact h.push rfl rfl (alike_getGlobal h.shared.globals n)

/-- An instruction that takes one value and leaves none. -/
theorem split_one {i : Instruction} (h : S.Fetched ι site i m M m₁ M₁) (hpops : i.pops = 1)
    (hpushes : i.pushes = 0) : ∃ stack stack' v w, m₁.stack = (stack ++ [v]).toArray ∧
      M₁.stack = (stack' ++ [w]).toArray ∧ Alike (S.Same ι) v w ∧ site.floor ≤ stack.length ∧
      S.Lockstep ι { m₁ with stack := stack.toArray } { M₁ with stack := stack'.toArray } := by
  obtain ⟨stack, stack', top, top', hstack, hstack', htop, hvalues, hfloor, hshared, hpaired⟩ :=
    h.split
  obtain ⟨v, rfl⟩ := List.length_eq_one_iff.mp (htop.trans hpops)
  obtain ⟨w, _, hv, hnil, rfl⟩ := List.forall₂_cons_left_iff.mp hvalues
  cases hnil
  rw [hpushes, Int.natCast_zero, Int.add_zero] at hpaired
  exact ⟨stack, stack', v, w, hstack, hstack', hv, hfloor, hshared, hpaired⟩

theorem setGlobal (hop : op = .setGlobal ∨ op = .assignGlobal)
    (h : S.Fetched ι site ⟨op, [n]⟩ m M m₁ M₁) (hn : n < site.limits.globals) :
    S.Followed (turn nativeHost m) (turn nativeHost M) := by
  have hfetches' : M.Fetches ⟨op, [n]⟩ M₁ :=
    h.fetches_same (by rcases hop with rfl | rfl <;> rfl)
  obtain ⟨stack, stack', v, w, hstack, hstack', hv, -, hstep⟩ :=
    h.split_one (by rcases hop with rfl | rfl <;> rfl) (by rcases hop with rfl | rfl <;> rfl)
  have hslot' : n < M₁.config.globalsSize ↔ n < m₁.config.globalsSize := by
    rw [h.shared.config, h.shared.config']
  rw [turn_setGlobal hop h.fetches hstack, turn_setGlobal hop hfetches' hstack']
  by_cases hslot : n < m₁.config.globalsSize
  · rw [if_pos hslot, if_pos (hslot'.mpr hslot)]
    exact followed_next ⟨hstep.shared.setGlobal hv (h.globals ▸ hn), hstep.frames⟩
  · rw [if_neg hslot]
    exact followed_halt _ _

theorem getLocal (h : S.Fetched ι site ⟨.getLocal, [n]⟩ m M m₁ M₁) (hn : n < site.limits.locals) :
    S.Followed (turn nativeHost m) (turn nativeHost M) := by
  cases hfunction : site.limits.inFunction with
  | false =>
    -- main code has no locals
    obtain ⟨-, hlocals, -⟩ := h.main hfunction
    omega
  | true =>
    -- locals lie below the floor of the running code
    obtain ⟨hbase, -, hfloor, -, -⟩ := h.inner hfunction
    have hlt : site.frame.base + n < m₁.stack.size := by
      have := h.pops
      omega
    have hlt' : site.frame.base + n < M₁.stack.size := by rwa [h.shared.size_eq]
    have hv := h.shared.stack.get hlt hlt'
    have hget' : M₁.stack[site.frame'.base + n]? = some M₁.stack[site.frame.base + n] := by
      rw [hbase]
      exact Array.getElem?_eq_getElem hlt'
    rw [turn_getLocal h.fetches h.frames (Array.getElem?_eq_getElem hlt),
      turn_getLocal h.fetches' h.frames' hget']
    exact h.push rfl rfl hv

theorem setLocal (hop : op = .setLocal ∨ op = .assignLocal)
    (h : S.Fetched ι site ⟨op, [n]⟩ m M m₁ M₁) (hn : n < site.limits.locals) :
    S.Followed (turn nativeHost m) (turn nativeHost M) := by
  have hfetches' : M.Fetches ⟨op, [n]⟩ M₁ :=
    h.fetches_same (by rcases hop with rfl | rfl <;> rfl)
  cases hfunction : site.limits.inFunction with
  | false =>
    obtain ⟨-, hlocals, -⟩ := h.main hfunction
    omega
  | true =>
    obtain ⟨hbase, -, hfloor, -, -⟩ := h.inner hfunction
    obtain ⟨stack, stack', v, w, hstack, hstack', hv, hle, hstep⟩ :=
      h.split_one (by rcases hop with rfl | rfl <;> rfl) (by rcases hop with rfl | rfl <;> rfl)
    have hlength : stack'.length = stack.length := hstep.shared.size_eq
    rw [turn_setLocal hop h.fetches h.frames hstack (by omega),
      turn_setLocal hop hfetches' h.frames' hstack' (by omega), hbase]
    refine followed_next ⟨hstep.shared.withStack (forall₂_set hstep.shared.stack hv _), ?_⟩
    rw [List.size_toArray, List.length_set]
    exact hstep.frames

theorem getFree (h : S.Fetched ι site ⟨.getFree, [n]⟩ m M m₁ M₁) (hn : n < site.limits.captures) :
    S.Followed (turn nativeHost m) (turn nativeHost M) := by
  cases hfunction : site.limits.inFunction with
  | false =>
    obtain ⟨-, -, hcaptures⟩ := h.main hfunction
    omega
  | true =>
    obtain ⟨-, -, -, hclosure, -⟩ := h.inner hfunction
    obtain ⟨-, -, hfree⟩ := alike_closure_iff.mp hclosure
    rcases Nat.lt_or_ge n site.frame.closure.free.length with hlt | hge
    · have hlt' : n < site.frame'.closure.free.length := hfree.length_eq ▸ hlt
      rw [turn_getFree h.fetches h.frames (List.getElem?_eq_getElem hlt),
        turn_getFree h.fetches' h.frames' (List.getElem?_eq_getElem hlt')]
      exact h.push rfl rfl (hfree.get hlt hlt')
    · rw [turn_getFree_missing h.fetches h.frames (List.getElem?_eq_none hge)]
      exact followed_halt _ _

theorem getBuiltin {b : Builtin} (h : S.Fetched ι site ⟨.getBuiltin, [n]⟩ m M m₁ M₁)
    (hb : Builtin.ofIndex? n = some b) : S.Followed (turn nativeHost m) (turn nativeHost M) := by
  rw [turn_getBuiltin h.fetches hb, turn_getBuiltin h.fetches' hb]
  exact h.push rfl rfl (.builtin b)

theorem boolean (b : Bool)
    (h : S.Fetched ι site ⟨if b then .true else .false, []⟩ m M m₁ M₁) :
    S.Followed (turn nativeHost m) (turn nativeHost M) := by
  have hfetches' : M.Fetches ⟨if b then .true else .false, []⟩ M₁ :=
    h.fetches_same (by cases b <;> rfl)
  rw [turn_boolean b h.fetches, turn_boolean b hfetches']
  exact h.push (by cases b <;> rfl) (by cases b <;> rfl) (.boolean b)

theorem null (h : S.Fetched ι site ⟨.null, []⟩ m M m₁ M₁) :
    S.Followed (turn nativeHost m) (turn nativeHost M) := by
  rw [turn_null h.fetches, turn_null h.fetches']
  exact h.push rfl rfl .null

theorem currentClosure (h : S.Fetched ι site ⟨.currentClosure, []⟩ m M m₁ M₁)
    (hfunction : site.limits.inFunction = true) :
    S.Followed (turn nativeHost m) (turn nativeHost M) := by
  obtain ⟨-, -, -, hclosure, -⟩ := h.inner hfunction
  rw [turn_currentClosure h.fetches h.frames, turn_currentClosure h.fetches' h.frames']
  exact h.push rfl rfl hclosure

/-! ### Operators -/

/-- The operands of an instruction that takes two values and leaves one. -/
theorem split_two {i : Instruction} (h : S.Fetched ι site i m M m₁ M₁) (hpops : i.pops = 2)
    (hpushes : i.pushes = 1) : ∃ stack stack' a a' b b', m₁.stack = (stack ++ [a, b]).toArray ∧
      M₁.stack = (stack' ++ [a', b']).toArray ∧ Alike (S.Same ι) a a' ∧ Alike (S.Same ι) b b' ∧
      S.Shared ι { m₁ with stack := stack.toArray } { M₁ with stack := stack'.toArray } ∧
      S.Paired ι m₁.frames M₁.frames (stack.toArray.size + 1) := by
  obtain ⟨stack, stack', top, top', hstack, hstack', htop, hvalues, -, hshared, hpaired⟩ := h.split
  obtain ⟨a, b, rfl⟩ := List.length_eq_two.mp (htop.trans hpops)
  obtain ⟨a', _, ha, htail, rfl⟩ := List.forall₂_cons_left_iff.mp hvalues
  obtain ⟨b', _, hb, hnil, rfl⟩ := List.forall₂_cons_left_iff.mp htail
  cases hnil
  rw [hpushes] at hpaired
  exact ⟨stack, stack', a, a', b, b', hstack, hstack', ha, hb, hshared, hpaired⟩

theorem binary (hop : Opcode.IsBinary op) (h : S.Fetched ι site ⟨op, []⟩ m M m₁ M₁) :
    S.Followed (turn nativeHost m) (turn nativeHost M) := by
  have hshape : op.isJump = false ∧ Instruction.pops ⟨op, []⟩ = 2 ∧
      Instruction.pushes ⟨op, []⟩ = 1 := by
    have hop' := hop
    simp only [Opcode.IsBinary, List.mem_cons, List.not_mem_nil, or_false] at hop'
    rcases hop' with rfl | rfl | rfl | rfl | rfl | rfl | rfl | rfl | rfl <;> exact ⟨rfl, rfl, rfl⟩
  obtain ⟨hjump, hpops, hpushes⟩ := hshape
  obtain ⟨stack, stack', a, a', b, b', hstack, hstack', ha, hb, hshared, hpaired⟩ :=
    h.split_two hpops hpushes
  rw [turn_binary hop h.fetches hstack, turn_binary hop (h.fetches_same hjump) hstack']
  exact followed_yielding hshared hpaired (follows_binary (isMatching_same h.shared) op ha hb)

theorem index (h : S.Fetched ι site ⟨.index, []⟩ m M m₁ M₁) :
    S.Followed (turn nativeHost m) (turn nativeHost M) := by
  obtain ⟨stack, stack', a, a', b, b', hstack, hstack', ha, hb, hshared, hpaired⟩ :=
    h.split_two rfl rfl
  rw [turn_index h.fetches hstack, turn_index h.fetches' hstack']
  exact followed_yielding hshared hpaired (follows_index ha hb)

theorem unary (hop : op = .minus ∨ op = .bang) (h : S.Fetched ι site ⟨op, []⟩ m M m₁ M₁) :
    S.Followed (turn nativeHost m) (turn nativeHost M) := by
  have hshape : op.isJump = false ∧ Instruction.pops ⟨op, []⟩ = 1 ∧
      Instruction.pushes ⟨op, []⟩ = 1 := by
    rcases hop with rfl | rfl <;> exact ⟨rfl, rfl, rfl⟩
  obtain ⟨hjump, hpops, hpushes⟩ := hshape
  obtain ⟨stack, stack', top, top', hstack, hstack', htop, hvalues, -, hshared, hpaired⟩ := h.split
  obtain ⟨v, rfl⟩ := List.length_eq_one_iff.mp (htop.trans hpops)
  obtain ⟨w, _, hv, hnil, rfl⟩ := List.forall₂_cons_left_iff.mp hvalues
  cases hnil
  rw [hpushes] at hpaired
  rw [turn_unary hop h.fetches hstack, turn_unary hop (h.fetches_same hjump) hstack']
  exact followed_yielding hshared hpaired (follows_unary op hv)

theorem array (h : S.Fetched ι site ⟨.array, [n]⟩ m M m₁ M₁) :
    S.Followed (turn nativeHost m) (turn nativeHost M) := by
  obtain ⟨stack, stack', top, top', hstack, hstack', htop, hvalues, -, hshared, hpaired⟩ := h.split
  obtain rfl : top.length = n := htop
  have hfetches' : M.Fetches ⟨.array, [top'.length]⟩ M₁ := hvalues.length_eq ▸ h.fetches'
  rw [turn_array h.fetches hstack, turn_array hfetches' hstack']
  exact followed_pushing hshared hpaired (.array (alikeItems_iff.mpr hvalues))

theorem forall₂_pairUp {r : Value → Value → Prop} : ∀ {flat flat' : List Value},
    List.Forall₂ r flat flat' →
      List.Forall₂ (fun p p' => r p.1 p'.1 ∧ r p.2 p'.2) (pairUp flat) (pairUp flat')
  | _, _, .nil => .nil
  | _, _, .cons _ .nil => .nil
  | _, _, .cons hkey (.cons hvalue hrest) => .cons ⟨hkey, hvalue⟩ (forall₂_pairUp hrest)

theorem hash (h : S.Fetched ι site ⟨.hash, [2 * n]⟩ m M m₁ M₁) :
    S.Followed (turn nativeHost m) (turn nativeHost M) := by
  obtain ⟨stack, stack', top, top', hstack, hstack', htop, hvalues, -, hshared, hpaired⟩ := h.split
  replace htop : top.length = 2 * n := htop
  have htop' : top'.length = 2 * n := hvalues.length_eq.symm.trans htop
  have hfetches : m.Fetches ⟨.hash, [top.length]⟩ m₁ := htop ▸ h.fetches
  have hfetches' : M.Fetches ⟨.hash, [top'.length]⟩ M₁ := htop' ▸ h.fetches'
  rw [turn_hash hfetches (by omega) hstack, turn_hash hfetches' (by omega) hstack']
  exact followed_yielding hshared hpaired (follows_hashOfPairs (forall₂_pairUp hvalues))

/-! ### Discarded values and jumps -/

theorem pop (h : S.Fetched ι site ⟨.pop, []⟩ m M m₁ M₁) :
    S.Followed (turn nativeHost m) (turn nativeHost M) := by
  obtain ⟨stack, stack', v, w, hstack, hstack', hv, -, hstep⟩ := h.split_one rfl rfl
  rw [turn_pop h.fetches hstack, turn_pop h.fetches' hstack']
  exact followed_next ⟨hstep.shared.setLastPopped hv, hstep.frames⟩

theorem jump_always (h : S.Fetched ι site ⟨.jump, [n]⟩ m M m₁ M₁) :
    S.Followed (turn nativeHost m) (turn nativeHost M) := by
  obtain ⟨target, hoperands, hle, hle', hpaired⟩ := h.jump rfl
  obtain rfl : n = target := by simpa using hoperands
  rw [turn_jump h.fetches h.frames hle, turn_jump h.fetches' h.frames' hle']
  refine followed_next ⟨h.shared.withCalls _ _, ?_⟩
  have htaken : Instruction.taken ⟨.jump, [n]⟩ = 0 := rfl
  rw [htaken, Int.natCast_zero, Int.sub_zero] at hpaired
  exact hpaired

theorem jump_unless (h : S.Fetched ι site ⟨.jumpNotTruthy, [n]⟩ m M m₁ M₁) :
    S.Followed (turn nativeHost m) (turn nativeHost M) := by
  obtain ⟨target, hoperands, hle, hle', hpaired⟩ := h.jump rfl
  obtain rfl : n = target := by simpa using hoperands
  obtain ⟨stack, stack', v, w, hstack, hstack', hv, -, hstep⟩ := h.split_one rfl rfl
  rw [turn_jumpNotTruthy h.fetches h.frames hle hstack,
    turn_jumpNotTruthy h.fetches' h.frames' hle' hstack', hv.isTruthy]
  split
  · exact followed_next hstep
  · refine followed_next ⟨hstep.shared.withCalls _ _, ?_⟩
    have hheight : (m₁.stack.size : Int) - Instruction.taken ⟨.jumpNotTruthy, [n]⟩ =
        stack.toArray.size := by
      rw [hstack]
      simp [Instruction.taken]
    rw [hheight] at hpaired
    exact hpaired

/-! ### Calls -/

theorem closure {count : Nat} {f : FunctionCode}
    (h : S.Fetched ι site ⟨.closure, [n, count]⟩ m M m₁ M₁)
    (hf : site.limits.pool[n]? = some (.function f)) :
    S.Followed (turn nativeHost m) (turn nativeHost M) := by
  obtain ⟨stack, stack', top, top', hstack, hstack', htop, hvalues, -, hshared, hpaired⟩ := h.split
  obtain rfl : top.length = count := htop
  have hfetches' : M.Fetches ⟨.closure, [n, top'.length]⟩ M₁ := hvalues.length_eq ▸ h.fetches'
  rw [h.pool] at hf
  obtain ⟨identity, hv⟩ := h.shared.constants hf
  obtain ⟨identity', hw⟩ := h.shared.constants' hf
  obtain ⟨ι', hι, hnew, hshared'⟩ := hshared.pair
  rw [turn_closure h.fetches hv hstack, turn_closure hfetches' hw hstack']
  refine followed_pushing hshared' (hpaired.mono hι) (alike_closure_iff.mpr ⟨⟨hnew, ?_⟩, rfl, ?_⟩)
  · exact S.functions f (List.mem_of_getElem? hf)
  · exact hvalues.imp fun _ _ hv => hv.mono (same_mono hι)

/-- A closure is called: both machines enter its code. -/
theorem enter {stack stack' args args' free free' : List Value} {i j : Nat} {f : FunctionCode}
    (h : S.Fetched ι site ⟨.call, [args.length]⟩ m M m₁ M₁)
    (hstack : m₁.stack = (stack ++ .closure i f free :: args).toArray)
    (hstack' : M₁.stack = (stack' ++ .closure j f free' :: args').toArray)
    (hclosure : Alike (S.Same ι) (.closure i f free) (.closure j f free'))
    (hargs : List.Forall₂ (Alike (S.Same ι)) args args')
    (hshared : S.Shared ι { m₁ with stack := stack.toArray } { M₁ with stack := stack'.toArray })
    (hpaired : S.Paired ι m₁.frames M₁.frames (stack.toArray.size + 1)) :
    S.Followed (turn nativeHost m) (turn nativeHost M) := by
  have hlength : args'.length = args.length := hargs.length_eq.symm
  have hlength' : stack'.length = stack.length := hshared.size_eq
  have hfetches' : M.Fetches ⟨.call, [args'.length]⟩ M₁ := hlength ▸ h.fetches'
  -- the call fails in the first machine for one of three reasons, or in neither machine
  by_cases hcount : args.length = f.params
  case neg =>
    rw [turn_call_wrongCount h.fetches hstack hcount]
    exact followed_halt _ _
  have hdepth : M₁.calls.depth = m₁.calls.depth := by
    rw [M₁.calls.depth_eq, m₁.calls.depth_eq]
    exact hpaired.length_eq
  by_cases hfull : m₁.config.maxFrames ≤ m₁.calls.depth
  · rw [turn_call_tooDeep h.fetches hstack hcount hfull]
    exact followed_halt _ _
  have hroom' : M₁.HasRoom (f.locals - args'.length) ↔ m₁.HasRoom (f.locals - args.length) := by
    rw [HasRoom, HasRoom, h.shared.size_eq, h.shared.config, h.shared.config', hlength]
  have hfull' : M₁.calls.depth < M₁.config.maxFrames := by
    rw [hdepth, h.shared.config', ← h.shared.config]
    omega
  rcases turn_call_closure h.fetches hstack hcount (by omega) with ⟨hroom, hturn⟩ | ⟨-, m', hturn⟩
  case inr =>
    rw [hturn]
    exact followed_halt _ _
  rcases turn_call_closure hfetches' hstack' (hlength.trans hcount) hfull' with
    ⟨-, hturn'⟩ | ⟨hnone, -⟩
  case inr => exact absurd (hroom'.mpr hroom) hnone
  have hparams : f.params ≤ f.locals := by
    obtain ⟨⟨-, count, hchecked⟩, -⟩ := alike_closure_iff.mp hclosure
    exact hchecked.params
  -- the locals that are no parameters begin as nulls
  have hvalues := List.rel_append (List.rel_append hshared.stack (.cons hclosure hargs))
    (forall₂_replicate (f.locals - args.length) (Alike.null (R := S.Same ι)))
  rw [hturn, hturn', hlength, hlength']
  rintro _ ⟨⟩
  refine ⟨ι, _, rfl, (h.shared.withStack hvalues).withCalls _ _, ?_⟩
  · have hcallers : S.Paired ι m₁.frames M₁.frames ((stack.length + 1 : Nat) : Int) := hpaired
    have hheight : (((stack ++ Value.closure i f free :: args ++
        List.replicate (f.locals - args.length) Value.null).toArray.size : Nat) : Int) =
          ((stack.length + 1 : Nat) : Int) + f.locals := by
      simp only [List.size_toArray, List.length_append, List.length_cons, List.length_replicate]
      omega
    rw [hheight]
    exact hcallers.enter (by omega) hclosure

theorem call (h : S.Fetched ι site ⟨.call, [n]⟩ m M m₁ M₁) :
    S.Followed (turn nativeHost m) (turn nativeHost M) := by
  obtain ⟨stack, stack', top, top', hstack, hstack', htop, hvalues, -, hshared, hpaired⟩ := h.split
  replace htop : top.length = n + 1 := htop
  obtain ⟨callee, args, rfl⟩ := List.exists_cons_of_length_eq_add_one htop
  obtain ⟨callee', args', hcallee, hargs, rfl⟩ := List.forall₂_cons_left_iff.mp hvalues
  obtain rfl : args.length = n := by simpa using htop
  have hlength : args'.length = args.length := hargs.length_eq.symm
  have hfetches' : M.Fetches ⟨.call, [args'.length]⟩ M₁ := hlength ▸ h.fetches'
  cases hcallee with
  | closure hsame hfree =>
    exact h.enter hstack hstack' (.closure hsame hfree) hargs hshared hpaired
  | builtin b =>
    rw [turn_call_builtin h.fetches hstack, turn_call_builtin hfetches' hstack', b.run_call,
      b.run_call, b.printed_alike hargs]
    have hresult := b.follows_evaluate hargs
    cases hfirst : b.evaluate args with
    | error fault => exact followed_halt _ _
    | ok v =>
      obtain ⟨w, hsecond, hv⟩ := hresult v hfirst
      rw [hsecond]
      exact followed_pushing (hshared.print (b.printed args)) hpaired hv
  | null | boolean | integer | float | string | array | hash =>
    rw [turn_call_notCallable (by simp) (by simp) h.fetches hstack]
    exact followed_halt _ _

/-- Both machines leave their code with a value. -/
theorem leave {i : Instruction} (h : S.Fetched ι site i m M m₁ M₁) {stack stack' : List Value}
    (hshared : S.Shared ι { m₁ with stack := stack.toArray } { M₁ with stack := stack'.toArray })
    (hfloor : site.floor ≤ stack.length) {v w : Value} (hv : Alike (S.Same ι) v w) :
    S.Followed (leaving { m₁ with stack := stack.toArray } v)
      (leaving { M₁ with stack := stack'.toArray } w) := by
  have hframes : Machine.frames { m₁ with stack := stack.toArray } = site.frame :: site.callers :=
    h.frames
  have hframes' : Machine.frames { M₁ with stack := stack'.toArray } =
      site.frame' :: site.callers' := h.frames'
  cases hfunction : site.limits.inFunction with
  | false =>
    -- the run ends here
    obtain ⟨hcallers, -⟩ := h.main hfunction
    rw [leaving_main (hframes.trans (by rw [hcallers]))]
    exact followed_halt _ _
  | true =>
    obtain ⟨hbase, hpos, hle, -, hpaired⟩ := h.inner hfunction
    obtain ⟨hne, hne'⟩ := hpaired.ne_nil
    rw [leaving_call hframes hne, leaving_call hframes' hne', hbase]
    -- the value takes the place of the closure that was called, just below the locals
    have hkept : List.Forall₂ (Alike (S.Same ι))
        (stack.toArray.shrink (site.frame.base - 1)).toList
        (stack'.toArray.shrink (site.frame.base - 1)).toList := by
      rw [Array.toList_shrink, Array.toList_shrink]
      exact List.forall₂_take _ hshared.stack
    refine followed_pushing ((h.shared.withStack hkept).withCalls _ _) ?_ hv
    · have hpop : m₁.calls.pop.frames = site.callers := congrArg List.tail h.frames
      have hpop' : M₁.calls.pop.frames = site.callers' := congrArg List.tail h.frames'
      have hheight : ((stack.toArray.shrink (site.frame.base - 1)).size : Int) + 1 =
          site.frame.base := by
        rw [Array.size_shrink, List.size_toArray]
        omega
      show S.Paired ι m₁.calls.pop.frames M₁.calls.pop.frames _
      rw [hpop, hpop', hheight]
      exact hpaired

theorem returnValue (h : S.Fetched ι site ⟨.returnValue, []⟩ m M m₁ M₁) :
    S.Followed (turn nativeHost m) (turn nativeHost M) := by
  obtain ⟨stack, stack', v, w, hstack, hstack', hv, hfloor, hstep⟩ := h.split_one rfl rfl
  rw [turn_returnValue h.fetches hstack, turn_returnValue h.fetches' hstack']
  exact h.leave hstep.shared hfloor hv

theorem ret (h : S.Fetched ι site ⟨.ret, []⟩ m M m₁ M₁) :
    S.Followed (turn nativeHost m) (turn nativeHost M) := by
  rw [turn_ret h.fetches, turn_ret h.fetches']
  have hfloor : site.floor ≤ m₁.stack.toList.length := by
    have := h.pops
    rw [Array.length_toList]
    omega
  exact h.leave h.shared hfloor .null

end Fetched

section

variable {m m' M : Machine Console Value}

/-- A turn of the first machine is followed by a turn of the second one. -/
theorem Lockstep.step (h : S.Lockstep ι m M) (hturn : turn nativeHost m = .next m') :
    ∃ ι' M', turn nativeHost M = .next M' ∧ S.Lockstep ι' m' M' := by
  obtain ⟨site, i, m₁, M₁, hfetched⟩ := h.fetched hturn
  have hproper := hfetched.proper
  -- both machines have fetched the same instruction, and for each one there is a lemma
  refine (?_ : S.Followed (turn nativeHost m) (turn nativeHost M)) m' hturn
  cases hproper with
  | constant _ hc hf => exact hfetched.constant hc hf
  | closure _ _ hf _ => exact hfetched.closure hf
  | global hop hn =>
    rcases hop with rfl | hop
    · exact hfetched.getGlobal
    · exact hfetched.setGlobal hop hn
  | slot hop hn =>
    rcases hop with rfl | hop
    · exact hfetched.getLocal hn
    · exact hfetched.setLocal hop hn
  | captured hn => exact hfetched.getFree hn
  | builtin hb => exact hfetched.getBuiltin hb
  | self hfunction => exact hfetched.currentClosure hfunction
  | array _ => exact hfetched.array
  | hash _ => exact hfetched.hash
  | call _ => exact hfetched.call
  | jump target hop =>
    rcases Opcode.isJump_iff.mp hop with rfl | rfl
    · exact hfetched.jump_always
    · exact hfetched.jump_unless
  | @simple op hop hne =>
    cases op with
    | add | sub | mul | div | mod | equal | notEqual | greaterThan | greaterEqual =>
      exact hfetched.binary (by simp [Opcode.IsBinary])
    | minus | bang => exact hfetched.unary (by simp)
    | index => exact hfetched.index
    | true => exact hfetched.boolean true
    | false => exact hfetched.boolean false
    | null => exact hfetched.null
    | pop => exact hfetched.pop
    | returnValue => exact hfetched.returnValue
    | ret => exact hfetched.ret
    | currentClosure => exact absurd rfl hne
    | constant | jump | jumpNotTruthy | getGlobal | setGlobal | assignGlobal | getLocal | setLocal
    | assignLocal | getBuiltin | getFree | array | hash | call | closure => cases hop

/-- Where the first machine gets, the second one follows. -/
theorem Lockstep.run (h : S.Lockstep ι m M) (hreaches : Reaches nativeHost m m') :
    ∃ ι' M', Reaches nativeHost M M' ∧ S.Lockstep ι' m' M' := by
  induction hreaches with
  | refl => exact ⟨ι, M, .refl, h⟩
  | tail _ hturn ih =>
    obtain ⟨ι₁, M₁, hreaches₁, h₁⟩ := ih
    obtain ⟨ι₂, M₂, hturn₂, h₂⟩ := h₁.step hturn
    exact ⟨ι₂, M₂, hreaches₁.tail hturn₂, h₂⟩

end

end Passage

end Bytescript

/-
What the compiler emits.

Main statements: `Compile.emits_expr` and its companions for the other parts of trees. The code of
an expression raises the stack by one value, that of a statement by none; it is balanced and refers
only to constants, slots and captured values that exist. It does not depend on the place where it
will stand, except that its jumps count from there.

Design notes: all parts of the compiler take the code before them, so one predicate,
`Compile.Emits`, speaks about all of them. It compares two runs of a part from one state, with
different code before it: they end in the same state and add the same instructions.
-/
import Bytescript.Proofs.Limits

namespace Bytescript

namespace Compile

variable {st st₁ st₂ : CompilerState}

/-! ### Code at its place -/

/-- The fragment `code₁` is `code` with the instructions `is` added, which count from the end of
`code`. All targets are small enough to be written. -/
structure Placed (is : List (Located Instruction)) (code code₁ : Fragment) : Prop where
  extended : code.Extends (moved code.stop is) code₁
  targets : TargetsFit code.stop is

namespace Placed

variable {is js : List (Located Instruction)} {code code₁ code₂ : Fragment}

theorem nil (code : Fragment) : Placed [] code code :=
  ⟨.refl code, .nil⟩

theorem stop (h : Placed is code code₁) : code₁.stop = code.stop + (encodeAll is).length := by
  rw [h.extended.stop, length_encodeAll_moved]

theorem append (h : Placed is code code₁) (h' : Placed js code₁ code₂) :
    Placed (is ++ moved (encodeAll is).length js) code code₂ := by
  constructor
  · have := h.extended.trans h'.extended
    rw [h.stop] at this
    rwa [moved_append, moved_moved, Nat.add_comm]
  · have htargets := h'.targets
    rw [h.stop, Nat.add_comm] at htargets
    exact h.targets.append htargets.moved

theorem emit (h : Placed is code code₁) {i : Instruction} (hjump : i.opcode.isJump = false)
    (span : Span) : Placed (is ++ [⟨i, span⟩]) code (code₁.emit i.opcode i.operands span) := by
  constructor
  · rw [moved_append, moved_singleton, Instruction.moved_of_not_isJump _ hjump]
    exact h.extended.emit _ _ _
  · exact h.targets.append (.singleton fun hjump' => by simp [hjump] at hjump')

/-- The arms of a conditional are placed where the fragments for them begin. -/
theorem branching {condition thenArm elseArm : List (Located Instruction)}
    {thenCode elseCode : Fragment} (h : Placed condition code code₁)
    (hthen : Placed thenArm (.startingAt (code₁.stop + Opcode.jumpNotTruthy.width)) thenCode)
    (helse : Placed elseArm (.startingAt (thenCode.stop + Opcode.jump.width)) elseCode)
    (hstop : elseCode.stop ≤ maxWide) (span : Span) :
    Placed (Bytescript.branching span condition thenArm elseArm) code
      (code₁.joinArms span thenCode elseCode) := by
  -- all offsets are those of code that begins at zero, moved by where the conditional begins
  have hthenStart : code₁.stop + Opcode.jumpNotTruthy.width = thenOffset condition + code.stop := by
    rw [thenOffset, h.stop]
    omega
  have helseStart : thenCode.stop + Opcode.jump.width =
      elseOffset condition thenArm + code.stop := by
    rw [hthen.stop, Fragment.stop_startingAt, hthenStart, elseOffset]
    omega
  have hstart : elseCode.start = elseOffset condition thenArm + code.stop :=
    helse.extended.start.trans helseStart
  have hend : elseCode.stop =
      elseOffset condition thenArm + (encodeAll elseArm).length + code.stop := by
    rw [helse.stop, Fragment.stop_startingAt, helseStart]
    omega
  constructor
  · have hextended := (((h.extended.emit .jumpNotTruthy [elseCode.start] span).append
      hthen.extended).emit .jump [elseCode.stop] span).append helse.extended
    have hmoved : moved code.stop (Bytescript.branching span condition thenArm elseArm) =
        moved code.stop condition ++ [⟨⟨.jumpNotTruthy, [elseCode.start]⟩, span⟩] ++
          moved (code₁.stop + Opcode.jumpNotTruthy.width) thenArm ++
          [⟨⟨.jump, [elseCode.stop]⟩, span⟩] ++
          moved (thenCode.stop + Opcode.jump.width) elseArm := by
      rw [hstart, hend, hthenStart, helseStart]
      simp only [Bytescript.branching, moved_append, moved_singleton, moved_moved]
      rfl
    rw [hmoved]
    exact hextended
  · have hthenTargets := hthen.targets
    have helseTargets := helse.targets
    rw [Fragment.stop_startingAt, hthenStart] at hthenTargets
    rw [Fragment.stop_startingAt, helseStart] at helseTargets
    have htest : TargetsFit code.stop
        [⟨⟨.jumpNotTruthy, [elseOffset condition thenArm]⟩, span⟩] := by
      refine .singleton fun _ t ht => ?_
      rw [List.mem_singleton.mp ht]
      omega
    have hexit : TargetsFit code.stop
        [⟨⟨.jump, [elseOffset condition thenArm + (encodeAll elseArm).length]⟩, span⟩] := by
      refine .singleton fun _ t ht => ?_
      rw [List.mem_singleton.mp ht]
      omega
    exact (((h.targets.append htest).append hthenTargets.moved).append hexit).append
      helseTargets.moved

end Placed

/-! ### Parts of the compiler -/

/-- What a part of the compiler does between two states, in instructions that count from their
beginning: they raise the stack by `count` values. -/
structure Emitted (st st₁ : CompilerState) (count : Nat) (is : List (Located Instruction)) :
    Prop where
  valid : st₁.Valid
  limits : st.limits.Le st₁.limits
  rise : rise is = count
  balanced : Balanced is
  proper : ∀ i ∈ is, i.value.Proper st₁.limits

theorem Emitted.append {count count' : Nat} {is js : List (Located Instruction)}
    (h : Emitted st st₁ count is) (h' : Emitted st₁ st₂ count' js) :
    Emitted st st₂ (count + count') (is ++ moved (encodeAll is).length js) where
  valid := h'.valid
  limits := h.limits.trans h'.limits
  rise := by
    rw [rise_append, rise_moved, h.rise, h'.rise]
    omega
  balanced := h.balanced.append h'.balanced (by rw [h.rise]; omega)
  proper i hi := by
    rcases List.mem_append.mp hi with hi | hi
    · exact (h.proper i hi).mono h'.limits
    · obtain ⟨j, hj, rfl⟩ := List.mem_map.mp hi
      exact (h'.proper j hj).moved _

/-- The part of the compiler raises the stack by `count` values. What it does depends on the names
and constants it finds, and not on the code before it. -/
def Emits (count : Nat) (part : Fragment → Compile Fragment) : Prop :=
  ∀ ⦃code₀ code₁ : Fragment⦄ ⦃st st₁ : CompilerState⦄,
    (part code₀).run st = .ok (code₁, st₁) → st.Valid →
    ∃ is, Emitted st st₁ count is ∧
      ∀ ⦃code code' : Fragment⦄ ⦃st' : CompilerState⦄,
        (part code).run st = .ok (code', st') → st' = st₁ ∧ Placed is code code'

namespace Emits

variable {count count' : Nat} {part part' : Fragment → Compile Fragment}

theorem of_eq (h : Emits count part') (heq : ∀ code, part code = part' code) :
    Emits count part := by
  obtain rfl : part = part' := funext heq
  exact h

theorem nothing : Emits 0 pure := by
  intro code₀ code₁ st st₁ hrun hst
  obtain ⟨-, rfl⟩ := pure_ok.mp hrun
  refine ⟨[], ⟨hst, .refl _, rfl, .nil, by simp⟩, ?_⟩
  intro code code' st' hrun'
  obtain ⟨rfl, rfl⟩ := pure_ok.mp hrun'
  exact ⟨rfl, .nil code⟩

theorem seq (h : Emits count part) (h' : Emits count' part') :
    Emits (count + count') fun code => part code >>= part' := by
  intro code₀ code₂ st st₂ hrun hst
  obtain ⟨code₁, st₁, hfirst, hsecond⟩ := bind_ok.mp hrun
  obtain ⟨is, hemitted, hplaced⟩ := h hfirst hst
  obtain ⟨js, hemitted', hplaced'⟩ := h' hsecond hemitted.valid
  refine ⟨_, hemitted.append hemitted', ?_⟩
  intro code code' st' hrun'
  obtain ⟨mid, st₁', hrun₁, hrun₂⟩ := bind_ok.mp hrun'
  obtain ⟨rfl, hmid⟩ := hplaced hrun₁
  obtain ⟨rfl, hend⟩ := hplaced' hrun₂
  exact ⟨rfl, hmid.append hend⟩

/-- A part is known by what it does when it succeeds. -/
theorem of_run (h : Emits count part') (hrun : ∀ ⦃code code₁ : Fragment⦄ ⦃st st₁ : CompilerState⦄,
    (part code).run st = .ok (code₁, st₁) → (part' code).run st = .ok (code₁, st₁)) :
    Emits count part := by
  intro code₀ code₁ st st₁ h₀ hst
  obtain ⟨is, hemitted, hplaced⟩ := h (hrun h₀) hst
  exact ⟨is, hemitted, fun code code' st' h' => hplaced (hrun h')⟩

/-- A part between a preparation `x`, which emits nothing, and an instruction `i`. The preparation
finds something out, `Q`, that is still true after the part. -/
theorem step {α : Type} {x : Compile α} {q : α → Fragment → Compile Fragment} {i : α → Instruction}
    {Q : α → Limits → Prop} {total : Nat} (h : Emits count part) (span : Span)
    (hx : ∀ ⦃st a st₁⦄, x.run st = .ok (a, st₁) → st.Valid →
      st₁.Valid ∧ st.limits.Le st₁.limits ∧ Q a st₁.limits)
    (hQ : ∀ ⦃a l l'⦄, Q a l → l.Le l' → Q a l')
    (hq : ∀ ⦃a code code₁ st st₁⦄, (q a code).run st = .ok (code₁, st₁) → Q a st.limits →
      st = st₁ ∧ code₁ = code.emit (i a).opcode (i a).operands span ∧ (i a).Proper st.limits)
    (hi : ∀ a, (i a).opcode.isJump = false ∧ (i a).pops ≤ count ∧
      total + (i a).pops = count + (i a).pushes) :
    Emits total fun code => x >>= fun a => part code >>= q a := by
  intro code₀ code₃ st st₃ hrun hst
  obtain ⟨a, st₁, hprepare, hrun⟩ := bind_ok.mp hrun
  obtain ⟨code₂, st₂, hpart, hend⟩ := bind_ok.mp hrun
  obtain ⟨hvalid, hlimits, hfound⟩ := hx hprepare hst
  obtain ⟨is, hemitted, hplaced⟩ := h hpart hvalid
  obtain ⟨rfl, -, hproper⟩ := hq hend (hQ hfound hemitted.limits)
  obtain ⟨hjump, hpops, htotal⟩ := hi a
  have hrise := hemitted.rise
  refine ⟨is ++ [⟨i a, span⟩], ⟨hemitted.valid, hlimits.trans hemitted.limits, ?_, ?_, ?_⟩, ?_⟩
  · rw [rise_append, rise_singleton]
    show Bytescript.rise is + ((i a).pushes - (i a).pops) = total
    omega
  · refine hemitted.balanced.emit ?_ hjump
    show ((i a).pops : Int) ≤ Bytescript.rise is
    omega
  · intro j hj
    rcases List.mem_append.mp hj with hj | hj
    · exact hemitted.proper j hj
    · rw [List.mem_singleton.mp hj]
      exact hproper
  · -- another run finds the same, since the preparation does not see the code
    intro code code' st' hrun'
    obtain ⟨a', st₁', hprepare', hrun'⟩ := bind_ok.mp hrun'
    obtain ⟨rfl, rfl⟩ : a = a' ∧ st₁ = st₁' := by simpa [hprepare] using hprepare'
    obtain ⟨mid, st₂', hpart', hend'⟩ := bind_ok.mp hrun'
    obtain ⟨rfl, hmid⟩ := hplaced hpart'
    obtain ⟨rfl, rfl, -⟩ := hq hend' (hQ hfound hemitted.limits)
    exact ⟨rfl, hmid.emit hjump span⟩

/-- A part between a preparation and the instruction that it prepares. -/
theorem around {α : Type} {x : Compile α} {q : α → Fragment → Compile Fragment} {total : Nat}
    (h : Emits count part) (i : α → Instruction) (span : Span)
    (hx : ∀ ⦃st a st₁⦄, x.run st = .ok (a, st₁) → st.Valid →
      st₁.Valid ∧ st.limits.Le st₁.limits ∧ (i a).Proper st₁.limits)
    (hq : ∀ ⦃a code code₁ st st₁⦄, (q a code).run st = .ok (code₁, st₁) →
      st = st₁ ∧ code₁ = code.emit (i a).opcode (i a).operands span)
    (hi : ∀ a, (i a).opcode.isJump = false ∧ (i a).pops ≤ count ∧
      total + (i a).pops = count + (i a).pushes) :
    Emits total fun code => x >>= fun a => part code >>= q a := by
  refine h.step span (Q := fun a l => (i a).Proper l) hx (fun _ _ _ h hle => h.mono hle) ?_ hi
  intro a code code₁ st st₁ hrun hproper
  obtain ⟨hst, hcode⟩ := hq hrun
  exact ⟨hst, hcode, hproper⟩

/-- A part with an instruction after it that refers to nothing. -/
theorem then_step {q : Fragment → Compile Fragment} {total : Nat} (h : Emits count part)
    (i : Instruction) (span : Span)
    (hq : ∀ ⦃code code₁ st st₁⦄, (q code).run st = .ok (code₁, st₁) →
      st = st₁ ∧ code₁ = code.emit i.opcode i.operands span ∧ ∀ l, i.Proper l)
    (hjump : i.opcode.isJump = false) (hpops : i.pops ≤ count)
    (htotal : total + i.pops = count + i.pushes) :
    Emits total fun code => part code >>= q := by
  refine (h.step span (x := pure ()) (Q := fun _ _ => True) (i := fun _ => i) (q := fun _ => q) ?_
    (fun _ _ _ h _ => h) ?_ fun _ => ⟨hjump, hpops, htotal⟩).of_eq fun code => ?_
  · intro st a st₁ hx hst
    obtain ⟨-, rfl⟩ := pure_ok.mp hx
    exact ⟨hst, .refl _, trivial⟩
  · intro a code code₁ st st₁ hrun _
    obtain ⟨hst, hcode, hproper⟩ := hq hrun
    exact ⟨hst, hcode, hproper _⟩
  · rw [pure_bind]

theorem then_emit {total : Nat} (h : Emits count part) (i : Instruction) (span : Span)
    (hproper : ∀ l, i.Proper l) (hjump : i.opcode.isJump = false) (hpops : i.pops ≤ count)
    (htotal : total + i.pops = count + i.pushes) :
    Emits total fun code => do
      let code ← part code
      return code.emit i.opcode i.operands span := by
  refine h.then_step i span ?_ hjump hpops htotal
  intro code code₁ st st₁ hrun
  obtain ⟨rfl, rfl⟩ := pure_ok.mp hrun
  exact ⟨rfl, rfl, hproper⟩

/-- A part with an instruction without operands after it. -/
theorem then_simple {total : Nat} (h : Emits count part) (op : Opcode) (hop : op.operandWidths = [])
    (hne : op ≠ .currentClosure) (span : Span) (hpops : Instruction.pops ⟨op, []⟩ ≤ count)
    (htotal : total + Instruction.pops ⟨op, []⟩ = count + Instruction.pushes ⟨op, []⟩) :
    Emits total fun code => do
      let code ← part code
      return code.emit op [] span := by
  have hjump : op.isJump = false := by
    rw [Opcode.isJump, decide_eq_false_iff_not]
    rintro (rfl | rfl) <;> cases hop
  exact h.then_emit ⟨op, []⟩ span (fun _ => .simple hop hne) hjump hpops htotal

/-- An instruction without operands on its own. -/
theorem simple (op : Opcode) (hop : op.operandWidths = []) (hne : op ≠ .currentClosure)
    (span : Span) (hpops : Instruction.pops ⟨op, []⟩ = 0) :
    Emits (Instruction.pushes ⟨op, []⟩) fun code => pure (code.emit op [] span) := by
  refine (Emits.nothing.then_simple op hop hne span (Nat.le_of_eq hpops) (by omega)).of_eq ?_
  intro code
  rw [pure_bind]

/-- A part with a check of a limit and an instruction after it. -/
theorem then_limit_emit {total : Nat} (h : Emits count part) (i : Instruction) (span : Span)
    (what : Quota) (number max : Nat) (hproper : number ≤ max → ∀ l, i.Proper l)
    (hjump : i.opcode.isJump = false) (hpops : i.pops ≤ count)
    (htotal : total + i.pops = count + i.pushes) :
    Emits total fun code => do
      let code ← part code
      limit what number max span
      return code.emit i.opcode i.operands span := by
  refine h.then_step i span ?_ hjump hpops htotal
  intro code code₁ st st₁ hrun
  simp only [bind_ok, limit_ok, pure_ok] at hrun
  obtain ⟨_, _, ⟨hlimit, rfl⟩, rfl, rfl⟩ := hrun
  exact ⟨rfl, rfl, hproper hlimit⟩

theorem conditional {condition thenPart elsePart : Fragment → Compile Fragment}
    (h : Emits 1 condition) (hthen : Emits 1 thenPart) (helse : Emits 1 elsePart) (span : Span) :
    Emits 1 fun code => do
      let code ← condition code
      let thenCode ← thenPart (.startingAt (code.stop + Opcode.jumpNotTruthy.width))
      let elseStart := thenCode.stop + Opcode.jump.width
      limit .jumpDistance elseStart maxWide span
      let elseCode ← elsePart (.startingAt elseStart)
      limit .jumpDistance elseCode.stop maxWide span
      return code.joinArms span thenCode elseCode := by
  intro code₀ code₁ st st₃ hrun hst
  simp only [bind_ok, limit_ok, pure_ok] at hrun
  obtain ⟨c₁, s₁, hrun₁, c₂, s₂, hrun₂, _, _, ⟨-, rfl⟩, hrun⟩ := hrun
  obtain ⟨c₃, s₃, hrun₃, _, _, ⟨-, rfl⟩, -, rfl⟩ := hrun
  obtain ⟨is, he, hplaced⟩ := h hrun₁ hst
  obtain ⟨js, he', hplaced'⟩ := hthen hrun₂ he.valid
  obtain ⟨ks, he'', hplaced''⟩ := helse hrun₃ he'.valid
  have hlimits := he'.limits.trans he''.limits
  refine ⟨branching span is js ks, ⟨he''.valid, he.limits.trans hlimits, ?_, ?_, ?_⟩, ?_⟩
  · exact rise_branching he.rise he'.rise he''.rise
  · exact he.balanced.branching he'.balanced he''.balanced he.rise he'.rise he''.rise
  · intro i hi
    -- the pools only grow, so what was proper for an earlier part stays so
    simp only [branching, List.mem_append, List.mem_singleton] at hi
    rcases hi with (((hi | rfl) | hi) | rfl) | hi
    · exact (he.proper i hi).mono hlimits
    · exact .jump _ rfl
    · obtain ⟨j, hj, rfl⟩ := List.mem_map.mp hi
      exact ((he'.proper j hj).mono he''.limits).moved _
    · exact .jump _ rfl
    · obtain ⟨j, hj, rfl⟩ := List.mem_map.mp hi
      exact (he''.proper j hj).moved _
  · intro code code' st' hrun'
    simp only [bind_ok, limit_ok, pure_ok] at hrun'
    -- run anywhere else, the three parts give the same instructions, moved to where they are placed
    obtain ⟨d₁, t₁, hrun₁', d₂, t₂, hrun₂', _, _, ⟨-, rfl⟩, hrun'⟩ := hrun'
    obtain ⟨d₃, t₃, hrun₃', _, _, ⟨hstop, rfl⟩, rfl, rfl⟩ := hrun'
    obtain ⟨rfl, h₁⟩ := hplaced hrun₁'
    obtain ⟨rfl, h₂⟩ := hplaced' hrun₂'
    obtain ⟨rfl, h₃⟩ := hplaced'' hrun₃'
    exact ⟨rfl, h₁.branching h₂ h₃ hstop span⟩

end Emits

/-! ### Names and constants -/

/-- The instruction that pushes the value of a symbol. -/
def loadInstruction (s : Symbol) : Instruction :=
  match s.storage with
  | .globalSlot => ⟨.getGlobal, [s.index]⟩
  | .localSlot => ⟨.getLocal, [s.index]⟩
  | .captured => ⟨.getFree, [s.index]⟩
  | .builtin => ⟨.getBuiltin, [s.index]⟩
  | .self => ⟨.currentClosure, []⟩

theorem load_eq (s : Symbol) (span : Span) (code : Fragment) :
    load s span code =
      code.emit (loadInstruction s).opcode (loadInstruction s).operands span := by
  rw [load, loadInstruction]
  cases s.storage <;> rfl

theorem loadInstruction_pushes (s : Symbol) : (loadInstruction s).opcode.isJump = false ∧
    (loadInstruction s).pops = 0 ∧ (loadInstruction s).pushes = 1 := by
  rw [loadInstruction]
  cases s.storage <;> exact ⟨rfl, rfl, rfl⟩

/-- The variables of the current function can be loaded. -/
theorem proper_variable {s : Symbol} {name : String} (hsound : st.scopes.Sound)
    (hs : s.IsVariable) (hentry : st.scopes.current.symbols[name]? = some s) :
    (loadInstruction s).Proper st.limits := by
  -- the root has no variables
  have houter : st.scopes.isGlobal = false := by
    obtain ⟨⟨current, outer⟩, constants⟩ := st
    cases hsound with
    | root _ hroot =>
      rcases hroot.storage hentry with ⟨hglobal, -⟩ | ⟨hbuiltin, -⟩
      · simp [Symbol.IsVariable, hglobal] at hs
      · simp [Symbol.IsVariable, hbuiltin] at hs
    | inner => rfl
  rw [loadInstruction]
  rcases hs with hs | hs | hs
  · rw [hs]
    refine .slot (.inl rfl) ?_
    show s.index < if st.scopes.isGlobal then 0 else _
    rw [houter]
    exact hsound.sound.slot_lt hentry (.inr hs)
  · rw [hs]
    obtain ⟨c, hc, -⟩ := hsound.sound.captured hentry hs
    exact .captured (Array.getElem?_eq_some_iff.mp hc).1
  · rw [hs]
    refine .self ?_
    show (!st.scopes.isGlobal) = true
    rw [houter]
    rfl

/-- What stands in the root can be loaded. -/
theorem proper_global {s : Symbol} {name : String} (hsound : st.scopes.Sound)
    (hentry : st.scopes.root.symbols[name]? = some s) :
    (loadInstruction s).Proper st.limits := by
  have hroot := hsound.isRoot
  have hslot := hsound.root_sound
  rw [loadInstruction]
  rcases hroot.storage hentry with ⟨hs, -⟩ | ⟨hs, b, hb, -⟩
  · rw [hs]
    exact .global (.inl rfl) (hslot.slot_lt hentry (.inl hs))
  · rw [hs]
    exact .builtin hb

/-- What a name is resolved to can be loaded. -/
theorem resolve_prepares {name : String} {span : Span} {s : Symbol}
    (h : (resolve name span).run st = .ok (s, st₁)) (hst : st.Valid) :
    st₁.Valid ∧ st.limits.Le st₁.limits ∧ (loadInstruction s).Proper st₁.limits := by
  have hadvances := advances_resolve h hst.sound
  obtain ⟨scopes, hresolve, rfl⟩ := withScopes_ok.mp h
  obtain ⟨hsound, -, hfound⟩ := Scopes.resolve_spec hst.sound hresolve
  refine ⟨valid_of_le hst hsound hadvances.limits fun f hf => .inl hf, hadvances.limits, ?_⟩
  rcases hfound with ⟨hs, hentry⟩ | ⟨hentry, -⟩
  · exact proper_variable hsound hs hentry
  · exact proper_global hsound hentry

theorem emits_identifier (name : String) (span : Span) :
    Emits 1 (expr (.identifier name span)) := by
  refine (Emits.nothing.around (x := resolve name span)
    (q := fun s code => pure (load s span code)) loadInstruction span
    (fun _ _ _ => resolve_prepares) ?_ ?_).of_eq ?_
  · intro s code code₁ st st₁ h
    obtain ⟨rfl, rfl⟩ := pure_ok.mp h
    exact ⟨rfl, load_eq _ _ _⟩
  · intro s
    obtain ⟨hjump, hpops, hpushes⟩ := loadInstruction_pushes s
    exact ⟨hjump, by omega, by omega⟩
  · intro code
    rw [expr]
    rfl

/-- A constant that is no function is pushed. -/
theorem emits_constant {c : Constant} (hc : ∀ f, c ≠ .function f) (span : Span) :
    Emits 1 fun code => do
      let index ← addConstant c span
      return code.emit .constant [index] span := by
  refine (Emits.nothing.around (x := addConstant c span)
    (q := fun n code => pure (code.emit .constant [n] span)) (fun n => ⟨.constant, [n]⟩) span ?_ ?_
    fun _ => ⟨rfl, Nat.le_refl _, rfl⟩).of_eq ?_
  · intro st n st₁ h hst
    have hadvances := advances_addConstant h hst.sound
    obtain ⟨hsize, rfl, rfl⟩ := addConstant_ok.mp h
    refine ⟨valid_of_le hst hst.sound hadvances.limits fun f hf => ?_, hadvances.limits, ?_⟩
    · rw [Array.toList_push, List.mem_append, List.mem_singleton] at hf
      exact .inl (hf.resolve_right fun h => hc f h.symm)
    · exact .constant hsize (by simp [CompilerState.limits]) hc
  · intro n code code₁ st st₁ h
    obtain ⟨rfl, rfl⟩ := pure_ok.mp h
    exact ⟨rfl, rfl⟩
  · intro code
    simp only [pure_bind]

/-! ### Statements -/

/-- The instruction that stores in a new name. -/
def storeInstruction (s : Symbol) : Instruction :=
  ⟨if s.storage = .globalSlot then .setGlobal else .setLocal, [s.index]⟩

/-- The number of parameters that a declaration records for its name. -/
def recordedArity : Mutability → Expr → Option Nat
  | .constant, .function _ params _ _ => some params.length
  | _, _ => none

/-- What a declaration enters. -/
theorem declareName_ok {mutability : Mutability} {name : String} {value : Expr} {span : Span}
    {s : Symbol} (h : (declareName mutability name value span).run st = .ok (s, st₁)) :
    s = ⟨name, st.scopes.slotStorage, st.scopes.current.definitions, mutability, none⟩ ∧
      ∃ t, ScopeTable.Declared { s with arity? := recordedArity mutability value }
        st.scopes.current t ∧ st₁ = { st with scopes := ⟨t, st.scopes.outer⟩ } := by
  rw [declareName, bind_ok] at h
  obtain ⟨s', _, hdefine, h⟩ := h
  obtain ⟨scopes, hscopes, rfl⟩ := withScopes_ok.mp hdefine
  obtain ⟨hs, t, hdeclared, rfl⟩ := Scopes.define_ok hscopes
  subst hs
  split at h
  · simp only [bind_ok, modifyScopes, modify_ok, pure_ok] at h
    obtain ⟨_, _, rfl, rfl, rfl⟩ := h
    exact ⟨rfl, _, hdeclared.recordArity _, rfl⟩
  · next hother =>
    obtain ⟨rfl, rfl⟩ := pure_ok.mp h
    refine ⟨rfl, t, ?_, rfl⟩
    rw [recordedArity]
    · exact hdeclared
    · exact hother

/-- The slot that a declaration gives away exists. -/
theorem declareName_prepares {mutability : Mutability} {name : String} {value : Expr} {span : Span}
    {s : Symbol} (h : (declareName mutability name value span).run st = .ok (s, st₁))
    (hst : st.Valid) :
    st₁.Valid ∧ st.limits.Le st₁.limits ∧ (storeInstruction s).Proper st₁.limits := by
  obtain ⟨hs, t, hdeclared, rfl⟩ := declareName_ok h
  have hsound : Scopes.Linked t st.scopes.outer :=
    Scopes.sound_of_declared hst.sound hdeclared (by rw [hs])
  have hle : st.limits.Le (CompilerState.limits ⟨⟨t, st.scopes.outer⟩, st.constants⟩) :=
    limits_le (hdeclared.grows fun _ => True) (.refl (fun _ => True) _) List.prefix_rfl
  refine ⟨valid_of_le hst hsound hle fun f hf => .inl hf, hle, ?_⟩
  have hlt : s.index < t.definitions := by
    rw [hdeclared.definitions, hs]
    exact Nat.lt_succ_self _
  have hstorage : s.storage = st.scopes.slotStorage := by rw [hs]
  rw [storeInstruction, hstorage, Scopes.slotStorage]
  cases hroot : st.scopes.isGlobal with
  | true =>
    refine .global (.inr (.inl rfl)) ?_
    have hnil : st.scopes.outer = [] := by simpa [Scopes.isGlobal] using hroot
    show s.index < (st.scopes.outer.getLastD t).definitions
    rw [hnil]
    exact hlt
  | false =>
    refine .slot (.inr (.inl rfl)) ?_
    show s.index < if st.scopes.isGlobal then 0 else t.definitions
    rw [hroot]
    exact hlt

theorem emits_declare {value : Expr} (h : Emits 1 (expr value)) (mutability : Mutability)
    (name : String) (span : Span) : Emits 0 (stmt (.declare mutability name value span)) := by
  refine (h.around (x := declareName mutability name value span) storeInstruction span
    (fun _ _ _ => declareName_prepares) ?_ ?_).of_eq fun code => by rw [stmt]; rfl
  · intro s code code₁ st st₁ hrun
    obtain ⟨rfl, -, rfl⟩ := storeNew_ok hrun
    exact ⟨rfl, rfl⟩
  · intro s
    rw [storeInstruction]
    split <;> exact ⟨rfl, Nat.le_refl _, rfl⟩

/-- The instruction that assigns to a name. -/
def assignInstruction (s : Symbol) : Instruction :=
  ⟨if s.storage = .globalSlot then .assignGlobal else .assignLocal, [s.index]⟩

/-- A slot that can be loaded can be assigned. -/
theorem proper_assign {l : Limits} {s : Symbol} (hs : s.IsSlot) (h : (loadInstruction s).Proper l) :
    (assignInstruction s).Proper l := by
  rw [loadInstruction] at h
  rw [assignInstruction]
  rcases hs with hs | hs
  · rw [hs] at h ⊢
    cases h with
    | global _ hlt => exact .global (.inr (.inr rfl)) hlt
    | slot hop => simp at hop
    | jump _ hop => cases hop
  · rw [hs] at h ⊢
    cases h with
    | slot _ hlt => exact .slot (.inr (.inr rfl)) hlt
    | global hop => simp at hop
    | jump _ hop => cases hop

theorem emits_assign {value : Expr} (h : Emits 1 (expr value)) (name : String) (span : Span) :
    Emits 0 (stmt (.assign name value span)) := by
  refine (h.around (x := resolveTarget name span) (q := fun s code => pure (assign s span code))
    assignInstruction span ?_ ?_ ?_).of_eq fun code => by rw [stmt]; rfl
  · intro st s st₁ hrun hst
    obtain ⟨hresolve, hs, -⟩ := resolveTarget_ok hrun
    obtain ⟨hvalid, hle, hproper⟩ := resolve_prepares hresolve hst
    exact ⟨hvalid, hle, proper_assign hs hproper⟩
  · intro s code code₁ st st₁ hrun
    obtain ⟨rfl, rfl⟩ := pure_ok.mp hrun
    refine ⟨rfl, ?_⟩
    rw [assign, assignInstruction]
    split <;> rfl
  · intro s
    rw [assignInstruction]
    split <;> exact ⟨rfl, Nat.le_refl _, rfl⟩

/-! ### Functions -/

/-- The instructions that push captured values. -/
def loads (symbols : List Symbol) (span : Span) : List (Located Instruction) :=
  symbols.map fun s => ⟨loadInstruction s, span⟩

@[simp]
theorem moved_loads (distance : Nat) (symbols : List Symbol) (span : Span) :
    moved distance (loads symbols span) = loads symbols span := by
  rw [loads, moved, List.map_map]
  refine List.map_congr_left fun s _ => ?_
  simp only [Function.comp_apply, Instruction.moved_of_not_isJump _ (loadInstruction_pushes s).1]

theorem balanced_loads (symbols : List Symbol) (span : Span) :
    Balanced (loads symbols span) ∧ rise (loads symbols span) = symbols.length := by
  induction symbols with
  | nil => exact ⟨.nil, rfl⟩
  | cons s rest ih =>
    obtain ⟨hjump, hpops, hpushes⟩ := loadInstruction_pushes s
    have hhead : Balanced [⟨loadInstruction s, span⟩] := by
      have := Balanced.nil.emit (i := ⟨loadInstruction s, span⟩) (by simp [hpops]) hjump
      exact this
    have hrise : rise [⟨loadInstruction s, span⟩] = 1 := by simp [hpops, hpushes]
    have hcons : loads (s :: rest) span = [⟨loadInstruction s, span⟩] ++
        moved (encodeAll [⟨loadInstruction s, span⟩]).length (loads rest span) := by
      rw [moved_loads]
      rfl
    rw [hcons]
    refine ⟨hhead.append ih.1 (by omega), ?_⟩
    rw [rise_append, rise_moved, hrise, ih.2, List.length_cons]
    omega

theorem placed_loadAll (symbols : List Symbol) (span : Span) (code : Fragment) :
    Placed (loads symbols span) code (loadAll symbols span code) := by
  induction symbols generalizing code with
  | nil => exact .nil code
  | cons s rest ih =>
    have hhead : Placed [⟨loadInstruction s, span⟩] code (load s span code) := by
      rw [load_eq]
      exact (Placed.nil code).emit (loadInstruction_pushes s).1 span
    have := hhead.append (ih (load s span code))
    rwa [moved_loads] at this

/-- The state in which the body of a function is compiled. -/
theorem valid_entered {name? : Option String} {params : List Param} {t : ScopeTable}
    (hst : st.Valid) (ht : ScopeTable.Entered name? params t) :
    CompilerState.Valid { st with scopes := ⟨t, st.scopes.current :: st.scopes.outer⟩ } := by
  refine ⟨ht.linked hst.sound, fun f hf => ?_⟩
  obtain ⟨count, hchecked⟩ := hst.functions f hf
  refine ⟨count, ?_⟩
  show f.Checked _ ((st.scopes.current :: st.scopes.outer).getLastD t).definitions count
  rwa [List.getLastD_cons]

/-- What the body of a function may refer to. -/
theorem limits_of_inFunction (h : st.limits.inFunction = true) :
    st.limits = ⟨st.constants.toList, st.scopes.root.definitions, st.scopes.current.definitions,
      st.scopes.current.captures.size, true⟩ := by
  have hinner : st.scopes.isGlobal = false := by
    simpa [CompilerState.limits] using h
  rw [CompilerState.limits, hinner]
  rfl

/-- A function is checked when its body is complete. -/
theorem checked_function {name? : Option String} {params : List Param} {t : ScopeTable}
    {st' : CompilerState} {bodyCode : Fragment} {is : List (Located Instruction)}
    (ht : ScopeTable.Entered name? params t)
    (he : Emitted { st with scopes := ⟨t, st.scopes.current :: st.scopes.outer⟩ } st' 0 is)
    (hplaced : Placed is {} bodyCode) (hlocals : st'.scopes.current.definitions ≤ maxNarrow + 1)
    (hcaptures : st'.scopes.current.captures.size ≤ maxNarrow) :
    (functionCode name? params bodyCode st'.scopes.current).Checked st'.constants.toList
      st'.scopes.root.definitions st'.scopes.current.captures.size := by
  have hlimits := limits_of_inFunction he.limits.inFunction.symm
  refine ⟨?_, hlocals, hcaptures, is, ?_, he.balanced, ?_, ?_⟩
  · -- the parameters were declared first, and declarations are never taken back
    have hle := he.limits.locals
    rw [hlimits] at hle
    have : t.definitions ≤ st'.scopes.current.definitions := by
      simpa [CompilerState.limits, Scopes.isGlobal] using hle
    rwa [ht.definitions] at this
  · show bodyCode.assemble.bytes.toList = _
    have hinstructions := hplaced.extended.instructions
    rw [Fragment.bytes_assemble, hinstructions]
    show encodeAll ([] ++ moved 0 is) = _
    rw [List.nil_append, moved_zero]
  · intro i hi
    have := he.proper i hi
    rwa [hlimits] at this
  · exact hplaced.targets

/-- The table of the function is left, and the function is added to the pool. -/
theorem valid_leave {scopes : Scopes} {f : FunctionCode} {count : Nat} (hst : st.Valid)
    (hsound : scopes.Sound) (hroot : scopes.root = st.scopes.root)
    (hf : f.Checked st.constants.toList st.scopes.root.definitions count) :
    CompilerState.Valid ⟨scopes, st.constants.push (.function f)⟩ := by
  have hpool : st.constants.toList <+: (st.constants.push (.function f)).toList := by simp
  have hglobals : st.scopes.root.definitions ≤ scopes.root.definitions :=
    Nat.le_of_eq (congrArg ScopeTable.definitions hroot.symm)
  refine ⟨hsound, fun g hg => ?_⟩
  rw [Array.toList_push, List.mem_append, List.mem_singleton] at hg
  rcases hg with hg | hg
  · obtain ⟨count, hchecked⟩ := hst.functions g hg
    exact ⟨count, hchecked.mono hpool hglobals⟩
  · cases hg
    exact ⟨count, hf.mono hpool hglobals⟩

theorem emits_function {body : Block} (h : Emits 0 (block .body body)) (name? : Option String)
    (params : List Param) (span : Span) : Emits 1 (expr (.function name? params body span)) := by
  intro code₀ code₁ st st₁ hrun hst
  obtain ⟨hadvances, -⟩ := (adds_expr (.function name? params body span)).advances hrun hst.sound
  obtain ⟨entered, bodyCode, st', henter, hbody, -, hlocals, hcaptures, hsize, rfl, -⟩ :=
    function_run hrun
  obtain ⟨t, ht, rfl⟩ := enterFunction_ok henter hst.sound
  obtain ⟨is, he, hplaced⟩ := h hbody (valid_entered hst ht)
  obtain ⟨-, hplaced⟩ := hplaced hbody
  rw [Array.length_toList] at hcaptures
  have hchecked := checked_function ht he hplaced hlocals hcaptures
  have houter : st'.scopes.outer ≠ [] := by
    have := he.limits.inFunction
    simpa [CompilerState.limits, Scopes.isGlobal] using this
  obtain ⟨hroot, hvariables⟩ := Scopes.leave_spec he.valid.sound houter
  have hvalid := valid_leave he.valid hadvances.sound hroot hchecked
  obtain ⟨hbalanced, hrise⟩ := balanced_loads st'.scopes.current.captures.toList span
  refine ⟨loads st'.scopes.current.captures.toList span ++ [⟨⟨.closure, [st'.constants.size,
    st'.scopes.current.captures.toList.length]⟩, span⟩], ⟨hvalid, hadvances.limits, ?_, ?_, ?_⟩, ?_⟩
  · rw [rise_append, hrise, rise_singleton]
    show (st'.scopes.current.captures.toList.length : Int) +
      (1 - st'.scopes.current.captures.toList.length) = 1
    omega
  · refine hbalanced.emit ?_ rfl
    rw [hrise]
    exact Int.le_refl _
  · intro i hi
    rcases List.mem_append.mp hi with hi | hi
    · obtain ⟨c, hc, rfl⟩ := List.mem_map.mp hi
      obtain ⟨hvariable, hentry⟩ := hvariables c hc
      exact proper_variable hvalid.sound hvariable hentry
    · rw [List.mem_singleton.mp hi]
      have hget : (st'.constants.push (.function
          (functionCode name? params bodyCode st'.scopes.current))).toList[st'.constants.size]? =
          some (.function (functionCode name? params bodyCode st'.scopes.current)) := by simp
      refine .closure hsize ?_ hget ?_
      · rwa [Array.length_toList]
      · rw [Array.length_toList]
        exact hchecked.reads
  · -- the body is compiled in the same way before any code
    intro code code' st'' hrun'
    obtain ⟨entered, bodyCode', st₂, henter', hbody', -, -, -, -, rfl, rfl⟩ := function_run hrun'
    obtain rfl : _ = entered := by simpa [henter] using henter'
    obtain ⟨rfl, rfl⟩ : bodyCode = bodyCode' ∧ st' = st₂ := by simpa [hbody] using hbody'
    exact ⟨rfl, (placed_loadAll _ _ _).emit rfl span⟩

/-! ### Trees -/

theorem emits_binary {left right : Expr} (hleft : Emits 1 (expr left))
    (hright : Emits 1 (expr right)) (op : BinaryOp) (span : Span) :
    Emits 1 (expr (.binary op left right span)) := by
  have hproper : ∀ l, Instruction.Proper l ⟨(binaryOpcode op).1, []⟩ := by
    intro l
    refine .simple ?_ ?_ <;> cases op <;> decide
  have hjump : (binaryOpcode op).1.isJump = false := by cases op <;> rfl
  have hpops : Instruction.pops ⟨(binaryOpcode op).1, []⟩ = 2 := by cases op <;> rfl
  have hpushes : Instruction.pushes ⟨(binaryOpcode op).1, []⟩ = 1 := by cases op <;> rfl
  cases hfirst : op.isRightFirst with
  | true =>
    refine ((hright.seq hleft).then_emit ⟨(binaryOpcode op).1, []⟩ span hproper hjump (by omega)
      (by omega)).of_eq fun code => ?_
    rw [expr_binary_of_rightFirst hfirst, bind_assoc]
  | false =>
    refine ((hleft.seq hright).then_emit ⟨(binaryOpcode op).1, []⟩ span hproper hjump (by omega)
      (by omega)).of_eq fun code => ?_
    rw [expr_binary_of_leftFirst hfirst, bind_assoc]

theorem emits_call {callee : Expr} {args : List Expr} (hcallee : Emits 1 (expr callee))
    (hargs : Emits args.length (exprs args)) (span : Span) :
    Emits 1 (expr (.call callee args span)) := by
  -- the number of arguments is compared with its limit before any code is emitted
  have htotal : 1 + (args.length + 1) = 1 + args.length + 1 := by omega
  have hcall := (hcallee.seq hargs).then_limit_emit ⟨.call, [args.length]⟩ span .arguments
    args.length maxNarrow (fun h _ => .call h) rfl (Nat.le_of_eq (Nat.add_comm _ _)) htotal
  refine hcall.of_run fun code code₁ st st₁ hrun => ?_
  obtain ⟨hlimit, hrun⟩ := call_ok hrun
  simp only [bind_ok, pure_ok, limit_ok] at hrun ⊢
  obtain ⟨c₁, s₁, hrun₁, c₂, s₂, hrun₂, hend⟩ := hrun
  exact ⟨c₂, s₂, ⟨c₁, s₁, hrun₁, hrun₂⟩, ⟨⟩, s₂, ⟨hlimit, rfl⟩, hend⟩

mutual

theorem emits_expr : ∀ e : Expr, Emits 1 (expr e)
  | .identifier name span => emits_identifier name span
  | .integer value span =>
    (emits_constant (c := .integer value) (by simp) span).of_eq fun _ => by rw [expr]; rfl
  | .float value span =>
    (emits_constant (c := .float value) (by simp) span).of_eq fun _ => by rw [expr]; rfl
  | .string value span =>
    (emits_constant (c := .string value) (by simp) span).of_eq fun _ => by rw [expr]; rfl
  | .boolean true span => (Emits.simple .true rfl (by decide) span rfl).of_eq fun _ => by
    rw [expr]
    rfl
  | .boolean false span => (Emits.simple .false rfl (by decide) span rfl).of_eq fun _ => by
    rw [expr]
    rfl
  | .null span => (Emits.simple .null rfl (by decide) span rfl).of_eq fun _ => by rw [expr]; rfl
  | .unary .negate operand span =>
    ((emits_expr operand).then_simple .minus rfl (by decide) span (Nat.le_refl _) rfl).of_eq
      fun _ => by
        rw [expr]
        rfl
  | .unary .not operand span =>
    ((emits_expr operand).then_simple .bang rfl (by decide) span (Nat.le_refl _) rfl).of_eq
      fun _ => by
        rw [expr]
        rfl
  | .binary op left right span => emits_binary (emits_expr left) (emits_expr right) op span
  | .conditional condition thenBranch elseBranch span =>
    ((emits_expr condition).conditional (emits_block .arm thenBranch)
      (emits_alternative elseBranch span) span).of_eq (expr_conditional _ _ _ _)
  | .function name? params body span => emits_function (emits_block .body body) name? params span
  | .call callee args span => emits_call (emits_expr callee) (emits_exprs args) span
  | .array elements span =>
    ((emits_exprs elements).then_limit_emit ⟨.array, [elements.length]⟩ span _ _ _
      (fun h _ => .array h) rfl (Nat.le_refl _) (Nat.add_comm _ _)).of_eq fun _ => by rw [expr]; rfl
  | .hash pairs span =>
    ((emits_entries pairs).then_limit_emit ⟨.hash, [2 * pairs.length]⟩ span _ _ _
      (fun h _ => .hash h) rfl (Nat.le_refl _) (Nat.add_comm _ _)).of_eq fun _ => by rw [expr]; rfl
  | .index object index span =>
    (((emits_expr object).seq (emits_expr index)).then_simple .index rfl (by decide) span
      (Nat.le_refl _) rfl).of_eq fun _ => by rw [expr, bind_assoc]; rfl

theorem emits_exprs : ∀ es : List Expr, Emits es.length (exprs es)
  | [] => Emits.nothing.of_eq fun _ => by rw [exprs]
  | e :: rest => by
    have h := (emits_expr e).seq (emits_exprs rest)
    rw [Nat.add_comm] at h
    exact h.of_eq fun _ => by rw [exprs]

theorem emits_entries : ∀ pairs : List (Expr × Expr), Emits (2 * pairs.length) (entries pairs)
  | [] => Emits.nothing.of_eq fun _ => by rw [entries]
  | (key, value) :: rest => by
    have h := ((emits_expr key).seq (emits_expr value)).seq (emits_entries rest)
    rw [Nat.add_comm] at h
    exact h.of_eq fun code => by rw [entries, bind_assoc]

theorem emits_alternative : ∀ (arm : Option Block) (span : Span), Emits 1 (alternative arm span)
  | none, span =>
    (Emits.simple .null rfl (by decide) span rfl).of_eq fun _ => by rw [alternative]; rfl
  | some arm, _ => (emits_block .arm arm).of_eq fun _ => by rw [alternative]

/-- A block that gives a value leaves it on the stack if it is an arm of a conditional, and takes
it away with a return if it is the body of a function. -/
theorem emits_block : ∀ (purpose : Purpose) (b : Block),
    Emits (if purpose = .arm then 1 else 0) (block purpose b)
  | purpose, .mk statements span => emits_valued purpose span statements

theorem emits_valued : ∀ (purpose : Purpose) (span : Span) (statements : List Stmt),
    Emits (if purpose = .arm then 1 else 0) (block purpose (.mk statements span))
  | .arm, span, [] => (Emits.simple .null rfl (by decide) span rfl).of_eq (block_nil .arm span)
  | .body, span, [] => (Emits.simple .ret rfl (by decide) span rfl).of_eq (block_nil .body span)
  | .arm, span, [.expression e span'] => (emits_expr e).of_eq (block_arm_expression e span span')
  | .body, span, [.expression e span'] =>
    ((emits_expr e).then_simple .returnValue rfl (by decide) span' (Nat.le_refl _) rfl).of_eq
      (block_body_expression e span span')
  | .body, span, [.ret value span'] =>
    (emits_stmt (.ret value span')).of_eq (block_body_ret value span span')
  | .arm, span, [.ret value span'] =>
    ((emits_stmt (.ret value span')).seq (emits_valued .arm span [])).of_eq
      (block_cons (by simp) span)
  | purpose, span, [.declare mutability name value span'] => by
    have h := (emits_stmt (.declare mutability name value span')).seq (emits_valued purpose span [])
    rw [Nat.zero_add] at h
    exact h.of_eq (block_cons (by simp) span)
  | purpose, span, [.assign name value span'] => by
    have h := (emits_stmt (.assign name value span')).seq (emits_valued purpose span [])
    rw [Nat.zero_add] at h
    exact h.of_eq (block_cons (by simp) span)
  | purpose, span, s :: s' :: rest => by
    have h := (emits_stmt s).seq (emits_valued purpose span (s' :: rest))
    rw [Nat.zero_add] at h
    exact h.of_eq (block_cons (by simp) span)

theorem emits_stmt : ∀ s : Stmt, Emits 0 (stmt s)
  | .expression e span =>
    ((emits_expr e).then_simple .pop rfl (by decide) span (Nat.le_refl _) rfl).of_eq
      fun _ => by rw [stmt]; rfl
  | .declare mutability name value span => emits_declare (emits_expr value) mutability name span
  | .assign name value span => emits_assign (emits_expr value) name span
  | .ret none span =>
    (Emits.simple .ret rfl (by decide) span rfl).of_eq fun _ => by rw [stmt]; rfl
  | .ret (some value) span =>
    ((emits_expr value).then_simple .returnValue rfl (by decide) span (Nat.le_refl _)
      rfl).of_eq fun _ => by rw [stmt]; rfl

end

theorem emits_stmts (statements : List Stmt) : Emits 0 (stmts statements) := by
  induction statements with
  | nil => exact Emits.nothing.of_eq fun _ => by rw [stmts]
  | cons s rest ih => exact ((emits_stmt s).seq ih).of_eq fun _ => by rw [stmts]

end Compile

/-! ### Programs -/

/-- The states from which programs are compiled: the first one, and those after programs that were
compiled from such a state. -/
inductive CompilerState.Reachable : CompilerState → Prop where
  | init : Reachable {}
  | compile {st st₁ : CompilerState} {ast : Ast} {p : Program} : Reachable st →
      compileFrom st ast = .ok (p, st₁) → Reachable st₁

/-- Between programs the current table is the root, and its slots can be told apart by operands. -/
structure CompilerState.Ready (st : CompilerState) : Prop where
  valid : st.Valid
  outer : st.scopes.outer = []
  limit : st.scopes.current.definitions ≤ Scopes.globalLimit

namespace CompilerState.Ready

variable {st st₁ : CompilerState} {ast : Ast} {p : Program}

theorem init : Ready {} :=
  ⟨valid_init, rfl, Nat.zero_le _⟩

/-- The code of a program, and the state after it. -/
theorem compile (hst : st.Ready) (h : compileFrom st ast = .ok (p, st₁)) :
    st₁.Ready ∧ p.constants = st₁.constants ∧
      ∃ is, Compile.Emitted st st₁ 0 is ∧ p.code.bytes.toList = encodeAll is ∧ TargetsFit 0 is := by
  obtain ⟨code, hrun, hadvances, -, houter, rfl⟩ :=
    Compile.compileFrom_ok h hst.valid.sound hst.outer
  obtain ⟨is, he, hplaced⟩ := Compile.emits_stmts ast.statements hrun hst.valid
  obtain ⟨-, hplaced⟩ := hplaced hrun
  refine ⟨⟨he.valid, houter, hadvances.scopes.limit hst.outer hst.limit⟩, rfl, is, he, ?_,
    hplaced.targets⟩
  show code.assemble.bytes.toList = _
  have hinstructions : code.instructions.toList = [] ++ moved 0 is := hplaced.extended.instructions
  rw [Fragment.bytes_assemble, hinstructions, List.nil_append, moved_zero]

end CompilerState.Ready

theorem CompilerState.Reachable.ready {st : CompilerState} (h : st.Reachable) : st.Ready := by
  induction h with
  | init => exact .init
  | compile _ hcompile ih => exact (ih.compile hcompile).1

/-- Every function of a compiled program has room for its parameters among its locals. -/
theorem params_le_locals {st st₁ : CompilerState} (hst : st.Reachable) {ast : Ast} {p : Program}
    (h : compileFrom st ast = .ok (p, st₁)) {f : FunctionCode}
    (hf : .function f ∈ p.constants.toList) : f.params ≤ f.locals := by
  obtain ⟨hready, hconstants, -⟩ := hst.ready.compile h
  rw [hconstants] at hf
  obtain ⟨count, hchecked⟩ := hready.valid.functions f hf
  exact hchecked.params

end Bytescript

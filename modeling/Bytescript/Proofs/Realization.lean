/-
Compiled expressions realize their meaning.

`Realizes` says: where the code of a part of a tree stands in the running code, the machine follows
the evaluation of that part. There is one lemma for each kind of expression (`realizes_binary`,
`realizes_array`, `realizes_conditional`, …), which assumes it of the parts of the expression.

Design notes: `Realizes` speaks about any part of the compiler, like `Compile.Adds`. The part
takes some values from the stack and leaves the values of its result there; so the code of an
operator is put together from the code of its operands, which leave theirs, and the instruction
that takes them.
-/
import Bytescript.Proofs.Loading

namespace Bytescript

open Compile (Advances Adds)

variable {S : Setting} {R : Running S} {α β : Type}

/-- Where the code of a part of the compiler stands, the machine takes the values `before` from
the stack, follows the evaluation, and leaves the values of its result on the stack. -/
def Realizes (R : Running S) (before : List Value) (part : Fragment → Compile Fragment)
    (meaning : List String → Meaning α) (result : α → List Value → Prop) : Prop :=
  ∀ ⦃scope : List String⦄ ⦃code code₁ : Fragment⦄ ⦃st st₁ : CompilerState⦄ ⦃σ : Store⦄
    ⦃temps : List Value⦄ ⦃m : Machine Console Value⦄,
    (part code).run st = .ok (code₁, st₁) → R.Tracks scope st → st₁.Within S R.table →
    Fragment.Holds R.bytes code code₁ → At R σ code.stop (temps ++ before) m →
    Sim R (fun a σ' m' => ∃ vs, result a vs ∧ At R σ' code₁.stop (temps ++ vs) m')
      (meaning scope) σ m

namespace Realizes

variable {before : List Value} {part part' : Fragment → Compile Fragment}
  {meaning meaning' : List String → Meaning α} {result result' : α → List Value → Prop}

theorem of_eq (h : Realizes R before part' meaning' result) (hpart : ∀ code, part code = part' code)
    (hmeaning : ∀ scope, meaning scope = meaning' scope) :
    Realizes R before part meaning result := by
  obtain rfl : part = part' := funext hpart
  obtain rfl : meaning = meaning' := funext hmeaning
  exact h

theorem of_part (h : Realizes R before part' meaning result)
    (hpart : ∀ code, part code = part' code) : Realizes R before part meaning result :=
  h.of_eq hpart fun _ => rfl

/-- Values that are already on the stack stay below those that a part leaves. -/
theorem frame (h : Realizes R [] part meaning result) (before : List Value) :
    Realizes R before part meaning fun a vs => ∃ vs', vs = before ++ vs' ∧ result a vs' := by
  intro scope code code₁ st st₁ σ temps m hrun htracks hwithin hholds hat
  rw [← List.append_nil (temps ++ before)] at hat
  refine (h hrun htracks hwithin hholds hat).mono ?_
  rintro a σ' m' ⟨vs, hvs, hat'⟩
  exact ⟨before ++ vs, ⟨vs, rfl, hvs⟩, by rwa [← List.append_assoc]⟩

/-- Two parts, one after the other; the second takes what the first leaves. -/
theorem seq {result'' : β → List Value → Prop} {declared declared' : List String}
    {mentioned mentioned' : List String → List String}
    (h : Realizes R before part meaning result) (meaning'' : α → List String → Meaning β)
    (hadds : Adds declared mentioned part)
    (hadds' : Adds declared' mentioned' part')
    (h' : ∀ a vs, result a vs → Realizes R vs part' (meaning'' a) result'') :
    Realizes R before (fun code => part code >>= part')
      (fun scope => meaning scope >>= fun a => meaning'' a (scope ++ declared)) result'' := by
  intro scope code code₂ st st₂ σ temps m hrun htracks hwithin hholds hat
  obtain ⟨code₁, st₁, hrun, hrun'⟩ := Compile.bind_ok.mp hrun
  obtain ⟨hadvances, hbegins⟩ := hadds.advances hrun htracks.sound
  obtain ⟨hadvances', hbegins'⟩ := hadds'.advances hrun' hadvances.sound
  obtain ⟨hholds, hholds'⟩ := hholds.split hbegins hbegins'
  refine (h hrun htracks (hwithin.of_advances hadvances') hholds hat).bind ?_
  rintro a σ' m' ⟨vs, hvs, hat'⟩
  exact h' a vs hvs hrun' (htracks.advance hadvances) hwithin hholds' hat'

/-- What is computed from the result of an evaluation without the machine. -/
theorem map {result'' : β → List Value → Prop} (h : Realizes R before part meaning result)
    (f : α → β) (hresult : ∀ a vs, result a vs → result'' (f a) vs) :
    Realizes R before part (fun scope => meaning scope >>= fun a => pure (f a)) result'' := by
  intro scope code code₁ st st₁ σ temps m hrun htracks hwithin hholds hat
  refine (h hrun htracks hwithin hholds hat).bind ?_
  rintro a σ' m' ⟨vs, hvs, hat'⟩
  exact .pure (.here ⟨vs, hresult a vs hvs, hat'⟩)

/-- A check of a limit leaves a part alone. -/
theorem after_limit {what : Quota} {count max : Nat} {span : Span}
    (h : count ≤ max → Realizes R before part meaning result) :
    Realizes R before (fun code => Compile.limit what count max span >>= fun _ => part code)
      meaning result := by
  intro scope code code₁ st st₁ σ temps m hrun
  obtain ⟨_, _, hlimit, hrun⟩ := Compile.bind_ok.mp hrun
  obtain ⟨hcount, rfl⟩ := Compile.limit_ok.mp hlimit
  exact h hcount hrun

end Realizes

/-! ### Instructions -/

section

variable {before : List Value} {op : Opcode} {operands : List Nat} {span : Span}

/-- A single instruction. -/
theorem realizes_emit {meaning : List String → Meaning α} {result : α → List Value → Prop}
    (hfits : Instruction.Fits ⟨op, operands⟩)
    (h : ∀ {scope σ ip temps m m₁}, Fetched R σ ⟨op, operands⟩ ip (temps ++ before) m m₁ →
      Sim R (fun a σ' m' => ∃ vs, result a vs ∧ At R σ' ip (temps ++ vs) m') (meaning scope) σ m) :
    Realizes R before (fun code => pure (code.emit op operands span)) meaning result := by
  intro scope code code₁ st st₁ σ temps m hrun htracks hwithin hholds hat
  obtain ⟨rfl, rfl⟩ := Compile.pure_ok.mp hrun
  obtain ⟨m₁, hfetched⟩ := hat.fetch hfits hholds
  exact h hfetched

/-- An instruction that takes values from the stack and pushes the result of an operation. -/
theorem realizes_yield (result : Except Fault Value) {meaning : List String → Meaning Value}
    (hfits : Instruction.Fits ⟨op, operands⟩)
    (hturn : ∀ {m m₁ : Machine Console Value} {stack : List Value}, m.Fetches ⟨op, operands⟩ m₁ →
      m₁.stack = (stack ++ before).toArray →
      Machine.turn nativeHost m = Machine.yielding { m₁ with stack := stack.toArray } result)
    (hresult : ∀ {P : Nat → FunctionCode → List Value → Prop}, (∀ v ∈ before, v.Every P) →
      Value.Yields P result)
    (hmeaning : ∀ scope, meaning scope = Meaning.ofResult (result.map Value.surface)) :
    Realizes R before (fun code => pure (code.emit op operands span)) meaning IsValue := by
  refine realizes_emit hfits fun {scope σ ip temps m m₁} hfetched => ?_
  obtain ⟨ip₀, hip, hframes⟩ := hfetched.frames
  obtain ⟨stack, hstack, hat⟩ := hfetched.at_.drop
  rw [hmeaning]
  refine .yield hat hframes hip (hturn hfetched.fetches hstack) ?_ ?_
  · exact hresult fun v hv => hfetched.at_.known v (List.mem_append_right _ hv)
  · exact Nat.lt_of_le_of_lt (by simp) hfetched.height

/-- An instruction that pushes a value without looking at the stack. -/
theorem realizes_push {v : Value} {meaning : List String → Meaning Value}
    (hfits : Instruction.Fits ⟨op, operands⟩)
    (hturn : ∀ {m m₁ : Machine Console Value}, m.Fetches ⟨op, operands⟩ m₁ →
      Machine.turn nativeHost m = Machine.pushing m₁ v)
    (hv : ∀ {P : Nat → FunctionCode → List Value → Prop}, v.Every P)
    (hmeaning : ∀ scope, meaning scope = pure v.surface) :
    Realizes R [] (fun code => pure (code.emit op operands span)) meaning IsValue := by
  refine realizes_yield (.ok v) hfits (fun hfetches hstack => ?_) (fun _ => hv) hmeaning
  rw [hturn hfetches, Machine.yielding]
  rw [List.append_nil] at hstack
  rw [← hstack]

end

/-! ### Literals and operators -/

/-- The code of an expression realizes its meaning. -/
abbrev RealizesExpr (R : Running S) (caller : Meaning.Caller) (e : Expr) : Prop :=
  Realizes R [] (Compile.expr e) (Meaning.expr .evaluation caller R.activation · e) IsValue

/-- The values that stand for `count` values of an evaluation. -/
def AreValues (count : Nat) (vs ws : List Value) : Prop :=
  vs = ws.map Value.surface ∧ ws.length = count

/-- The code of several expressions realizes their meaning. -/
abbrev RealizesExprs (R : Running S) (caller : Meaning.Caller) (es : List Expr) : Prop :=
  Realizes R [] (Compile.exprs es) (Meaning.exprs .evaluation caller R.activation · es)
    (AreValues es.length)

/-- Keys and values, one after another. -/
def flatten (pairs : List (Value × Value)) : List Value :=
  pairs.flatMap fun pair => [pair.1, pair.2]

/-- The values that stand for `count` pairs of an evaluation. -/
def ArePairs (count : Nat) (pairs : List (Value × Value)) (ws : List Value) : Prop :=
  ∃ pairs', pairs = pairs'.map (Prod.map Value.surface Value.surface) ∧ ws = flatten pairs' ∧
    pairs'.length = count

/-- The code of keys and values realizes their meaning. -/
abbrev RealizesEntries (R : Running S) (caller : Meaning.Caller) (pairs : List (Expr × Expr)) :
    Prop :=
  Realizes R [] (Compile.entries pairs) (Meaning.entries .evaluation caller R.activation · pairs)
    (ArePairs pairs.length)

theorem pairUp_flatten (pairs : List (Value × Value)) : Machine.pairUp (flatten pairs) = pairs := by
  induction pairs with
  | nil => rfl
  | cons pair rest ih =>
    show pair :: Machine.pairUp (flatten rest) = _
    rw [ih]

theorem length_flatten (pairs : List (Value × Value)) :
    (flatten pairs).length = 2 * pairs.length := by
  induction pairs with
  | nil => rfl
  | cons pair rest ih =>
    show (flatten rest).length + 2 = 2 * (rest.length + 1)
    omega

section

variable {caller : Meaning.Caller}

theorem realizes_constant {constant : Constant} {v : Value} {span : Span}
    {meaning : List String → Meaning Value}
    (hconstant : ∀ identity, Value.ofConstant identity constant = v)
    (hv : ∀ {P : Nat → FunctionCode → List Value → Prop}, v.Every P)
    (hmeaning : ∀ scope, meaning scope = pure v.surface) :
    Realizes R [] (fun code => do
      let index ← Compile.addConstant constant span
      return code.emit .constant [index] span) meaning IsValue := by
  intro scope code code₁ st st₁ σ temps m hrun htracks hwithin hholds hat
  obtain ⟨index, st', hadd, hrun⟩ := Compile.bind_ok.mp hrun
  obtain ⟨rfl, rfl⟩ := Compile.pure_ok.mp hrun
  obtain ⟨hsize, rfl, rfl⟩ := Compile.addConstant_ok.mp hadd
  -- later constants are added behind this one
  have hpool : S.pool[st.constants.size]? = some constant := by
    obtain ⟨rest, hrest⟩ := hwithin.constants
    rw [← Array.getElem?_toList, ← hrest]
    simp
  have hindex : st.constants.size < 65536 := Nat.lt_succ_of_le hsize
  obtain ⟨m₁, hfetched⟩ := hat.fetch (Instruction.fits_wide rfl hindex) hholds
  obtain ⟨ip₀, hip, hframes⟩ := hfetched.frames
  have hget : m₁.constants[st.constants.size]? = some v := by
    rw [hfetched.at_.world.constants, hpool, Option.map_some, hconstant]
  rw [hmeaning]
  rw [List.append_nil] at hfetched
  refine .pure ((hfetched.at_.push hframes hip (Machine.turn_constant hfetched.fetches hget) hv
    hfetched.height).bind fun m' hm' => .here ⟨[v], ⟨v, rfl, rfl⟩, hm'⟩)

theorem realizes_identifier (name : String) (span : Span) :
    RealizesExpr R caller (.identifier name span) := by
  intro scope code code₁ st st₁ σ temps m hrun htracks hwithin hholds hat
  rw [Compile.expr] at hrun
  obtain ⟨s, st', hresolve, hrun⟩ := Compile.bind_ok.mp hrun
  obtain ⟨rfl, rfl⟩ := Compile.pure_ok.mp hrun
  rw [List.append_nil] at hat
  obtain ⟨v, hcomes, hvalue, -⟩ := denotes_resolve htracks hwithin hresolve hat hholds
  show Sim R _ (pure (Meaning.valueOf R.activation scope σ name)) σ m
  exact .pure (hcomes.bind fun m' hm' => .here ⟨[v], ⟨v, rfl, hvalue.symm⟩, hm'⟩)

theorem realizes_unary {operand : Expr} (h : RealizesExpr R caller operand) (op : UnaryOp)
    (span : Span) : RealizesExpr R caller (.unary op operand span) := by
  refine (h.seq (fun v _ => Meaning.unary op v) (Compile.adds_expr operand)
    (.emit (Compile.unaryOpcode op) [] span) ?_).of_eq
    (fun code => by rw [Compile.expr]; rfl) fun scope => by rw [Meaning.expr]
  rintro a vs ⟨v, rfl, rfl⟩
  refine realizes_yield (Value.unary (Compile.unaryOpcode op) v)
    (Instruction.fits_nil (by cases op <;> rfl))
    (fun hfetches hstack => Machine.turn_unary (by cases op <;> decide) hfetches hstack)
    (fun _ => Value.yields_unary _ _) fun scope => ?_
  rw [← Value.unary_surface]
  cases op <;> rfl

theorem meaning_binary {op : BinaryOp} {left right first second : Value}
    (h : (first, second) = if op.isRightFirst then (right, left) else (left, right)) :
    Meaning.binary op left.surface right.surface =
      Meaning.ofResult
        ((Value.binary (Compile.binaryOpcode op).1 first second).map Value.surface) := by
  rw [← Value.binary_surface]
  cases op <;> cases h <;> rfl

theorem realizes_binaryOpcode {op : BinaryOp} {first second : Value} {span : Span}
    {meaning : List String → Meaning Value}
    (hmeaning : ∀ scope, meaning scope = Meaning.ofResult
      ((Value.binary (Compile.binaryOpcode op).1 first second).map Value.surface)) :
    Realizes R [first, second]
      (fun code => pure (code.emit (Compile.binaryOpcode op).1 [] span)) meaning IsValue :=
  realizes_yield _ (Instruction.fits_nil (by cases op <;> rfl))
    (fun hfetches hstack => Machine.turn_binary
      (by cases op <;> simp [Machine.Opcode.IsBinary, Compile.binaryOpcode]) hfetches hstack)
    (fun _ => Value.yields_binary _ _ _) hmeaning

theorem realizes_binary {left right : Expr} (hleft : RealizesExpr R caller left)
    (hright : RealizesExpr R caller right) (op : BinaryOp) (span : Span) :
    RealizesExpr R caller (.binary op left right span) := by
  cases hfirst : op.isRightFirst with
  | true =>
    -- comparisons the other way round evaluate the right operand first, which then lies below
    refine (hright.seq (fun b scope => do
        Meaning.binary op (← Meaning.expr .evaluation caller R.activation scope left) b)
      (Compile.adds_expr right)
      ((Compile.adds_expr left).then_emit (Compile.binaryOpcode op).1 [] span) ?_).of_eq
      (Compile.expr_binary_of_rightFirst hfirst left right span) fun scope => ?_
    · rintro b vs ⟨w, rfl, rfl⟩
      refine (hleft.frame [w]).seq (fun a _ => Meaning.binary op a w.surface)
        (Compile.adds_expr left) (.emit _ _ _) ?_
      rintro a vs ⟨_, rfl, v, rfl, rfl⟩
      exact realizes_binaryOpcode fun scope => meaning_binary (by rw [hfirst]; rfl)
    · rw [Meaning.expr]
      simp [BinaryOp.scopes, hfirst]
  | false =>
    refine (hleft.seq (fun a scope => do
        Meaning.binary op a (← Meaning.expr .evaluation caller R.activation scope right))
      (Compile.adds_expr left)
      ((Compile.adds_expr right).then_emit (Compile.binaryOpcode op).1 [] span) ?_).of_eq
      (Compile.expr_binary_of_leftFirst hfirst left right span) fun scope => ?_
    · rintro a vs ⟨v, rfl, rfl⟩
      refine (hright.frame [v]).seq (fun b _ => Meaning.binary op v.surface b)
        (Compile.adds_expr right) (.emit _ _ _) ?_
      rintro b vs ⟨_, rfl, w, rfl, rfl⟩
      exact realizes_binaryOpcode fun scope => meaning_binary (by rw [hfirst]; rfl)
    · rw [Meaning.expr]
      simp [BinaryOp.scopes, hfirst]

theorem realizes_index {object index : Expr} (hobject : RealizesExpr R caller object)
    (hindex : RealizesExpr R caller index) (span : Span) :
    RealizesExpr R caller (.index object index span) := by
  refine (hobject.seq (fun container scope => do
      let key ← Meaning.expr .evaluation caller R.activation scope index
      Meaning.ofResult (container.index key)) (Compile.adds_expr object)
    ((Compile.adds_expr index).then_emit .index [] span) ?_).of_eq
    (fun code => by rw [Compile.expr]; rfl) fun scope => by rw [Meaning.expr]
  rintro a vs ⟨container, rfl, rfl⟩
  refine (hindex.frame [container]).seq
    (fun key _ => Meaning.ofResult (container.surface.index key)) (Compile.adds_expr index)
    (.emit _ _ _) ?_
  rintro b vs ⟨_, rfl, key, rfl, rfl⟩
  refine realizes_yield (Value.index container key) (Instruction.fits_nil rfl)
    (fun hfetches hstack => Machine.turn_index hfetches hstack)
    (fun hknown => Value.yields_index (hknown container (by simp)) key) fun scope => ?_
  rw [← Value.index_surface]

theorem realizes_exprs_cons {e : Expr} {rest : List Expr} (h : RealizesExpr R caller e)
    (hrest : RealizesExprs R caller rest) : RealizesExprs R caller (e :: rest) := by
  refine (h.seq (fun v scope => do
      return v :: (← Meaning.exprs .evaluation caller R.activation scope rest))
    (Compile.adds_expr e) (Compile.adds_exprs rest) ?_).of_eq
    (fun code => by rw [Compile.exprs]) fun scope => by rw [Meaning.exprs]
  rintro a vs ⟨v, rfl, rfl⟩
  refine (hrest.frame [v]).map (v.surface :: ·) ?_
  rintro as vs ⟨ws, rfl, rfl, hlength⟩
  exact ⟨rfl, by rw [List.length_append, hlength, List.length_cons, Nat.add_comm]; rfl⟩

theorem realizes_nothing (a : α) {result : α → List Value → Prop} (hresult : result a []) :
    Realizes R [] pure (fun _ => pure a) result := by
  intro scope code code₁ st st₁ σ temps m hrun htracks hwithin hholds hat
  obtain ⟨rfl, rfl⟩ := Compile.pure_ok.mp hrun
  exact .pure (.here ⟨[], hresult, hat⟩)

theorem realizes_exprs_nil : RealizesExprs R caller [] :=
  (realizes_nothing [] ⟨rfl, rfl⟩).of_eq
    (fun code => by rw [Compile.exprs]) fun scope => by rw [Meaning.exprs]

theorem realizes_array {elements : List Expr} (h : RealizesExprs R caller elements) (span : Span) :
    RealizesExpr R caller (.array elements span) := by
  refine (h.seq (fun vs _ => pure (.array vs)) (Compile.adds_exprs elements)
    ((Adds.emit .array [elements.length] span).after_limit .arrayElements elements.length
      Compile.maxWide span) ?_).of_eq
    (fun code => by rw [Compile.expr]; rfl) fun scope => by rw [Meaning.expr]
  rintro vs ws ⟨rfl, hlength⟩
  rw [← hlength]
  refine .after_limit fun hlimit => ?_
  refine realizes_yield (.ok (.array ws)) (Instruction.fits_wide rfl (Nat.lt_succ_of_le hlimit))
    (fun hfetches hstack => Machine.turn_array hfetches hstack)
    (fun hknown => Value.every_array.mpr hknown) fun scope => ?_
  rw [Except.map, Value.surface_array]
  rfl

theorem realizes_entries_nil : RealizesEntries R caller [] :=
  (realizes_nothing [] ⟨[], rfl, rfl, rfl⟩).of_eq
    (fun code => by rw [Compile.entries]) fun scope => by rw [Meaning.entries]

theorem realizes_entries_cons {key value : Expr} {rest : List (Expr × Expr)}
    (hkey : RealizesExpr R caller key) (hvalue : RealizesExpr R caller value)
    (hrest : RealizesEntries R caller rest) :
    RealizesEntries R caller ((key, value) :: rest) := by
  refine (hkey.seq (fun k scope => do
      let v ← Meaning.expr .evaluation caller R.activation scope value
      return (k, v) :: (← Meaning.entries .evaluation caller R.activation
        (scope ++ value.declared) rest))
    (Compile.adds_expr key) ((Compile.adds_expr value).seq (Compile.adds_entries rest)) ?_).of_eq
    (fun code => by rw [Compile.entries]) fun scope => by rw [Meaning.entries]
  rintro _ vs ⟨k, rfl, rfl⟩
  refine (hvalue.frame [k]).seq (fun v scope => do
    return (k.surface, v) :: (← Meaning.entries .evaluation caller R.activation scope rest))
    (Compile.adds_expr value) (Compile.adds_entries rest) ?_
  rintro _ vs ⟨_, rfl, v, rfl, rfl⟩
  refine (hrest.frame [k, v]).map ((k.surface, v.surface) :: ·) ?_
  rintro _ vs ⟨_, rfl, pairs, rfl, rfl, hlength⟩
  exact ⟨(k, v) :: pairs, rfl, rfl, by rw [List.length_cons, List.length_cons, hlength]⟩

theorem realizes_hash {pairs : List (Expr × Expr)} (h : RealizesEntries R caller pairs)
    (span : Span) : RealizesExpr R caller (.hash pairs span) := by
  refine (h.seq (fun vs _ => Meaning.ofResult (Value.hashOfPairs vs)) (Compile.adds_entries pairs)
    ((Adds.emit .hash [2 * pairs.length] span).after_limit .hashEntries (2 * pairs.length)
      Compile.maxWide span) ?_).of_eq
    (fun code => by rw [Compile.expr]; rfl) fun scope => by rw [Meaning.expr]
  rintro _ _ ⟨pairs', rfl, rfl, hlength⟩
  -- the operand counts keys and values together
  rw [← hlength, ← length_flatten]
  refine .after_limit fun hlimit => ?_
  refine realizes_yield (Value.hashOfPairs pairs')
    (Instruction.fits_wide rfl (Nat.lt_succ_of_le hlimit)) (fun hfetches hstack => ?_)
    (fun hknown => Value.yields_hashOfPairs fun pair hpair => ?_) fun scope => ?_
  · rw [Machine.turn_hash hfetches (by rw [length_flatten]; omega) hstack, pairUp_flatten]
  · exact hknown _ (List.mem_flatMap.mpr ⟨pair, hpair, by simp⟩)
  · rw [← Value.hashOfPairs_surface]

/-! ### Conditionals -/

/-- The code of a block that is an arm of a conditional realizes its meaning. -/
abbrev RealizesBlock (R : Running S) (caller : Meaning.Caller) (b : Block) : Prop :=
  Realizes R [] (Compile.block .arm b) (Meaning.block .evaluation caller R.activation · b) IsValue

/-- The code of the `else` part of a conditional realizes its meaning. -/
abbrev RealizesAlternative (R : Running S) (caller : Meaning.Caller) (arm : Option Block)
    (span : Span) : Prop :=
  Realizes R [] (Compile.alternative arm span)
    (Meaning.alternative .evaluation caller R.activation · arm) IsValue

theorem At.goTo {σ : Store} {ip ip' : Nat} {temps : List Value} {m : Machine Console Value}
    (h : At R σ ip temps m) (hle : ip ≤ ip') (hsize : ip' ≤ R.bytes.size) :
    At R σ ip' temps (m.goTo ip') where
  world := h.world.move _ _
  frames := by
    rw [Machine.frames_goTo, h.frames]
    rfl
  stack := h.stack
  known := h.known
  within := h.within
  self := h.self
  offset := hsize
  height := Nat.le_trans h.height hle

section

variable {bytes : Array UInt8} {span : Span} {code code₁ thenCode elseCode : Fragment}

/-- The code up to the arm that is taken when the condition holds. -/
def jumpToElse (span : Span) (code elseCode : Fragment) : Fragment :=
  code.emit .jumpNotTruthy [elseCode.start] span

/-- The code up to the jump over the other arm. -/
def jumpToEnd (span : Span) (code elseCode : Fragment) : Fragment :=
  code.emit .jump [elseCode.stop] span

/-- Where the parts of a conditional stand. -/
theorem holds_joinArms
    (h : Fragment.Holds bytes code (code₁.joinArms span thenCode elseCode))
    (hcode : code.Begins code₁)
    (hthen : (Fragment.startingAt (code₁.stop + Opcode.jumpNotTruthy.width)).Begins thenCode)
    (helse : (Fragment.startingAt (thenCode.stop + Opcode.jump.width)).Begins elseCode) :
    ∃ mid, mid.stop = thenCode.stop ∧ Fragment.Holds bytes code code₁ ∧
      Fragment.Holds bytes code₁ (jumpToElse span code₁ elseCode) ∧
      Fragment.Holds bytes (.startingAt (code₁.stop + Opcode.jumpNotTruthy.width)) thenCode ∧
      Fragment.Holds bytes mid (jumpToEnd span mid elseCode) ∧
      Fragment.Holds bytes (.startingAt (thenCode.stop + Opcode.jump.width)) elseCode ∧
      (code₁.joinArms span thenCode elseCode).stop = elseCode.stop := by
  have hstop₁ : (jumpToElse span code₁ elseCode).stop =
      code₁.stop + Opcode.jumpNotTruthy.width := Fragment.stop_emit _ _ _ _
  rw [← hstop₁] at hthen ⊢
  have hmid : ((jumpToElse span code₁ elseCode).append thenCode).stop = thenCode.stop :=
    Fragment.stop_append hthen
  have hstop₂ : (jumpToEnd span ((jumpToElse span code₁ elseCode).append thenCode) elseCode).stop =
      thenCode.stop + Opcode.jump.width := by rw [jumpToEnd, Fragment.stop_emit, hmid]
  rw [← hstop₂] at helse ⊢
  have hbegins₁ : code₁.Begins (jumpToElse span code₁ elseCode) := .emit _ _ _ _
  have hbegins₂ := Fragment.Begins.append (jumpToElse span code₁ elseCode) hthen
  have hbegins₃ : ((jumpToElse span code₁ elseCode).append thenCode).Begins
      (jumpToEnd span ((jumpToElse span code₁ elseCode).append thenCode) elseCode) := .emit _ _ _ _
  have hbegins₄ := Fragment.Begins.append
    (jumpToEnd span ((jumpToElse span code₁ elseCode).append thenCode) elseCode) helse
  -- the five pieces, from the left to the right
  obtain ⟨hholds₁, h⟩ := h.split hcode (hbegins₁.trans (hbegins₂.trans (hbegins₃.trans hbegins₄)))
  obtain ⟨hholds₂, h⟩ := h.split hbegins₁ (hbegins₂.trans (hbegins₃.trans hbegins₄))
  obtain ⟨hholds₃, h⟩ := h.split hbegins₂ (hbegins₃.trans hbegins₄)
  obtain ⟨hholds₄, h⟩ := h.split hbegins₃ hbegins₄
  exact ⟨_, hmid, hholds₁, hholds₂, hholds₃.appended hthen, hholds₄, h.appended helse,
    Fragment.stop_append helse⟩

end

section

variable {σ : Store} {temps : List Value} {m : Machine Console Value} {code : Fragment}
  {target : Nat} {span : Span}

/-- A jump forward. -/
theorem comes_jump (hat : At R σ code.stop temps m)
    (hholds : Fragment.Holds R.bytes code (code.emit .jump [target] span))
    (hfits : target < 65536) (hle : (code.emit .jump [target] span).stop ≤ target)
    (hsize : target ≤ R.bytes.size) : Comes S (At R σ target temps) m := by
  obtain ⟨m₁, hfetched⟩ := hat.fetch (Instruction.fits_wide rfl hfits) hholds
  obtain ⟨ip₀, hip, hframes⟩ := hfetched.frames
  have hturn := Machine.turn_jump hfetched.fetches hfetched.at_.frames hsize
  exact (hfetched.at_.goTo hle hsize).next hframes (Nat.lt_of_lt_of_le hip hle) hturn

/-- The jump that takes a condition from the stack and is made if the condition does not hold. -/
theorem comes_jumpNotTruthy {v : Value} (hat : At R σ code.stop (temps ++ [v]) m)
    (hholds : Fragment.Holds R.bytes code (code.emit .jumpNotTruthy [target] span))
    (hfits : target < 65536) (hle : (code.emit .jumpNotTruthy [target] span).stop ≤ target)
    (hsize : target ≤ R.bytes.size) :
    Comes S (At R σ (if v.isTruthy = true then (code.emit .jumpNotTruthy [target] span).stop
      else target) temps) m := by
  obtain ⟨m₁, hfetched⟩ := hat.fetch (Instruction.fits_wide rfl hfits) hholds
  obtain ⟨ip₀, hip, hframes⟩ := hfetched.frames
  obtain ⟨stack, hstack, hat₁⟩ := hfetched.at_.drop
  have hturn := Machine.turn_jumpNotTruthy hfetched.fetches hfetched.at_.frames hsize hstack
  by_cases hv : v.isTruthy = true
  · rw [if_pos hv] at hturn ⊢
    exact hat₁.next hframes hip hturn
  · rw [if_neg hv] at hturn ⊢
    exact (hat₁.goTo hle hsize).next hframes (Nat.lt_of_lt_of_le hip hle) hturn

end

theorem realizes_conditional {condition : Expr} {thenBranch : Block} {elseBranch : Option Block}
    {span : Span} (hcondition : RealizesExpr R caller condition)
    (hthen : RealizesBlock R caller thenBranch)
    (helse : RealizesAlternative R caller elseBranch span) :
    RealizesExpr R caller (.conditional condition thenBranch elseBranch span) := by
  intro scope code code' st st' σ temps m hrun htracks hwithin hholds hat
  simp only [Compile.expr_conditional, Compile.bind_ok, Compile.limit_ok, Compile.pure_ok] at hrun
  obtain ⟨c₁, s₁, hrun₁, c₂, s₂, hrun₂, _, _, ⟨hlimit, rfl⟩, hrun⟩ := hrun
  obtain ⟨c₃, s₃, hrun₃, _, _, ⟨hlimit', rfl⟩, rfl, rfl⟩ := hrun
  obtain ⟨hadv₁, hbegins₁⟩ := (Compile.adds_expr condition).advances hrun₁ htracks.sound
  obtain ⟨hadv₂, hbegins₂⟩ := (Compile.adds_block .arm thenBranch).advances hrun₂ hadv₁.sound
  obtain ⟨hadv₃, hbegins₃⟩ := (Compile.adds_alternative elseBranch span).advances hrun₃ hadv₂.sound
  have htracks₁ := htracks.advance hadv₁
  have hwithin₂ := hwithin.of_advances hadv₃
  obtain ⟨mid, hmid, hholds₁, hholds₂, hholds₃, hholds₄, hholds₅, hstop⟩ :=
    holds_joinArms hholds hbegins₁ hbegins₂ hbegins₃
  -- the second arm begins behind the jump at the end of the first
  have hstart : c₃.start = c₂.stop + Opcode.jump.width := Fragment.start_of_begins hbegins₃
  have hsize : c₂.stop + Opcode.jump.width ≤ R.bytes.size := by
    have := hholds₄.emit.le_size (by simp [Instruction.encode])
    rwa [Instruction.length_encode, hmid] at this
  -- both jumps go forward
  have hforward : c₁.stop + Opcode.jumpNotTruthy.width ≤ c₃.start := by
    have := Fragment.stop_le_of_begins hbegins₂
    rw [Fragment.stop_startingAt] at this
    omega
  dsimp only
  rw [Meaning.expr]
  refine (hcondition hrun₁ htracks (hwithin₂.of_advances hadv₂) hholds₁ hat).bind ?_
  rintro _ σ₁ m₁ ⟨_, ⟨v, rfl, rfl⟩, hat₁⟩
  have hjump := comes_jumpNotTruthy hat₁ hholds₂ (hstart ▸ Nat.lt_succ_of_le hlimit)
    (by rwa [Fragment.stop_emit]) (hstart ▸ hsize)
  refine .of_comes (hjump.bind fun m₂ hat₂ => .here ?_)
  rw [hstop, Value.isTruthy_surface]
  rw [← List.append_nil temps] at hat₂
  cases hv : v.isTruthy with
  | true =>
    rw [hv, if_pos rfl, Fragment.stop_emit] at hat₂
    refine (hthen hrun₂ htracks₁ hwithin₂ hholds₃ hat₂).comes ?_
    rintro a σ₃ m₃ ⟨vs, hvs, hat₃⟩
    rw [← hmid] at hat₃
    refine (comes_jump hat₃ hholds₄ (Nat.lt_succ_of_le hlimit') ?_
      (hholds₅.stop_le hsize)).bind fun m' hm' => .here ⟨vs, hvs, hm'⟩
    rw [Fragment.stop_emit, hmid]
    exact Fragment.stop_le_of_begins hbegins₃
  | false =>
    rw [hv, if_neg Bool.false_ne_true, hstart] at hat₂
    exact helse hrun₃ (htracks₁.advance hadv₂) hwithin hholds₅ hat₂

end

end Bytescript

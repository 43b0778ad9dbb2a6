/-
Function literals and calls of values.

Main statements:

* `realizes_function` — the code of a function literal pushes a closure that implements the
  routine which the evaluation makes of the literal;
* `realizes_call` — the code of a call follows the evaluation of the call, provided that calls of
  closures are followed (`FollowsCalls`).
-/
import Bytescript.Proofs.Realization

namespace Bytescript

open Compile (Advances Adds)

variable {S : Setting} {R : Running S} {caller : Meaning.Caller}

/-! ### Function literals -/

theorem Instruction.fits_closure {index count : Nat} (hindex : index < 65536)
    (hcount : count < 256) : Fits ⟨.closure, [index, count]⟩ :=
  .cons hindex (.cons hcount .nil)

/-- The variables that a literal copies. -/
theorem lookup_captured (f : String → Option Value) (names : List String) (n : String) :
    (names.filterMap fun name => (f name).map fun v => (name, v)).lookup n =
      if n ∈ names then f n else none := by
  induction names with
  | nil => rfl
  | cons name rest ih =>
    rw [List.filterMap_cons]
    by_cases hn : n = name
    · subst hn
      cases hf : f n with
      | none => simp [ih, hf]
      | some v => simp
    · cases f name with
      | none => simp [ih, hn]
      | some v => simp [List.lookup_cons, ih, hn, beq_false_of_ne hn]

/-- The captured values are pushed one after another. -/
theorem comes_loadAll {scope : List String} {σ : Store} {span : Span} {symbols : List Symbol}
    (hsymbols : ∀ c ∈ symbols, c.IsVariable ∧ Denotes R scope c.name c) {code : Fragment}
    {temps : List Value} {m : Machine Console Value} (hat : At R σ code.stop temps m)
    (hholds : Fragment.Holds R.bytes code (Compile.loadAll symbols span code)) :
    Comes S (fun m' => ∃ vs, List.Forall₂ (fun c v =>
      Meaning.variableOf? R.activation scope σ c.name = some v.surface) symbols vs ∧
      At R σ (Compile.loadAll symbols span code).stop (temps ++ vs) m') m := by
  induction symbols generalizing code temps m with
  | nil => exact .here ⟨[], .nil, by rwa [List.append_nil]⟩
  | cons c rest ih =>
    obtain ⟨hvariable, hdenotes⟩ := hsymbols c (by simp)
    obtain ⟨hholds, hholds'⟩ := hholds.split (Compile.begins_load c span code)
      (Compile.begins_loadAll rest span _)
    obtain ⟨v, hcomes, -, hvalue⟩ := hdenotes hat hholds
    refine hcomes.bind fun m₁ hat₁ => ?_
    refine (ih (fun c hc => hsymbols c (by simp [hc])) hat₁ hholds').bind ?_
    rintro m₂ ⟨vs, hvs, hat₂⟩
    exact .here ⟨v :: vs, .cons (hvalue hvariable) hvs, by rwa [List.append_cons]⟩

/-- A store with one more routine. -/
def Store.withRoutine (σ : Store) (r : Routine) : Store :=
  { σ with
    nextIdentity := σ.nextIdentity + 1
    routines := fun n => if n = σ.nextIdentity then some r else σ.routines n }

theorem Store.within_withRoutine {σ : Store}
    (hfresh : ∀ i, σ.nextIdentity ≤ i → σ.routines i = none) (r : Routine) :
    σ.Within (σ.withRoutine r) := by
  intro i r' hr'
  have hne : i ≠ σ.nextIdentity := by
    rintro rfl
    rw [hfresh _ (Nat.le_refl _)] at hr'
    cases hr'
  simpa [withRoutine, hne] using hr'

theorem At.withRoutine {σ : Store} {ip : Nat} {temps : List Value} {m : Machine Console Value}
    (h : At R σ ip temps m) (r : Routine) :
    At R (σ.withRoutine r) ip temps { m with nextIdentity := m.nextIdentity + 1 } := by
  have hσ := Store.within_withRoutine h.world.fresh r
  refine h.of_world hσ rfl (h.world.mono hσ rfl rfl rfl rfl rfl rfl h.world.console ?_ ?_) rfl rfl
  · rw [h.world.identity]
    rfl
  · intro i hi
    have hlt : σ.nextIdentity + 1 ≤ i := hi
    have hne : i ≠ σ.nextIdentity := by omega
    simp only [Store.withRoutine, hne, if_false]
    exact h.world.fresh i (Nat.le_of_succ_le hlt)

/-- The routine that the evaluation makes of a literal. -/
def Meaning.routine (activation : Activation) (scope mentioned : List String) (σ : Store)
    (name? : Option String) (params : List Param) (body : Block) : Routine :=
  ⟨name?, params, body, mentioned.filterMap fun name =>
    (variableOf? activation scope σ name).map fun v => (name, v)⟩

theorem Meaning.eval_makeClosure (activation : Activation) (scope mentioned : List String)
    (σ : Store) (name? : Option String) (params : List Param) (body : Block) :
    eval (makeClosure activation scope mentioned name? params body) σ =
      (.ok (.closure σ.nextIdentity { params := params.length, name? } []),
        σ.withRoutine (routine activation scope mentioned σ name? params body)) := rfl

/-- A compiled literal implements the routine that the evaluation makes of it. -/
theorem implements_literal {scope : List String} {σ : Store} {name? : Option String}
    {params : List Param} {body : Block} {st st' : CompilerState} {t : ScopeTable}
    {bodyCode : Fragment} {free : List Value} (htracks : R.Tracks scope st)
    (ht : ScopeTable.Entered name? params t)
    (hbody : (Compile.block .body body ({} : Fragment)).run
      { st with scopes := ⟨t, st.scopes.current :: st.scopes.outer⟩ } = .ok (bodyCode, st'))
    (hlocals : st'.scopes.current.definitions ≤ Compile.maxNarrow + 1)
    (hcaptures : st'.scopes.current.captures.toList.length ≤ Compile.maxNarrow)
    (hwithin : CompilerState.Within S R.table ⟨st'.scopes.leave?.getD {}, st'.constants.push
      (.function (Compile.functionCode name? params bodyCode st'.scopes.current))⟩)
    (hfree : List.Forall₂ (fun c v =>
      Meaning.variableOf? R.activation scope σ c.name = some v.surface)
      st'.scopes.current.captures.toList free) :
    Implements S (Meaning.routine R.activation scope
      (body.mentioned .evaluation (name?.toList ++ params.map Param.name)) σ name? params body)
      (Compile.functionCode name? params bodyCode st'.scopes.current) free := by
  have hadvances := (Compile.adds_block .body body hbody).2 (ht.linked htracks.sound)
    fun n hn => ht.binds hn
  obtain ⟨hroot, -⟩ := Scopes.leave_spec hadvances.sound
    (hadvances.scopes.outer.ne_nil (by simp))
  refine @Implements.intro S _ ⟨⟨t, st.scopes.current :: st.scopes.outer⟩, st.constants⟩ st'
    bodyCode free ht (ht.linked htracks.sound) (by simp) hbody ?_ hlocals hcaptures ?_ ?_ ?_
  · exact
      { table := ⟨[], .refl _ _⟩
        root := hroot ▸ hwithin.root
        constants := List.IsPrefix.trans (by simp) hwithin.constants }
  · exact hwithin.constants.subset (by simp [Meaning.routine])
  · -- every captured name is mentioned, so the routine has copied it
    have hmem : ∀ c ∈ st'.scopes.current.captures.toList,
        c.name ∈ body.mentioned .evaluation (name?.toList ++ params.map Param.name) :=
      fun c hc => ht.mentioned_of_capture hadvances.scopes.current hadvances.sound.sound hc
    refine ((List.forall₂_and_left _ _).mpr ⟨hmem, hfree⟩).imp ?_
    rintro c v ⟨hc, hv⟩
    rw [Meaning.routine, lookup_captured, if_pos hc, hv]
  · -- what is copied has a value here, so it is a variable of this function or of one around it
    intro n v hlookup
    rw [Meaning.routine, lookup_captured] at hlookup
    split at hlookup
    · by_contra hno
      rw [variableOf?_eq_none htracks hno] at hlookup
      cases hlookup
    · cases hlookup

/-- The instruction that makes a closure: it gets the number that the evaluation gives to its
routine. -/
theorem sim_makeClosure {scope mentioned : List String} {σ : Store} {name? : Option String}
    {params : List Param} {body : Block} {index identity ip : Nat} {code : FunctionCode}
    {free temps : List Value} {m m₁ : Machine Console Value}
    (hfetched : Fetched R σ ⟨.closure, [index, free.length]⟩ ip (temps ++ free) m m₁)
    (hconstant : m₁.constants[index]? = some (.function identity code))
    (hcode : code.outline = { params := params.length, name? })
    (himpl : Implements S (Meaning.routine R.activation scope mentioned σ name? params body)
      code free) :
    Sim R (fun v σ' m' => ∃ vs, IsValue v vs ∧ At R σ' ip (temps ++ vs) m')
      (Meaning.makeClosure R.activation scope mentioned name? params body) σ m := by
  obtain ⟨ip₀, hip, hframes⟩ := hfetched.frames
  obtain ⟨stack, hstack, hat⟩ := hfetched.at_.drop
  -- the machine numbers its closures as the store numbers its routines
  have hidentity : m₁.nextIdentity = σ.nextIdentity := hat.world.identity
  have hturn := Machine.turn_closure hfetched.fetches hconstant hstack
  rw [Sim, Meaning.eval_makeClosure]
  generalize Meaning.routine R.activation scope mentioned σ name? params body = r at himpl ⊢
  have hat' := hat.withRoutine r
  have hknown : Known S (σ.withRoutine r) (.closure m₁.nextIdentity code free) := by
    refine Value.every_closure.mpr ⟨⟨r, ?_, himpl⟩, fun v hv => ?_⟩
    · rw [hidentity]
      simp [Store.withRoutine]
    · exact (hfetched.at_.known v (List.mem_append_right _ hv)).mono
        (Store.within_withRoutine hat.world.fresh r)
  refine (hat'.push hframes hip hturn hknown ?_).bind fun m' hm' => .here ?_
  · exact Nat.lt_of_le_of_lt (by simp) hfetched.height
  · exact ⟨[.closure m₁.nextIdentity code free], ⟨_, rfl, by
      rw [Value.surface_closure, hcode, hidentity]⟩, hm'⟩

theorem realizes_function (name? : Option String) (params : List Param) (body : Block)
    (span : Span) : RealizesExpr R caller (.function name? params body span) := by
  intro scope code code₁ st st₁ σ temps m hrun htracks hwithin hholds hat
  obtain ⟨hadv, -⟩ := (Compile.adds_expr _).advances hrun htracks.sound
  have htracks₁ := htracks.advance hadv
  rw [Expr.declared, List.append_nil] at htracks₁
  obtain ⟨entered, bodyCode, st', henter, hbody, -, hlocals, hcaptures, hsize, rfl, rfl⟩ :=
    Compile.function_run hrun
  obtain ⟨t, ht, rfl⟩ := Compile.enterFunction_ok henter htracks.sound
  obtain ⟨hadvBody, -⟩ := (Compile.adds_block .body body).advances hbody (ht.linked htracks.sound)
  -- what the body captures is found around the literal, where its values are loaded
  obtain ⟨-, hlinks⟩ := Scopes.leave_spec hadvBody.sound
    (hadvBody.scopes.outer.ne_nil (by simp))
  have hsymbols : ∀ c ∈ st'.scopes.current.captures.toList,
      c.IsVariable ∧ Denotes R scope c.name c := fun c hc =>
    ⟨(hlinks c hc).1, denotes_variable htracks₁ hwithin (hlinks c hc).2 (hlinks c hc).1⟩
  obtain ⟨hholds, hholds'⟩ := hholds.split (Compile.begins_loadAll _ _ _) (.emit _ _ _ _)
  rw [List.append_nil] at hat
  refine .of_comes ((comes_loadAll hsymbols hat hholds).bind ?_)
  rintro m₁ ⟨free, hfree, hat₁⟩
  have himpl := implements_literal htracks ht hbody hlocals hcaptures hwithin hfree
  rw [hfree.length_eq] at hholds' hcaptures ⊢
  obtain ⟨m₂, hfetched⟩ := hat₁.fetch
    (Instruction.fits_closure (Nat.lt_succ_of_le hsize) (Nat.lt_succ_of_le hcaptures)) hholds'
  have hconstant : m₂.constants[st'.constants.size]? =
      some (.function (S.first + st'.constants.size)
        (Compile.functionCode name? params bodyCode st'.scopes.current)) := by
    obtain ⟨rest, hrest⟩ := hwithin.constants
    rw [hfetched.at_.world.constants, ← Array.getElem?_toList, ← hrest]
    simp [Value.ofConstant]
  dsimp only
  rw [Meaning.expr]
  exact .here (sim_makeClosure hfetched hconstant rfl himpl)

/-! ### Calls -/

/-- What a caller does with a routine is what the machine does with a closure that implements
it. -/
def FollowsCalls (R : Running S) (caller : Meaning.Caller) : Prop :=
  ∀ ⦃σ : Store⦄ ⦃ip identity : Nat⦄ ⦃code : FunctionCode⦄ ⦃free args temps : List Value⦄
    ⦃r : Routine⦄ ⦃m m₁ : Machine Console Value⦄,
    Fetched R σ ⟨.call, [args.length]⟩ ip (temps ++ .closure identity code free :: args) m m₁ →
    σ.routines identity = some r → Implements S r code free → args.length = r.params.length →
    Sim R (fun v σ' m' => ∃ vs, IsValue v vs ∧ At R σ' ip (temps ++ vs) m')
      (caller r (Value.closure identity code free).surface (args.map Value.surface)) σ m

theorem Implements.params_eq {r : Routine} {code : FunctionCode} {free : List Value}
    (h : Implements S r code free) : code.params = r.params.length := by
  cases h
  rfl

section

variable {σ : Store} {ip : Nat} {temps args : List Value} {m m₁ : Machine Console Value}

theorem Meaning.eval_apply_closure (caller : Caller) {identity : Nat} {r : Routine}
    (hr : σ.routines identity = some r) (code : FunctionCode) (free args : List Value) :
    eval (apply caller (.closure identity code free) args) σ =
      if args.length = r.params.length then
        eval (caller r (.closure identity code free) args) σ
      else (.error (.fault (.wrongArgumentCount r.params.length args.length)), σ) := by
  rw [apply, eval_bind, eval_get]
  dsimp only
  rw [hr]
  dsimp only
  split <;> rfl

theorem sim_apply_closure (hcalls : FollowsCalls R caller) {identity : Nat} {code : FunctionCode}
    {free : List Value}
    (hfetched : Fetched R σ ⟨.call, [args.length]⟩ ip
      (temps ++ .closure identity code free :: args) m m₁) :
    Sim R (fun v σ' m' => ∃ vs, IsValue v vs ∧ At R σ' ip (temps ++ vs) m')
      (Meaning.apply caller (Value.closure identity code free).surface
        (args.map Value.surface)) σ m := by
  have hknown := hfetched.at_.known (.closure identity code free) (by simp)
  obtain ⟨⟨r, hr, himpl⟩, -⟩ := Value.every_closure.mp hknown
  rw [Sim, Value.surface_closure, Meaning.eval_apply_closure caller hr, List.length_map]
  by_cases hcount : args.length = r.params.length
  · rw [if_pos hcount]
    exact hcalls hfetched hr himpl hcount
  · -- the code counts its parameters as the routine does
    rw [if_neg hcount]
    obtain ⟨stack, hstack, -⟩ := hfetched.at_.drop
    have hturn := Machine.turn_call_wrongCount hfetched.fetches hstack
      (himpl.params_eq ▸ hcount)
    rw [himpl.params_eq] at hturn
    refine Sim.fault hturn rfl hfetched.at_.world ?_
    simp [Fault.IsMistake, Fault.kind]

theorem Builtin.run_call (b : Builtin) (args : List Value) (console : Console) :
    (b.call args).run.run console =
      (b.evaluate args, { console with printed := console.printed ++ b.printed args }) := by
  show ((Builtin.call.liftExcept (b.evaluate args)).run.run _) = _
  cases b.evaluate args <;> rfl

/-- What was printed does not matter to the rest. -/
theorem World.withConsole (h : World S σ m) (console : Console) :
    World S { σ with console } { m with host := console } :=
  h.mono (fun _ _ hr => hr) rfl rfl rfl rfl rfl rfl rfl h.identity h.fresh

theorem Meaning.eval_apply_builtin (caller : Caller) (b : Builtin) (args : List Value)
    (σ : Store) : eval (apply caller (.builtin b) args) σ =
      eval (ofResult (b.evaluate args)) { σ with
        console := { σ.console with printed := σ.console.printed ++ b.printed args } } := by
  show eval (do
    modify fun store => { store with console := ((b.call args).run.run σ.console).2 }
    ofResult ((b.call args).run.run σ.console).1) σ = _
  rw [Builtin.run_call, eval_bind, eval_modify]

theorem sim_apply_builtin {b : Builtin}
    (hfetched : Fetched R σ ⟨.call, [args.length]⟩ ip (temps ++ .builtin b :: args) m m₁) :
    Sim R (fun v σ' m' => ∃ vs, IsValue v vs ∧ At R σ' ip (temps ++ vs) m')
      (Meaning.apply caller (Value.builtin b).surface (args.map Value.surface)) σ m := by
  obtain ⟨ip₀, hip, hframes⟩ := hfetched.frames
  obtain ⟨stack, hstack, hat⟩ := hfetched.at_.drop
  have hturn := Machine.turn_call_builtin hfetched.fetches hstack
  rw [Builtin.run_call, hfetched.at_.world.console] at hturn
  have hargs : ∀ v ∈ args, Known S σ v := fun v hv => hfetched.at_.known v (by simp [hv])
  have hyields := b.yields_evaluate hargs
  rw [Sim, Value.surface_builtin, Meaning.eval_apply_builtin, Builtin.evaluate_surface,
    Builtin.printed_surface]
  -- what is printed is printed on both sides, whether the call fails or not
  generalize { σ.console with printed := σ.console.printed ++ b.printed args } = console at hturn ⊢
  cases hresult : b.evaluate args with
  | error fault =>
    rw [hresult] at hturn hyields
    exact Sim.fault hturn rfl (hfetched.at_.world.withConsole console) hyields
  | ok v =>
    rw [hresult] at hturn hyields
    have hat' : At R { σ with console } ip temps
        { m₁ with stack := stack.toArray, host := console } :=
      hat.of_world (fun _ _ hr => hr) rfl (hat.world.withConsole console) rfl rfl
    refine (hat'.push hframes hip hturn hyields ?_).bind fun m' hm' => .here ?_
    · exact Nat.lt_of_le_of_lt (by simp) hfetched.height
    · exact ⟨[v], ⟨v, rfl, rfl⟩, hm'⟩

theorem sim_apply_other {callee : Value}
    (hclosure : ∀ identity code free, callee ≠ .closure identity code free)
    (hbuiltin : ∀ b, callee ≠ .builtin b)
    (hfetched : Fetched R σ ⟨.call, [args.length]⟩ ip (temps ++ callee :: args) m m₁) :
    Sim R (fun v σ' m' => ∃ vs, IsValue v vs ∧ At R σ' ip (temps ++ vs) m')
      (Meaning.apply caller callee.surface (args.map Value.surface)) σ m := by
  obtain ⟨stack, hstack, -⟩ := hfetched.at_.drop
  have hturn := Machine.turn_call_notCallable hclosure hbuiltin hfetched.fetches hstack
  have happly : Meaning.apply caller callee.surface (args.map Value.surface) =
      throw (.fault (.notCallable callee.typeName)) := by
    rw [← Value.typeName_surface]
    cases callee with
    | closure identity code free => exact absurd rfl (hclosure identity code free)
    | builtin b => exact absurd rfl (hbuiltin b)
    | null | boolean | integer | float | string | function => rfl
    | array => rw [Value.surface_array]; rfl
    | hash => rw [Value.surface_hash]; rfl
  rw [happly]
  refine Sim.fault hturn rfl hfetched.at_.world ?_
  simp [Fault.IsMistake, Fault.kind]

end

theorem realizes_apply (hcalls : FollowsCalls R caller) {args : List Value}
    (hargs : args.length ≤ Compile.maxNarrow) (callee : Value) (span : Span) :
    Realizes R (callee :: args) (fun code => pure (code.emit .call [args.length] span))
      (fun _ => Meaning.apply caller callee.surface (args.map Value.surface)) IsValue := by
  refine realizes_emit (Instruction.fits_narrow rfl (Nat.lt_succ_of_le hargs)) fun hfetched => ?_
  cases callee with
  | closure identity code free => exact sim_apply_closure hcalls hfetched
  | builtin b => exact sim_apply_builtin hfetched
  | null | boolean | integer | float | string | function | array | hash =>
    exact sim_apply_other (by simp) (by simp) hfetched

theorem realizes_call {callee : Expr} {args : List Expr} (hcalls : FollowsCalls R caller)
    (hcallee : RealizesExpr R caller callee) (hargs : RealizesExprs R caller args) (span : Span) :
    RealizesExpr R caller (.call callee args span) := by
  intro scope code code₁ st st₁ σ temps m hrun
  obtain ⟨hlimit, hrun⟩ := Compile.call_ok hrun
  dsimp only
  rw [Meaning.expr]
  refine hcallee.seq (fun f scope => do
      let vs ← Meaning.exprs .evaluation caller R.activation scope args
      Meaning.apply caller f vs) (Compile.adds_expr callee)
    ((Compile.adds_exprs args).then_emit .call [args.length] span) ?_ hrun
  rintro _ _ ⟨f, rfl, rfl⟩
  refine (hargs.frame [f]).seq (fun vs _ => Meaning.apply caller f.surface vs)
    (Compile.adds_exprs args) (.emit _ _ _) ?_
  rintro _ _ ⟨vs, rfl, rfl, hlength⟩
  rw [← hlength] at hlimit ⊢
  exact realizes_apply hcalls hlimit f span

end Bytescript

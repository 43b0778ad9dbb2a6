/-
Calls of closures.

Main statement: `followsCalls`. A call of a closure does what the evaluation does with the routine
that the closure implements. By induction on the number of calls that may still be nested: inside
the call, the body of the function is followed by `realizes_body`, with the induction hypothesis
for the calls it makes.
-/
import Bytescript.Proofs.Statements

namespace Bytescript

variable {S : Setting}

/-! ### Parameters -/

theorem bindParams_of_nodup {params : List Param} {args : List Value}
    (hnodup : (params.map Param.name).Nodup) {i : Nat} {param : Param} {v : Value}
    (hparam : params[i]? = some param) (harg : args[i]? = some v) :
    Meaning.bindParams params args param.name = some v := by
  induction params generalizing args i with
  | nil => simp at hparam
  | cons first params ih =>
    cases args with
    | nil => simp at harg
    | cons arg args =>
      rw [List.map_cons, List.nodup_cons] at hnodup
      rw [Meaning.bindParams]
      cases i with
      | zero =>
        cases hparam
        cases harg
        rw [if_pos rfl]
      | succ i =>
        -- a later parameter of the same name would be hidden by the first one
        have hne : param.name ≠ first.name := by
          intro heq
          refine hnodup.1 (List.mem_map.mpr ⟨param, ?_, heq⟩)
          exact List.mem_of_getElem? hparam
        rw [if_neg hne]
        exact ih hnodup.2 hparam harg

theorem bindParams_of_notMem {params : List Param} {name : String}
    (h : name ∉ params.map Param.name) (args : List Value) :
    Meaning.bindParams params args name = none := by
  induction params generalizing args with
  | nil => rw [Meaning.bindParams]; simp
  | cons param params ih =>
    rw [List.map_cons, List.mem_cons, not_or] at h
    cases args with
    | nil => rw [Meaning.bindParams]; simp
    | cons arg args => rw [Meaning.bindParams, if_neg h.1, ih h.2]

/-- Parameters have different names. -/
theorem ScopeTable.Entered.nodup {name? : Option String} {params : List Param} {t : ScopeTable}
    (h : t.Entered name? params) : (params.map Param.name).Nodup := by
  rw [List.Nodup, List.pairwise_iff_getElem]
  intro i j hi hj hij heq
  rw [List.length_map] at hi hj
  rw [List.getElem_map, List.getElem_map] at heq
  obtain ⟨s, hs, -, hindex⟩ := h.param (List.getElem?_eq_getElem hi)
  obtain ⟨s', hs', -, hindex'⟩ := h.param (List.getElem?_eq_getElem hj)
  rw [heq, hs'] at hs
  cases hs
  omega

/-- The slots of a call that begins: the arguments, then nulls. -/
theorem value_of_entered {name? : Option String} {params : List Param} {t T : ScopeTable}
    {declared : List String} {mentioned : String → Prop} {args : List Value}
    (h : t.Entered name? params) (hgrows : t.Grows declared mentioned T) (hT : T.Sound)
    (hcount : args.length = params.length) {n : String} {s : Symbol}
    (hs : T.symbols[n]? = some s) (hlocal : s.storage = .localSlot) :
    ∃ v, (args ++ List.replicate (T.definitions - args.length) Value.null)[s.index]? = some v ∧
      v.surface = (Meaning.bindParams params (args.map Value.surface) n).getD .null := by
  have hlt : s.index < T.definitions := hT.slot_lt hs (.inr hlocal)
  -- where the parameters stand in the end
  have hparams : ∀ {i : Nat} {param : Param}, params[i]? = some param →
      ∃ s', T.symbols[param.name]? = some s' ∧ s'.storage = .localSlot ∧ s'.index = i := by
    intro i param hparam
    obtain ⟨s', hs', hlocal', hindex'⟩ := h.param hparam
    exact ⟨s', hgrows.entry hs' (by simp [hlocal']), hlocal', hindex'⟩
  by_cases hindex : s.index < args.length
  · -- the slot of an argument belongs to the parameter at its place
    have hparam : params[s.index]? = some (params[s.index]) := List.getElem?_eq_getElem _
    obtain ⟨s', hs', hlocal', hindex'⟩ := hparams hparam
    obtain rfl := hT.slot_unique hs' hs (.inr hlocal') (.inr hlocal) hindex'
    refine ⟨args[s.index], ?_, ?_⟩
    · rw [List.getElem?_append_left hindex, List.getElem?_eq_getElem hindex]
    · rw [bindParams_of_nodup h.nodup hparam (v := args[s.index].surface)]
      · rfl
      · rw [List.getElem?_map, List.getElem?_eq_getElem hindex, Option.map_some]
  · -- any other slot belongs to a name that is declared in the body
    refine ⟨.null, ?_, ?_⟩
    · rw [List.getElem?_append_right (Nat.not_lt.mp hindex), List.getElem?_replicate,
        if_pos (by omega)]
    · rw [bindParams_of_notMem]
      · rfl
      · intro hmem
        obtain ⟨param, hparam, rfl⟩ := List.mem_map.mp hmem
        obtain ⟨i, hi⟩ := List.mem_iff_getElem?.mp hparam
        obtain ⟨s', hs', -, hindex'⟩ := hparams hi
        rw [hs] at hs'
        cases hs'
        have := (List.getElem?_eq_some_iff.mp hi).1
        omega

/-! ### The running of a callee -/

variable {R R' : Running S} {σ σ' : Store} {ip identity : Nat} {free args temps stack : List Value}
  {r : Routine} {m m₁ : Machine Console Value} {code : FunctionCode}

/-- The function `R'` is the call of a closure that implements the routine `r`. It was called by
`R`, which goes on at the offset `ip`, with `stack` below the closure and the store `σ`. -/
structure Activates (R : Running S) (ip : Nat) (stack : List Value) (σ : Store) (r : Routine)
    (callee : Closure Value) (R' : Running S) : Prop where
  closure : R'.closure = callee
  activation : R'.activation =
    .call (r.name?.map (·, (Value.closure callee.identity callee.code callee.free).surface))
      r.captured
  callers : R'.callers = R.frame ip :: R.callers
  below : R'.below = stack ++ [.closure callee.identity callee.code callee.free]
  start : R'.start = σ
  params : r.params.length ≤ callee.code.locals
  value : ∀ {args : List Value} {n : String} {s : Symbol}, args.length = r.params.length →
    R'.table.symbols[n]? = some s → s.storage = .localSlot →
    ∃ v, (args ++ List.replicate (callee.code.locals - args.length) Value.null)[s.index]? =
        some v ∧
      v.surface = (Meaning.bindParams r.params (args.map Value.surface) n).getD .null
  body : ∀ {caller : Meaning.Caller} {σ' : Store} {m : Machine Console Value},
    FollowsCalls R' caller → At R' σ' 0 [] m →
    Sim R' (fun (_ : Empty) _ _ => False) (do
      let v ← Meaning.block .evaluation caller R'.activation (r.params.map Param.name) r.body
      throw (.returned v)) σ' m

/-- The names that are known when the body of a function begins. -/
theorem ScopeTable.Entered.tracks {name? : Option String} {params : List Param}
    {st : CompilerState} {self : Value} {captured : List (String × Value)}
    (h : st.scopes.current.Entered name? params) (hsound : st.scopes.Sound)
    (hinner : st.scopes.outer ≠ [])
    (haround : ∀ n v, captured.lookup n = some v → Scopes.HasVariable st.scopes.outer n)
    (hactivation : R.activation = .call (name?.map (·, self)) captured) :
    R.Tracks (params.map Param.name) st where
  sound := hsound
  scope n := (h.declares n).symm
  main hmain := by
    rw [hactivation] at hmain
    cases hmain
  inner _ := hinner
  self hcall hs hself := by
    rw [hactivation] at hcall
    cases hcall
    rw [h.self hs hself]
    exact ⟨self, rfl⟩
  own hcall hself := by
    rw [hactivation] at hcall
    cases hcall
    cases name? with
    | none => cases hself
    | some name =>
      cases hself
      exact h.own rfl
  captured hcall hlookup := by
    rw [hactivation] at hcall
    cases hcall
    exact haround _ _ hlookup

theorem exists_activation (himpl : Implements S r code free)
    (hdepth : R.callers.length < S.depth)
    (hstack : stack.length + 1 ≤ S.room * (R.callers.length + 1)) (σ : Store) (ip identity : Nat) :
    ∃ R', Activates R ip stack σ r ⟨identity, code, free⟩ R' := by
  cases himpl with
  | @intro st st' body _ hentered hsound hinner hcompiled hwithin hlocals hcaptures hconstant
      hvalues haround =>
    obtain ⟨hadvances, hbegins⟩ := (Compile.adds_block .body r.body).advances hcompiled hsound
    let callee : Closure Value :=
      ⟨identity, Compile.functionCode r.name? r.params body st'.scopes.current, free⟩
    let self : Value := .closure callee.identity callee.code callee.free
    let R' : Running S :=
      { closure := callee
        activation := .call (r.name?.map (·, self.surface)) r.captured
        table := st'.scopes.current
        callers := R.frame ip :: R.callers
        below := stack ++ [self]
        start := σ
        entry := .call (by simp)
          { inner := hadvances.sound.isInner (hadvances.scopes.outer.ne_nil hinner)
            locals := rfl
            locals_le := hlocals
            captures_le := hcaptures
            self := by
              intro n v hself
              obtain ⟨name, -, heq⟩ := Option.map_eq_some_iff.mp hself
              cases heq
              rfl
            values := hvalues }
        sound := hadvances.sound.sound
        room_le := S.room_le hconstant
        below_le := by simpa using hstack
        depth_le := hdepth }
    refine ⟨R', rfl, rfl, rfl, rfl, rfl, ?_, ?_, ?_⟩
    · show r.params.length ≤ st'.scopes.current.definitions
      rw [hadvances.scopes.current.definitions, hentered.definitions]
      omega
    · exact fun hcount hs hlocal => value_of_entered hentered hadvances.scopes.current
        hadvances.sound.sound hcount hs hlocal
    · intro caller σ' m hcalls hat
      have htracks : R'.Tracks (r.params.map Param.name) st :=
        hentered.tracks hsound hinner haround rfl
      cases hbody : r.body with
      | mk statements span =>
        rw [hbody] at hcompiled
        rw [Meaning.block]
        have hat₀ : At R' σ' (Fragment.stop {}) ([] ++ []) m := hat
        refine (realizes_body hcalls span statements hcompiled htracks hwithin
          (Fragment.holds_assemble hbegins) hat₀).mono ?_
        -- the code ends in a return, so no run comes to its end
        rintro _ _ _ ⟨_, hfalse, -⟩
        exact hfalse

/-! ### Entering and leaving -/

/-- The stack that a caller leaves below a call is within the room of its frames. -/
theorem At.stack_le (h : At R σ ip (temps ++ .closure identity code free :: args) m)
    (hheight : (temps ++ Value.closure identity code free :: args).length < ip)
    (hstack : m.stack = (stack ++ Value.closure identity code free :: args).toArray) :
    stack.length + 1 ≤ S.room * (R.callers.length + 1) := by
  obtain ⟨locals, hstack', hlocals⟩ := h.stack
  have hsize : stack.length = R.below.length + locals.length + temps.length := by
    have := congrArg Array.size (hstack.symm.trans hstack')
    simp at this
    omega
  have hroom := R.room_le
  rw [FunctionCode.room] at hroom
  have hoffset : ip ≤ R.closure.code.code.bytes.size := h.offset
  have hbelow := R.below_le
  have hlength := hlocals.length
  rw [List.length_append, List.length_cons] at hheight
  rw [Nat.mul_succ]
  omega

theorem At.enter (h : At R σ ip (temps ++ .closure identity code free :: args) m₁)
    (hactivates : Activates R ip stack σ r ⟨identity, code, free⟩ R')
    (hcount : args.length = r.params.length) :
    At R' { σ with locals := Meaning.bindParams r.params (args.map Value.surface) } 0 []
      { m₁ with
        stack := (stack ++ Value.closure identity code free :: args ++
          List.replicate (code.locals - args.length) Value.null).toArray
        calls := m₁.calls.push ⟨⟨identity, code, free⟩, 0, stack.length + 1⟩ } where
  world := (h.world.move _ _).withLocals _
  frames := by
    have hframe : R'.frame 0 = ⟨⟨identity, code, free⟩, 0, stack.length + 1⟩ := by
      rw [Running.frame, hactivates.closure, hactivates.below, List.length_append]
      rfl
    rw [hframe, hactivates.callers, ← h.frames]
    rfl
  stack := by
    refine ⟨args ++ List.replicate (code.locals - args.length) Value.null,
      by simp [hactivates.below], ?_, ?_, hactivates.value hcount⟩
    · have hparams : r.params.length ≤ code.locals := hactivates.params
      rw [hactivates.closure, List.length_append, List.length_replicate]
      dsimp only
      omega
    · intro v hv
      rcases List.mem_append.mp hv with hv | hv
      · exact h.known v (by simp [hv])
      · rw [(List.mem_replicate.mp hv).2]
        trivial
  known := by simp
  within := hactivates.start ▸ fun _ _ hr => hr
  self _ := by
    rw [Running.self, hactivates.closure]
    exact h.known _ (by simp)
  offset := Nat.zero_le _
  height := Nat.le_refl _

/-- The caller goes on with the value of the call, and with its own locals. -/
theorem comes_leave {v : Value} {m₀ : Machine Console Value} (h : At R σ ip temps m₀)
    (hstack : m₀.stack = stack.toArray) (hheight : temps.length < ip)
    (hactivates : Activates R ip stack σ r ⟨identity, code, free⟩ R')
    (hleaving : Leaving R' v σ' m) :
    Comes S (fun m' => ∃ vs, IsValue v vs ∧
      At R { σ' with locals := σ.locals } ip (temps ++ vs) m') m := by
  obtain ⟨w, m₁, ip', ip'', temps', rfl, hw, hframes, hturn, hat⟩ := hleaving
  -- the callee goes with its locals and temporaries
  have hshrink : m₁.stack.shrink ((R'.frame ip'').base - 1) = stack.toArray := by
    obtain ⟨locals, hstack', -⟩ := hat.stack
    rw [hstack', Running.frame, hactivates.below]
    simp
  -- closures that the caller holds are still known, as routines are only added
  have hσ : σ.Within σ' := hactivates.start ▸ hat.within
  obtain ⟨locals, hstack₀, hlocals⟩ := h.stack
  have hat' : At R { σ' with locals := σ.locals } ip temps
      { m₁ with calls := m₁.calls.pop, stack := stack.toArray } :=
    { world := (hat.world.move _ _).withLocals _
      frames := by
        show m₁.frames.tail = _
        rw [hat.frames, hactivates.callers]
        rfl
      stack := ⟨locals, hstack.symm.trans hstack₀, hlocals.length,
        fun v hv => (hlocals.known v hv).mono hσ, hlocals.value⟩
      known := fun v hv => (h.known v hv).mono hσ
      within := fun i r hr => hσ i r (h.within i r hr)
      self := fun hcall => (h.self hcall).mono hσ
      offset := h.offset
      height := h.height }
  rw [Machine.leaving, hat.frames, hactivates.callers] at hturn
  dsimp only at hturn
  rw [hshrink] at hturn
  have hmove : Machine.Move (R'.frame ip') R'.callers (R.frame ip :: R.callers) := by
    rw [hactivates.callers]
    exact .leave (by simp)
  refine (hat'.push_of_move hframes hmove hturn hw hheight).bind fun m' hm' => .here ?_
  exact ⟨[w], ⟨w, rfl, rfl⟩, hm'⟩

/-! ### Calls -/

theorem Meaning.eval_invoke_succ (depth : Nat) (r : Routine) (self : Value) (args : List Value)
    (σ : Store) :
    eval (invoke .evaluation (depth + 1) r self args) σ =
      eval (do
        let v ← returning (block .evaluation (invoke .evaluation depth)
          (.call (r.name?.map (·, self)) r.captured) (r.params.map Param.name) r.body)
        modify fun σ' => { σ' with locals := σ.locals }
        return v) { σ with locals := bindParams r.params args } := rfl

/-- A body that returns in every case comes to the end of its call. -/
theorem Sim.returning {x : Meaning Value} (h : Sim R' (fun (_ : Empty) _ _ => False) (do
      let v ← x
      throw (.returned v)) σ m) :
    Sim R (Leaving R') (Meaning.returning x) σ m := by
  rw [Sim, Meaning.eval_bind] at h
  rw [Sim, Meaning.eval_returning]
  generalize x.eval σ = result at h ⊢
  rcases result with ⟨(v | fault | _) | a, σ'⟩ <;> exact h

theorem followsCalls (depth : Nat) (R : Running S)
    (hdepth : S.depth - R.callers.length = depth) :
    FollowsCalls R (Meaning.invoke .evaluation depth) := by
  induction depth generalizing R with
  | zero =>
    -- all calls of the evaluation are used up, so the frames of the machine are
    intro σ ip identity code free args temps r m m₁ hfetched hr himpl hcount
    obtain ⟨stack, hstack, -⟩ := hfetched.at_.drop
    intro hfull
    have hfull' : m₁.config.maxFrames ≤ m₁.calls.depth := by
      rw [m₁.calls.depth_eq, hfetched.at_.world.config]
      show _ ≤ m₁.frames.length
      rw [hfetched.at_.frames, List.length_cons]
      omega
    have hturn := Machine.turn_call_tooDeep hfetched.fetches hstack
      (himpl.params_eq ▸ hcount) hfull'
    exact .halts hturn (.inr ⟨_, rfl, by rw [hfetched.at_.world.config], hfetched.at_.world⟩)
  | succ depth ih =>
    intro σ ip identity code free args temps r m m₁ hfetched hr himpl hcount
    obtain ⟨ip₀, hip, hframes⟩ := hfetched.frames
    obtain ⟨stack, hstack, hat⟩ := hfetched.at_.drop
    have hbelow := hfetched.at_.stack_le hfetched.height hstack
    obtain ⟨R', hactivates⟩ := exists_activation himpl (by omega) hbelow σ ip identity
    have hdepth' : m₁.calls.depth < m₁.config.maxFrames := by
      rw [m₁.calls.depth_eq, hfetched.at_.world.config]
      show m₁.frames.length < _
      rw [hfetched.at_.frames, List.length_cons]
      have := S.depth_le
      omega
    rcases Machine.turn_call_closure hfetched.fetches hstack (himpl.params_eq ▸ hcount) hdepth' with
      ⟨-, hturn⟩ | ⟨hfull, m', hturn⟩
    · -- one frame less is left for the calls that the callee makes
      have hcalls := ih R' (by rw [hactivates.callers, List.length_cons]; omega)
      have hbody := hactivates.body hcalls (hfetched.at_.enter hactivates hcount)
      rw [hactivates.activation] at hbody
      refine .of_comes (.turns hturn hframes ?_ (.here ?_))
      · show Machine.Move _ _ (_ :: m₁.frames)
        rw [hfetched.at_.frames]
        exact .enter ip _ hip rfl
      · rw [Sim, Meaning.eval_invoke_succ]
        refine hbody.returning.bind fun v σ' m' hleaving => ?_
        refine comes_leave hat rfl (Nat.lt_of_le_of_lt ?_ hfetched.height) hactivates hleaving
        simp
    · -- there is room for the frames of all calls
      refine .of_comes (.halts hturn (.stack ?_))
      have hroom : code.room ≤ S.room := by
        have := R'.room_le
        rwa [hactivates.closure] at this
      have hparams : r.params.length ≤ code.locals := hactivates.params
      have hsize : m₁.stack.size = stack.length + 1 + args.length := by
        rw [hstack]
        simp
        omega
      rw [Machine.HasRoom] at hfull
      calc S.config.stackSize
          < stack.length + 1 + code.locals := by
            rw [← hfetched.at_.world.config]
            omega
        _ ≤ S.room * (R.callers.length + 1) + S.room := by
            rw [FunctionCode.room] at hroom
            omega
        _ = S.room * (R.callers.length + 2) := (Nat.mul_succ _ _).symm
        _ ≤ S.room * (S.depth + 1) := Nat.mul_le_mul_left _ (by omega)

end Bytescript

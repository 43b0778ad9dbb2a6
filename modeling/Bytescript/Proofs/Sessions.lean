/-
Closures that outlive their input.

A closure that an input leaves in a global refers to constants by their index, and later inputs
run with pools of their own. `kept_closures_keep_constants` says when an index goes on to mean the
same constant: when the input that compiled the closure has run to its end, or when the constant
is older than that input. The constants of an input that fails are dropped, its closures are not
(`failed_input_loses_constants`).

Design notes: where the functions inside the globals come from (`Traced`) is an invariant of runs
of any code, so it does not matter that such a closure runs with the wrong constants.
-/
import Bytescript.Proofs.Functions
import Bytescript.Proofs.Invariants
import Bytescript.Proofs.Programs

namespace Bytescript

/-! ### Functions in a run -/

section

variable {Q : FunctionCode → Prop}

theorem tryAnswers_pureResult {result : Except Fault Value}
    (h : Value.Yields (fun _ code _ => Q code) result) :
    Host.TryAnswers (S := Console) (Value.Every fun _ code _ => Q code)
      (Host.pureResult result) := by
  rintro s v hv
  cases result with
  | error fault => cases hv
  | ok w =>
    cases hv
    exact h

theorem tryAnswers_callBuiltin {callee : Value} {args : List Value}
    (h : ∀ v ∈ args, v.Every fun _ code _ => Q code) :
    Host.TryAnswers (fun result => ∀ v : Value, result = some v → v.Every fun _ code _ => Q code)
      (nativeHost.callBuiltin? callee args) := by
  rintro s result hresult v rfl
  cases callee with
  | builtin b =>
    have hyields := b.yields_evaluate h
    have hcall : nativeHost.callBuiltin? (.builtin b) args = some <$> b.call args := rfl
    rw [hcall, ExceptT.run_map, StateT.run_map, b.run_call] at hresult
    cases hevaluate : b.evaluate args with
    | error fault =>
      rw [hevaluate] at hresult
      cases hresult
    | ok w =>
      rw [hevaluate] at hresult hyields
      cases hresult
      exact hyields
  | null | boolean | integer | float | string | array | hash | function | closure => cases hresult

/-- Native operations make functions only of the code they are given. -/
theorem nativeHost_keeps (Q : FunctionCode → Prop) :
    nativeHost.Keeps (Value.Every fun _ code _ => Q code)
      (fun c => Q c.code ∧ ∀ v ∈ c.free, v.Every fun _ code _ => Q code) where
  binary _ _ := tryAnswers_pureResult (Value.yields_binary _ _ _)
  unary _ := tryAnswers_pureResult (Value.yields_unary _ _)
  boolean _ _ := trivial
  null _ := trivial
  array h _ := Value.every_array.mpr h
  hash h := tryAnswers_pureResult (Value.yields_hashOfPairs fun pair hpair => (h pair hpair).2)
  index h _ := tryAnswers_pureResult (Value.yields_index h _)
  callBuiltin? _ := tryAnswers_callBuiltin
  builtin i s v hv := by
    simp only [nativeHost] at hv
    split at hv <;> cases hv
    trivial
  function? {v} h s code hcode _ _ hfree := by
    cases v with
    | function identity code =>
      cases hcode
      exact ⟨h, hfree⟩
    | null | boolean | integer | float | string | array | hash | builtin | closure => cases hcode
  ofClosure h _ := Value.every_closure.mpr h
  closure? {v} h s c hc := by
    cases v with
    | closure identity code free =>
      cases hc
      exact Value.every_closure.mp h
    | null | boolean | integer | float | string | array | hash | builtin | function => cases hc
  free h := h.2

/-- At the start of a program all functions are its own, or in the globals that it finds. -/
theorem holds_start {p : Program} {globals : Globals Value} (config : MachineConfig)
    (identity : Nat) (hmain : Q { code := p.code })
    (hfunctions : ∀ code, .function code ∈ p.constants.toList → Q code)
    (hglobals : ∀ v, some v ∈ globals → v.Every fun _ code _ => Q code) :
    Machine.Holds (Machine.start nativeHost config p globals {} identity)
      (Value.Every fun _ code _ => Q code)
      (fun c => Q c.code ∧ ∀ v ∈ c.free, v.Every fun _ code _ => Q code)
      (Machine.start nativeHost config p globals {} identity) := by
  rw [start_eq]
  refine
    { config := rfl
      pool := rfl
      constants := fun v hv => ?_
      stack := fun v hv => by simp at hv
      globals := hglobals
      lastPopped := fun v hv => by cases hv
      closures := fun frame hframe => ?_
      depth := Nat.le_max_left _ _ }
  · obtain ⟨i, hi, rfl⟩ := List.mem_mapIdx.mp (List.mem_toArray.mp hv)
    cases hconstant : p.constants.toList[i] with
    | function code => exact hfunctions code (hconstant ▸ List.getElem_mem hi)
    | integer | float | string => trivial
  · rw [List.mem_singleton.mp hframe]
    exact ⟨hmain, fun v hv => by cases hv⟩

/-- A run leaves only functions in the globals that were there or that belong to the program. -/
theorem globals_runProgram {p : Program} {globals : Globals Value} (fuel : Nat)
    (config : MachineConfig) (identity : Nat) (hmain : Q { code := p.code })
    (hfunctions : ∀ code, .function code ∈ p.constants.toList → Q code)
    (hglobals : ∀ v, some v ∈ globals → v.Every fun _ code _ => Q code) :
    ∀ v, some v ∈ (runProgram fuel config p globals identity).2.globals →
      v.Every fun _ code _ => Q code :=
  ((holds_start config identity hmain hfunctions hglobals).run (nativeHost_keeps Q) fuel).globals

end

theorem compileSourceFrom_ok {state : CompilerState} {file source : String}
    {result : Program × CompilerState} (h : compileSourceFrom state file source = .ok result) :
    ∃ ast, parseSource file source = .ok ast ∧ compileFrom state ast = .ok result := by
  rw [compileSourceFrom] at h
  cases hparse : parseSource file source with
  | error d =>
    rw [hparse] at h
    cases h
  | ok ast =>
    rw [hparse] at h
    refine ⟨ast, rfl, ?_⟩
    replace h : (compileFrom state ast).mapError (Diagnostic.ofCompileError file source) =
      .ok result := h
    cases hcompile : compileFrom state ast with
    | error e =>
      rw [hcompile] at h
      cases h
    | ok r =>
      rw [hcompile] at h
      cases h
      rfl

namespace Session

/-! ### One input after the other -/

/-- Inputs lead from one session to another. -/
abbrev Reaches : Session → Session → Prop :=
  Relation.ReflTransGen fun s s' => ∃ fuel source, (s.eval fuel source).2.2 = s'

/-- What an input is compiled to. -/
def Compiles (s : Session) (source : String) (p : Program) : Prop :=
  ∃ state, compileSourceFrom s.state s.file source = .ok (p, state)

/-- The input runs to its end. -/
def Completes (s : Session) (fuel : Nat) (source : String) : Prop :=
  ∃ v, (s.eval fuel source).1 = .value v

/-- The session after an input. -/
theorem eval_session (s : Session) (fuel : Nat) (source : String) :
    (s.eval fuel source).2.2 = match compileSourceFrom s.state s.file source with
      | .error _ => s
      | .ok (p, state) =>
        let final := runProgram fuel s.config p s.globals s.nextIdentity
        { s with
          state := match final.1 with
            | .value _ => state
            | .fault _ | .outOfFuel => s.state
          globals := final.2.globals
          nextIdentity := final.2.nextIdentity } := by
  rw [eval]
  rcases compileSourceFrom s.state s.file source with d | ⟨p, state⟩
  · rfl
  · dsimp only
    generalize runProgram fuel s.config p s.globals s.nextIdentity = final
    rcases final with ⟨v | fault | _, m⟩ <;> rfl

/-- Names and constants are kept when the input runs to its end, else they stay as they were. -/
theorem state_eval (s : Session) (fuel : Nat) (source : String) :
    (∃ p state, compileSourceFrom s.state s.file source = .ok (p, state) ∧
      s.Completes fuel source ∧ (s.eval fuel source).2.2.state = state) ∨
    (¬ s.Completes fuel source ∧ (s.eval fuel source).2.2.state = s.state) := by
  rw [Completes, eval]
  rcases compileSourceFrom s.state s.file source with d | ⟨p, state⟩
  · exact .inr ⟨by rintro ⟨_, ⟨⟩⟩, rfl⟩
  · dsimp only
    generalize runProgram fuel s.config p s.globals s.nextIdentity = final
    rcases final with ⟨v | fault | _, m⟩
    · exact .inl ⟨p, state, rfl, ⟨v, rfl⟩, rfl⟩
    · exact .inr ⟨by rintro ⟨_, ⟨⟩⟩, rfl⟩
    · exact .inr ⟨by rintro ⟨_, ⟨⟩⟩, rfl⟩

/-- What is true of the names between inputs. -/
structure WellFormed (s : Session) : Prop where
  sound : s.state.scopes.Sound
  outer : s.state.scopes.outer = []

theorem wellFormed_fresh (file : String) (config : MachineConfig) :
    WellFormed { file, config } :=
  ⟨Scopes.sound_init, rfl⟩

/-- An input adds constants to those it finds. -/
theorem WellFormed.compile {s : Session} (h : s.WellFormed) {source : String} {p : Program}
    {state : CompilerState}
    (hcompile : compileSourceFrom s.state s.file source = .ok (p, state)) :
    WellFormed { s with state } ∧ p.constants = state.constants ∧
      s.state.constants.toList <+: p.constants.toList := by
  obtain ⟨ast, -, hfrom⟩ := compileSourceFrom_ok hcompile
  obtain ⟨code, -, hadvances, -, houter, rfl⟩ := Compile.compileFrom_ok hfrom h.sound h.outer
  exact ⟨⟨hadvances.sound, houter⟩, rfl, hadvances.constants⟩

theorem WellFormed.eval {s : Session} (h : s.WellFormed) (fuel : Nat) (source : String) :
    (s.eval fuel source).2.2.WellFormed ∧
      s.state.constants.toList <+: (s.eval fuel source).2.2.state.constants.toList := by
  rcases s.state_eval fuel source with ⟨p, state, hcompile, -, hstate⟩ | ⟨-, hstate⟩
  · obtain ⟨hwell, hconstants, hgrows⟩ := h.compile hcompile
    rw [hstate, ← hconstants]
    exact ⟨⟨hstate ▸ hwell.sound, hstate ▸ hwell.outer⟩, hgrows⟩
  · rw [hstate]
    exact ⟨⟨hstate ▸ h.sound, hstate ▸ h.outer⟩, List.prefix_rfl⟩

theorem WellFormed.of_reaches {s s' : Session} (h : s.WellFormed) (hreaches : s.Reaches s') :
    s'.WellFormed ∧ s.state.constants.toList <+: s'.state.constants.toList := by
  induction hreaches with
  | refl => exact ⟨h, List.prefix_rfl⟩
  | tail _ hinput ih =>
    obtain ⟨fuel, source, rfl⟩ := hinput
    obtain ⟨hwell, hgrows⟩ := ih.1.eval fuel source
    exact ⟨hwell, ih.2.trans hgrows⟩

/-- A constant that an input finds or keeps has the same index for all later inputs. -/
theorem WellFormed.constants_kept {s s₁ : Session} (h : s.WellFormed) {fuel : Nat}
    {source source' : String} {p p' : Program} (hp : s.Compiles source p)
    (hreaches : (s.eval fuel source).2.2.Reaches s₁) (hp' : s₁.Compiles source' p') {n : Nat}
    {c : Constant} (hc : p.constants[n]? = some c)
    (hkept : n < s.state.constants.size ∨ s.Completes fuel source) :
    p'.constants[n]? = some c := by
  obtain ⟨state, hcompile⟩ := hp
  obtain ⟨state', hcompile'⟩ := hp'
  obtain ⟨-, hconstants, hfound⟩ := h.compile hcompile
  obtain ⟨hwell, hgrows⟩ := h.eval fuel source
  obtain ⟨hwell₁, hgrows₁⟩ := hwell.of_reaches hreaches
  obtain ⟨-, -, hgrows'⟩ := hwell₁.compile hcompile'
  have hlater := hgrows₁.trans hgrows'
  rw [← Array.getElem?_toList] at hc ⊢
  -- a pool that was kept is found by all later inputs; else only what was there before it is
  rcases s.state_eval fuel source with ⟨p₀, state₀, hcompile₀, -, hstate⟩ | ⟨hfails, -⟩
  · obtain ⟨rfl, rfl⟩ : p = p₀ ∧ state = state₀ := by simpa [hcompile] using hcompile₀
    rw [hstate, ← hconstants] at hlater
    obtain ⟨hn, rfl⟩ := List.getElem?_eq_some_iff.mp hc
    exact List.prefix_iff_getElem?.mp hlater n hn
  · have hn := hkept.resolve_right hfails
    have hbefore := List.prefix_iff_getElem?.mp hfound n hn
    exact (List.prefix_iff_getElem?.mp (hgrows.trans hlater) n hn).trans (hbefore.symm.trans hc)

/-! ### Where functions come from -/

/-- Code that was compiled for one of the inputs between two sessions: main code, or a function
that the input added to the constants. -/
def IsFrom (first s : Session) (code : FunctionCode) : Prop :=
  ∃ s₀ fuel source p, first.Reaches s₀ ∧ (s₀.eval fuel source).2.2.Reaches s ∧
    s₀.Compiles source p ∧
    (code = { code := p.code } ∨
      .function code ∈ p.constants.toList.drop s₀.state.constants.size)

theorem IsFrom.eval {first s : Session} {code : FunctionCode} (h : IsFrom first s code)
    (fuel : Nat) (source : String) : IsFrom first (s.eval fuel source).2.2 code := by
  obtain ⟨s₀, fuel₀, source₀, p, hbefore, hafter, hp, hcode⟩ := h
  exact ⟨s₀, fuel₀, source₀, p, hbefore, hafter.tail ⟨fuel, source, rfl⟩, hp, hcode⟩

/-- The functions among the constants and inside the globals are from inputs. -/
structure Traced (first s : Session) : Prop where
  constants : ∀ code, .function code ∈ s.state.constants.toList → IsFrom first s code
  globals : ∀ v, some v ∈ s.globals → v.Every fun _ code _ => IsFrom first s code

theorem Traced.eval {first s : Session} (h : Traced first s) (hwell : s.WellFormed)
    (hreaches : first.Reaches s) (fuel : Nat) (source : String) :
    Traced first (s.eval fuel source).2.2 := by
  cases hcompile : compileSourceFrom s.state s.file source with
  | error d =>
    have hsame : (s.eval fuel source).2.2 = s := by rw [eval_session, hcompile]
    rwa [hsame]
  | ok r =>
    obtain ⟨p, state⟩ := r
    obtain ⟨-, hconstants, hfound⟩ := hwell.compile hcompile
    have hinput : ∀ code, (code = { code := p.code } ∨
        .function code ∈ p.constants.toList.drop s.state.constants.size) →
        IsFrom first (s.eval fuel source).2.2 code :=
      fun code hcode => ⟨s, fuel, source, p, hreaches, .refl, ⟨state, hcompile⟩, hcode⟩
    -- the functions of the new pool are those it began with and those of this input
    have hfunctions : ∀ code, .function code ∈ p.constants.toList →
        IsFrom first (s.eval fuel source).2.2 code := by
      intro code hcode
      obtain ⟨added, hadded⟩ := hfound
      rw [← hadded] at hcode
      rcases List.mem_append.mp hcode with hold | hnew
      · exact (h.constants code hold).eval fuel source
      · refine hinput code (.inr ?_)
        rwa [← hadded, ← Array.length_toList, List.drop_left]
    refine ⟨?_, ?_⟩
    · rcases s.state_eval fuel source with ⟨p', state', hcompile', -, hstate⟩ | ⟨-, hstate⟩
      · obtain ⟨rfl, rfl⟩ : p = p' ∧ state = state' := by simpa [hcompile] using hcompile'
        rwa [hstate, ← hconstants]
      · rw [hstate]
        exact fun code hcode => (h.constants code hcode).eval fuel source
    · have hglobals : (s.eval fuel source).2.2.globals =
          (runProgram fuel s.config p s.globals s.nextIdentity).2.globals := by
        rw [eval_session, hcompile]
      rw [hglobals]
      refine globals_runProgram fuel s.config s.nextIdentity (hinput _ (.inl rfl)) hfunctions ?_
      exact fun v hv => (h.globals v hv).mono fun _ _ _ hcode => hcode.eval fuel source

theorem traced_of_reaches {first s : Session} (hwell : first.WellFormed)
    (hstart : Traced first first) (hreaches : first.Reaches s) : Traced first s := by
  induction hreaches with
  | refl => exact hstart
  | tail hbefore hinput ih =>
    obtain ⟨fuel, source, rfl⟩ := hinput
    exact ih.eval (hwell.of_reaches hbefore).1 hbefore fuel source

theorem traced_fresh (file : String) (config : MachineConfig) :
    Traced { file, config } { file, config } :=
  ⟨fun _ hcode => by simp at hcode, fun _ hv => by simp at hv⟩

/-! ### Constants of kept closures -/

/-- The constants of a run are those of the program, all the time. -/
theorem getElem?_constants_of_reaches {config : MachineConfig} {p : Program}
    {globals : Globals Value} {identity n : Nat} {c : Constant} {m : Machine Console Value}
    (hreaches : Machine.Reaches nativeHost
      (Machine.start nativeHost config p globals {} identity) m)
    (hc : p.constants[n]? = some c) :
    m.constants[n]? = some (Value.ofConstant (identity + n) c) := by
  rw [Machine.constants_of_reaches hreaches, start_eq]
  simp [hc]

/-- The code of a closure in the globals is from an input. If that input has run to its end, every
constant in its pool keeps its index in the pools of later inputs, and is what their runs load from
there. If not, this is true of the constants that the input found, and the others are dropped. -/
theorem kept_closures_keep_constants (file : String) (config : MachineConfig) {s : Session}
    (h : Reaches { file, config } s) :
    (∀ v, some v ∈ s.globals → v.Every fun _ code _ => IsFrom { file, config } s code) ∧
    ∀ s₀ fuel source p, Reaches { file, config } s₀ → s₀.Compiles source p →
      (¬ s₀.Completes fuel source → (s₀.eval fuel source).2.2.state = s₀.state) ∧
      ∀ s₁ source' p', (s₀.eval fuel source).2.2.Reaches s₁ → s₁.Compiles source' p' →
        ∀ n c, p.constants[n]? = some c →
          n < s₀.state.constants.size ∨ s₀.Completes fuel source →
          p'.constants[n]? = some c ∧
          ∀ m, Machine.Reaches nativeHost
              (Machine.start nativeHost s₁.config p' s₁.globals {} s₁.nextIdentity) m →
            m.constants[n]? = some (Value.ofConstant (s₁.nextIdentity + n) c) := by
  have hwell := wellFormed_fresh file config
  refine ⟨(traced_of_reaches hwell (traced_fresh file config) h).globals, ?_⟩
  intro s₀ fuel source p hbefore hp
  refine ⟨fun hfails => ?_, fun s₁ source' p' hlater hp' n c hc hkept => ?_⟩
  · rcases s₀.state_eval fuel source with ⟨_, _, -, hcompletes, -⟩ | ⟨-, hstate⟩
    · exact absurd hcompletes hfails
    · exact hstate
  · have hsame : p'.constants[n]? = some c :=
      (hwell.of_reaches hbefore).1.constants_kept hp hlater hp' hc hkept
    exact ⟨hsame, fun m hreaches => getElem?_constants_of_reaches hreaches hsame⟩

/-- The session after `var g = fn() { 42 };`. -/
def answered : Session :=
  (eval 100 { file := "<test>" } "var g = fn() { 42 };").2.2

theorem closure_mem_answered :
    ∃ v, some v ∈ answered.globals ∧ v.typeName = "Closure" := by
  have hglobal : answered.globals[0]?.join.map Value.typeName = some "Closure" := by
    decide +kernel
  obtain ⟨v, hv, htype⟩ := Option.map_eq_some_iff.mp hglobal
  exact ⟨v, Array.mem_of_getElem? (Option.join_eq_some_iff.mp hv), htype⟩

theorem compiles_answer : ∃ p, Compiles { file := "<test>" } "var g = fn() { 42 };" p ∧
    p.constants[0]? = some (.integer 42) := by
  have hfirst : ((compileSourceFrom {} "<test>" "var g = fn() { 42 };").toOption.bind
      fun r => r.1.constants[0]?) = some (.integer 42) := by decide +kernel
  cases hcompile : compileSourceFrom {} "<test>" "var g = fn() { 42 };" with
  | error d =>
    rw [hcompile] at hfirst
    cases hfirst
  | ok r =>
    rw [hcompile] at hfirst
    exact ⟨r.1, ⟨r.2, hcompile⟩, hfirst⟩

theorem completes_answer : Completes { file := "<test>" } 100 "var g = fn() { 42 };" := by
  have hadded : answered.state.constants.size = 2 := by decide +kernel
  rcases state_eval { file := "<test>" } 100 "var g = fn() { 42 };" with
    ⟨_, _, -, hcompletes, -⟩ | ⟨-, hstate⟩
  · exact hcompletes
  · rw [answered, hstate] at hadded
    cases hadded

/-- The closure in `g` goes on to have the constant 42. -/
theorem answered_keeps_constants :
    (∃ v, some v ∈ answered.globals ∧ v.typeName = "Closure" ∧
      v.Every fun _ code _ => IsFrom { file := "<test>" } answered code) ∧
    ∀ source p, answered.Compiles source p → p.constants[0]? = some (.integer 42) := by
  have hreaches : Reaches { file := "<test>" } answered := .tail .refl ⟨100, _, rfl⟩
  obtain ⟨hfrom, hkept⟩ := kept_closures_keep_constants "<test>" {} hreaches
  obtain ⟨v, hmem, htype⟩ := closure_mem_answered
  obtain ⟨p, hp, hfirst⟩ := compiles_answer
  obtain ⟨-, hlater⟩ := hkept { file := "<test>" } 100 _ p .refl hp
  refine ⟨⟨v, hmem, htype, hfrom v hmem⟩, ?_⟩
  exact fun source' p' hp' =>
    (hlater answered source' p' .refl hp' 0 _ hfirst (.inr completes_answer)).1

/-- A closure that an input leaves behind in a global when it fails loads the constants of later
inputs. -/
theorem failed_input_loses_constants :
    let s₁ := (eval 100 { file := "<test>" } "var g = null;").2.2
    let s₂ := (s₁.eval 100 "g = fn() { 42 }; 1 / 0").2.2
    (s₁.eval 100 "g = fn() { 42 }; g()").1 matches .value (.integer 42) ∧
      (s₂.eval 100 "\"hello\"; g()").1 matches .value (.string "hello") := by
  decide +kernel

end Session

end Bytescript

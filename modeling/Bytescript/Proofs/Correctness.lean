/-
Compiled programs do what they mean, never go wrong and always halt.

* `run_agrees_with_meaning` — a run of a compiled program ends as the evaluation of its tree does:
  with the same value or fault, the same output and the same globals, unless the stack or the
  globals have too little room, and how much room suffices is said;
* `compiled_never_malformed` — a run never finds its code malformed;
* `compiled_halts` — every run halts, since within a call the machine only goes forward and the
  nesting of calls is bounded.

Names in the operands of a comparison are resolved in the order in which the operands are
evaluated. That is not always the order in which they are written (`textual_order_differs`).
-/
import Bytescript.Proofs.Depth
import Bytescript.Proofs.Invariants
import Bytescript.Proofs.Programs

namespace Bytescript

theorem compile_ok {ast : Ast} {p : Program} (h : compile ast = .ok p) :
    ∃ st, compileFrom {} ast = .ok (p, st) := by
  rw [compile] at h
  cases hcompile : compileFrom {} ast with
  | error e =>
    rw [hcompile] at h
    cases h
  | ok r =>
    rw [hcompile] at h
    cases h
    exact ⟨r.2, rfl⟩

/-- The root table has a slot for every declaration. -/
theorem definitions_eq {ast : Ast} {p : Program} {st : CompilerState}
    (h : compileFrom {} ast = .ok (p, st)) :
    st.scopes.current.definitions = (Stmt.allDeclared ast.statements).length := by
  obtain ⟨code, -, hadvances, -⟩ := Compile.compileFrom_ok h Scopes.sound_init rfl
  exact hadvances.scopes.current.definitions.trans (Nat.zero_add _)

/-! ### Agreement -/

/-- The machine has printed what the evaluation has, and the globals have the same values. -/
structure Reflects (names : ScopeTable) (σ : Store) (m : Machine Console Value) : Prop where
  console : m.host = σ.console
  globals : ∀ {n : String} {s : Symbol}, names.symbols[n]? = some s → s.storage = .globalSlot →
    (globalValue m.globals s.index).surface = (σ.globals n).getD .null

/-- A run ends as an evaluation does. An evaluation that runs out of nested calls is a run with
too many frames. -/
def Agrees (config : MachineConfig) (names : ScopeTable) : Meaning.Ending × Store →
    Machine.Outcome Value × Machine Console Value → Prop
  | (.value v, σ), (outcome, m) =>
    Reflects names σ m ∧ ∃ w : Value, outcome = .value w ∧ w.surface = v
  | (.fault fault, σ), (outcome, m) => Reflects names σ m ∧ outcome = .fault fault
  | (.exhausted, σ), (outcome, m) =>
    Reflects names σ m ∧ outcome = .fault (.frameOverflow config.maxFrames)

theorem World.reflects {S : Setting} {σ : Store} {m : Machine Console Value} (h : World S σ m) :
    Reflects S.root σ m :=
  ⟨h.console, h.globals⟩

theorem Ends.agrees {S : Setting} {ending : Meaning.Ending × Store}
    {result : Machine.Outcome Value × Machine Console Value} (h : Ends S ending result) :
    Agrees S.config S.root ending result := by
  obtain ⟨outcome, m⟩ := result
  rcases ending with ⟨v | fault | _, σ⟩
  · exact ⟨h.1.reflects, h.2⟩
  · exact ⟨h.1.reflects, h.2.2⟩
  · exact ⟨h.1.reflects, h.2⟩

/-- The run of a compiled program, whatever fuel it is given beyond some amount, ends as the
evaluation of its tree does. The evaluation may use any bound on nested calls that the machine
allows and that suffices, or the largest that the machine allows. -/
theorem run_agrees_with_meaning {ast : Ast} {p : Program} {st : CompilerState}
    (h : compileFrom {} ast = .ok (p, st)) (config : MachineConfig) (identity : Nat) :
    ∃ enough result,
      (∀ fuel, enough ≤ fuel → runProgram fuel config p #[] identity = result) ∧
      ∀ depth, depth ≤ config.maxFrames - 1 →
        depth = config.maxFrames - 1 ∨
          (Meaning.program .evaluation depth (identity + p.constants.size + 1) ast).1 ≠
            .exhausted →
        (∀ depth', depth ≤ depth' →
          (Meaning.program .evaluation depth (identity + p.constants.size + 1) ast).1 ≠
            .exhausted →
          Meaning.program .evaluation depth' (identity + p.constants.size + 1) ast =
            Meaning.program .evaluation depth (identity + p.constants.size + 1) ast) ∧
        (result.1 = .fault .stackOverflow ∧ config.stackSize < p.room * (depth + 1) ∨
          (∃ i, result.1 = .fault (.globalOutOfRange i) ∧ config.globalsSize ≤ i ∧
            i < (Stmt.allDeclared ast.statements).length) ∨
          Agrees config st.scopes.current
            (Meaning.program .evaluation depth (identity + p.constants.size + 1) ast) result) := by
  have hfull : config.maxFrames - 1 + 1 ≤ max 1 config.maxFrames := by omega
  obtain ⟨enough, result, -, hrun⟩ :=
    (leads_program h config identity hfull (.inl (by omega))).run
  refine ⟨enough, result, hrun, fun depth hdepth hends => ⟨fun _ hle hne => ?_, ?_⟩⟩
  · exact Meaning.program_mono hle hne
  have hallowed : depth + 1 ≤ max 1 config.maxFrames := by omega
  obtain ⟨enough', result', hresult, hrun'⟩ :=
    (leads_program h config identity hallowed (hends.imp_left fun heq => by omega)).run
  -- it is the same run, seen from an evaluation with another bound
  obtain rfl : result' = result :=
    (hrun' (max enough enough') (by omega)).symm.trans (hrun (max enough enough') (by omega))
  refine hresult.elim (fun hlimit => ?_) fun hends => .inr (.inr hends.agrees)
  generalize result'.1 = outcome at hlimit ⊢
  cases hlimit with
  | stack hroom => exact .inl ⟨rfl, hroom⟩
  | global hsize hdeclared => exact .inr (.inl ⟨_, rfl, hsize, definitions_eq h ▸ hdeclared⟩)

/-- `let x = 5; let f = fn() { x <= if (true) { let x = 1; x } }; f()`. The left operand is written
before the local `x` is declared, and compiled after it. -/
def shadowedOperand : Ast :=
  let arm : Block := .mk [.declare .constant "x" (.integer 1 {}) {},
    .expression (.identifier "x" {}) {}] {}
  let comparison : Expr := .binary .lessEqual (.identifier "x" {})
    (.conditional (.boolean true {}) arm none {}) {}
  ⟨[.declare .constant "x" (.integer 5 {}) {},
    .declare .constant "f" (.function (some "f") [] (.mk [.expression comparison {}] {}) {}) {},
    .expression (.call (.identifier "f" {}) [] {}) {}]⟩

theorem compile_shadowedOperand : ∃ p st, compileFrom {} shadowedOperand = .ok (p, st) ∧
    p.constants.size = 3 ∧ p.room = 21 ∧
    (runProgram 100 {} p #[] 0).1 matches .value (.boolean true) := by
  have h : (compileFrom {} shadowedOperand).toOption.map (fun r =>
      (r.1.constants.size, r.1.room,
        (runProgram 100 {} r.1 #[] 0).1 matches .value (.boolean true))) =
      some (3, 21, true) := by decide +kernel
  cases hcompile : compileFrom {} shadowedOperand with
  | error e =>
    rw [hcompile] at h
    cases h
  | ok r =>
    rw [hcompile] at h
    injection h with h
    injection h with hsize h
    injection h with hroom hvalue
    exact ⟨r.1, r.2, rfl, hsize, hroom, hvalue⟩

theorem shadowedOperand_agrees : ∃ p st, compileFrom {} shadowedOperand = .ok (p, st) ∧
    ∃ enough, ∀ fuel, enough ≤ fuel →
      ∃ w : Value, (runProgram fuel {} p #[] 0).1 = .value w ∧ w.surface = .boolean true := by
  obtain ⟨p, st, hcompile, hsize, hroom, -⟩ := compile_shadowedOperand
  obtain ⟨enough, result, hrun, hmeans⟩ := run_agrees_with_meaning hcompile {} 0
  have hmeaning : (Meaning.program .evaluation 1 (0 + p.constants.size + 1) shadowedOperand).1 =
      .value (.boolean true) := by
    rw [hsize]
    rfl
  obtain ⟨-, hresult⟩ := hmeans 1 (by decide) (.inr (by rw [hmeaning]; nofun))
  refine ⟨p, st, hcompile, enough, fun fuel hfuel => ?_⟩
  rw [hrun fuel hfuel]
  rcases hresult with ⟨-, hstack⟩ | ⟨i, -, hsize, hdeclared⟩ | hagrees
  · rw [hroom] at hstack
    exact absurd hstack (by decide)
  · exact absurd (Nat.lt_of_le_of_lt hsize hdeclared) (by decide)
  · generalize Meaning.program .evaluation 1 (0 + p.constants.size + 1) shadowedOperand = ending
      at hmeaning hagrees
    obtain ⟨_, σ⟩ := ending
    cases hmeaning
    exact hagrees.2

/-- Were the names in the operands of a comparison resolved in the order in which the operands are
written, a compiled program could give another value than it means. -/
theorem textual_order_differs : ∃ p, compile shadowedOperand = .ok p ∧
    (runProgram 100 {} p #[] 0).1 matches .value (.boolean true) ∧
    (Meaning.program .textual 1 (0 + p.constants.size + 1) shadowedOperand).1 =
      .value (.boolean false) := by
  obtain ⟨p, st, hcompile, hsize, -, hvalue⟩ := compile_shadowedOperand
  refine ⟨p, by rw [compile, hcompile]; rfl, hvalue, ?_⟩
  rw [hsize]
  rfl

/-! ### Safety -/

/-- `let f = fn(n) { f(n + 1) }; f(0)`. -/
def endlessCalls : Ast :=
  let body : Expr := .call (.identifier "f" {})
    [.binary .add (.identifier "n" {}) (.integer 1 {}) {}] {}
  ⟨[.declare .constant "f" (.function (some "f") [⟨"n", {}⟩] (.mk [.expression body {}] {}) {}) {},
    .expression (.call (.identifier "f" {}) [.integer 0 {}] {}) {}]⟩

theorem compile_endlessCalls : ∃ p, compile endlessCalls = .ok p := by
  have h : (compile endlessCalls).isOk = true := by decide +kernel
  cases hcompile : compile endlessCalls with
  | error e =>
    rw [hcompile] at h
    cases h
  | ok p => exact ⟨p, rfl⟩

/-- A run of compiled code that has room for its globals fails in these ways only. -/
def runErrors : List ErrorKind :=
  [.stackOverflow, .frameOverflow, .unhashableKey, .notCallable, .wrongArgumentCount,
    .notIndexable, .typeError, .divisionByZero, .builtinError]

/-- What a machine may end with that follows an evaluation. -/
theorem outcome_of_ends {S : Setting} {ending : Meaning.Ending × Store}
    {result : Machine.Outcome Value × Machine Console Value}
    (h : Limit S result.1 ∨ Ends S ending result) :
    (∃ v, result.1 = .value v) ∨ ∃ fault, result.1 = .fault fault ∧
      (fault.kind ∈ runErrors ∨ S.config.globalsSize < S.root.definitions) := by
  obtain ⟨outcome, m⟩ := result
  rcases h with hlimit | hends
  · cases hlimit with
    | stack => exact .inr ⟨_, rfl, .inl (by decide)⟩
    | global hsize hdeclared => exact .inr ⟨_, rfl, .inr (Nat.lt_of_le_of_lt hsize hdeclared)⟩
  · rcases ending with ⟨v | fault | _, σ⟩
    · obtain ⟨-, w, rfl, -⟩ := hends
      exact .inl ⟨w, rfl⟩
    · obtain ⟨-, hmistake, rfl⟩ := hends
      exact .inr ⟨fault, rfl, .inl (List.mem_cons_of_mem _ (List.mem_cons_of_mem _ hmistake))⟩
    · obtain ⟨-, rfl⟩ := hends
      exact .inr ⟨_, rfl, .inl (List.mem_cons_of_mem _ List.mem_cons_self)⟩

/-- The machine never finds the code of a compiled program malformed, given a slot for each global
that the program declares. -/
theorem compiled_never_malformed {ast : Ast} {p : Program} (h : compile ast = .ok p)
    (config : MachineConfig)
    (hglobals : (Stmt.allDeclared ast.statements).length ≤ config.globalsSize) (identity : Nat) :
    (∀ m, Machine.Reaches nativeHost (Machine.start nativeHost config p #[] {} identity) m →
      ∀ fault m', Machine.turn nativeHost m = .halt (.fault fault, m') →
        fault.kind ∈ runErrors) ∧
    ∀ fuel fault, (runProgram fuel config p #[] identity).1 = .fault fault →
      fault.kind ∈ runErrors := by
  obtain ⟨st, h⟩ := compile_ok h
  have hfull : config.maxFrames - 1 + 1 ≤ max 1 config.maxFrames := by omega
  have hroom : ¬ config.globalsSize < (settingOf h config identity hfull).root.definitions :=
    Nat.not_lt.mpr (Nat.le_trans (Nat.le_of_eq (definitions_eq h)) hglobals)
  have hleads : Machine.Leads nativeHost (fun _ => False)
      (fun r => ∀ fault, r.1 = .fault fault → fault.kind ∈ runErrors)
      (Machine.start nativeHost config p #[] {} identity) := by
    refine (leads_program h config identity hfull (.inl (by omega))).mono (fun _ hm => hm)
      fun r hends fault hfault => ?_
    rcases outcome_of_ends hends with ⟨v, hv⟩ | ⟨fault', hfault', hkind⟩
    · rw [hfault] at hv
      cases hv
    · rw [hfault] at hfault'
      cases hfault'
      exact hkind.resolve_right hroom
  refine ⟨fun m hreaches fault m' hturn => ?_, fun fuel fault hfault => ?_⟩
  · exact (hleads.of_reaches hreaches).halt hturn fault rfl
  · have hfinished : (runProgram fuel config p #[] identity).1 ≠ .outOfFuel := by
      rw [hfault]
      nofun
    exact hleads.of_run hfinished fault hfault

theorem endlessCalls_never_malformed : ∃ p, compile endlessCalls = .ok p ∧
    (Stmt.allDeclared endlessCalls.statements).length ≤ ({} : MachineConfig).globalsSize ∧
    ∀ fuel fault, (runProgram fuel {} p #[] 0).1 = .fault fault →
      fault.kind ∈ runErrors := by
  obtain ⟨p, h⟩ := compile_endlessCalls
  have hglobals : (Stmt.allDeclared endlessCalls.statements).length ≤
      ({} : MachineConfig).globalsSize := by decide
  exact ⟨p, h, hglobals, (compiled_never_malformed h {} hglobals 0).2⟩

/-! ### Termination -/

/-- Every run of a compiled program halts: a turn goes forward in the code of the call it is in,
begins a call or ends one, and only so many calls are ever active. -/
theorem compiled_halts {ast : Ast} {p : Program} (h : compile ast = .ok p)
    (config : MachineConfig) (identity : Nat) :
    (∃ enough result, result.1 ≠ .outOfFuel ∧
      ∀ fuel, enough ≤ fuel → runProgram fuel config p #[] identity = result) ∧
    ∀ m, Machine.Reaches nativeHost (Machine.start nativeHost config p #[] {} identity) m →
      m.frames.length ≤ max 1 config.maxFrames ∧
      ∀ m', Machine.turn nativeHost m = .next m' →
        ∃ frame callers, m.frames = frame :: callers ∧ Machine.Move frame callers m'.frames := by
  obtain ⟨st, h⟩ := compile_ok h
  have hfull : config.maxFrames - 1 + 1 ≤ max 1 config.maxFrames := by omega
  have hleads := leads_program h config identity hfull (.inl (by omega))
  refine ⟨?_, fun m hreaches => ⟨?_, fun m' hturn => ?_⟩⟩
  · obtain ⟨enough, result, hresult, hrun⟩ := hleads.run
    refine ⟨enough, result, ?_, hrun⟩
    rcases outcome_of_ends hresult with ⟨v, hv⟩ | ⟨fault, hfault, -⟩
    · rw [hv]
      nofun
    · rw [hfault]
      nofun
  · exact Machine.frames_length_le hreaches
  · exact (hleads.of_reaches hreaches).move hturn

theorem endlessCalls_halts : ∃ p, compile endlessCalls = .ok p ∧
    ∃ enough result, result.1 ≠ .outOfFuel ∧
      ∀ fuel, enough ≤ fuel → runProgram fuel {} p #[] 0 = result := by
  obtain ⟨p, h⟩ := compile_endlessCalls
  exact ⟨p, h, (compiled_halts h {} 0).1⟩

end Bytescript

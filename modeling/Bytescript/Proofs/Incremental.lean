/-
Sessions and single programs.

Main statement: `Session.agrees_with_one_program`. Inputs that are given to a session one by one do
what their statements do when they are compiled and run as one program.

The names and constants that one input leaves are those that the next one finds, so the parts of the
program are compiled as the inputs are, only that their code stands further down. For each input the
session starts a machine of its own; the machine of the program stays in step with it
(`Waits.input`) and then waits, with an empty stack, at the code of the next input.
-/
import Bytescript.Proofs.Lockstep
import Bytescript.Proofs.Sessions

namespace Bytescript

open Value Machine

/-! ### The code of an input -/

theorem CompilerState.Ready.limits_eq {st : CompilerState} (h : st.Ready) :
    st.limits = ⟨st.constants.toList, st.scopes.current.definitions, 0, 0, false⟩ := by
  have hroot : st.scopes.current.IsRoot := by
    have hsound : Scopes.Linked st.scopes.current st.scopes.outer := h.valid.sound
    rw [h.outer] at hsound
    exact hsound.isRoot
  rw [CompilerState.limits, Scopes.root, Scopes.isGlobal, h.outer, hroot.captures]
  rfl

/-- An input is compiled to instructions that do not depend on where they stand. -/
theorem CompilerState.Ready.emitted {st st₁ : CompilerState} {ast : Ast} {p : Program}
    (h : st.Ready) (hcompile : compileFrom st ast = .ok (p, st₁)) :
    ∃ is, Compile.Emitted st st₁ 0 is ∧ p.code.bytes.toList = encodeAll is ∧ TargetsFit 0 is ∧
      ∀ ⦃code code' : Fragment⦄ ⦃st' : CompilerState⦄,
        (Compile.stmts ast.statements code).run st = .ok (code', st') →
        st' = st₁ ∧ Compile.Placed is code code' := by
  obtain ⟨own, hown, -, -, -, rfl⟩ := Compile.compileFrom_ok hcompile h.valid.sound h.outer
  obtain ⟨is, his, hplaced⟩ := Compile.emits_stmts ast.statements hown h.valid
  obtain ⟨-, hplaced₁⟩ := hplaced hown
  have hinstructions : own.instructions.toList = [] ++ moved 0 is :=
    hplaced₁.extended.instructions
  refine ⟨is, his, ?_, hplaced₁.targets, hplaced⟩
  rw [Fragment.bytes_assemble, hinstructions, List.nil_append, moved_zero]

/-- The code of an input, as a part of longer code. -/
def Passage.ofInput (config : MachineConfig) {st st₁ : CompilerState} (hst₁ : st₁.Ready)
    {is : List (Located Instruction)} (his : Compile.Emitted st st₁ 0 is) {code : Code}
    {offset : Nat} (hcode : code.Has offset is) (before : String) : Passage where
  config
  pool := st₁.constants.toList
  globals := st₁.scopes.current.definitions
  instructions := is
  code
  offset
  before
  functions f hf := by
    have hchecked := hst₁.valid.functions f hf
    rwa [Scopes.root, hst₁.outer] at hchecked
  compiled :=
    { narrow := ⟨hst₁.limit, Nat.zero_le _, Nat.zero_le _⟩
      balanced := his.balanced
      proper := fun i hi => hst₁.limits_eq ▸ his.proper i hi }
  has := hcode

namespace Passage

variable {S : Passage} {ι : Nat → Nat → Prop} {m M : Machine Console Value}

/-- At the end of its code the first machine has as many values on the stack as the code leaves
there, and the second machine is behind the code too. -/
theorem Lockstep.at_end (h : S.Lockstep ι m M) (hend : m.AtEnd) :
    (m.stack.size : Int) = rise S.instructions ∧ ∃ frame, M.frames = [frame] ∧
      frame.code = S.code ∧ frame.ip = S.offset + (encodeAll S.instructions).length := by
  obtain ⟨-, hpaired⟩ := h
  obtain ⟨frame, hframes, hfinished⟩ := hend
  rw [hframes] at hpaired
  generalize hframes' : M.frames = frames' at hpaired
  generalize hsize : (m.stack.size : Int) = size at hpaired
  cases hpaired with
  | @main _ frame' k hbytes hcode hk hip hip' =>
    have hlast : k = S.instructions.length := by
      by_contra hne
      -- an instruction that is still to come has bytes behind the offset
      have hi : S.instructions[k]? = some S.instructions[k] := List.getElem?_eq_getElem (by omega)
      have hnext := offsetAt_le S.instructions (k + 1)
      rw [offsetAt_succ hi, ← Instruction.length_encode, Instruction.encode, List.length_cons]
        at hnext
      rw [Frame.isFinished, decide_eq_true_iff, ← Array.length_toList, hbytes, hip] at hfinished
      omega
    subst hlast
    rw [offsetAt_length] at hip'
    exact ⟨by rw [List.take_length], frame', rfl, hcode, hip'⟩
  | call _ _ _ _ _ _ hcallers => exact absurd rfl hcallers.ne_nil.1

end Passage

namespace Session

/-! ### Sessions between inputs -/

/-- The globals of a session and other globals are alike. Closures refer to what the session has,
and their numbers were all given out before. -/
structure Agrees (s : Session) (ι : Nat → Nat → Prop) (globals : Globals Value) (next : Nat) :
    Prop where
  ready : s.state.Ready
  alike : List.Forall₂ (Option.Rel (Alike (Numbered s.state.constants.toList
    s.state.scopes.current.definitions ι))) s.globals.toList globals.toList
  size_le : s.globals.size ≤ s.state.scopes.current.definitions
  pairing : IsPairing ι
  fresh : ∀ ⦃i j⦄, ι i j → i < s.nextIdentity ∧ j < next

theorem agrees_empty {s : Session} (hstate : s.state = {}) (hglobals : s.globals = #[])
    (next : Nat) : s.Agrees (fun _ _ => False) #[] next where
  ready := hstate ▸ .init
  alike := by
    rw [hglobals]
    exact .nil
  size_le := by
    rw [hglobals]
    exact Nat.zero_le _
  pairing := fun _ _ _ _ hij => hij.elim
  fresh := fun _ _ hij => hij.elim

section

variable {s : Session} {ι : Nat → Nat → Prop} {M m : Machine Console Value} {p : Program}
  {st₁ : CompilerState} {is : List (Located Instruction)} {code : Code} {offset : Nat}

/-- A machine that waits at the code of the next input is in step with the machine that the session
starts for that input. -/
theorem Agrees.lockstep (h : s.Agrees ι M.globals M.nextIdentity) (hst₁ : st₁.Ready)
    (his : Compile.Emitted s.state st₁ 0 is) (hcode : code.Has offset is)
    (hconstants : p.constants = st₁.constants) (hbytes : p.code.bytes.toList = encodeAll is)
    (hconfig : M.config = s.config) (hloads : Passage.Loads st₁.constants.toList M.constants)
    (hstack : M.stack = #[]) {frame : Frame Value} (hframes : M.frames = [frame])
    (hframe : frame.code = code) (hip : frame.ip = offset) :
    (Passage.ofInput s.config hst₁ his hcode M.host.printed).Lockstep ι
      (start nativeHost s.config p s.globals {} s.nextIdentity) M := by
  have hlimits := his.limits
  rw [h.ready.limits_eq, hst₁.limits_eq] at hlimits
  -- the pool and the globals that the compiler knows only grow with the input
  have hsame : ∀ i j f,
      Numbered s.state.constants.toList s.state.scopes.current.definitions ι i j f →
      Numbered st₁.constants.toList st₁.scopes.current.definitions ι i j f :=
    fun i j f hf => hf.mono hlimits.pool hlimits.globals fun _ _ hij => hij
  rw [start_eq]
  constructor
  · exact
      { config := rfl
        config' := hconfig
        constants := fun n c hc => by
          refine ⟨s.nextIdentity + n, ?_⟩
          have hc' : p.constants.toList[n]? = some c := hconstants ▸ hc
          simp [hc']
        constants' := hloads
        stack := by
          rw [hstack]
          exact .nil
        globals := Passage.alike_globals_mono hsame h.alike
        globals_le := Nat.le_trans h.size_le hlimits.globals
        lastPopped := fun v hv => by cases hv
        printed := String.append_empty.symm
        pairing := h.pairing
        fresh := fun i j hij => by
          have := h.fresh hij
          show i < s.nextIdentity + p.constants.size + 1 ∧ _
          omega }
  · rw [hframes]
    exact .main (k := 0) hbytes hframe (Nat.zero_le _) rfl hip

/-- After the input the session and the other machine still agree. -/
theorem agrees_of_lockstep {st : CompilerState} {hst₁ : st₁.Ready}
    {his : Compile.Emitted st st₁ 0 is} {hcode : code.Has offset is} {before : String}
    (h : (Passage.ofInput s.config hst₁ his hcode before).Lockstep ι m M) :
    Agrees { s with state := st₁, globals := m.globals, nextIdentity := m.nextIdentity } ι
      M.globals M.nextIdentity where
  ready := hst₁
  alike := h.shared.globals
  size_le := h.shared.globals_le
  pairing := h.shared.pairing
  fresh := h.shared.fresh

end

/-! ### Inputs that run to the end -/

/-- An input that has run to the end of its main code. -/
structure Played where
  source : String
  ast : Ast
  result : Value
  /-- The machine at the end. -/
  machine : Machine Console Value

/-- Inputs are given to a session one by one. Some are refused since they cannot be parsed or
compiled; all others run to the end of their main code, so that none returns from there. -/
inductive Plays : Session → List String → List Played → Session → Prop where
  | nil (s : Session) : Plays s [] [] s
  | refused {s s' : Session} {source : String} {sources : List String} {played : List Played}
      {d : Diagnostic} (fuel : Nat) :
      compileSourceFrom s.state s.file source = .error d →
      Plays (s.eval fuel source).2.2 sources played s' → Plays s (source :: sources) played s'
  | ran {s s' : Session} {source : String} {sources : List String} {played : List Played}
      {ast : Ast} {p : Program} {state : CompilerState} {v : Value} {m : Machine Console Value}
      {fuel : Nat} :
      parseSource s.file source = .ok ast → compileFrom s.state ast = .ok (p, state) →
      runProgram fuel s.config p s.globals s.nextIdentity = (.value v, m) → m.AtEnd →
      Plays (s.eval fuel source).2.2 sources played s' →
      Plays s (source :: sources) (⟨source, ast, v, m⟩ :: played) s'

theorem compileSourceFrom_of_parse {state state' : CompilerState} {file source : String} {ast : Ast}
    {p : Program} (hparse : parseSource file source = .ok ast)
    (hcompile : compileFrom state ast = .ok (p, state')) :
    compileSourceFrom state file source = .ok (p, state') := by
  rw [compileSourceFrom, hparse]
  show (compileFrom state ast).mapError _ = _
  rw [hcompile]
  rfl

theorem eval_refused {s : Session} {source : String} {d : Diagnostic} (fuel : Nat)
    (h : compileSourceFrom s.state s.file source = .error d) : (s.eval fuel source).2.2 = s := by
  rw [eval_session, h]

theorem eval_ran {s : Session} {source : String} {ast : Ast} {p : Program} {state : CompilerState}
    {v : Value} {m : Machine Console Value} {fuel : Nat}
    (hparse : parseSource s.file source = .ok ast)
    (hcompile : compileFrom s.state ast = .ok (p, state))
    (hrun : runProgram fuel s.config p s.globals s.nextIdentity = (.value v, m)) :
    (s.eval fuel source).2.2 =
      { s with state, globals := m.globals, nextIdentity := m.nextIdentity } := by
  rw [eval_session, compileSourceFrom_of_parse hparse hcompile]
  simp only [hrun]

/-- Inputs that are refused have no effect. -/
theorem Plays.skip_refused {s s' : Session} {sources : List String} {played : List Played}
    (h : Plays s sources played s') : Plays s (played.map Played.source) played s' := by
  induction h with
  | nil s => exact .nil s
  | refused fuel herror _ ih => rwa [eval_refused fuel herror] at ih
  | ran hparse hcompile hrun hend _ ih => exact .ran hparse hcompile hrun hend ih

theorem finish_native (m : Machine Console Value) :
    finish nativeHost m = (.value (m.lastPopped.getD .null), m) := by
  rw [finish]
  split
  · next v hv => rw [hv, Option.getD_some]
  · next hv =>
    have hgetD : m.lastPopped.getD .null = .null := by rw [hv, Option.getD_none]
    rw [hgetD]
    rfl

/-- The run of an input has come to the end of the main code. -/
theorem reaches_end {fuel : Nat} {config : MachineConfig} {p : Program} {globals : Globals Value}
    {identity : Nat} {v : Value} {m : Machine Console Value}
    (hrun : runProgram fuel config p globals identity = (.value v, m)) (hend : m.AtEnd) :
    Machine.Reaches nativeHost (start nativeHost config p globals {} identity) m ∧
      v = m.lastPopped.getD .null := by
  obtain ⟨m', hreaches, hturn⟩ := exists_halt hrun nofun
  obtain ⟨frame, hframes, -⟩ := hend
  obtain ⟨-, hfinish⟩ := atEnd_of_halt hturn (by rw [hframes]; simp)
  rw [finish_native] at hfinish
  cases hfinish
  exact ⟨hreaches, rfl⟩

/-! ### One program -/

theorem stmts_append (statements rest : List Stmt) (code : Fragment) :
    Compile.stmts (statements ++ rest) code =
      Compile.stmts statements code >>= Compile.stmts rest := by
  induction statements generalizing code with
  | nil => rw [List.nil_append, Compile.stmts, pure_bind]
  | cons s statements ih =>
    rw [List.cons_append, Compile.stmts, Compile.stmts, bind_assoc]
    exact bind_congr fun code => ih code

/-- The machine that runs all inputs as one program `p` waits for the code of the next one, which
comes after the fragment `code`. The last input discarded `last`. -/
structure Waits (s : Session) (config : MachineConfig) (p : Program) (identity : Nat)
    (ι : Nat → Nat → Prop) (code : Fragment) (last : Option Value) (M : Machine Console Value) :
    Prop where
  agrees : s.Agrees ι M.globals M.nextIdentity
  session_config : s.config = config
  machine_config : M.config = config
  reaches : Machine.Reaches nativeHost (start nativeHost config p #[] {} identity) M
  stack : M.stack = #[]
  frames : ∃ frame, M.frames = [frame] ∧ frame.code = p.code ∧ frame.ip = code.stop
  inside : code.stop ≤ p.code.bytes.size
  lastPopped : ∀ v, last = some v → ∃ w, M.lastPopped = some w ∧
    Alike (Numbered s.state.constants.toList s.state.scopes.current.definitions ι) v w

section

variable {s : Session} {p p₁ : Program} {ι : Nat → Nat → Prop} {code code₂ code₃ : Fragment}
  {last : Option Value} {M m : Machine Console Value} {st₁ st₃ : CompilerState} {ast : Ast}
  {rest : List Stmt} {fuel identity : Nat} {v : Value} {config : MachineConfig}

/-- The machine runs the code of an input as the session does. -/
theorem Waits.input (h : s.Waits config p identity ι code last M)
    (hcompile : compileFrom s.state ast = .ok (p₁, st₁))
    (hrun : runProgram fuel s.config p₁ s.globals s.nextIdentity = (.value v, m)) (hend : m.AtEnd)
    (hall : (Compile.stmts (ast.statements ++ rest) code).run s.state = .ok (code₃, st₃))
    (hholds : Fragment.Holds p.code.bytes code code₃) (hp : p.constants = st₃.constants) :
    ∃ code₂ ι' M', (Compile.stmts rest code₂).run st₁ = .ok (code₃, st₃) ∧
      Fragment.Holds p.code.bytes code₂ code₃ ∧
      M'.host.printed = M.host.printed ++ m.host.printed ∧
      Waits { s with state := st₁, globals := m.globals, nextIdentity := m.nextIdentity } config p
        identity ι' code₂ m.lastPopped M' := by
  obtain ⟨frame, hframes, hframe, hip⟩ := h.frames
  obtain ⟨hready₁, hconstants₁, -⟩ := h.agrees.ready.compile hcompile
  -- alone and as a part of the program, the input is compiled to the same instructions
  obtain ⟨is, his, hbytes, -, hplaced⟩ := h.agrees.ready.emitted hcompile
  rw [stmts_append] at hall
  obtain ⟨code₂, st₂, hpart, hrest⟩ := Compile.bind_ok.mp hall
  obtain ⟨rfl, hplaced₂⟩ := hplaced hpart
  -- the instructions stand in the program where the machine waits
  obtain ⟨js, hemitted, hplaced'⟩ := Compile.emits_stmts rest hrest his.valid
  obtain ⟨-, hplaced₃⟩ := hplaced' hrest
  obtain ⟨⟨is', hextends, hstands⟩, hholds₂⟩ :=
    hholds.split ⟨_, hplaced₂.extended⟩ ⟨_, hplaced₃.extended⟩
  have hinside₂ : code₂.stop ≤ p.code.bytes.size :=
    Fragment.Holds.stop_le ⟨is', hextends, hstands⟩ h.inside
  have hcode : p.code.Has code.stop is :=
    { stands := hextends.unique hplaced₂.extended ▸ hstands
      inside := by rwa [← hplaced₂.stop]
      targets := hplaced₂.targets }
  have hloads : Passage.Loads st₂.constants.toList M.constants := by
    intro n c hc
    have hc' : p.constants.toList[n]? = some c := hp ▸ hemitted.limits.getElem? hc
    exact ⟨identity + n, getElem?_constants_of_reaches h.reaches (by simpa using hc')⟩
  have hstart := h.agrees.lockstep hready₁ his hcode hconstants₁ hbytes
    (h.machine_config.trans h.session_config.symm) hloads h.stack hframes hframe hip
  obtain ⟨hreaches, -⟩ := reaches_end hrun hend
  obtain ⟨ι', M', hreaches', hstep⟩ := hstart.run hreaches
  obtain ⟨hsize, frame', hframes', hframe', hip'⟩ := hstep.at_end hend
  refine ⟨code₂, ι', M', hrest, hholds₂, hstep.shared.printed, ?_⟩
  have hempty : M'.stack.size = 0 := by
    rw [hstep.shared.size_eq]
    have hrise : rise is = 0 := his.rise
    have : (m.stack.size : Int) = rise is := hsize
    omega
  exact
    { agrees := agrees_of_lockstep hstep
      session_config := h.session_config
      machine_config := hstep.shared.config'.trans h.session_config
      reaches := h.reaches.trans hreaches'
      stack := Array.eq_empty_of_size_eq_zero hempty
      frames := ⟨frame', hframes', hframe', by rw [hip', hplaced₂.stop]; rfl⟩
      inside := hinside₂
      lastPopped := hstep.shared.lastPopped }

/-- The machine follows the session through all inputs. -/
theorem Plays.waits {s s' : Session} {sources : List String} {played : List Played}
    (h : Plays s sources played s') (hwaits : s.Waits config p identity ι code last M)
    (hall : (Compile.stmts (played.flatMap fun input : Played => input.ast.statements) code).run
      s.state = .ok (code₃, st₃))
    (hholds : Fragment.Holds p.code.bytes code code₃) (hp : p.constants = st₃.constants) :
    ∃ ι' M', s'.state = st₃ ∧
      M'.host.printed =
        M.host.printed ++ String.join (played.map fun input => input.machine.host.printed) ∧
      s'.Waits config p identity ι' code₃
        ((played.map fun input => input.machine.lastPopped).getLastD last) M' := by
  induction h generalizing ι code last M with
  | nil s =>
    obtain ⟨rfl, rfl⟩ := Compile.pure_ok.mp hall
    exact ⟨ι, M, rfl, String.append_empty.symm, hwaits⟩
  | refused fuel herror _ ih =>
    rw [eval_refused fuel herror] at ih
    exact ih hwaits hall hholds
  | @ran s s' source sources played ast p₁ state v m fuel hparse hcompile hrun hend _ ih =>
    rw [eval_ran hparse hcompile hrun] at ih
    obtain ⟨code₂, ι₁, M₁, hrest, hholds₂, hprinted, hwaits₁⟩ :=
      hwaits.input hcompile hrun hend hall hholds hp
    obtain ⟨ι₂, M₂, hstate, hprinted₂, hwaits₂⟩ := ih hwaits₁ hrest hholds₂
    refine ⟨ι₂, M₂, hstate, ?_, ?_⟩
    · rw [hprinted₂, hprinted, List.map_cons, String.join_cons, String.append_assoc]
    · rw [List.map_cons, List.getLastD_cons]
      exact hwaits₂

theorem waits_start (file : String) (config : MachineConfig) (p : Program) (identity : Nat) :
    Waits { file, config } config p identity (fun _ _ => False) {} none
      (start nativeHost config p #[] {} identity) := by
  have hstart := start_eq config p #[] identity
  exact
    { agrees := by
        rw [hstart]
        exact agrees_empty rfl rfl _
      session_config := rfl
      machine_config := by rw [hstart]
      reaches := .refl
      stack := by rw [hstart]
      frames := by
        rw [hstart]
        exact ⟨_, rfl, rfl, rfl⟩
      inside := Nat.zero_le _
      lastPopped := fun v hv => by cases hv }

/-- What an input evaluates to is what it discarded last. -/
theorem Plays.result_of_lastPopped {s s' : Session} {sources : List String} {played : List Played}
    (h : Plays s sources played s') {input : Played} (hinput : input ∈ played)
    (hv : input.machine.lastPopped = some v) : input.result = v := by
  induction h with
  | nil => simp at hinput
  | refused _ _ _ ih => exact ih hinput
  | ran _ _ hrun hend _ ih =>
    rcases List.mem_cons.mp hinput with rfl | hinput
    · obtain ⟨-, rfl⟩ := reaches_end hrun hend
      rw [hv, Option.getD_some]
    · exact ih hinput

end

/-- Inputs that are given to a session one by one, and run to the end of their main code, do what
one program does that consists of all their statements, if it can be compiled: it prints the same,
it leaves the same values in the same slots, up to the numbers of closures, and it has the same
result if the last input discarded a value. Inputs that cannot be parsed or compiled have no
effect. -/
theorem agrees_with_one_program (file : String) (config : MachineConfig) {sources : List String}
    {played : List Played} {s : Session} (h : Plays { file, config } sources played s) :
    Plays { file, config } (played.map Played.source) played s ∧
    ∀ p st identity, compileFrom {} ⟨played.flatMap (·.ast.statements)⟩ = .ok (p, st) →
      ∃ enough w M,
        (∀ fuel, enough ≤ fuel → runProgram fuel config p #[] identity = (.value w, M)) ∧
        st = s.state ∧
        M.host.printed = String.join (played.map fun input => input.machine.host.printed) ∧
        ∃ ι, IsPairing ι ∧
          List.Forall₂ (Option.Rel (Alike fun i j _ => ι i j)) s.globals.toList M.globals.toList ∧
          ∀ input, played.getLast? = some input → input.machine.lastPopped.isSome →
            Alike (fun i j _ => ι i j) input.result w := by
  refine ⟨h.skip_refused, fun p st identity hcompile => ?_⟩
  obtain ⟨code, hall, -, hbegins, -, hp⟩ := Compile.compileFrom_ok hcompile Scopes.sound_init rfl
  have hholds : Fragment.Holds p.code.bytes {} code := by
    rw [hp]
    exact Fragment.holds_assemble hbegins
  obtain ⟨ι, M, hstate, hprinted, hwaits⟩ :=
    h.waits (waits_start file config p identity) hall hholds (by rw [hp])
  obtain ⟨frame, hframes, hcode, hip⟩ := hwaits.frames
  have hend : M.AtEnd := by
    refine ⟨frame, hframes, decide_eq_true (Nat.le_of_eq ?_)⟩
    rw [hcode, hip, ← Fragment.size_assemble hbegins, hp]
  have hturn : turn nativeHost M = .halt (.value (M.lastPopped.getD .null), M) := by
    rw [hend.turn, finish_native]
  obtain ⟨enough, hrun⟩ := run_of_reaches hwaits.reaches hturn
  have hsame : ∀ i j f,
      Numbered s.state.constants.toList s.state.scopes.current.definitions ι i j f → ι i j :=
    fun _ _ _ hf => hf.1
  refine ⟨enough, M.lastPopped.getD .null, M, hrun, hstate.symm, ?_, ι, hwaits.agrees.pairing,
    Passage.alike_globals_mono hsame hwaits.agrees.alike, fun input hinput hsome => ?_⟩
  · rw [hprinted, start_eq]
    exact String.empty_append
  · obtain ⟨v, hv⟩ := Option.isSome_iff_exists.mp hsome
    have hlast : (played.map fun input => input.machine.lastPopped).getLastD none = some v := by
      rw [List.getLastD_eq_getLast?, List.getLast?_map, hinput, Option.map_some, Option.getD_some,
        hv]
    obtain ⟨w, hw, halike⟩ := hwaits.lastPopped v hlast
    rw [h.result_of_lastPopped (List.mem_of_getLast? hinput) hv, hw, Option.getD_some]
    exact halike.mono hsame

/-! ### A session that can be looked at -/

instance (m : Machine Console Value) : Decidable m.AtEnd :=
  decidable_of_iff (m.frames.length = 1 ∧ ∀ frame ∈ m.frames, frame.isFinished = true) <| by
    rw [AtEnd, List.length_eq_one_iff]
    constructor
    · rintro ⟨⟨frame, hframes⟩, hfinished⟩
      exact ⟨frame, hframes, hfinished frame (by simp [hframes])⟩
    · rintro ⟨frame, hframes, hfinished⟩
      exact ⟨⟨frame, hframes⟩, by simpa [hframes] using hfinished⟩

/-- Gives inputs to a session, as long as they are refused or run to the end of their main code. -/
def play (fuel : Nat) (s : Session) : List String → Option (List Played × Session)
  | [] => some ([], s)
  | source :: sources =>
    match parseSource s.file source with
    | .error _ => play fuel s sources
    | .ok ast =>
      match compileFrom s.state ast with
      | .error _ => play fuel s sources
      | .ok (p, _) =>
        match runProgram fuel s.config p s.globals s.nextIdentity with
        | (.value v, m) =>
          if m.AtEnd then
            (play fuel (s.eval fuel source).2.2 sources).map fun (played, s') =>
              (⟨source, ast, v, m⟩ :: played, s')
          else none
        | _ => none

theorem plays_of_play {fuel : Nat} {sources : List String} {s s' : Session} {played : List Played}
    (h : play fuel s sources = some (played, s')) : Plays s sources played s' := by
  induction sources generalizing s played with
  | nil =>
    obtain ⟨rfl, rfl⟩ : [] = played ∧ s = s' := by simpa [play] using h
    exact .nil s
  | cons source sources ih =>
    -- an input that does not compile leaves the session as it is
    have hrefused : ∀ d, compileSourceFrom s.state s.file source = .error d →
        play fuel s sources = some (played, s') → Plays s (source :: sources) played s' := by
      intro d herror hplay
      refine .refused fuel herror ?_
      rw [eval_refused fuel herror]
      exact ih hplay
    rw [play] at h
    split at h
    · next d hparse => exact hrefused d (by rw [compileSourceFrom, hparse]; rfl) h
    · next ast hparse =>
      split at h
      · next e hcompile =>
        refine hrefused (.ofCompileError s.file source e) ?_ h
        rw [compileSourceFrom, hparse]
        show (compileFrom s.state ast).mapError _ = _
        rw [hcompile]
        rfl
      · next p state hcompile =>
        split at h
        · next v m hrun =>
          split at h
          · next hend =>
            obtain ⟨⟨rest, last⟩, hrest, heq⟩ := Option.map_eq_some_iff.mp h
            cases heq
            exact .ran hparse hcompile hrun hend (ih hrest)
          · cases h
        · cases h

/-- Inputs of which the second one cannot be parsed and the fourth one cannot be compiled. -/
def doubling : List String :=
  ["let double = fn(n) { n * 2 };", "let 1 = 2;", "puts(double(4)); var total = double(5);",
    "missing + 1", "total + 1"]

theorem play_doubling : ((play 200 { file := "<test>" } doubling).map fun r =>
      ((compileFrom {} ⟨r.1.flatMap (·.ast.statements)⟩).toOption.isSome,
        String.join (r.1.map fun input => input.machine.host.printed),
        r.1.getLast?.map fun input => (input.machine.lastPopped.isSome, input.result.display))) =
    some (true, "8\n", some (true, "11")) := by
  decide +kernel

theorem doubling_agrees : ∃ played s p st, Plays { file := "<test>" } doubling played s ∧
    compileFrom {} ⟨played.flatMap (·.ast.statements)⟩ = .ok (p, st) ∧
    ∃ enough w M, w.display = "11" ∧ M.host.printed = "8\n" ∧
      ∀ fuel, enough ≤ fuel → runProgram fuel {} p #[] 0 = (.value w, M) := by
  obtain ⟨⟨played, s⟩, hplay, hfacts⟩ := Option.map_eq_some_iff.mp play_doubling
  simp only [Prod.mk.injEq, Option.map_eq_some_iff] at hfacts
  obtain ⟨hcompiles, hprinted, input, hinput, hsome, hdisplay⟩ := hfacts
  have hplays := plays_of_play hplay
  cases hcompile : compileFrom {} ⟨played.flatMap (·.ast.statements)⟩ with
  | error e =>
    rw [hcompile] at hcompiles
    cases hcompiles
  | ok r =>
    obtain ⟨-, hprogram⟩ := agrees_with_one_program "<test>" {} hplays
    obtain ⟨enough, w, M, hrun, -, hsame, ι, -, -, hresult⟩ := hprogram r.1 r.2 0 hcompile
    refine ⟨played, s, r.1, r.2, hplays, hcompile, enough, w, M, ?_, hsame.trans hprinted, hrun⟩
    rw [Value.display, (hresult input hinput hsome).renderWith false]
    exact hdisplay

end Session

end Bytescript

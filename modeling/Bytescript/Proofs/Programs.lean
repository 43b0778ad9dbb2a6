/-
Whole programs.

Main statement: `leads_program`. From its start on, the machine follows the evaluation of the
program that was compiled, to its end. `settingOf` and `mainRunning` hold what is fixed meanwhile.
-/
import Bytescript.Proofs.Calls
import Bytescript.Session

namespace Bytescript

/-! ### The setting of a program -/

/-- The room that suffices for each call of a program. -/
def Program.room (p : Program) : Nat :=
  p.constants.toList.foldr (fun
    | .function f, n => max f.room n
    | _, n => n) (FunctionCode.room { code := p.code })

theorem Program.room_main (p : Program) : FunctionCode.room { code := p.code } ≤ p.room := by
  rw [room]
  generalize FunctionCode.room { code := p.code } = n
  induction p.constants.toList with
  | nil => exact Nat.le_refl _
  | cons c rest ih =>
    cases c with
    | function f => exact Nat.le_trans ih (Nat.le_max_right _ _)
    | integer | float | string => exact ih

theorem Program.room_function {p : Program} {f : FunctionCode}
    (h : .function f ∈ p.constants.toList) : f.room ≤ p.room := by
  rw [room]
  generalize FunctionCode.room { code := p.code } = n
  generalize p.constants.toList = constants at h ⊢
  induction constants with
  | nil => simp at h
  | cons c rest ih =>
    rcases List.mem_cons.mp h with rfl | hrest
    · exact Nat.le_max_left _ _
    · cases c with
      | function g => exact Nat.le_trans (ih hrest) (Nat.le_max_right _ _)
      | integer | float | string => exact ih hrest

section

variable {ast : Ast} {p : Program} {st : CompilerState} (h : compileFrom {} ast = .ok (p, st))
  (config : MachineConfig) (identity : Nat) {depth : Nat}
  (hdepth : depth + 1 ≤ max 1 config.maxFrames)

/-- What is fixed while a compiled program runs. -/
def settingOf : Setting where
  config
  pool := p.constants
  first := identity
  root := st.scopes.current
  room := p.room
  depth
  sound := by
    obtain ⟨code, -, hadvances, -⟩ := Compile.compileFrom_ok h Scopes.sound_init rfl
    exact hadvances.sound.sound
  isRoot := by
    obtain ⟨code, -, hadvances, -, houter, -⟩ := Compile.compileFrom_ok h Scopes.sound_init rfl
    have hroot := hadvances.sound.isRoot
    rwa [houter] at hroot
  limit := by
    obtain ⟨code, -, hadvances, -⟩ := Compile.compileFrom_ok h Scopes.sound_init rfl
    exact hadvances.scopes.limit rfl (Nat.zero_le _)
  room_le := Program.room_function
  depth_le := hdepth

/-- The main code as a closure. -/
def Program.main (p : Program) (identity : Nat) : Closure Value :=
  ⟨identity + p.constants.size, { code := p.code }, []⟩

/-- The store before a program runs. -/
def Program.store (p : Program) (identity : Nat) : Store :=
  { nextIdentity := identity + p.constants.size + 1 }

/-- What is fixed while the main code runs. -/
def mainRunning : Running (settingOf h config identity hdepth) where
  closure := p.main identity
  activation := .main
  table := st.scopes.current
  callers := []
  below := []
  start := p.store identity
  entry := .main
  sound := (settingOf h config identity hdepth).sound
  room_le := p.room_main
  below_le := Nat.zero_le _
  depth_le := Nat.zero_le _

end

/-! ### The start of a program -/

theorem loadConstants_eq (constants : List Constant) (identity : Nat) (found : Array Value)
    (console : Console) :
    Machine.loadConstants nativeHost constants identity found console =
      (found ++ (constants.mapIdx fun i c => Value.ofConstant (identity + i) c).toArray,
        console) := by
  induction constants generalizing identity found with
  | nil => simp [Machine.loadConstants]
  | cons c rest ih =>
    show Machine.loadConstants nativeHost rest (identity + 1)
      (found.push (Value.ofConstant identity c)) console = _
    rw [ih, List.mapIdx_cons]
    simp [Nat.add_comm, Nat.add_left_comm]

theorem start_eq (config : MachineConfig) (p : Program) (globals : Globals Value)
    (identity : Nat) :
    Machine.start nativeHost config p globals {} identity =
      { config
        constants := (p.constants.toList.mapIdx fun i c =>
          Value.ofConstant (identity + i) c).toArray
        calls := { frames := [{ closure := p.main identity }] }
        globals
        host := {}
        nextIdentity := identity + p.constants.size + 1 } := by
  rw [Machine.start, loadConstants_eq]
  simp [Program.main]

section

variable {ast : Ast} {p : Program} {st : CompilerState} (h : compileFrom {} ast = .ok (p, st))
  (config : MachineConfig) (identity : Nat) {depth : Nat}
  (hdepth : depth + 1 ≤ max 1 config.maxFrames)

theorem world_start : World (settingOf h config identity hdepth) (p.store identity)
    (Machine.start nativeHost config p #[] {} identity) := by
  rw [start_eq]
  exact
    { config := rfl
      constants := fun i => by simp [settingOf]
      globals := fun _ _ => rfl
      known_globals := fun _ => trivial
      discarded := rfl
      known_discarded := fun _ hv => by cases hv
      console := rfl
      identity := rfl
      fresh := fun _ _ => rfl }

theorem at_start : At (mainRunning h config identity hdepth) (p.store identity) 0 []
    (Machine.start nativeHost config p #[] {} identity) where
  world := world_start h config identity hdepth
  frames := by
    rw [start_eq]
    rfl
  stack := by
    rw [start_eq]
    refine ⟨[], rfl, rfl, by simp, fun hs hlocal => ?_⟩
    -- the root has no locals
    rcases (settingOf h config identity hdepth).isRoot.storage hs with ⟨hs', -⟩ | ⟨hs', -⟩ <;>
      rw [hlocal] at hs' <;> cases hs'
  known := by simp
  within := fun _ _ hr => hr
  self := fun hcall => absurd rfl hcall
  offset := Nat.zero_le _
  height := Nat.le_refl _

theorem tracks_start : (mainRunning h config identity hdepth).Tracks [] {} where
  sound := Scopes.sound_init
  scope n := by
    refine ⟨fun hn => by simp at hn, ?_⟩
    rintro ⟨s, hs, hslot⟩
    -- at first only built-in functions have entries
    have hbuiltin : s.storage = .builtin := by
      have hs' : (ScopeTable.ofBuiltins Builtin.names).symbols[n]? = some s := hs
      rw [ScopeTable.symbols_ofBuiltins, Option.map_eq_some_iff] at hs'
      obtain ⟨b, -, rfl⟩ := hs'
      rfl
    exact absurd hslot (Symbol.not_isSlot (.inr (.inr hbuiltin)))
  main _ := rfl
  inner hcall := absurd rfl hcall
  self hcall := by cases hcall
  own hcall := by cases hcall
  captured hcall := by cases hcall

end

/-! ### The end of a program -/

/-- The machine ends as an evaluation does. -/
def Ends (S : Setting) : Meaning.Ending × Store →
    Machine.Outcome Value × Machine Console Value → Prop
  | (.value v, σ), (outcome, m) => World S σ m ∧ ∃ w : Value, outcome = .value w ∧ w.surface = v
  | (.fault fault, σ), (outcome, m) => World S σ m ∧ fault.IsMistake ∧ outcome = .fault fault
  | (.exhausted, σ), (outcome, m) =>
    World S σ m ∧ outcome = .fault (.frameOverflow S.config.maxFrames)

/-- At the end of the main code, the result is the value discarded last. -/
theorem ends_finish {S : Setting} {σ : Store} {m : Machine Console Value} (h : World S σ m) :
    Ends S (Meaning.ending (.ok (), σ)) (Machine.finish nativeHost m) := by
  have hdiscarded := h.discarded
  rw [Machine.finish]
  split
  · next v hpopped =>
    rw [hpopped] at hdiscarded
    exact ⟨h, v, rfl, by rw [← hdiscarded]; rfl⟩
  · next hpopped =>
    rw [hpopped] at hdiscarded
    exact ⟨h, .null, rfl, by rw [← hdiscarded]; rfl⟩

section

variable {ast : Ast} {p : Program} {st : CompilerState} (h : compileFrom {} ast = .ok (p, st))
  (config : MachineConfig) (identity : Nat) {depth : Nat}
  (hdepth : depth + 1 ≤ max 1 config.maxFrames)

/-- The statements of the program are followed to the end of the main code. -/
theorem sim_main :
    Sim (mainRunning h config identity hdepth)
      (fun _ σ m => At (mainRunning h config identity hdepth) σ p.code.bytes.size [] m)
      (Meaning.stmts .evaluation (Meaning.invoke .evaluation depth) .main [] ast.statements)
      (p.store identity) (Machine.start nativeHost config p #[] {} identity) := by
  obtain ⟨code, hrun, hadvances, hbegins, houter, hp⟩ :=
    Compile.compileFrom_ok h Scopes.sound_init rfl
  have hcalls := followsCalls depth (mainRunning h config identity hdepth) rfl
  have hwithin : st.Within (settingOf h config identity hdepth) st.scopes.current :=
    { table := ⟨[], .refl _ _⟩
      root := ⟨[], by
        rw [Scopes.root, houter]
        exact .refl _ _⟩
      constants := by
        show _ <+: p.constants.toList
        exact hp ▸ List.prefix_rfl }
  have hholds : Fragment.Holds p.code.bytes {} code := by
    rw [hp]
    exact Fragment.holds_assemble hbegins
  have hsize : p.code.bytes.size = code.stop := by
    rw [hp]
    exact Fragment.size_assemble hbegins
  have hat : At (mainRunning h config identity hdepth) (p.store identity) (Fragment.stop {})
      ([] ++ []) (Machine.start nativeHost config p #[] {} identity) :=
    at_start h config identity hdepth
  refine (realizes_stmts hcalls ast.statements hrun (tracks_start h config identity hdepth) hwithin
    hholds hat).mono ?_
  rintro _ σ m ⟨_, rfl, hat⟩
  rwa [hsize]

/-- At the end of the main code the machine halts. -/
theorem turn_end {σ : Store} {m : Machine Console Value}
    (hat : At (mainRunning h config identity hdepth) σ p.code.bytes.size [] m) :
    Machine.turn nativeHost m = .halt (Machine.finish nativeHost m) := by
  have hframes : m.frames = [⟨p.main identity, p.code.bytes.size, 0⟩] := hat.frames
  have hfinished : Frame.isFinished ⟨p.main identity, p.code.bytes.size, 0⟩ = true :=
    decide_eq_true (Nat.le_refl _)
  rw [Machine.turn, hframes]
  dsimp only
  rw [if_pos hfinished]
  rfl

theorem leads_program (hends : config.maxFrames ≤ depth + 1 ∨
      (Meaning.program .evaluation depth (identity + p.constants.size + 1) ast).1 ≠ .exhausted) :
    Machine.Leads nativeHost (fun _ => False)
      (fun r => Limit (settingOf h config identity hdepth) r.1 ∨
        Ends (settingOf h config identity hdepth)
          (Meaning.program .evaluation depth (identity + p.constants.size + 1) ast) r)
      (Machine.start nativeHost config p #[] {} identity) := by
  have hsim := sim_main h config identity hdepth
  have hprogram : Meaning.program .evaluation depth (identity + p.constants.size + 1) ast =
      Meaning.ending (Meaning.eval (Meaning.stmts .evaluation (Meaning.invoke .evaluation depth)
        .main [] ast.statements) (p.store identity)) := rfl
  rw [hprogram] at hends ⊢
  unfold Sim at hsim
  generalize Meaning.eval (Meaning.stmts .evaluation (Meaning.invoke .evaluation depth) .main []
    ast.statements) (p.store identity) = result at hsim hends ⊢
  rcases result with ⟨(v | fault | _) | _, σ⟩
  · -- a return from the main code
    refine (Machine.Leads.mono hsim (fun _ hm => hm) fun _ hr => .inl hr).bind ?_
    rintro m ⟨w, m₁, ip, ip', temps, rfl, -, -, hturn, hat⟩
    rw [Machine.leaving, hat.frames] at hturn
    exact .halts hturn (.inr ⟨hat.world.move _ _, w, rfl, rfl⟩)
  · refine Machine.Leads.mono hsim (fun _ hm => hm) ?_
    rintro ⟨outcome, m⟩ (hlimit | ⟨_, ⟨rfl, hmistake⟩, rfl, hworld⟩)
    · exact .inl hlimit
    · exact .inr ⟨hworld, hmistake, rfl⟩
  · -- the evaluation may only be exhausted if it has as many calls as the machine
    have hfull : config.maxFrames ≤ depth + 1 := hends.resolve_right fun hne => hne rfl
    refine Machine.Leads.mono (hsim hfull) (fun _ hm => hm) ?_
    rintro ⟨outcome, m⟩ (hlimit | ⟨_, rfl, rfl, hworld⟩)
    · exact .inl hlimit
    · exact .inr ⟨hworld, rfl⟩
  · refine (Machine.Leads.mono hsim (fun _ hm => hm) fun _ hr => .inl hr).bind fun m hat => ?_
    exact .halts (turn_end h config identity hdepth hat) (.inr (ends_finish hat.world))

end

end Bytescript

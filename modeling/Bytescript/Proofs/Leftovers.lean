/-
What a failed input leaves behind.

An input that fails while it runs declares no names. But what it has stored stays in the globals, in
slots that are then given to the names of later inputs. `Session.leftovers_unseen_until_read` says
when this is noticed: not before an input reads such a slot without having stored a value there, and
never if no input has failed. That it can be noticed is `Session.failed_input_is_observed`.

Design notes: a run is compared with the run from globals without the values that are left over. The
two machines differ in nothing but these values (`AgreeApart`) until one of the values is read. That
sessions without failed inputs have no such values is a fact about compiled code, so it comes from
the comparison of machines that run compiled code, here of a machine with itself.
-/
import Bytescript.Proofs.GlobalSlots
import Bytescript.Proofs.Incremental

namespace Bytescript

variable {S V α : Type}

namespace Machine

/-! ### Values that are left over -/

/-- A slot from `first` on has a value in `a` that was there in `old`, and none in `b`. -/
structure Leftover (first : Nat) (old a b : Globals V) (slot : Nat) : Prop where
  first_le : first ≤ slot
  value : ∃ v, old[slot]?.join = some v ∧ a[slot]?.join = some v
  unset : b[slot]?.join = none

/-- The same values are in all slots, except for what is left over from `old` in `a`. -/
def AgreeApart (first : Nat) (old a b : Globals V) : Prop :=
  ∀ slot : Nat, a[slot]?.join = b[slot]?.join ∨ Leftover first old a b slot

/-- The machine is about to read a slot with a value left over from `old`; with the other globals it
would read null. -/
def ReadsLeftover (first : Nat) (old : Globals V) (m : Machine S V) (globals : Globals V) : Prop :=
  ∃ n m₁, m.Fetches ⟨.getGlobal, [n]⟩ m₁ ∧ Leftover first old m.globals globals n

/-- The action does the same with the other globals, and afterwards the globals agree again. -/
def Unmoved (first : Nat) (old : Globals V) (x : MachineM S V α) (m : Machine S V)
    (globals : Globals V) : Prop :=
  ∃ globals', exec x { m with globals } =
      ((exec x m).1, { (exec x m).2 with globals := globals' }) ∧
    AgreeApart first old (exec x m).2.globals globals'

section

variable {first : Nat} {old : Globals V} {host : Host S V}

theorem AgreeApart.storeGlobal {a b : Globals V} (h : AgreeApart first old a b) (n : Nat) (v : V) :
    AgreeApart first old (storeGlobal a n v) (storeGlobal b n v) := by
  intro slot
  by_cases hslot : slot = n
  · left
    rw [join_storeGlobal, join_storeGlobal, if_pos hslot, if_pos hslot]
  · rcases h slot with hsame | hleft
    · left
      rwa [join_storeGlobal, join_storeGlobal, if_neg hslot, if_neg hslot]
    · right
      refine ⟨hleft.first_le, ?_, ?_⟩
      · rw [join_storeGlobal, if_neg hslot]
        exact hleft.value
      · rw [join_storeGlobal, if_neg hslot]
        exact hleft.unset

theorem AgreeApart.storeAll {a b : Globals V} (h : AgreeApart first old a b)
    (stores : List (Nat × V)) : AgreeApart first old (storeAll a stores) (storeAll b stores) := by
  induction stores generalizing a b with
  | nil => exact h
  | cons store stores ih => exact ih (h.storeGlobal store.1 store.2)

theorem Blind.unmoved {T : Nat → Prop} {x : MachineM S V α} (hx : Blind T x) {m : Machine S V}
    {globals : Globals V} (h : AgreeApart first old m.globals globals) :
    Unmoved first old x m globals := by
  obtain ⟨stores, -, hglobals, hexec⟩ := hx.exists_stores m
  refine ⟨Machine.storeAll globals stores, hexec globals, ?_⟩
  rw [hglobals]
  exact h.storeAll stores

/-- Executing an instruction after it was fetched. -/
theorem execute_leftover (host : Host S V) {m m₁ : Machine S V} {globals : Globals V}
    {i : Instruction} (hfetches : m.Fetches i m₁) (h : AgreeApart first old m₁.globals globals) :
    m.ReadsLeftover first old globals ∨ Unmoved first old (execute host i) m₁ globals := by
  obtain ⟨frame, callers, -, hdecode, hm₁⟩ := id hfetches
  by_cases hi : i.opcode = .getGlobal
  · obtain ⟨op, operands⟩ := i
    obtain rfl : op = .getGlobal := hi
    obtain ⟨n, rfl⟩ : ∃ n, operands = [n] :=
      List.length_eq_one_iff.mp (Instruction.length_operands_of_decodeAt hdecode)
    -- both machines find the same in the slot, or the first one finds what is left over
    rcases h n with hsame | hleft
    · right
      rw [Unmoved, exec_getGlobal, exec_getGlobal, List.getD_cons_zero, hsame]
      exact (Blind.pushFound (T := fun _ => False) _).unmoved h
    · left
      rw [hm₁] at hleft
      exact ⟨n, m₁, hfetches, hleft⟩
  · exact .inr ((Blind.execute hi).unmoved h)

theorem step_leftover (host : Host S V) {m : Machine S V} {globals : Globals V}
    (h : AgreeApart first old m.globals globals) :
    m.ReadsLeftover first old globals ∨ Unmoved first old (step host) m globals := by
  rcases hfetch : exec fetch m with ⟨fault | i, m₁⟩
  · obtain ⟨globals₁, hfetch', h₁⟩ := (Blind.fetch (T := fun _ => False)).unmoved h
    rw [Unmoved, step, exec_bind, exec_bind, hfetch', hfetch]
    rw [hfetch] at h₁
    exact .inr ⟨globals₁, rfl, h₁⟩
  · -- both machines are moved behind the same instruction
    have hfetches := fetches_of_fetch hfetch
    obtain ⟨frame, callers, hframes, hdecode, rfl⟩ := id hfetches
    have hfetches' : Fetches { m with globals } i
        ({ m with globals }.goTo (frame.ip + i.opcode.width)) :=
      ⟨frame, callers, hframes, hdecode, rfl⟩
    rw [Unmoved, step, exec_bind, exec_bind, exec_fetch hfetches', hfetch]
    exact execute_leftover host hfetches h

/-- What comes of a turn, with other globals. -/
def Turn.withGlobals (globals : Globals V) : Turn S V → Turn S V
  | .next m => .next { m with globals }
  | .halt (outcome, m) => .halt (outcome, { m with globals })

theorem Turn.ofStep_withGlobals (result : Except Fault (Option V) × Machine S V)
    (globals : Globals V) :
    Turn.ofStep (result.1, { result.2 with globals }) = (ofStep result).withGlobals globals := by
  rcases result with ⟨_ | _ | _, _⟩ <;> rfl

theorem Turn.machine_ofStep (result : Except Fault (Option V) × Machine S V) :
    (ofStep result).machine = result.2 := by
  rcases result with ⟨_ | _ | _, _⟩ <;> rfl

theorem turn_leftover (host : Host S V) {m : Machine S V} {globals : Globals V}
    (h : AgreeApart first old m.globals globals) : m.ReadsLeftover first old globals ∨
      ∃ globals', turn host { m with globals } = (turn host m).withGlobals globals' ∧
        AgreeApart first old (turn host m).machine.globals globals' := by
  have hframes : ({ m with globals } : Machine S V).frames = m.frames := rfl
  have hfinish : Turn.halt (finish host { m with globals }) =
        (Turn.halt (finish host m)).withGlobals globals ∧
      AgreeApart first old (finish host m).2.globals globals := by
    rcases m with ⟨_, _, _, _, _, _ | v, _, _⟩
    · exact ⟨rfl, h⟩
    · exact ⟨rfl, h⟩
  rw [turn, turn, hframes]
  cases m.frames with
  | nil => exact .inr ⟨globals, hfinish⟩
  | cons frame callers =>
    dsimp only
    split
    · split
      · exact .inr ⟨globals, hfinish⟩
      · exact .inr ⟨globals, rfl, h⟩
    · rcases step_leftover host h with hreads | ⟨globals', hstep, h'⟩
      · exact .inl hreads
      · right
        refine ⟨globals', ?_, ?_⟩
        · rw [hstep, Turn.ofStep_withGlobals]
        · rw [Turn.machine_ofStep]
          exact h'

/-- Two machines run alike until a value that is left over is read. -/
theorem run_leftover (host : Host S V) (fuel : Nat) {m : Machine S V} {globals : Globals V}
    (h : AgreeApart first old m.globals globals) :
    (∃ m' globals', Reaches host m m' ∧
        Reaches host { m with globals } { m' with globals := globals' } ∧
        m'.ReadsLeftover first old globals') ∨
      ∃ globals', run host fuel { m with globals } =
          ((run host fuel m).1, { (run host fuel m).2 with globals := globals' }) ∧
        AgreeApart first old (run host fuel m).2.globals globals' := by
  induction fuel generalizing m globals with
  | zero => exact .inr ⟨globals, rfl, h⟩
  | succ fuel ih =>
    rcases turn_leftover host h with hreads | ⟨globals₁, hturn, h₁⟩
    · exact .inl ⟨m, globals, .refl, .refl, hreads⟩
    · rw [run_succ, run_succ, hturn]
      cases hnext : turn host m with
      | halt result =>
        rw [hnext] at h₁
        exact .inr ⟨globals₁, rfl, h₁⟩
      | next m₁ =>
        rw [hnext] at h₁ hturn
        rcases ih h₁ with ⟨m', globals', hreaches, hreaches', hreads⟩ | hsame
        · exact .inl ⟨m', globals', .head hnext hreaches, .head hturn hreaches', hreads⟩
        · exact .inr hsame

end

end Machine

/-- A machine that is in step with itself stays so. -/
theorem Passage.Lockstep.run_self {S : Passage} {ι : Nat → Nat → Prop}
    {m m' : Machine Console Value} (h : S.Lockstep ι m m)
    (hreaches : Machine.Reaches nativeHost m m') :
    ∃ ι', S.Lockstep ι' m' m' := by
  induction hreaches with
  | refl => exact ⟨ι, h⟩
  | tail _ hturn ih =>
    obtain ⟨ι₁, h₁⟩ := ih
    obtain ⟨ι₂, M₂, hturn₂, h₂⟩ := h₁.step hturn
    rw [hturn] at hturn₂
    cases hturn₂
    exact ⟨ι₂, h₂⟩

namespace Session

open Machine

/-! ### Inputs -/

/-- The session without what is in slots that belong to none of its names. -/
def cleared (s : Session) : Session :=
  { s with globals := s.globals.shrink s.state.scopes.current.definitions }

/-- Evaluates inputs one by one; gives their outcomes and what they printed. -/
def evalAll (fuel : Nat) (s : Session) : List String → List (Evaluation Value × Console) × Session
  | [] => ([], s)
  | source :: sources =>
    let (evaluation, console, s) := s.eval fuel source
    let (rest, s) := evalAll fuel s sources
    ((evaluation, console) :: rest, s)

/-- Two sessions run an input alike until, in the first one, it reads a value that is left over from
`old`, where it reads null in the second one. -/
def Observes (first : Nat) (old : Globals Value) (s t : Session) (source : String) : Prop :=
  ∃ p m globals, s.Compiles source p ∧
    Machine.Reaches nativeHost (start nativeHost s.config p s.globals {} s.nextIdentity) m ∧
    Machine.Reaches nativeHost (start nativeHost t.config p t.globals {} t.nextIdentity)
      { m with globals } ∧
    m.ReadsLeftover first old globals

theorem getElem?_cleared (s : Session) (slot : Nat) : s.cleared.globals[slot]? =
    if slot < s.state.scopes.current.definitions then s.globals[slot]? else none := by
  rw [cleared, ← Array.getElem?_toList, Array.toList_shrink, List.getElem?_take,
    Array.getElem?_toList]

theorem agreeApart_cleared (s : Session) : AgreeApart s.state.scopes.current.definitions s.globals
    s.globals s.cleared.globals := by
  intro slot
  have hcleared := s.getElem?_cleared slot
  by_cases hslot : slot < s.state.scopes.current.definitions
  · rw [if_pos hslot] at hcleared
    exact .inl (by rw [hcleared])
  · rw [if_neg hslot] at hcleared
    have hunset : s.cleared.globals[slot]?.join = none := by rw [hcleared]; rfl
    cases hv : s.globals[slot]?.join with
    | none => exact .inl hunset.symm
    | some v => exact .inr ⟨Nat.not_lt.mp hslot, ⟨v, hv, hv⟩, hunset⟩

theorem ofOutcome_withGlobals (file source : String) (outcome : Outcome Value)
    (m : Machine Console Value) (globals : Globals Value) :
    Evaluation.ofOutcome file source (outcome, { m with globals }) =
      .ofOutcome file source (outcome, m) := by
  cases outcome <;> rfl

section

variable {first : Nat} {old : Globals Value}

/-- Two sessions evaluate an input alike unless it reads a value that is left over. -/
theorem eval_leftover (fuel : Nat) (source : String) {s : Session} {globals : Globals Value}
    (h : AgreeApart first old s.globals globals) :
    Observes first old s { s with globals } source ∨
      ∃ globals', eval fuel { s with globals } source =
          ((s.eval fuel source).1, (s.eval fuel source).2.1,
            { (s.eval fuel source).2.2 with globals := globals' }) ∧
        AgreeApart first old (s.eval fuel source).2.2.globals globals' := by
  rw [eval, eval]
  dsimp only
  cases hcompile : compileSourceFrom s.state s.file source with
  | error d => exact .inr ⟨globals, rfl, h⟩
  | ok r =>
    obtain ⟨p, state⟩ := r
    have hstart : AgreeApart first old
        (start nativeHost s.config p s.globals {} s.nextIdentity).globals globals := h
    rcases run_leftover nativeHost fuel hstart with
      ⟨m, globals', hreaches, hreaches', hreads⟩ | ⟨globals', hrun, h'⟩
    · exact .inl ⟨p, m, globals', ⟨state, hcompile⟩, hreaches, hreaches', hreads⟩
    · right
      refine ⟨globals', ?_, h'⟩
      dsimp only
      have hrun' : runProgram fuel s.config p globals s.nextIdentity = _ := hrun
      rw [hrun', ofOutcome_withGlobals]
      rfl

theorem evalAll_leftover (fuel : Nat) (sources : List String) {s : Session}
    {globals : Globals Value} (h : AgreeApart first old s.globals globals) :
    (evalAll fuel { s with globals } sources).1 = (evalAll fuel s sources).1 ∨
      ∃ before source after, sources = before ++ source :: after ∧
        (evalAll fuel { s with globals } before).1 = (evalAll fuel s before).1 ∧
        Observes first old (evalAll fuel s before).2 (evalAll fuel { s with globals } before).2
          source := by
  induction sources generalizing s globals with
  | nil => exact .inl rfl
  | cons source sources ih =>
    rcases eval_leftover fuel source h with hobserves | ⟨globals₁, heval, h₁⟩
    · exact .inr ⟨[], source, sources, rfl, rfl, hobserves⟩
    · rcases ih h₁ with hsame | ⟨before, source', after, hsources, hsame, hobserves⟩
      · left
        rw [evalAll, evalAll, heval]
        dsimp only
        rw [hsame]
      · right
        refine ⟨source :: before, source', after, by rw [hsources, List.cons_append], ?_, ?_⟩
        · rw [evalAll, evalAll, heval]
          dsimp only
          rw [hsame]
        · rw [evalAll, evalAll, heval]
          exact hobserves

end

/-! ### Inputs that do not fail -/

/-- Since the session began or was reset, every input that could be compiled has run to its end. -/
inductive Unfailing : Session → Prop where
  | fresh (file : String) (config : MachineConfig) : Unfailing { file, config }
  | reset (s : Session) : Unfailing s.reset
  | eval {s : Session} {fuel : Nat} {source : String} :
      Unfailing s → (∀ p, s.Compiles source p → s.Completes fuel source) →
      Unfailing (s.eval fuel source).2.2

theorem Agrees.input {s : Session} {ι : Nat → Nat → Prop} {ast : Ast} {p : Program}
    {st₁ : CompilerState} {fuel : Nat} {v : Value} {m : Machine Console Value}
    (h : s.Agrees ι s.globals s.nextIdentity) (hcompile : compileFrom s.state ast = .ok (p, st₁))
    (hrun : runProgram fuel s.config p s.globals s.nextIdentity = (.value v, m)) :
    ∃ ι', Agrees { s with state := st₁, globals := m.globals, nextIdentity := m.nextIdentity } ι'
      m.globals m.nextIdentity := by
  obtain ⟨hready₁, hconstants₁, -⟩ := h.ready.compile hcompile
  obtain ⟨is, his, hbytes, htargets, -⟩ := h.ready.emitted hcompile
  have hcode : p.code.Has 0 is := .of_bytes hbytes htargets
  have hstart := start_eq s.config p s.globals s.nextIdentity
  -- the machine of the input is compared with itself
  have hagrees : s.Agrees ι (start nativeHost s.config p s.globals {} s.nextIdentity).globals
      (start nativeHost s.config p s.globals {} s.nextIdentity).nextIdentity := by
    rw [hstart]
    exact { h with fresh := fun i j hij => by have := h.fresh hij; dsimp only; omega }
  have hloads : Passage.Loads st₁.constants.toList
      (start nativeHost s.config p s.globals {} s.nextIdentity).constants := by
    intro n c hc
    have hc' : p.constants[n]? = some c := by rwa [← Array.getElem?_toList, hconstants₁]
    exact ⟨s.nextIdentity + n, getElem?_constants_of_reaches .refl hc'⟩
  obtain ⟨frame, hframes, hframe, hip⟩ : ∃ frame,
      (start nativeHost s.config p s.globals {} s.nextIdentity).frames = [frame] ∧
        frame.code = p.code ∧ frame.ip = 0 := by
    rw [hstart]
    exact ⟨_, rfl, rfl, rfl⟩
  have hfirst := hagrees.lockstep hready₁ his hcode hconstants₁ hbytes (by rw [hstart]) hloads
    (by rw [hstart]) hframes hframe hip
  obtain ⟨m', hreaches, hturn⟩ := exists_halt hrun nofun
  obtain ⟨ι', hlast⟩ := hfirst.run_self hreaches
  obtain ⟨hglobals, hnext⟩ := kept_of_halt hturn
  rw [hglobals, hnext]
  exact ⟨ι', agrees_of_lockstep hlast⟩

theorem Completes.ran {s : Session} {fuel : Nat} {source : String} {p : Program}
    {state : CompilerState} (h : s.Completes fuel source)
    (hcompile : compileSourceFrom s.state s.file source = .ok (p, state)) :
    ∃ v m, runProgram fuel s.config p s.globals s.nextIdentity = (.value v, m) ∧
      (s.eval fuel source).2.2 =
        { s with state, globals := m.globals, nextIdentity := m.nextIdentity } := by
  obtain ⟨v, hv⟩ := h
  rw [eval, hcompile] at hv
  rw [eval_session, hcompile]
  dsimp only at hv ⊢
  generalize runProgram fuel s.config p s.globals s.nextIdentity = final at hv ⊢
  rcases final with ⟨w | fault | _, m⟩
  · exact ⟨w, m, rfl, rfl⟩
  · cases hv
  · cases hv

theorem Unfailing.agrees {s : Session} (h : s.Unfailing) :
    ∃ ι, s.Agrees ι s.globals s.nextIdentity := by
  induction h with
  | fresh | reset => exact ⟨_, agrees_empty rfl rfl _⟩
  | @eval s fuel source _ hcompletes ih =>
    obtain ⟨ι, ih⟩ := ih
    cases hcompile : compileSourceFrom s.state s.file source with
    | error d => exact ⟨ι, by rwa [eval_refused fuel hcompile]⟩
    | ok r =>
      obtain ⟨p, state⟩ := r
      obtain ⟨ast, -, hfrom⟩ := compileSourceFrom_ok hcompile
      obtain ⟨v, m, hrun, hsession⟩ := (hcompletes p ⟨state, hcompile⟩).ran hcompile
      rw [hsession]
      exact ih.input hfrom hrun

/-- Without a failed input there is nothing in slots that belong to no name. -/
theorem Unfailing.unset {s : Session} (h : s.Unfailing) {slot : Nat}
    (hslot : s.state.scopes.current.definitions ≤ slot) : s.globals[slot]? = none := by
  obtain ⟨ι, hagrees⟩ := h.agrees
  exact Array.getElem?_eq_none (Nat.le_trans hagrees.size_le hslot)

/-- Inputs have the same outcomes and print the same as if all slots that belong to no name were
unset, until one of them reads a value that is left there from before. In the run of an input a slot
keeps what is in it until the input stores a value there. If no input has failed while it ran, since
the session began or was reset, all slots that belong to no name are unset. -/
theorem leftovers_unseen_until_read (s : Session) :
    (∀ fuel sources, (s.cleared.evalAll fuel sources).1 = (s.evalAll fuel sources).1 ∨
      ∃ before source after, sources = before ++ source :: after ∧
        (s.cleared.evalAll fuel before).1 = (s.evalAll fuel before).1 ∧
        Observes s.state.scopes.current.definitions s.globals (s.evalAll fuel before).2
          (s.cleared.evalAll fuel before).2 source) ∧
    (∀ p slot m, ReachesUnstored nativeHost slot
        (start nativeHost s.config p s.globals {} s.nextIdentity) m →
      m.globals[slot]?.join = s.globals[slot]?.join) ∧
    (s.Unfailing → ∀ slot, s.state.scopes.current.definitions ≤ slot →
      s.globals[slot]? = none) := by
  refine ⟨fun fuel sources => ?_, fun p slot m hreaches => ?_, fun h slot hslot => h.unset hslot⟩
  · exact evalAll_leftover fuel sources s.agreeApart_cleared
  · rw [join_globals_of_reaches hreaches]
    rfl

/-- The session after an input that failed. -/
def failed : Session :=
  (eval 100 { file := "<test>" } "let x = 1; 1 / 0").2.2

theorem completes_after_reset : failed.reset.Completes 100 "let a = 1; a" := by
  have hdeclared :
      (failed.reset.eval 100 "let a = 1; a").2.2.state.scopes.current.definitions = 1 := by
    decide +kernel
  rcases failed.reset.state_eval 100 "let a = 1; a" with ⟨_, _, -, hcompletes, -⟩ | ⟨-, hstate⟩
  · exact hcompletes
  · rw [hstate] at hdeclared
    cases hdeclared

/-- After a reset nothing is left of the input that failed. -/
theorem nothing_left_after_reset :
    let s := (failed.reset.eval 100 "let a = 1; a").2.2
    s.Unfailing ∧ s.state.scopes.current.definitions = 1 ∧
      ∀ slot, 1 ≤ slot → s.globals[slot]? = none := by
  intro s
  have hunfailing : s.Unfailing := .eval (.reset failed) fun _ _ => completes_after_reset
  have hdefinitions : s.state.scopes.current.definitions = 1 := by decide +kernel
  obtain ⟨-, -, hunset⟩ := leftovers_unseen_until_read s
  exact ⟨hunfailing, hdefinitions, hdefinitions ▸ hunset hunfailing⟩

/-- What a failed input has stored is read by a later one under another name. -/
theorem failed_input_is_observed :
    (eval 100 { file := "<test>" } "let x = 1; 1 / 0").1 matches .error _ ∧
      (failed.eval 100 "let y = y; y").1 matches .value (.integer 1) ∧
      (failed.cleared.eval 100 "let y = y; y").1 matches .value .null := by
  decide +kernel

end Session

end Bytescript

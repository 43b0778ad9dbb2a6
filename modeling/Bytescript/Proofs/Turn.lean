/-
Runs of the machine, turn by turn.

A turn is what `Machine.run` does between two of its recursive calls: the machine goes on, or it
halts. `Leads` says that a machine, turn by turn, comes to a state with some property, or halts
with some result; facts about single instructions are put together with `Leads.bind`.

* `Leads.run` — a machine that leads to a halt halts, whatever fuel it is given beyond some
  amount;
* `Leads.of_reaches` — since turns are determined, what a machine leads to is also what every
  machine reached from it leads to;
* `Leads.move` — every turn on the way changes the active calls as `Move` says: it goes
  forward in the running code, enters a call, or leaves one;
* `atEnd_of_halt` — a run with a value that keeps its frame has come to the end of the main code,
  since returning from there leaves no frame.
-/
import Mathlib.Logic.Relation
import Bytescript.Machine.Basic

namespace Bytescript

namespace Machine

variable {S V α β : Type}

/-! ### Actions -/

/-- The result of an action and the machine it leaves. -/
def exec (action : MachineM S V α) (m : Machine S V) : Except Fault α × Machine S V :=
  action.run.run m

theorem exec_bind (x : MachineM S V α) (f : α → MachineM S V β) (m : Machine S V) :
    exec (x >>= f) m = match exec x m with
      | (.ok a, m) => exec (f a) m
      | (.error fault, m) => (.error fault, m) := by
  rw [exec, ExceptT.run_bind, StateT.run_bind, exec]
  rcases x.run.run m with ⟨_ | _, _⟩ <;> rfl

theorem exec_map (f : α → β) (x : MachineM S V α) (m : Machine S V) :
    exec (f <$> x) m = match exec x m with
      | (.ok a, m) => (.ok (f a), m)
      | (.error fault, m) => (.error fault, m) := by
  rw [← bind_pure_comp, exec_bind]
  rfl

theorem exec_pure (a : α) (m : Machine S V) : exec (pure a) m = (.ok a, m) := rfl

theorem exec_get (m : Machine S V) : exec get m = (.ok m, m) := rfl

theorem exec_modify (f : Machine S V → Machine S V) (m : Machine S V) :
    exec (modify f) m = (.ok ⟨⟩, f m) := rfl

theorem exec_ask (question : StateM S α) (m : Machine S V) :
    exec (ask question) m =
      (.ok (question.run m.host).1, { m with host := (question.run m.host).2 }) := rfl

theorem exec_tryAsk (question : ExceptT Fault (StateM S) α) (m : Machine S V) :
    exec (tryAsk question) m =
      ((question.run.run m.host).1, { m with host := (question.run.run m.host).2 }) := by
  simp only [tryAsk, exec_bind, exec_ask]
  rcases question.run.run m.host with ⟨_ | _, _⟩ <;> rfl

theorem exec_push (v : V) (m : Machine S V) : exec (push v) m =
    if m.stack.size < m.config.stackSize then (.ok (), { m with stack := m.stack.push v })
    else (.error .stackOverflow, m) := by
  simp only [push, exec_bind, exec_get]
  split <;> rfl

theorem exec_pop {m : Machine S V} (stack : List V) {v : V}
    (h : m.stack = (stack ++ [v]).toArray) :
    exec pop m = (.ok v, { m with stack := stack.toArray }) := by
  simp [pop, exec_bind, exec_map, exec_get, exec_modify, h]

theorem exec_take {m : Machine S V} (stack : List V) {values : List V}
    (h : m.stack = (stack ++ values).toArray) :
    exec (take values.length) m = (.ok values, { m with stack := stack.toArray }) := by
  simp [take, exec_bind, exec_map, exec_get, exec_modify, h]

theorem exec_currentFrame {m : Machine S V} {frame : Frame V} {callers : List (Frame V)}
    (h : m.frames = frame :: callers) : exec currentFrame m = (.ok frame, m) := by
  simp [currentFrame, exec_bind, exec_get, exec_pure, h]

theorem exec_currentFrame_none {m : Machine S V} (h : m.frames = []) :
    exec currentFrame m = (.error .noInstruction, m) := by
  rw [currentFrame, exec_bind, exec_get]
  dsimp only
  rw [h]
  rfl

/-- The machine with its running frame at an offset. -/
def goTo (m : Machine S V) (ip : Nat) : Machine S V :=
  { m with calls := m.calls.setPointer ip }

@[simp]
theorem frames_goTo (m : Machine S V) (ip : Nat) :
    (m.goTo ip).frames = m.frames.modifyHead ({ · with ip }) :=
  CallStack.frames_setPointer _ _

/-- A store changes one slot; slots that are added hold nothing. -/
theorem join_storeGlobal (globals : Globals V) (i j : Nat) (v : V) :
    (storeGlobal globals i v)[j]?.join = if j = i then some v else globals[j]?.join := by
  rw [storeGlobal]
  split
  · next hlt =>
    rw [Array.getElem?_setIfInBounds]
    by_cases hj : j = i
    · simp [hj, hlt]
    · simp [hj, Ne.symm hj]
  · next hge =>
    have hsize : (globals ++ Array.replicate (i - globals.size) none).size = i := by
      simp
      omega
    rw [Array.getElem?_push, hsize]
    by_cases hj : j = i
    · simp [hj]
    · -- slots between the old end and the new one hold nothing
      rw [if_neg hj, if_neg hj, Array.getElem?_append]
      split
      · rfl
      · next hout =>
        rw [Array.getElem?_replicate, Array.getElem?_eq_none (Nat.not_lt.mp hout)]
        split <;> rfl

/-! ### Turns -/

/-- What comes of a turn. -/
inductive Turn (S V : Type) where
  | next (m : Machine S V)
  | halt (result : Outcome V × Machine S V)

/-- The machine after a turn. -/
def Turn.machine : Turn S V → Machine S V
  | .next m => m
  | .halt result => result.2

/-- What comes of executing an instruction. -/
def Turn.ofStep : Except Fault (Option V) × Machine S V → Turn S V
  | (.ok none, m) => .next m
  | (.ok (some v), m) => .halt (.value v, m)
  | (.error fault, m) => .halt (.fault fault, m)

/-- One turn of a run. -/
def turn (host : Host S V) (m : Machine S V) : Turn S V :=
  match m.frames with
  | [] => .halt (finish host m)
  | frame :: callers =>
    if frame.isFinished then
      if callers.isEmpty then .halt (finish host m) else .halt (.fault .missingReturn, m)
    else .ofStep (exec (step host) m)

theorem run_succ (host : Host S V) (fuel : Nat) (m : Machine S V) :
    run host (fuel + 1) m = match turn host m with
      | .next m => run host fuel m
      | .halt result => result := by
  rw [run, turn]
  cases m.frames with
  | nil => rfl
  | cons frame callers =>
    dsimp only
    split
    · split <;> rfl
    · rw [exec]
      rcases (step host).run.run m with ⟨_ | _ | _, _⟩ <;> rfl

/-- The next instruction of a machine is `i`, and `m₁` is the machine moved behind it. -/
def Fetches (m : Machine S V) (i : Instruction) (m₁ : Machine S V) : Prop :=
  ∃ frame callers, m.frames = frame :: callers ∧
    Instruction.decodeAt frame.code.bytes frame.ip = some (.ok i) ∧
    m₁ = m.goTo (frame.ip + i.opcode.width)

theorem exec_fetch {m m₁ : Machine S V} {i : Instruction} (h : m.Fetches i m₁) :
    exec fetch m = (.ok i, m₁) := by
  obtain ⟨frame, callers, hframes, hdecode, rfl⟩ := h
  simp only [fetch, exec_bind, exec_currentFrame hframes, hdecode]
  rfl

theorem turn_of_fetches {host : Host S V} {m m₁ : Machine S V} {i : Instruction}
    (h : m.Fetches i m₁) : turn host m = .ofStep (exec (execute host i) m₁) := by
  have hfetch := exec_fetch h
  obtain ⟨frame, callers, hframes, hdecode, rfl⟩ := h
  -- a byte was read at the offset, so the code goes on there
  have hunfinished : frame.isFinished = false := by
    rw [Instruction.decodeAt, Option.map_eq_some_iff] at hdecode
    obtain ⟨byte, hbyte, -⟩ := hdecode
    have := (Array.getElem?_eq_some_iff.mp hbyte).1
    simp [Frame.isFinished, this]
  rw [turn, hframes]
  simp only [hunfinished, Bool.false_eq_true, if_false]
  rw [step, exec_bind, hfetch]

theorem fetches_of_fetch {m m₁ : Machine S V} {i : Instruction}
    (h : exec fetch m = (.ok i, m₁)) : m.Fetches i m₁ := by
  cases hframes : m.frames with
  | nil =>
    rw [fetch, exec_bind, exec_currentFrame_none hframes] at h
    cases h
  | cons frame callers =>
    rw [fetch, exec_bind, exec_currentFrame hframes] at h
    dsimp only at h
    split at h
    · next i' hdecode =>
      cases h
      exact ⟨frame, callers, hframes, hdecode, rfl⟩
    · cases h
    · cases h
    · cases h

/-! ### Ways through a run -/

/-- How the active calls may change in a turn that starts in `frame`, called by `callers`. -/
inductive Move (frame : Frame V) (callers : List (Frame V)) : List (Frame V) → Prop where
  /-- The running code goes on further down. -/
  | within (ip : Nat) : frame.ip < ip → Move frame callers ({ frame with ip } :: callers)
  /-- A call begins; the caller will go on further down. -/
  | enter (ip : Nat) (callee : Frame V) : frame.ip < ip → callee.ip = 0 →
      Move frame callers (callee :: { frame with ip } :: callers)
  /-- The call ends. -/
  | leave : callers ≠ [] → Move frame callers callers

/-- Turn by turn the machine comes to a state in `Q`, or it halts with a result in `H`. -/
inductive Leads (host : Host S V) (Q : Machine S V → Prop)
    (H : Outcome V × Machine S V → Prop) : Machine S V → Prop where
  | here {m : Machine S V} : Q m → Leads host Q H m
  | halts {m : Machine S V} {result : Outcome V × Machine S V} :
      turn host m = .halt result → H result → Leads host Q H m
  | turns {m m' : Machine S V} {frame : Frame V} {callers : List (Frame V)} :
      turn host m = .next m' → m.frames = frame :: callers → Move frame callers m'.frames →
      Leads host Q H m' → Leads host Q H m

/-- A machine reaches those that turns lead to. -/
abbrev Reaches (host : Host S V) : Machine S V → Machine S V → Prop :=
  Relation.ReflTransGen fun m m' => turn host m = .next m'

namespace Leads

variable {host : Host S V} {Q Q' : Machine S V → Prop} {H H' : Outcome V × Machine S V → Prop}
  {m m' : Machine S V}

theorem bind (h : Leads host Q H m) (next : ∀ m, Q m → Leads host Q' H m) :
    Leads host Q' H m := by
  induction h with
  | here hQ => exact next _ hQ
  | halts hturn hH => exact .halts hturn hH
  | turns hturn hframes hmove _ ih => exact .turns hturn hframes hmove ih

theorem mono (h : Leads host Q H m) (hQ : ∀ m, Q m → Q' m) (hH : ∀ r, H r → H' r) :
    Leads host Q' H' m := by
  induction h with
  | here hm => exact .here (hQ _ hm)
  | halts hturn hr => exact .halts hturn (hH _ hr)
  | turns hturn hframes hmove _ ih => exact .turns hturn hframes hmove ih

/-- A machine that leads to a halt halts, with any fuel beyond some amount. -/
theorem run (h : Leads host (fun _ => False) H m) :
    ∃ enough result, H result ∧ ∀ fuel, enough ≤ fuel → Machine.run host fuel m = result := by
  induction h with
  | here hm => exact hm.elim
  | @halts m result hturn hH =>
    refine ⟨1, result, hH, fun fuel hfuel => ?_⟩
    obtain ⟨fuel, rfl⟩ : ∃ n, fuel = n + 1 := ⟨fuel - 1, by omega⟩
    rw [run_succ, hturn]
  | @turns m m' frame callers hturn hframes hmove _ ih =>
    -- every turn takes one more unit of fuel
    obtain ⟨enough, result, hH, hrun⟩ := ih
    refine ⟨enough + 1, result, hH, fun fuel hfuel => ?_⟩
    obtain ⟨fuel, rfl⟩ : ∃ n, fuel = n + 1 := ⟨fuel - 1, by omega⟩
    rw [run_succ, hturn]
    exact hrun fuel (by omega)

/-- A run that is finished has ended as the machine leads to. -/
theorem of_run (h : Leads host (fun _ => False) H m) {fuel : Nat}
    (hfinished : (Machine.run host fuel m).1 ≠ .outOfFuel) : H (Machine.run host fuel m) := by
  induction h generalizing fuel with
  | here hm => exact hm.elim
  | halts hturn hH =>
    cases fuel with
    | zero => exact absurd rfl hfinished
    | succ fuel => rwa [run_succ, hturn]
  | turns hturn _ _ _ ih =>
    cases fuel with
    | zero => exact absurd rfl hfinished
    | succ fuel =>
      rw [run_succ, hturn] at hfinished ⊢
      exact ih hfinished

/-- What a machine leads to is what the machines it reaches lead to. -/
theorem of_reaches (h : Leads host (fun _ => False) H m) (hreach : Reaches host m m') :
    Leads host (fun _ => False) H m' := by
  induction hreach with
  | refl => exact h
  | tail _ hturn ih =>
    cases ih with
    | here hm => exact hm.elim
    | halts hhalt hH =>
      rw [hhalt] at hturn
      cases hturn
    | turns hnext hframes hmove hleads =>
      rw [hnext] at hturn
      cases hturn
      exact hleads

/-- A halt on the way is one that the machine leads to. -/
theorem halt (h : Leads host (fun _ => False) H m) {result : Outcome V × Machine S V}
    (hturn : turn host m = .halt result) : H result := by
  cases h with
  | here hm => exact hm.elim
  | halts hhalt hH =>
    rw [hhalt] at hturn
    cases hturn
    exact hH
  | turns hnext hframes hmove hleads =>
    rw [hnext] at hturn
    cases hturn

/-- Every turn on the way is a move. -/
theorem move (h : Leads host (fun _ => False) H m) (hturn : turn host m = .next m') :
    ∃ frame callers, m.frames = frame :: callers ∧ Move frame callers m'.frames := by
  cases h with
  | here hm => exact hm.elim
  | halts hhalt hH =>
    rw [hhalt] at hturn
    cases hturn
  | turns hnext hframes hmove hleads =>
    rw [hnext] at hturn
    cases hturn
    exact ⟨_, _, hframes, hmove⟩

end Leads

/-! ### How runs end -/

section

variable {host : Host S V} {m m' : Machine S V} {result : Outcome V × Machine S V}

/-- A machine that reaches a halt halts, with any fuel beyond some amount. -/
theorem run_of_reaches (h : Reaches host m m') (hturn : turn host m' = .halt result) :
    ∃ enough, ∀ fuel, enough ≤ fuel → run host fuel m = result := by
  induction h using Relation.ReflTransGen.head_induction_on with
  | refl =>
    refine ⟨1, fun fuel hfuel => ?_⟩
    obtain ⟨fuel, rfl⟩ : ∃ n, fuel = n + 1 := ⟨fuel - 1, by omega⟩
    rw [run_succ, hturn]
  | head hnext _ ih =>
    obtain ⟨enough, hrun⟩ := ih
    refine ⟨enough + 1, fun fuel hfuel => ?_⟩
    obtain ⟨fuel, rfl⟩ : ∃ n, fuel = n + 1 := ⟨fuel - 1, by omega⟩
    rw [run_succ, hnext]
    exact hrun fuel (by omega)

/-- A run that is finished has reached its halt. -/
theorem exists_halt {fuel : Nat} {result : Outcome V × Machine S V}
    (hrun : run host fuel m = result) (h : result.1 ≠ .outOfFuel) :
    ∃ m', Reaches host m m' ∧ turn host m' = .halt result := by
  induction fuel generalizing m with
  | zero =>
    rw [← hrun] at h
    exact absurd rfl h
  | succ fuel ih =>
    rw [run_succ] at hrun
    cases hturn : turn host m with
    | next m₁ =>
      rw [hturn] at hrun
      obtain ⟨m', hreaches, hhalt⟩ := ih hrun
      exact ⟨m', .head hturn hreaches, hhalt⟩
    | halt result' =>
      rw [hturn] at hrun
      exact ⟨m, .refl, hturn.trans (congrArg Turn.halt hrun)⟩

/-- The machine stands at the end of the main code. -/
def AtEnd (m : Machine S V) : Prop :=
  ∃ frame, m.frames = [frame] ∧ frame.isFinished = true

theorem AtEnd.turn (h : m.AtEnd) : turn host m = .halt (finish host m) := by
  obtain ⟨frame, hframes, hfinished⟩ := h
  rw [Machine.turn, hframes]
  simp [hfinished]

/-- The action gives no value of the main code. -/
def Silent (action : MachineM S V (Option V)) : Prop :=
  ∀ ⦃m v m'⦄, exec action m ≠ (.ok (some v), m')

theorem Silent.bind {x : MachineM S V α} {f : α → MachineM S V (Option V)}
    (h : ∀ a, Silent (f a)) : Silent (x >>= f) := by
  intro m v m' hexec
  rw [exec_bind] at hexec
  split at hexec
  · exact h _ hexec
  · cases hexec

theorem silent_none : Silent (pure none : MachineM S V (Option V)) := by
  intro m v m' hexec
  cases hexec

theorem silent_execute {i : Instruction} (hvalue : i.opcode ≠ .returnValue)
    (hret : i.opcode ≠ .ret) : Silent (execute host i) := by
  obtain ⟨op, operands⟩ := i
  cases op with
  | returnValue => exact absurd rfl hvalue
  | ret => exact absurd rfl hret
  | jump | getGlobal | setGlobal | assignGlobal | getLocal | setLocal | assignLocal | call
  | closure => exact .bind fun _ => silent_none
  | pop | true | false | null | getBuiltin => exact .bind fun _ => .bind fun _ => silent_none
  | minus | bang | array => exact .bind fun _ => .bind fun _ => .bind fun _ => silent_none
  | add | sub | mul | div | mod | equal | notEqual | greaterThan | greaterEqual | index =>
    exact .bind fun _ => .bind fun _ => .bind fun _ => .bind fun _ => silent_none
  | constant | getFree =>
    refine .bind fun _ => ?_
    split <;> exact .bind fun _ => silent_none
  | jumpNotTruthy =>
    refine .bind fun _ => .bind fun _ => ?_
    split
    · exact silent_none
    · exact .bind fun _ => silent_none
  | hash =>
    dsimp only [execute]
    split
    · exact .bind fun _ => .bind fun _ => .bind fun _ => .bind fun _ => silent_none
    · exact .bind fun _ => .bind fun _ => .bind fun _ => silent_none
  | currentClosure => exact .bind fun _ => .bind fun _ => .bind fun _ => silent_none

/-- The main code was left: there is no frame any more, and globals and numbers are as they were. -/
structure Left (m m' : Machine S V) : Prop where
  main : m.frames.length = 1
  frames : m'.frames = []
  globals : m'.globals = m.globals
  nextIdentity : m'.nextIdentity = m.nextIdentity

theorem left_of_leave {v w : V} (h : exec (leave w) m = (.ok (some v), m')) : Left m m' := by
  rw [leave, exec_bind, exec_get] at h
  dsimp only at h
  split at h
  · cases h
  · next frame hframes =>
    cases h
    exact ⟨congrArg List.length hframes, congrArg List.tail hframes, rfl, rfl⟩
  · rw [exec_bind, exec_modify] at h
    have hsilent : Silent (do push (S := S) w; pure none) := .bind fun _ => silent_none
    exact (hsilent h).elim

/-- A value of the main code comes only from leaving it. -/
theorem left_of_execute {i : Instruction} {v : V}
    (h : exec (execute host i) m = (.ok (some v), m')) : Left m m' := by
  obtain ⟨op, operands⟩ := i
  by_cases hvalue : op = .returnValue
  · subst hvalue
    simp only [execute, pop] at h
    rw [exec_bind, exec_bind, exec_get] at h
    dsimp only at h
    cases hback : m.stack.back? with
    | none =>
      rw [hback] at h
      cases h
    | some w =>
      rw [hback] at h
      exact { left_of_leave (m := { m with stack := m.stack.pop }) h with }
  · by_cases hret : op = .ret
    · subst hret
      simp only [execute] at h
      rw [exec_bind, exec_ask] at h
      exact { left_of_leave (m := { m with host := (host.null.run m.host).2 }) h with }
    · have hsilent : Silent (execute host ⟨op, operands⟩) := silent_execute hvalue hret
      exact (hsilent h).elim

/-- A run ends with a value at the end of the main code, or where that returns. -/
theorem finish_or_left {v : V} (h : turn host m = .halt (.value v, m')) :
    ((m.AtEnd ∨ m.frames = []) ∧ finish host m = (.value v, m')) ∨
      Left m m' ∧ ∃ i m₁, m.Fetches i m₁ ∧ (i.opcode = .returnValue ∨ i.opcode = .ret) := by
  rw [turn] at h
  split at h
  · next hnone =>
    injection h with hresult
    exact .inl ⟨.inr hnone, hresult⟩
  · next frame callers hcons =>
    split at h
    · next hfinished =>
      split at h
      · next hempty =>
        obtain rfl : callers = [] := List.isEmpty_iff.mp hempty
        injection h with hresult
        exact .inl ⟨.inl ⟨frame, hcons, hfinished⟩, hresult⟩
      · cases h
    · right
      rw [step, exec_bind] at h
      split at h
      · next i m₁ hfetch =>
        have hfetches := fetches_of_fetch hfetch
        obtain ⟨_, _, _, _, rfl⟩ := fetches_of_fetch hfetch
        rcases hexec : exec (execute host i) (m.goTo _) with ⟨fault | _ | w, m₂⟩
        · rw [hexec] at h
          cases h
        · rw [hexec] at h
          cases h
        · rw [hexec] at h
          cases h
          have hleft := left_of_execute hexec
          have hmain : m.frames.length = 1 := by
            rw [← hleft.main, frames_goTo, List.length_modifyHead]
          refine ⟨{ hleft with main := hmain }, i, _, hfetches, ?_⟩
          by_cases hvalue : i.opcode = .returnValue
          · exact .inl hvalue
          by_cases hret : i.opcode = .ret
          · exact .inr hret
          -- all other instructions never end a run
          exact (silent_execute hvalue hret hexec).elim
      · cases h

/-- A run that ends with a value and keeps its frame has come to the end of the main code. -/
theorem atEnd_of_halt {v : V} (h : turn host m = .halt (.value v, m')) (hframes : m'.frames ≠ []) :
    m.AtEnd ∧ finish host m = (.value v, m') := by
  rcases finish_or_left h with ⟨hend | hnone, hfinish⟩ | ⟨hleft, -⟩
  · exact ⟨hend, hfinish⟩
  · have hkeeps : (finish host m).2.frames = m.frames := by
      rw [finish]
      split <;> rfl
    rw [hfinish] at hkeeps
    exact absurd (hkeeps.trans hnone) hframes
  · exact absurd hleft.frames hframes

/-- Ending with a value changes no globals. -/
theorem kept_of_halt {v : V} (h : turn host m = .halt (.value v, m')) :
    m'.globals = m.globals ∧ m'.nextIdentity = m.nextIdentity := by
  rcases finish_or_left h with ⟨-, hfinish⟩ | ⟨hleft, -⟩
  · have hkeeps : (finish host m).2.globals = m.globals ∧
        (finish host m).2.nextIdentity = m.nextIdentity := by
      rw [finish]
      split <;> exact ⟨rfl, rfl⟩
    rwa [hfinish] at hkeeps
  · exact ⟨hleft.globals, hleft.nextIdentity⟩

end

end Machine

end Bytescript

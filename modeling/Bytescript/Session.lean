/-
Evaluation of source texts, one by one or in a session.

A session carries names, constants and globals from one input to the next. The names and
constants of an input are kept only if it runs to its end; globals keep what was stored in them
before a fault.
-/
import Bytescript.Diagnostic.Stages
import Bytescript.Machine.Basic
import Bytescript.Machine.Native

namespace Bytescript

/-- What an input evaluates to. -/
inductive Evaluation (V : Type) where
  | value (v : V)
  | error (d : Diagnostic)
  /-- The run was not finished. -/
  | outOfFuel

namespace Evaluation

/-- The outcome of a run, its fault located where the machine stands. -/
def ofOutcome {S V : Type} (file source : String) :
    Machine.Outcome V × Machine S V → Evaluation V
  | (.value v, _) => .value v
  | (.fault fault, m) => .error (m.locate fault file source)
  | (.outOfFuel, _) => .outOfFuel

end Evaluation

/-- Runs a program, from the globals and numbers of earlier runs. -/
def runProgram (fuel : Nat) (config : MachineConfig) (p : Program)
    (globals : Globals Value) (identity : Nat) :
    Machine.Outcome Value × Machine Console Value :=
  (Machine.start nativeHost config p globals {} identity).run nativeHost fuel

/-- Evaluates a source text; gives also what it printed. -/
def evaluateSource (fuel : Nat) (config : MachineConfig) (file source : String) :
    Evaluation Value × Console :=
  match compileSource file source with
  | .error d => (.error d, {})
  | .ok p =>
    let final := runProgram fuel config p #[] 0
    (.ofOutcome file source final, final.2.host)

/-- Names, constants and globals carried from one input to the next. -/
structure Session where
  file : String
  config : MachineConfig := {}
  state : CompilerState := {}
  globals : Globals Value := #[]
  /-- The number for the next function or closure. -/
  nextIdentity : Nat := 0

namespace Session

/-- Evaluates an input; gives also what it printed. -/
def eval (fuel : Nat) (session : Session) (source : String) :
    Evaluation Value × Console × Session :=
  match compileSourceFrom session.state session.file source with
  | .error d => (.error d, {}, session)
  | .ok (p, state) =>
    let final := runProgram fuel session.config p session.globals session.nextIdentity
    let evaluation := Evaluation.ofOutcome session.file source final
    let kept := match evaluation with
      | .value _ => state
      | _ => session.state
    let session := { session with
      state := kept, globals := final.2.globals, nextIdentity := final.2.nextIdentity }
    (evaluation, final.2.host, session)

/-- Forgets all inputs. -/
def reset (session : Session) : Session :=
  { session with state := {}, globals := #[] }

end Session

end Bytescript

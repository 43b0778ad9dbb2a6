/-
A host that keeps a log.

Each operation is written into the log before the inner host carries it out. Values are written
by a given function and separated by blanks; constants and closures are written as they are
shown.
-/
import Bytescript.Machine.Host

namespace Bytescript

/-- The state of a host together with a log. -/
structure Logged (S : Type) where
  inner : S
  log : Array String := #[]

namespace Host

variable {S V α : Type}

/-- Writes a line and asks the inner host, which cannot fail. -/
def logging (line : String) (question : StateM S α) : StateM (Logged S) α :=
  modifyGet fun state =>
    let (answer, inner) := question.run state.inner
    (answer, { inner, log := state.log.push line })

/-- Writes a line and asks the inner host, which may fail. -/
def loggingTry (line : String) (question : ExceptT Fault (StateM S) α) :
    ExceptT Fault (StateM (Logged S)) α :=
  ExceptT.mk (logging line question.run)

/-- Texts separated by blanks. -/
def spaced (texts : List String) : String :=
  " ".intercalate texts

/-- A host that does what `host` does and writes every operation into a log. It gives all values
the same type name. -/
def traced (host : Host S V) (write : V → String) : Host (Logged S) V where
  binary op left right :=
    loggingTry (spaced ["binary", op.mnemonic, write left, write right]) (host.binary op left right)
  unary op operand :=
    loggingTry (spaced ["unary", op.mnemonic, write operand]) (host.unary op operand)
  isTruthy v := logging (spaced ["truthy", write v]) (host.isTruthy v)
  boolean b := logging (spaced ["bool", if b then "true" else "false"]) (host.boolean b)
  null := logging "null" host.null
  array items := logging ("array " ++ spaced (items.map write)) (host.array items)
  hash pairs :=
    let texts := pairs.flatMap fun (key, value) => [write key, write value]
    loggingTry ("hash " ++ spaced texts) (host.hash pairs)
  index container key :=
    loggingTry (spaced ["index", write container, write key]) (host.index container key)
  callBuiltin? callee args :=
    loggingTry ("execute_builtin " ++ write callee ++ " " ++ spaced (args.map write))
      (host.callBuiltin? callee args)
  builtin index := loggingTry (spaced ["builtin", Nat.repr index]) (host.builtin index)
  constant identity c := logging (spaced ["load_constant", c.render]) (host.constant identity c)
  function? v := logging (spaced ["decode_function", write v]) (host.function? v)
  ofClosure c :=
    logging ("wrap_closure " ++ c.code.render ++ " " ++ spaced (c.free.map write))
      (host.ofClosure c)
  closure? v := logging (spaced ["as_closure", write v]) (host.closure? v)
  typeName _ := "value"

end Host

end Bytescript

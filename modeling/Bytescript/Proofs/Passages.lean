/-
Two machines with the same code.

A session runs the code of each input from its own start; in the code of all inputs together the
same instructions stand further down. `Passage` is such a piece of main code, with the constants and
globals that it may refer to, and `Passage.Lockstep` says that two machines, the first of which runs
the piece alone, are at the same place of it: values are alike on their stacks and in their globals,
their calls are at the same instructions, and the second one has printed what the first one has,
after something else.

Main statement: `Passage.Lockstep.fetched`. If the first machine goes on, then both fetch the same
instruction, apart from the targets of jumps.

Design notes: the height of the stack is part of what is known about the calls, so that the first
machine is seen to find all operands, and to have an empty stack at the end of the piece.
-/
import Bytescript.Proofs.Alike
import Bytescript.Proofs.Closures
import Bytescript.Proofs.Emission

namespace Bytescript

/-! ### Code that can be run -/

/-- Within limits, all numbers are small enough to be written. -/
structure Limits.Narrow (l : Limits) : Prop where
  globals : l.globals ≤ Scopes.globalLimit
  locals : l.locals ≤ Compile.maxNarrow + 1
  captures : l.captures ≤ Compile.maxNarrow + 1

theorem Instruction.Proper.fits {l : Limits} {i : Instruction} (hi : i.Proper l) (hl : l.Narrow)
    (htargets : i.opcode.isJump = true → ∀ t ∈ i.operands, t ≤ Compile.maxWide) : i.Fits := by
  cases hi with
  | constant hn => exact fits_wide rfl (Nat.lt_succ_of_le hn)
  | closure hn hcount => exact fits_closure (Nat.lt_succ_of_le hn) (Nat.lt_succ_of_le hcount)
  | global hop hn =>
    have hlt := Nat.lt_of_lt_of_le hn hl.globals
    rcases hop with rfl | rfl | rfl <;> exact fits_wide rfl hlt
  | slot hop hn =>
    have hlt := Nat.lt_of_lt_of_le hn hl.locals
    rcases hop with rfl | rfl | rfl <;> exact fits_narrow rfl hlt
  | captured hn => exact fits_narrow rfl (Nat.lt_of_lt_of_le hn hl.captures)
  | builtin hb =>
    have hlt := (Array.getElem?_eq_some_iff.mp hb).1
    exact fits_narrow rfl (Nat.lt_of_lt_of_le hlt (by decide))
  | self => exact fits_nil rfl
  | simple hop => exact fits_nil hop
  | array hn | hash hn => exact fits_wide rfl (Nat.lt_succ_of_le hn)
  | call hn => exact fits_narrow rfl (Nat.lt_succ_of_le hn)
  | jump target hop =>
    have hlt := Nat.lt_succ_of_le (htargets hop target (by simp))
    rcases Opcode.isJump_iff.mp hop with rfl | rfl <;> exact fits_wide rfl hlt

/-- Instructions as they are compiled within limits. -/
structure Compiled (l : Limits) (is : List (Located Instruction)) : Prop where
  narrow : l.Narrow
  balanced : Balanced is
  proper : ∀ i ∈ is, i.value.Proper l

/-- The instructions `is`, with targets that count from their beginning, stand at an offset of the
code. -/
structure Code.Has (code : Code) (offset : Nat) (is : List (Located Instruction)) : Prop where
  stands : StandsAt code.bytes offset (encodeAll (moved offset is))
  inside : offset + (encodeAll is).length ≤ code.bytes.size
  targets : TargetsFit offset is

theorem Code.Has.of_bytes {code : Code} {is : List (Located Instruction)}
    (h : code.bytes.toList = encodeAll is) (htargets : TargetsFit 0 is) : code.Has 0 is where
  stands := by
    rw [moved_zero]
    have hall : code.bytes.toList = [] ++ encodeAll is ++ [] := by simpa using h
    exact .of_toList hall
  inside := Nat.le_of_eq (by rw [← Array.length_toList, h, Nat.zero_add])
  targets := htargets

theorem Code.Has.decodeAt {code : Code} {l : Limits} {is : List (Located Instruction)}
    {offset k : Nat} {i : Located Instruction} (h : code.Has offset is) (his : Compiled l is)
    (hi : is[k]? = some i) : Instruction.decodeAt code.bytes (offset + offsetAt is k) =
      some (.ok (i.value.moved offset)) := by
  have hmem : i ∈ is := List.mem_of_getElem? hi
  have hfits : (i.value.moved offset).Fits := by
    refine ((his.proper i hmem).moved offset).fits his.narrow fun hjump t ht => ?_
    rw [Instruction.opcode_moved] at hjump
    rw [Instruction.operands_moved _ hjump, List.mem_map] at ht
    obtain ⟨t, ht, rfl⟩ := ht
    exact h.targets i hmem hjump t ht
  -- the bytes of the instruction come after those of the first `k`
  have hsplit : is = is.take k ++ ([i] ++ is.drop (k + 1)) := by
    rw [← List.append_assoc, ← Option.toList_some, ← hi, ← List.take_add_one,
      List.take_append_drop]
  have hstands := h.stands
  rw [hsplit, moved_append, moved_append, encodeAll_append, encodeAll_append, StandsAt.append_iff,
    StandsAt.append_iff, length_encodeAll_moved] at hstands
  refine Instruction.decodeAt_encode hfits ?_
  have := hstands.2.1
  rwa [moved_singleton, encodeAll_singleton] at this

/-! ### Two machines -/

/-- Numbers are paired one to one. -/
def IsPairing (ι : Nat → Nat → Prop) : Prop :=
  ∀ ⦃i j i' j'⦄, ι i j → ι i' j' → (i = i' ↔ j = j')

/-- Closures whose numbers are paired and whose code refers to what there is. -/
def Numbered (pool : List Constant) (globals : Nat) (ι : Nat → Nat → Prop) (i j : Nat)
    (f : FunctionCode) : Prop :=
  ι i j ∧ ∃ count, f.Checked pool globals count

theorem Numbered.mono {pool pool' : List Constant} {globals globals' : Nat}
    {ι ι' : Nat → Nat → Prop} (hpool : pool <+: pool') (hglobals : globals ≤ globals')
    (hι : ∀ i j, ι i j → ι' i j) {i j : Nat} {f : FunctionCode}
    (h : Numbered pool globals ι i j f) : Numbered pool' globals' ι' i j f := by
  obtain ⟨hij, count, hchecked⟩ := h
  exact ⟨hι i j hij, count, hchecked.mono hpool hglobals⟩

/-- Main code that two machines run side by side, with what it may refer to. In the second machine
it is a part of longer code. -/
structure Passage where
  config : MachineConfig
  pool : List Constant
  globals : Nat
  instructions : List (Located Instruction)
  /-- The main code of the second machine. -/
  code : Code
  /-- Where the instructions begin in that code. -/
  offset : Nat
  /-- What the second machine printed before. -/
  before : String
  functions : ∀ f, .function f ∈ pool → ∃ count, f.Checked pool globals count
  compiled : Compiled ⟨pool, globals, 0, 0, false⟩ instructions
  has : code.Has offset instructions

namespace Passage

open Value Machine

variable (S : Passage) (ι : Nat → Nat → Prop)

/-- The closures that the machines may have. -/
abbrev Same : Nat → Nat → FunctionCode → Prop :=
  Numbered S.pool S.globals ι

/-- The active calls of the machines, both at the same places, and the height of the stack that is
expected there. -/
inductive Paired : List (Frame Value) → List (Frame Value) → Int → Prop where
  | main {frame frame' : Frame Value} {k : Nat} :
      frame.code.bytes.toList = encodeAll S.instructions → frame'.code = S.code →
      k ≤ S.instructions.length → frame.ip = offsetAt S.instructions k →
      frame'.ip = S.offset + offsetAt S.instructions k →
      Paired [frame] [frame'] (rise (S.instructions.take k))
  | call {closure closure' : Closure Value} {base k count : Nat} {is : List (Located Instruction)}
      {callers callers' : List (Frame Value)} :
      Alike (S.Same ι) (.closure closure.identity closure.code closure.free)
        (.closure closure'.identity closure'.code closure'.free) →
      closure.code.code.bytes.toList = encodeAll is →
      Compiled ⟨S.pool, S.globals, closure.code.locals, count, true⟩ is → TargetsFit 0 is →
      k ≤ is.length → 1 ≤ base → Paired callers callers' base →
      Paired (⟨closure, offsetAt is k, base⟩ :: callers)
        (⟨closure', offsetAt is k, base⟩ :: callers')
        (base + closure.code.locals + rise (is.take k))

/-- The values of the constants, whatever numbers the functions have. -/
def Loads (pool : List Constant) (constants : Array Value) : Prop :=
  ∀ ⦃n : Nat⦄ ⦃c : Constant⦄, pool[n]? = some c →
    ∃ identity, constants[n]? = some (ofConstant identity c)

/-- What the machines have in common, apart from their calls. -/
structure Shared (m M : Machine Console Value) : Prop where
  config : m.config = S.config
  config' : M.config = S.config
  constants : Loads S.pool m.constants
  constants' : Loads S.pool M.constants
  stack : List.Forall₂ (Alike (S.Same ι)) m.stack.toList M.stack.toList
  globals : List.Forall₂ (Option.Rel (Alike (S.Same ι))) m.globals.toList M.globals.toList
  globals_le : m.globals.size ≤ S.globals
  lastPopped : ∀ v, m.lastPopped = some v → ∃ w, M.lastPopped = some w ∧ Alike (S.Same ι) v w
  printed : M.host.printed = S.before ++ m.host.printed
  pairing : IsPairing ι
  fresh : ∀ ⦃i j⦄, ι i j → i < m.nextIdentity ∧ j < M.nextIdentity

/-- Two machines in step. -/
structure Lockstep (m M : Machine Console Value) : Prop where
  shared : S.Shared ι m M
  frames : S.Paired ι m.frames M.frames m.stack.size

/-- If the first turn goes on then so does the second one, and the machines are in step again. -/
def Followed (first second : Turn Console Value) : Prop :=
  ∀ m, first = .next m → ∃ ι M, second = .next M ∧ S.Lockstep ι m M

variable {S ι}

/-! ### Values -/

theorem isMatching_same {m M : Machine Console Value} (h : S.Shared ι m M) :
    IsMatching (S.Same ι) :=
  fun _ _ _ _ _ _ hij hij' => h.pairing hij.1 hij'.1

theorem same_mono {ι' : Nat → Nat → Prop} (h : ∀ i j, ι i j → ι' i j) :
    ∀ i j f, S.Same ι i j f → S.Same ι' i j f :=
  fun _ _ _ hf => hf.mono List.prefix_rfl (Nat.le_refl _) h

theorem alike_globals_mono {R R' : Nat → Nat → FunctionCode → Prop}
    (h : ∀ i j f, R i j f → R' i j f) {globals globals' : List (Option Value)}
    (hglobals : List.Forall₂ (Option.Rel (Alike R)) globals globals') :
    List.Forall₂ (Option.Rel (Alike R')) globals globals' := by
  refine hglobals.imp fun v w hv => ?_
  cases hv with
  | none => exact .none
  | some hv => exact .some (hv.mono h)

theorem alike_getGlobal {R : Nat → Nat → FunctionCode → Prop} {globals globals' : Globals Value}
    (h : List.Forall₂ (Option.Rel (Alike R)) globals.toList globals'.toList) (n : Nat) :
    Alike R (globals[n]?.join.getD .null) (globals'[n]?.join.getD .null) := by
  rw [← Array.getElem?_toList, ← Array.getElem?_toList]
  generalize globals.toList = gs at h
  generalize globals'.toList = gs' at h
  induction h generalizing n with
  | nil => exact .null
  | cons hv _ ih =>
    cases n with
    | zero =>
      cases hv with
      | none => exact .null
      | some hv => exact hv
    | succ n => exact ih n

theorem forall₂_set {α β : Type} {r : α → β → Prop} {xs : List α} {ys : List β}
    (h : List.Forall₂ r xs ys) {a : α} {b : β} (hab : r a b) (n : Nat) :
    List.Forall₂ r (xs.set n a) (ys.set n b) := by
  induction h generalizing n with
  | nil => exact .nil
  | cons hx hxs ih =>
    cases n with
    | zero => exact .cons hab hxs
    | succ n => exact .cons hx (ih n)

theorem forall₂_replicate {α β : Type} {r : α → β → Prop} {a : α} {b : β} (count : Nat)
    (hab : r a b) : List.Forall₂ r (List.replicate count a) (List.replicate count b) := by
  induction count with
  | zero => exact .nil
  | succ count ih => exact .cons hab ih

theorem alike_storeGlobal {R : Nat → Nat → FunctionCode → Prop} {globals globals' : Globals Value}
    (h : List.Forall₂ (Option.Rel (Alike R)) globals.toList globals'.toList) {v w : Value}
    (hv : Alike R v w) (n : Nat) :
    List.Forall₂ (Option.Rel (Alike R)) (storeGlobal globals n v).toList
      (storeGlobal globals' n w).toList := by
  have hsize : globals.size = globals'.size := h.length_eq
  rw [storeGlobal, storeGlobal, ← hsize]
  split
  · rw [Array.toList_setIfInBounds, Array.toList_setIfInBounds]
    exact forall₂_set h (.some hv) n
  · simp only [Array.toList_push, Array.toList_append, Array.toList_replicate]
    exact List.rel_append (List.rel_append h (forall₂_replicate _ .none)) (.cons (.some hv) .nil)

theorem size_storeGlobal_le {V : Type} {globals : Globals V} {n bound : Nat} (v : V)
    (h : globals.size ≤ bound) (hn : n < bound) : (storeGlobal globals n v).size ≤ bound := by
  rw [storeGlobal]
  split
  · rwa [Array.size_setIfInBounds]
  · simp only [Array.size_push, Array.size_append, Array.size_replicate]
    omega

/-! ### Parts of the machines -/

section

variable {m M : Machine Console Value} {ι' : Nat → Nat → Prop}

namespace Shared

theorem size_eq (h : S.Shared ι m M) : M.stack.size = m.stack.size :=
  h.stack.length_eq.symm

theorem withStack (h : S.Shared ι m M) {stack stack' : Array Value}
    (hstack : List.Forall₂ (Alike (S.Same ι)) stack.toList stack'.toList) :
    S.Shared ι { m with stack } { M with stack := stack' } :=
  { h with stack := hstack }

theorem withCalls (h : S.Shared ι m M) (calls calls' : CallStack Value) :
    S.Shared ι { m with calls } { M with calls := calls' } :=
  { h with }

theorem setGlobal (h : S.Shared ι m M) {v w : Value} (hv : Alike (S.Same ι) v w) {n : Nat}
    (hn : n < S.globals) :
    S.Shared ι { m with globals := storeGlobal m.globals n v }
      { M with globals := storeGlobal M.globals n w } :=
  { h with
    globals := alike_storeGlobal h.globals hv n
    globals_le := size_storeGlobal_le v h.globals_le hn }

theorem setLastPopped (h : S.Shared ι m M) {v w : Value} (hv : Alike (S.Same ι) v w) :
    S.Shared ι { m with lastPopped := some v } { M with lastPopped := some w } :=
  { h with
    lastPopped := fun v' hv' => by
      cases hv'
      exact ⟨w, rfl, hv⟩ }

theorem print (h : S.Shared ι m M) (text : String) :
    S.Shared ι { m with host := ⟨m.host.printed ++ text⟩ }
      { M with host := ⟨M.host.printed ++ text⟩ } := by
  have hprinted : M.host.printed ++ text = S.before ++ (m.host.printed ++ text) := by
    rw [h.printed, String.append_assoc]
  exact { h with printed := hprinted }

theorem mono (h : S.Shared ι m M) (hι : ∀ i j, ι i j → ι' i j)
    (hpairing : IsPairing ι') {n n' : Nat}
    (hfresh : ∀ ⦃i j⦄, ι' i j → i < n ∧ j < n') :
    S.Shared ι' { m with nextIdentity := n } { M with nextIdentity := n' } :=
  { h with
    stack := h.stack.imp fun _ _ hv => hv.mono (same_mono hι)
    globals := alike_globals_mono (same_mono hι) h.globals
    lastPopped := fun v hv => by
      obtain ⟨w, hw, hvw⟩ := h.lastPopped v hv
      exact ⟨w, hw, hvw.mono (same_mono hι)⟩
    pairing := hpairing
    fresh := hfresh }

/-- A new closure on each side gets a number of its own. -/
theorem pair (h : S.Shared ι m M) : ∃ ι', (∀ i j, ι i j → ι' i j) ∧
    ι' m.nextIdentity M.nextIdentity ∧
    S.Shared ι' { m with nextIdentity := m.nextIdentity + 1 }
      { M with nextIdentity := M.nextIdentity + 1 } := by
  refine ⟨fun i j => ι i j ∨ i = m.nextIdentity ∧ j = M.nextIdentity, fun i j hij => .inl hij,
    .inr ⟨rfl, rfl⟩, h.mono (fun i j hij => .inl hij) ?_ ?_⟩
  -- numbers that are paired already are smaller than the new ones
  · rintro i j i' j' (hij | ⟨rfl, rfl⟩) (hij' | ⟨rfl, rfl⟩)
    · exact h.pairing hij hij'
    · have := h.fresh hij
      constructor <;> omega
    · have := h.fresh hij'
      constructor <;> omega
    · exact ⟨fun _ => rfl, fun _ => rfl⟩
  · rintro i j (hij | ⟨rfl, rfl⟩)
    · have := h.fresh hij
      constructor <;> omega
    · constructor <;> omega

end Shared

namespace Paired

variable {frames frames' : List (Frame Value)} {n : Int}

theorem mono (h : S.Paired ι frames frames' n) (hι : ∀ i j, ι i j → ι' i j) :
    S.Paired ι' frames frames' n := by
  induction h with
  | main hbytes hcode hk hip hip' => exact .main hbytes hcode hk hip hip'
  | call hclosure hbytes his htargets hk hbase _ ih =>
    exact .call (hclosure.mono (same_mono hι)) hbytes his htargets hk hbase ih

/-- A call of alike closures. -/
theorem enter {closure closure' : Closure Value} {base : Nat}
    (h : S.Paired ι frames frames' base) (hbase : 1 ≤ base)
    (hclosure : Alike (S.Same ι) (.closure closure.identity closure.code closure.free)
      (.closure closure'.identity closure'.code closure'.free)) :
    S.Paired ι (⟨closure, 0, base⟩ :: frames) (⟨closure', 0, base⟩ :: frames')
      (base + closure.code.locals) := by
  obtain ⟨⟨-, count, hchecked⟩, -⟩ := alike_closure_iff.mp hclosure
  obtain ⟨is, hbytes, hbalanced, hproper, htargets⟩ := hchecked.body
  have hcompiled : Compiled ⟨S.pool, S.globals, closure.code.locals, count, true⟩ is :=
    ⟨⟨S.compiled.narrow.globals, hchecked.locals, Nat.le_succ_of_le hchecked.captures⟩,
      hbalanced, hproper⟩
  have hcall := Paired.call hclosure hbytes hcompiled htargets (Nat.zero_le _) hbase h
  rwa [List.take_zero, rise_nil, Int.add_zero] at hcall

theorem length_eq (h : S.Paired ι frames frames' n) : frames'.length = frames.length := by
  induction h with
  | main => rfl
  | call _ _ _ _ _ _ _ ih => rw [List.length_cons, List.length_cons, ih]

theorem ne_nil (h : S.Paired ι frames frames' n) : frames ≠ [] ∧ frames' ≠ [] := by
  cases h <;> simp

end Paired

end

/-! ### The next instruction -/

section

variable (S ι)

/-- Where two machines execute the same code. -/
structure Site where
  limits : Limits
  /-- How much further down the code stands in the second machine. -/
  offset : Nat
  /-- The height of the stack where the code began. -/
  floor : Nat
  frame : Frame Value
  frame' : Frame Value
  callers : List (Frame Value)
  callers' : List (Frame Value)

/-- The machines fetch the instruction `i`; they are then just behind it, at `m₁` and `M₁`. -/
structure Fetched (site : Site) (i : Instruction) (m M m₁ M₁ : Machine Console Value) : Prop where
  fetches : m.Fetches i m₁
  fetches' : M.Fetches (i.moved site.offset) M₁
  shared : S.Shared ι m₁ M₁
  proper : i.Proper site.limits
  frames : m₁.frames = site.frame :: site.callers
  frames' : M₁.frames = site.frame' :: site.callers'
  pops : site.floor + i.pops ≤ m₁.stack.size
  next : S.Paired ι m₁.frames M₁.frames (m₁.stack.size - i.pops + i.pushes)
  jump : i.opcode.isJump = true → ∃ target, i.operands = [target] ∧
    target ≤ site.frame.code.bytes.size ∧ target + site.offset ≤ site.frame'.code.bytes.size ∧
    S.Paired ι (m₁.goTo target).frames (M₁.goTo (target + site.offset)).frames
      (m₁.stack.size - i.taken)
  pool : site.limits.pool = S.pool
  globals : site.limits.globals = S.globals
  main : site.limits.inFunction = false →
    site.callers = [] ∧ site.limits.locals = 0 ∧ site.limits.captures = 0
  inner : site.limits.inFunction = true → site.frame'.base = site.frame.base ∧
    1 ≤ site.frame.base ∧ site.frame.base + site.limits.locals = site.floor ∧
    Alike (S.Same ι)
      (.closure site.frame.closure.identity site.frame.closure.code site.frame.closure.free)
      (.closure site.frame'.closure.identity site.frame'.closure.code site.frame'.closure.free) ∧
    S.Paired ι site.callers site.callers' site.frame.base

variable {S ι} {m m' M : Machine Console Value}

/-- Code that goes on has a next instruction. -/
theorem exists_next {frame : Frame Value} {callers : List (Frame Value)}
    {is : List (Located Instruction)} {k : Nat} (hturn : turn nativeHost m = .next m')
    (hframes : m.frames = frame :: callers) (hbytes : frame.code.bytes.toList = encodeAll is)
    (hip : frame.ip = offsetAt is k) : ∃ i, is[k]? = some i := by
  rcases Nat.lt_or_ge k is.length with hk | hk
  · exact ⟨is[k], List.getElem?_eq_getElem hk⟩
  · have hend : frame.code.bytes.size = frame.ip := by
      rw [← Array.length_toList, hbytes, hip, offsetAt, List.take_of_length_le hk]
    have hfinished : frame.isFinished = true := decide_eq_true (Nat.le_of_eq hend)
    rw [turn, hframes] at hturn
    simp only [hfinished, if_true] at hturn
    split at hturn <;> cases hturn

variable {l : Limits} {is : List (Located Instruction)} {k : Nat}
  {frame frame' : Frame Value} {callers callers' : List (Frame Value)} {i : Located Instruction}

/-- Code that both machines run gives them the same next instruction. -/
theorem fetched_of_has (offset floor : Nat) (hshared : S.Shared ι m M)
    (hframes : m.frames = frame :: callers) (hframes' : M.frames = frame' :: callers')
    (his : Compiled l is) (hhas : frame.code.Has 0 is) (hhas' : frame'.code.Has offset is)
    (hip : frame.ip = offsetAt is k) (hip' : frame'.ip = offset + offsetAt is k)
    (hi : is[k]? = some i) (hsize : (m.stack.size : Int) = floor + rise (is.take k))
    (hagain : ∀ k', k' ≤ is.length →
      S.Paired ι ({ frame with ip := offsetAt is k' } :: callers)
        ({ frame' with ip := offset + offsetAt is k' } :: callers') (floor + rise (is.take k')))
    (hpool : l.pool = S.pool) (hglobals : l.globals = S.globals)
    (hmain : l.inFunction = false → callers = [] ∧ l.locals = 0 ∧ l.captures = 0)
    (hinner : l.inFunction = true → frame'.base = frame.base ∧ 1 ≤ frame.base ∧
      frame.base + l.locals = floor ∧
      Alike (S.Same ι) (.closure frame.closure.identity frame.closure.code frame.closure.free)
        (.closure frame'.closure.identity frame'.closure.code frame'.closure.free) ∧
      S.Paired ι callers callers' frame.base) :
    ∃ site m₁ M₁, S.Fetched ι site i.value m M m₁ M₁ := by
  have hlt : k < is.length := (List.getElem?_eq_some_iff.mp hi).1
  have hsettled := his.balanced hi
  have hdecode := hhas.decodeAt his hi
  have hdecode' := hhas'.decodeAt his hi
  rw [Nat.zero_add, Instruction.moved_zero, ← hip] at hdecode
  rw [← hip'] at hdecode'
  -- after the instruction both machines are paired again, and so they are wherever it jumps to
  have hnext := hagain (k + 1) hlt
  rw [rise_take_succ hi] at hnext
  refine ⟨⟨l, offset, floor, { frame with ip := offsetAt is (k + 1) },
      { frame' with ip := offset + offsetAt is (k + 1) }, callers, callers'⟩,
    m.goTo (offsetAt is (k + 1)), M.goTo (offset + offsetAt is (k + 1)), ?_⟩
  refine
    { fetches := ⟨frame, callers, hframes, hdecode, by rw [offsetAt_succ hi, hip]⟩
      fetches' := ⟨frame', callers', hframes', hdecode', ?_⟩
      shared := hshared.withCalls _ _
      proper := his.proper i (List.mem_of_getElem? hi)
      frames := by
        rw [frames_goTo, hframes]
        rfl
      frames' := by
        rw [frames_goTo, hframes']
        rfl
      pops := ?_
      next := ?_
      jump := fun hjump => ?_
      pool := hpool
      globals := hglobals
      main := hmain
      inner := hinner }
  · rw [offsetAt_succ hi, hip', Instruction.opcode_moved, Nat.add_assoc]
  · have := hsettled.pops
    show floor + i.value.pops ≤ m.stack.size
    omega
  · rw [frames_goTo, frames_goTo, hframes, hframes']
    show S.Paired ι _ _ ((m.stack.size : Int) - i.value.pops + i.value.pushes)
    have hheight : (m.stack.size : Int) - i.value.pops + i.value.pushes =
        floor + (rise (is.take k) - i.value.pops + i.value.pushes) := by omega
    rw [hheight]
    exact hnext
  · obtain ⟨k', hk', hle, hoperands, hrise⟩ := hsettled.target hjump
    have htarget := hagain k' hle
    have hoffset := offsetAt_le is k'
    have hinside := hhas.inside
    have hinside' := hhas'.inside
    refine ⟨offsetAt is k', hoperands, ?_, ?_, ?_⟩
    · show offsetAt is k' ≤ frame.code.bytes.size
      omega
    · show offsetAt is k' + offset ≤ frame'.code.bytes.size
      omega
    · rw [frames_goTo, frames_goTo, frames_goTo, frames_goTo, hframes, hframes',
        Nat.add_comm (offsetAt is k')]
      show S.Paired ι _ _ ((m.stack.size : Int) - i.value.taken)
      have hheight : (m.stack.size : Int) - i.value.taken = floor + rise (is.take k') := by omega
      rw [hheight]
      exact htarget

/-- Both machines fetch the same instruction, apart from where jumps go. -/
theorem Lockstep.fetched (h : S.Lockstep ι m M) (hturn : turn nativeHost m = .next m') :
    ∃ site i m₁ M₁, S.Fetched ι site i m M m₁ M₁ := by
  obtain ⟨hshared, hpaired⟩ := h
  generalize hframes : m.frames = frames at hpaired
  generalize hframes' : M.frames = frames' at hpaired
  generalize hsize : (m.stack.size : Int) = size at hpaired
  cases hpaired with
  | @main frame frame' k hbytes hcode hk hip hip' =>
    obtain ⟨i, hi⟩ := exists_next hturn hframes hbytes hip
    -- the session runs the input at offset zero, the joined program behind all that came before
    have htargets : TargetsFit 0 S.instructions := fun i hi hjump t ht =>
      Nat.le_trans (Nat.le_add_right _ _) (S.has.targets i hi hjump t ht)
    obtain ⟨site, m₁, M₁, hfetched⟩ :=
      fetched_of_has S.offset 0 hshared hframes hframes' S.compiled (.of_bytes hbytes htargets)
        (hcode ▸ S.has) hip hip' hi (by simpa using hsize)
        (fun k' hk' => by
          rw [Int.natCast_zero, Int.zero_add]
          exact .main hbytes hcode hk' rfl rfl) rfl rfl
        (fun _ => ⟨rfl, rfl, rfl⟩) (fun hinner => by cases hinner)
    exact ⟨site, i.value, m₁, M₁, hfetched⟩
  | @call closure closure' base k count is callers callers' hclosure hbytes his htargets hk hbase
      hcallers =>
    obtain ⟨i, hi⟩ := exists_next hturn hframes hbytes rfl
    have hbytes' : closure'.code.code.bytes.toList = encodeAll is := by
      rw [(alike_closure_iff.mp hclosure).2.1, hbytes]
    obtain ⟨site, m₁, M₁, hfetched⟩ :=
      fetched_of_has 0 (base + closure.code.locals) hshared hframes hframes'
        his (.of_bytes hbytes htargets) (.of_bytes hbytes' htargets) rfl
        (Nat.zero_add _).symm hi (by simpa using hsize)
        (fun k' hk' => by
          rw [Nat.zero_add, Int.natCast_add]
          exact .call hclosure hbytes his htargets hk' hbase hcallers) rfl rfl
        (fun hmain => by cases hmain) (fun _ => ⟨rfl, hbase, rfl, hclosure, hcallers⟩)
    exact ⟨site, i.value, m₁, M₁, hfetched⟩

end

end Passage

end Bytescript

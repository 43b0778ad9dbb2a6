/-
Jumps that are patched and pops that are taken back.

Main statement: `compileInto_buffer` — code that is written in place is the code that is built from
fragments, for every tree and in every state, and where the one compiler fails the other one fails
in the same way.

Design notes: `InPlace` says that a buffer holds what a fragment does, behind what the buffer held
when the fragment was begun. The arms of a conditional are written behind jumps that still have
`Buffer.pendingJump` as their target; a jump that is patched is as if it had been written with its
target, whatever stands behind it (`InPlace.patch`). What the buffer remembers about the instruction
before the last one is right only behind a statement, where it is needed (`Recalls`).
-/
import Bytescript.Proofs.CompilerSteps

namespace Bytescript

/-! ### Buffers -/

/-- Bytes in the middle can be overwritten by as many others. -/
theorem toList_overwrite {bytes : Array UInt8} {pre old post new : List UInt8}
    (h : bytes.toList = pre ++ old ++ post) (hlength : old.length = new.length) :
    (overwrite bytes pre.length new).toList = pre ++ new ++ post := by
  induction new generalizing bytes pre old with
  | nil =>
    rw [List.length_eq_zero_iff.mp hlength] at h
    exact h
  | cons b rest ih =>
    cases old with
    | nil => cases hlength
    | cons b' rest' =>
      have hset : (bytes.setIfInBounds pre.length b).toList = (pre ++ [b]) ++ rest' ++ post := by
        simp [h]
      have hrest := ih hset (Nat.succ.inj hlength)
      rw [List.length_append, List.length_singleton] at hrest
      rw [overwrite, hrest, List.append_assoc pre, List.singleton_append]

namespace Buffer

variable (front : Buffer) (code : Fragment) (op : Opcode) (operands : List Nat) (span : Span)

@[simp]
theorem size_emit : (front.emit op operands span).size = front.size + op.width := by
  simp [emit, size, ← Array.length_toList, Instruction.length_encode]

@[simp]
theorem size_patchJump (position : Nat) : (front.patchJump position op).size = front.size :=
  size_overwrite _ _ _

theorem removeLast_eq {buffer : Buffer} {last : Mark} (h : buffer.last? = some last) :
    buffer.removeLast.code =
        ⟨buffer.code.bytes.take last.position, buffer.code.spans.take last.position⟩ ∧
      buffer.removeLast.last? = buffer.previous? := by
  rw [removeLast]
  split
  · next last' hlast =>
    cases hlast.symm.trans h
    exact ⟨rfl, rfl⟩
  · next hnone => cases hnone.symm.trans h

theorem replaceLast_eq {buffer : Buffer} {last : Mark} (h : buffer.last? = some last)
    (op : Opcode) :
    (buffer.replaceLast op).code = (buffer.replaceAt last.position ⟨op, []⟩).code ∧
      (buffer.replaceLast op).last? = some ⟨op, last.position⟩ := by
  rw [replaceLast]
  split
  · next last' hlast =>
    cases hlast.symm.trans h
    exact ⟨rfl, rfl⟩
  · next hnone => cases hnone.symm.trans h

/-- The last instruction after a fragment was written behind `front`. -/
def markAfter : Option Mark :=
  (code.instructions.back?.map fun i => ⟨i.value.opcode, code.stop - i.value.opcode.width⟩).or
    front.last?

theorem markAfter_startingAt (offset : Nat) :
    front.markAfter (.startingAt offset) = front.last? := by
  simp [markAfter, Fragment.startingAt]

theorem markAfter_emit :
    front.markAfter (code.emit op operands span) = some ⟨op, code.stop⟩ := by
  rw [markAfter, Fragment.stop_emit]
  simp [Fragment.emit]

end Buffer

/-! ### Fragments in buffers -/

theorem Fragment.append_startingAt (code : Fragment) (offset : Nat) :
    code.append (.startingAt offset) = code := by
  simp [append, startingAt]

theorem Fragment.append_emit (code code' : Fragment) (op : Opcode) (operands : List Nat)
    (span : Span) :
    code.append (code'.emit op operands span) = (code.append code').emit op operands span := by
  simp [append, emit, Nat.add_assoc]

/-- The buffer is `front` with the code of a fragment written behind it. -/
structure InPlace (front : Buffer) (code : Fragment) (buffer : Buffer) : Prop where
  start : code.start = front.size
  bytes : buffer.code.bytes.toList =
    front.code.bytes.toList ++ encodeAll code.instructions.toList
  spans : buffer.code.spans.toList = front.code.spans.toList ++ spansOf code.instructions.toList
  last : buffer.last? = front.markAfter code

namespace InPlace

variable {front mid buffer : Buffer} {code code' : Fragment} {op op' : Opcode}
  {operands operands' : List Nat} {span : Span}

theorem length_bytes (hstart : code.start = front.size) :
    (front.code.bytes.toList ++ encodeAll code.instructions.toList).length = code.stop := by
  rw [List.length_append, Array.length_toList, Fragment.stop, hstart, code.size_eq_length]
  rfl

theorem length_spans (hstart : code.start = front.size) :
    (front.code.spans.toList ++ spansOf code.instructions.toList).length = code.stop := by
  rw [List.length_append, length_spansOf, Array.length_toList, front.size_spans, Fragment.stop,
    hstart, code.size_eq_length]
  rfl

theorem size (h : InPlace front code buffer) : buffer.size = code.stop := by
  rw [← length_bytes h.start, ← h.bytes, Array.length_toList]
  rfl

theorem begins (h : InPlace front code buffer) : (Fragment.startingAt front.size).Begins code :=
  ⟨code.instructions.toList, h.start, by simp [Fragment.startingAt]⟩

/-- Before anything is added. -/
theorem nothing (front : Buffer) : InPlace front (.startingAt front.size) front where
  start := rfl
  bytes := by simp [Fragment.startingAt]
  spans := by simp [Fragment.startingAt, spansOf]
  last := (Buffer.markAfter_startingAt _ _).symm

theorem emit (h : InPlace front code buffer) (op : Opcode) (operands : List Nat) (span : Span) :
    InPlace front (code.emit op operands span) (buffer.emit op operands span) where
  start := h.start
  bytes := by simp [Buffer.emit, Fragment.emit, h.bytes]
  spans := by simp [Buffer.emit, Fragment.emit, h.spans, spansOf]
  last := by
    rw [Buffer.markAfter_emit, ← h.size]
    rfl

/-- A fragment that is written behind another one continues it. -/
theorem append (h : InPlace front code mid) (h' : InPlace mid code' buffer) :
    InPlace front (code.append code') buffer where
  start := h.start
  bytes := by simp [h'.bytes, h.bytes, Fragment.append]
  spans := by simp [h'.spans, h.spans, Fragment.append, spansOf]
  last := by
    rw [h'.last]
    obtain rfl | ⟨c, op, operands, span, hbegins, rfl⟩ := h'.begins.eq_or_emit
    · rw [Buffer.markAfter_startingAt, Fragment.append_startingAt, h.last]
    · rw [h.size] at hbegins
      rw [Buffer.markAfter_emit, Fragment.append_emit, Buffer.markAfter_emit,
        Fragment.stop_append hbegins]

/-- An instruction of the code is replaced by another one of the same width. -/
theorem bytes_replaceAt {i : Located Instruction} {rest : List (Located Instruction)}
    (h : buffer.code.bytes.toList =
      front.code.bytes.toList ++ encodeAll (code.instructions.toList ++ i :: rest))
    (hstart : code.start = front.size) (hwidth : i.value.opcode.width = op.width) :
    (buffer.replaceAt code.stop ⟨op, operands⟩).code.bytes.toList =
      front.code.bytes.toList ++
        encodeAll (code.instructions.toList ++ ⟨⟨op, operands⟩, span⟩ :: rest) := by
  have hbytes : ∀ i : Located Instruction,
      front.code.bytes.toList ++ encodeAll (code.instructions.toList ++ i :: rest) =
        front.code.bytes.toList ++ encodeAll code.instructions.toList ++ i.value.encode ++
          encodeAll rest := by
    simp [encodeAll]
  rw [hbytes] at h ⊢
  rw [← toList_overwrite h (by rw [Instruction.length_encode, hwidth, Instruction.length_encode]),
    length_bytes hstart]
  rfl

/-- A jump gets its target as if it had been written with it. -/
theorem patch (h : InPlace front ((code.emit op operands span).append code') buffer)
    (operands' : List Nat) :
    InPlace front ((code.emit op operands' span).append code')
      (buffer.replaceAt code.stop ⟨op, operands'⟩) := by
  obtain ⟨hstart, hbytes, hspans, hlast⟩ := h
  refine ⟨hstart, ?_, hspans.trans ?_, hlast.trans ?_⟩
  · simp only [Fragment.append, Fragment.emit, Array.toList_append, Array.toList_push,
      List.append_assoc, List.singleton_append] at hbytes ⊢
    exact bytes_replaceAt hbytes hstart rfl
  · simp [Fragment.append, Fragment.emit, spansOf, Instruction.length_encode]
  · rw [Buffer.markAfter, Buffer.markAfter]
    cases h : code'.instructions.back? <;>
      simp [Fragment.append, Fragment.emit, Fragment.stop, h]

theorem spanAt (h : InPlace front ((code.emit op operands span).append code') buffer) :
    buffer.code.spanAt code.stop = span := by
  have hstart : code.start = front.size := h.start
  have hspans : buffer.code.spans.toList =
      front.code.spans.toList ++ spansOf code.instructions.toList ++
        (List.replicate op.width span ++ spansOf code'.instructions.toList) := by
    rw [h.spans]
    simp [Fragment.append, Fragment.emit, spansOf, Instruction.length_encode]
  rw [Code.spanAt, Array.getD_eq_getD_getElem?, ← Array.getElem?_toList, hspans,
    ← length_spans hstart, List.getElem?_append_right (Nat.le_refl _), Nat.sub_self,
    List.getElem?_append_left (by simp [op.width_pos]), List.getElem?_replicate_of_lt op.width_pos]
  rfl

/-- The code of a function or a program is written into an empty buffer. -/
theorem assemble (h : InPlace .empty code buffer) : code.assemble = buffer.code := by
  obtain ⟨hbytes, hspans⟩ := code.toList_assemble
  have hb : code.assemble.bytes = buffer.code.bytes := by
    rw [← Array.toList_inj, hbytes, h.bytes]
    rfl
  have hs : code.assemble.spans = buffer.code.spans := by
    rw [← Array.toList_inj, hspans, h.spans]
    rfl
  exact (Code.mk.injEq ..).mpr ⟨hb, hs⟩

/-- Looking back finds the same instruction. -/
theorem endsIn_eq (h : InPlace front code buffer) (op : Opcode) :
    Buffer.endsIn front buffer op = Fragment.endsIn (.startingAt front.size) code op := by
  obtain rfl | ⟨c, op', operands, span, hbegins, rfl⟩ := h.begins.eq_or_emit
  · -- the last instruction is the one before the fragment, if there is one at all
    rw [Fragment.endsIn_self, Buffer.endsIn, h.last, Buffer.markAfter_startingAt]
    cases hmark : front.last? with
    | none => rfl
    | some mark =>
      have hlt : mark.position < front.size := front.last_lt mark hmark
      rw [Option.any_some, decide_eq_false (Nat.not_le.mpr hlt), Bool.and_false]
  · have hle : front.size ≤ c.stop := Fragment.stop_le_of_begins hbegins
    rw [Fragment.endsIn_emit hbegins, Buffer.endsIn, h.last, Buffer.markAfter_emit]
    simp [hle]

/-- The last instruction is replaced by another one of the same width. -/
theorem replaceLast (h : InPlace front (code.emit op operands span) buffer)
    (hwidth : op.width = op'.width) :
    InPlace front (code.emit op' [] span) (buffer.replaceLast op') := by
  obtain ⟨hstart, hbytes, hspans, hlast⟩ := h
  rw [Buffer.markAfter_emit] at hlast
  obtain ⟨hcode, hmark⟩ := Buffer.replaceLast_eq hlast op'
  refine ⟨hstart, ?_, ?_, by rw [hmark, Buffer.markAfter_emit]⟩
  · simp only [hcode, Fragment.emit, Array.toList_push] at hbytes ⊢
    exact bytes_replaceAt hbytes hstart hwidth
  · rw [hcode]
    refine hspans.trans ?_
    simp [Fragment.emit, spansOf, Instruction.length_encode, hwidth]

/-- A body that does not end in a return gets one. -/
theorem returned (h : InPlace front code buffer) (span : Span) :
    InPlace front
      (if Fragment.endsIn (.startingAt front.size) code .returnValue ||
          Fragment.endsIn (.startingAt front.size) code .ret then code
        else code.emit .ret [] span)
      (if Buffer.endsIn front buffer .returnValue || Buffer.endsIn front buffer .ret then buffer
        else buffer.emit .ret [] span) := by
  rw [h.endsIn_eq, h.endsIn_eq]
  split
  · exact h
  · exact h.emit .ret [] span

end InPlace

/-- The fragment stands in the buffer, which also remembers the instruction before the last one. -/
structure Recalls (front : Buffer) (code : Fragment) (buffer : Buffer) : Prop
    extends InPlace front code buffer where
  previous : ∀ c op operands span, code = c.emit op operands span →
    buffer.previous? = front.markAfter c

namespace Recalls

variable {front buffer : Buffer} {code : Fragment}

theorem nothing (front : Buffer) : Recalls front (.startingAt front.size) front where
  toInPlace := .nothing front
  previous c op operands span hcode := by
    have hsize := congrArg (·.instructions.size) hcode
    simp [Fragment.startingAt, Fragment.emit] at hsize

theorem emit (h : InPlace front code buffer) (op : Opcode) (operands : List Nat) (span : Span) :
    Recalls front (code.emit op operands span) (buffer.emit op operands span) where
  toInPlace := h.emit op operands span
  previous c op' operands' span' hcode := by
    have hc := congrArg Fragment.removeLast hcode
    rw [Fragment.removeLast_emit, Fragment.removeLast_emit] at hc
    rw [← hc]
    exact h.last

theorem removeLast {op : Opcode} {operands : List Nat} {span : Span}
    (h : Recalls front (code.emit op operands span) buffer) :
    InPlace front code buffer.removeLast := by
  have hlast : buffer.last? = some ⟨op, code.stop⟩ := by rw [h.last, Buffer.markAfter_emit]
  have hstart : code.start = front.size := h.start
  obtain ⟨hcode, hmark⟩ := Buffer.removeLast_eq hlast
  have htake {α : Type} (xs : Array α) :
      (xs.take code.stop).toList = xs.toList.take code.stop := by
    simp
  refine ⟨hstart, ?_, ?_, hmark.trans (h.previous code op operands span rfl)⟩
  · rw [hcode, htake, h.bytes, Fragment.emit, Array.toList_push, encodeAll_append,
      ← List.append_assoc, List.take_left' (InPlace.length_bytes hstart)]
  · rw [hcode, htake, h.spans, Fragment.emit, Array.toList_push, spansOf, List.flatMap_append,
      ← List.append_assoc]
    exact List.take_left' (InPlace.length_spans hstart)

/-- A block is finished in the same way. -/
theorem finish (h : Recalls front code buffer) (purpose : Compile.Purpose) (span : Span) :
    InPlace front (Compile.finish purpose span (.startingAt front.size) code)
      (Compile.finish purpose span front buffer) := by
  cases purpose with
  | arm =>
    show InPlace front
      (if Fragment.endsIn (.startingAt front.size) code .pop then code.removeLast
        else code.emit .null [] span)
      (if Buffer.endsIn front buffer .pop then buffer.removeLast else buffer.emit .null [] span)
    rw [h.endsIn_eq]
    split
    · next hends =>
      obtain ⟨c, operands, span', rfl⟩ := Fragment.exists_emit_of_endsIn h.begins hends
      rw [Fragment.removeLast_emit]
      exact h.removeLast
    · exact h.toInPlace.emit .null [] span
  | body =>
    have hreplaced : InPlace front
        (if Fragment.endsIn (.startingAt front.size) code .pop then code.replaceLast .returnValue
          else code)
        (if Buffer.endsIn front buffer .pop then buffer.replaceLast .returnValue else buffer) := by
      rw [h.endsIn_eq]
      split
      · next hends =>
        obtain ⟨c, operands, span', rfl⟩ := Fragment.exists_emit_of_endsIn h.begins hends
        rw [Fragment.replaceLast_emit]
        exact h.toInPlace.replaceLast rfl
      · exact h.toInPlace
    exact hreplaced.returned span

end Recalls

/-! ### Both compilers -/

/-- The outcomes are the same failure, or related results in the same state. -/
inductive SameOutcome {α β : Type} (R : α → β → Prop) :
    Except (Located CompileError) (α × CompilerState) →
      Except (Located CompileError) (β × CompilerState) → Prop where
  | failed {e : Located CompileError} : SameOutcome R (.error e) (.error e)
  | done {a : α} {b : β} {st : CompilerState} : R a b → SameOutcome R (.ok (a, st)) (.ok (b, st))

/-- Two steps of the compiler do the same to names and constants, and their results are related. -/
def Parallel {α β : Type} (R : α → β → Prop) (x : Compile α) (y : Compile β) : Prop :=
  ∀ st, SameOutcome R (x.run st) (y.run st)

namespace Parallel

variable {α β γ δ : Type} {R : α → β → Prop} {S : γ → δ → Prop}

protected theorem pure {a : α} {b : β} (h : R a b) : Parallel R (pure a) (pure b) :=
  fun _ => .done h

protected theorem bind {x : Compile α} {y : Compile β} {f : α → Compile γ} {g : β → Compile δ}
    (h : Parallel R x y) (hf : ∀ a b, R a b → Parallel S (f a) (g b)) :
    Parallel S (x >>= f) (y >>= g) := by
  intro st
  have hst := h st
  rw [StateT.run_bind, StateT.run_bind]
  generalize x.run st = r at hst
  generalize y.run st = r' at hst
  cases hst with
  | failed => exact .failed
  | done hR => exact hf _ _ hR _

/-- Both take the same step. -/
theorem step {f : α → Compile γ} {g : α → Compile δ} (x : Compile α)
    (hf : ∀ a, Parallel S (f a) (g a)) : Parallel S (x >>= f) (x >>= g) := by
  intro st
  rw [StateT.run_bind, StateT.run_bind]
  cases x.run st with
  | error e => exact .failed
  | ok r => exact hf r.1 r.2

end Parallel

namespace Compile

variable {front buffer : Buffer} {code : Fragment}

theorem inPlace_load (h : InPlace front code buffer) (s : Symbol) (span : Span) :
    InPlace front (load s span code) (load s span buffer) := by
  rw [load, load]
  split <;> exact h.emit _ _ span

theorem inPlace_loadAll (h : InPlace front code buffer) (symbols : List Symbol) (span : Span) :
    InPlace front (symbols.foldl (fun code symbol => load symbol span code) code)
      (symbols.foldl (fun code symbol => load symbol span code) buffer) := by
  induction symbols generalizing code buffer with
  | nil => exact h
  | cons s rest ih => exact ih (inPlace_load h s span)

theorem recalls_assign (h : InPlace front code buffer) (s : Symbol) (span : Span) :
    Recalls front (assign s span code) (assign s span buffer) := by
  rw [assign, assign]
  split <;> exact .emit h _ _ span

theorem parallel_storeNew (h : InPlace front code buffer) (s : Symbol) (span : Span) :
    Parallel (Recalls front) (storeNew s span code) (storeNew s span buffer) := by
  rw [storeNew, storeNew]
  split
  · exact .step _ fun _ => .pure (.emit h _ _ span)
  · exact .step _ fun _ => .pure (.emit h _ _ span)

/-- A function with the same code is added to the pool. -/
theorem parallel_makeClosure {bodyCode : Fragment} {body : Buffer}
    (hbody : InPlace .empty bodyCode body) (h : InPlace front code buffer) (name? : Option String)
    (params : List Param) (table : ScopeTable) (span : Span) :
    Parallel (InPlace front) (makeClosure name? params bodyCode table span code)
      (makeClosure name? params body table span buffer) := by
  have hcode : (CodeBuilder.assemble bodyCode : Code) = CodeBuilder.assemble body := hbody.assemble
  rw [makeClosure, makeClosure, hcode]
  refine .step _ fun _ => .step _ fun _ => .step _ fun index => .step _ fun _ => .pure ?_
  exact (inPlace_loadAll h _ span).emit _ _ span

/-! ### Jumps -/

section Conditional

variable {c₁ c₂ c₃ : Fragment} {b₁ b₂ b₃ : Buffer} {span : Span}

theorem openThen_buffer (span : Span) (code : Buffer) :
    openThen span code = code.emit .jumpNotTruthy [Buffer.pendingJump] span := rfl

theorem openElse_buffer (span : Span) (code thenCode : Buffer) :
    openElse span code thenCode =
      (thenCode.emit .jump [Buffer.pendingJump] span).patchJump code.size .jumpNotTruthy := rfl

theorem jumpTarget_fragment (span : Span) (code target : Fragment) :
    jumpTarget span code target = ⟨target.stop, span⟩ := rfl

theorem jumpTarget_buffer (span : Span) (code target : Buffer) :
    jumpTarget span code target = ⟨target.size, target.code.spanAt code.size⟩ := rfl

theorem openThen_eq (h₁ : InPlace front c₁ b₁) :
    openThen span c₁ = Fragment.startingAt (openThen span b₁).size := by
  rw [openThen_buffer, Buffer.size_emit, h₁.size]
  rfl

theorem openElse_eq (h₂ : InPlace (openThen span b₁) c₂ b₂) :
    openElse span c₁ c₂ = Fragment.startingAt (openElse span b₁ b₂).size := by
  rw [openElse_buffer, Buffer.size_patchJump, Buffer.size_emit, h₂.size]
  rfl

/-- When the second arm is begun, the first jump leads there. -/
theorem inPlace_openElse (h₁ : InPlace front c₁ b₁) (h₂ : InPlace (openThen span b₁) c₂ b₂) :
    InPlace front ((c₁.emit .jumpNotTruthy [(openElse span b₁ b₂).size] span).append
      (c₂.emit .jump [Buffer.pendingJump] span)) (openElse span b₁ b₂) := by
  have hpending := ((h₁.emit .jumpNotTruthy [Buffer.pendingJump] span).append h₂).emit .jump
    [Buffer.pendingJump] span
  rw [← Fragment.append_emit] at hpending
  have hpatched := hpending.patch [(b₂.emit .jump [Buffer.pendingJump] span).size]
  rw [← h₁.size] at hpatched
  rw [openElse_buffer, Buffer.size_patchJump]
  exact hpatched

/-- When it is complete, the second jump leads to its end. -/
theorem inPlace_pendingElse (h₁ : InPlace front c₁ b₁) (h₂ : InPlace (openThen span b₁) c₂ b₂)
    (h₃ : InPlace (openElse span b₁ b₂) c₃ b₃) :
    InPlace front ((((c₁.emit .jumpNotTruthy [c₃.start] span).append c₂).emit .jump
      [Buffer.pendingJump] span).append c₃) b₃ := by
  have hopen := inPlace_openElse h₁ h₂
  rw [Fragment.append_emit, ← h₃.start] at hopen
  exact hopen.append h₃

theorem stop_thenArm (h₁ : InPlace front c₁ b₁) (h₂ : InPlace (openThen span b₁) c₂ b₂)
    (target : Nat) : ((c₁.emit .jumpNotTruthy [target] span).append c₂).stop = b₂.size := by
  have hbegins := h₂.begins
  rw [openThen_buffer, Buffer.size_emit, h₁.size] at hbegins
  rw [h₂.size]
  exact Fragment.stop_append (by rwa [Fragment.stop_emit])

theorem inPlace_joinArms (h₁ : InPlace front c₁ b₁) (h₂ : InPlace (openThen span b₁) c₂ b₂)
    (h₃ : InPlace (openElse span b₁ b₂) c₃ b₃) :
    InPlace front (c₁.joinArms span c₂ c₃) (joinArms span b₁ b₂ b₃) := by
  have hpatched := (inPlace_pendingElse h₁ h₂ h₃).patch [c₃.stop]
  rw [stop_thenArm h₁ h₂, ← h₃.size] at hpatched
  show InPlace front (c₁.joinArms span c₂ c₃) (b₃.patchJump b₂.size .jump)
  rw [Fragment.joinArms, ← h₃.size]
  exact hpatched

/-- The jumps are found at the span of the conditional when they are patched. -/
theorem jumpTarget_openElse (h₁ : InPlace front c₁ b₁)
    (h₂ : InPlace (openThen span b₁) c₂ b₂) :
    jumpTarget span c₁ (Fragment.startingAt (openElse span b₁ b₂).size) =
      jumpTarget span b₁ (openElse span b₁ b₂) := by
  rw [jumpTarget_fragment, jumpTarget_buffer, h₁.size, (inPlace_openElse h₁ h₂).spanAt,
    Fragment.stop_startingAt]

theorem jumpTarget_joinArms (h₁ : InPlace front c₁ b₁) (h₂ : InPlace (openThen span b₁) c₂ b₂)
    (h₃ : InPlace (openElse span b₁ b₂) c₃ b₃) :
    jumpTarget span c₂ c₃ = jumpTarget span b₂ b₃ := by
  rw [jumpTarget_fragment, jumpTarget_buffer, ← stop_thenArm h₁ h₂,
    (inPlace_pendingElse h₁ h₂ h₃).spanAt, h₃.size]

theorem parallel_conditional {condition : Expr} {thenBranch : Block} {elseBranch : Option Block}
    (hcondition : ∀ {front code buffer}, InPlace front code buffer →
      Parallel (InPlace front) (expr condition code) (expr condition buffer))
    (hthen : ∀ front : Buffer, Parallel (InPlace front)
      (block .arm thenBranch (Fragment.startingAt front.size)) (block .arm thenBranch front))
    (helse : ∀ front : Buffer, Parallel (InPlace front)
      (alternative elseBranch span (Fragment.startingAt front.size))
      (alternative elseBranch span front)) (h : InPlace front code buffer) :
    Parallel (InPlace front) (expr (.conditional condition thenBranch elseBranch span) code)
      (expr (.conditional condition thenBranch elseBranch span) buffer) := by
  rw [expr, expr]
  refine (hcondition h).bind fun c₁ b₁ h₁ => ?_
  rw [openThen_eq h₁]
  refine (hthen _).bind fun c₂ b₂ h₂ => ?_
  rw [openElse_eq h₂]
  dsimp only
  rw [jumpTarget_openElse h₁ h₂]
  refine .step _ fun _ => ?_
  refine (helse _).bind fun c₃ b₃ h₃ => ?_
  rw [jumpTarget_joinArms h₁ h₂ h₃]
  exact .step _ fun _ => .pure (inPlace_joinArms h₁ h₂ h₃)

end Conditional

/-! ### Trees -/

mutual

theorem parallel_expr : ∀ (e : Expr) {front code buffer},
    InPlace front code buffer → Parallel (InPlace front) (expr e code) (expr e buffer)
  | .identifier name span, _, _, _, h => by
    rw [expr, expr]
    exact .step _ fun s => .pure (inPlace_load h s span)
  | .integer _ span, _, _, _, h | .float _ span, _, _, _, h | .string _ span, _, _, _, h => by
    rw [expr, expr]
    exact .step _ fun _ => .pure (h.emit _ _ span)
  | .boolean _ span, _, _, _, h | .null span, _, _, _, h => by
    rw [expr, expr]
    exact .pure (h.emit _ _ span)
  | .unary op operand span, _, _, _, h => by
    rw [expr, expr]
    exact (parallel_expr operand h).bind fun _ _ h => .pure (h.emit _ _ span)
  | .binary op left right span, _, _, _, h => by
    rw [expr, expr]
    obtain ⟨opcode, exchanged⟩ := binaryOpcode op
    cases exchanged with
    | true =>
      refine (parallel_expr right h).bind fun _ _ h => ?_
      exact (parallel_expr left h).bind fun _ _ h => .pure (h.emit _ _ span)
    | false =>
      refine (parallel_expr left h).bind fun _ _ h => ?_
      exact (parallel_expr right h).bind fun _ _ h => .pure (h.emit _ _ span)
  | .conditional condition thenBranch elseBranch span, _, _, _, h =>
    parallel_conditional (fun h => parallel_expr condition h) (parallel_block .arm thenBranch)
      (parallel_alternative elseBranch span) h
  | .function name? params body span, _, _, _, h => by
    rw [expr, expr]
    refine .step _ fun _ => .step _ fun _ => ?_
    refine (parallel_block .body body .empty).bind fun _ _ hbody => .step _ fun table => ?_
    exact parallel_makeClosure hbody h name? params table span
  | .call callee args span, _, _, _, h => by
    rw [expr, expr]
    refine .step _ fun _ => ?_
    have hcallee := parallel_expr callee h
    -- a callee that is a name is resolved for the call, any other one is compiled as a value
    cases callee with
    | identifier name nameSpan =>
      refine .step _ fun s => (Parallel.pure (inPlace_load h s nameSpan)).bind fun _ _ h => ?_
      exact (parallel_exprs args h).bind fun _ _ h => .pure (h.emit _ _ span)
    | _ =>
      refine hcallee.bind fun _ _ h => ?_
      exact (parallel_exprs args h).bind fun _ _ h => .pure (h.emit _ _ span)
  | .array elements span, _, _, _, h => by
    rw [expr, expr]
    refine (parallel_exprs elements h).bind fun _ _ h => ?_
    exact .step _ fun _ => .pure (h.emit _ _ span)
  | .hash pairs span, _, _, _, h => by
    rw [expr, expr]
    refine (parallel_entries pairs h).bind fun _ _ h => ?_
    exact .step _ fun _ => .pure (h.emit _ _ span)
  | .index object index span, _, _, _, h => by
    rw [expr, expr]
    refine (parallel_expr object h).bind fun _ _ h => ?_
    exact (parallel_expr index h).bind fun _ _ h => .pure (h.emit _ _ span)

theorem parallel_exprs : ∀ (es : List Expr) {front code buffer},
    InPlace front code buffer → Parallel (InPlace front) (exprs es code) (exprs es buffer)
  | [], _, _, _, h => by
    rw [exprs, exprs]
    exact .pure h
  | e :: rest, _, _, _, h => by
    rw [exprs, exprs]
    exact (parallel_expr e h).bind fun _ _ h => parallel_exprs rest h

theorem parallel_entries : ∀ (pairs : List (Expr × Expr)) {front code buffer},
    InPlace front code buffer →
      Parallel (InPlace front) (entries pairs code) (entries pairs buffer)
  | [], _, _, _, h => by
    rw [entries, entries]
    exact .pure h
  | (key, value) :: rest, _, _, _, h => by
    rw [entries, entries]
    refine (parallel_expr key h).bind fun _ _ h => ?_
    exact (parallel_expr value h).bind fun _ _ h => parallel_entries rest h

theorem parallel_alternative : ∀ (arm : Option Block) (span : Span) (front : Buffer),
    Parallel (InPlace front) (alternative arm span (Fragment.startingAt front.size))
      (alternative arm span front)
  | none, span, front => by
    rw [alternative, alternative]
    exact .pure ((InPlace.nothing front).emit _ _ span)
  | some arm, span, front => by
    rw [alternative, alternative]
    exact parallel_block .arm arm front

theorem parallel_block : ∀ (purpose : Purpose) (b : Block) (front : Buffer),
    Parallel (InPlace front) (block purpose b (Fragment.startingAt front.size))
      (block purpose b front)
  | purpose, .mk statements span, front => by
    rw [block, block]
    refine (parallel_stmts statements (Recalls.nothing front)).bind fun _ _ h => ?_
    exact .pure (h.finish purpose span)

theorem parallel_stmts : ∀ (statements : List Stmt) {front code buffer},
    Recalls front code buffer →
      Parallel (Recalls front) (stmts statements code) (stmts statements buffer)
  | [], _, _, _, h => by
    rw [stmts, stmts]
    exact .pure h
  | s :: rest, _, _, _, h => by
    rw [stmts, stmts]
    exact (parallel_stmt s h.toInPlace).bind fun _ _ h => parallel_stmts rest h

/-- A statement ends with an instruction of its own, so the one before it is remembered. -/
theorem parallel_stmt : ∀ (s : Stmt) {front code buffer},
    InPlace front code buffer → Parallel (Recalls front) (stmt s code) (stmt s buffer)
  | .expression e span, _, _, _, h => by
    rw [stmt, stmt]
    exact (parallel_expr e h).bind fun _ _ h => .pure (.emit h _ _ span)
  | .declare mutability name value span, _, _, _, h => by
    rw [stmt, stmt]
    refine .step _ fun s => ?_
    exact (parallel_expr value h).bind fun _ _ h => parallel_storeNew h s span
  | .assign name value span, _, _, _, h => by
    rw [stmt, stmt]
    refine .step _ fun s => ?_
    exact (parallel_expr value h).bind fun _ _ h => .pure (recalls_assign h s span)
  | .ret none span, _, _, _, h => by
    rw [stmt, stmt]
    exact .pure (.emit h _ _ span)
  | .ret (some value) span, _, _, _, h => by
    rw [stmt, stmt]
    exact (parallel_expr value h).bind fun _ _ h => .pure (.emit h _ _ span)

end

end Compile

/-- Code that is written in place, with jumps that are patched and pops that are taken back, is the
code that is built from fragments. -/
theorem compileInto_buffer (st : CompilerState) (ast : Ast) :
    compileInto Buffer st ast = compileFrom st ast := by
  have hsame := Compile.parallel_stmts ast.statements (Recalls.nothing .empty) st
  rw [compileFrom]
  generalize hfragment : (Compile.stmts ast.statements _ : Compile Fragment).run st = r at hsame
  generalize hbuffer : (Compile.stmts ast.statements _ : Compile Buffer).run st = r' at hsame
  cases hsame with
  | failed => rw [compileInto_of_error hfragment, compileInto_of_error hbuffer]
  | @done code buffer st₁ h =>
    have hcode : (CodeBuilder.assemble code : Code) = CodeBuilder.assemble buffer := h.assemble
    rw [compileInto_of_ok hfragment, compileInto_of_ok hbuffer, hcode]

end Bytescript

/-
Well-formed code.

`Code.Boundary` are the offsets that are come to when code is read from its beginning, instruction
by instruction. `Code.WellFormed` says that the whole code is read in this way, that its jumps lead
forward to such offsets, and that its operands are indices of what there is; `Program.WellFormed`
says so of the main code and of all functions of the pool.

Main statement: `compiled_wellFormed`, for programs that are compiled at the start or after others.
-/
import Bytescript.Proofs.Incremental
import Bytescript.Proofs.Parts

namespace Bytescript

/-! ### Reading code -/

namespace Code

/-- The offsets that are come to when code is read from its beginning. -/
inductive Boundary (code : Code) : Nat → Prop where
  | start : code.Boundary 0
  | next {offset : Nat} {i : Instruction} : code.Boundary offset →
      Instruction.decodeAt code.bytes offset = some (.ok i) →
      code.Boundary (offset + i.opcode.width)

/-- The instruction is read at the offset, when code is read from its beginning. -/
structure Contains (code : Code) (offset : Nat) (i : Instruction) : Prop where
  boundary : code.Boundary offset
  decodes : Instruction.decodeAt code.bytes offset = some (.ok i)

/-- The code consists of complete instructions. Its jumps lead forward to the beginning of an
instruction or to the end, and its operands are indices of constants of the right kind, of the local
slots and of built-in functions. A closure captures as many values as its function reads. -/
structure WellFormed (pool : Array Constant) (locals : Nat) (code : Code) : Prop where
  spans : code.spans.size = code.bytes.size
  tiled : code.Boundary code.bytes.size
  readable : ∀ {offset : Nat}, code.Boundary offset → offset ≠ code.bytes.size →
    ∃ i, code.Contains offset i
  jumps : ∀ {offset : Nat} {i : Instruction}, code.Contains offset i →
    i.opcode = .jump ∨ i.opcode = .jumpNotTruthy →
    ∃ target, i.operands = [target] ∧ offset < target ∧ target ≤ code.bytes.size ∧
      code.Boundary target
  constants : ∀ {offset : Nat} {i : Instruction}, code.Contains offset i → i.opcode = .constant →
    ∃ n c, i.operands = [n] ∧ pool[n]? = some c ∧ ∀ f, c ≠ .function f
  closures : ∀ {offset : Nat} {i : Instruction}, code.Contains offset i → i.opcode = .closure →
    ∃ n count f, i.operands = [n, count] ∧ pool[n]? = some (.function f) ∧
      ∀ {offset' : Nat} {j : Instruction}, f.code.Contains offset' j → j.opcode = .getFree →
        ∃ k, j.operands = [k] ∧ k < count
  slots : ∀ {offset : Nat} {i : Instruction}, code.Contains offset i →
    i.opcode = .getLocal ∨ i.opcode = .setLocal ∨ i.opcode = .assignLocal →
    ∃ n, i.operands = [n] ∧ n < locals
  builtins : ∀ {offset : Nat} {i : Instruction}, code.Contains offset i →
    i.opcode = .getBuiltin → ∃ n, i.operands = [n] ∧ n < 6

end Code

/-- The last instruction of a function returns. -/
def FunctionCode.EndsInReturn (f : FunctionCode) : Prop :=
  ∃ offset i, f.code.Contains offset i ∧ (i.opcode = .returnValue ∨ i.opcode = .ret) ∧
    offset + i.opcode.width = f.code.bytes.size

/-- The main code and all functions of the pool are well-formed. -/
structure Program.WellFormed (p : Program) : Prop where
  main : p.code.WellFormed p.constants 0
  main_unframed : ∀ {offset : Nat} {i : Instruction}, p.code.Contains offset i →
    i.opcode ∉ [Opcode.getLocal, .setLocal, .assignLocal, .getFree, .currentClosure]
  functions : ∀ {f : FunctionCode}, .function f ∈ p.constants.toList →
    f.code.WellFormed p.constants f.locals ∧ f.EndsInReturn ∧ f.params ≤ f.locals ∧ f.locals ≤ 256

/-! ### Code with a list of instructions -/

/-- The code is the bytes of the instructions `is`, and each of them is read where it stands. -/
structure Code.Lists (code : Code) (is : List (Located Instruction)) : Prop where
  bytes : code.bytes.toList = encodeAll is
  decodes : ∀ {k : Nat} {i : Located Instruction}, is[k]? = some i →
    Instruction.decodeAt code.bytes (offsetAt is k) = some (.ok i.value)

namespace Code.Lists

variable {code : Code} {is : List (Located Instruction)} {offset : Nat}

theorem of_compiled {l : Limits} (hbytes : code.bytes.toList = encodeAll is)
    (htargets : TargetsFit 0 is) (h : Compiled l is) : code.Lists is where
  bytes := hbytes
  decodes hi := by
    have hdecode := (Code.Has.of_bytes hbytes htargets).decodeAt h hi
    rwa [Nat.zero_add, Instruction.moved_zero] at hdecode

theorem size (h : code.Lists is) : code.bytes.size = (encodeAll is).length := by
  rw [← Array.length_toList, h.bytes]

/-- Reading comes to the instructions of the list. -/
theorem boundary_iff (h : code.Lists is) :
    code.Boundary offset ↔ ∃ k, k ≤ is.length ∧ offset = offsetAt is k := by
  constructor
  · intro hoffset
    induction hoffset with
    | start => exact ⟨0, Nat.zero_le _, rfl⟩
    | @next offset i _ hdecodes ih =>
      obtain ⟨k, hk, rfl⟩ := ih
      by_cases hlt : k < is.length
      · have hi := List.getElem?_eq_getElem hlt
        have hread := h.decodes hi
        rw [hdecodes] at hread
        cases hread
        exact ⟨k + 1, hlt, (offsetAt_succ hi).symm⟩
      · -- nothing is read at the end
        obtain rfl : k = is.length := by omega
        rw [offsetAt_length, ← h.size, Instruction.decodeAt] at hdecodes
        simp at hdecodes
  · rintro ⟨k, hk, rfl⟩
    induction k with
    | zero => exact .start
    | succ k ih =>
      have hi := List.getElem?_eq_getElem hk
      rw [offsetAt_succ hi]
      exact (ih (by omega)).next (h.decodes hi)

theorem contains_iff (h : code.Lists is) {i : Instruction} :
    code.Contains offset i ↔ ∃ k span, is[k]? = some ⟨i, span⟩ ∧ offset = offsetAt is k := by
  constructor
  · rintro ⟨hboundary, hdecodes⟩
    obtain ⟨k, hk, rfl⟩ := h.boundary_iff.mp hboundary
    by_cases hlt : k < is.length
    · have hi := List.getElem?_eq_getElem hlt
      have hread := h.decodes hi
      rw [hdecodes] at hread
      cases hread
      exact ⟨k, _, hi, rfl⟩
    · obtain rfl : k = is.length := by omega
      rw [offsetAt_length, ← h.size, Instruction.decodeAt] at hdecodes
      simp at hdecodes
  · rintro ⟨k, span, hi, rfl⟩
    have hlt := (List.getElem?_eq_some_iff.mp hi).1
    exact ⟨h.boundary_iff.mpr ⟨k, Nat.le_of_lt hlt, rfl⟩, h.decodes hi⟩

end Code.Lists

theorem Instruction.opcode_eq_of_encode {i j : Instruction} (h : i.encode = j.encode) :
    i.opcode = j.opcode := by
  have hbyte : i.opcode.toByte = j.opcode.toByte := (List.cons.inj h).1
  have := Opcode.ofByte?_toByte i.opcode
  rw [hbyte, Opcode.ofByte?_toByte] at this
  exact (Option.some.inj this).symm

/-- Instructions whose operands fit are told apart by their bytes. -/
theorem Instruction.eq_of_encode {i j : Instruction} (hi : i.Fits) (hj : j.Fits)
    (h : i.encode = j.encode) : i = j := by
  have hall : i.encode.toArray.toList = [] ++ i.encode ++ [] := by simp
  have hstands : StandsAt i.encode.toArray 0 i.encode := .of_toList hall
  have hread := decodeAt_encode hi hstands
  rw [decodeAt_encode hj (h ▸ hstands)] at hread
  cases hread
  rfl

/-- The same bytes are divided into instructions in one way. -/
theorem getElem?_of_encodeAll_eq {is js : List (Located Instruction)} {k : Nat}
    {i : Located Instruction} (h : encodeAll is = encodeAll js) (hi : is[k]? = some i) :
    ∃ j, js[k]? = some j ∧ i.value.encode = j.value.encode := by
  induction is generalizing js k with
  | nil => simp at hi
  | cons i' is ih =>
    cases js with
    | nil => simp [encodeAll, Instruction.encode] at h
    | cons j' js =>
      have hsplit : i'.value.encode ++ encodeAll is = j'.value.encode ++ encodeAll js := h
      -- the first byte gives the opcode, and that the length of the instruction
      have hopcode : i'.value.opcode = j'.value.opcode := by
        have hbyte := congrArg List.head? hsplit
        have := Opcode.ofByte?_toByte i'.value.opcode
        rw [show i'.value.opcode.toByte = j'.value.opcode.toByte from Option.some.inj hbyte,
          Opcode.ofByte?_toByte] at this
        exact (Option.some.inj this).symm
      have hlength : i'.value.encode.length = j'.value.encode.length := by
        rw [Instruction.length_encode, Instruction.length_encode, hopcode]
      obtain ⟨hhead, htail⟩ := List.append_inj hsplit hlength
      cases k with
      | zero =>
        cases hi
        exact ⟨j', rfl, hhead⟩
      | succ k =>
        obtain ⟨j, hj, hencode⟩ := ih htail hi
        exact ⟨j, hj, hencode⟩

/-! ### Compiled code is well-formed -/

/-- The code of the function was compiled within some limits. -/
def FunctionCode.WithinLimits (f : FunctionCode) : Prop :=
  ∃ l is, f.code.bytes.toList = encodeAll is ∧ TargetsFit 0 is ∧ Compiled l is

/-- What a function reads of its captured values is seen when its code is read. -/
theorem FunctionCode.Reads.of_contains {f : FunctionCode} {count : Nat} (h : f.Reads count)
    (hcount : count ≤ Compile.maxNarrow) (hf : f.WithinLimits) {offset : Nat} {j : Instruction}
    (hj : f.code.Contains offset j) (hget : j.opcode = .getFree) :
    ∃ k, j.operands = [k] ∧ k < count := by
  obtain ⟨l, js, hbytes, htargets, hjs⟩ := hf
  obtain ⟨k, span, hk, -⟩ := (Code.Lists.of_compiled hbytes htargets hjs).contains_iff.mp hj
  obtain ⟨read, hread, hcaptured⟩ := h
  obtain ⟨j', hj', hencode⟩ := getElem?_of_encodeAll_eq (hbytes.symm.trans hread) hk
  have hopcode := Instruction.opcode_eq_of_encode hencode
  obtain ⟨n, hn, hlt⟩ := hcaptured j' (List.mem_of_getElem? hj') (hopcode.symm.trans hget)
  refine ⟨n, ?_, hlt⟩
  have hfits : j.Fits := by
    refine (hjs.proper _ (List.mem_of_getElem? hk)).fits hjs.narrow fun hjump => ?_
    rw [show j.opcode = .getFree from hget] at hjump
    cases hjump
  -- both operands fit into their byte, so the bytes determine them
  have hfits' : j'.value.Fits := by
    obtain ⟨⟨op, operands⟩, span'⟩ := j'
    obtain rfl : op = .getFree := hopcode.symm.trans hget
    cases hn
    have : Compile.maxNarrow = 255 := rfl
    exact Instruction.fits_narrow rfl (by omega)
  rw [Instruction.eq_of_encode hfits hfits' hencode]
  exact hn

theorem Code.wellFormed_of_compiled {code : Code} {l : Limits} {is : List (Located Instruction)}
    {pool : Array Constant} (hspans : code.spans.size = code.bytes.size)
    (hbytes : code.bytes.toList = encodeAll is) (htargets : TargetsFit 0 is) (his : Compiled l is)
    (hpool : l.pool = pool.toList) (hfunctions : ∀ f, .function f ∈ pool.toList → f.WithinLimits) :
    code.WellFormed pool l.locals := by
  have hlists := Code.Lists.of_compiled hbytes htargets his
  -- what the bytes contain at a boundary is one of the instructions they were assembled from
  have hproper : ∀ {offset i}, code.Contains offset i → i.Proper l := by
    intro offset i hi
    obtain ⟨k, span, hi, -⟩ := hlists.contains_iff.mp hi
    exact his.proper _ (List.mem_of_getElem? hi)
  constructor
  case spans => exact hspans
  case tiled =>
    refine hlists.boundary_iff.mpr ⟨is.length, Nat.le_refl _, ?_⟩
    rw [offsetAt_length, hlists.size]
  case readable =>
    intro offset hoffset hne
    obtain ⟨k, hk, rfl⟩ := hlists.boundary_iff.mp hoffset
    have hlt : k < is.length := by
      refine Nat.lt_of_le_of_ne hk ?_
      rintro rfl
      rw [offsetAt_length, hlists.size] at hne
      exact hne rfl
    exact ⟨_, hlists.contains_iff.mpr ⟨k, _, List.getElem?_eq_getElem hlt, rfl⟩⟩
  case jumps =>
    intro offset i hi hop
    obtain ⟨k, span, hk, rfl⟩ := hlists.contains_iff.mp hi
    obtain ⟨k', hlt, hle, hoperands, -⟩ := (his.balanced hk).target (Opcode.isJump_iff.mpr hop)
    refine ⟨_, hoperands, offsetAt_lt hlt hle, ?_, hlists.boundary_iff.mpr ⟨k', hle, rfl⟩⟩
    rw [hlists.size]
    exact offsetAt_le is k'
  case constants =>
    rintro offset ⟨op, operands⟩ hi rfl
    have hi := hproper hi
    cases hi with
    | @constant n c _ hc hf =>
      rw [hpool, Array.getElem?_toList] at hc
      exact ⟨n, c, rfl, hc, hf⟩
    | global hop | slot hop => simp at hop
    | jump _ hop | simple hop => cases hop
  case closures =>
    rintro offset ⟨op, operands⟩ hi rfl
    have hi := hproper hi
    cases hi with
    | @closure n count f _ hcount hf hreads =>
      have hmem := List.mem_of_getElem? hf
      rw [hpool] at hmem
      rw [hpool, Array.getElem?_toList] at hf
      exact ⟨n, count, f, rfl, hf, hreads.of_contains hcount (hfunctions f hmem)⟩
    | global hop | slot hop => simp at hop
    | jump _ hop | simple hop => cases hop
  case slots =>
    intro offset i hi hop
    have hi := hproper hi
    cases hi with
    | @slot op n _ hn => exact ⟨n, rfl, hn⟩
    | simple hwidths => rcases hop with rfl | rfl | rfl <;> cases hwidths
    | global hop' => rcases hop' with rfl | rfl | rfl <;> simp at hop
    | jump _ hop' => rcases hop with rfl | rfl | rfl <;> cases hop'
    | constant | closure | captured | builtin | self | array | hash | call => simp at hop
  case builtins =>
    rintro offset ⟨op, operands⟩ hi rfl
    have hi := hproper hi
    cases hi with
    | @builtin n b hb => exact ⟨n, rfl, (Array.getElem?_eq_some_iff.mp hb).1⟩
    | global hop | slot hop => simp at hop
    | jump _ hop | simple hop => cases hop

/-- Assembled code has a span for each byte. -/
theorem Fragment.spans_assemble (code : Fragment) :
    code.assemble.spans.size = code.assemble.bytes.size := by
  rw [← Array.length_toList, ← Array.length_toList, toList_spans_assemble, bytes_assemble,
    length_spansOf]

/-! ### Functions end -/

/-- The code is assembled from instructions the last of which returns. -/
def FunctionCode.IsEnded (f : FunctionCode) : Prop :=
  ∃ code is i, f.code = Fragment.assemble code ∧ code.instructions.toList = is ++ [i] ∧
    (i.value.opcode = .returnValue ∨ i.value.opcode = .ret)

namespace Compile

/-- The code of a body ends in a return. -/
theorem exists_return_of_block {b : Block} {code code₁ : Fragment} {st st₁ : CompilerState}
    (h : (block .body b code).run st = .ok (code₁, st₁)) :
    ∃ is i, code₁.instructions.toList = is ++ [i] ∧
      (i.value.opcode = .returnValue ∨ i.value.opcode = .ret) := by
  have hemit : ∀ (code : Fragment) {op : Opcode} (operands : List Nat) (span : Span),
      op = .returnValue ∨ op = .ret → ∃ is i,
        (code.emit op operands span).instructions.toList = is ++ [i] ∧
          (i.value.opcode = .returnValue ∨ i.value.opcode = .ret) := by
    intro code op operands span hop
    exact ⟨code.instructions.toList, ⟨⟨op, operands⟩, span⟩, by simp [Fragment.emit], hop⟩
  obtain ⟨statements, span⟩ := b
  rw [block, bind_ok] at h
  obtain ⟨c, st', hrun, h⟩ := h
  obtain ⟨rfl, rfl⟩ := pure_ok.mp h
  obtain rfl | ⟨c', op, operands, span', hbegins, rfl⟩ :=
    ((adds_stmts statements).begins hrun).eq_or_emit
  · rw [finish_self]
    exact hemit _ _ _ (.inr rfl)
  · rw [finish_body_emit hbegins]
    split
    · exact hemit _ _ _ (.inl rfl)
    · split
      · next hop => exact hemit _ _ _ hop
      · exact hemit _ _ _ (.inr rfl)

theorem constants_withScopes {α : Type} {operation : Scopes → Except ScopeError (α × Scopes)}
    {span : Span} {a : α} {st st₁ : CompilerState}
    (h : (withScopes operation span).run st = .ok (a, st₁)) : st₁.constants = st.constants := by
  obtain ⟨scopes, -, rfl⟩ := withScopes_ok.mp h
  rfl

/-- All functions of the pool end in a return. -/
theorem kept_isEnded :
    Kept fun st => ∀ f, .function f ∈ st.constants.toList → f.IsEnded where
  resolve _ h hst := by
    rw [constants_withScopes h]
    exact hst
  declareName _ h hst := by
    obtain ⟨-, t, -, rfl⟩ := declareName_ok h
    exact hst
  addConstant _ hc h hst := by
    obtain ⟨-, -, rfl⟩ := addConstant_ok.mp h
    intro f hf
    rw [Array.toList_push, List.mem_append, List.mem_singleton] at hf
    exact hst f (hf.resolve_right fun h => hc f h.symm)
  enterFunction hvalid h hst := by
    obtain ⟨t, -, rfl⟩ := enterFunction_ok h hvalid.sound
    exact hst
  leave := by
    intro name? params body bodyCode entered last _ hbody hlast f hf
    rw [Array.toList_push, List.mem_append, List.mem_singleton] at hf
    rcases hf with hf | hf
    · exact hlast f hf
    · cases hf
      obtain ⟨is, i, his, hi⟩ := exists_return_of_block hbody
      exact ⟨bodyCode, is, i, rfl, his, hi⟩

end Compile

theorem CompilerState.Reachable.isEnded {st : CompilerState} (h : st.Reachable) {f : FunctionCode}
    (hf : .function f ∈ st.constants.toList) : f.IsEnded := by
  induction h generalizing f with
  | init => simp at hf
  | @compile st st₁ ast p hst hcompile ih =>
    have hready := hst.ready
    obtain ⟨code, hrun, -⟩ := Compile.compileFrom_ok hcompile hready.valid.sound hready.outer
    have hkept := Compile.kept_isEnded.compile (t := .program ast.statements) hrun hready.valid
    exact hkept (fun f hf => ih hf) f hf

/-- The return is read at the end of the code. -/
theorem FunctionCode.IsEnded.endsInReturn {f : FunctionCode} (h : f.IsEnded) (hf : f.WithinLimits) :
    f.EndsInReturn := by
  obtain ⟨code, is, i, hcode, his, hi⟩ := h
  obtain ⟨l, js, hbytes, htargets, hjs⟩ := hf
  have hlists := Code.Lists.of_compiled hbytes htargets hjs
  have hsame : encodeAll (is ++ [i]) = encodeAll js := by
    rw [← his, ← Fragment.bytes_assemble, ← hcode, hbytes]
  obtain ⟨j, hj, hencode⟩ := getElem?_of_encodeAll_eq (k := is.length) (i := i) hsame (by simp)
  have hopcode := Instruction.opcode_eq_of_encode hencode
  obtain ⟨j, span⟩ := j
  refine ⟨_, j, hlists.contains_iff.mpr ⟨is.length, span, hj, rfl⟩, hopcode ▸ hi, ?_⟩
  -- there are as many instructions in both lists
  have hlength : js.length = is.length + 1 := by
    refine Nat.le_antisymm ?_ (List.getElem?_eq_some_iff.mp hj).1
    refine Nat.le_of_not_lt fun hlt => ?_
    obtain ⟨_, hextra, -⟩ := getElem?_of_encodeAll_eq hsame.symm (List.getElem?_eq_getElem hlt)
    simp at hextra
  have hsucc := offsetAt_succ hj
  rw [← hlength, offsetAt_length, ← hlists.size] at hsucc
  exact hsucc.symm

/-- Compiled programs are well-formed: the main code and all functions of the pool, also those of
programs before, consist of complete instructions with spans, their jumps lead forward to
instructions, and their operands are indices of what there is. -/
theorem compiled_wellFormed {st st₁ : CompilerState} (hst : st.Reachable) {ast : Ast} {p : Program}
    (h : compileFrom st ast = .ok (p, st₁)) : p.WellFormed := by
  have hready := hst.ready
  obtain ⟨code, -, -, -, -, hp⟩ := Compile.compileFrom_ok h hready.valid.sound hready.outer
  obtain ⟨hready₁, hconstants, is, hemitted, hbytes, htargets⟩ := hready.compile h
  have hlimits := hready₁.limits_eq
  have hcompiled : Compiled st₁.limits is := by
    refine ⟨?_, hemitted.balanced, hemitted.proper⟩
    rw [hlimits]
    exact ⟨hready₁.limit, Nat.zero_le _, Nat.zero_le _⟩
  have hchecked : ∀ {f}, .function f ∈ p.constants.toList → ∃ count is,
      f.code.bytes.toList = encodeAll is ∧ TargetsFit 0 is ∧
        Compiled ⟨p.constants.toList, st₁.scopes.root.definitions, f.locals, count, true⟩ is ∧
        f.params ≤ f.locals ∧ f.locals ≤ Compile.maxNarrow + 1 := by
    intro f hf
    rw [hconstants] at hf ⊢
    obtain ⟨count, hchecked⟩ := hready₁.valid.functions f hf
    obtain ⟨js, hbytes, hbalanced, hproper, htargets⟩ := hchecked.body
    refine ⟨count, js, hbytes, htargets, ⟨⟨?_, hchecked.locals, ?_⟩, hbalanced, hproper⟩,
      hchecked.params, hchecked.locals⟩
    · show st₁.scopes.root.definitions ≤ Scopes.globalLimit
      rw [Scopes.root, hready₁.outer]
      exact hready₁.limit
    · exact Nat.le_succ_of_le hchecked.captures
  have hwithin : ∀ f, .function f ∈ p.constants.toList → f.WithinLimits := by
    intro f hf
    obtain ⟨count, js, hbytes, htargets, hjs, -⟩ := hchecked hf
    exact ⟨_, js, hbytes, htargets, hjs⟩
  have hassembled : p.code.spans.size = p.code.bytes.size := by
    rw [hp]
    exact code.spans_assemble
  constructor
  case main =>
    have hmain : p.code.WellFormed p.constants st₁.limits.locals :=
      Code.wellFormed_of_compiled hassembled hbytes htargets hcompiled (by rw [hconstants]; rfl)
        hwithin
    rwa [hlimits] at hmain
  case main_unframed =>
    intro offset i hi
    obtain ⟨k, span, hi, -⟩ :=
      (Code.Lists.of_compiled hbytes htargets hcompiled).contains_iff.mp hi
    have hproper := hemitted.proper _ (List.mem_of_getElem? hi)
    rw [hlimits] at hproper
    cases hproper with
    | slot _ hn | captured hn => exact absurd hn (Nat.not_lt_zero _)
    | self hself => cases hself
    | global hop => rcases hop with rfl | rfl | rfl <;> simp
    | jump _ hop => rcases Opcode.isJump_iff.mp hop with rfl | rfl <;> simp
    | simple hop hne =>
      intro hmem
      simp only [List.mem_cons, List.not_mem_nil, or_false] at hmem
      rcases hmem with rfl | rfl | rfl | rfl | rfl
      · cases hop
      · cases hop
      · cases hop
      · cases hop
      · exact hne rfl
    | constant | closure | builtin | array | hash | call => simp
  case functions =>
    intro f hf
    obtain ⟨count, js, hbytes, htargets, hjs, hparams, hlocals⟩ := hchecked hf
    have hended := (hst.compile h).isEnded (hconstants ▸ hf)
    refine ⟨?_, hended.endsInReturn (hwithin f hf), hparams, hlocals⟩
    obtain ⟨bodyCode, -, -, hcode, -⟩ := hended
    refine Code.wellFormed_of_compiled ?_ hbytes htargets hjs rfl hwithin
    rw [hcode]
    exact bodyCode.spans_assemble

/-- `let f = fn(x) { fn() { if (x) { x } } };`: a function that captures, with jumps in its code. -/
def nestedChoice : Ast :=
  let choice : Expr := .conditional (.identifier "x" {})
    (.mk [.expression (.identifier "x" {}) {}] {}) none {}
  let inner : Expr := .function none [] (.mk [.expression choice {}] {}) {}
  ⟨[.declare .constant "f" (.function (some "f") [⟨"x", {}⟩] (.mk [.expression inner {}] {}) {}) {}]⟩

/-- `f(true)`, after the declaration of `f`. -/
def callOfChoice : Ast :=
  ⟨[.expression (.call (.identifier "f" {}) [.boolean true {}] {}) {}]⟩

theorem sizes_callOfChoice : ((compileFrom {} nestedChoice).toOption.bind fun r =>
    (compileFrom r.2 callOfChoice).toOption.map fun r' =>
      (r'.1.code.bytes.size, r'.1.constants.size)) = some (7, 2) := by
  decide +kernel

/-- The functions of the first program are in the pool of the second. -/
theorem callOfChoice_wellFormed : ∃ p st q st', compileFrom {} nestedChoice = .ok (p, st) ∧
    compileFrom st callOfChoice = .ok (q, st') ∧ q.code.bytes.size = 7 ∧ q.constants.size = 2 ∧
    q.WellFormed := by
  obtain ⟨⟨p, st⟩, hp, h⟩ := Option.bind_eq_some_iff.mp sizes_callOfChoice
  obtain ⟨⟨q, st'⟩, hq, h⟩ := Option.map_eq_some_iff.mp h
  have hp' := eq_ok_of_toOption hp
  have hq' := eq_ok_of_toOption hq
  obtain ⟨hbytes, hconstants⟩ := Prod.mk.inj h
  exact ⟨p, st, q, st', hp', hq', hbytes, hconstants, compiled_wellFormed (.compile .init hp') hq'⟩

end Bytescript

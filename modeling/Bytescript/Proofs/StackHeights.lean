/-
Expressions leave one value on the stack, and statements leave none.

What a call has on the stack besides its locals are the operands of expressions that are not
complete yet. While the code of a part is run through, these are not touched: instructions find
their operands above them, and so do the calls that are made on the way.

* `Stretch` — the code of a part among the instructions of a call;
* `Walk` — a call that has come to a stretch, with what it has on the stack there. `Walk.Keeps` is
  what is known of the call on its way: it lasts from turn to turn;
* `Walk.arrives` — what is on the stack when the call comes to a place in the stretch.

Main statement: `stack_heights`, for all programs that were compiled, at the start or after other
programs, and for all calls that their runs make.

Design notes: the call is told from those that it makes by its base, as theirs lie further up.
-/
import Bytescript.Proofs.Isolation
import Bytescript.Proofs.Provenance
import Bytescript.Proofs.WellFormed

namespace Bytescript

/-! ### Listings of the same code -/

section

variable {f : FunctionCode} {is js : List (Located Instruction)}

theorem FunctionCode.Lists.fits (h : f.Lists is) {i : Located Instruction} (hi : i ∈ is) :
    i.value.Fits := by
  obtain ⟨l, -, hcompiled⟩ := h.compiled
  exact (hcompiled.proper i hi).fits hcompiled.narrow (h.targets i hi)

/-- The instructions of a code are known from its bytes, up to their spans. -/
theorem FunctionCode.Lists.values_eq (h : f.Lists is) (h' : f.Lists js) :
    is.map Located.value = js.map Located.value := by
  have hbytes : encodeAll is = encodeAll js := h.bytes.symm.trans h'.bytes
  refine List.ext_getElem? fun k => ?_
  rw [List.getElem?_map, List.getElem?_map]
  cases hi : is[k]? with
  | some i =>
    obtain ⟨j, hj, hencode⟩ := getElem?_of_encodeAll_eq hbytes hi
    rw [hj]
    exact congrArg some (Instruction.eq_of_encode (h.fits (List.mem_of_getElem? hi))
      (h'.fits (List.mem_of_getElem? hj)) hencode)
  | none =>
    cases hj : js[k]? with
    | none => rfl
    | some j =>
      obtain ⟨i, hi', -⟩ := getElem?_of_encodeAll_eq hbytes.symm hj
      rw [hi] at hi'
      cases hi'

theorem rise_eq_of_values (h : is.map Located.value = js.map Located.value) :
    rise is = rise js := by
  induction is generalizing js with
  | nil =>
    obtain rfl : js = [] := by simpa using h
    rfl
  | cons i rest ih =>
    obtain ⟨j, rest', rfl, hvalue, hrest⟩ := List.map_eq_cons_iff.mp h.symm
    rw [rise, rise, hvalue, ih hrest.symm]

theorem encodeAll_eq_flatMap (is : List (Located Instruction)) :
    encodeAll is = (is.map Located.value).flatMap Instruction.encode := by
  rw [encodeAll, List.flatMap_map]

/-- A call stands at the same place in every listing of its code. -/
theorem Machine.Standing.of_lists {k : Nat} {frame : Frame Value} {region : List Value}
    (h : Standing is k frame region) (hjs : frame.closure.code.Lists js) :
    Standing js k frame region := by
  have hvalues := h.lists.values_eq hjs
  have htake : (is.take k).map Located.value = (js.take k).map Located.value := by
    rw [List.map_take, List.map_take, hvalues]
  refine ⟨hjs, ?_, ?_, ?_⟩
  · have hlength := congrArg List.length hvalues
    rw [List.length_map, List.length_map] at hlength
    have := h.index_le
    omega
  · rw [h.ip, offsetAt, offsetAt, encodeAll_eq_flatMap, htake, ← encodeAll_eq_flatMap]
  · rw [h.height, rise_eq_of_values htake]

end

/-! ### Stretches of code -/

/-- The instructions `js` stand among `is`, from the index `first` on. Their heights and jumps fit
together. -/
structure Stretch (is js : List (Located Instruction)) (first : Nat) : Prop where
  stands : ∃ pre post, is = pre ++ moved (encodeAll pre).length js ++ post ∧ pre.length = first
  balanced : Balanced js

namespace Stretch

variable {is js : List (Located Instruction)} {first k : Nat}

theorem length_le (h : Stretch is js first) : first + js.length ≤ is.length := by
  obtain ⟨pre, post, rfl, rfl⟩ := h.stands
  simp only [List.length_append, length_moved]
  omega

theorem rise_take (h : Stretch is js first) (hk : k ≤ js.length) :
    rise (is.take (first + k)) = rise (is.take first) + rise (js.take k) := by
  obtain ⟨pre, post, rfl, rfl⟩ := h.stands
  rw [rise_inside hk, List.append_assoc, List.take_left]

theorem offsetAt_add (h : Stretch is js first) (hk : k ≤ js.length) :
    offsetAt is (first + k) = offsetAt is first + offsetAt js k := by
  obtain ⟨pre, post, rfl, rfl⟩ := h.stands
  rw [offsetAt_inside hk, Nat.add_right_cancel_iff, offsetAt, List.append_assoc, List.take_left]

/-- An instruction takes only what was pushed since the beginning of the stretch. -/
theorem pops_le (h : Stretch is js first) (hfirst : first ≤ k) (hlast : k < first + js.length)
    {i : Located Instruction} (hi : is[k]? = some i) :
    rise (is.take first) + i.value.pops ≤ rise (is.take k) := by
  obtain ⟨k, rfl⟩ := Nat.exists_eq_add_of_le hfirst
  rw [h.rise_take (by omega)]
  obtain ⟨pre, post, rfl, rfl⟩ := h.stands
  have hlt : k < js.length := by omega
  rw [List.append_assoc, List.getElem?_append_right (by omega), Nat.add_sub_cancel_left,
    List.getElem?_append_left (by simpa using hlt), getElem?_moved, Option.map_eq_some_iff] at hi
  obtain ⟨j, hj, rfl⟩ := hi
  have hpops := (h.balanced hj).pops
  rw [Instruction.pops_moved]
  omega

end Stretch

namespace Compile

/-- The code of a site within the code of a whole one. It raises the stack by what the piece leaves
there. -/
theorem Within.stretch {w s : Site} (h : Within w s) (hw : w.state.Valid)
    (hsits : w.Sits w.instructions) :
    ∃ js first, Stretch w.instructions js first ∧ rise js = s.piece.leaves ∧
      s.code.Extends (moved s.code.stop js) s.codeAfter ∧
      offsetAt w.instructions first = s.code.stop := by
  obtain ⟨pre, js, post, hsplit, hjs, hpre, -⟩ := h.sits hw hsits
  obtain ⟨is, hemitted, hplaced⟩ := s.piece.emits_leaves s.runs (h.later hw).1
  obtain ⟨-, hplaced⟩ := hplaced s.runs
  obtain rfl := hjs.unique hplaced.extended
  rw [← hpre] at hsplit
  refine ⟨is, pre.length, ⟨⟨pre, post, hsplit, rfl⟩, hemitted.balanced⟩, hemitted.rise, hjs, ?_⟩
  rw [← hpre, hsplit, offsetAt, List.append_assoc, List.take_left]

end Compile

namespace Machine

/-! ### Operands that wait -/

/-- What was on the stack is still there, apart from the locals. -/
structure Undisturbed (locals : Nat) (before after : List Value) : Prop where
  length_le : before.length ≤ after.length
  getElem?_eq : ∀ x, locals ≤ x → x < before.length → after[x]? = before[x]?

namespace Undisturbed

variable {locals : Nat} {before r top : List Value}

theorem refl (locals : Nat) (before : List Value) : Undisturbed locals before before :=
  ⟨Nat.le_refl _, fun _ _ _ => rfl⟩

/-- What lies above may change. -/
theorem above (h : Undisturbed locals before (r ++ top)) (hroom : before.length ≤ r.length)
    (new : List Value) : Undisturbed locals before (r ++ new) := by
  refine ⟨by rw [List.length_append]; omega, fun x hx hlt => ?_⟩
  rw [← h.getElem?_eq x hx hlt, List.getElem?_append_left (by omega),
    List.getElem?_append_left (by omega)]

/-- A local may be set. -/
theorem set (h : Undisturbed locals before r) {n : Nat} (hn : n < locals) (v : Value) :
    Undisturbed locals before (r.set n v) := by
  refine ⟨by rw [List.length_set]; exact h.length_le, fun x hx hlt => ?_⟩
  rw [List.getElem?_set_ne (by omega), h.getElem?_eq x hx hlt]

end Undisturbed

/-- A call comes to a stretch of its code: it has `before` on the stack then. -/
structure Walk where
  code : List (Located Instruction)
  stretch : List (Located Instruction)
  first : Nat
  closure : Closure Value
  base : Nat
  before : List Value
  stands : Stretch code stretch first
  height : (before.length : Int) = closure.code.locals + rise (code.take first)

namespace Walk

/-- What is known of the call with the base of the walk, until it is behind the stretch. -/
def Keeps (W : Walk) (is : List (Located Instruction)) (k : Nat) (frame : Frame Value)
    (region : List Value) : Prop :=
  frame.base = W.base → is = W.code ∧ frame.closure = W.closure ∧ W.first ≤ k ∧
    (k ≤ W.first + W.stretch.length → Undisturbed W.closure.code.locals W.before region)

variable {W : Walk} {is : List (Located Instruction)} {k k' : Nat} {frame : Frame Value}
  {r top : List Value} {i : Located Instruction}

/-- Instructions of the stretch leave what was there before it. -/
theorem Keeps.before_le (h : W.Keeps is k frame (r ++ top)) (hbase : frame.base = W.base)
    (hstanding : Standing is k frame (r ++ top)) (hi : is[k]? = some i)
    (htop : top.length ≤ i.value.pops) (hk : k < W.first + W.stretch.length) :
    W.before.length ≤ r.length := by
  obtain ⟨rfl, hclosure, hfirst, -⟩ := h hbase
  have hpops := W.stands.pops_le hfirst hk hi
  have hheight := hstanding.height
  have hbefore := W.height
  rw [List.length_append, hclosure] at hheight
  omega

/-- The call goes on further down. -/
theorem Keeps.next (h : W.Keeps is k frame (r ++ top)) (hstanding : Standing is k frame (r ++ top))
    (hi : is[k]? = some i) (htop : top.length ≤ i.value.pops) (hlt : k < k') {ip : Nat}
    (new : List Value) : W.Keeps is k' { frame with ip } (r ++ new) := by
  intro hbase
  have hroom := h.before_le hbase hstanding hi htop
  obtain ⟨rfl, hclosure, hfirst, hkept⟩ := h hbase
  refine ⟨rfl, hclosure, by omega, fun hle => ?_⟩
  exact (hkept (by omega)).above (hroom (by omega)) new

/-- What is known of the call lasts, if no call further up has its base. -/
theorem lasts_keeps {m : Machine Console Value}
    (hclosures : ∀ v ∈ m.stack, v.Every fun _ f _ => ∃ is, f.Lists is)
    (hbase : ∀ {frame callers}, m.frames = frame :: callers → W.base ≤ frame.base) :
    Lasts W.Keeps m where
  gives hstanding hkeeps hi htop _ :=
    hkeeps.next hstanding hi (Nat.le_of_eq htop) (Nat.lt_succ_self _) _
  drops {is k frame r v i} hstanding hkeeps hi hpops _ := by
    rw [← List.append_nil r]
    exact hkeeps.next hstanding hi (Nat.le_of_eq hpops.symm) (Nat.lt_succ_self _) []
  jumps {is k k' frame r top i} hstanding hkeeps hi _ _ hlt htop := by
    rw [← List.append_nil r]
    exact hkeeps.next hstanding hi (htop ▸ i.value.taken_le_pops) hlt []
  setsLocal {is k frame r v op n span} hstanding hkeeps hi hop _ := by
    have hpops : [v].length ≤ Instruction.pops ⟨op, [n]⟩ := by
      rcases hop with rfl | rfl <;> exact Nat.le_refl 1
    have hslot := hstanding.slot_lt hi hop
    have hnext : W.Keeps is (k + 1) { frame with ip := offsetAt is (k + 1) } (r ++ []) :=
      hkeeps.next hstanding hi hpops (Nat.lt_succ_self k) []
    rw [List.append_nil] at hnext
    intro hbase
    obtain ⟨hcode, hclosure, hfirst, hkept⟩ := hnext hbase
    refine ⟨hcode, hclosure, hfirst, fun hle => (hkept hle).set ?_ v⟩
    rwa [← hclosure]
  calls hstanding hkeeps hi v :=
    hkeeps.next hstanding hi (Nat.le_refl _) (Nat.lt_succ_self _) [v]
  enters {args identity code free frame callers base} hframes hle hcallee hcount := by
    -- the callee has a base of its own further up, so nothing is to be shown of it
    obtain ⟨is, k, hstanding, -⟩ := (lasts_somewhere hclosures).enters hframes hle hcallee hcount
    refine ⟨is, k, hstanding, fun heq => ?_⟩
    have := hbase hframes
    simp only at heq
    omega

/-- The walk of a call that stands at the beginning of a stretch. -/
def of {js : List (Located Instruction)} {first : Nat} {region : List Value}
    (hstretch : Stretch is js first) (hstanding : Standing is first frame region) : Walk :=
  ⟨is, js, first, frame.closure, frame.base, region, hstretch, hstanding.height⟩

end Walk

section

variable {Q : Frame Value → List Value → Prop} {outer callers : List (Frame Value)}
  {floor pre : List Value}

/-- Under the outermost call is the floor. -/
theorem Under.eq_floor (h : Under Q outer floor callers pre) (hcallers : callers = outer) :
    pre = floor := by
  cases h with
  | here => rfl
  | caller hunder =>
    obtain ⟨inner, -, rfl, -⟩ := hunder.exists_append
    have hlength := congrArg List.length hcallers
    rw [List.length_cons, List.length_append] at hlength
    omega

end

variable {m m' : Machine Console Value} {frame : Frame Value} {callers : List (Frame Value)}
  {pre region : List Value} {is js : List (Located Instruction)} {first : Nat}

/-- The call goes on with its walk for as long as it is not left. -/
theorem Walk.rests_of_above (hstretch : Stretch is js first)
    (hclosures : ∀ {m'}, Reaches nativeHost m m' →
      ∀ v ∈ m'.stack, v.Every fun _ f _ => ∃ is, f.Lists is)
    (hframes : m.frames = frame :: callers) (hstack : m.stack = (pre ++ region).toArray)
    (hbase : frame.base = pre.length) (hstanding : Standing is first frame region)
    (habove : ReachesAbove nativeHost callers.length m m') :
    Rests (Stands (Walk.of hstretch hstanding).Keeps) callers pre m' := by
  induction habove with
  | refl =>
    refine ⟨frame, callers, pre, region, hframes, hstack, .here, hbase, is, first, hstanding, ?_⟩
    exact fun _ => ⟨rfl, rfl, Nat.le_refl _, fun _ => .refl _ _⟩
  | @tail m₁ m₂ habove hstep ih =>
    obtain ⟨frame₁, callers₁, pre₁, region₁, hframed⟩ := ih
    -- calls further in have their bases above the locals of this one
    have hlasts : Lasts (Walk.of hstretch hstanding).Keeps m₁ := by
      refine lasts_keeps (hclosures (ReachesAbove.reaches habove)) fun {f fs} hf => ?_
      rw [hframed.frames] at hf
      obtain ⟨rfl, -⟩ := List.cons.inj hf
      obtain ⟨-, rest, -, rfl⟩ := hframed.under.exists_append
      show frame.base ≤ _
      rw [hbase, hframed.base, List.length_append]
      exact Nat.le_add_right _ _
    rcases hframed.turn hlasts hstep.1 with hrests | ⟨-, -, _, _, _, _, _, -, -, -, hleft, -⟩
    · exact hrests
    · -- the walk stays above the callers, so the call is not left
      have hdepth := hstep.2
      rw [hleft] at hdepth
      exact absurd hdepth (Nat.lt_irrefl _)

/-- In the stretch and behind it, the stack is higher by what the instructions before raise it, and
what the call had there is undisturbed. -/
theorem Walk.arrives (hstretch : Stretch is js first)
    (hclosures : ∀ {m'}, Reaches nativeHost m m' →
      ∀ v ∈ m'.stack, v.Every fun _ f _ => ∃ is, f.Lists is)
    (hframes : m.frames = frame :: callers) (hstack : m.stack = (pre ++ region).toArray)
    (hbase : frame.base = pre.length) (hstanding : Standing is first frame region)
    (habove : ReachesAbove nativeHost callers.length m m') {k : Nat} (hk : k ≤ js.length)
    (harrives : m'.frames = { frame with ip := offsetAt is (first + k) } :: callers) :
    ∃ region', m'.stack = (pre ++ region').toArray ∧
      (region'.length : Int) = region.length + rise (js.take k) ∧
      Undisturbed frame.closure.code.locals region region' := by
  obtain ⟨frame', callers', pre', region', hframed⟩ :=
    rests_of_above hstretch hclosures hframes hstack hbase hstanding habove
  have hsame := hframed.frames
  rw [harrives] at hsame
  obtain ⟨rfl, rfl⟩ := List.cons.inj hsame
  obtain rfl := hframed.under.eq_floor rfl
  obtain ⟨is', k', hstanding', hkeeps⟩ := hframed.running
  obtain ⟨rfl, -, -, hkept⟩ := hkeeps rfl
  have hlength := hstretch.length_le
  -- the offset at which the call has arrived tells the instruction
  obtain rfl : first + k = k' :=
    offsetAt_injective (by omega) hstanding'.index_le hstanding'.ip
  refine ⟨region', hframed.stack, ?_, hkept (Nat.add_le_add_left hk first)⟩
  have hheight := hstanding.height
  have hheight' := hstanding'.height
  rw [hstretch.rise_take hk] at hheight'
  simp only at hheight'
  omega

/-- The stack of a call and what is undisturbed of it, by positions. -/
theorem Undisturbed.getElem?_stack {locals x : Nat} {before after : List Value}
    (h : Undisturbed locals before after) (hx : x < (pre ++ before).length)
    (hlocals : ¬ (pre.length ≤ x ∧ x < pre.length + locals)) :
    (pre ++ after).toArray[x]? = (pre ++ before).toArray[x]? := by
  rw [List.getElem?_toArray, List.getElem?_toArray]
  rw [List.length_append] at hx
  by_cases hpre : x < pre.length
  · rw [List.getElem?_append_left hpre, List.getElem?_append_left hpre]
  · rw [List.getElem?_append_right (by omega), List.getElem?_append_right (by omega)]
    exact h.getElem?_eq _ (by omega) (by omega)

end Machine

/-! ### The parts of a program -/

namespace Compile

variable {st last : CompilerState} {ast : Ast} {p : Program} {w s a b c arm : Site}

/-- At the end of both arms of a conditional, there is one value more than at its beginning. -/
theorem Arms.rise_eq (h : Arms s a b c) (hs : s.state.Valid) (harm : arm = b ∨ arm = c)
    {js : List (Located Instruction)} (hjs : s.code.Extends js s.codeAfter) :
    ∃ k, k ≤ js.length ∧ rise (js.take k) = 1 ∧
      s.code.stop + (encodeAll (js.take k)).length = arm.codeAfter.stop := by
  obtain ⟨condition, thenBranch, elseBranch, _, -, hpa, hpb, hpc⟩ := h.pieces
  obtain ⟨hva, hvb, hvc⟩ := h.valid hs
  obtain ⟨ja, jb, jc, hja, hjb, hjc, hall, -, -, hb, hc, hstop⟩ := h.extends hs
  obtain rfl := hjs.unique hall
  -- the parts leave one value each
  have hleaves : ∀ {t : Site} {jt : List (Located Instruction)}, t.state.Valid →
      t.code.Extends jt t.codeAfter → t.piece.leaves = 1 → rise jt = 1 := by
    intro t jt ht hjt hone
    obtain ⟨is, hemitted, hplaced⟩ := t.piece.emits_leaves t.runs ht
    rw [hjt.unique (hplaced t.runs).2.extended, rise_moved, hemitted.rise, hone]
    rfl
  have hrisea := hleaves hva hja (by rw [hpa]; rfl)
  have hriseb := hleaves hvb hjb (by rw [hpb]; rfl)
  have hrisec := hleaves hvc hjc (by rw [hpc]; rfl)
  have ha := congrArg Fragment.stop h.code_a
  have hsa := hja.stop
  have hsb := hjb.stop
  rcases harm with rfl | rfl
  · -- the jump over the other arm comes behind
    have htake : ∀ {is js ks : List (Located Instruction)},
        (is ++ js ++ ks).take is.length = is := by
      intro is js ks
      rw [List.append_assoc, List.take_left]
    refine ⟨_, ?_, by rw [htake, rise_append, rise_append, hrisea, hriseb, rise_singleton]; rfl, ?_⟩
    · simp only [List.length_append]
      omega
    · rw [htake]
      simp only [encodeAll_append, encodeAll_singleton, List.length_append,
        Instruction.length_encode]
      omega
  · refine ⟨_, Nat.le_refl _, ?_, ?_⟩
    · rw [List.take_length]
      simp only [rise_append, hrisea, hriseb, hrisec, rise_singleton]
      rfl
    · rw [List.take_length, ← hall.stop, hstop]

/-- The main code leaves nothing on the stack. -/
theorem Whole.rise_program (hst : st.Valid) (h : Whole st ast none w) :
    rise w.instructions = 0 := by
  have hcode := h.code_eq
  obtain ⟨is, hemitted, hplaced⟩ := w.piece.emits_leaves w.runs (h.occurs.valid hst)
  have hextends := (hplaced w.runs).2.extended
  rw [Site.instructions, hextends.instructions, hcode]
  cases h with | program hpiece =>
  rw [hpiece] at hemitted
  simpa [Piece.leaves] using hemitted.rise

/-- Between the statements of the main code, the stack is as high as at its beginning. -/
theorem Part.rise_program (hst : st.Valid) (hw : Whole st ast none w) (h : Part w s) :
    ∃ k, k ≤ w.instructions.length ∧ offsetAt w.instructions k = s.code.stop ∧
      rise (w.instructions.take k) = 0 ∧ ∃ t, s.piece = .stmt t := by
  have hvalid := hw.occurs.valid hst
  have hcode := hw.code_eq
  cases hw with | program hpiece _ hstate =>
  cases h with
  | arm harms =>
    obtain ⟨_, _, _, _, hs, -⟩ := harms.pieces
    rw [hpiece] at hs
    cases hs
  | @inner before after st₀ hprepare hparts hbefore =>
    obtain ⟨hvalids, -, -, code', st', rest, hafter, hrest⟩ :=
      Site.inner_ok hvalid hprepare hparts hbefore
    rw [hpiece, Piece.parts] at hparts
    -- the statements before the part leave the stack as they found it
    obtain ⟨done, left, -, rfl, hleft⟩ := List.map_eq_append_iff.mp hparts
    obtain ⟨t, -, -, ht, -⟩ := List.map_eq_cons_iff.mp hleft
    rw [← stmts_eq] at hbefore
    obtain ⟨is, hemitted, hplaced⟩ := emits_stmts done hbefore (Piece.valid_prepare hprepare hvalid)
    obtain ⟨js, hjs, -⟩ := s.extends hvalids
    obtain ⟨_, hemits⟩ := emits_compileAll after
    obtain ⟨js', hjs', -⟩ := hemits.extends hafter (Piece.valid s.runs hvalids)
    have hdone := (hplaced hbefore).2.extended
    have hall := hdone.trans ((hjs.trans hjs').trans hrest)
    have hzero : w.code.stop = 0 := by rw [hcode]; rfl
    rw [hzero, moved_zero] at hdone hall
    have hinstructions : w.instructions = is ++ (js ++ js' ++ rest) := by
      rw [Site.instructions, hall.instructions, hcode]
      rfl
    refine ⟨is.length, ?_, ?_, ?_, t, ht.symm⟩
    · rw [hinstructions, List.length_append]
      exact Nat.le_add_right _ _
    · rw [hinstructions, offsetAt, List.take_left, hdone.stop, hzero, Nat.zero_add]
    · rw [hinstructions, List.take_left, hemitted.rise]
      rfl

end Compile

/-- The code of the function was compiled, and the code of the site stands in it. -/
def FunctionCode.Contains (f : FunctionCode) (s : Compile.Site) : Prop :=
  ∃ st ast p last o w, CompilerState.Reachable st ∧ compileFrom st ast = .ok (p, last) ∧
    p.codeOf? o = some f ∧ Compile.Whole st ast o w ∧ Compile.Within w s

theorem FunctionCode.Contains.stretch {f : FunctionCode} {s : Compile.Site} (h : f.Contains s) :
    s.state.Valid ∧ ∃ is js first, f.Lists is ∧ Stretch is js first ∧ rise js = s.piece.leaves ∧
      s.code.Extends (moved s.code.stop js) s.codeAfter ∧ offsetAt is first = s.code.stop := by
  obtain ⟨st, ast, p, last, o, w, hst, hcompile, hf, hwhole, hwithin⟩ := h
  obtain ⟨f', hf', hlists, -⟩ := hwhole.lists_of_ready hst.ready hcompile
  obtain rfl : f = f' := by simpa [hf] using hf'
  have hvalid := hwhole.occurs.valid hst.ready.valid
  obtain ⟨js, first, hstretch, hrise, hextends, hfirst⟩ :=
    hwithin.stretch hvalid (hwhole.sits hst.ready.valid)
  exact ⟨(hwithin.later hvalid).1, _, js, first, hlists, hstretch, hrise, hextends, hfirst⟩

namespace Machine

open Compile

variable {st last : CompilerState} {ast : Ast} {p : Program} {globals : Globals Value}
  {config : MachineConfig} {identity : Nat} {m m' : Machine Console Value} {frame : Frame Value}
  {callers : List (Frame Value)}

variable (hst : st.Reachable) (hcompile : compileFrom st ast = .ok (p, last))
  (hglobals : ∀ v, some v ∈ globals → v.Every fun _ f _ => f.IsCompiled)

include hst hcompile hglobals

/-- All active calls stand in their code, wherever a run gets to. -/
theorem rests_of_reaches
    (hreaches : Reaches nativeHost (start nativeHost config p globals {} identity) m) :
    Rests (Stands Somewhere) [] [] m := by
  induction hreaches with
  | refl =>
    obtain ⟨is, hlists⟩ : ∃ is, (p.main identity).code.Lists is :=
      FunctionCode.IsCompiled.lists ⟨st, ast, p, last, hst, hcompile, .inl rfl⟩
    rw [start_eq]
    exact ⟨_, [], [], [], rfl, rfl, .here, rfl, is, 0, .start hlists 0 rfl, trivial⟩
  | tail hreaches hturn ih =>
    obtain ⟨_, _, _, _, hframed⟩ := ih
    have hlasts := lasts_somewhere (closures_of_reaches hst hcompile hglobals hreaches)
    rcases hframed.turn hlasts hturn with hrests | ⟨-, hne, -⟩
    · exact hrests
    · exact absurd rfl hne

/-- All of a run is above no calls. -/
theorem reachesAbove_of_reaches
    (hreaches : Reaches nativeHost (start nativeHost config p globals {} identity) m)
    (hlater : Reaches nativeHost m m') : ReachesAbove nativeHost 0 m m' := by
  induction hlater with
  | refl => exact .refl
  | tail hlater hturn ih =>
    have hrests := rests_of_reaches hst hcompile hglobals ((hreaches.trans hlater).tail hturn)
    exact ih.tail ⟨hturn, hrests.length_lt⟩

/-- The running call, in some listing of its code. -/
theorem stands_of_reaches
    (hreaches : Reaches nativeHost (start nativeHost config p globals {} identity) m)
    (hframes : m.frames = frame :: callers) :
    ∃ pre region is k, m.stack = (pre ++ region).toArray ∧ frame.base = pre.length ∧
      Standing is k frame region := by
  obtain ⟨frame', callers', pre, region, hframed⟩ :=
    rests_of_reaches hst hcompile hglobals hreaches
  have hsame := hframed.frames
  rw [hframes] at hsame
  obtain ⟨rfl, rfl⟩ := List.cons.inj hsame
  obtain ⟨is, k, hstanding, -⟩ := hframed.running
  exact ⟨pre, region, is, k, hframed.stack, hframed.base, hstanding⟩

/-- The running call, in a given listing of its code. -/
theorem exists_standing
    (hreaches : Reaches nativeHost (start nativeHost config p globals {} identity) m)
    (hframes : m.frames = frame :: callers) {is : List (Located Instruction)}
    (hlists : frame.closure.code.Lists is) :
    ∃ pre region k, m.stack = (pre ++ region).toArray ∧ frame.base = pre.length ∧
      Standing is k frame region := by
  obtain ⟨pre, region, is', k, hstack, hbase, hstanding⟩ :=
    stands_of_reaches hst hcompile hglobals hreaches hframes
  exact ⟨pre, region, k, hstack, hbase, hstanding.of_lists hlists⟩

/-- Calls that stand at the same place of the same code have equally much on the stack. -/
theorem size_sub_base_eq {frame' : Frame Value} {callers' : List (Frame Value)}
    (hreaches : Reaches nativeHost (start nativeHost config p globals {} identity) m)
    (hreaches' : Reaches nativeHost (start nativeHost config p globals {} identity) m')
    (hframes : m.frames = frame :: callers) (hframes' : m'.frames = frame' :: callers')
    (hcode : frame.closure.code = frame'.closure.code) (hip : frame.ip = frame'.ip) :
    m.stack.size - frame.base = m'.stack.size - frame'.base := by
  obtain ⟨pre, region, is, k, hstack, hbase, hstanding⟩ :=
    stands_of_reaches hst hcompile hglobals hreaches hframes
  obtain ⟨pre', region', k', hstack', hbase', hstanding'⟩ :=
    exists_standing hst hcompile hglobals hreaches' hframes' (hcode ▸ hstanding.lists)
  obtain rfl : k = k' := by
    refine offsetAt_injective hstanding.index_le hstanding'.index_le ?_
    rw [← hstanding.ip, ← hstanding'.ip, hip]
  have hheight := hstanding.height
  have hheight' := hstanding'.height
  rw [hcode] at hheight
  rw [hstack, hstack', hbase, hbase']
  simp only [List.size_toArray, List.length_append]
  omega

/-- A call that comes from the beginning of a site to a place in its code. -/
theorem arrives_of_contains
    (hreaches : Reaches nativeHost (start nativeHost config p globals {} identity) m)
    (hframes : m.frames = frame :: callers) {s : Site} (hs : frame.closure.code.Contains s)
    (hstart : frame.ip = s.code.stop) {js : List (Located Instruction)} {k : Nat}
    (hjs : s.code.Extends js s.codeAfter) (hk : k ≤ js.length)
    (habove : ReachesAbove nativeHost callers.length m m')
    (harrives : m'.frames =
      { frame with ip := s.code.stop + (encodeAll (js.take k)).length } :: callers) :
    (m'.stack.size : Int) = m.stack.size + rise (js.take k) ∧
      ∀ x < m.stack.size, ¬ (frame.base ≤ x ∧ x < frame.base + frame.closure.code.locals) →
        m'.stack[x]? = m.stack[x]? := by
  obtain ⟨-, is, js', first, hlists, hstretch, -, hextends, hfirst⟩ := hs.stretch
  obtain rfl := hjs.unique hextends
  rw [length_moved] at hk
  rw [take_moved, length_encodeAll_moved] at harrives
  obtain ⟨pre, region, k', hstack, hbase, hstanding⟩ :=
    exists_standing hst hcompile hglobals hreaches hframes hlists
  have hlength := hstretch.length_le
  -- the call stands at the beginning of the stretch
  obtain rfl : k' = first := by
    refine offsetAt_injective hstanding.index_le (by omega) ?_
    rw [hfirst, ← hstart, hstanding.ip]
  obtain ⟨region', hstack', hrise, hundisturbed⟩ := Walk.arrives hstretch
    (fun h => closures_of_reaches hst hcompile hglobals (hreaches.trans h)) hframes hstack hbase
    hstanding habove hk (by rw [harrives, hstretch.offsetAt_add hk, hfirst]; rfl)
  rw [hstack, hstack', take_moved, rise_moved, hbase]
  refine ⟨?_, fun x hx hlocals => hundisturbed.getElem?_stack (by simpa using hx) hlocals⟩
  simp only [List.size_toArray, List.length_append]
  omega

/-- The main code, when it runs, has only its temporaries on the stack. -/
theorem standing_main
    (hreaches : Reaches nativeHost (start nativeHost config p globals {} identity) m)
    (hframes : m.frames = [frame]) {w : Site} (hw : Whole st ast none w) :
    frame.closure = p.main identity ∧ frame.base = 0 ∧
      ∃ k, k ≤ w.instructions.length ∧ frame.ip = offsetAt w.instructions k ∧
        frame.code.bytes.toList = encodeAll w.instructions ∧
        (m.stack.size : Int) = rise (w.instructions.take k) := by
  obtain ⟨f, hf, hlists, -⟩ := hw.lists_of_ready hst.ready hcompile
  obtain rfl : (p.main identity).code = f := Option.some.inj hf
  -- the whole main code is one stretch, which the run never leaves
  have hstretch : Stretch w.instructions w.instructions 0 := by
    obtain ⟨l, -, hcompiled⟩ := hlists.compiled
    exact ⟨⟨[], [], by simp, rfl⟩, hcompiled.balanced⟩
  have hstanding : Standing w.instructions 0 { closure := p.main identity } [] :=
    .start hlists 0 rfl
  have hfirst : (start nativeHost config p globals {} identity).frames =
      [{ closure := p.main identity }] := by
    rw [start_eq]
  have hstack : (start nativeHost config p globals {} identity).stack =
      (([] : List Value) ++ []).toArray := by
    rw [start_eq]
    rfl
  obtain ⟨frame', callers', pre, region, hframed⟩ := Walk.rests_of_above hstretch
    (closures_of_reaches hst hcompile hglobals) hfirst hstack rfl hstanding
    (reachesAbove_of_reaches hst hcompile hglobals .refl hreaches)
  have hsame := hframed.frames
  rw [hframes] at hsame
  obtain ⟨rfl, rfl⟩ := List.cons.inj hsame
  obtain rfl := hframed.under.eq_floor rfl
  obtain ⟨is, k, hstanding', hkeeps⟩ := hframed.running
  obtain ⟨rfl, hclosure, -⟩ := hkeeps hframed.base
  refine ⟨hclosure, hframed.base, k, hstanding'.index_le, hstanding'.ip, hstanding'.lists.bytes, ?_⟩
  have hheight := hstanding'.height
  rw [hclosure] at hheight
  show _ = rise ((Walk.of hstretch hstanding).code.take k)
  rw [hframed.stack]
  simpa [Walk.of, Program.main] using hheight

/-- Where the height of the main code is the one at its beginning, the stack is empty. -/
theorem stack_eq_empty
    (hreaches : Reaches nativeHost (start nativeHost config p globals {} identity) m)
    (hframes : m.frames = [frame]) {w : Site} (hw : Whole st ast none w) {k : Nat}
    (hk : k ≤ w.instructions.length) (hip : frame.ip = offsetAt w.instructions k)
    (hrise : rise (w.instructions.take k) = 0) : m.stack = #[] := by
  obtain ⟨-, -, k', hk', hip', -, hsize⟩ :=
    standing_main hst hcompile hglobals hreaches hframes hw
  obtain rfl : k = k' := offsetAt_injective hk hk' (hip.symm.trans hip')
  refine Array.eq_empty_of_size_eq_zero ?_
  omega

/-- The main code has nothing on the stack between its statements. -/
theorem stack_between
    (hreaches : Reaches nativeHost (start nativeHost config p globals {} identity) m)
    (hframes : m.frames = [frame]) {w s : Site} (hw : Whole st ast none w) (hpart : Part w s)
    (hip : frame.ip = s.code.stop ∨ frame.ip = s.codeAfter.stop) : m.stack = #[] := by
  obtain ⟨k, hk, hoffset, hrise, t, ht⟩ := hpart.rise_program hst.ready.valid hw
  rcases hip with hip | hip
  · exact stack_eq_empty hst hcompile hglobals hreaches hframes hw hk (hip.trans hoffset.symm)
      hrise
  · -- the statement leaves nothing
    have hvalid := hw.occurs.valid hst.ready.valid
    obtain ⟨js, first, hstretch, hleaves, hextends, hfirst⟩ :=
      Within.stretch (.single hpart) hvalid (hw.sits hst.ready.valid)
    have hlength := hstretch.length_le
    obtain rfl : k = first := offsetAt_injective hk (by omega) (hoffset.trans hfirst.symm)
    refine stack_eq_empty hst hcompile hglobals hreaches hframes hw hlength ?_ ?_
    · rw [hip, hextends.stop, length_encodeAll_moved, hstretch.offsetAt_add (Nat.le_refl _),
        hoffset, offsetAt_length]
    · rw [hstretch.rise_take (Nat.le_refl _), List.take_length, hrise, hleaves, ht]
      rfl

/-- Nor has it at its end. -/
theorem stack_of_atEnd
    (hreaches : Reaches nativeHost (start nativeHost config p globals {} identity) m)
    (hend : m.AtEnd) : m.stack = #[] := by
  obtain ⟨frame, hframes, hfinished⟩ := hend
  obtain ⟨w, hw, -⟩ := exists_program hst.ready hcompile
  obtain ⟨-, -, k, hk, hip, hbytes, -⟩ := standing_main hst hcompile hglobals hreaches hframes hw
  have hsize : frame.code.bytes.size = (encodeAll w.instructions).length := by
    rw [← Array.length_toList, hbytes]
  have hle : frame.code.bytes.size ≤ frame.ip := by simpa [Frame.isFinished] using hfinished
  obtain rfl : k = w.instructions.length := by
    refine Nat.le_antisymm hk (Nat.le_of_not_lt fun hlt => ?_)
    have := offsetAt_lt hlt (Nat.le_refl _)
    rw [offsetAt_length] at this
    omega
  refine stack_eq_empty hst hcompile hglobals hreaches hframes hw (Nat.le_refl _) hip ?_
  rw [List.take_length, hw.rise_program hst.ready.valid]

end Machine

open Compile Machine

/-- Expressions leave one value on the stack, and statements leave none. Take a call that stands at
the beginning of the code of an expression or a statement, and where it stands at the end, not
having been left. For an expression the stack is higher by one then, for a statement it is as high,
and nothing below has changed but the locals of the call. So both arms of a conditional end with one
value more than there were before it; indeed all calls that stand at the same place of the same code
have equally much on the stack. The main code has nothing there between its statements, and a
program that ends without returning a value leaves nothing. -/
theorem stack_heights {st last : CompilerState} {ast : Ast} {p : Program}
    {globals : Globals Value} {config : MachineConfig} {identity : Nat} (hst : st.Reachable)
    (hcompile : compileFrom st ast = .ok (p, last))
    (hglobals : ∀ v, some v ∈ globals → v.Every fun _ f _ => f.IsCompiled) :
    (∀ {m m' frame callers s},
      Reaches nativeHost (start nativeHost config p globals {} identity) m →
      m.frames = frame :: callers → frame.closure.code.Contains s → frame.ip = s.code.stop →
      ReachesAbove nativeHost callers.length m m' →
      m'.frames = { frame with ip := s.codeAfter.stop } :: callers →
      ((∃ e, s.piece = .expr e) → m'.stack.size = m.stack.size + 1) ∧
      ((∃ t, s.piece = .stmt t) → m'.stack.size = m.stack.size) ∧
      ∀ x < m.stack.size, ¬ (frame.base ≤ x ∧ x < frame.base + frame.closure.code.locals) →
        m'.stack[x]? = m.stack[x]?) ∧
    (∀ {m m' frame callers s condition thenArm elseArm arm},
      Reaches nativeHost (start nativeHost config p globals {} identity) m →
      m.frames = frame :: callers → frame.closure.code.Contains s → frame.ip = s.code.stop →
      Arms s condition thenArm elseArm → arm = thenArm ∨ arm = elseArm →
      ReachesAbove nativeHost callers.length m m' →
      m'.frames = { frame with ip := arm.codeAfter.stop } :: callers →
      m'.stack.size = m.stack.size + 1) ∧
    (∀ {m m' frame frame' callers callers'},
      Reaches nativeHost (start nativeHost config p globals {} identity) m →
      Reaches nativeHost (start nativeHost config p globals {} identity) m' →
      m.frames = frame :: callers → m'.frames = frame' :: callers' →
      frame.closure.code = frame'.closure.code → frame.ip = frame'.ip →
      m.stack.size - frame.base = m'.stack.size - frame'.base) ∧
    (∀ {m frame w s}, Reaches nativeHost (start nativeHost config p globals {} identity) m →
      m.frames = [frame] → Whole st ast none w → Part w s →
      frame.ip = s.code.stop ∨ frame.ip = s.codeAfter.stop → m.stack = #[]) ∧
    ∀ {fuel v m}, runProgram fuel config p globals identity = (.value v, m) →
      m.stack = #[] ∨ ∃ m₁ i m₂,
        Reaches nativeHost (start nativeHost config p globals {} identity) m₁ ∧
        m₁.frames.length = 1 ∧ m₁.Fetches i m₂ ∧ (i.opcode = .returnValue ∨ i.opcode = .ret) ∧
        turn nativeHost m₁ = .halt (.value v, m) := by
  refine ⟨?_, ?_, ?_, ?_, ?_⟩
  · intro m m' frame callers s hreaches hframes hs hstart habove harrives
    obtain ⟨-, -, js, -, -, -, hrise, hextends, -⟩ := hs.stretch
    have hstop := hextends.stop
    rw [← List.take_length (l := moved s.code.stop js)] at hstop
    rw [hstop] at harrives
    obtain ⟨hsize, hkept⟩ := arrives_of_contains hst hcompile hglobals hreaches hframes hs hstart
      hextends (Nat.le_refl _) habove harrives
    rw [List.take_length, rise_moved, hrise] at hsize
    refine ⟨?_, ?_, hkept⟩
    · rintro ⟨e, he⟩
      rw [he] at hsize
      simp only [Piece.leaves] at hsize
      omega
    · rintro ⟨t, ht⟩
      rw [ht] at hsize
      simp only [Piece.leaves] at hsize
      omega
  · intro m m' frame callers s a b c arm hreaches hframes hs hstart harms harm habove harrives
    obtain ⟨hvalid, -, js, -, -, -, -, hextends, -⟩ := hs.stretch
    obtain ⟨k, hk, hrise, hstop⟩ := harms.rise_eq hvalid harm hextends
    rw [← hstop] at harrives
    obtain ⟨hsize, -⟩ := arrives_of_contains hst hcompile hglobals hreaches hframes hs hstart
      hextends hk habove harrives
    omega
  · intro m m' frame frame' callers callers' hreaches hreaches' hframes hframes' hcode hip
    exact size_sub_base_eq hst hcompile hglobals hreaches hreaches' hframes hframes' hcode hip
  · intro m frame w s hreaches hframes hw hpart hip
    exact stack_between hst hcompile hglobals hreaches hframes hw hpart hip
  · intro fuel v m hrun
    obtain ⟨m₁, hreaches, hhalt⟩ := exists_halt hrun nofun
    rcases finish_or_left hhalt with ⟨hend | hnone, hfinish⟩ | ⟨hleft, i, m₂, hfetches, hop⟩
    · rw [Session.finish_native] at hfinish
      cases hfinish
      exact .inl (stack_of_atEnd hst hcompile hglobals hreaches hend)
    · have hrests := rests_of_reaches hst hcompile hglobals hreaches
      have := hrests.length_lt
      rw [hnone] at this
      exact absurd this (Nat.lt_irrefl _)
    · exact .inr ⟨m₁, i, m₂, hreaches, hleft.main, hfetches, hop, hhalt⟩

/-- `(fn(x) { let y = x; 1 + if (y) { return 7; } else { 2 } })(true)`: the call is left while an
operand waits in it. -/
def leftWaiting : Expr :=
  let choice : Expr := .conditional (.identifier "y" {}) (.mk [.ret (some (.integer 7 {})) {}] {})
    (some (.mk [.expression (.integer 2 {}) {}] {})) {}
  .call (.function none [⟨"x", {}⟩]
    (.mk [.declare .constant "y" (.identifier "x" {}) {},
      .expression (.binary .add (.integer 1 {}) choice {}) {}] {}) {}) [.boolean true {}] {}

/-- The call is an operand itself, and another one waits for it. -/
def waitingSum : Ast :=
  ⟨[.expression (.binary .add (.integer 5 {}) leftWaiting {}) {}]⟩

theorem run_waitingSum : ((compileFrom {} waitingSum).toOption.bind fun r =>
    (after nativeHost 1 (start nativeHost {} r.1 #[] {} 0)).bind fun m =>
      (after nativeHost 10 m).map fun m' =>
        (m.frames.map (·.ip), m.stack.size, m'.frames.map (·.ip))) = some ([3], 1, [10]) := by
  decide +kernel

/-- Where the code of the call begins and ends. -/
theorem stops_leftWaiting : (((Piece.compileAll [.expr (.integer 5 {})] {}).run {}).toOption.bind
    fun r => ((Piece.expr leftWaiting).compile r.1 |>.run r.2).toOption.map fun r' =>
      (r.1.stop, r'.1.stop)) = some (3, 10) := by
  decide +kernel

/-- The site of the call. -/
theorem exists_leftWaiting {p : Program} {last : CompilerState}
    (hcompile : compileFrom {} waitingSum = .ok (p, last)) :
    ∃ w s, Whole {} waitingSum none w ∧ Within w s ∧ s.piece = .expr leftWaiting ∧
      s.code.stop = 3 ∧ s.codeAfter.stop = 10 := by
  obtain ⟨w, hw, -⟩ := exists_program .init hcompile
  have hoccurs := hw.occurs
  have hcode := hw.code_eq
  cases hw with | program hpiece _ hstate =>
  obtain ⟨s₁, h₁, hs₁, hcode₁, hprepare₁⟩ := hoccurs.exists_first (by rw [hpiece]; rfl)
  obtain ⟨s₂, h₂, hs₂, hcode₂, hprepare₂⟩ := h₁.exists_first (by rw [hs₁]; rfl)
  have hparts : s₂.piece.parts = [.expr (.integer 5 {})] ++ .expr leftWaiting :: [] := by
    rw [hs₂]
    rfl
  obtain ⟨st₀, s, hs, hpiece', hprepare, hbefore⟩ := h₂.exists_part hparts
  rw [hs₂] at hprepare
  rw [hs₁] at hprepare₂
  rw [hpiece] at hprepare₁
  obtain ⟨-, h₀⟩ := pure_ok.mp hprepare
  obtain ⟨-, h₁'⟩ := pure_ok.mp hprepare₁
  obtain ⟨-, h₂'⟩ := pure_ok.mp hprepare₂
  -- nothing comes before the operand 5, so it is compiled as in the evaluation of the offsets
  rw [← h₀, ← h₂', ← h₁', hstate, hcode₂, hcode₁, hcode] at hbefore
  obtain ⟨w', hwhole, hwithin⟩ := hs.exists_whole
  have hruns := s.runs
  rw [hpiece'] at hruns
  have hstops := stops_leftWaiting
  rw [hbefore] at hstops
  simp only [Except.toOption, Option.bind_some, hruns, Option.map_some, Option.some.injEq,
    Prod.mk.injEq] at hstops
  exact ⟨w', s, hwhole, hwithin, hpiece', hstops.1, hstops.2⟩

/-- The call leaves one value above the operand that waits for it. -/
theorem waitingSum_heights : ∃ p last m m', compileFrom {} waitingSum = .ok (p, last) ∧
    Reaches nativeHost (start nativeHost {} p #[] {} 0) m ∧ Reaches nativeHost m m' ∧
    m.stack.size = 1 ∧ m'.stack.size = 2 ∧ m'.stack[0]? = m.stack[0]? := by
  obtain ⟨⟨p, last⟩, hcompile, h⟩ := Option.bind_eq_some_iff.mp run_waitingSum
  obtain ⟨m, hm, h⟩ := Option.bind_eq_some_iff.mp h
  obtain ⟨m', hm', h⟩ := Option.map_eq_some_iff.mp h
  simp only [Prod.mk.injEq, List.map_eq_singleton_iff] at h
  obtain ⟨⟨frame, hframes, hip⟩, hsize, frame', hframes', hip'⟩ := h
  have hcompile' := eq_ok_of_toOption hcompile
  have hreaches := reaches_of_after hm
  have hlater := reaches_of_after hm'
  have hglobals : ∀ v : Value, some v ∈ (#[] : Globals Value) →
      v.Every fun _ f _ => f.IsCompiled := by simp
  obtain ⟨w, s, hw, hwithin, hpiece, hstart, hstop⟩ := exists_leftWaiting hcompile'
  -- both machines run the main code
  obtain ⟨hclosure, hbase, -⟩ := standing_main .init hcompile' hglobals hreaches hframes hw
  obtain ⟨hclosure', hbase', -⟩ :=
    standing_main .init hcompile' hglobals (hreaches.trans hlater) hframes' hw
  have hcontains : frame.closure.code.Contains s := by
    rw [hclosure]
    exact ⟨{}, _, p, last, none, w, .init, hcompile', rfl, hw, hwithin⟩
  have harrives : m'.frames = [{ frame with ip := s.codeAfter.stop }] := by
    obtain ⟨closure', ip', base'⟩ := frame'
    simp only at hclosure' hbase' hip'
    rw [hframes', hclosure, hbase, hstop, hclosure', hbase', hip']
  have habove := reachesAbove_of_reaches .init hcompile' hglobals hreaches hlater
  obtain ⟨hone, -, hkept⟩ := (stack_heights .init hcompile' hglobals).1 hreaches hframes hcontains
    (hip.trans hstart.symm) habove harrives
  refine ⟨p, last, m, m', hcompile', hreaches, hlater, hsize, ?_, ?_⟩
  · rw [hone ⟨_, hpiece⟩, hsize]
  · -- the main code has no locals
    refine hkept 0 (by omega) ?_
    rw [hclosure, hbase]
    simp [Program.main]
end Bytescript
